import Sniper.Levels.Changes
import Sniper.Levels.Elsewhere
set_option autoImplicit false

/-! What the search for a line through the levels does to its copies. -/

namespace Sniper.Levels
open Sniper.Coherence (MsgType ShmemMsg)
open Sniper.Lib (except_bind_eq_ok)
open Levels.Core

variable {ι Addr D : Type} [DecidableEq ι] [DecidableEq Addr]

namespace Hierarchy

variable {H : Hierarchy ι Addr} {X : Addr} {e : Expected ι D} {self up requester : ι}
variable {s s' s'' : Core ι Addr D} {op : MemOp D} {l : Line D}

/-- Lines appear, or are allowed more, in the level `i` and above it only, and not in the
first level; the last level is not made SHARED. -/
structure Confined (H : Hierarchy ι Addr) (X : Addr) (i : ι) (s s' : Core ι Addr D) : Prop where
  outside : ∀ m l', H.prevs m = [] ∨ H.level m < H.level i → s'.lines m X = some l' →
    ∃ l, s.lines m X = some l ∧ rank l'.cstate ≤ rank l.cstate
  last : ∀ l', s'.lines H.last X = some l' → rank l'.cstate ≤ 1 →
    ∃ l, s.lines H.last X = some l ∧ l.cstate = l'.cstate
  evicting : ∀ i, (s'.evicting i).map Prod.fst = (s.evicting i).map Prod.fst
  accesses : s'.accesses = s.accesses

section Confined

omit [DecidableEq ι] [DecidableEq Addr]

theorem confined_of_shrinks (h : Shrinks H X s s') :
    H.Confined X self s s' where
  outside m l' _ := h.lines m l'
  last l' hl' _ := by
    obtain ⟨l, hl, -⟩ := h.lines _ l' hl'
    exact ⟨l, hl, (h.last l l' hl hl').symm⟩
  evicting := h.evicting
  accesses := h.accesses

theorem Confined.trans (h : H.Confined X self s s') (h' : H.Confined X self s' s'') :
    H.Confined X self s s'' where
  outside m l'' hm hl'' := by
    obtain ⟨l', hl', hle'⟩ := h'.outside m l'' hm hl''
    obtain ⟨l, hl, hle⟩ := h.outside m l' hm hl'
    exact ⟨l, hl, hle'.trans hle⟩
  last l'' hl'' hle := by
    obtain ⟨l', hl', hst'⟩ := h'.last l'' hl'' hle
    obtain ⟨l, hl, hst⟩ := h.last l' hl' (hst' ▸ hle)
    exact ⟨l, hl, hst.trans hst'⟩
  evicting i := (h'.evicting i).trans (h.evicting i)
  accesses := h'.accesses.trans h.accesses

theorem Confined.down (h : H.Confined X up s s') (hn : H.next self = some up) :
    H.Confined X self s s' where
  outside m l' hm := h.outside m l' (hm.imp id fun hlt => hlt.trans (H.level_lt hn))
  last := h.last
  evicting := h.evicting
  accesses := h.accesses

theorem Confined.gone (h : H.Confined X self s s') {m : ι}
    (hm : H.prevs m = [] ∨ H.level m < H.level self) (hnone : s.lines m X = none) :
    s'.lines m X = none := by
  cases hl : s'.lines m X with
  | none => rfl
  | some l' =>
    obtain ⟨l, hl', -⟩ := h.outside m l' hm hl
    rw [hnone] at hl'
    cases hl'

end Confined

theorem confined_setLine (hself : H.prevs self ≠ []) (hlast : self ≠ H.last)
    (l : Option (Line D)) : H.Confined X self s (s.setLine self X l) where
  outside m l' hm hl' := by
    have hne : m ≠ self := by
      rintro rfl
      rcases hm with hm | hm
      · exact hself hm
      · exact absurd hm (lt_irrefl _)
    rw [setLine_lines_off hne] at hl'
    exact ⟨l', hl', le_rfl⟩
  last l' hl' _ := by
    rw [setLine_lines_off hlast.symm] at hl'
    exact ⟨l', hl', rfl⟩
  evicting _ := rfl
  accesses := rfl

omit [DecidableEq ι] [DecidableEq Addr] in
theorem prevs_ne_nil (hn : H.next requester = some self) : H.prevs self ≠ [] := by
  intro hnil
  have hmem := H.mem_prevs.mpr hn
  rw [hnil] at hmem
  cases hmem

theorem insertCacheBlock_keeps {cstate : CacheState} {data : D}
    (h : H.insertCacheBlock self X cstate data s = .ok s')
    (hg : ((s.setLine self X (some ⟨cstate, data⟩)).copies X fun _ => none).Good H e) :
    (s'.copies X fun _ => none).Good H e ∧
      Shrinks H X (s.setLine self X (some ⟨cstate, data⟩)) s' := by
  unfold insertCacheBlock at h
  split at h
  · cases h
  rename_i hnone
  cases hins : insertLine H.place self X ⟨cstate, data⟩ s with
  | mk writebacks u =>
    rw [hins] at h
    dsimp only at h
    split at h
    · cases h
    · obtain ⟨out, hd⟩ := insertLine_displaces (by simpa using hnone) hins X
      exact handleWritebacks_displaced (call_keeps H X H.depth) hd h hg

/-- What a cache copies from the next level is what that level has. -/
theorem copyDataFromNextLevel_keeps (away : Option ι)
    (h : H.copyDataFromNextLevel self up op X s = .ok s') (hn : H.next self = some up)
    (hnone : s.lines self X = none) (hg : (s.copies X fun _ => none).Good H e)
    (hclean : ∀ m lm, H.next m = some up → s.lines m X = some lm → lm.cstate ≠ .modified)
    (hpaid : ∀ i, ¬e.paid i) (haway : e.away = some self → op.exclusive = true)
    (hback : ∀ i, e.away = some i → i ≠ self → away = some i) :
    (s'.copies X fun _ => none).Good H { e with away := away } ∧
      ∃ l, s.lines up X = some l ∧ permissible op (some l) = true ∧
        Shrinks H X (s.setLine self X (some l)) s' := by
  unfold copyDataFromNextLevel at h
  split at h
  · cases h
  rename_i l hl
  split at h
  · cases h
  rename_i hp
  rw [Bool.not_eq_false] at hp
  split at h
  · rename_i hsome
    rw [hnone] at hsome
    cases hsome
  have hst : l.cstate ≠ .sharedUpgrading := by
    intro hst
    cases op <;> simp [permissible, MemOp.exclusive, hst, CacheState.writable,
      CacheState.readable] at hp
  have hm : op.exclusive = true → l.cstate = .modified := by
    intro hop
    simp only [permissible, hop, if_true] at hp
    cases hc : l.cstate <;> simp [hc, CacheState.writable] at hp
    rfl
  have hfill : ((s.setLine self X (some l)).copies X fun _ => none).Good H
      { e with away := away } := by
    refine hg.fill rfl (agreeOff_setLine _ fun _ _ => rfl) hnone setLine_lines_self rfl rfl hn hl
      hst (prevs_ne_nil hn) ?_ hpaid (fun ha => hm (haway ha)) hback
    intro m hm hd
    obtain ⟨lm, hlm, hdirty⟩ := hd
    rw [Copies.copy_idle rfl] at hlm
    exact hclean m lm hm hlm hdirty
  obtain ⟨hg', hs'⟩ := insertCacheBlock_keeps h hfill
  exact ⟨hg', l, hl, hp, hs'⟩

section Siblings

theorem updateSiblings_invalidate (hnone : s.lines requester X = none)
    (h : H.updateSiblings requester self X .invalid s = .ok s')
    (hg : (s.copies X fun _ => none).Good H e) :
    (s'.copies X fun _ => none).Good H e ∧ Shrinks H X s s' ∧
      ∀ m, H.next m = some self → s'.lines m X = none := by
  obtain ⟨hg', hs', hall⟩ := updatePrevs_invalidate (call_keeps H X H.depth) h hg
  refine ⟨hg', hs', fun m hm => ?_⟩
  by_cases hreq : m = requester
  · exact hreq ▸ hs'.gone hnone
  · exact hall m (List.mem_filter.mpr ⟨H.mem_prevs.mpr hm, by simpa using hreq⟩)

theorem updateSiblings_share (hnone : s.lines requester X = none)
    (h : H.updateSiblings requester self X .shared s = .ok s')
    (hg : (s.copies X fun _ => none).Good H e) :
    (s'.copies X fun _ => none).Good H e ∧ Shrinks H X s s' ∧
      ∀ m l, H.next m = some self → s'.lines m X = some l → rank l.cstate ≤ 1 := by
  have hlow : ∀ p ∈ (H.prevs self).filter (· ≠ requester), H.next p ≠ none := by
    intro p hp
    rw [H.mem_prevs.mp (List.mem_of_mem_filter hp)]
    simp
  obtain ⟨hg', hs', hall⟩ := updatePrevs_share (call_keeps H X H.depth) hlow h hg
  refine ⟨hg', hs', fun m l hm hl => ?_⟩
  by_cases hreq : m = requester
  · rw [hreq, hs'.gone hnone] at hl
    cases hl
  · exact hall m (List.mem_filter.mpr ⟨H.mem_prevs.mpr hm, by simpa using hreq⟩) l hl

/-- After a hit no previous level has a MODIFIED line, and none has any for a store. -/
theorem snoop_keeps (hnone : s.lines requester X = none) (hl : s.lines self X = some l)
    (h : H.snoop requester self op X l.cstate s = .ok s')
    (hg : (s.copies X fun _ => none).Good H e) :
    (s'.copies X fun _ => none).Good H e ∧ Shrinks H X s s' ∧
      (∀ m lm, H.next m = some self → s'.lines m X = some lm → lm.cstate ≠ .modified) ∧
        (op.exclusive = true → ∀ m, H.next m = some self → s'.lines m X = none) := by
  unfold snoop snoopState at h
  by_cases hop : op.exclusive = true
  · simp only [hop, if_true] at h
    obtain ⟨hg', hs', hall⟩ := updateSiblings_invalidate hnone h hg
    refine ⟨hg', hs', fun m lm hm hlm => ?_, fun _ => hall⟩
    rw [hall m hm] at hlm
    cases hlm
  · simp only [hop] at h
    by_cases hst : l.cstate = .modified ∨ l.cstate = .exclusive
    · simp only [hst, if_true] at h
      obtain ⟨hg', hs', hall⟩ := updateSiblings_share hnone h hg
      refine ⟨hg', hs', fun m lm hm hlm hmod => ?_, fun hop' => absurd hop' hop⟩
      have hle := hall m lm hm hlm
      simp [hmod, rank] at hle
    · simp only [hst] at h
      cases h
      refine ⟨hg, .refl H X _, fun m lm hm hlm hmod => ?_, fun hop' => absurd hop' hop⟩
      have hd : (s.copies X fun _ => none).Dirty m := ⟨lm, Copies.copy_of_line hlm, hmod⟩
      obtain ⟨l', hl', hmod'⟩ := (hg.of_idle rfl).dirty_next hd hm
      rw [Copies.copy_of_line (c := s.copies X fun _ => none) hl, Option.some.injEq] at hl'
      exact hst (.inl (hl' ▸ hmod'))

end Siblings

/-- A controller has the line, and no previous level has newer contents. For a store none has
the line at all, unless a cache of two levels below had it under an EXCLUSIVE line. -/
structure Found (H : Hierarchy ι Addr) (X : Addr) (i : ι) (op : MemOp D)
    (s s' : Core ι Addr D) : Prop where
  clean : ∀ m l, H.next m = some i → s'.lines m X = some l → l.cstate ≠ .modified
  alone : op.exclusive = true →
    (i ≠ H.last → (s.lines i X).map Line.cstate = some .exclusive →
      ∀ m, H.next m = some i → s.lines m X = none) →
    ∀ m, H.next m = some i → s'.lines m X = none

variable {waiter : Waiter ι D} {hit : Bool}

theorem missAtLast_keeps (hnone : s.lines requester X = none)
    (hn : H.next requester = some H.last) (hg : (s.copies X fun _ => none).Good H e)
    (h : H.missAtLast requester H.last waiter X s = .ok (hit, s')) :
    (hit = true ∧ (s'.copies X fun _ => none).Good H e ∧ H.Confined X H.last s s' ∧
      ∀ m, H.next m = some H.last → s'.lines m X = none) ∨
    (hit = false ∧ (s.lines H.last X).map Line.cstate ≠ some .exclusive ∧
      H.initiateDirectoryAccess waiter X s = .ok s') := by
  rcases missAtLast_cases h with ⟨hst, rfl, u, l, hsib, hl, rfl⟩ | ⟨hst, rfl, hacc⟩
  · obtain ⟨hg', hs', hall⟩ := updateSiblings_invalidate hnone hsib hg
    obtain ⟨l₀, hl₀, hst₀⟩ := Option.map_eq_some_iff.mp hst
    have hex : l.cstate = .exclusive := (hs'.last l₀ l hl₀ hl).trans hst₀
    have hset : (u.setCState H.last X .modified).lines H.last X =
        some { l with cstate := .modified } := by
      rw [setCState, setLine_lines_self, hl]
      rfl
    refine .inl ⟨rfl, ?_, (confined_of_shrinks hs').trans ⟨?_, ?_, fun _ => rfl, rfl⟩, ?_⟩
    · exact hg'.raiseLast .modified rfl (agreeOff_setLine _ fun _ _ => rfl) hl (by simp [hex]) hset
        rfl rfl (.inr (.inr (.inl rfl))) (by simp [hex, rank])
    · intro m l' hm hl'
      have hne : m ≠ H.last := by
        rintro rfl
        rcases hm with hm | hm
        · exact prevs_ne_nil hn hm
        · exact absurd hm (lt_irrefl _)
      rw [setCState, setLine_lines_off hne] at hl'
      exact ⟨l', hl', le_rfl⟩
    · intro l' hl' hle
      rw [hset, Option.some.injEq] at hl'
      simp [← hl', rank] at hle
    · intro m hm
      have hne : m ≠ H.last := (H.next_ne hm).symm
      rw [setCState, setLine_lines_off hne]
      exact hall m hm
  · exact .inr ⟨rfl, hst, hacc⟩

omit [DecidableEq ι] [DecidableEq Addr] in
/-- A level that has previous ones is the only one with its next level. -/
theorem eq_of_next {m : ι} (hreq : H.next requester = some self) (hup : H.next self = some up)
    (hm : H.next m = some up) : m = self := by
  by_contra hne
  have hmem := H.mem_prevs.mpr hreq
  rw [H.prevs_of_sibling hup hm (Ne.symm hne)] at hmem
  cases hmem

/-- A line that no previous level has is given up. -/
theorem invalidateCacheBlock_keeps (hprevs : ∀ m, H.next m = some self → s.lines m X = none)
    (h : s.invalidateCacheBlock self X = .ok s') (hg : (s.copies X fun _ => none).Good H e) :
    (s'.copies X fun _ => none).Good H e ∧ Shrinks H X s s' ∧ s'.lines self X = none ∧
      ∀ j, j ≠ self → s'.lines j X = s.lines j X := by
  rcases invalidateCacheBlock_ok h with ⟨hnone, rfl⟩ | ⟨l, hl, hm, rfl⟩
  · exact ⟨hg, .refl H X _, hnone, fun _ _ => rfl⟩
  · refine ⟨?_, shrinks_setLine_none, setLine_lines_self, fun j hj => setLine_lines_off hj⟩
    refine (hg.vanish (agreeOff_setLine _ fun _ _ => rfl) (Copies.copy_of_line hl)
      (Copies.copy_eq_none.mpr ⟨setLine_lines_self, rfl⟩)
      (buf_none_of_line hg hl : (s.copies X fun _ => none).buf self = none) hprevs
      (fun hm' => absurd hm' hm) (fun _ _ hlk => ?_) fun _ _ => hm).1
    cases hlk

/-- What a search relies on: the controller that gave up its line for it is below, and the
line it gave up was EXCLUSIVE. -/
def Away (H : Hierarchy ι Addr) (X : Addr) (e : Expected ι D) (requester self : ι) (op : MemOp D)
    (s : Core ι Addr D) : Prop :=
  ∀ k, e.away = some k → op.exclusive = true ∧ H.level k ≤ H.level requester ∧
    (∀ m, H.next m = some self → s.lines m X = none) ∧
    ∃ l, s.lines self X = some l ∧ 2 ≤ rank l.cstate

/-- The end of a search: the copies are good, and it has found the line or asks the directory. -/
def Searched (H : Hierarchy ι Addr) (X : Addr) (e : Expected ι D) (self : ι) (waiter : Waiter ι D)
    (hit : Bool) (s s' : Core ι Addr D) : Prop :=
  (hit = true ∧ (s'.copies X fun _ => none).Good H e ∧ H.Confined X self s s' ∧
    H.Found X self waiter.op s s') ∨
  (hit = false ∧ e.away = none ∧ ∃ u, (u.copies X fun _ => none).Good H e ∧
    H.Confined X self s u ∧ H.initiateDirectoryAccess waiter X u = .ok s')

/-- What a search with at most `n` calls inside calls keeps. -/
def SearchKeeps (H : Hierarchy ι Addr) (X : Addr) (waiter : Waiter ι D) (n : ℕ) : Prop :=
  ∀ {requester self : ι} {e : Expected ι D} {hit : Bool} {s s' : Core ι Addr D},
    H.next requester = some self → s.lines requester X = none →
    (s.copies X fun _ => none).Good H e → (∀ i, ¬e.paid i) →
    H.Away X e requester self waiter.op s →
    H.processShmemReqFromPrevCache n requester self waiter X s = .ok (hit, s') →
    H.Searched X e self waiter hit s s'

variable {n : ℕ} {u : Core ι Addr D}

/-- What the next level found is copied, and the controller that waited for it has it again. -/
theorem fetch_keeps {away : Option ι} (ih : H.SearchKeeps X waiter n)
    (hself : H.prevs self ≠ []) (hup : H.next self = some up) (hnone : s.lines self X = none)
    (hg : (s.copies X fun _ => none).Good H e) (hpaid : ∀ i, ¬e.paid i)
    (haway : H.Away X e self up waiter.op s)
    (hback : ∀ i, e.away = some i → i ≠ self → away = some i)
    (h : H.fetch (H.processShmemReqFromPrevCache n self up waiter X) self up waiter.op X s =
      .ok (hit, s')) :
    (hit = true ∧ (s'.copies X fun _ => none).Good H { e with away := away } ∧
      H.Confined X self s s') ∨
    (hit = false ∧ e.away = none ∧ ∃ u, (u.copies X fun _ => none).Good H e ∧
      H.Confined X self s u ∧ H.initiateDirectoryAccess waiter X u = .ok s') := by
  obtain ⟨u, hreq, ⟨rfl, hcopy⟩ | ⟨rfl, rfl⟩⟩ := fetch_cases h
  · rcases ih hup hnone hg hpaid haway hreq with ⟨-, hg₁, hc₁, hfound⟩ | ⟨hfalse, -⟩
    · have hnone₁ := hc₁.gone (.inr (H.level_lt hup)) hnone
      obtain ⟨hg₂, l, -, -, hs₂⟩ := copyDataFromNextLevel_keeps away hcopy hup hnone₁ hg₁
        hfound.clean hpaid (fun hk => (haway self hk).1) hback
      have hlast : self ≠ H.last := by
        rintro rfl
        rw [H.next_eq_none.mpr rfl] at hup
        cases hup
      exact .inl ⟨rfl, hg₂, (hc₁.down hup).trans
        ((confined_setLine hself hlast _).trans (confined_of_shrinks hs₂))⟩
    · cases hfalse
  · rcases ih hup hnone hg hpaid haway hreq with ⟨htrue, -⟩ | ⟨-, hhome, u', hg₁, hc₁, hmiss⟩
    · cases htrue
    · exact .inr ⟨rfl, hhome, u', hg₁, hc₁.down hup, hmiss⟩

omit [DecidableEq ι] in
/-- The line that a search with a controller away is refused is EXCLUSIVE. -/
theorem Away.exclusive {k : ι} (haway : H.Away X e requester self op s) (hk : e.away = some k)
    (hdenied : permissible op (s.lines self X) = false)
    (hg : (s.copies X fun _ => none).Good H e) :
    ∃ l, s.lines self X = some l ∧ l.cstate = .exclusive := by
  obtain ⟨hop, -, -, l, hl, hrank⟩ := haway k hk
  refine ⟨l, hl, ?_⟩
  rw [hl] at hdenied
  rcases (hg.of_idle rfl).legal self l (Copies.copy_of_line hl) with hst | hst | hst | ⟨hst, -⟩
  · simp [hst, rank] at hrank
  · exact hst
  · simp [permissible, hop, hst, CacheState.writable] at hdenied
  · simp [hst, rank] at hrank

/-- With no line in the previous levels the controller gives up its own and asks the next one. -/
theorem searchOn_keeps (ih : H.SearchKeeps X waiter n) (hn : H.next requester = some self)
    (hup : H.next self = some up) (hg : (s.copies X fun _ => none).Good H e)
    (hpaid : ∀ i, ¬e.paid i) (haway : H.Away X e requester self waiter.op s)
    (hex : ∀ k, e.away = some k → ∃ l, s.lines self X = some l ∧ l.cstate = .exclusive)
    (hlow : ∀ m, H.next m = some self → s.lines m X = none)
    (hinv : s.invalidateCacheBlock self X = .ok u)
    (h : H.fetch (H.processShmemReqFromPrevCache n self up waiter X) self up waiter.op X u =
      .ok (hit, s')) : H.Searched X e self waiter hit s s' := by
  obtain ⟨hg₁, hs₁, hnone₁, hoff₁⟩ := invalidateCacheBlock_keeps hlow hinv hg
  have haway₁ : H.Away X e self up waiter.op u := by
    intro k hk
    obtain ⟨l, hl, hst⟩ := hex k hk
    obtain ⟨hop, hle, -⟩ := haway k hk
    have hlt := H.level_lt hn
    have hlt' := H.level_lt hup
    refine ⟨hop, by omega, fun m hm => eq_of_next hn hup hm ▸ hnone₁, ?_⟩
    rcases (hg.of_idle rfl).below self up l hl hup with ⟨l', hl', hrank⟩ | ⟨haway', -⟩
    · rw [Copies.copy_idle rfl] at hl'
      exact ⟨l', (hoff₁ up (H.next_ne hup)).trans hl', by simpa [hst, rank] using hrank⟩
    · rw [haway', Option.some.injEq] at hk
      rw [← hk] at hle
      omega
  have hlow₁ : ∀ m, H.next m = some self → u.lines m X = none := fun m hm =>
    (hoff₁ m (H.next_ne hm).symm).trans (hlow m hm)
  have hc₁ : H.Confined X self s u := confined_of_shrinks hs₁
  rcases fetch_keeps ih (prevs_ne_nil hn) hup hnone₁ hg₁ hpaid haway₁ (fun _ hi _ => hi) h with
    ⟨rfl, hg₂, hc₂⟩ | ⟨rfl, hhome, w, hg₂, hc₂, hmiss⟩
  · have hall : ∀ m, H.next m = some self → s'.lines m X = none := fun m hm =>
      hc₂.gone (.inr (H.level_lt hm)) (hlow₁ m hm)
    refine .inl ⟨rfl, hg₂, hc₁.trans hc₂, fun m l hm hl => ?_, fun _ _ => hall⟩
    rw [hall m hm] at hl
    cases hl
  · exact .inr ⟨rfl, hhome, w, hg₂, hc₁.trans hc₂, hmiss⟩

/-- The line is EXCLUSIVE here, and the previous levels keep theirs while the next one is asked. -/
theorem searchAway_keeps {m : ι} (ih : H.SearchKeeps X waiter n)
    (hn : H.next requester = some self) (hup : H.next self = some up)
    (hg : (s.copies X fun _ => none).Good H e) (hpaid : ∀ i, ¬e.paid i)
    (haway : H.Away X e requester self waiter.op s)
    (hdenied : permissible waiter.op (s.lines self X) = false)
    (hshared : (s.lines self X).map Line.cstate ≠ some .shared)
    (hm : H.next m = some self) (hlm : s.lines m X ≠ none)
    (hinv : s.invalidateCacheBlock self X = .ok u)
    (h : H.fetch (H.processShmemReqFromPrevCache n self up waiter X) self up waiter.op X u =
      .ok (hit, s')) : H.Searched X e self waiter hit s s' := by
  have hc := hg.of_idle rfl
  have hhome : e.away = none := by
    cases ha : e.away with
    | none => rfl
    | some k => exact absurd ((haway k ha).2.2.1 m hm) hlm
  obtain ⟨lm, hlm⟩ := Option.ne_none_iff_exists'.mp hlm
  obtain ⟨l, hl, hst⟩ : ∃ l, s.lines self X = some l ∧ l.cstate = .exclusive := by
    rcases hc.below m self lm hlm hm with ⟨l, hl, -⟩ | ⟨ha, -⟩
    · rw [Copies.copy_idle rfl, copies_line] at hl
      rw [hl] at hshared hdenied
      rcases hc.legal self l (Copies.copy_of_line hl) with hst | hst | hst | ⟨hst, hlast⟩
      · simp [hst] at hshared
      · exact ⟨l, hl, hst⟩
      · simp [permissible, hst, CacheState.writable, CacheState.readable] at hdenied
      · rw [H.next_eq_none.mpr hlast] at hup
        cases hup
    · rw [hhome] at ha
      cases ha
  have hop : waiter.op.exclusive = true := by
    rw [hl] at hdenied
    by_contra hop
    simp [permissible, hop, hst, CacheState.readable] at hdenied
  obtain rfl : u = s.setLine self X none := by
    rcases invalidateCacheBlock_ok hinv with ⟨hgone, -⟩ | ⟨-, -, -, hu⟩
    · rw [hl] at hgone
      cases hgone
    · exact hu
  have hg₁ : ((s.setLine self X none).copies X fun _ => none).Good H
      { e with away := some self } :=
    hg.giveUp rfl (agreeOff_setLine _ fun _ _ => rfl) hl (by simp [hst]) setLine_lines_self
      rfl rfl hhome (by simp [hup])
  have haway₁ : H.Away X { e with away := some self } self up waiter.op
      (s.setLine self X none) := by
    rintro k hk
    obtain rfl := Option.some.inj hk
    refine ⟨hop, le_rfl, fun m hm => eq_of_next hn hup hm ▸ setLine_lines_self, ?_⟩
    rcases hc.below self up l hl hup with ⟨l', hl', hrank⟩ | ⟨ha, -⟩
    · rw [Copies.copy_idle rfl] at hl'
      exact ⟨l', (setLine_lines_off (H.next_ne hup)).trans hl', by simpa [hst, rank] using hrank⟩
    · rw [hhome] at ha
      cases ha
  have hoff : ∀ m, H.next m = some self → (s.setLine self X none).lines m X = s.lines m X :=
    fun m hm => setLine_lines_off (H.next_ne hm).symm
  have hc₁ : H.Confined X self s (s.setLine self X none) :=
    confined_of_shrinks shrinks_setLine_none
  rcases fetch_keeps ih (prevs_ne_nil hn) hup setLine_lines_self hg₁ hpaid haway₁
    (fun i hi hne => absurd (Option.some.inj hi).symm hne) h with ⟨rfl, hg₂, hc₂⟩ | ⟨-, ha, -⟩
  · refine .inl ⟨rfl, hg₂, hc₁.trans hc₂, fun m l' hm hl' hmod => ?_, fun _ hk m hm => ?_⟩
    · -- nothing below an EXCLUSIVE line is MODIFIED
      obtain ⟨lm', hlm', hle⟩ := hc₂.outside m l' (.inr (H.level_lt hm)) hl'
      rw [hoff m hm] at hlm'
      rcases hc.below m self lm' hlm' hm with ⟨l'', hl'', hle'⟩ | ⟨ha, -⟩
      · rw [Copies.copy_idle rfl, copies_line, hl, Option.some.injEq] at hl''
        rw [← hl'', hst] at hle'
        rw [hmod] at hle
        have hrank := hle.trans hle'
        simp [rank] at hrank
      · rw [hhome] at ha
        cases ha
    · have hlast : self ≠ H.last := by
        rintro rfl
        rw [H.next_eq_none.mpr rfl] at hup
        cases hup
      refine hc₂.gone (.inr (H.level_lt hm)) ((hoff m hm).trans ?_)
      exact hk hlast (by simp [hl, hst]) m hm
  · cases ha

/-- At the last level the search ends. -/
theorem searchLast_keeps (hn : H.next requester = some self) (hlast : H.next self = none)
    (hnone : s.lines requester X = none) (hg : (s.copies X fun _ => none).Good H e)
    (hex : ∀ k, e.away = some k → ∃ l, s.lines self X = some l ∧ l.cstate = .exclusive)
    (h : H.missAtLast requester self waiter X s = .ok (hit, s')) :
    H.Searched X e self waiter hit s s' := by
  obtain rfl := H.next_eq_none.mp hlast
  rcases missAtLast_keeps hnone hn hg h with ⟨rfl, hg', hc, hall⟩ | ⟨rfl, hst', hacc⟩
  · refine .inl ⟨rfl, hg', hc, fun m l hm hl => ?_, fun _ _ => hall⟩
    rw [hall m hm] at hl
    cases hl
  · refine .inr ⟨rfl, ?_, s, hg, confined_of_shrinks (.refl H X s), hacc⟩
    cases ha : e.away with
    | none => rfl
    | some k =>
      obtain ⟨l, hl, hst⟩ := hex k ha
      exact absurd (by simp [hl, hst]) hst'

/-- A search after the previous levels have given up the line. -/
theorem Searched.after (h : H.Searched X e self waiter hit u s') (hc : H.Confined X self s u)
    (hlow : ∀ m, H.next m = some self → u.lines m X = none) :
    H.Searched X e self waiter hit s s' := by
  rcases h with ⟨hhit, hg, hc', hfound⟩ | ⟨hhit, hhome, v, hg, hc', hacc⟩
  · exact .inl ⟨hhit, hg, hc.trans hc', hfound.clean,
      fun hop _ => hfound.alone hop fun _ _ => hlow⟩
  · exact .inr ⟨hhit, hhome, v, hg, hc.trans hc', hacc⟩

/-- A search for a line keeps its copies good. -/
theorem processShmemReqFromPrevCache_keeps (n : ℕ) : H.SearchKeeps X waiter n := by
  induction n with
  | zero =>
    intro requester self e hit s s' _ _ _ _ _ h
    simp only [processShmemReqFromPrevCache] at h
    cases h
  | succ n ih =>
    intro requester self e hit s s' hn hnone hg hpaid haway h
    rcases processShmemReqFromPrevCache_cases h with ⟨l, hl, -, rfl, hsnoop⟩ | ⟨hdenied, u, hu, hgo⟩
    · obtain ⟨hg', hs', hclean, halone⟩ := snoop_keeps hnone hl hsnoop hg
      exact .inl ⟨rfl, hg', confined_of_shrinks hs', hclean, fun hop _ => halone hop⟩
    have hex : ∀ k, e.away = some k → ∃ l, s.lines self X = some l ∧ l.cstate = .exclusive :=
      fun k hk => haway.exclusive hk hdenied hg
    rcases hu with ⟨hshared, hsib⟩ | ⟨hshared, rfl⟩
    · -- no line is away while this one is SHARED
      have hhome : ∀ k, e.away ≠ some k := by
        intro k hk
        obtain ⟨l, hl, hst⟩ := hex k hk
        simp [hl, hst] at hshared
      obtain ⟨hg₁, hs₁, hall⟩ := updateSiblings_invalidate hnone hsib hg
      refine Searched.after ?_ (confined_of_shrinks hs₁) hall
      rcases hgo with ⟨up, v, hup, hinv, hf⟩ | ⟨hlast, hmiss⟩
      · exact searchOn_keeps ih hn hup hg₁ hpaid (fun k hk => absurd hk (hhome k))
          (fun k hk => absurd hk (hhome k)) hall hinv hf
      · exact searchLast_keeps hn hlast (hs₁.gone hnone) hg₁
          (fun k hk => absurd hk (hhome k)) hmiss
    rcases hgo with ⟨up, v, hup, hinv, hf⟩ | ⟨hlast, hmiss⟩
    · by_cases hlow : ∀ m, H.next m = some self → u.lines m X = none
      · exact searchOn_keeps ih hn hup hg hpaid haway hex hlow hinv hf
      · push Not at hlow
        obtain ⟨m, hm, hlm⟩ := hlow
        exact searchAway_keeps ih hn hup hg hpaid haway hdenied hshared hm hlm hinv hf
    · exact searchLast_keeps hn hlast hnone hg hex hmiss

end Hierarchy

end Sniper.Levels
