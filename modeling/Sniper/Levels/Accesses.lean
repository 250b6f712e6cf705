import Sniper.Levels.Requests
import Sniper.Levels.Upgrades
set_option autoImplicit false

/-! An access of a user thread, and the answers of the network thread, keep the copies of the
line good. -/

namespace Sniper.Levels
open Sniper.Coherence (MsgType ShmemMsg)
open Sniper.Lib (except_bind_eq_ok)
open Levels.Core

variable {ι Addr D : Type} [DecidableEq ι] [DecidableEq Addr]

def MemOp.stores : MemOp D → Bool
  | .write _ => true
  | _ => false

omit [DecidableEq ι] [DecidableEq Addr] in
theorem exclusive_of_stores {op : MemOp D} (h : op.stores = true) : op.exclusive = true := by
  cases op with
  | write _ => rfl
  | _ => cases h

namespace Core

/-- What is expected of the copies between two calls: the contents last written. -/
def expected (X : Addr) (strict : Prop) (before : List (ShmemMsg D)) (dirty : Prop)
    (s : Core ι Addr D) : Expected ι D :=
  ⟨s.accesses.written X, strict, none, fun _ => False, before, dirty⟩

end Core

namespace Hierarchy

variable {H : Hierarchy ι Addr} {X : Addr} {strict dirty : Prop} {before : List (ShmemMsg D)}
variable {s s' u : Core ι Addr D} {op : MemOp D} {k up : ι} {out : Option D} {l : Line D}

/-- The copies of `X` are good, and no controller evicts. -/
structure Fine (H : Hierarchy ι Addr) (X : Addr) (strict : Prop) (before : List (ShmemMsg D))
    (dirty : Prop) (s : Core ι Addr D) : Prop where
  good : (s.copies X fun _ => none).Good H (s.expected X strict before dirty)
  idle : ∀ i, s.evicting i = none

omit [DecidableEq ι] in
theorem Fine.current (h : H.Fine X strict before dirty s) :
    (s.copies X fun _ => none).Current H (s.expected X strict before dirty) :=
  h.good.of_idle rfl

omit [DecidableEq ι] in
/-- What is under way is no matter of the copies. -/
theorem Fine.accesses {acc : Accesses ι Addr D} (h : H.Fine X strict before dirty s)
    (hwritten : acc.written X = s.accesses.written X) :
    H.Fine X strict before dirty { s with accesses := acc } := by
  refine ⟨?_, h.idle⟩
  have hg := h.good
  rw [expected, ← hwritten] at hg
  exact hg

omit [DecidableEq ι] in
theorem Fine.of_confined (h : H.Fine X strict before dirty s) (hc : H.Confined X k s s')
    (hg : (s'.copies X fun _ => none).Good H (s.expected X strict before dirty)) :
    H.Fine X strict before dirty s' := by
  refine ⟨?_, fun i => ?_⟩
  · rw [expected, hc.accesses]
    exact hg
  · have hkey := hc.evicting i
    rw [h.idle i] at hkey
    simpa using hkey

/-- What an access of the first-level cache `k` does outside its own line. -/
structure Contained (H : Hierarchy ι Addr) (X : Addr) (k : ι) (s s' : Core ι Addr D) : Prop where
  first : ∀ i, H.prevs i = [] → i ≠ k → s.lines i X = none → s'.lines i X = none
  accesses : s'.accesses = { s.accesses with written := s'.accesses.written }
  written : ∀ a, a ≠ X → s'.accesses.written a = s.accesses.written a

omit [DecidableEq ι] [DecidableEq Addr] in
theorem Contained.trans (h : H.Contained X k s u) (h' : H.Contained X k u s') :
    H.Contained X k s s' where
  first i hi hik hnone := h'.first i hi hik (h.first i hi hik hnone)
  accesses := by rw [h'.accesses, h.accesses]
  written a ha := (h'.written a ha).trans (h.written a ha)

omit [DecidableEq ι] [DecidableEq Addr] in
theorem Confined.contained (h : H.Confined X up s s') (k : ι) : H.Contained X k s s' where
  first _ hi _ hnone := h.gone (.inl hi) hnone
  accesses := by rw [h.accesses]
  written a _ := by rw [h.accesses]

/-- The contents a load returns are those last written. -/
def Returns (X : Addr) (strict : Prop) (out : Option D) (s : Core ι Addr D) : Prop :=
  strict → ∀ d, out = some d → d = s.accesses.written X

omit [DecidableEq ι] [DecidableEq Addr] in
theorem returns_none : Returns X strict none s :=
  fun _ _ hd => by cases hd

/-- The other caches with the same next level. -/
def siblings (H : Hierarchy ι Addr) (k : ι) : List ι :=
  match H.next k with
  | none => []
  | some j => (H.prevs j).filter (· ≠ k)

omit [DecidableEq Addr] in
theorem mem_siblings {i : ι} :
    i ∈ H.siblings k ↔ i ≠ k ∧ ∃ j, H.next k = some j ∧ H.next i = some j := by
  unfold siblings
  split
  · rename_i hn
    simp [hn]
  · rename_i j hn
    simp [hn, H.mem_prevs, and_comm]

/-- The siblings let a store happen: none has the line MODIFIED, and when they must agree with
the contents none has it at all. -/
def Lets (H : Hierarchy ι Addr) (X : Addr) (strict : Prop) (k : ι) (s : Core ι Addr D) : Prop :=
  ∀ i ∈ H.siblings k, ∀ l, s.lines i X = some l → l.cstate ≠ .modified ∧ ¬strict

theorem accessCache_keeps (hk : H.prevs k = []) (hp : permissible op (s.lines k X) = true)
    (hlets : op.stores = true → H.Lets X strict k s)
    (h : H.accessCache k X op s = .ok (out, s')) (hs : H.Fine X strict before dirty s) :
    H.Fine X strict before dirty s' ∧ H.Contained X k s s' ∧ Returns X strict out s' := by
  have hc := hs.current
  -- a first-level cache that must agree does
  have hfresh : strict → ∀ l, s.lines k X = some l → l.data = s.accesses.written X := by
    intro hst l hl
    rcases hc.fresh k l (Copies.copy_of_line hl) with hf | ⟨-, m, hm, -⟩ | ⟨hns, -⟩
    · exact hf
    · have hmem := H.mem_prevs.mpr hm
      rw [hk] at hmem
      cases hmem
    · exact absurd hst hns
  have hself : H.Contained X k s s := ⟨fun _ _ _ h => h, rfl, fun _ _ => rfl⟩
  unfold accessCache at h
  split at h
  · cases h
    exact ⟨hs, hself, returns_none⟩
  · rename_i l hl
    cases h
    exact ⟨hs, hself, fun hst d hd => Option.some.inj hd ▸ hfresh hst l hl⟩
  · rename_i l hl
    cases h
    exact ⟨hs, hself, fun hst d hd => Option.some.inj hd ▸ hfresh hst l hl⟩
  · rename_i l store hl
    have hm : l.cstate = .modified := by
      rw [hl] at hp
      cases hst : l.cstate <;>
        simp [permissible, MemOp.exclusive, hst, CacheState.writable] at hp
      rfl
    have hdata : l.data = s.accesses.written X := by
      rcases hc.fresh k l (Copies.copy_of_line hl) with hf | ⟨-, m, hm, -⟩ | ⟨-, -, hnm⟩
      · exact hf
      · have hmem := H.mem_prevs.mpr hm
        rw [hk] at hmem
        cases hmem
      · exact absurd hm hnm
    cases hwrite : s.writeLine H.place k X { l with data := store l.data } with
    | mk writebacks u =>
      rw [hwrite] at h
      dsimp only at h
      split at h
      · cases h
      simp only [except_bind_eq_ok] at h
      obtain ⟨v, hwbs, h⟩ := h
      cases h
      obtain ⟨out, hd⟩ := writeLine_displaces hwrite X
      rw [show u.accesses = s.accesses from hd.accesses] at hwbs
      set acc := { s.accesses with
        written := Function.update s.accesses.written X (store (s.accesses.written X)) } with hacc
      have hd' : Displaces X k out writebacks
          { s.setLine k X (some { l with data := store l.data }) with accesses := acc }
          { u with accesses := acc } :=
        ⟨hd.writebacks, hd.line, hd.was, hd.off, hd.evicting, hd.sent, rfl⟩
      have hput : ((s.setLine k X (some { l with data := store l.data })).copies X
          fun _ => none).Good H { s.expected X strict before dirty with
            contents := store l.data, strict := strict } := by
        rw [copies_setLine_put hl]
        exact hs.good.store rfl rfl (fun _ => False.elim) hk hl hm
          fun i j li hik hj hi hli => hlets rfl i (mem_siblings.mpr ⟨hik, j, hj, hi⟩) li hli
      obtain ⟨hg, hshrinks⟩ := handleWritebacks_displaced (call_keeps H X H.depth) hd' hwbs hput
      have hacc' : s'.accesses = acc := hshrinks.accesses
      refine ⟨⟨?_, fun i => ?_⟩, ⟨fun i _ hik hnone => ?_, ?_, fun a ha => ?_⟩, returns_none⟩
      · rw [expected, hacc', hacc]
        dsimp only
        rw [Function.update_self, ← hdata]
        exact hg
      · have hkey := hshrinks.evicting i
        rw [show ({ s.setLine k X (some { l with data := store l.data }) with
          accesses := acc } : Core ι Addr D).evicting i = s.evicting i from rfl, hs.idle i] at hkey
        simpa using hkey
      · exact hshrinks.gone ((setLine_lines_off hik).trans hnone)
      · rw [hacc']
      · rw [hacc', hacc]
        exact Function.update_of_ne ha _ _

omit [DecidableEq ι] [DecidableEq Addr] in
theorem not_modified_of_rank_le {l l' : Line D} (hle : rank l'.cstate ≤ rank l.cstate)
    (h : l.cstate ≠ .modified) : l'.cstate ≠ .modified := by
  intro hm
  rw [hm] at hle
  exact h (rank_modified_le hle)

/-- The next level has the line: it is copied, and the access can go on. -/
theorem fillAndAccess_keeps (hk : H.prevs k = []) (hn : H.next k = some up)
    (hnone : s.lines k X = none)
    (hclean : ∀ m l, H.next m = some up → s.lines m X = some l → l.cstate ≠ .modified)
    (halone : op.stores = true → strict → ∀ m, H.next m = some up → s.lines m X = none)
    (h : H.fillAndAccess k up op X s = .ok (out, s')) (hs : H.Fine X strict before dirty s) :
    H.Fine X strict before dirty s' ∧ H.Contained X k s s' ∧ Returns X strict out s' := by
  simp only [fillAndAccess, except_bind_eq_ok] at h
  obtain ⟨u, hcopy, h⟩ := h
  split at h
  · rename_i hp
    obtain ⟨hg, l, -, -, hshrinks⟩ := copyDataFromNextLevel_keeps none hcopy hn hnone hs.good
      hclean (fun _ => id) (fun ha => by cases ha) (fun _ ha => by cases ha)
    have hacc : u.accesses = s.accesses := hshrinks.accesses
    have hu : H.Fine X strict before dirty u :=
      ⟨by rw [expected, hacc]; exact hg, fun i => hshrinks.idle hs.idle i⟩
    have hfill : H.Contained X k s u :=
      ⟨fun i _ hik hi => hshrinks.gone ((setLine_lines_off hik).trans hi), by rw [hacc],
        fun _ _ => by rw [hacc]⟩
    have hlets : op.stores = true → H.Lets X strict k u := by
      intro hop i hi li hli
      obtain ⟨hik, j, hj, hij⟩ := mem_siblings.mp hi
      obtain rfl : up = j := by simpa [hn] using hj
      obtain ⟨l₀, hl₀, hle⟩ := hshrinks.lines i li hli
      rw [setLine_lines_off hik] at hl₀
      refine ⟨not_modified_of_rank_le hle (hclean i l₀ hij hl₀), fun hst => ?_⟩
      rw [halone hop hst i hij] at hl₀
      cases hl₀
    obtain ⟨hs', hcont, hret⟩ := accessCache_keeps hk hp hlets h hu
    exact ⟨hs', hfill.trans hcont, hret⟩
  · cases h

omit [DecidableEq ι] in
theorem Fine.send {t : MsgType} {buf : Option D} (hs : H.Fine X strict before dirty s)
    (ht : t ≠ .flushRep) : H.Fine X strict before dirty (s.send X t buf) := by
  refine ⟨hs.good.send rfl rfl rfl (copies_send t buf) (.inr fun msg hmem hflush => ?_), hs.idle⟩
  obtain rfl := List.mem_singleton.mp hmem
  exact absurd hflush ht

/-- The SHARED line of the last level waits for the right to store to it. -/
theorem processUpgradeReqToDirectory_keeps
    (hst : (s.lines H.last X).map Line.cstate = some .shared)
    (hs : H.Fine X strict before dirty s) :
    H.Fine X strict before dirty (H.processUpgradeReqToDirectory X s) := by
  obtain ⟨l, hl, hshared⟩ := Option.map_eq_some_iff.mp hst
  refine Fine.send ⟨?_, hs.idle⟩ (by simp)
  refine hs.good.raiseLast .sharedUpgrading rfl (agreeOff_setLine _ fun _ _ => rfl) hl
    (by simp [hshared]) ?_ rfl rfl (.inr (.inr (.inr ⟨rfl, rfl⟩))) (by simp [hshared, rank])
  rw [copies_line, setCState, setLine_lines_self, hl]
  rfl

theorem processUpgradeReqToDirectory_gone {i : ι} (hi : s.lines i X = none) :
    (H.processUpgradeReqToDirectory X s).lines i X = none := by
  change (s.setCState H.last X .sharedUpgrading).lines i X = none
  by_cases hlast : i = H.last
  · rw [← hlast, setCState, setLine_lines_self, hi]
    rfl
  · rw [setCState, setLine_lines_off hlast, hi]

/-- The directory is asked for a line, or for the right to store to it. -/
theorem initiateDirectoryAccess_keeps {waiter : Waiter ι D}
    (h : H.initiateDirectoryAccess waiter X s = .ok s') (hs : H.Fine X strict before dirty s) :
    H.Fine X strict before dirty s' ∧ (∀ i, s.lines i X = none → s'.lines i X = none) ∧
      s'.accesses = { s.accesses with
        waiters := Function.update s.accesses.waiters X (s.accesses.waiters X ++ [waiter]) } := by
  have hqueued : H.Fine X strict before dirty { s with accesses := { s.accesses with
      waiters := Function.update s.accesses.waiters X (s.accesses.waiters X ++ [waiter]) } } :=
    hs.accesses rfl
  unfold initiateDirectoryAccess at h
  dsimp only at h
  split at h
  · cases h
    exact ⟨hqueued, fun _ => id, rfl⟩
  split at h
  · split at h
    · cases h
      exact ⟨hqueued.send (by simp), fun _ => id, rfl⟩
    · rename_i l hl
      split at h
      · rename_i hst
        cases h
        exact ⟨processUpgradeReqToDirectory_keeps (by simp [hl, hst]) hqueued,
          fun _ => processUpgradeReqToDirectory_gone, rfl⟩
      · cases h
  · cases h
    exact ⟨hqueued.send (by simp), fun _ => id, rfl⟩

/-- The next level of `k`, not the last one, has the line EXCLUSIVE. -/
def ExclusiveAbove (H : Hierarchy ι Addr) (X : Addr) (k : ι) (s : Core ι Addr D) : Prop :=
  ∃ j ∈ H.next k, j ≠ H.last ∧ (s.lines j X).map Line.cstate = some .exclusive

/-- No sibling has the line. -/
def Alone (H : Hierarchy ι Addr) (X : Addr) (k : ι) (s : Core ι Addr D) : Prop :=
  ∀ i ∈ H.siblings k, s.lines i X = none

variable {waiter : Waiter ι D} {hit : Bool}

/-- A search ends with the line in the next level, or with a question to the directory. -/
theorem search_keeps (hn : H.next k = some up) (hnone : s.lines k X = none)
    (h : H.processShmemReqFromPrevCache H.depth k up waiter X s = .ok (hit, s'))
    (hs : H.Fine X strict before dirty s) :
    (hit = true ∧ H.Fine X strict before dirty s' ∧ H.Confined X up s s' ∧
      H.Found X up waiter.op s s') ∨
    (hit = false ∧ ∃ u, H.Fine X strict before dirty u ∧ H.Confined X up s u ∧
      H.initiateDirectoryAccess waiter X u = .ok s') := by
  rcases processShmemReqFromPrevCache_keeps H.depth hn hnone hs.good (fun _ => id)
    (fun _ ha => by cases ha) h with ⟨rfl, hg, hc, hfound⟩ | ⟨rfl, -, u, hg, hc, hacc⟩
  · exact .inl ⟨rfl, hs.of_confined hc hg, hc, hfound⟩
  · exact .inr ⟨rfl, u, hs.of_confined hc hg, hc, hacc⟩

/-- After a search that found the line the access goes on. -/
theorem searchAndFill_keeps (hk : H.prevs k = []) (hn : H.next k = some up)
    (hnone : s.lines k X = none)
    (hshared : op.stores = true → strict → H.ExclusiveAbove X k s → H.Alone X k s)
    (hc : H.Confined X up s u) (hfound : H.Found X up op s u)
    (h : H.fillAndAccess k up op X u = .ok (out, s')) (hu : H.Fine X strict before dirty u) :
    H.Fine X strict before dirty s' ∧ H.Contained X k s s' ∧ Returns X strict out s' := by
  have halone : op.stores = true → strict →
      ∀ m, H.next m = some up → u.lines m X = none := by
    intro hop hst
    refine hfound.alone (exclusive_of_stores hop) fun hlast hex m hm => ?_
    by_cases hmk : m = k
    · exact hmk ▸ hnone
    · exact hshared hop hst ⟨up, hn, hlast, hex⟩ m (mem_siblings.mpr ⟨hmk, up, hn, hm⟩)
  obtain ⟨hs', hcont, hret⟩ := fillAndAccess_keeps hk hn (hc.gone (.inl hk) hnone) hfound.clean
    halone h hu
  exact ⟨hs', (hc.contained k).trans hcont, hret⟩

/-- A user thread that was woken finds its line. -/
theorem resume_keeps (hk : H.prevs waiter.cache = []) (hnone : s.lines waiter.cache X = none)
    (hshared : waiter.op.stores = true → strict → H.ExclusiveAbove X waiter.cache s →
      H.Alone X waiter.cache s)
    (h : H.resume waiter X s = .ok (out, s')) (hs : H.Fine X strict before dirty s) :
    H.Fine X strict before dirty s' ∧ H.Contained X waiter.cache s s' ∧
      Returns X strict out s' := by
  unfold resume at h
  split at h
  · cases h
  rename_i up hn
  simp only [except_bind_eq_ok] at h
  obtain ⟨⟨hit, u⟩, hreq, h⟩ := h
  dsimp only at h
  split at h
  · rename_i hhit
    rcases search_keeps hn hnone hreq hs with ⟨-, hu, hc, hfound⟩ | ⟨hfalse, -⟩
    · exact searchAndFill_keeps hk hn hnone hshared hc hfound h hu
    · rw [hhit] at hfalse
      cases hfalse
  · cases h

/-- An access waits for the directory. -/
structure Waiting (H : Hierarchy ι Addr) (X : Addr) (k : ι) (op : MemOp D) (s s' : Core ι Addr D) :
    Prop where
  first : ∀ i, H.prevs i = [] → s.lines i X = none → s'.lines i X = none
  line : s'.lines k X = none
  next : H.next k ≠ none
  accesses : s'.accesses = { s.accesses with
    waiters := Function.update s.accesses.waiters X (s.accesses.waiters X ++ [⟨k, op⟩])
    blocked := Function.update s.accesses.blocked k (some X) }

/-- An access of a user thread keeps the copies good, whether it waits or not. -/
theorem processMemOpFromCore_keeps
    (hlets : op.stores = true → permissible op (s.lines k X) = true → H.Lets X strict k s)
    (hshared : op.stores = true → strict → H.ExclusiveAbove X k s → H.Alone X k s)
    (h : H.processMemOpFromCore k op X s = .ok (out, s')) (hs : H.Fine X strict before dirty s) :
    H.prevs k = [] ∧ s.accesses.blocked k = none ∧ H.Fine X strict before dirty s' ∧
      Returns X strict out s' ∧ (H.Contained X k s s' ∨ H.Waiting X k op s s') := by
  unfold processMemOpFromCore at h
  split at h
  · cases h
  rename_i hfree
  push Not at hfree
  obtain ⟨hk, hblocked⟩ := hfree
  refine ⟨hk, by simpa using hblocked, ?_⟩
  split at h
  · rename_i hp
    obtain ⟨hs', hcont, hret⟩ := accessCache_keeps hk hp (fun hop => hlets hop hp) h hs
    exact ⟨hs', hret, .inl hcont⟩
  split at h
  · cases h
  rename_i up hn
  simp only [except_bind_eq_ok] at h
  obtain ⟨u, hinv, ⟨hit, v⟩, hreq, h⟩ := h
  have hlow : ∀ m, H.next m = some k → s.lines m X = none := by
    intro m hm
    have hmem := H.mem_prevs.mpr hm
    rw [hk] at hmem
    cases hmem
  obtain ⟨hg, hshrinks, hnone, hoff⟩ := invalidateCacheBlock_keeps hlow hinv hs.good
  have hcu : H.Confined X up s u := confined_of_shrinks hshrinks
  have hu : H.Fine X strict before dirty u := hs.of_confined hcu hg
  have hshared' : op.stores = true → strict → H.ExclusiveAbove X k u → H.Alone X k u := by
    rintro hop hst ⟨j, hj, hlast, hex⟩ i hi
    rw [hoff j (H.next_ne hj)] at hex
    rw [hoff i (mem_siblings.mp hi).1]
    exact hshared hop hst ⟨j, hj, hlast, hex⟩ i hi
  dsimp only at h
  rcases search_keeps hn hnone hreq hu with
    ⟨rfl, hv, hc, hfound⟩ | ⟨rfl, w, hw, hc, hacc⟩
  · rw [if_pos rfl] at h
    obtain ⟨hs', hcont, hret⟩ := searchAndFill_keeps hk hn hnone hshared' hc
      hfound h hv
    exact ⟨hs', hret, .inl ((hcu.contained k).trans hcont)⟩
  · rw [if_neg (by simp)] at h
    cases h
    obtain ⟨hv, hlines, hwaits⟩ := initiateDirectoryAccess_keeps hacc hw
    have hfirst : ∀ i, H.prevs i = [] → u.lines i X = none → v.lines i X = none :=
      fun i hi hgone => hlines i (hc.gone (.inl hi) hgone)
    refine ⟨hv.accesses rfl, returns_none, .inr ⟨fun i hi hgone => ?_, ?_, ?_, ?_⟩⟩
    · exact hfirst i hi (hcu.gone (.inl hi) hgone)
    · exact hfirst k hk hnone
    · simp [hn]
    · rw [hwaits, hc.accesses, hcu.accesses]

end Hierarchy

end Sniper.Levels
