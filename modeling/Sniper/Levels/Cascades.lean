import Sniper.Levels.Copies
import Sniper.Lib.Machine
set_option autoImplicit false

/-! What the calls of one controller by another do to the copies of a line. -/

namespace Sniper.Levels
open Sniper.Coherence (MsgType ShmemMsg)
open Sniper.Lib (except_bind_eq_ok)

variable {ι Addr D : Type}

def Call.addr : Call ι Addr D → Addr
  | .update _ a _ _ | .write _ a _ => a

namespace Core

/-- A line that is gone stays gone, and one that stays is allowed no more than before, just as
much in the last level. -/
structure Spares (H : Hierarchy ι Addr) (X : Addr) (s s' : Core ι Addr D) : Prop where
  lines : ∀ i l', s'.lines i X = some l' →
    ∃ l, s.lines i X = some l ∧ rank l'.cstate ≤ rank l.cstate
  evicting : ∀ i, (s'.evicting i).map Prod.fst = (s.evicting i).map Prod.fst
  last : ∀ l l', s.lines H.last X = some l → s'.lines H.last X = some l' → l'.cstate = l.cstate

/-- What every call keeps. -/
structure Shrinks (H : Hierarchy ι Addr) (X : Addr) (s s' : Core ι Addr D) : Prop extends
    Spares H X s s' where
  accesses : s'.accesses = s.accesses

variable {H : Hierarchy ι Addr} {X b : Addr} {held : ι → Option (Line D)}
variable {s s' s'' : Core ι Addr D} {i j : ι} {l : Option (Line D)}

/-- Lines are only lost. -/
theorem shrinks_of_fewer (hlines : ∀ i l, s'.lines i X = some l → s.lines i X = some l)
    (hevicting : ∀ i, (s'.evicting i).map Prod.fst = (s.evicting i).map Prod.fst)
    (haccesses : s'.accesses = s.accesses) : Shrinks H X s s' where
  lines i l hl := ⟨l, hlines i l hl, le_rfl⟩
  evicting := hevicting
  accesses := haccesses
  last l l' hl hl' := by
    rw [hlines _ l' hl', Option.some.injEq] at hl
    rw [hl]

theorem Shrinks.refl (H : Hierarchy ι Addr) (X : Addr) (s : Core ι Addr D) : Shrinks H X s s :=
  shrinks_of_fewer (fun _ _ h => h) (fun _ => rfl) rfl

theorem Spares.trans (h : Spares H X s s') (h' : Spares H X s' s'') : Spares H X s s'' where
  lines i l'' hl'' := by
    obtain ⟨l', hl', hle'⟩ := h'.lines i l'' hl''
    obtain ⟨l, hl, hle⟩ := h.lines i l' hl'
    exact ⟨l, hl, hle'.trans hle⟩
  evicting i := (h'.evicting i).trans (h.evicting i)
  last l l'' hl hl'' := by
    obtain ⟨l', hl', -⟩ := h'.lines _ l'' hl''
    exact (h'.last l' l'' hl' hl'').trans (h.last l l' hl hl')

theorem Shrinks.trans (h : Shrinks H X s s') (h' : Shrinks H X s' s'') : Shrinks H X s s'' :=
  ⟨h.toSpares.trans h'.toSpares, h'.accesses.trans h.accesses⟩

theorem Spares.idle (h : Spares H X s s') (hidle : ∀ i, s.evicting i = none) (i : ι) :
    s'.evicting i = none := by
  have heq := h.evicting i
  rw [hidle i] at heq
  simpa using heq

theorem Spares.gone (h : Spares H X s s') (hnone : s.lines i X = none) : s'.lines i X = none := by
  cases hl : s'.lines i X with
  | none => rfl
  | some l' =>
    obtain ⟨l, hl, -⟩ := h.lines i l' hl
    rw [hnone] at hl
    cases hl

theorem retrieveCacheBlock_ok {d : D} (h : s.retrieveCacheBlock i b = .ok d) :
    ∃ l, s.lines i b = some l ∧ l.data = d := by
  unfold retrieveCacheBlock at h
  split at h
  · cases h
  · rename_i l hl
    cases h
    exact ⟨l, hl, rfl⟩

theorem shrinks_send (a : Addr) (t : MsgType) (buf : Option D) : Shrinks H X s (s.send a t buf) :=
  shrinks_of_fewer (fun _ _ h => h) (fun _ => rfl) rfl

variable [DecidableEq Addr]

/-- How a state looks from the line `X`, with the copies that are held. -/
def copies (X : Addr) (held : ι → Option (Line D)) (s : Core ι Addr D) : Copies ι D where
  line i := s.lines i X
  held := held
  buf i := (s.evicting i).bind fun buf => if buf.1 = X then some buf.2 else none
  sent := (s.sent.filter fun msg => msg.1 = X).map Prod.snd

@[simp] theorem copies_line : (s.copies X held).line i = s.lines i X := rfl

@[simp] theorem copies_held : (s.copies X held).held = held := rfl

@[simp] theorem copies_sent :
    (s.copies X held).sent = (s.sent.filter fun msg => msg.1 = X).map Prod.snd := rfl

theorem copies_buf_none (h : (s.evicting i).map Prod.fst ≠ some X) :
    (s.copies X held).buf i = none := by
  cases he : s.evicting i with
  | none => simp [copies, he]
  | some buf =>
    have hne : buf.1 ≠ X := by
      intro hX
      exact h (by simp [he, hX])
    simp [copies, he, hne]

theorem copies_buf_some {d : D} (h : s.evicting i = some (X, d)) :
    (s.copies X held).buf i = some d := by
  simp [copies, h]

/-- The evicting buffer of a controller has the line exactly if it evicts it. -/
theorem copies_buf_ne_none :
    (s.copies X held).buf i ≠ none ↔ (s.evicting i).map Prod.fst = some X := by
  constructor
  · intro h
    by_contra hne
    exact h (copies_buf_none hne)
  · intro h
    obtain ⟨⟨a, d⟩, he, rfl⟩ := Option.map_eq_some_iff.mp h
    simp [copies_buf_some he]

/-- Two states that look the same from the line. -/
theorem copies_congr (hlines : ∀ i, s'.lines i X = s.lines i X)
    (hevicting : ∀ i, (s'.copies X held).buf i = (s.copies X held).buf i)
    (hsent : (s'.copies X held).sent = (s.copies X held).sent) :
    s'.copies X held = s.copies X held := by
  have hline : (s'.copies X held).line = (s.copies X held).line := funext hlines
  have hbuf : (s'.copies X held).buf = (s.copies X held).buf := funext hevicting
  revert hline hbuf hsent
  simp only [copies]
  intro hsent hline hbuf
  rw [hline, hbuf, hsent]

theorem copies_send_ne (h : b ≠ X) (t : MsgType) (buf : Option D) :
    (s.send b t buf).copies X held = s.copies X held :=
  copies_congr (fun _ => rfl) (fun _ => rfl) (by simp [send, h])

variable [DecidableEq ι]

theorem setLine_lines_ne (h : b ≠ X) : (s.setLine i b l).lines j X = s.lines j X := by
  simp [setLine, h.symm]

@[simp] theorem setLine_lines_self : (s.setLine i X l).lines i X = l := by
  simp [setLine]

theorem setLine_lines_off (h : j ≠ i) : (s.setLine i b l).lines j X = s.lines j X := by
  simp [setLine, h]

theorem copies_setLine_ne (h : b ≠ X) : (s.setLine i b l).copies X held = s.copies X held :=
  copies_congr (fun _ => setLine_lines_ne h) (fun _ => rfl) rfl

theorem copies_setCState_ne (h : b ≠ X) (cstate : CacheState) :
    (s.setCState i b cstate).copies X held = s.copies X held :=
  copies_setLine_ne h

theorem copies_setEvicting_ne {buf : Option (Addr × D)} (h : (s.evicting i).map Prod.fst ≠ some X)
    (h' : buf.map Prod.fst ≠ some X) : (s.setEvicting i buf).copies X held = s.copies X held := by
  refine copies_congr (fun _ => rfl) (fun j => ?_) rfl
  by_cases hj : j = i
  · subst hj
    rw [copies_buf_none h, copies_buf_none (by simpa [setEvicting] using h')]
  · simp [copies, setEvicting, hj]

theorem agreeOff_setLine (held' : ι → Option (Line D)) (hheld : ∀ j, j ≠ i → held' j = held j) :
    Copies.AgreeOff i (s.copies X held) ((s.setLine i X l).copies X held') where
  line _ hj := setLine_lines_off hj
  held := hheld
  buf _ _ := rfl
  sent := rfl

theorem agreeOff_setEvicting {buf : Option (Addr × D)} (held' : ι → Option (Line D))
    (hheld : ∀ j, j ≠ i → held' j = held j) :
    Copies.AgreeOff i (s.copies X held) ((s.setEvicting i buf).copies X held') where
  line _ _ := rfl
  held := hheld
  buf j hj := by simp [copies, setEvicting, hj]
  sent := rfl

theorem shrinks_setLine_ne (h : b ≠ X) : Shrinks H X s (s.setLine i b l) :=
  shrinks_of_fewer (fun _ _ hl' => by rwa [setLine_lines_ne h] at hl') (fun _ => rfl) rfl

theorem shrinks_setLine_none : Shrinks H X s (s.setLine i b none) := by
  refine shrinks_of_fewer (fun j l' hl' => ?_) (fun _ => rfl) rfl
  by_cases hj : j = i
  · by_cases hb : X = b
    · simp [setLine, hj, hb] at hl'
    · rwa [setLine_lines_ne (Ne.symm hb)] at hl'
  · rwa [setLine_lines_off hj] at hl'

theorem shrinks_setLine_self {l l' : Line D} (hl : s.lines i X = some l)
    (hst : l'.cstate = l.cstate) : Shrinks H X s (s.setLine i X (some l')) := by
  have hlines : ∀ j k, (s.setLine i X (some l')).lines j X = some k →
      ∃ k', s.lines j X = some k' ∧ k.cstate = k'.cstate := by
    intro j k hk
    by_cases hj : j = i
    · subst hj
      rw [setLine_lines_self, Option.some.injEq] at hk
      exact ⟨l, hl, hk ▸ hst⟩
    · rw [setLine_lines_off hj] at hk
      exact ⟨k, hk, rfl⟩
  refine ⟨⟨fun j k hk => ?_, fun _ => rfl, fun k k' hk hk' => ?_⟩, rfl⟩
  · obtain ⟨k', hk', heq⟩ := hlines j k hk
    exact ⟨k', hk', (congrArg rank heq).le⟩
  · obtain ⟨k'', hk'', heq⟩ := hlines _ k' hk'
    rw [hk, Option.some.injEq] at hk''
    rw [heq, hk'']

omit [DecidableEq Addr] in
theorem shrinks_setEvicting {d : D} (h : (s.evicting i).map Prod.fst = some b) :
    Shrinks H X s (s.setEvicting i (some (b, d))) := by
  refine shrinks_of_fewer (fun _ _ hl' => hl') (fun j => ?_) rfl
  by_cases hj : j = i
  · simp [hj, h, setEvicting]
  · simp [setEvicting, hj]

/-- A stored line has the new contents. -/
theorem copies_setLine_put {l : Line D} {d : D} (hl : s.lines i X = some l) :
    (s.setLine i X (some { l with data := d })).copies X held = (s.copies X held).put i d := by
  have hline : (fun j => (s.setLine i X (some { l with data := d })).lines j X) =
      Function.update (fun j => s.lines j X) i (some { l with data := d }) := by
    funext j
    by_cases hj : j = i
    · subst hj
      simp
    · rw [setLine_lines_off hj, Function.update_of_ne hj]
  simp only [Copies.put, copies_line, hl]
  simp only [copies, hline]
  rfl

/-- So has the evicting buffer of a line that is not in its cache any more. -/
theorem copies_setEvicting_put {d : D} (hl : s.lines i X = none) :
    (s.setEvicting i (some (X, d))).copies X held = (s.copies X held).put i d := by
  have hbuf : ((s.setEvicting i (some (X, d))).copies X held).buf =
      Function.update (s.copies X held).buf i (some d) := by
    funext j
    by_cases hj : j = i
    · subst hj
      rw [Function.update_self, copies_buf_some (d := d) (by simp [setEvicting])]
    · rw [Function.update_of_ne hj]
      simp [copies, setEvicting, hj]
  simp only [Copies.put, copies_line, hl, ← hbuf]
  rfl

/-- A line of `X` may have left the cache `i` with the others: `out`. -/
structure Displaces (X : Addr) (i : ι) (out : Option (Line D)) (writebacks : List (Addr × Line D))
    (s s' : Core ι Addr D) : Prop where
  writebacks : (writebacks.filter fun wb => wb.1 = X) = (out.map fun l => (X, l)).toList
  line : s'.lines i X = if out.isSome then none else s.lines i X
  was : ∀ l, out = some l → s.lines i X = some l
  off : ∀ j, j ≠ i → s'.lines j X = s.lines j X
  evicting : s'.evicting = s.evicting
  sent : s'.sent = s.sent
  accesses : s'.accesses = s.accesses

theorem takeOut_displaces {victims : List Addr} {writebacks : List (Addr × Line D)}
    (h : takeOut i victims s = (writebacks, s')) (X : Addr) :
    ∃ out, Displaces X i out writebacks s s' := by
  induction victims generalizing s writebacks with
  | nil =>
    cases h
    exact ⟨none, rfl, rfl, by simp, fun _ _ => rfl, rfl, rfl, rfl⟩
  | cons a rest ih =>
    rw [takeOut] at h
    split at h
    · exact ih h
    rename_i l hl
    cases htake : takeOut i rest (s.setLine i a none) with
    | mk wbs u =>
      rw [htake] at h
      cases h
      obtain ⟨out, hout⟩ := ih htake
      by_cases ha : a = X
      · subst ha
        -- the rest of the superblock has no second copy
        have hnone : out = none := by
          cases out with
          | none => rfl
          | some l' =>
            have := hout.was l' rfl
            simp at this
        subst hnone
        refine ⟨some l, ?_, ?_, ?_, ?_, hout.evicting, hout.sent, hout.accesses⟩
        · rw [List.filter_cons_of_pos (by simp), hout.writebacks]
          rfl
        · simpa using hout.line
        · rintro l' hl'
          cases hl'
          exact hl
        · intro j hj
          rw [hout.off j hj, setLine_lines_off hj]
      · refine ⟨out, ?_, ?_, ?_, ?_, hout.evicting, hout.sent, hout.accesses⟩
        · rw [List.filter_cons_of_neg (by simpa using ha), hout.writebacks]
        · rw [hout.line, setLine_lines_ne ha]
        · intro l' hl'
          rw [← hout.was l' hl', setLine_lines_ne ha]
        · intro j hj
          rw [hout.off j hj, setLine_lines_off hj]

/-- What an insertion displaces, the new line among it when the cache passes it on. -/
theorem insertLine_displaces {place : Nat → Placement Addr} {a : Addr} {l : Line D}
    {writebacks : List (Addr × Line D)} (hnone : s.lines i a = none)
    (h : insertLine place i a l s = (writebacks, s')) (X : Addr) :
    ∃ out, Displaces X i out writebacks (s.setLine i a (some l)) s' := by
  unfold insertLine at h
  dsimp only at h
  split at h
  · cases h
    exact ⟨none, rfl, rfl, by simp, fun _ _ => rfl, rfl, rfl, rfl⟩
  · rename_i victims _
    cases htake : takeOut i victims { s with placements := s.placements + 1 } with
    | mk wbs u =>
      rw [htake] at h
      cases h
      obtain ⟨out, hout⟩ := takeOut_displaces htake X
      by_cases ha : a = X
      · subst ha
        have hout' : out = none := by
          cases out with
          | none => rfl
          | some l' =>
            have hl' : s.lines i a = some l' := hout.was l' rfl
            rw [hnone] at hl'
            cases hl'
        subst hout'
        refine ⟨none, hout.writebacks, ?_, by simp, ?_, hout.evicting, hout.sent, hout.accesses⟩
        · simp
        · intro j hj
          rw [setLine_lines_off hj, setLine_lines_off hj]
          exact hout.off j hj
      · refine ⟨out, hout.writebacks, ?_, ?_, ?_, hout.evicting, hout.sent, hout.accesses⟩
        · rw [setLine_lines_ne ha, setLine_lines_ne ha]
          exact hout.line
        · intro l' hl'
          rw [setLine_lines_ne ha]
          exact hout.was l' hl'
        · intro j hj
          rw [setLine_lines_ne ha, setLine_lines_ne ha]
          exact hout.off j hj
  · cases h
    by_cases ha : a = X
    · subst ha
      refine ⟨some l, by simp, ?_, by simp, ?_, rfl, rfl, rfl⟩
      · exact hnone
      · intro j hj
        rw [setLine_lines_off hj]
    · refine ⟨none, by simp [ha], ?_, by simp, ?_, rfl, rfl, rfl⟩
      · rw [setLine_lines_ne ha]
        rfl
      · intro j hj
        rw [setLine_lines_ne ha]

/-- The copies that are held, and the one that was displaced. -/
def hold (held : ι → Option (Line D)) (i : ι) : Option (Line D) → ι → Option (Line D)
  | none => held
  | some l => Function.update held i (some l)

variable {H : Hierarchy ι Addr} {e : Expected ι D} {out : Option (Line D)}
variable {writebacks : List (Addr × Line D)}

theorem Displaces.good (hd : Displaces X i out writebacks s s')
    (h : (s.copies X held).Good H e) : (s'.copies X (hold held i out)).Good H e := by
  have hbuf : ∀ held' j, (s'.copies X held').buf j = (s.copies X held).buf j := fun _ j => by
    simp [copies, hd.evicting]
  have hsent : ∀ held', (s'.copies X held').sent = (s.copies X held).sent := fun _ => by
    simp [hd.sent]
  cases out with
  | none =>
    have hsame : s'.copies X held = s.copies X held := by
      refine copies_congr (fun j => ?_) (hbuf held) (hsent held)
      by_cases hj : j = i
      · subst hj
        exact hd.line
      · exact hd.off j hj
    rw [hold, hsame]
    exact h
  | some l =>
    refine h.displace ⟨hd.off, ?_, fun j _ => hbuf _ j, hsent _⟩ (hd.was l rfl) hd.line ?_
      (hbuf _ i)
    · intro j hj
      exact Function.update_of_ne hj _ _
    · exact Function.update_self i _ _

theorem Displaces.shrinks (hd : Displaces X i out writebacks s s') : Shrinks H X s s' := by
  refine shrinks_of_fewer (fun j l' hl' => ?_) (fun j => by rw [hd.evicting]) hd.accesses
  by_cases hj : j = i
  · subst hj
    rw [hd.line] at hl'
    split at hl'
    · cases hl'
    · exact hl'
  · rwa [hd.off j hj] at hl'

/-- `writeLine` stores the line, and may displace it or others. -/
theorem writeLine_displaces {place : Nat → Placement Addr} {a : Addr} {l : Line D}
    (h : writeLine place i a l s = (writebacks, s')) (X : Addr) :
    ∃ out, Displaces X i out writebacks (s.setLine i a (some l)) s' := by
  obtain ⟨out, hout⟩ := insertLine_displaces setLine_lines_self h X
  have hsame : (s.setLine i a none).setLine i a (some l) = s.setLine i a (some l) := by
    simp only [setLine, Core.mk.injEq, and_true]
    funext j b
    split <;> rfl
  exact ⟨out, hsame ▸ hout⟩

end Core

open Levels.Core

variable [DecidableEq ι] [DecidableEq Addr]

/-- What one controller relies on when it calls another. -/
structure Keeps (H : Hierarchy ι Addr) (X : Addr) (handler : Handler ι Addr D) : Prop where
  other : ∀ {e : Expected ι D} {held call out} {s s' : Core ι Addr D}, call.addr ≠ X →
    handler call s = .ok (out, s') → (s.copies X held).Good H e →
      (s'.copies X held).Good H e ∧ Shrinks H X s s'
  takes : ∀ {up d out} {s s' : Core ι Addr D} {held}, handler (.write up X d) s = .ok (out, s') →
    (s.copies X held).Takes up
  write : ∀ {e : Expected ι D} {held up d out} {s s' : Core ι Addr D},
    handler (.write up X d) s = .ok (out, s') → ((s.copies X held).put up d).Good H e →
      (s'.copies X held).Good H e ∧ Shrinks H X s s'
  invalidate : ∀ {e : Expected ι D} {held self out} {s s' : Core ι Addr D},
    handler (.update self X .invalid false) s = .ok (out, s') → (s.copies X held).Good H e →
      (s'.copies X held).Good H e ∧ Shrinks H X s s' ∧ s'.lines self X = none
  share : ∀ {e : Expected ι D} {self out} {s s' : Core ι Addr D}, H.next self ≠ none →
    handler (.update self X .shared false) s = .ok (out, s') →
      (s.copies X fun _ => none).Good H e →
        (s'.copies X fun _ => none).Good H e ∧ Shrinks H X s s' ∧
          ∀ l, s'.lines self X = some l → rank l.cstate ≤ 1

namespace Hierarchy

variable {H : Hierarchy ι Addr} {X a : Addr} {handler : Handler ι Addr D} {e : Expected ι D}
variable {held : ι → Option (Line D)} {self : ι} {s s' : Core ι Addr D}

section Prevs

theorem updatePrevs_other (hk : Keeps H X handler) (ha : a ≠ X) {prevs : List ι}
    {newCState : CacheState} (h : updatePrevs handler prevs a newCState s = .ok s')
    (hg : (s.copies X held).Good H e) : (s'.copies X held).Good H e ∧ Shrinks H X s s' := by
  induction prevs generalizing s with
  | nil =>
    cases h
    exact ⟨hg, .refl H X _⟩
  | cons prev rest ih =>
    simp only [updatePrevs, List.foldlM_cons, except_bind_eq_ok] at h
    obtain ⟨u, hu, h⟩ := h
    cases hcall : handler (.update prev a newCState false) s with
    | error f =>
      rw [hcall] at hu
      cases hu
    | ok r =>
      rw [hcall] at hu
      cases hu
      obtain ⟨hg₁, hs₁⟩ := hk.other (show (Call.update prev a newCState false).addr ≠ X from ha)
        hcall hg
      obtain ⟨hg₂, hs₂⟩ := ih h hg₁
      exact ⟨hg₂, hs₁.trans hs₂⟩

theorem updatePrevs_invalidate (hk : Keeps H X handler) {prevs : List ι}
    (h : updatePrevs handler prevs X .invalid s = .ok s') (hg : (s.copies X held).Good H e) :
    (s'.copies X held).Good H e ∧ Shrinks H X s s' ∧ ∀ prev ∈ prevs, s'.lines prev X = none := by
  induction prevs generalizing s with
  | nil =>
    cases h
    exact ⟨hg, .refl H X _, by simp⟩
  | cons prev rest ih =>
    simp only [updatePrevs, List.foldlM_cons, except_bind_eq_ok] at h
    obtain ⟨u, hu, h⟩ := h
    cases hcall : handler (.update prev X .invalid false) s with
    | error f =>
      rw [hcall] at hu
      cases hu
    | ok r =>
      rw [hcall] at hu
      cases hu
      obtain ⟨hg₁, hs₁, hnone⟩ := hk.invalidate hcall hg
      obtain ⟨hg₂, hs₂, hall⟩ := ih h hg₁
      refine ⟨hg₂, hs₁.trans hs₂, fun p hp => ?_⟩
      rcases List.mem_cons.mp hp with rfl | hp
      · exact hs₂.gone hnone
      · exact hall p hp

theorem updatePrevs_share (hk : Keeps H X handler) {prevs : List ι}
    (hlow : ∀ p ∈ prevs, H.next p ≠ none) (h : updatePrevs handler prevs X .shared s = .ok s')
    (hg : (s.copies X fun _ => none).Good H e) :
    (s'.copies X fun _ => none).Good H e ∧ Shrinks H X s s' ∧
      ∀ prev ∈ prevs, ∀ l, s'.lines prev X = some l → rank l.cstate ≤ 1 := by
  induction prevs generalizing s with
  | nil =>
    cases h
    exact ⟨hg, .refl H X _, by simp⟩
  | cons prev rest ih =>
    simp only [updatePrevs, List.foldlM_cons, except_bind_eq_ok] at h
    obtain ⟨u, hu, h⟩ := h
    cases hcall : handler (.update prev X .shared false) s with
    | error f =>
      rw [hcall] at hu
      cases hu
    | ok r =>
      rw [hcall] at hu
      cases hu
      obtain ⟨hg₁, hs₁, hone⟩ := hk.share (hlow prev List.mem_cons_self) hcall hg
      obtain ⟨hg₂, hs₂, hall⟩ := ih (fun p hp => hlow p (List.mem_cons_of_mem _ hp)) h hg₁
      refine ⟨hg₂, hs₁.trans hs₂, fun p hp l hl => ?_⟩
      rcases List.mem_cons.mp hp with rfl | hp
      · obtain ⟨l', hl', hle⟩ := hs₂.lines p l hl
        exact hle.trans (hone l' hl')
      · exact hall p hp l hl

end Prevs

section Other

variable {data : D} {outBuf : Bool} {newCState : CacheState} {out written : Option D}

/-- The three states a line can change to, and the contents for the `out_buf`. -/
theorem changeCState_ok (h : changeCState self a newCState outBuf written s = .ok (out, s')) :
    (newCState = .invalid ∧ s.invalidateCacheBlock self a = .ok s' ∧
      (outBuf = true → ∃ l, s.lines self a = some l ∧ out = some l.data)) ∨
    (newCState = .shared ∧ s' = s.setCState self a .shared ∧
      (outBuf = true → ∃ l, s.lines self a = some l ∧ out = some l.data)) ∨
    (newCState = .modified ∧ s' = s.setCState self a .modified) := by
  unfold changeCState at h
  split at h
  · refine .inl ⟨rfl, ?_⟩
    split at h
    · simp only [except_bind_eq_ok] at h
      obtain ⟨o, ho, u, hu, h⟩ := h
      cases h
      cases hr : s.retrieveCacheBlock self a with
      | error f =>
        rw [hr] at ho
        cases ho
      | ok d =>
        rw [hr] at ho
        cases ho
        obtain ⟨l, hl, rfl⟩ := retrieveCacheBlock_ok hr
        exact ⟨hu, fun _ => ⟨l, hl, rfl⟩⟩
    · rename_i hout
      simp only [except_bind_eq_ok] at h
      obtain ⟨o, ho, u, hu, h⟩ := h
      cases h
      exact ⟨hu, fun hout' => absurd hout' hout⟩
  · refine .inr (.inl ⟨rfl, ?_⟩)
    split at h
    · simp only [except_bind_eq_ok] at h
      obtain ⟨o, ho, h⟩ := h
      cases h
      cases hr : s.retrieveCacheBlock self a with
      | error f =>
        rw [hr] at ho
        cases ho
      | ok d =>
        rw [hr] at ho
        cases ho
        obtain ⟨l, hl, rfl⟩ := retrieveCacheBlock_ok hr
        exact ⟨rfl, fun _ => ⟨l, hl, rfl⟩⟩
    · rename_i hout
      simp only [except_bind_eq_ok] at h
      obtain ⟨o, ho, h⟩ := h
      cases h
      exact ⟨rfl, fun hout' => absurd hout' hout⟩
  · split at h
    · cases h
    · cases h
      exact .inr (.inr ⟨rfl, rfl⟩)
  · cases h
  · cases h
  · cases h

theorem changeCState_invalid (h : changeCState self a .invalid outBuf written s = .ok (out, s')) :
    s.invalidateCacheBlock self a = .ok s' ∧
      (outBuf = true → ∃ l, s.lines self a = some l ∧ out = some l.data) := by
  simpa using changeCState_ok h

theorem changeCState_shared (h : changeCState self a .shared outBuf written s = .ok (out, s')) :
    s' = s.setCState self a .shared ∧
      (outBuf = true → ∃ l, s.lines self a = some l ∧ out = some l.data) := by
  simpa using changeCState_ok h

theorem changeCState_modified
    (h : changeCState self a .modified outBuf written s = .ok (out, s')) :
    s' = s.setCState self a .modified := by
  simpa using changeCState_ok h

theorem setCState_data {cstate : CacheState} {l l' : Line D} (hl : s.lines self a = some l)
    (h : (s.setCState self a cstate).lines self a = some l') : l'.data = l.data := by
  simp only [setCState, setLine_lines_self, hl, Option.map_some, Option.some.injEq] at h
  rw [← h]

/-- The contents of a MODIFIED line go to the next level; those of the last level stay for the
`out_buf`. -/
theorem writeBack_cases (h : H.writeBack handler self a data outBuf s = .ok s') :
    ∃ u, s' = u.setCState self a .shared ∧
      ((∃ up o, H.next self = some up ∧ handler (.write up a data) s = .ok (o, u)) ∨
        (H.next self = none ∧ outBuf = true ∧ u = s)) := by
  unfold writeBack at h
  split at h
  · rename_i up hup
    simp only [except_bind_eq_ok] at h
    obtain ⟨⟨o, u⟩, hcall, h⟩ := h
    cases h
    exact ⟨u, rfl, .inl ⟨up, o, hup, hcall⟩⟩
  · rename_i hlast
    split at h
    · rename_i hout
      cases h
      exact ⟨s, rfl, .inr ⟨hlast, hout, rfl⟩⟩
    · cases h

/-- A line that is not there, or has the state already, is left alone. Any other changes its
state, a MODIFIED one after it has been written back. -/
theorem updateOwn_cases (h : H.updateOwn handler self a newCState outBuf s = .ok (out, s')) :
    (s.lines self a = none ∧ outBuf ≠ true ∧ s' = s) ∨
    ∃ l, s.lines self a = some l ∧
      ((l.cstate = newCState ∧ outBuf = true ∧ out = some l.data ∧ s' = s) ∨
        (l.cstate = .modified ∧ ∃ u written, H.writeBack handler self a l.data outBuf s = .ok u ∧
          changeCState self a newCState outBuf written u = .ok (out, s')) ∨
        (l.cstate ≠ .modified ∧
          changeCState self a newCState outBuf none s = .ok (out, s'))) := by
  unfold updateOwn at h
  split at h
  · rename_i hnone
    split at h
    · cases h
    · rename_i hno
      cases h
      exact .inl ⟨hnone, hno, rfl⟩
  · rename_i l hl
    refine .inr ⟨l, hl, ?_⟩
    split at h
    · rename_i hsame
      cases h
      exact .inl ⟨hsame.1, hsame.2, rfl, rfl⟩
    split at h
    · cases h
    split at h
    · rename_i hm
      rw [except_bind_eq_ok] at h
      obtain ⟨u, hback, h⟩ := h
      exact .inr (.inl ⟨hm, u, _, hback, h⟩)
    · rename_i hm
      exact .inr (.inr ⟨hm, h⟩)

theorem invalidateCacheBlock_ok (h : s.invalidateCacheBlock self a = .ok s') :
    (s.lines self a = none ∧ s' = s) ∨
      ∃ l, s.lines self a = some l ∧ l.cstate ≠ .modified ∧ s' = s.setLine self a none := by
  unfold invalidateCacheBlock at h
  split at h
  · rename_i hnone
    cases h
    exact .inl ⟨hnone, rfl⟩
  · rename_i l hl
    split at h
    · cases h
    · rename_i hm
      cases h
      exact .inr ⟨l, hl, hm, rfl⟩

theorem changeCState_other (ha : a ≠ X)
    (h : changeCState self a newCState outBuf written s = .ok (out, s'))
    (hg : (s.copies X held).Good H e) : (s'.copies X held).Good H e ∧ Shrinks H X s s' := by
  rcases changeCState_ok h with ⟨-, hi, -⟩ | ⟨-, rfl, -⟩ | ⟨-, rfl⟩
  · rcases invalidateCacheBlock_ok hi with ⟨-, rfl⟩ | ⟨l, -, -, rfl⟩
    · exact ⟨hg, .refl H X _⟩
    · exact ⟨by rwa [copies_setLine_ne ha], shrinks_setLine_ne ha⟩
  · exact ⟨by rwa [copies_setCState_ne ha], shrinks_setLine_ne ha⟩
  · exact ⟨by rwa [copies_setCState_ne ha], shrinks_setLine_ne ha⟩

theorem writeBack_other (hk : Keeps H X handler) (ha : a ≠ X)
    (h : H.writeBack handler self a data outBuf s = .ok s') (hg : (s.copies X held).Good H e) :
    (s'.copies X held).Good H e ∧ Shrinks H X s s' := by
  obtain ⟨u, rfl, ⟨up, o, -, hcall⟩ | ⟨-, -, rfl⟩⟩ := writeBack_cases h
  · obtain ⟨hg₁, hs₁⟩ := hk.other (show (Call.write up a data).addr ≠ X from ha) hcall hg
    exact ⟨by rwa [copies_setCState_ne ha], hs₁.trans (shrinks_setLine_ne ha)⟩
  · exact ⟨by rwa [copies_setCState_ne ha], shrinks_setLine_ne ha⟩

theorem updateCacheBlock_other (hk : Keeps H X handler) (ha : a ≠ X)
    (h : H.updateCacheBlock handler self a newCState outBuf s = .ok (out, s'))
    (hg : (s.copies X held).Good H e) : (s'.copies X held).Good H e ∧ Shrinks H X s s' := by
  simp only [updateCacheBlock, except_bind_eq_ok] at h
  obtain ⟨u, hprevs, h⟩ := h
  obtain ⟨hg₁, hs₁⟩ := updatePrevs_other hk ha hprevs hg
  rcases updateOwn_cases h with
    ⟨-, -, rfl⟩ | ⟨l, -, ⟨-, -, -, rfl⟩ | ⟨-, u', written, hback, h⟩ | ⟨-, h⟩⟩
  · exact ⟨hg₁, hs₁⟩
  · exact ⟨hg₁, hs₁⟩
  · obtain ⟨hg₂, hs₂⟩ := writeBack_other hk ha hback hg₁
    obtain ⟨hg₃, hs₃⟩ := changeCState_other ha h hg₂
    exact ⟨hg₃, hs₁.trans (hs₂.trans hs₃)⟩
  · obtain ⟨hg₂, hs₂⟩ := changeCState_other ha h hg₁
    exact ⟨hg₂, hs₁.trans hs₂⟩

theorem backInvalidate_other (hk : Keeps H X handler) (ha : a ≠ X) {buf : D}
    (hidle : s.evicting self = none)
    (h : H.backInvalidate handler self a data s = .ok (buf, s'))
    (hg : (s.copies X held).Good H e) : (s'.copies X held).Good H e ∧ Shrinks H X s s' := by
  unfold backInvalidate at h
  split at h
  · cases h
    exact ⟨hg, .refl H X _⟩
  simp only [except_bind_eq_ok] at h
  obtain ⟨u, hprevs, h⟩ := h
  cases h
  have hset : (s.setEvicting self (some (a, data))).copies X held = s.copies X held :=
    copies_setEvicting_ne (by simp [hidle]) (by simpa using ha)
  obtain ⟨hg₁, hs₁⟩ := updatePrevs_other hk ha hprevs (by rwa [hset])
  have hself : (u.evicting self).map Prod.fst = some a := by
    rw [hs₁.evicting]
    simp [setEvicting]
  refine ⟨?_, ⟨fun i l' hl' => hs₁.lines i l' hl', fun i => ?_, hs₁.last⟩, hs₁.accesses⟩
  · rwa [copies_setEvicting_ne (by rw [hself]; simpa using ha) (by simp)]
  · by_cases hi : i = self
    · subst hi
      simp [setEvicting, hidle]
    · have := hs₁.evicting i
      simpa [setEvicting, hi] using this

theorem passOn_other (hk : Keeps H X handler) (ha : a ≠ X) {cstate : CacheState}
    (h : H.passOn handler self a cstate data s = .ok s') (hg : (s.copies X held).Good H e) :
    (s'.copies X held).Good H e ∧ Shrinks H X s s' := by
  unfold passOn at h
  split at h
  · rename_i up _
    split at h
    · cases hcall : handler (.write up a data) s with
      | error f =>
        rw [hcall] at h
        cases h
      | ok r =>
        rw [hcall] at h
        cases h
        exact hk.other (show (Call.write up a data).addr ≠ X from ha) hcall hg
    · cases h
      exact ⟨hg, .refl H X _⟩
  · split at h
    · cases h
      exact ⟨by rwa [copies_send_ne ha], shrinks_send a _ _⟩
    split at h
    · cases h
      exact ⟨by rwa [copies_send_ne ha], shrinks_send a _ _⟩
    · cases h

theorem handleWriteback_other (hk : Keeps H X handler) {wb : Addr × Line D} (ha : wb.1 ≠ X)
    (h : H.handleWriteback handler self s wb = .ok s') (hg : (s.copies X held).Good H e) :
    (s'.copies X held).Good H e ∧ Shrinks H X s s' := by
  unfold handleWriteback at h
  split at h
  · cases h
  rename_i hidle
  simp only [except_bind_eq_ok] at h
  obtain ⟨⟨buf, u⟩, hback, u', hpass, h⟩ := h
  have hnone : s.evicting self = none := by simpa using hidle
  obtain ⟨hg₁, hs₁⟩ := backInvalidate_other hk ha hnone hback hg
  obtain ⟨hg₂, hs₂⟩ := passOn_other hk ha hpass hg₁
  split at h
  · cases h
  · cases h
    exact ⟨hg₂, hs₁.trans hs₂⟩

end Other

section Line

variable {outBuf : Bool} {out : Option D}

/-- The line is gone from one cache. -/
structure Removes (X : Addr) (i : ι) (s s' : Core ι Addr D) : Prop where
  line : s'.lines i X = none
  off : ∀ j, j ≠ i → s'.lines j X = s.lines j X
  evicting : s'.evicting = s.evicting
  sent : s'.sent = s.sent
  accesses : s'.accesses = s.accesses

omit [DecidableEq ι] [DecidableEq Addr] in
theorem Removes.shrinks (h : Removes X self s s') : Shrinks H X s s' := by
  refine shrinks_of_fewer (fun j l' hl' => ?_) (fun j => by rw [h.evicting]) h.accesses
  by_cases hj : j = self
  · rw [hj, h.line] at hl'
    cases hl'
  · rwa [h.off j hj] at hl'

omit [DecidableEq ι] in
theorem buf_none_of_line {l : Line D} (hg : (s.copies X held).Good H e)
    (hl : s.lines self X = some l) : (s.copies X held).buf self = none := by
  cases hb : (s.copies X held).buf self with
  | none => rfl
  | some d =>
    obtain ⟨l', hl'⟩ := hg.placed.buffered self d hb
    rw [hg.placed.apart self l hl] at hl'
    cases hl'

omit [DecidableEq ι] in
/-- A cache gives up its line after the previous levels. -/
theorem Removes.good (h : Removes X self s s') (hg : (s.copies X held).Good H e)
    (hprevs : ∀ m, H.next m = some self → s.lines m X = none)
    (hpaid : ∀ l, s.lines self X = some l → l.cstate = .modified → H.next self ≠ none →
      e.paid self ∨ (s.copies X held).Pending H self)
    (hkept : ∀ l, s.lines self X = some l → self = H.last → e.dirty → l.cstate ≠ .modified) :
    (s'.copies X held).Good H e := by
  have hbuf : ∀ j, (s'.copies X held).buf j = (s.copies X held).buf j := fun j => by
    simp [copies, h.evicting]
  have hsent : (s'.copies X held).sent = (s.copies X held).sent := by simp [h.sent]
  cases hl : s.lines self X with
  | none =>
    have hsame : s'.copies X held = s.copies X held := by
      refine copies_congr (fun j => ?_) hbuf hsent
      by_cases hj : j = self
      · rw [hj, h.line, hl]
      · exact h.off j hj
    rw [hsame]
    exact hg
  | some l =>
    have hheld : held self = none := hg.placed.apart self l hl
    have hoff : Copies.AgreeOff self (s.copies X held) (s'.copies X held) :=
      ⟨h.off, fun _ _ => rfl, fun j _ => hbuf j, hsent⟩
    refine (hg.vanish hoff (Copies.copy_of_line hl) (Copies.copy_eq_none.mpr ⟨h.line, hheld⟩) ?_
      hprevs (hpaid l hl) ?_ (hkept l hl)).1
    · rw [hbuf]
      exact buf_none_of_line hg hl
    · intro lk j hlk
      rw [copies_held, hheld] at hlk
      cases hlk

theorem invalidate_removes {cstate : CacheState}
    (h : (s.setCState self X cstate).invalidateCacheBlock self X = .ok s') :
    Removes X self s s' := by
  have hoff : ∀ j, j ≠ self → (s.setCState self X cstate).lines j X = s.lines j X := fun j hj =>
    setLine_lines_off hj
  rcases invalidateCacheBlock_ok h with ⟨hnone, rfl⟩ | ⟨l, -, -, rfl⟩
  · exact ⟨hnone, hoff, rfl, rfl, rfl⟩
  · refine ⟨setLine_lines_self, fun j hj => ?_, rfl, rfl, rfl⟩
    rw [setLine_lines_off hj]
    exact hoff j hj

omit [DecidableEq ι] in
/-- The contents of a copy when no previous level has a MODIFIED one. -/
theorem data_of_last {l : Line D} (hg : (s.copies X fun _ => none).Good H e)
    (hl : s.lines H.last X = some l)
    (hprevs : ∀ m lm, H.next m = some H.last → s.lines m X = some lm → rank lm.cstate ≤ 2) :
    l.data = e.contents := by
  have hc := hg.of_idle rfl
  rcases hc.fresh _ l (Copies.copy_of_line hl) with hf | ⟨-, m, hm, hd, -⟩ | ⟨-, ⟨-, hn⟩, -⟩
  · exact hf
  · exact absurd hd (Copies.Current.not_dirty_of_rank (fun lm hlm => hprevs m lm hm hlm) rfl)
  · exact absurd (H.next_eq_none.mpr rfl) hn

theorem updateCacheBlock_invalidate (hk : Keeps H X handler)
    (hout : outBuf = true → self = H.last ∧ (held = fun _ => none) ∧ ¬e.dirty)
    (h : H.updateCacheBlock handler self X .invalid outBuf s = .ok (out, s'))
    (hg : (s.copies X held).Good H e) :
    (s'.copies X held).Good H e ∧ Shrinks H X s s' ∧ s'.lines self X = none ∧
      (outBuf = true → out = some e.contents) := by
  simp only [updateCacheBlock, except_bind_eq_ok] at h
  obtain ⟨u, hprevs, h⟩ := h
  obtain ⟨hg₁, hs₁, hall⟩ := updatePrevs_invalidate hk hprevs hg
  have hnone : ∀ m, H.next m = some self → u.lines m X = none := fun m hm =>
    hall m (H.mem_prevs.mpr hm)
  have hdata : outBuf = true → ∀ l, u.lines self X = some l → l.data = e.contents := by
    intro ho l hl
    obtain ⟨rfl, rfl, -⟩ := hout ho
    refine data_of_last hg₁ hl fun m lm hm hlm => ?_
    rw [hnone m hm] at hlm
    cases hlm
  rcases updateOwn_cases h with
    ⟨hself, hno, rfl⟩ | ⟨l, hl, ⟨hst, ho, -, rfl⟩ | ⟨hm, u', written, hback, h⟩ | ⟨hm, h⟩⟩
  · exact ⟨hg₁, hs₁, hself, fun ho => absurd ho hno⟩
  · -- there is no INVALID line
    obtain ⟨rfl, rfl, -⟩ := hout ho
    rcases (hg₁.of_idle rfl).legal _ l (Copies.copy_of_line hl) with hst' | hst' | hst' | ⟨hst', -⟩ <;>
      simp [hst'] at hst
  · obtain ⟨hi, hread⟩ := changeCState_invalid h
    obtain ⟨v, rfl, hwhere⟩ := writeBack_cases hback
    have hrem : Removes X self v s' := invalidate_removes hi
    rcases hwhere with ⟨up, o, hup, hcall⟩ | ⟨hlast, ho, rfl⟩
    · have hno : ¬outBuf = true := fun ho => by
        obtain ⟨rfl, -⟩ := hout ho
        rw [H.next_eq_none.mpr rfl] at hup
        cases hup
      -- the contents are in the next level now, unless newer ones are held below
      obtain ⟨hput, hpay⟩ := hg₁.writeUp (hk.takes hcall) hup (Copies.copy_of_line hl) hm
        fun m lm hm hlm => by
          rw [copies_line, hnone m hm] at hlm
          cases hlm
      have hs₂ := (hk.write hcall hput).2
      have hlow : ∀ l, v.lines self X = some l → self = H.last → e.dirty →
          l.cstate ≠ .modified := by
        rintro - - rfl
        rw [H.next_eq_none.mpr rfl] at hup
        cases hup
      have hnone' : ∀ m, H.next m = some self → v.lines m X = none := fun m hm =>
        hs₂.gone (hnone m hm)
      refine ⟨?_, hs₁.trans (hs₂.trans hrem.shrinks), hrem.line, fun ho => absurd ho hno⟩
      rcases hpay with hpending | hpay
      · exact hrem.good (hk.write hcall hput).1 hnone' (fun _ _ _ _ => .inr hpending) hlow
      · exact (hrem.good (hk.write hcall hpay).1 hnone' (fun _ _ _ _ => .inl (.inr rfl)) hlow).unpay
    · refine ⟨hrem.good hg₁ hnone (fun _ _ _ hn => absurd hlast hn)
        fun _ _ _ he => absurd he (hout ho).2.2, hs₁.trans hrem.shrinks, hrem.line, fun _ => ?_⟩
      obtain ⟨l', hl', rfl⟩ := hread ho
      rw [← hdata ho l hl, setCState_data hl hl']
  · obtain ⟨hi, hread⟩ := changeCState_invalid h
    have hrem : Removes X self u s' := by
      rcases invalidateCacheBlock_ok hi with ⟨hself, rfl⟩ | ⟨l', -, -, rfl⟩
      · exact ⟨hself, fun _ _ => rfl, rfl, rfl, rfl⟩
      · exact ⟨setLine_lines_self, fun j hj => setLine_lines_off hj, rfl, rfl, rfl⟩
    have hclean : ∀ l', u.lines self X = some l' → l'.cstate ≠ .modified := by
      intro l' hl'
      rw [hl, Option.some.injEq] at hl'
      exact hl' ▸ hm
    refine ⟨hrem.good hg₁ hnone (fun l' hl' hm' => absurd hm' (hclean l' hl'))
      fun l' hl' _ _ => hclean l' hl', hs₁.trans hrem.shrinks, hrem.line, fun ho => ?_⟩
    obtain ⟨l', hl', rfl⟩ := hread ho
    rw [hdata ho l' hl']

/-- The line of one cache becomes SHARED. -/
structure Shares (X : Addr) (i : ι) (s s' : Core ι Addr D) : Prop where
  line : s'.lines i X = (s.lines i X).map fun l => { l with cstate := .shared }
  off : ∀ j, j ≠ i → s'.lines j X = s.lines j X
  evicting : s'.evicting = s.evicting
  sent : s'.sent = s.sent
  accesses : s'.accesses = s.accesses

omit [DecidableEq ι] in
theorem Shares.shrinks (h : Shares X self s s') (hg : (s.copies X fun _ => none).Good H e)
    (hlast : self ≠ H.last) : Shrinks H X s s' where
  lines j l' hl' := by
    by_cases hj : j = self
    · rw [hj, h.line, Option.map_eq_some_iff] at hl'
      obtain ⟨l, hl, rfl⟩ := hl'
      exact ⟨l, hj ▸ hl, (hg.of_idle rfl).one_le_rank (Copies.copy_of_line hl)⟩
    · rw [h.off j hj] at hl'
      exact ⟨l', hl', le_rfl⟩
  evicting j := by rw [h.evicting]
  accesses := h.accesses
  last l l' hl hl' := by
    rw [h.off _ hlast.symm, hl, Option.some.injEq] at hl'
    rw [hl']

omit [DecidableEq ι] [DecidableEq Addr] in
theorem Shares.rank_le (h : Shares X self s s') {l : Line D} (hl : s'.lines self X = some l) :
    rank l.cstate ≤ 1 := by
  rw [h.line, Option.map_eq_some_iff] at hl
  obtain ⟨l', -, rfl⟩ := hl
  exact le_rfl

omit [DecidableEq ι] in
theorem Shares.good (h : Shares X self s s') (hg : (s.copies X fun _ => none).Good H e)
    (hprevs : ∀ m lm, H.next m = some self → s.lines m X = some lm → rank lm.cstate ≤ 1)
    (hpaid : ∀ l, s.lines self X = some l → l.cstate = .modified → H.next self ≠ none →
      e.paid self)
    (hkept : ∀ l, s.lines self X = some l → self = H.last → e.dirty → l.cstate ≠ .modified) :
    (s'.copies X fun _ => none).Good H e := by
  have hbuf : ∀ j, (s'.copies X fun _ => none).buf j = (s.copies X fun _ => none).buf j :=
    fun j => by simp [copies, h.evicting]
  have hsent : (s'.copies X fun _ => none).sent = (s.copies X fun _ => none).sent := by
    simp [h.sent]
  cases hl : s.lines self X with
  | none =>
    have hsame : (s'.copies X fun _ => none) = s.copies X fun _ => none := by
      refine copies_congr (fun j => ?_) hbuf hsent
      by_cases hj : j = self
      · rw [hj, h.line, hl]
        rfl
      · exact h.off j hj
    rw [hsame]
    exact hg
  | some l =>
    have hoff : Copies.AgreeOff self (s.copies X fun _ => none) (s'.copies X fun _ => none) :=
      ⟨h.off, fun _ _ => rfl, fun j _ => hbuf j, hsent⟩
    exact hg.share rfl hoff hl (by rw [copies_line, h.line, hl]; rfl) rfl (hbuf self) hprevs
      (hpaid l hl) (hkept l hl)

theorem setCState_shares : Shares X self s (s.setCState self X .shared) :=
  ⟨setLine_lines_self, fun _ hj => setLine_lines_off hj, rfl, rfl, rfl⟩

theorem setCState_twice_shares :
    Shares X self s ((s.setCState self X .shared).setCState self X .shared) := by
  refine ⟨?_, fun j hj => ?_, rfl, rfl, rfl⟩
  · simp only [setCState, setLine_lines_self, Option.map_map]
    rfl
  · rw [setCState, setLine_lines_off hj, setCState, setLine_lines_off hj]

theorem updateCacheBlock_share (hk : Keeps H X handler)
    (hout : outBuf = true → self = H.last ∧ ¬e.dirty)
    (h : H.updateCacheBlock handler self X .shared outBuf s = .ok (out, s'))
    (hg : (s.copies X fun _ => none).Good H e) :
    (s'.copies X fun _ => none).Good H e ∧
      (∃ u, (∃ e', (u.copies X fun _ => none).Good H e') ∧ Shrinks H X s u ∧ Shares X self u s') ∧
        (outBuf = true → out = some e.contents) := by
  simp only [updateCacheBlock, except_bind_eq_ok] at h
  obtain ⟨u, hprevs, h⟩ := h
  obtain ⟨hg₁, hs₁, hall⟩ := updatePrevs_share hk
    (fun p hp => by simp [H.mem_prevs.mp hp]) hprevs hg
  have hone : ∀ m lm, H.next m = some self → u.lines m X = some lm → rank lm.cstate ≤ 1 :=
    fun m lm hm hlm => hall m (H.mem_prevs.mpr hm) lm hlm
  have hdata : outBuf = true → ∀ l, u.lines self X = some l → l.data = e.contents := by
    intro ho l hl
    obtain ⟨rfl, -⟩ := hout ho
    exact data_of_last hg₁ hl fun m lm hm hlm => (hone m lm hm hlm).trans (by decide)
  rcases updateOwn_cases h with
    ⟨hself, hno, rfl⟩ | ⟨l, hl, ⟨hst, ho, rfl, rfl⟩ | ⟨hm, u', written, hback, h⟩ | ⟨hm, h⟩⟩
  · exact ⟨hg₁, ⟨s', ⟨e, hg₁⟩, hs₁, by rw [hself]; rfl, fun _ _ => rfl, rfl, rfl, rfl⟩,
      fun ho => absurd ho hno⟩
  · refine ⟨hg₁, ⟨s', ⟨e, hg₁⟩, hs₁, ?_, fun _ _ => rfl, rfl, rfl, rfl⟩,
      fun ho => by rw [hdata ho l hl]⟩
    rw [hl, Option.map_some, ← hst]
  · obtain ⟨rfl, hread⟩ := changeCState_shared h
    obtain ⟨v, rfl, ⟨up, o, hup, hcall⟩ | ⟨hlast, ho, rfl⟩⟩ := writeBack_cases hback
    · have hno : ¬outBuf = true := fun ho => by
        obtain ⟨rfl, -⟩ := hout ho
        rw [H.next_eq_none.mpr rfl] at hup
        cases hup
      have hrem : Shares X self v _ := setCState_twice_shares
      obtain ⟨-, hpay⟩ := hg₁.writeUp (hk.takes hcall) hup (Copies.copy_of_line hl) hm
        fun m lm hm hlm => (hone m lm hm hlm).trans (by decide)
      rcases hpay with ⟨m, lm, -, hheld, -⟩ | hpay
      · cases hheld
      obtain ⟨hg₂, hs₂⟩ := hk.write hcall hpay
      refine ⟨(hrem.good hg₂ (fun m lm hm hlm => ?_) (fun _ _ _ _ => .inr rfl) ?_).unpay,
        ⟨v, ⟨_, hg₂⟩, hs₁.trans hs₂, hrem⟩, fun ho => absurd ho hno⟩
      · obtain ⟨lm', hlm', hle⟩ := hs₂.lines m lm hlm
        exact hle.trans (hone m lm' hm hlm')
      · rintro - - rfl
        rw [H.next_eq_none.mpr rfl] at hup
        cases hup
    · have hrem : Shares X self v _ := setCState_twice_shares
      refine ⟨hrem.good hg₁ hone (fun _ _ _ hn => absurd hlast hn)
        fun _ _ _ he => absurd he (hout ho).2, ⟨v, ⟨e, hg₁⟩, hs₁, hrem⟩, fun _ => ?_⟩
      obtain ⟨l', hl', rfl⟩ := hread ho
      rw [← hdata ho l hl, setCState_data hl hl']
  · obtain ⟨rfl, hread⟩ := changeCState_shared h
    have hrem : Shares X self u _ := setCState_shares
    have hclean : ∀ l', u.lines self X = some l' → l'.cstate ≠ .modified := by
      intro l' hl'
      rw [hl, Option.some.injEq] at hl'
      exact hl' ▸ hm
    refine ⟨hrem.good hg₁ hone (fun l' hl' hm' => absurd hm' (hclean l' hl'))
      fun l' hl' _ _ => hclean l' hl', ⟨u, ⟨e, hg₁⟩, hs₁, hrem⟩, fun ho => ?_⟩
    obtain ⟨l', hl', rfl⟩ := hread ho
    rw [hdata ho l' hl']

end Line

section Writebacks

omit [DecidableEq ι] in
theorem copies_send (t : MsgType) (buf : Option D) :
    ((s.send X t buf).copies X held).sent = (s.copies X held).sent ++ [⟨t, buf⟩] := by
  simp [send]

/-- The previous levels give up a line that is held; the contents they wrote are those of the
copy from now on. -/
theorem backInvalidate_self (hk : Keeps H X handler) {l : Line D} {d : D}
    (hheld : held self = some l) (hidle : s.evicting self = none)
    (h : H.backInvalidate handler self X l.data s = .ok (d, s')) (hg : (s.copies X held).Good H e) :
    (s'.copies X (Function.update held self (some { l with data := d }))).Good H e ∧
      Shrinks H X s s' ∧ ∀ m, H.next m = some self → s'.lines m X = none := by
  have hline : s.lines self X = none := by
    cases hl : s.lines self X with
    | none => rfl
    | some l' =>
      have hnone : held self = none := hg.placed.apart self l' hl
      rw [hheld] at hnone
      cases hnone
  unfold backInvalidate at h
  split at h
  · rename_i hfirst
    cases h
    rw [Function.update_eq_self_iff.mpr hheld.symm]
    refine ⟨hg, .refl H X _, fun m hm => ?_⟩
    have hmem := H.mem_prevs.mpr hm
    rw [hfirst] at hmem
    cases hmem
  simp only [except_bind_eq_ok] at h
  obtain ⟨u, hprevs, h⟩ := h
  -- the buffer starts with the contents the line had
  have hbuf : ((s.setEvicting self (some (X, l.data))).copies X held).buf self = some l.data :=
    copies_buf_some (by simp [setEvicting])
  have hset : ((s.setEvicting self (some (X, l.data))).copies X held).Good H e := by
    have hoff : Copies.AgreeOff self (s.copies X held)
        ((s.setEvicting self (some (X, l.data))).copies X held) :=
      agreeOff_setEvicting held fun _ _ => rfl
    refine hg.same (hg.placed.off hoff (hg.placed.apart self) fun _ _ => ⟨l, hheld⟩) rfl
      (fun i => ?_) (fun _ => rfl) rfl
    by_cases hi : i = self
    · subst hi
      rw [Copies.copy_of_held (c := s.copies X held) hline hheld,
        Copies.copy_of_held (c := (s.setEvicting i (some (X, l.data))).copies X held) hline hheld,
        hbuf, copies_buf_none (by simp [hidle])]
      rfl
    · exact hoff.copy hi
  obtain ⟨hg₁, hs₁, hall⟩ := updatePrevs_invalidate hk hprevs hset
  have hfst : (u.evicting self).map Prod.fst = some X := by
    rw [hs₁.evicting]
    simp [setEvicting]
  obtain ⟨⟨a, buf⟩, hev, rfl⟩ := Option.map_eq_some_iff.mp hfst
  rw [hev] at h
  cases h
  have hline' : u.lines self a = none := hs₁.gone hline
  refine ⟨?_, ⟨⟨fun i l' hl' => hs₁.lines i l' hl', fun i => ?_, hs₁.last⟩, hs₁.accesses⟩,
    fun m hm => hall m (H.mem_prevs.mpr hm)⟩
  · have hoff : Copies.AgreeOff self (u.copies a held)
        ((u.setEvicting self none).copies a
          (Function.update held self (some { l with data := buf }))) :=
      agreeOff_setEvicting _ fun j hj => Function.update_of_ne hj _ _
    refine hg₁.same (hg₁.placed.off hoff (fun l' hl' => ?_) fun d' hd' => ?_) rfl (fun i => ?_)
      (fun i => ?_) rfl
    · rw [copies_line, show (u.setEvicting self none).lines self a = u.lines self a from rfl,
        hline'] at hl'
      cases hl'
    · exact ⟨_, Function.update_self self _ _⟩
    · by_cases hi : i = self
      · subst hi
        rw [Copies.copy_of_held (c := u.copies a held) hline' hheld, copies_buf_some hev,
          Copies.copy_of_held (c := (u.setEvicting i none).copies a
            (Function.update held i (some { l with data := buf }))) hline'
            (Function.update_self i _ _), copies_buf_none (by simp [setEvicting])]
        rfl
      · exact hoff.copy hi
    · by_cases hi : i = self
      · subst hi
        simp [hheld]
      · rw [hoff.held i hi]
  · by_cases hi : i = self
    · subst hi
      simp [setEvicting, hidle]
    · have := hs₁.evicting i
      simpa [setEvicting, hi] using this

/-- A held line that no previous level has any more leaves the controller. -/
theorem passOn_self (hk : Keeps H X handler) {l : Line D} (hheld : held self = some l)
    (hidle : s.evicting self = none) (hprevs : ∀ m, H.next m = some self → s.lines m X = none)
    (h : H.passOn handler self X l.cstate l.data s = .ok s') (hg : (s.copies X held).Good H e) :
    (s'.copies X (Function.update held self none)).Good H e ∧ Shrinks H X s s' := by
  have hline : s.lines self X = none := by
    cases hl : s.lines self X with
    | none => rfl
    | some l' =>
      have hnone : held self = none := hg.placed.apart self l' hl
      rw [hheld] at hnone
      cases hnone
  have hnobuf : ∀ held', (s.copies X held').buf self = none := fun _ =>
    copies_buf_none (by simp [hidle])
  have hcopy : (s.copies X held).copy self = some l := by
    rw [Copies.copy_of_held (c := s.copies X held) hline hheld, hnobuf]
    rfl
  have hnone : (s.copies X (Function.update held self none)).copy self = none :=
    Copies.copy_eq_none.mpr ⟨hline, Function.update_self self _ _⟩
  have hoff : Copies.AgreeOff self (s.copies X held)
      (s.copies X (Function.update held self none)) :=
    ⟨fun _ _ => rfl, fun j hj => Function.update_of_ne hj _ _, fun _ _ => rfl, rfl⟩
  unfold passOn at h
  split at h
  · rename_i up hup
    split at h
    · rename_i hm
      cases hcall : handler (.write up X l.data) s with
      | error f =>
        rw [hcall] at h
        cases h
      | ok r =>
        rw [hcall] at h
        cases h
        have htakes : (s.copies X held).Takes up := hk.takes hcall
        obtain ⟨hput, hpay⟩ := hg.writeUp htakes hup hcopy hm fun m lm hn hlm => by
          rw [copies_line, hprevs m hn] at hlm
          cases hlm
        have hkept : ((s.copies X held).put up l.data).copy up ≠ none := by
          rw [Copies.put_copy, ne_eq, Option.map_eq_none_iff]
          exact htakes.copy_ne_none hg.placed
        have hgone : ∀ {e' : Expected ι D}, ((s.copies X held).put up l.data).Good H e' →
            (e'.paid self ∨ (s.copies X held).Pending H self) →
            ((s.copies X (Function.update held self none)).put up l.data).Good H e' :=
          fun hput hpaid => hput.leave hkept hup hoff hcopy hnone (hnobuf _) hprevs hpaid
        rcases hpay with hpending | hpay
        · exact hk.write hcall (hgone hput (.inr hpending))
        · obtain ⟨hg', hs'⟩ := hk.write hcall (hgone hpay (.inl (.inr rfl)))
          exact ⟨hg'.unpay, hs'⟩
    · rename_i hm
      cases h
      refine ⟨(hg.vanish hoff hcopy hnone (hnobuf _) hprevs (fun hm' => absurd hm' hm) ?_
        fun _ _ => hm).1, .refl H X _⟩
      intro lk j hlk hm'
      rw [copies_held, hheld, Option.some.injEq] at hlk
      exact absurd (hlk ▸ hm') hm
  · rename_i hlast
    have hpass : ∀ lk j, (s.copies X held).held self = some lk → lk.cstate = .modified →
        H.next self = some j → (s.copies X held).copy j ≠ none := by
      intro lk j _ _ hn
      rw [hlast] at hn
      cases hn
    have hself := H.next_eq_none.mp hlast
    split at h
    · rename_i hm
      cases h
      obtain ⟨hg₁, hdata⟩ := hg.forget.vanish hoff hcopy hnone (hnobuf _) hprevs
        (fun _ hn => absurd hlast hn) hpass fun _ he => he.elim
      refine ⟨hg₁.sendBack rfl rfl rfl (copies_send _ _) (hdata.imp id fun hdata => ?_),
        shrinks_send X _ _⟩
      exact ⟨⟨.inl rfl, by rw [← hdata hm]⟩, fun _ => hself ▸ hnone⟩
    · rename_i hm
      obtain ⟨hg₁, -⟩ := hg.vanish hoff hcopy hnone (hnobuf _) hprevs
        (fun _ hn => absurd hlast hn) hpass fun _ _ => hm
      split at h
      · cases h
        refine ⟨hg₁.send rfl rfl rfl (copies_send _ _) (.inr ?_), shrinks_send X _ _⟩
        intro msg hmem ht
        obtain rfl := List.mem_singleton.mp hmem
        cases ht
      · cases h

/-- A displaced line is taken from the previous levels, and passed on. -/
theorem handleWriteback_self (hk : Keeps H X handler) {l : Line D} (hheld : held self = some l)
    (h : H.handleWriteback handler self s (X, l) = .ok s') (hg : (s.copies X held).Good H e) :
    (s'.copies X (Function.update held self none)).Good H e ∧ Shrinks H X s s' := by
  unfold handleWriteback at h
  split at h
  · cases h
  rename_i hidle
  simp only [except_bind_eq_ok] at h
  obtain ⟨⟨buf, u⟩, hback, u', hpass, h⟩ := h
  have hnone : s.evicting self = none := by simpa using hidle
  obtain ⟨hg₁, hs₁, hprevs⟩ := backInvalidate_self hk hheld hnone hback hg
  have hnone' : u.evicting self = none := by
    have := hs₁.evicting self
    rw [hnone] at this
    simpa using this
  obtain ⟨hg₂, hs₂⟩ := passOn_self (l := { l with data := buf }) hk (Function.update_self self _ _)
    hnone' hprevs hpass hg₁
  rw [Function.update_idem] at hg₂
  split at h
  · cases h
  · cases h
    exact ⟨hg₂, hs₁.trans hs₂⟩

theorem handleWritebacks_rest (hk : Keeps H X handler) {writebacks : List (Addr × Line D)}
    (hrest : (writebacks.filter fun wb => wb.1 = X) = [])
    (h : H.handleWritebacks handler self writebacks s = .ok s')
    (hg : (s.copies X held).Good H e) : (s'.copies X held).Good H e ∧ Shrinks H X s s' := by
  induction writebacks generalizing s with
  | nil =>
    cases h
    exact ⟨hg, .refl H X _⟩
  | cons wb rest ih =>
    simp only [handleWritebacks, List.foldlM_cons, except_bind_eq_ok] at h
    obtain ⟨u, hwb, h⟩ := h
    rw [List.filter_eq_nil_iff] at hrest
    have hne : wb.1 ≠ X := by simpa using hrest wb List.mem_cons_self
    obtain ⟨hg₁, hs₁⟩ := handleWriteback_other hk hne hwb hg
    obtain ⟨hg₂, hs₂⟩ := ih
      (List.filter_eq_nil_iff.mpr fun wb hmem => hrest wb (List.mem_cons_of_mem _ hmem)) h hg₁
    exact ⟨hg₂, hs₁.trans hs₂⟩

theorem handleWritebacks_hold (hk : Keeps H X handler) {writebacks : List (Addr × Line D)}
    {out : Option (Line D)} (hfree : held self = none)
    (hout : (writebacks.filter fun wb => wb.1 = X) = (out.map fun l => (X, l)).toList)
    (h : H.handleWritebacks handler self writebacks s = .ok s')
    (hg : (s.copies X (hold held self out)).Good H e) :
    (s'.copies X held).Good H e ∧ Shrinks H X s s' := by
  induction writebacks generalizing s with
  | nil =>
    cases out with
    | none =>
      cases h
      exact ⟨hg, .refl H X _⟩
    | some l => cases hout
  | cons wb rest ih =>
    cases out with
    | none => exact handleWritebacks_rest hk hout h hg
    | some l =>
      simp only [handleWritebacks, List.foldlM_cons, except_bind_eq_ok] at h
      obtain ⟨u, hwb, h⟩ := h
      by_cases hne : wb.1 = X
      · rw [List.filter_cons_of_pos (by simpa using hne)] at hout
        obtain ⟨rfl, hrest⟩ : wb = (X, l) ∧ rest.filter (fun wb => wb.1 = X) = [] := by
          simpa using hout
        obtain ⟨hg₁, hs₁⟩ := handleWriteback_self hk (by simp [hold]) hwb hg
        have hback : Function.update (hold held self (some l)) self none = held := by
          simp only [hold, Function.update_idem]
          exact Function.update_eq_self_iff.mpr hfree.symm
        rw [hback] at hg₁
        obtain ⟨hg₂, hs₂⟩ := handleWritebacks_rest hk hrest h hg₁
        exact ⟨hg₂, hs₁.trans hs₂⟩
      · rw [List.filter_cons_of_neg (by simpa using hne)] at hout
        obtain ⟨hg₁, hs₁⟩ := handleWriteback_other hk hne hwb hg
        obtain ⟨hg₂, hs₂⟩ := ih hout h hg₁
        exact ⟨hg₂, hs₁.trans hs₂⟩

/-- What a cache displaced is taken care of. -/
theorem handleWritebacks_displaced (hk : Keeps H X handler) {u : Core ι Addr D}
    {writebacks : List (Addr × Line D)} {out : Option (Line D)}
    (hd : Displaces X self out writebacks s u)
    (h : H.handleWritebacks handler self writebacks u = .ok s')
    (hg : (s.copies X held).Good H e) : (s'.copies X held).Good H e ∧ Shrinks H X s s' := by
  have hg₁ := hd.good hg
  cases out with
  | none =>
    obtain ⟨hg₂, hs₂⟩ := handleWritebacks_rest hk hd.writebacks h hg₁
    exact ⟨hg₂, hd.shrinks.trans hs₂⟩
  | some l =>
    have hfree : held self = none := hg.placed.apart self l (hd.was l rfl)
    obtain ⟨hg₂, hs₂⟩ := handleWritebacks_hold hk hfree hd.writebacks h hg₁
    exact ⟨hg₂, hd.shrinks.trans hs₂⟩

variable {d : D}

theorem writeCacheBlock_takes (h : H.writeCacheBlock handler self X d s = .ok s') :
    (s.copies X held).Takes self := by
  unfold writeCacheBlock at h
  split at h
  · rename_i hev
    exact .inr (copies_buf_ne_none.mpr hev)
  · split at h
    · cases h
    · rename_i l hl
      exact .inl (by simp [hl])

theorem writeCacheBlock_write (hk : Keeps H X handler)
    (h : H.writeCacheBlock handler self X d s = .ok s')
    (hg : ((s.copies X held).put self d).Good H e) :
    (s'.copies X held).Good H e ∧ Shrinks H X s s' := by
  unfold writeCacheBlock at h
  split at h
  · rename_i hev
    cases h
    have hline : s.lines self X = none := by
      cases hl : s.lines self X with
      | none => rfl
      | some l =>
        rw [← copies_setLine_put hl] at hg
        obtain ⟨⟨b, d'⟩, hb, rfl⟩ := Option.map_eq_some_iff.mp hev
        have hfree : held self = none := hg.placed.apart self _ setLine_lines_self
        obtain ⟨l', hl'⟩ := hg.placed.buffered self d' (copies_buf_some hb)
        rw [copies_held, hfree] at hl'
        cases hl'
    exact ⟨by rwa [copies_setEvicting_put hline], shrinks_setEvicting hev⟩
  · split at h
    · cases h
    rename_i l hl
    cases hwrite : s.writeLine H.place self X { l with data := d } with
    | mk writebacks u =>
      rw [hwrite] at h
      dsimp only at h
      split at h
      · obtain ⟨out, hd⟩ := writeLine_displaces hwrite X
        obtain ⟨hg₁, hs₁⟩ := handleWritebacks_displaced hk hd h (by rwa [copies_setLine_put hl])
        have hst : ({ l with data := d } : Line D).cstate = l.cstate := rfl
        exact ⟨hg₁, (shrinks_setLine_self hl hst).trans hs₁⟩
      · cases h

theorem writeCacheBlock_other (hk : Keeps H X handler) (ha : a ≠ X)
    (h : H.writeCacheBlock handler self a d s = .ok s') (hg : (s.copies X held).Good H e) :
    (s'.copies X held).Good H e ∧ Shrinks H X s s' := by
  unfold writeCacheBlock at h
  split at h
  · rename_i hev
    cases h
    refine ⟨?_, shrinks_setEvicting hev⟩
    rwa [copies_setEvicting_ne (by rw [hev]; simpa using ha) (by simpa using ha)]
  · split at h
    · cases h
    rename_i l hl
    cases hwrite : s.writeLine H.place self a { l with data := d } with
    | mk writebacks u =>
      rw [hwrite] at h
      dsimp only at h
      split at h
      · obtain ⟨out, hd⟩ := writeLine_displaces hwrite X
        obtain ⟨hg₁, hs₁⟩ := handleWritebacks_displaced hk hd h (by rwa [copies_setLine_ne ha])
        exact ⟨hg₁, (shrinks_setLine_ne ha).trans hs₁⟩
      · cases h

end Writebacks

/-- Every call keeps the copies good, however deep the calls go. -/
theorem call_keeps (H : Hierarchy ι Addr) (X : Addr) (n : Nat) :
    Keeps H X (H.call n : Handler ι Addr D) := by
  induction n with
  | zero =>
    refine ⟨?_, ?_, ?_, ?_, ?_⟩
    · rintro e held call out s s' - h
      cases h
    · intro up d out s s' held h
      cases h
    · intro e held up d out s s' h
      cases h
    · intro e held self out s s' h
      cases h
    · intro e self out s s' _ h
      cases h
  | succ n hk =>
    refine ⟨?_, ?_, ?_, ?_, ?_⟩
    · intro e held call out s s' ha h hg
      cases call with
      | update self a newCState outBuf => exact updateCacheBlock_other hk ha h hg
      | write self a data =>
        simp only [call, except_bind_eq_ok] at h
        obtain ⟨u, h, hr⟩ := h
        cases hr
        exact writeCacheBlock_other hk ha h hg
    · intro up d out s s' held h
      simp only [call, except_bind_eq_ok] at h
      obtain ⟨u, h, -⟩ := h
      exact writeCacheBlock_takes h
    · intro e held up d out s s' h hg
      simp only [call, except_bind_eq_ok] at h
      obtain ⟨u, h, hr⟩ := h
      cases hr
      exact writeCacheBlock_write hk h hg
    · intro e held self out s s' h hg
      obtain ⟨hg', hs', hnone, -⟩ := updateCacheBlock_invalidate hk (by simp) h hg
      exact ⟨hg', hs', hnone⟩
    · intro e self out s s' hlow h hg
      obtain ⟨hg', ⟨u, ⟨_, hu⟩, hs', hshares⟩, -⟩ := updateCacheBlock_share hk (by simp) h hg
      have hlast : self ≠ H.last := fun hself => hlow (H.next_eq_none.mpr hself)
      exact ⟨hg', hs'.trans (hshares.shrinks hu hlast), fun l hl => hshares.rank_le hl⟩

end Hierarchy

end Sniper.Levels
