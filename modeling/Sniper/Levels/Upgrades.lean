import Sniper.Levels.Changes
import Sniper.Levels.Cascades
set_option autoImplicit false

/-! An upgrade makes the line MODIFIED in every cache of the core that has it. -/

namespace Sniper.Levels
open Sniper.Lib (except_bind_eq_ok)
open Levels.Core

variable {ι Addr D : Type} [DecidableEq ι] [DecidableEq Addr]

namespace Hierarchy

variable {H : Hierarchy ι Addr} {X : Addr} {e : Expected ι D} {self : ι}
variable {s s' s'' : Core ι Addr D}

/-- The lines that `below` picks out become MODIFIED. -/
structure Raised (X : Addr) (below : ι → Prop) (s s' : Core ι Addr D) : Prop where
  raised : ∀ i, below i → s'.lines i X = (s.lines i X).map fun l => { l with cstate := .modified }
  off : ∀ i, ¬below i → s'.lines i X = s.lines i X
  evicting : s'.evicting = s.evicting
  sent : s'.sent = s.sent
  accesses : s'.accesses = s.accesses

omit [DecidableEq ι] [DecidableEq Addr] in
theorem Above.cases_last {i : ι} (h : H.Above i self) :
    i = self ∨ ∃ m ∈ H.prevs self, H.Above i m := by
  by_cases hi : self = i
  · exact .inl hi.symm
  · obtain ⟨m, hm, hn⟩ := h.prev hi
    exact .inr ⟨m, H.mem_prevs.mpr hn, hm⟩

omit [DecidableEq ι] [DecidableEq Addr] in
theorem updatePrevs_raise {handler : Handler ι Addr D} {prevs : List ι}
    (hcall : ∀ {self out} {s s' : Core ι Addr D},
      handler (.update self X .modified false) s = .ok (out, s') → (∀ i, s.evicting i = none) →
      (∀ i l, H.Above i self → s.lines i X = some l → l.cstate ≠ .modified) →
      Raised X (fun i => H.Above i self) s s')
    (hprevs : ∀ m ∈ prevs, H.next m = some self) (hnodup : prevs.Nodup)
    (h : updatePrevs handler prevs X .modified s = .ok s') (hidle : ∀ i, s.evicting i = none)
    (hclean : ∀ m ∈ prevs, ∀ i l, H.Above i m → s.lines i X = some l → l.cstate ≠ .modified) :
    Raised X (fun i => ∃ m ∈ prevs, H.Above i m) s s' := by
  induction prevs generalizing s with
  | nil =>
    cases h
    exact ⟨fun i hi => by simp at hi, fun _ _ => rfl, rfl, rfl, rfl⟩
  | cons prev rest ih =>
    simp only [updatePrevs, List.foldlM_cons, except_bind_eq_ok] at h
    obtain ⟨u, hu, h⟩ := h
    have hraised : Raised X (fun i => H.Above i prev) s u := by
      cases hr : handler (.update prev X .modified false) s with
      | error f =>
        rw [hr] at hu
        cases hu
      | ok r =>
        rw [hr] at hu
        cases hu
        exact hcall hr hidle (hclean prev List.mem_cons_self)
    rw [List.nodup_cons] at hnodup
    -- two previous levels have nothing below them in common
    have hapart : ∀ m ∈ rest, ∀ i, H.Above i m → ¬H.Above i prev := by
      intro m hm i hi hi'
      have hne : m ≠ prev := fun heq => hnodup.1 (heq ▸ hm)
      have hnm := hprevs m (List.mem_cons_of_mem _ hm)
      have hnp := hprevs prev List.mem_cons_self
      have h₁ := hi.eq_of_first (H.prevs_of_sibling hnm hnp hne)
      have h₂ := hi'.eq_of_first (H.prevs_of_sibling hnp hnm (Ne.symm hne))
      exact hne (h₁.trans h₂.symm)
    have hrest := ih (fun m hm => hprevs m (List.mem_cons_of_mem _ hm)) hnodup.2 h
      (fun i => by rw [hraised.evicting, hidle]) fun m hm i l hi hl => by
        rw [hraised.off i (hapart m hm i hi)] at hl
        exact hclean m (List.mem_cons_of_mem _ hm) i l hi hl
    refine ⟨fun i hi => ?_, fun i hi => ?_, hrest.evicting.trans hraised.evicting,
      hrest.sent.trans hraised.sent, hrest.accesses.trans hraised.accesses⟩
    · obtain ⟨m, hm, him⟩ := hi
      rcases List.mem_cons.mp hm with rfl | hm
      · rw [hrest.off i, hraised.raised i him]
        rintro ⟨m', hm', him'⟩
        exact hapart m' hm' i him' him
      · rw [hrest.raised i ⟨m, hm, him⟩, hraised.off i (hapart m hm i him)]
    · rw [hrest.off i, hraised.off i fun him => hi ⟨prev, List.mem_cons_self, him⟩]
      rintro ⟨m, hm, him⟩
      exact hi ⟨m, List.mem_cons_of_mem _ hm, him⟩

theorem call_raise {n : ℕ} {outBuf : Bool} {out : Option D}
    (h : H.call n (.update self X .modified outBuf) s = .ok (out, s'))
    (hidle : ∀ i, s.evicting i = none)
    (hclean : ∀ i l, H.Above i self → s.lines i X = some l → l.cstate ≠ .modified) :
    Raised X (fun i => H.Above i self) s s' ∧ (outBuf = true → s.lines self X ≠ none) := by
  induction n generalizing self outBuf out s s' with
  | zero => cases h
  | succ n ih =>
    simp only [call, updateCacheBlock, except_bind_eq_ok] at h
    obtain ⟨u, hprevs, h⟩ := h
    have hup : ∀ m ∈ H.prevs self, H.next m = some self := fun m hm => H.mem_prevs.mp hm
    have hu := updatePrevs_raise (fun hc hi hcl => (ih hc hi hcl).1) hup (H.prevs_nodup self)
      hprevs hidle fun m hm i l hi hl => hclean i l (hi.tail (hup m hm)) hl
    have hself : u.lines self X = s.lines self X := by
      refine hu.off self ?_
      rintro ⟨m, hm, hi⟩
      exact absurd (H.level_lt (hup m hm)) (not_lt.mpr hi.level_le)
    have hoff : ∀ i, ¬H.Above i self → u.lines i X = s.lines i X := by
      intro i hi
      refine hu.off i ?_
      rintro ⟨m, hm, him⟩
      exact hi (him.tail (hup m hm))
    have hnot : ∀ l, u.lines self X = some l → l.cstate ≠ .modified := fun l hl =>
      hclean self l .refl (hself ▸ hl)
    rcases updateOwn_cases h with ⟨hnone, hno, rfl⟩ | ⟨l, hl, ⟨hm, -⟩ | ⟨hm, -⟩ | ⟨-, h⟩⟩
    · refine ⟨⟨fun i hi => ?_, hoff, hu.evicting, hu.sent, hu.accesses⟩, fun ho => absurd ho hno⟩
      rcases hi.cases_last with rfl | hi
      · rw [← hself, hnone]
        rfl
      · exact hu.raised i hi
    · exact absurd hm (hnot l hl)
    · exact absurd hm (hnot l hl)
    obtain rfl := changeCState_modified h
    refine ⟨⟨fun i hi => ?_, fun i hi => ?_, hu.evicting, hu.sent, hu.accesses⟩,
      fun _ => by rw [← hself, hl]; simp⟩
    · by_cases his : i = self
      · subst his
        rw [setCState, setLine_lines_self, hself]
      · rw [setCState, setLine_lines_off his]
        rcases hi.cases_last with heq | hi
        · exact absurd heq his
        · exact hu.raised i hi
    · have his : i ≠ self := by
        rintro rfl
        exact hi .refl
      rw [setCState, setLine_lines_off his]
      exact hoff i hi

omit [DecidableEq ι] in
/-- The line is MODIFIED then, with the contents it had everywhere. -/
theorem Raised.good (h : Raised X (fun i => H.Above i H.last) s s')
    (hg : (s.copies X fun _ => none).Good H e) (hstrict : e.strict)
    (hclean : ∀ i l, s.lines i X = some l → l.cstate ≠ .modified) (hhome : e.away = none)
    (hpaid : ∀ i, ¬e.paid i) : (s'.copies X fun _ => none).Good H e := by
  refine hg.raise rfl rfl (fun i => h.raised i (above_last i)) ?_ ?_ hstrict hclean hhome hpaid
  · simp [copies, h.evicting]
  · simp [h.sent]

end Hierarchy

end Sniper.Levels
