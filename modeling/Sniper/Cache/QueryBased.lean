import Sniper.Cache.Lru
set_option autoImplicit false

/-! LRU replacement with query-based selection: superblocks with lines in previous levels
are passed over. -/

namespace Sniper.Cache
open Sniper.Lib Dish

variable {n assoc : Nat}

/-- What `isInLowerLevelCache` answers about a line. -/
abbrev LowerLevel := CacheBlockInfo → Bool

/-- `qbs_reject`: a previous level has some line of the superblock. -/
def SuperblockInfo.rejected (lower : LowerLevel) (s : SuperblockInfo) : Bool :=
  (List.finRange superblockSize).any fun b => (s.blockInfos b).any fun i => i.isValid && lower i

namespace CacheSetLRUQBS

/-- The answer of `getReplacementWay`, the list after it, and the ways whose lines it asked about. -/
structure Selection (assoc : Nat) where
  way : Fin (assoc + 1)
  priorities : List (Fin assoc)
  queried : List (Fin assoc)

def Selection.asked (w : Fin assoc) (r : Selection assoc) : Selection assoc :=
  { r with queried := w :: r.queried }

/-- The attempts that are left; only the last one may force lines out of previous levels. -/
def selectWay (s : CacheSet n assoc) (allowFwdInv : Bool) (lower : LowerLevel) :
    Nat → List (Fin assoc) → Selection assoc
  | 0, priorities => ⟨Fin.last assoc, priorities, []⟩
  | left + 1, priorities =>
    match priorities.find? fun w => (s w).info.isValidReplacement with
    | none => ⟨Fin.last assoc, priorities, []⟩
    | some w =>
      let reject := (s w).info.rejected lower
      if 0 < left then
        if reject then (selectWay s allowFwdInv lower left (moveToBack priorities w)).asked w
        else ⟨w.castSucc, moveToBack priorities w, [w]⟩
      else if !reject || (reject && allowFwdInv) then ⟨w.castSucc, moveToBack priorities w, [w]⟩
      else (selectWay s allowFwdInv lower left priorities).asked w

def getReplacementWay (attempts : Nat) (s : CacheSet n assoc) (priorities : List (Fin assoc))
    (allowFwdInv : Bool) (lower : LowerLevel) : Selection assoc :=
  match (List.finRange assoc).find? fun w => !(s w).info.isValid with
  | some w => ⟨w.castSucc, moveToBack priorities w, []⟩
  | none => selectWay s allowFwdInv lower attempts priorities

end CacheSetLRUQBS

/-- The policy with `m_num_attempts` attempts. `updateReplacementWay` is that of LRU. -/
abbrev CacheSetLRUQBS (attempts n assoc : Nat) : Policy n assoc where
  State := List (Fin assoc)
  init := List.finRange assoc
  Answers := LowerLevel
  getReplacementWay s priorities allowFwdInv lower :=
    let r := CacheSetLRUQBS.getReplacementWay attempts s priorities allowFwdInv lower
    (r.way, r.priorities)
  updateReplacementWay := CacheSetLRU.updateReplacementWay

/-! ### What a superblock holds -/

namespace SuperblockInfo

variable {s : SuperblockInfo} {lower : LowerLevel}

/-- A superblock is not replaced while one of its lines waits for an upgrade. -/
theorem isValidReplacement_iff : s.isValidReplacement = true ↔
    ∀ b i, s.blockInfos b = some i → i.isValid = true → i.cstate ≠ .sharedUpgrading := by
  simp only [isValidReplacement, List.all_eq_true, List.mem_finRange, forall_const,
    Bool.not_eq_true', Option.any_eq_false, Bool.and_eq_false_imp, beq_eq_false_iff_ne]

theorem rejected_iff : s.rejected lower = true ↔
    ∃ b i, s.blockInfos b = some i ∧ i.isValid = true ∧ lower i = true := by
  simp only [rejected, List.any_eq_true, List.mem_finRange, true_and, Option.any_eq_true,
    Bool.and_eq_true]

theorem rejected_eq_false_iff : s.rejected lower = false ↔
    ∀ b i, s.blockInfos b = some i → i.isValid = true → lower i = false := by
  rw [← Bool.not_eq_true, rejected_iff]
  push Not
  simp only [Bool.not_eq_true, ne_eq]

theorem not_valid_of_isValid {b : BlockId} {i : CacheBlockInfo} (h : s.isValid = false)
    (hi : s.blockInfos b = some i) : i.isValid = false := by
  simp only [isValid, List.any_eq_false, isValidAt] at h
  simpa [hi] using h b (List.mem_finRange b)

end SuperblockInfo

/-! ### A selection -/

namespace CacheSetLRUQBS

variable {s : CacheSet n assoc} {allowFwdInv : Bool} {lower : LowerLevel} {attempts : Nat}
variable {priorities : List (Fin assoc)}

/-- What a selection with so many attempts may answer. -/
structure Respects (s : CacheSet n assoc) (allowFwdInv : Bool) (lower : LowerLevel) (attempts : Nat)
    (r : Selection assoc) : Prop where
  real : ∀ w : Fin assoc, r.way = w.castSucc → (s w).info.isValidReplacement = true
  spared : allowFwdInv = false → ∀ w : Fin assoc, r.way = w.castSucc →
    (s w).info.rejected lower = false
  found : allowFwdInv = true → 1 ≤ attempts → (∃ w, (s w).info.isValidReplacement = true) →
    r.way ≠ Fin.last assoc
  queries : r.queried.length ≤ attempts
  perm : r.priorities.Perm (List.finRange assoc)
  newest : ∀ w : Fin assoc, r.way = w.castSucc → r.priorities.getLast? = some w

/-- A way that is returned. -/
theorem respects_returned {w : Fin assoc} {queried : List (Fin assoc)}
    (hl : priorities.Perm (List.finRange assoc)) (hreal : (s w).info.isValidReplacement = true)
    (hspared : allowFwdInv = false → (s w).info.rejected lower = false)
    (hqueries : queried.length ≤ attempts) :
    Respects s allowFwdInv lower attempts ⟨w.castSucc, moveToBack priorities w, queried⟩ where
  real w' h := by
    obtain rfl := Fin.castSucc_injective _ h
    exact hreal
  spared hno w' h := by
    obtain rfl := Fin.castSucc_injective _ h
    exact hspared hno
  found _ _ _ := Fin.castSucc_ne_last w
  queries := hqueries
  perm := moveToBack_ways hl w
  newest w' h := by
    obtain rfl := Fin.castSucc_injective _ h
    exact moveToBack_getLast priorities w

/-- A bypass, when lines may not be forced out or no way may be replaced. -/
theorem respects_bypass {queried : List (Fin assoc)} (hl : priorities.Perm (List.finRange assoc))
    (hnone : allowFwdInv = true → 1 ≤ attempts → ∀ w, (s w).info.isValidReplacement = false)
    (hqueries : queried.length ≤ attempts) :
    Respects s allowFwdInv lower attempts ⟨Fin.last assoc, priorities, queried⟩ where
  real w h := absurd h.symm (Fin.castSucc_ne_last w)
  spared _ w h := absurd h.symm (Fin.castSucc_ne_last w)
  found hallow hpos := by
    rintro ⟨w, hw⟩
    rw [hnone hallow hpos w] at hw
    cases hw
  queries := hqueries
  perm := hl
  newest w h := absurd h.symm (Fin.castSucc_ne_last w)

/-- One attempt more, spent on a way that is passed over. -/
theorem Respects.asked {left : Nat} {r : Selection assoc} (h : Respects s allowFwdInv lower left r)
    (w : Fin assoc) (hleft : allowFwdInv = true → 1 ≤ left) :
    Respects s allowFwdInv lower (left + 1) (r.asked w) where
  real := h.real
  spared := h.spared
  found hallow _ := h.found hallow (hleft hallow)
  queries := Nat.succ_le_succ h.queries
  perm := h.perm
  newest := h.newest

theorem selectWay_respects (hl : priorities.Perm (List.finRange assoc)) :
    Respects s allowFwdInv lower attempts (selectWay s allowFwdInv lower attempts priorities) := by
  induction attempts generalizing priorities with
  | zero => exact respects_bypass hl (fun _ hpos => absurd hpos (by decide)) (Nat.le_refl 0)
  | succ left ih =>
    rw [selectWay]
    cases hfind : priorities.find? fun w => (s w).info.isValidReplacement with
    | none =>
      refine respects_bypass hl (fun _ _ w => ?_) (Nat.zero_le _)
      rw [List.find?_eq_none] at hfind
      exact eq_false_of_ne_true (hfind w (hl.mem_iff.mpr (List.mem_finRange w)))
    | some w =>
      have hreal := (List.find?_eq_some_iff_append.mp hfind).1
      have hone : [w].length ≤ left + 1 := Nat.succ_le_succ (Nat.zero_le left)
      simp only
      split
      · rename_i hmore
        cases hreject : (s w).info.rejected lower with
        | true => exact (ih (moveToBack_ways hl w)).asked w fun _ => hmore
        | false => exact respects_returned hl hreal (fun _ => hreject) hone
      · split
        · rename_i hkeep
          refine respects_returned hl hreal (fun hno => ?_) hone
          simpa [hno] using hkeep
        · -- the last attempt may not force a line out
          rename_i hlast hkeep
          refine (ih hl).asked w fun hallow => ?_
          rw [hallow, Bool.and_true, Bool.not_or_self] at hkeep
          exact absurd rfl hkeep

theorem getReplacementWay_respects (hl : priorities.Perm (List.finRange assoc)) :
    Respects s allowFwdInv lower attempts
      (getReplacementWay attempts s priorities allowFwdInv lower) := by
  rw [getReplacementWay]
  cases hfree : (List.finRange assoc).find? fun w => !(s w).info.isValid with
  | none => exact selectWay_respects hl
  | some w =>
    -- a way without lines is taken without a question
    have hempty : (s w).info.isValid = false := by
      simpa using (List.find?_eq_some_iff_append.mp hfree).1
    refine respects_returned hl ?_ (fun _ => ?_) (Nat.zero_le _)
    · rw [SuperblockInfo.isValidReplacement_iff]
      intro b i hi hvalid
      rw [SuperblockInfo.not_valid_of_isValid hempty hi] at hvalid
      cases hvalid
    · rw [SuperblockInfo.rejected_eq_false_iff]
      intro b i hi hvalid
      rw [SuperblockInfo.not_valid_of_isValid hempty hi] at hvalid
      cases hvalid

/-- In every run the list is a permutation of the ways. -/
theorem repl_perm {linear : Addr → Addr} {s : PolicySet (CacheSetLRUQBS attempts n assoc)}
    (h : Reachable (PolicySet.machine (CacheSetLRUQBS attempts n assoc) linear) s) :
    s.repl.Perm (List.finRange assoc) := by
  refine h.invariant (I := fun s => s.repl.Perm (List.finRange assoc)) ?_ ?_
  · rintro u rfl
    exact List.Perm.refl _
  · intro u call touched u' hu hstep
    exact PolicySet.perform_keeps (I := (List.Perm · (List.finRange assoc)))
      (fun _ _ _ _ hl => (getReplacementWay_respects hl).perm)
      (fun _ _ _ => updateReplacementWay_perm) hu hstep

end CacheSetLRUQBS

/-- Whatever a set holds, and whatever the previous levels answer: the selection bypasses the set or names a
way without a line that waits for an upgrade; it spares the lines of previous levels when these may not be
forced out; otherwise it finds a way if there is one; it asks about no more ways than it may make attempts;
and it keeps the list a permutation of the ways, the chosen one at its end. -/
theorem qbs_selection {attempts : Nat} {linear : Addr → Addr}
    {s : PolicySet (CacheSetLRUQBS attempts n assoc)} (hattempts : 1 ≤ attempts)
    (h : Reachable (PolicySet.machine (CacheSetLRUQBS attempts n assoc) linear) s)
    (ways : CacheSet n assoc) (allowFwdInv : Bool) (lower : LowerLevel) :
    let r := CacheSetLRUQBS.getReplacementWay attempts ways s.repl allowFwdInv lower
    (r.way = Fin.last assoc ∨ ∃ w : Fin assoc, r.way = w.castSucc ∧
      (∀ b i, (ways w).info.blockInfos b = some i → i.isValid = true →
        i.cstate ≠ .sharedUpgrading) ∧
      (allowFwdInv = false → ∀ b i, (ways w).info.blockInfos b = some i → i.isValid = true →
        lower i = false) ∧
      r.priorities.getLast? = some w) ∧
    (allowFwdInv = true → (∃ w, ∀ b i, (ways w).info.blockInfos b = some i → i.isValid = true →
      i.cstate ≠ .sharedUpgrading) → r.way ≠ Fin.last assoc) ∧
    r.queried.length ≤ attempts ∧
    s.repl.Perm (List.finRange assoc) ∧ r.priorities.Perm (List.finRange assoc) := by
  intro r
  have hperm := CacheSetLRUQBS.repl_perm h
  have hr : CacheSetLRUQBS.Respects ways allowFwdInv lower attempts r :=
    CacheSetLRUQBS.getReplacementWay_respects hperm
  refine ⟨?_, ?_, hr.queries, hperm, hr.perm⟩
  · by_cases hway : r.way = Fin.last assoc
    · exact .inl hway
    · obtain ⟨w, hw⟩ := Fin.exists_castSucc_eq.mpr hway
      refine .inr ⟨w, hw.symm, ?_, fun hno => ?_, hr.newest w hw.symm⟩
      · exact SuperblockInfo.isValidReplacement_iff.mp (hr.real w hw.symm)
      · exact SuperblockInfo.rejected_eq_false_iff.mp (hr.spared hno w hw.symm)
  · rintro hallow ⟨w, hw⟩
    exact hr.found hallow hattempts ⟨w, SuperblockInfo.isValidReplacement_iff.mpr hw⟩

/-- Lines of two superblocks, one in each way. -/
def twoWays (attempts : Nat) : List (PolicyCall (CacheSetLRUQBS attempts 64 2)) :=
  [⟨.insertLine (.new 0) (some fun _ => 0) true (fun _ => false), BlockData.sampleCntlr false false,
    .greatest⟩,
   ⟨.insertLine (.new 64) (some fun _ => 0) true (fun _ => false), BlockData.sampleCntlr false false,
    .greatest⟩]

/-- The least recently used way holds a line of a previous level, so a writeback takes the other. -/
theorem qbs_selection_twoWays : ∃ s : PolicySet (CacheSetLRUQBS 2 64 2),
    Reachable (PolicySet.machine (CacheSetLRUQBS 2 64 2) id) s ∧
    let r := CacheSetLRUQBS.getReplacementWay 2 s.ways s.repl false fun i => i.tag == 0
    r.way = 1 ∧ r.queried = [0, 1] ∧ r.queried.length ≤ 2 ∧
      r.priorities.Perm (List.finRange 2) := by
  have heval : (performEach (PolicySet.perform id) (fun _ _ => true) (PolicySet.fresh _)
      (twoWays 2)).any (fun s =>
        let r := CacheSetLRUQBS.getReplacementWay 2 s.ways s.repl false fun i => i.tag == 0
        r.way == 1 && r.queried == [0, 1]) = true := by
    rfl
  obtain ⟨s, hs, heval⟩ := Option.any_eq_true _ _ |>.mp heval
  simp only [Bool.and_eq_true, beq_iff_eq] at heval
  have hreach := PolicySet.performEach_reachable hs
  obtain ⟨-, -, hqueries, -, hperm⟩ :=
    qbs_selection (by decide) hreach s.ways false fun i => i.tag == 0
  exact ⟨s, hreach, heval.1, heval.2, hqueries, hperm⟩

end Sniper.Cache
