import Sniper.Performance.RobEntering
set_option autoImplicit false

/-! When the removal of a dependency cannot fail. -/

namespace Sniper.Performance
open Sniper.Lib

namespace DynamicMicroOp

/-- The list of other dependencies reaches into the own instruction only where the range does, and
there is room for what the removal of one of several in the range puts into the list. -/
structure Tidy (uop : DynamicMicroOp) : Prop where
  small : uop.Small
  start : uop.microOpTypeOffset + uop.intraInstructionDependencies ≤ uop.sequenceNumber
  bounded : uop.sequenceNumber < 2 ^ 64
  separate : ∀ n ∈ uop.dependencies, uop.firstIntra ≤ n → n ∈ uop.intraDependencies
  room : 2 ≤ uop.intraInstructionDependencies →
    uop.allDependencies.length ≤ maximumNumberOfDependencies

theorem firstIntra_eq {uop : DynamicMicroOp}
    (hstart : uop.microOpTypeOffset + uop.intraInstructionDependencies ≤ uop.sequenceNumber)
    (hbounded : uop.sequenceNumber < 2 ^ 64) :
    uop.firstIntra =
      uop.sequenceNumber - uop.microOpTypeOffset - uop.intraInstructionDependencies := by
  rw [firstIntra]
  omega

theorem mem_intraDependencies {uop : DynamicMicroOp}
    (hstart : uop.microOpTypeOffset + uop.intraInstructionDependencies ≤ uop.sequenceNumber)
    (hbounded : uop.sequenceNumber < 2 ^ 64) {n : Nat} :
    n ∈ uop.intraDependencies ↔
      uop.firstIntra ≤ n ∧ n < uop.firstIntra + uop.intraInstructionDependencies := by
  have hfirst := firstIntra_eq hstart hbounded
  simp only [intraDependencies, List.mem_map, List.mem_range]
  constructor
  · rintro ⟨i, hi, rfl⟩
    omega
  · rintro ⟨hle, hlt⟩
    exact ⟨n - uop.firstIntra, by omega, by omega⟩

namespace Tidy

variable {uop uop' : DynamicMicroOp} {x : Nat}

theorem typed (h : uop.Tidy) : uop.Typed := ⟨h.bounded, h.small.intra, h.small.offset⟩

theorem mem_iff (h : uop.Tidy) {n : Nat} : n ∈ uop.intraDependencies ↔
    uop.firstIntra ≤ n ∧ n < uop.firstIntra + uop.intraInstructionDependencies :=
  mem_intraDependencies h.start h.bounded

theorem lt_of_mem (h : uop.Tidy) {n : Nat} (hn : n ∈ uop.intraDependencies) :
    n < uop.sequenceNumber := by
  have hfirst := firstIntra_eq h.start h.bounded
  have hrange := h.mem_iff.mp hn
  have hstart := h.start
  omega

/-- All dependencies are on earlier micro-operations. -/
theorem lt (h : uop.Tidy) {n : Nat} (hn : n ∈ uop.allDependencies) : n < uop.sequenceNumber := by
  have hfirst := firstIntra_eq h.start h.bounded
  rw [allDependencies_eq, List.mem_append] at hn
  rcases hn with hn | hn
  · exact h.lt_of_mem hn
  · by_cases hle : uop.firstIntra ≤ n
    · exact h.lt_of_mem (h.separate n hn hle)
    · omega

/-- Without dependencies on the own instruction all are on earlier ones. -/
theorem of_plain (hsmall : uop.Small) (hintra : uop.intraInstructionDependencies = 0)
    (hstart : uop.microOpTypeOffset ≤ uop.sequenceNumber) (hbounded : uop.sequenceNumber < 2 ^ 64)
    (hearlier : ∀ n ∈ uop.dependencies, n < uop.firstIntra) : uop.Tidy where
  small := hsmall
  start := by rwa [hintra]
  bounded := hbounded
  separate := fun n hn hle => absurd (hearlier n hn) (Nat.not_lt.mpr hle)
  room := by
    intro htwo
    rw [hintra] at htwo
    exact absurd htwo (by decide)

theorem lt_firstIntra (h : uop.Tidy) (hintra : uop.intraInstructionDependencies = 0) {n : Nat}
    (hn : n ∈ uop.allDependencies) : n < uop.firstIntra := by
  have hnone : uop.intraDependencies = [] := by rw [intraDependencies, hintra]; rfl
  rw [allDependencies_eq, hnone, List.nil_append] at hn
  by_contra hle
  have hmem := h.separate n hn (Nat.le_of_not_lt hle)
  rw [hnone] at hmem
  cases hmem

/-- One less of the own instruction, with or without it in the list. -/
theorem shrink (h : uop.Tidy) {k : Nat} (hk : uop.intraInstructionDependencies = k + 1)
    {dependencies : List Nat}
    (hdeps : ∀ n ∈ dependencies, n ∈ uop.dependencies ∨ n = uop.firstIntra)
    (hlen : dependencies.length ≤ uop.dependencies.length + 1) :
    Tidy { uop with dependencies := dependencies, intraInstructionDependencies := k } := by
  have hstart := h.start
  have hfirst := firstIntra_eq h.start h.bounded
  have hbounded := h.bounded
  have hintra := h.small.intra
  have hstart' : uop.microOpTypeOffset + k ≤ uop.sequenceNumber := by omega
  have hfirst' := @firstIntra_eq
    { uop with dependencies := dependencies, intraInstructionDependencies := k } hstart' hbounded
  refine ⟨⟨?_, h.small.offset⟩, hstart', hbounded, ?_, ?_⟩
  · change k < 2 ^ 32
    omega
  · intro n hn hle
    have hmem := @mem_intraDependencies
      { uop with dependencies := dependencies, intraInstructionDependencies := k } hstart' hbounded n
    rw [hmem]
    refine ⟨hle, ?_⟩
    rw [hfirst'] at hle ⊢
    simp only at hle ⊢
    rcases hdeps n hn with hold | hnew
    · have hrange := h.mem_iff.mp (h.separate n hold (by omega))
      omega
    · omega
  · intro htwo
    have hroom := h.room (by rw [hk]; exact Nat.le_succ_of_le htwo)
    rw [length_allDependencies, getDependenciesLength] at hroom ⊢
    simp only at htwo ⊢
    omega

theorem removeIntra {k : Nat} (h : uop.Tidy) (hk : uop.intraInstructionDependencies = k)
    (hx : x ∈ uop.intraDependencies) :
    ∃ uop', DynamicMicroOp.removeIntra x k uop = .ok uop' ∧ uop'.Tidy := by
  induction k generalizing uop with
  | zero => simp [intraDependencies, hk] at hx
  | succ k ih =>
    rw [DynamicMicroOp.removeIntra]
    by_cases hfirst : x = uop.firstIntra
    · rw [if_pos hfirst]
      exact ⟨_, rfl, h.shrink hk (fun n hn => .inl hn) (Nat.le_succ _)⟩
    · have hrange := h.mem_iff.mp hx
      have hroom : uop.dependencies.length + 1 < maximumNumberOfDependencies := by
        have hlength := h.room (by omega)
        rw [length_allDependencies, getDependenciesLength] at hlength
        omega
      have htidy := @shrink uop h k hk (uop.dependencies ++ [uop.firstIntra])
        (fun n hn => (List.mem_append.mp hn).imp_right fun hn => List.mem_singleton.mp hn)
        (by rw [List.length_append, List.length_singleton])
      rw [if_neg hfirst, if_pos hroom]
      refine ih htidy rfl ?_
      rw [intraDependencies_succ h.small.intra h.small.offset hk
        (uop.dependencies ++ [uop.firstIntra])] at hx
      exact (List.mem_cons.mp hx).resolve_left hfirst

/-- What is taken out of the list leaves the rest of it. -/
theorem removeInter_same (hremove : uop.removeInter x = .ok uop') :
    uop' = { uop with dependencies := uop'.dependencies } := by
  unfold DynamicMicroOp.removeInter at hremove
  cases hlast : uop.dependencies.getLast? with
  | none => simp [hlast] at hremove
  | some final =>
    simp only [hlast] at hremove
    split at hremove
    · cases hremove
      rfl
    · cases hi : uop.dependencies.idxOf? x with
      | none => simp [hi] at hremove
      | some i =>
        simp only [hi] at hremove
        cases hremove
        rfl

theorem removeInter (h : uop.Tidy) (hx : x ∈ uop.dependencies) :
    ∃ uop', uop.removeInter x = .ok uop' ∧ uop'.Tidy := by
  obtain ⟨uop', hremove, hperm, -, -⟩ := removeInter_of_mem h.typed hx
  have hsame := removeInter_same hremove
  generalize hdeps : uop'.dependencies = deps at hsame
  subst hsame
  have hrest : (x :: deps).Perm uop.dependencies :=
    (List.perm_append_left_iff uop.intraDependencies).mp (List.perm_middle.trans hperm)
  refine ⟨_, hremove, ⟨h.small.intra, h.small.offset⟩, h.start, h.bounded, ?_, ?_⟩
  · intro n hn hle
    exact h.separate n (hrest.subset (List.mem_cons_of_mem _ hn)) hle
  · intro htwo
    have hlength := hperm.length_eq
    have hroom := h.room htwo
    rw [List.length_cons] at hlength
    omega

/-- A dependency can be removed, and then another one. -/
theorem removeDependency (h : uop.Tidy) (hx : x ∈ uop.allDependencies) :
    ∃ uop', uop.removeDependency x = .ok uop' ∧ uop'.Tidy := by
  rw [DynamicMicroOp.removeDependency]
  rw [allDependencies_eq, List.mem_append] at hx
  split
  · next hle => exact h.removeIntra rfl (hx.elim id fun hlist => h.separate x hlist hle)
  · next hlt => exact h.removeInter (hx.resolve_left fun hrange => hlt (h.mem_iff.mp hrange).1)

/-- What is a part of the dependencies can be removed one after the other. -/
theorem removeAll {removed : List Nat} (h : uop.Tidy)
    (hsub : ∀ n, removed.count n ≤ uop.allDependencies.count n) :
    ∃ uop', removed.foldlM DynamicMicroOp.removeDependency uop = .ok uop' ∧ uop'.Tidy := by
  induction removed generalizing uop with
  | nil => exact ⟨uop, rfl, h⟩
  | cons x removed ih =>
    have hx : x ∈ uop.allDependencies := by
      have hcount := hsub x
      rw [List.count_cons_self] at hcount
      exact List.count_pos_iff.mp (Nat.lt_of_lt_of_le (Nat.succ_pos _) hcount)
    obtain ⟨uop', hremove, htidy⟩ := h.removeDependency hx
    have hdrop := removeDependency_drops h.small hremove
    obtain ⟨uop'', hrest, htidy'⟩ := ih htidy (by
      intro n
      have hcount := hsub n
      have hless := hdrop.count n
      rw [List.count_cons] at hcount
      simp only [beq_iff_eq] at hcount
      omega)
    refine ⟨uop'', ?_, htidy'⟩
    rw [List.foldlM_cons, hremove]
    exact hrest

/-- Nothing but fields that say nothing of dependencies has changed. -/
theorem congr (h : uop.Tidy) (hnumber : uop'.sequenceNumber = uop.sequenceNumber)
    (hintra : uop'.intraInstructionDependencies = uop.intraInstructionDependencies)
    (hoffset : uop'.microOpTypeOffset = uop.microOpTypeOffset)
    (hlist : uop'.dependencies = uop.dependencies) : uop'.Tidy := by
  have hfirst : uop'.firstIntra = uop.firstIntra := by
    rw [firstIntra, firstIntra, hnumber, hintra, hoffset]
  have hrange : uop'.intraDependencies = uop.intraDependencies := by
    rw [intraDependencies, intraDependencies, hintra, hfirst]
  refine ⟨⟨hintra ▸ h.small.intra, hoffset ▸ h.small.offset⟩, ?_, hnumber ▸ h.bounded, ?_, ?_⟩
  · rw [hoffset, hintra, hnumber]
    exact h.start
  · rw [hlist, hfirst, hrange]
    exact h.separate
  · rw [hintra, allDependencies_eq, hrange, hlist, ← allDependencies_eq]
    exact h.room

end Tidy

end DynamicMicroOp

end Sniper.Performance
