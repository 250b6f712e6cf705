import Sniper.Performance.MicroOp
import Mathlib.Algebra.Group.Nat.Defs
import Mathlib.Data.Finset.Card
import Mathlib.Data.List.Nodup
import Mathlib.Data.List.Perm.Basic
set_option autoImplicit false

/-! The dependencies of a micro-operation as a set: a range within its own instruction, and a list of
others. -/

namespace Sniper.Performance

namespace DynamicMicroOp

def getDependency (uop : DynamicMicroOp) (index : Nat) : Nat :=
  if index < uop.intraInstructionDependencies then (uop.firstIntra + index) % 2 ^ 64
  else uop.dependencies.getD (index - uop.intraInstructionDependencies) 0

/-- What `getDependency` gives for all indices in turn. -/
def enumerated (uop : DynamicMicroOp) : List Nat :=
  (List.range uop.getDependenciesLength).map uop.getDependency

def intraDependencies (uop : DynamicMicroOp) : List Nat :=
  (List.range uop.intraInstructionDependencies).map fun i => (uop.firstIntra + i) % 2 ^ 64

theorem allDependencies_eq (uop : DynamicMicroOp) :
    uop.allDependencies = uop.intraDependencies ++ uop.dependencies := rfl

theorem getDependency_intra (uop : DynamicMicroOp) :
    (List.range uop.intraInstructionDependencies).map uop.getDependency =
      uop.intraDependencies := by
  refine List.map_congr_left fun i hi => ?_
  rw [getDependency, if_pos (List.mem_range.mp hi)]

theorem enumerated_eq (uop : DynamicMicroOp) : uop.enumerated = uop.allDependencies := by
  rw [enumerated, getDependenciesLength, List.range_add, List.map_append, getDependency_intra,
    allDependencies_eq]
  congr 1
  rw [List.map_map]
  refine List.ext_getElem (by simp) fun i hi hi' => ?_
  simp [getDependency, List.getElem?_eq_getElem hi']

/-- The fields are within their types: 64 bits for a sequence number, 32 for the two others. -/
structure Typed (uop : DynamicMicroOp) : Prop where
  sequenceNumber : uop.sequenceNumber < 2 ^ 64
  intra : uop.intraInstructionDependencies < 2 ^ 32
  offset : uop.microOpTypeOffset < 2 ^ 32

theorem intraDependencies_nodup {uop : DynamicMicroOp} (h : uop.Typed) :
    uop.intraDependencies.Nodup := by
  refine List.Nodup.map_on ?_ List.nodup_range
  intro i hi j hj hsame
  have hsmall := h.intra
  rw [List.mem_range] at hi hj
  omega

theorem range_succ_mod (first k : Nat) (h : first < 2 ^ 64) :
    (List.range (k + 1)).map (fun i => (first + i) % 2 ^ 64) =
      first :: (List.range k).map fun i => ((first + 1) % 2 ^ 64 + i) % 2 ^ 64 := by
  rw [List.range_succ_eq_map, List.map_cons, List.map_map, Nat.add_zero, Nat.mod_eq_of_lt h]
  have htail : ∀ i, (first + (i + 1)) % 2 ^ 64 = ((first + 1) % 2 ^ 64 + i) % 2 ^ 64 := by
    intro i
    omega
  exact congrArg (List.cons first) (List.map_congr_left fun i _ => htail i)

theorem firstIntra_lt (uop : DynamicMicroOp) : uop.firstIntra < 2 ^ 64 :=
  Nat.mod_lt _ (Nat.two_pow_pos 64)

theorem firstIntra_succ {uop : DynamicMicroOp}
    (hintra : uop.intraInstructionDependencies < 2 ^ 32) (hoffset : uop.microOpTypeOffset < 2 ^ 32)
    {k : Nat} (hk : uop.intraInstructionDependencies = k + 1) (dependencies : List Nat) :
    firstIntra { uop with
      dependencies := dependencies
      intraInstructionDependencies := k } = (uop.firstIntra + 1) % 2 ^ 64 := by
  simp only [firstIntra]
  omega

/-- One less of the own instruction: the range begins one later. -/
theorem intraDependencies_succ {uop : DynamicMicroOp}
    (hintra : uop.intraInstructionDependencies < 2 ^ 32) (hoffset : uop.microOpTypeOffset < 2 ^ 32)
    {k : Nat} (hk : uop.intraInstructionDependencies = k + 1) (dependencies : List Nat) :
    uop.intraDependencies = uop.firstIntra ::
      intraDependencies { uop with
        dependencies := dependencies
        intraInstructionDependencies := k } := by
  rw [intraDependencies, hk, range_succ_mod _ _ uop.firstIntra_lt, intraDependencies,
    firstIntra_succ hintra hoffset hk dependencies]

theorem addDependency_mem {uop : DynamicMicroOp} {x : Nat} (h : x ∈ uop.dependencies) :
    uop.addDependency x = .ok uop := if_pos h

theorem addDependency_notMem {uop : DynamicMicroOp} {x : Nat} (h : x ∉ uop.dependencies)
    (hlen : uop.dependencies.length < maximumNumberOfDependencies) :
    uop.addDependency x = .ok { uop with dependencies := uop.dependencies ++ [x] } := by
  rw [addDependency, if_neg h, if_pos hlen]

/-- A step that takes `x` out of the list and keeps the rest, in some order. -/
structure Removes (x : Nat) (uop uop' : DynamicMicroOp) : Prop where
  perm : (x :: uop'.allDependencies).Perm uop.allDependencies
  typed : uop'.Typed
  sequenceNumber : uop'.sequenceNumber = uop.sequenceNumber

/-- The last takes the place of what is removed. -/
theorem swap_last_perm {l : List Nat} {x final : Nat} {i : Nat} (hlast : l.getLast? = some final)
    (hne : final ≠ x) (hi : l.idxOf? x = some i) :
    (x :: (l.set i final).dropLast).Perm l := by
  obtain ⟨hlt, hx, _⟩ := List.idxOf?_eq_some_iff.mp hi
  have hnil : l ≠ [] := List.ne_nil_of_length_pos (Nat.zero_lt_of_lt hlt)
  have hfinal : l.getLast hnil = final := by
    rw [List.getLast?_eq_some_getLast hnil] at hlast
    exact Option.some.inj hlast
  have hinner : i ≠ l.length - 1 := by
    rintro rfl
    rw [List.getLast_eq_getElem] at hfinal
    exact hne (hfinal.symm.trans hx)
  have hsetnil : l.set i final ≠ [] := by
    intro h
    exact hnil (by simpa using h)
  have hset : (l.set i final).dropLast ++ [final] = l.set i final := by
    have hlastset : (l.set i final).getLast hsetnil = final := by
      rw [List.getLast_eq_getElem] at hfinal ⊢
      rw [List.getElem_set_of_ne]
      · simpa using hfinal
      · simpa using hinner
    conv_rhs => rw [← List.dropLast_append_getLast hsetnil, hlastset]
  have hperm : (final :: (l.set i final).dropLast).Perm (final :: l.eraseIdx i) := by
    refine (List.perm_append_singleton final _).symm.trans ?_
    rw [hset]
    exact List.set_perm_cons_eraseIdx hlt final
  have herase := List.getElem_cons_eraseIdx_perm hlt
  rw [hx] at herase
  exact (hperm.cons_inv.cons x).trans herase

theorem removeInter_of_mem {uop : DynamicMicroOp} (h : uop.Typed) {x : Nat}
    (hx : x ∈ uop.dependencies) : ∃ uop', uop.removeInter x = .ok uop' ∧ Removes x uop uop' := by
  have hmiddle : ∀ rest : List Nat, (x :: rest).Perm uop.dependencies →
      Removes x uop { uop with dependencies := rest } := by
    intro rest hperm
    refine ⟨?_, ⟨h.sequenceNumber, h.intra, h.offset⟩, rfl⟩
    exact List.perm_middle.symm.trans (hperm.append_left uop.intraDependencies)
  unfold removeInter
  cases hlast : uop.dependencies.getLast? with
  | none =>
    rw [List.getLast?_eq_none_iff] at hlast
    rw [hlast] at hx
    cases hx
  | some final =>
    by_cases hfinal : final = x
    · refine ⟨_, if_pos hfinal, hmiddle _ ?_⟩
      have hback := List.dropLast_append_getLast? final hlast
      rw [hfinal] at hback
      exact (List.perm_append_singleton x _).symm.trans (List.Perm.of_eq hback)
    · cases hi : uop.dependencies.idxOf? x with
      | none => exact absurd hx (List.idxOf?_eq_none_iff.mp hi)
      | some i => exact ⟨_, if_neg hfinal, hmiddle _ (swap_last_perm hlast hfinal hi)⟩

theorem removeInter_of_notMem {uop uop' : DynamicMicroOp} {x : Nat} (hx : x ∉ uop.dependencies) :
    uop.removeInter x ≠ .ok uop' := by
  unfold removeInter
  cases hlast : uop.dependencies.getLast? with
  | none => exact nofun
  | some final =>
    have hfinal : final ≠ x := by
      rintro rfl
      exact hx (List.mem_of_getLast? hlast)
    rw [List.idxOf?_eq_none_iff.mpr hx]
    simp [hfinal]

/-- What is before `x` in its own instruction moves to the list, where there is room for it. -/
theorem removeIntra_of_mem {x k : Nat} {uop : DynamicMicroOp} (h : uop.Typed)
    (hk : uop.intraInstructionDependencies = k) (hx : x ∈ uop.intraDependencies)
    (hlen : uop.allDependencies.length ≤ maximumNumberOfDependencies) :
    ∃ uop', removeIntra x k uop = .ok uop' ∧ Removes x uop uop' := by
  induction k generalizing uop with
  | zero => simp [intraDependencies, hk] at hx
  | succ k ih =>
    have hintra : k < 2 ^ 32 := by
      have := h.intra
      omega
    by_cases hfirst : x = uop.firstIntra
    · refine ⟨{ uop with intraInstructionDependencies := k }, if_pos hfirst, ?_,
        ⟨h.sequenceNumber, hintra, h.offset⟩, rfl⟩
      rw [allDependencies_eq uop, intraDependencies_succ h.intra h.offset hk uop.dependencies, hfirst]
      exact List.Perm.refl _
    · have hsucc := intraDependencies_succ h.intra h.offset hk (uop.dependencies ++ [uop.firstIntra])
      have hperm : (allDependencies { uop with
          dependencies := uop.dependencies ++ [uop.firstIntra]
          intraInstructionDependencies := k }).Perm uop.allDependencies := by
        rw [allDependencies_eq, allDependencies_eq uop, hsucc, ← List.append_assoc]
        exact List.perm_append_singleton _ _
      have hx' : x ∈ intraDependencies { uop with
          dependencies := uop.dependencies ++ [uop.firstIntra]
          intraInstructionDependencies := k } := by
        rw [hsucc] at hx
        exact (List.mem_cons.mp hx).resolve_left hfirst
      have hpos : 0 < k := by
        simp only [intraDependencies, List.mem_map, List.mem_range] at hx'
        obtain ⟨i, hi, _⟩ := hx'
        exact Nat.zero_lt_of_lt hi
      have hroom : uop.dependencies.length + 1 < maximumNumberOfDependencies := by
        simp only [allDependencies_eq, intraDependencies, List.length_append, List.length_map,
          List.length_range, hk] at hlen
        omega
      obtain ⟨uop', heq, hrem⟩ := @ih
        { uop with
          dependencies := uop.dependencies ++ [uop.firstIntra]
          intraInstructionDependencies := k }
        ⟨h.sequenceNumber, hintra, h.offset⟩ rfl hx' (hperm.length_eq.trans_le hlen)
      refine ⟨uop', ?_, hrem.perm.trans hperm, hrem.typed, hrem.sequenceNumber⟩
      rw [removeIntra, if_neg hfirst, if_pos hroom]
      exact heq

theorem removeIntra_of_notMem {x k : Nat} {uop uop' : DynamicMicroOp} (h : uop.Typed)
    (hk : uop.intraInstructionDependencies = k) (hx : x ∉ uop.intraDependencies) :
    removeIntra x k uop ≠ .ok uop' := by
  induction k generalizing uop with
  | zero => exact nofun
  | succ k ih =>
    have hsucc := intraDependencies_succ h.intra h.offset hk (uop.dependencies ++ [uop.firstIntra])
    rw [hsucc, List.mem_cons, not_or] at hx
    have hintra : k < 2 ^ 32 := by
      have := h.intra
      omega
    rw [removeIntra, if_neg hx.1]
    split
    · exact ih ⟨h.sequenceNumber, hintra, h.offset⟩ rfl hx.2
    · exact nofun

/-- The list is the set, each member once. -/
structure Lists (uop : DynamicMicroOp) (members : Finset Nat) : Prop where
  nodup : uop.enumerated.Nodup
  members : uop.enumerated.toFinset = members

theorem Lists.mem_iff {uop : DynamicMicroOp} {members : Finset Nat} (h : uop.Lists members)
    (x : Nat) : x ∈ members ↔ x ∈ uop.allDependencies := by
  rw [← h.members, List.mem_toFinset, enumerated_eq]

theorem Lists.length_eq {uop : DynamicMicroOp} {members : Finset Nat} (h : uop.Lists members) :
    uop.allDependencies.length = members.card := by
  rw [← h.members, List.toFinset_card_of_nodup h.nodup, enumerated_eq]

theorem Lists.removes {uop uop' : DynamicMicroOp} {members : Finset Nat} {x : Nat}
    (h : uop.Lists members) (hrem : Removes x uop uop') : uop'.Lists (members.erase x) := by
  have hnodup := h.nodup
  rw [enumerated_eq] at hnodup
  have hcons := (hrem.perm.nodup_iff).mpr hnodup
  rw [List.nodup_cons] at hcons
  refine ⟨by rw [enumerated_eq]; exact hcons.2, ?_⟩
  rw [enumerated_eq]
  ext y
  rw [List.mem_toFinset, Finset.mem_erase, h.mem_iff, ← hrem.perm.mem_iff, List.mem_cons]
  constructor
  · intro hy
    exact ⟨fun hyx => hcons.1 (hyx ▸ hy), .inr hy⟩
  · rintro ⟨hne, hy⟩
    exact hy.resolve_left hne

end DynamicMicroOp

/-- A call that changes the dependencies. -/
inductive DependencyCall where
  | add (sequenceNumber : Nat)
  | remove (sequenceNumber : Nat)
  deriving DecidableEq

namespace DependencyCall

def run (uop : DynamicMicroOp) : DependencyCall → Except RobAbort DynamicMicroOp
  | .add x => uop.addDependency x
  | .remove x => uop.removeDependency x

/-- What the call does to a set. -/
def onSet (members : Finset Nat) : DependencyCall → Finset Nat
  | .add x => insert x members
  | .remove x => members.erase x

/-- Earlier micro-operations are added, members are removed. -/
def Admissible (sequenceNumber : Nat) (members : Finset Nat) : DependencyCall → Prop
  | .add x => x < sequenceNumber
  | .remove x => x ∈ members

instance (sequenceNumber : Nat) (members : Finset Nat) (call : DependencyCall) :
    Decidable (call.Admissible sequenceNumber members) :=
  match call with
  | .add x => inferInstanceAs (Decidable (x < sequenceNumber))
  | .remove x => inferInstanceAs (Decidable (x ∈ members))

/-- What is added is not in the range of the own instruction; what is removed is in the range
exactly when it is not before its start. -/
def Separated (uop : DynamicMicroOp) : DependencyCall → Prop
  | .add x => x ∉ uop.intraDependencies
  | .remove x => uop.firstIntra ≤ x ↔ x ∈ uop.intraDependencies

open DynamicMicroOp

theorem add_separated {uop : DynamicMicroOp} {members : Finset Nat} {x : Nat} (h : uop.Typed)
    (hlists : uop.Lists members) (hsep : x ∉ uop.intraDependencies)
    (hcard : (insert x members).card ≤ maximumNumberOfDependencies) :
    ∃ uop', uop.addDependency x = .ok uop' ∧ uop'.Typed ∧
      uop'.sequenceNumber = uop.sequenceNumber ∧ uop'.Lists (insert x members) := by
  by_cases hmem : x ∈ uop.dependencies
  · refine ⟨uop, addDependency_mem hmem, h, rfl, ?_⟩
    have hin : x ∈ members := by
      rw [hlists.mem_iff, allDependencies_eq]
      exact List.mem_append_right _ hmem
    rwa [Finset.insert_eq_of_mem hin]
  · have hnew : x ∉ members := by
      rw [hlists.mem_iff, allDependencies_eq, List.mem_append, not_or]
      exact ⟨hsep, hmem⟩
    have hlen : uop.dependencies.length < maximumNumberOfDependencies := by
      have hall := hlists.length_eq
      rw [Finset.card_insert_of_notMem hnew, ← hall, allDependencies_eq,
        List.length_append] at hcard
      omega
    have hperm : (allDependencies { uop with dependencies := uop.dependencies ++ [x] }).Perm
        (x :: uop.allDependencies) := by
      rw [allDependencies_eq, allDependencies_eq uop, ← List.append_assoc]
      exact List.perm_append_singleton _ _
    refine ⟨_, addDependency_notMem hmem hlen, ⟨h.sequenceNumber, h.intra, h.offset⟩, rfl, ?_, ?_⟩
    · rw [enumerated_eq, hperm.nodup_iff, List.nodup_cons, ← hlists.mem_iff, ← enumerated_eq]
      exact ⟨hnew, hlists.nodup⟩
    · rw [enumerated_eq, List.toFinset_eq_of_perm _ _ hperm, List.toFinset_cons, ← enumerated_eq,
        hlists.members]

theorem remove_separated {uop : DynamicMicroOp} {members : Finset Nat} {x : Nat} (h : uop.Typed)
    (hlists : uop.Lists members) (hmem : x ∈ members)
    (hsep : uop.firstIntra ≤ x ↔ x ∈ uop.intraDependencies)
    (hcard : members.card ≤ maximumNumberOfDependencies) :
    ∃ uop', uop.removeDependency x = .ok uop' ∧ uop'.Typed ∧
      uop'.sequenceNumber = uop.sequenceNumber ∧ uop'.Lists (members.erase x) := by
  have hall : x ∈ uop.intraDependencies ++ uop.dependencies := by
    rw [← allDependencies_eq, ← hlists.mem_iff]
    exact hmem
  unfold removeDependency
  split
  · next hle =>
    obtain ⟨uop', heq, hrem⟩ := removeIntra_of_mem h rfl (hsep.mp hle)
      (hlists.length_eq.trans_le hcard)
    exact ⟨uop', heq, hrem.typed, hrem.sequenceNumber, hlists.removes hrem⟩
  · next hlt =>
    have hdep : x ∈ uop.dependencies :=
      (List.mem_append.mp hall).resolve_left fun hintra => hlt (hsep.mpr hintra)
    obtain ⟨uop', heq, hrem⟩ := removeInter_of_mem h hdep
    exact ⟨uop', heq, hrem.typed, hrem.sequenceNumber, hlists.removes hrem⟩

theorem run_separated {uop : DynamicMicroOp} {members : Finset Nat} {call : DependencyCall}
    (h : uop.Typed) (hlists : uop.Lists members)
    (hadm : call.Admissible uop.sequenceNumber members) (hsep : call.Separated uop)
    (hcard : members.card ≤ maximumNumberOfDependencies)
    (hcard' : (call.onSet members).card ≤ maximumNumberOfDependencies) :
    ∃ uop', call.run uop = .ok uop' ∧ uop'.Typed ∧
      uop'.sequenceNumber = uop.sequenceNumber ∧ uop'.Lists (call.onSet members) := by
  cases call with
  | add x => exact add_separated h hlists hsep hcard'
  | remove x => exact remove_separated h hlists hadm hsep hcard

/-- A call that is not separated fails, or leaves a number twice in the list. -/
theorem separated_of_run {uop uop' : DynamicMicroOp} {members : Finset Nat}
    {call : DependencyCall} (h : uop.Typed) (hlists : uop.Lists members)
    (hadm : call.Admissible uop.sequenceNumber members) (hrun : call.run uop = .ok uop')
    (hlists' : uop'.Lists (call.onSet members)) : call.Separated uop := by
  have hnodup := hlists.nodup
  rw [enumerated_eq, allDependencies_eq, List.nodup_append'] at hnodup
  cases call with
  | add x =>
    intro hintra
    have hdep : x ∉ uop.dependencies := hnodup.2.2 hintra
    rw [run, addDependency, if_neg hdep] at hrun
    split at hrun
    · cases hrun
      have htwice := hlists'.nodup
      rw [enumerated_eq, allDependencies_eq, List.nodup_append'] at htwice
      exact htwice.2.2 hintra (List.mem_append_right _ (List.mem_singleton.mpr rfl))
    · cases hrun
  | remove x =>
    rw [run, removeDependency] at hrun
    split at hrun
    · next hle =>
      refine ⟨fun _ => ?_, fun _ => hle⟩
      by_contra hintra
      exact removeIntra_of_notMem h rfl hintra hrun
    · next hlt =>
      refine ⟨fun hle => absurd hle hlt, fun hintra => ?_⟩
      exact absurd hrun (removeInter_of_notMem (hnodup.2.2 hintra))

/-- The inputs: earlier micro-operations are added and members removed, and the set never has more
members than there is room for. -/
def Admits (sequenceNumber : Nat) : Finset Nat → List DependencyCall → Prop
  | members, [] => members.card ≤ maximumNumberOfDependencies
  | members, call :: calls =>
    members.card ≤ maximumNumberOfDependencies ∧ call.Admissible sequenceNumber members ∧
      Admits sequenceNumber (call.onSet members) calls

instance decidableAdmits (sequenceNumber : Nat) (members : Finset Nat) :
    (calls : List DependencyCall) → Decidable (Admits sequenceNumber members calls)
  | [] => inferInstanceAs (Decidable (members.card ≤ maximumNumberOfDependencies))
  | call :: calls =>
    have := decidableAdmits sequenceNumber (call.onSet members) calls
    inferInstanceAs (Decidable (members.card ≤ maximumNumberOfDependencies ∧
      call.Admissible sequenceNumber members ∧
        Admits sequenceNumber (call.onSet members) calls))

theorem Admits.card {sequenceNumber : Nat} {members : Finset Nat} {calls : List DependencyCall}
    (h : Admits sequenceNumber members calls) : members.card ≤ maximumNumberOfDependencies := by
  cases calls with
  | nil => exact h
  | cons call calls => exact h.1

/-- The list is the set before the first call and after each, and no assertion fails. -/
def BehavesAsSet : DynamicMicroOp → Finset Nat → List DependencyCall → Prop
  | uop, members, [] => uop.Lists members
  | uop, members, call :: calls =>
    uop.Lists members ∧
      ∃ uop', call.run uop = .ok uop' ∧ BehavesAsSet uop' (call.onSet members) calls

theorem BehavesAsSet.lists {uop : DynamicMicroOp} {members : Finset Nat}
    {calls : List DependencyCall} (h : BehavesAsSet uop members calls) : uop.Lists members := by
  cases calls with
  | nil => exact h
  | cons call calls => exact h.1

def AllSeparated : DynamicMicroOp → List DependencyCall → Prop
  | _, [] => True
  | uop, call :: calls =>
    call.Separated uop ∧ ∀ uop', call.run uop = .ok uop' → AllSeparated uop' calls

theorem behavesAsSet_of_lists_iff (calls : List DependencyCall) {uop : DynamicMicroOp}
    {members : Finset Nat} (h : uop.Typed) (hlists : uop.Lists members)
    (hadm : Admits uop.sequenceNumber members calls) :
    BehavesAsSet uop members calls ↔ AllSeparated uop calls := by
  induction calls generalizing uop members with
  | nil => exact ⟨fun _ => trivial, fun _ => hlists⟩
  | cons call calls ih =>
    obtain ⟨hcard, hcall, hcalls⟩ := hadm
    constructor
    · rintro ⟨_, uop', hrun, hrest⟩
      have hsep := separated_of_run h hlists hcall hrun hrest.lists
      obtain ⟨uop'', hrun', htyped, hseq, _⟩ :=
        run_separated h hlists hcall hsep hcard hcalls.card
      rw [hrun] at hrun'
      cases hrun'
      refine ⟨hsep, fun next hnext => ?_⟩
      rw [hrun] at hnext
      cases hnext
      rw [← hseq] at hcalls
      exact (ih htyped hrest.lists hcalls).mp hrest
    · rintro ⟨hsep, hrest⟩
      obtain ⟨uop', hrun, htyped, hseq, hlists'⟩ :=
        run_separated h hlists hcall hsep hcard hcalls.card
      rw [← hseq] at hcalls
      exact ⟨hlists, uop', hrun, (ih htyped hlists' hcalls).mpr (hrest uop' hrun)⟩

/-- From a new micro-operation on, the dependencies are the set of what was added and not removed,
exactly when each call can tell the range of the own instruction from the rest. -/
theorem behavesAsSet_iff (uop : DynamicMicroOp) (calls : List DependencyCall) (h : uop.Typed)
    (hnew : uop.dependencies = [])
    (hadm : Admits uop.sequenceNumber uop.intraDependencies.toFinset calls) :
    BehavesAsSet uop uop.intraDependencies.toFinset calls ↔ AllSeparated uop calls := by
  have hall : uop.enumerated = uop.intraDependencies := by
    rw [enumerated_eq, allDependencies_eq, hnew, List.append_nil]
  have hlists : uop.Lists uop.intraDependencies.toFinset :=
    ⟨by rw [hall]; exact intraDependencies_nodup h, by rw [hall]⟩
  exact behavesAsSet_of_lists_iff calls h hlists hadm

/-- A store after the execute of its instruction. -/
def storeAfterExecute : DynamicMicroOp where
  microOp := ⟨.store, false, false, false, [], [], []⟩
  sequenceNumber := 8
  address := 0
  phys := 0
  squashed := false
  intraInstructionDependencies := 1
  microOpTypeOffset := 0
  dependencies := []
  execLatency := 0
  branchMispredicted := false
  dCacheHitWhere := none
  iCacheMiss := false
  iCacheLatency := 0
  last := true
  port := .port34
  alu := none

theorem behavesAsSet_storeAfterExecute :
    BehavesAsSet storeAfterExecute storeAfterExecute.intraDependencies.toFinset
        [.add 5, .add 5, .remove 7, .remove 5] ↔
      AllSeparated storeAfterExecute [.add 5, .add 5, .remove 7, .remove 5] :=
  behavesAsSet_iff storeAfterExecute [.add 5, .add 5, .remove 7, .remove 5]
    ⟨by decide, by decide, by decide⟩ rfl
    (by decide)

/-- The execute writes the register with the address of the store, and is listed twice. -/
theorem own_execute_listed_twice : ¬ ∀ (uop : DynamicMicroOp) (calls : List DependencyCall),
    uop.Typed → uop.dependencies = [] →
    Admits uop.sequenceNumber uop.intraDependencies.toFinset calls →
    BehavesAsSet uop uop.intraDependencies.toFinset calls := by
  intro h
  have hset := h storeAfterExecute [.add 7] ⟨by decide, by decide, by decide⟩ rfl
    (by decide)
  obtain ⟨_, uop', hrun, hlists⟩ := hset
  cases hrun
  exact absurd hlists.nodup (by decide)

end DependencyCall

end Sniper.Performance
