import Sniper.Performance.Ports
import Mathlib.Data.Fintype.Sigma
import Mathlib.Logic.Function.Basic
import Mathlib.Order.Bounds.Basic
set_option autoImplicit false

/-! The port contention of the interval model. -/

namespace Sniper.Performance

/-- The micro-operations counted for each class, and the cycles that each class has cost, in
millionths of what it was the reason for. -/
structure IntervalContentionNehalem where
  countByPort : UopPort → Nat
  cpContrByPort : UopPort → Nat

/-- What ends the simulation: an assertion that fails. -/
inductive IntervalAbort where
  | noReason
  deriving DecidableEq

namespace IntervalContentionNehalem

def clearFunctionalUnitStats (m : IntervalContentionNehalem) : IntervalContentionNehalem :=
  { m with countByPort := fun _ => 0 }

def addFunctionalUnitStats (m : IntervalContentionNehalem) (port : UopPort) :
    IntervalContentionNehalem :=
  { m with countByPort := Function.update m.countByPort port (m.countByPort port + 1) }

/-- The counters are 64-bit numbers. -/
def removeFunctionalUnitStats (m : IntervalContentionNehalem) (port : UopPort) :
    IntervalContentionNehalem :=
  { m with countByPort :=
      Function.update m.countByPort port ((m.countByPort port + 2 ^ 64 - 1) % 2 ^ 64) }

/-- The ports that are not shared, in the order in which they are checked. -/
def standardPorts : List UopPort := [.port0, .port1, .port2, .port34, .port5]

/-- A port with more micro-operations than the length so far is the new length and its reason. -/
def checkPort (m : IntervalContentionNehalem) (path : Nat × Option UopPort) (port : UopPort) :
    Nat × Option UopPort :=
  if path.1 < m.countByPort port then (m.countByPort port, some port) else path

/-- A class whose ports are shared by more micro-operations than they can take in the length so far;
the new length is rounded up to the next cycle. -/
def checkShared (ports use : Nat) (reason : UopPort) (path : Nat × Option UopPort) :
    Nat × Option UopPort :=
  if ports * path.1 < use then ((use + (ports - 1)) / ports, some reason) else path

def port05Use (m : IntervalContentionNehalem) : Nat :=
  m.countByPort .port0 + m.countByPort .port5 + m.countByPort .port05

def port015Use (m : IntervalContentionNehalem) : Nat :=
  m.countByPort .port0 + m.countByPort .port1 + m.countByPort .port5 + m.countByPort .port015

/-- The effective length, and the class that is the reason when it is longer than the path. -/
def effectiveLength (m : IntervalContentionNehalem) (criticalPathLength : Nat) :
    Nat × Option UopPort :=
  checkShared 3 m.port015Use .port015
    (checkShared 2 m.port05Use .port05
      (standardPorts.foldl m.checkPort (criticalPathLength, none)))

def getEffectiveCriticalPathLength (m : IntervalContentionNehalem) (criticalPathLength : Nat)
    (updateReason : Bool) : Except IntervalAbort (Nat × IntervalContentionNehalem) :=
  let path := m.effectiveLength criticalPathLength
  if updateReason ∧ criticalPathLength < path.1 then
    match path.2 with
    | none => .error .noReason
    | some reason => .ok (path.1, { m with
        cpContrByPort := Function.update m.cpContrByPort reason
          (m.cpContrByPort reason + 1000000 * (path.1 - criticalPathLength) / path.1) })
  else .ok (path.1, m)

/-- The counted micro-operations, one a cycle on each port. -/
def Executable (count : UopPort → Nat) (cycles : Nat) : Prop :=
  Lib.Fits (fun uop : Σ k, Fin (count k) => uop.1.allowed) cycles

theorem classCount_fst (count : UopPort → Nat) :
    classCount (fun uop : Σ k, Fin (count k) => uop.1) = count := by
  funext k
  have himage : (Finset.univ.filter fun uop : Σ k, Fin (count k) => uop.1 = k) =
      Finset.univ.map (Function.Embedding.sigmaMk k) := by
    ext ⟨k', i⟩
    simp only [Finset.mem_filter, Finset.mem_univ, true_and, Finset.mem_map,
      Function.Embedding.sigmaMk_apply]
    constructor
    · rintro rfl
      exact ⟨i, rfl⟩
    · rintro ⟨j, hj⟩
      cases hj
      rfl
  rw [classCount, himage, Finset.card_map, Finset.card_univ, Fintype.card_fin]

theorem executable_iff (count : UopPort → Nat) (cycles : Nat) :
    Executable count cycles ↔ PortBounds count cycles := by
  rw [Executable, fits_ports_iff, classCount_fst]

/-- The length that is computed: the ports 0, 1 and 5 together are charged without the
micro-operations for 0 or 5. -/
def charged (count : UopPort → Nat) (criticalPathLength : Nat) : Nat :=
  max criticalPathLength (max (count .port0) (max (count .port1) (max (count .port2)
    (max (count .port34) (max (count .port5)
      (max ((count .port0 + count .port5 + count .port05 + 1) / 2)
        ((count .port0 + count .port1 + count .port5 + count .port015 + 2) / 3)))))))

theorem checkPort_fst (m : IntervalContentionNehalem) (path : Nat × Option UopPort)
    (port : UopPort) : (m.checkPort path port).1 = max path.1 (m.countByPort port) := by
  unfold checkPort
  split
  · next h => exact (max_eq_right h.le).symm
  · next h => exact (max_eq_left (not_lt.mp h)).symm

theorem checkShared_fst {ports : Nat} (hports : 0 < ports) (use : Nat) (reason : UopPort)
    (path : Nat × Option UopPort) :
    (checkShared ports use reason path).1 = max path.1 ((use + (ports - 1)) / ports) := by
  unfold checkShared
  split
  · next h =>
    refine (max_eq_right ?_).symm
    rw [Nat.le_div_iff_mul_le hports, Nat.mul_comm]
    omega
  · next h =>
    refine (max_eq_left ?_).symm
    refine Nat.le_of_lt_succ ((Nat.div_lt_iff_lt_mul hports).mpr ?_)
    rw [Nat.succ_mul, Nat.mul_comm]
    omega

theorem effectiveLength_fst (m : IntervalContentionNehalem) (criticalPathLength : Nat) :
    (m.effectiveLength criticalPathLength).1 = charged m.countByPort criticalPathLength := by
  simp only [effectiveLength, standardPorts, List.foldl_cons, List.foldl_nil, checkPort_fst,
    checkShared_fst (show 0 < 2 by decide), checkShared_fst (show 0 < 3 by decide), charged,
    port05Use, port015Use, max_assoc]

theorem charged_le_iff {count : UopPort → Nat} {criticalPathLength cycles : Nat} :
    charged count criticalPathLength ≤ cycles ↔ criticalPathLength ≤ cycles ∧
      count .port0 ≤ cycles ∧ count .port1 ≤ cycles ∧ count .port2 ≤ cycles ∧
      count .port34 ≤ cycles ∧ count .port5 ≤ cycles ∧
      (count .port0 + count .port5 + count .port05 + 1) / 2 ≤ cycles ∧
      (count .port0 + count .port1 + count .port5 + count .port015 + 2) / 3 ≤ cycles := by
  simp only [charged, max_le_iff]

/-- Without a reason, the length is that of the path. -/
def Unraised (criticalPathLength : Nat) (path : Nat × Option UopPort) : Prop :=
  path.2 = none → path.1 = criticalPathLength

theorem effectiveLength_unraised (m : IntervalContentionNehalem) (criticalPathLength : Nat) :
    Unraised criticalPathLength (m.effectiveLength criticalPathLength) := by
  have hport : ∀ path port, Unraised criticalPathLength path →
      Unraised criticalPathLength (m.checkPort path port) := by
    intro path port h
    unfold checkPort
    split
    · exact nofun
    · exact h
  have hshared : ∀ ports use reason path, Unraised criticalPathLength path →
      Unraised criticalPathLength (checkShared ports use reason path) := by
    intro ports use reason path h
    unfold checkShared
    split
    · exact nofun
    · exact h
  have hstart : Unraised criticalPathLength (criticalPathLength, none) := fun _ => rfl
  exact hshared _ _ _ _ (hshared _ _ _ _
    (hport _ _ (hport _ _ (hport _ _ (hport _ _ (hport _ _ hstart))))))

/-- The assertion on the reason holds. -/
theorem getEffectiveCriticalPathLength_eq (m : IntervalContentionNehalem)
    (criticalPathLength : Nat) (updateReason : Bool) :
    ∃ m', m.getEffectiveCriticalPathLength criticalPathLength updateReason =
      .ok (charged m.countByPort criticalPathLength, m') ∧ m'.countByPort = m.countByPort := by
  have hfst := effectiveLength_fst m criticalPathLength
  have hreason := effectiveLength_unraised m criticalPathLength
  rw [← hfst]
  simp only [getEffectiveCriticalPathLength]
  split
  · next hraised =>
    cases hnone : (m.effectiveLength criticalPathLength).2 with
    | none => exact absurd (hreason hnone) hraised.2.ne'
    | some reason => exact ⟨_, rfl, rfl⟩
  · exact ⟨m, rfl, rfl⟩

theorem charged_isLeast_iff (count : UopPort → Nat) (criticalPathLength : Nat) :
    IsLeast {cycles | criticalPathLength ≤ cycles ∧ Executable count cycles}
        (charged count criticalPathLength) ↔
      count .port0 + count .port1 + count .port5 + count .port05 + count .port015 ≤
        3 * charged count criticalPathLength := by
  constructor
  · intro h
    exact ((executable_iff _ _).mp h.1.2).port015
  · intro h015
    constructor
    · obtain ⟨hpath, h0, h1, h2, h34, h5, h05, -⟩ :=
        charged_le_iff.mp (le_refl (charged count criticalPathLength))
      refine ⟨hpath, (executable_iff _ _).mpr ⟨h0, h1, h2, h34, h5, ?_, h015⟩⟩
      omega
    · rintro cycles ⟨hle, hexec⟩
      obtain ⟨h0, h1, h2, h34, h5, h05, hshared⟩ := (executable_iff _ _).mp hexec
      exact charged_le_iff.mpr ⟨hle, h0, h1, h2, h34, h5, by omega, by omega⟩

end IntervalContentionNehalem

end Sniper.Performance
