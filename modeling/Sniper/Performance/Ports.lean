import Sniper.Lib.Assignments
import Sniper.Performance.MicroOp
set_option autoImplicit false

/-! The ports of the machine, and how many micro-operations of each class fit on them. -/

namespace Sniper.Performance

inductive Port where
  | p0 | p1 | p5 | p2 | p34
  deriving DecidableEq

instance : Fintype Port := ⟨{.p0, .p1, .p5, .p2, .p34}, fun p => by cases p <;> decide⟩

instance : Fintype UopPort :=
  ⟨{.port0, .port1, .port2, .port34, .port5, .port05, .port015}, fun p => by cases p <;> decide⟩

theorem Port.card_eq (ports : Finset Port) :
    ports.card = (if .p0 ∈ ports then 1 else 0) + (if .p1 ∈ ports then 1 else 0) +
      (if .p5 ∈ ports then 1 else 0) + (if .p2 ∈ ports then 1 else 0) +
      (if .p34 ∈ ports then 1 else 0) := by
  revert ports
  decide

namespace UopPort

/-- The ports that a micro-operation of a class can use. -/
def allowed : UopPort → Finset Port
  | .port0 => {.p0}
  | .port1 => {.p1}
  | .port5 => {.p5}
  | .port2 => {.p2}
  | .port34 => {.p34}
  | .port05 => {.p0, .p5}
  | .port015 => {.p0, .p1, .p5}

/-- The micro-operations that need one of the given ports. -/
theorem sum_needing (count : UopPort → Nat) (ports : Finset Port) :
    (∑ k : UopPort, if k.allowed ⊆ ports then count k else 0) =
      (if .p0 ∈ ports then count .port0 else 0) + (if .p1 ∈ ports then count .port1 else 0) +
      (if .p2 ∈ ports then count .port2 else 0) + (if .p34 ∈ ports then count .port34 else 0) +
      (if .p5 ∈ ports then count .port5 else 0) +
      (if .p0 ∈ ports ∧ .p5 ∈ ports then count .port05 else 0) +
      (if .p0 ∈ ports ∧ .p1 ∈ ports ∧ .p5 ∈ ports then count .port015 else 0) := by
  have hall : (Finset.univ : Finset UopPort) =
      {.port0, .port1, .port2, .port34, .port5, .port05, .port015} := rfl
  rw [hall]
  simp [Finset.sum_insert, allowed, Finset.insert_subset_iff]
  omega

end UopPort

variable {ι : Type} [Fintype ι]

/-- How many of the micro-operations are of a class. -/
def classCount (kind : ι → UopPort) (k : UopPort) : Nat :=
  (Finset.univ.filter fun uop => kind uop = k).card

/-- The bounds that decide whether micro-operations can be executed in a number of cycles: one for
each port, one for the ports 0 and 5, and one for the ports 0, 1 and 5. -/
structure PortBounds (count : UopPort → Nat) (cycles : Nat) : Prop where
  port0 : count .port0 ≤ cycles
  port1 : count .port1 ≤ cycles
  port2 : count .port2 ≤ cycles
  port34 : count .port34 ≤ cycles
  port5 : count .port5 ≤ cycles
  port05 : count .port0 + count .port5 + count .port05 ≤ 2 * cycles
  port015 : count .port0 + count .port1 + count .port5 + count .port05 + count .port015 ≤
    3 * cycles

theorem fits_ports_iff (kind : ι → UopPort) (cycles : Nat) :
    Lib.Fits (fun uop => (kind uop).allowed) cycles ↔ PortBounds (classCount kind) cycles := by
  rw [Lib.Fits.iff_sum kind UopPort.allowed]
  change (∀ ports : Finset Port,
    (∑ k, if UopPort.allowed k ⊆ ports then classCount kind k else 0) ≤ cycles * ports.card) ↔ _
  simp only [UopPort.sum_needing]
  constructor
  · intro h
    constructor
    · simpa using h {.p0}
    · simpa using h {.p1}
    · simpa using h {.p2}
    · simpa using h {.p34}
    · simpa using h {.p5}
    · have h05 := h {.p0, .p5}
      simp at h05
      omega
    · have h015 := h {.p0, .p1, .p5}
      simp at h015
      omega
  · intro h ports
    obtain ⟨h0, h1, h2, h34, h5, h05, h015⟩ := h
    rw [Port.card_eq]
    by_cases m0 : Port.p0 ∈ ports <;> by_cases m1 : Port.p1 ∈ ports <;>
      by_cases m5 : Port.p5 ∈ ports <;> simp only [m0, m1, m5, if_true, if_false, and_true,
        and_false] <;> split <;> split <;> omega

end Sniper.Performance
