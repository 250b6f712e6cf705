import Sniper.Performance.MicroOp
import Mathlib.Algebra.Group.Nat.Defs
import Mathlib.Logic.Function.Basic
set_option autoImplicit false

/-! Units that can be busy: the load and store queues, and the issue ports. -/

namespace Sniper.Performance

/-- Units with the time at which each becomes free and the tag of its last request. -/
structure ContentionModel where
  units : List (Nat × Nat)
  last : Nat
  deriving DecidableEq

namespace ContentionModel

def new (numOutstanding : Nat) : ContentionModel := ⟨List.replicate numOutstanding (0, 0), 0⟩

/-- Free now, or in use with the tag that stands for no tag. -/
def hasFreeSlot (m : ContentionModel) (start : Nat) : Bool :=
  m.units.any fun unit => unit.1 ≤ start || unit.2 = 2 ^ 64 - 1

/-- The first unit that is free, or else the one that becomes free first. -/
def findUnit (units : List (Nat × Nat)) (start : Nat) : Nat :=
  match units.findIdx? fun unit => unit.1 ≤ start with
  | some i => i
  | none =>
    (List.range units.length).foldl (fun best i =>
      if (units.getD i (0, 0)).1 < (units.getD best (0, 0)).1 then i else best) 0

/-- A request is made; the completion time itself is not used by the caller. -/
def getCompletionTime (m : ContentionModel) (start delay tag : Nat) : ContentionModel :=
  if m.units = [] ∨ start = 0 ∨ start < m.last then m
  else
    let i := findUnit m.units start
    { units := m.units.set i (max start (m.units.getD i (0, 0)).1 + delay, tag), last := start }

end ContentionModel

/-- A model of what can be issued together in a cycle. -/
structure RobContention (σ : Type) where
  initCycle : Nat → σ → σ
  tryIssue : σ → DynamicMicroOp → Bool × σ
  noMore : σ → Bool
  doIssue : σ → DynamicMicroOp → σ

/-- What belongs to one cycle is reset at the start of the next: earlier resets leave no trace, and
whether anything is left to be used after a reset does not depend on the cycle. -/
structure RobContention.Resets {σ : Type} (m : RobContention σ) : Prop where
  reset : ∀ now before s, m.initCycle now (m.initCycle before s) = m.initCycle now s
  fresh : ∀ now before s, m.noMore (m.initCycle now s) = m.noMore (m.initCycle before s)

/-- The ports in use in this cycle, and until when the units are in use. -/
structure RobContentionNehalem where
  now : Nat
  ports : UopPort → Bool
  portsGeneric : Nat
  portsGeneric05 : Nat
  aluUsedUntil : Nat → Nat

namespace RobContentionNehalem

def initCycle (now : Nat) (s : RobContentionNehalem) : RobContentionNehalem :=
  { s with now := now, ports := fun _ => false, portsGeneric := 0, portsGeneric05 := 0 }

def usePort (s : RobContentionNehalem) (port : UopPort) : RobContentionNehalem :=
  { s with ports := Function.update s.ports port true }

/-- The port is taken, if it is free. -/
def tryPort (s : RobContentionNehalem) (port : UopPort) : Option RobContentionNehalem :=
  match port with
  | .port015 =>
    if 3 ≤ s.portsGeneric then none else some { s with portsGeneric := s.portsGeneric + 1 }
  | .port05 =>
    if 2 ≤ s.portsGeneric05 then none else some { s with portsGeneric05 := s.portsGeneric05 + 1 }
  | .port2 | .port34 => if s.ports port then none else some (s.usePort port)
  | .port1 =>
    if s.ports port ∨ 3 ≤ s.portsGeneric then none
    else some { s.usePort port with portsGeneric := s.portsGeneric + 1 }
  | .port0 | .port5 =>
    if s.ports port ∨ 3 ≤ s.portsGeneric ∨ 2 ≤ s.portsGeneric05 then none
    else some { s.usePort port with
      portsGeneric := s.portsGeneric + 1
      portsGeneric05 := s.portsGeneric05 + 1 }

def tryIssue (s : RobContentionNehalem) (uop : DynamicMicroOp) : Bool × RobContentionNehalem :=
  match s.tryPort uop.port with
  | none => (false, s)
  | some s =>
    match uop.alu with
    | some alu => (decide (s.aluUsedUntil alu ≤ s.now), s)
    | none => (true, s)

def noMore (s : RobContentionNehalem) : Bool :=
  s.ports .port2 && s.ports .port34 && decide (3 ≤ s.portsGeneric)

def doIssue (aluLatency : MicroOp → Nat) (s : RobContentionNehalem) (uop : DynamicMicroOp) :
    RobContentionNehalem :=
  match uop.alu with
  | some alu =>
    { s with aluUsedUntil :=
        Function.update s.aluUsedUntil alu (s.now + aluLatency uop.microOp) }
  | none => s

def model (aluLatency : MicroOp → Nat) : RobContention RobContentionNehalem :=
  ⟨initCycle, tryIssue, noMore, doIssue aluLatency⟩

theorem model_resets (aluLatency : MicroOp → Nat) : (model aluLatency).Resets :=
  ⟨fun _ _ _ => rfl, fun _ _ _ => rfl⟩

end RobContentionNehalem

end Sniper.Performance
