import Mathlib.Algebra.Group.Nat.Defs
import Mathlib.Algebra.Order.Monoid.Unbundled.WithTop
import Mathlib.Logic.Function.Basic
import Mathlib.Order.Nat
set_option autoImplicit false

/-! Micro-operations and what they depend on. -/

namespace Sniper.Performance

/-- A time in cycles of the constant clock; the top is the time that never comes. -/
abbrev Time := WithTop Nat

inductive MicroOpType where
  | load | execute | store
  deriving DecidableEq

inductive UopPort where
  | port0 | port1 | port2 | port34 | port5 | port05 | port015
  deriving DecidableEq

structure MicroOp where
  type : MicroOpType
  isBranch : Bool
  isSerializing : Bool
  isMemBarrier : Bool
  sourceRegisters : List Nat
  addressRegisters : List (Option Nat)
  destinationRegisters : List Nat
  deriving DecidableEq

def MicroOp.isLoad (op : MicroOp) : Bool := op.type = .load

def MicroOp.isStore (op : MicroOp) : Bool := op.type = .store

/-- What ends the simulation: an assertion that fails. -/
inductive RobAbort where
  | queueFull
  | outsideRob
  | noUops
  | noDependencies
  | dependencyMissing
  | tooManyDependencies
  | storeAddressLate
  | outOfFuel
  deriving DecidableEq

/-- The hit places are numbers, and `none` is a place not known yet; an instruction cache miss is
a place other than the first level. The port and the unit are those of the core model. -/
structure DynamicMicroOp where
  microOp : MicroOp
  sequenceNumber : Nat
  address : Nat
  phys : Nat
  squashed : Bool
  intraInstructionDependencies : Nat
  microOpTypeOffset : Nat
  dependencies : List Nat
  execLatency : Nat
  branchMispredicted : Bool
  dCacheHitWhere : Option Nat
  iCacheMiss : Bool
  iCacheLatency : Nat
  last : Bool
  port : UopPort
  alu : Option Nat
  deriving DecidableEq

namespace DynamicMicroOp

def maximumNumberOfDependencies : Nat := 14

def getDependenciesLength (uop : DynamicMicroOp) : Nat :=
  uop.intraInstructionDependencies + uop.dependencies.length

/-- The first of the micro-operations of its own instruction that it depends on; a 64-bit number. -/
def firstIntra (uop : DynamicMicroOp) : Nat :=
  (uop.sequenceNumber + 2 ^ 64 - uop.microOpTypeOffset - uop.intraInstructionDependencies) % 2 ^ 64

/-- `getDependency` at each index. -/
def allDependencies (uop : DynamicMicroOp) : List Nat :=
  (List.range uop.intraInstructionDependencies).map (fun i => (uop.firstIntra + i) % 2 ^ 64) ++
    uop.dependencies

def addDependency (uop : DynamicMicroOp) (sequenceNumber : Nat) :
    Except RobAbort DynamicMicroOp :=
  if sequenceNumber ∈ uop.dependencies then .ok uop
  else if uop.dependencies.length < maximumNumberOfDependencies then
    .ok { uop with dependencies := uop.dependencies ++ [sequenceNumber] }
  else .error .tooManyDependencies

/-- The first dependencies on the own instruction become ordinary ones, up to the one that is
removed. -/
def removeIntra (sequenceNumber : Nat) : Nat → DynamicMicroOp → Except RobAbort DynamicMicroOp
  | 0, _ => .error .dependencyMissing
  | k + 1, uop =>
    if sequenceNumber = uop.firstIntra then .ok { uop with intraInstructionDependencies := k }
    else if uop.dependencies.length + 1 < maximumNumberOfDependencies then
      removeIntra sequenceNumber k { uop with
        dependencies := uop.dependencies ++ [uop.firstIntra]
        intraInstructionDependencies := k }
    else .error .tooManyDependencies

/-- The last dependency takes the place of the one that is removed. -/
def removeInter (uop : DynamicMicroOp) (sequenceNumber : Nat) : Except RobAbort DynamicMicroOp :=
  match uop.dependencies.getLast? with
  | none => .error .dependencyMissing
  | some final =>
    if final = sequenceNumber then .ok { uop with dependencies := uop.dependencies.dropLast }
    else match uop.dependencies.idxOf? sequenceNumber with
      | none => .error .dependencyMissing
      | some i => .ok { uop with dependencies := (uop.dependencies.set i final).dropLast }

def removeDependency (uop : DynamicMicroOp) (sequenceNumber : Nat) :
    Except RobAbort DynamicMicroOp :=
  if uop.firstIntra ≤ sequenceNumber then
    removeIntra sequenceNumber uop.intraInstructionDependencies uop
  else uop.removeInter sequenceNumber

end DynamicMicroOp

/-- The last producer of each register. -/
structure RegisterDependencies where
  producers : Nat → Option Nat

namespace RegisterDependencies

def clear : RegisterDependencies := ⟨fun _ => none⟩

def peekProducer (deps : RegisterDependencies) (reg : Option Nat) (lowest : Nat) : Option Nat :=
  match reg with
  | none => none
  | some reg => (deps.producers reg).filter fun producer => lowest ≤ producer

/-- A source register: its producer, while it is in the window. -/
def source (lowest : Nat) (state : RegisterDependencies × DynamicMicroOp) (reg : Nat) :
    Except RobAbort (RegisterDependencies × DynamicMicroOp) :=
  match state.1.producers reg with
  | none => .ok state
  | some producer =>
    if lowest ≤ producer then do
      let uop ← state.2.addDependency producer
      return (state.1, uop)
    else .ok (⟨Function.update state.1.producers reg none⟩, state.2)

def setDependencies (deps : RegisterDependencies) (uop : DynamicMicroOp) (lowest : Nat) :
    Except RobAbort (RegisterDependencies × DynamicMicroOp) := do
  let (deps, uop) ← uop.microOp.sourceRegisters.foldlM (source lowest) (deps, uop)
  return (⟨uop.microOp.destinationRegisters.foldl (fun producers reg =>
    Function.update producers reg (some uop.sequenceNumber)) deps.producers⟩, uop)

end RegisterDependencies

/-- The stores in the window, oldest first, with their addresses, and the last memory barrier. -/
structure MemoryDependencies where
  producers : List (Nat × Nat)
  membar : Option Nat

namespace MemoryDependencies

def clear : MemoryDependencies := ⟨[], none⟩

def capacity : Nat := 1024

def clean (deps : MemoryDependencies) (lowest : Nat) : MemoryDependencies :=
  { deps with producers := deps.producers.dropWhile fun producer => producer.1 < lowest }

/-- The latest store to an address. -/
def find (deps : MemoryDependencies) (address : Nat) : Option Nat :=
  (deps.producers.reverse.find? fun producer => producer.2 = address).map Prod.fst

def addMembar (deps : MemoryDependencies) (uop : DynamicMicroOp) (lowest : Nat) :
    Except RobAbort DynamicMicroOp :=
  match deps.membar with
  | some membar => if lowest < membar then uop.addDependency membar else .ok uop
  | none => .ok uop

def setDependencies (deps : MemoryDependencies) (uop : DynamicMicroOp) (lowest : Nat) :
    Except RobAbort (MemoryDependencies × DynamicMicroOp) :=
  let deps := deps.clean lowest
  if uop.microOp.isLoad then do
    let found ← match deps.find uop.phys with
      | some producer => uop.addDependency producer
      | none => .ok uop
    return (deps, ← deps.addMembar found lowest)
  else if uop.microOp.isStore then
    if deps.producers.length < capacity then do
      let deps := { deps with producers := deps.producers ++ [(uop.sequenceNumber, uop.phys)] }
      return (deps, ← deps.addMembar uop lowest)
    else .error .queueFull
  else if uop.microOp.isMemBarrier then do
    let uop ← deps.addMembar uop lowest
    return ({ deps with membar := some uop.sequenceNumber }, uop)
  else .ok (deps, uop)

end MemoryDependencies

end Sniper.Performance
