import Sniper.Performance.DependencyList
import Mathlib.Algebra.Group.Nat.Defs
import Mathlib.Data.List.Basic
set_option autoImplicit false

/-! The micro-operations of one instruction, those that touch a cache line a second time left out. -/

namespace Sniper.Performance

/-- A micro-operation while its instruction is handled. The offset that the decoder gave it stays
in the static part, and is `staticTypeOffset` here. -/
structure CurrentUop extends DynamicMicroOp where
  staticTypeOffset : Nat
  squashedCount : Nat
  first : Bool
  deriving DecidableEq

/-- What ends the simulation: an assertion that fails, or an operand that the decoder has not seen. -/
inductive InstructionAbort where
  | operandMismatch
  | outsideInstruction
  | wrongType
  | baseTooLow
  deriving DecidableEq

namespace CurrentUop

/-- The first micro-operation of a list that is not squashed. -/
def markUnsquashed (mark : CurrentUop → CurrentUop) : List CurrentUop → List CurrentUop
  | [] => []
  | uop :: uops => if uop.squashed then uop :: markUnsquashed mark uops else mark uop :: uops

def setFirst (uop : CurrentUop) : CurrentUop := { uop with first := true }

def setLast (uop : CurrentUop) : CurrentUop := { uop with last := true }

def setSquashedCount (count : Nat) (uop : CurrentUop) : CurrentUop :=
  { uop with squashedCount := count }

def setMicroOpTypeOffset (offset : Nat) (uop : CurrentUop) : CurrentUop :=
  { uop with microOpTypeOffset := offset }

def setIntraInstrDependenciesLength (deps : Nat) (uop : CurrentUop) : CurrentUop :=
  { uop with intraInstructionDependencies := deps }

def setSequenceNumber (number : Nat) (uop : CurrentUop) : CurrentUop :=
  { uop with sequenceNumber := number }

def setSquashed (uop : CurrentUop) : CurrentUop := { uop with squashed := true }

/-- One micro-operation is squashed, and the ends of what is left are marked. -/
def squash (uops : List CurrentUop) (index : Nat) : List CurrentUop :=
  let uops := uops.modify index setSquashed
  (markUnsquashed setLast (markUnsquashed setFirst uops).reverse).reverse

/-- The offsets among what is not squashed, and for each micro-operation how many are squashed up
to it. -/
def recount : Option MicroOpType → Nat → Nat → List CurrentUop → List CurrentUop
  | _, _, _, [] => []
  | uopType, squashedCount, offset, uop :: uops =>
    if uop.squashed then
      uop.setSquashedCount (squashedCount + 1) ::
        recount uopType (squashedCount + 1) offset uops
    else
      let offset := if some uop.microOp.type = uopType then offset else 0
      (uop.setMicroOpTypeOffset offset).setSquashedCount squashedCount ::
        recount (some uop.microOp.type) squashedCount (offset + 1) uops

def countAt (uops : List CurrentUop) (i : Nat) : Nat := (uops[i]?.map squashedCount).getD 0

/-- The dependencies that are left. -/
def resize (uops : List CurrentUop) (i : Nat) (uop : CurrentUop) :
    Except InstructionAbort CurrentUop :=
  if uop.squashed ∨ uop.intraInstructionDependencies = 0 then .ok uop
  else
    let base := i - uop.staticTypeOffset
    if base < uop.intraInstructionDependencies then .error .baseTooLow
    else .ok (uop.setIntraInstrDependenciesLength (uop.intraInstructionDependencies -
      (countAt uops base - countAt uops (base - uop.intraInstructionDependencies))))

def resizeFrom (uops : List CurrentUop) (firstSquashed : Nat) :
    Nat → List CurrentUop → Except InstructionAbort (List CurrentUop)
  | _, [] => .ok []
  | i, uop :: rest => do
    let uop ← if firstSquashed ≤ i then resize uops i uop else .ok uop
    let rest ← resizeFrom uops firstSquashed (i + 1) rest
    return uop :: rest

def doSquashing (uops : List CurrentUop) (firstSquashed : Nat) :
    Except InstructionAbort (List CurrentUop) :=
  let uops := recount none 0 0 uops
  resizeFrom uops firstSquashed 0 uops

/-- What is not squashed is numbered in order. -/
def number : Nat → List CurrentUop → List CurrentUop
  | _, [] => []
  | next, uop :: uops =>
    if uop.squashed then uop :: number next uops
    else uop.setSequenceNumber (next % 2 ^ 64) :: number (next + 1) uops

end CurrentUop

structure MemoryInfo where
  addr : Nat
  latency : Nat
  hitWhere : Option Nat

inductive Operand where
  | memory (read : Bool) (info : MemoryInfo)
  | other

/-- The state of the loop over the operands. -/
structure OperandLoop where
  uops : List CurrentUop
  cacheLinesRead : List Nat
  cacheLinesWritten : List Nat
  numReadsDone : Nat
  numWritesDone : Nat
  numNonmemDone : Nat
  doSquashing : Bool

namespace OperandLoop

open CurrentUop

/-- The line of 64 bytes. -/
def cacheLine (addr : Nat) : Nat := addr - addr % 64

def setAccess (bypassLatency : CurrentUop → Nat) (info : MemoryInfo) (uop : CurrentUop) :
    CurrentUop :=
  { uop with
    execLatency := (info.latency + bypassLatency uop) % 2 ^ 32
    address := info.addr
    phys := info.addr
    dCacheHitWhere := info.hitWhere }

/-- The next load or store gets the address and the latency of the access. -/
def accessUop (bypassLatency : CurrentUop → Nat) (type : MicroOpType) (base : Option Nat)
    (done : Nat) (lines : List Nat) (uops : List CurrentUop) (info : MemoryInfo) :
    Except InstructionAbort (List CurrentUop × Bool) :=
  match base with
  | none => .error .operandMismatch
  | some base =>
    match uops[base + done]? with
    | none => .error .outsideInstruction
    | some uop =>
      if uop.microOp.type = type then
        let again := decide (cacheLine info.addr ∈ lines)
        let uops := if again then squash uops (base + done) else uops
        .ok (uops.modify (base + done) (setAccess bypassLatency info), again)
      else .error .wrongType

def operand (bypassLatency : CurrentUop → Nat) (loadBase storeBase : Option Nat)
    (s : OperandLoop) : Operand → Except InstructionAbort OperandLoop
  | .memory true info => do
    let (uops, again) ← accessUop bypassLatency .load loadBase s.numReadsDone s.cacheLinesRead
      s.uops info
    return { s with
      uops := uops
      cacheLinesRead := s.cacheLinesRead ++ [cacheLine info.addr]
      numReadsDone := s.numReadsDone + 1
      doSquashing := s.doSquashing || again }
  | .memory false info => do
    let (uops, again) ← accessUop bypassLatency .store storeBase s.numWritesDone
      s.cacheLinesWritten s.uops info
    return { s with
      uops := uops
      cacheLinesWritten := s.cacheLinesWritten ++ [cacheLine info.addr]
      numWritesDone := s.numWritesDone + 1
      doSquashing := s.doSquashing || again }
  | .other => .ok { s with numNonmemDone := s.numNonmemDone + 1 }

end OperandLoop

/-- The micro-operations of an instruction after its operands have been handled. -/
def handleInstruction (bypassLatency : CurrentUop → Nat) (uops : List CurrentUop)
    (operands : List Operand) : Except InstructionAbort (List CurrentUop) := do
  let loadBase := uops.findIdx? fun uop => uop.microOp.isLoad
  let storeBase := uops.findIdx? fun uop => uop.microOp.isStore
  let s ← operands.foldlM (OperandLoop.operand bypassLatency loadBase storeBase)
    ⟨uops, [], [], 0, 0, 0, false⟩
  let uops' ← if s.doSquashing then CurrentUop.doSquashing s.uops 0 else .ok s.uops
  if s.numReadsDone = uops.countP (fun uop => uop.microOp.isLoad) ∧
      s.numWritesDone = uops.countP (fun uop => uop.microOp.isStore) then
    return uops'
  else .error .operandMismatch

/-- The type, the offset and the number of dependencies that the decoder gives the micro-operation
at an index: the loads, then the execute, then the stores. -/
def decodedShape (numLoads numExecs index : Nat) : MicroOpType × Nat × Nat :=
  if index < numLoads then (.load, index, 0)
  else if index < numLoads + numExecs then (.execute, index - numLoads, numLoads)
  else (.store, index - numLoads - numExecs, numExecs)

theorem decodedShape_cases {numLoads numExecs index offset intra : Nat} {type : MicroOpType}
    (h : (type, offset, intra) = decodedShape numLoads numExecs index) :
    index < numLoads ∧ type = .load ∧ offset = index ∧ intra = 0 ∨
    numLoads ≤ index ∧ index < numLoads + numExecs ∧ type = .execute ∧
      offset = index - numLoads ∧ intra = numLoads ∨
    numLoads + numExecs ≤ index ∧ type = .store ∧ offset = index - numLoads - numExecs ∧
      intra = numExecs := by
  unfold decodedShape at h
  split at h
  · next hload =>
    simp only [Prod.mk.injEq] at h
    exact .inl ⟨hload, h⟩
  · next hload =>
    split at h
    · next hexecute =>
      simp only [Prod.mk.injEq] at h
      exact .inr (.inl ⟨Nat.le_of_not_lt hload, hexecute, h⟩)
    · next hexecute =>
      simp only [Prod.mk.injEq] at h
      exact .inr (.inr ⟨Nat.le_of_not_lt hexecute, h⟩)

end Sniper.Performance
