import Sniper.Lib.Machine
import Sniper.Lib.Ring
import Sniper.Performance.RobEntering
import Sniper.Performance.Windows
import Mathlib.Data.List.ReduceOption
set_option autoImplicit false

/-! The two windows of the interval model in one ring of slots. -/

namespace Sniper.Performance
open Sniper.Lib

/-- The size of each window. The indices are of the type `int`, and so are sums of two of them. -/
structure RingConfig where
  windowSize : Nat
  sums_lt : 4 * windowSize < 2 ^ 31

/-- What ends the simulation: an assertion that fails, a null pointer that is followed, or the exit of
`getInstruction`; or a loop that does not end. -/
inductive RingAbort where
  | windowFull
  | outOfBounds
  | noUop
  | notInWindow
  | badDependency
  | endless
  deriving DecidableEq

/-- A slot has no micro-operation before the first one comes to it. The head of the window is the
tail of the old one. -/
structure WindowRing where
  doubleWindow : Nat → Option WindowEntry
  nextSequenceNumber : Nat
  registerDependencies : RegisterDependencies
  memoryDependencies : MemoryDependencies
  windowHead : Nat
  windowTail : Nat
  oldWindowHead : Nat
  windowLength : Nat
  oldWindowLength : Nat

def RingConfig.doubleWindowSize (cfg : RingConfig) : Nat := 2 * cfg.windowSize

namespace WindowRing

variable (cfg : RingConfig)

def new : WindowRing where
  doubleWindow := fun _ => none
  nextSequenceNumber := 0
  registerDependencies := .clear
  memoryDependencies := .clear
  windowHead := 0
  windowTail := 0
  oldWindowHead := 0
  windowLength := 0
  oldWindowLength := 0

def wIsFull (r : WindowRing) : Bool := r.windowLength = cfg.windowSize

def wIsEmpty (r : WindowRing) : Bool := r.windowLength = 0

def incrementIndex (index : Nat) : Nat := (index + 1) % cfg.doubleWindowSize

def decrementIndex (index : Nat) : Nat :=
  (index + cfg.doubleWindowSize - 1) % cfg.doubleWindowSize

/-- The remainder of a negative number is not positive. -/
def windowIndex (index : Int) : Int :=
  (index.tmod cfg.doubleWindowSize + cfg.doubleWindowSize).tmod cfg.doubleWindowSize

def getInstructionByIndex (r : WindowRing) (index : Int) : Except RingAbort (Option WindowEntry) :=
  if 0 ≤ index ∧ index < cfg.doubleWindowSize then .ok (r.doubleWindow index.toNat)
  else .error .outOfBounds

/-- The entry at an index, whose micro-operation is looked at. -/
def entryAt (r : WindowRing) (index : Int) : Except RingAbort WindowEntry := do
  match ← r.getInstructionByIndex cfg index with
  | some e => .ok e
  | none => .error .noUop

/-- An entry comes to the tail of the window. -/
def put (r : WindowRing) (e : WindowEntry) : WindowRing :=
  { r with
    doubleWindow := Function.update r.doubleWindow r.windowTail (some e)
    nextSequenceNumber := r.nextSequenceNumber + 1
    windowTail := incrementIndex cfg r.windowTail
    windowLength := r.windowLength + 1 }

/-- The micro-operation is in its slot before its dependencies are set. -/
def add (r : WindowRing) (uop : DynamicMicroOp) (info : IntervalInfo) :
    Except RingAbort WindowRing :=
  if r.wIsFull cfg then .error .windowFull
  else do
    let _ ← r.getInstructionByIndex cfg r.windowTail
    let uop := { uop with sequenceNumber := r.nextSequenceNumber }
    let oldest ← (r.put cfg (WindowEntry.init uop info)).entryAt cfg r.oldWindowHead
    match r.registerDependencies.setDependencies uop oldest.uop.sequenceNumber with
    | .error _ => .error .badDependency
    | .ok (registers, uop) =>
      match r.memoryDependencies.setDependencies uop oldest.uop.sequenceNumber with
      | .error _ => .error .badDependency
      | .ok (memory, uop) =>
        .ok { r.put cfg (WindowEntry.init uop info) with
          registerDependencies := registers
          memoryDependencies := memory }

/-- The window index of an entry is its slot, a number of 32 bits without sign. -/
def getInstruction (r : WindowRing) (sequenceNumber : Nat) : Except RingAbort WindowEntry := do
  let windowHead ← r.entryAt cfg r.windowHead
  let distance : Int :=
    ((windowHead.uop.sequenceNumber : Int) - sequenceNumber).bmod (2 ^ 32)
  let index := windowIndex cfg (((r.windowHead : Int) - distance).bmod (2 ^ 32))
  let ret ← r.entryAt cfg index
  if ret.uop.sequenceNumber = sequenceNumber then .ok ret else .error .notInWindow

def dispatchInstruction (r : WindowRing) : Except RingAbort WindowRing := do
  let r ← if r.oldWindowLength = cfg.windowSize then do
      let _ ← r.entryAt cfg r.oldWindowHead
      pure { r with
        oldWindowHead := incrementIndex cfg r.oldWindowHead
        oldWindowLength := r.oldWindowLength - 1 }
    else pure r
  let _ ← r.entryAt cfg r.windowHead
  return { r with
    windowHead := incrementIndex cfg r.windowHead
    windowLength := r.windowLength - 1
    oldWindowLength := r.oldWindowLength + 1 }

def clearOldWindow (r : WindowRing) : WindowRing :=
  { r with oldWindowLength := 0, oldWindowHead := r.windowHead }

def windowContains (r : WindowRing) (sequenceNumber : Nat) : Except RingAbort Bool := do
  let lowestValid ← r.entryAt cfg r.windowHead
  let highestValid ← r.entryAt cfg (decrementIndex cfg r.windowTail)
  return decide (lowestValid.uop.sequenceNumber ≤ sequenceNumber ∧
    sequenceNumber ≤ highestValid.uop.sequenceNumber)

def oldWindowContains (r : WindowRing) (sequenceNumber : Nat) : Except RingAbort Bool := do
  let lowestValid ← r.entryAt cfg r.oldWindowHead
  let highestValid ← r.entryAt cfg (decrementIndex cfg r.windowHead)
  return decide (lowestValid.uop.sequenceNumber ≤ sequenceNumber ∧
    sequenceNumber ≤ highestValid.uop.sequenceNumber)

/-- What an iterator goes through until its index is `stop`; all slots at most. -/
def iterate (r : WindowRing) (stop : Nat) : Nat → Nat → Except RingAbort (List (Option WindowEntry))
  | 0, index => if index = stop then .ok [] else .error .endless
  | left + 1, index =>
    if index = stop then .ok []
    else do
      let ret ← r.getInstructionByIndex cfg index
      let rest ← r.iterate stop left (incrementIndex cfg index)
      return ret :: rest

def windowIterator (r : WindowRing) : Except RingAbort (List (Option WindowEntry)) :=
  r.iterate cfg r.windowTail cfg.doubleWindowSize r.windowHead

def oldWindowIterator (r : WindowRing) : Except RingAbort (List (Option WindowEntry)) :=
  r.iterate cfg r.windowHead cfg.doubleWindowSize r.oldWindowHead

/-- Something is written to an entry that is referred to. -/
def write (r : WindowRing) (index : Nat) (e : WindowEntry) : WindowRing :=
  { r with doubleWindow := Function.update r.doubleWindow index (some e) }

end WindowRing

/-- The calls, and the writes to entries between them. -/
inductive RingCall where
  | add (uop : DynamicMicroOp) (info : IntervalInfo)
  | write (index : Nat) (e : WindowEntry)
  | dispatch
  | clear

namespace WindowRing

variable (cfg : RingConfig)

def perform (r : WindowRing) : RingCall → Except RingAbort (Unit × WindowRing)
  | .add uop info => (r.add cfg uop info).map fun r => ((), r)
  | .write index e => .ok ((), r.write index e)
  | .dispatch => (r.dispatchInstruction cfg).map fun r => ((), r)
  | .clear => .ok ((), r.clearOldWindow)

/-- A micro-operation keeps its sequence number, and there is one to dispatch. -/
def permitted (r : WindowRing) : RingCall → Bool
  | .write index e => match r.doubleWindow index with
    | some e' => e'.uop.sequenceNumber = e.uop.sequenceNumber
    | none => false
  | .dispatch => !r.wIsEmpty
  | _ => true

def machine : Machine WindowRing RingCall Unit where
  init r := r = new
  step r call _ r' := r.perform cfg call = .ok ((), r')

end WindowRing

/-- The windows by themselves, with the oldest micro-operation first. -/
structure TwoWindows where
  old : List WindowEntry
  window : List WindowEntry
  nextSequenceNumber : Nat

namespace TwoWindows

/-- The entry that has the number changes. -/
def rewrite (e e' : WindowEntry) : WindowEntry :=
  if e'.uop.sequenceNumber = e.uop.sequenceNumber then e else e'

def step (windowSize : Nat) (w : TwoWindows) : RingCall → TwoWindows → Prop
  | .add _ info, w' => w.window.length < windowSize ∧ ∃ uop : DynamicMicroOp,
    uop.sequenceNumber = w.nextSequenceNumber ∧
      w' = ⟨w.old, w.window ++ [WindowEntry.init uop info], w.nextSequenceNumber + 1⟩
  | .write _ e, w' => w' = ⟨w.old.map (rewrite e), w.window.map (rewrite e), w.nextSequenceNumber⟩
  | .dispatch, w' => ∃ e rest, w.window = e :: rest ∧
    w' = ⟨(if w.old.length = windowSize then w.old.tail else w.old) ++ [e], rest,
      w.nextSequenceNumber⟩
  | .clear, w' => w' = ⟨[], w.window, w.nextSequenceNumber⟩

def machine (windowSize : Nat) : Machine TwoWindows RingCall Unit where
  init w := w = ⟨[], [], 0⟩
  step w call _ w' := w.step windowSize call w'

end TwoWindows

end Sniper.Performance
