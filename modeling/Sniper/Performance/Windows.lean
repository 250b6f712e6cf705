import Sniper.Performance.IntervalContention
import Sniper.Performance.MicroOp
import Mathlib.Algebra.BigOperators.Group.List.Basic
set_option autoImplicit false

/-! The two windows of the interval model: the micro-operations that wait for dispatch, and the last
ones that were dispatched. -/

namespace Sniper.Performance

inductive UopSubtype where
  | fpAddSub | fpMulDiv | load | store | generic | branch
  deriving DecidableEq

inductive CpContrType where
  | fpAddSub | fpMulDiv | loadL1 | loadL2 | loadL3 | loadLx | store | generic | branch
  deriving DecidableEq

def CpContrType.all : List CpContrType :=
  [.fpAddSub, .fpMulDiv, .loadL1, .loadL2, .loadL3, .loadLx, .store, .generic, .branch]

/-- What the interval model knows of a micro-operation besides. -/
structure IntervalInfo where
  subtype : UopSubtype
  isInterrupt : Bool
  forceLongLatencyLoad : Bool
  bypassLatency : Nat
  deriving DecidableEq

/-- Used while a long-latency load blocks the window. -/
inductive WindowDependence where
  | noDep | dataDep | indepMiss
  deriving DecidableEq

structure WindowEntry where
  uop : DynamicMicroOp
  info : IntervalInfo
  execTime : Nat
  fetchTime : Nat
  cpContr : Nat
  icacheOverlap : Bool
  bpredOverlap : Bool
  dcacheOverlap : Bool
  dependent : WindowDependence
  deriving DecidableEq

namespace WindowEntry

def init (uop : DynamicMicroOp) (info : IntervalInfo) : WindowEntry where
  uop := uop
  info := info
  execTime := 0
  fetchTime := 0
  cpContr := 0
  icacheOverlap := false
  bpredOverlap := false
  dcacheOverlap := false
  dependent := .noDep

def setExecTime (e : WindowEntry) (time : Nat) : WindowEntry := { e with execTime := time }

/-- The places of a hit are numbered as the memory components are, and once more for a sibling. -/
def loadContrType (dCacheHitWhere : Option Nat) : CpContrType :=
  match dCacheHitWhere with
  | some 3 => .loadL1
  | some 4 => .loadL2
  | some 17 => .loadL2
  | some 18 => .loadL2
  | some 5 => .loadL3
  | some 19 => .loadL3
  | _ => .loadLx

def getCpContrType (e : WindowEntry) : CpContrType :=
  match e.info.subtype with
  | .fpAddSub => .fpAddSub
  | .fpMulDiv => .fpMulDiv
  | .load => loadContrType e.uop.dCacheHitWhere
  | .store => .store
  | .generic => .generic
  | .branch => .branch

end WindowEntry

/-- The windows with the oldest micro-operation first. Times are in cycles. -/
structure Windows where
  old : List WindowEntry
  window : List WindowEntry
  nextSequenceNumber : Nat
  registerDependencies : RegisterDependencies
  memoryDependencies : MemoryDependencies
  criticalPathHead : Nat
  criticalPathTail : Nat
  cpContrByType : CpContrType → Nat
  cpContrTotal : Nat
  contention : IntervalContentionNehalem

/-- The size of both windows, the cutoff of long latencies and whether the ports count. The numbers
are of the types `int` and `unsigned int`, and so is twice the size. -/
structure WindowsConfig where
  windowSize : Nat
  longLatencyCutoff : Nat
  functionalUnitContention : Bool
  windowSize_lt : 2 * windowSize < 2 ^ 31
  cutoff_lt : longLatencyCutoff < 2 ^ 32

/-- What ends the simulation: an assertion that fails, or a division by zero. -/
inductive WindowsAbort where
  | windowFull
  | badDependency
  | contributionTooLarge
  | divisionByZero
  deriving DecidableEq

namespace Windows

def clear (cpContrByPort : UopPort → Nat) : Windows where
  old := []
  window := []
  nextSequenceNumber := 0
  registerDependencies := .clear
  memoryDependencies := .clear
  criticalPathHead := 0
  criticalPathTail := 0
  cpContrByType := fun _ => 0
  cpContrTotal := 0
  contention := ⟨fun _ => 0, cpContrByPort⟩

def clearFunctionalUnitStats (w : Windows) : Windows :=
  { w with
    cpContrByType := fun _ => 0
    cpContrTotal := 0
    contention := w.contention.clearFunctionalUnitStats }

/-- The counters are 64-bit numbers. -/
def addFunctionalUnitStats (w : Windows) (e : WindowEntry) : Windows :=
  { w with
    cpContrByType := Function.update w.cpContrByType e.getCpContrType
      ((w.cpContrByType e.getCpContrType + e.cpContr) % 2 ^ 64)
    cpContrTotal := (w.cpContrTotal + e.cpContr) % 2 ^ 64
    contention := w.contention.addFunctionalUnitStats e.uop.port }

def removeFunctionalUnitStats (w : Windows) (e : WindowEntry) : Windows :=
  { w with
    cpContrByType := Function.update w.cpContrByType e.getCpContrType
      ((w.cpContrByType e.getCpContrType + 2 ^ 64 - e.cpContr) % 2 ^ 64)
    cpContrTotal := (w.cpContrTotal + 2 ^ 64 - e.cpContr) % 2 ^ 64
    contention := w.contention.removeFunctionalUnitStats e.uop.port }

def wIsFull (cfg : WindowsConfig) (w : Windows) : Bool :=
  decide (w.window.length = cfg.windowSize)

def wIsEmpty (w : Windows) : Bool := w.window.isEmpty

/-- The oldest micro-operation in one of the windows. -/
def lowestValid (w : Windows) (number : Nat) : Nat :=
  match w.old ++ w.window with
  | first :: _ => first.uop.sequenceNumber
  | [] => number

def add (cfg : WindowsConfig) (w : Windows) (uop : DynamicMicroOp) (info : IntervalInfo) :
    Except WindowsAbort Windows :=
  if w.wIsFull cfg then .error .windowFull
  else
    let uop := { uop with sequenceNumber := w.nextSequenceNumber }
    let lowest := w.lowestValid uop.sequenceNumber
    match w.registerDependencies.setDependencies uop lowest with
    | .error _ => .error .badDependency
    | .ok (registers, uop) =>
      match w.memoryDependencies.setDependencies uop lowest with
      | .error _ => .error .badDependency
      | .ok (memory, uop) =>
        .ok { w with
          window := w.window ++ [WindowEntry.init uop info]
          nextSequenceNumber := w.nextSequenceNumber + 1
          registerDependencies := registers
          memoryDependencies := memory }

/-- Whether a number is one of those in a window. -/
def containsNumber (l : List WindowEntry) (sequenceNumber : Nat) : Bool :=
  match l.head?, l.getLast? with
  | some first, some final =>
    decide (first.uop.sequenceNumber ≤ sequenceNumber ∧
      sequenceNumber ≤ final.uop.sequenceNumber)
  | _, _ => false

def oldWindowContains (w : Windows) (sequenceNumber : Nat) : Bool :=
  containsNumber w.old sequenceNumber

/-- The micro-operations are numbered consecutively, so one that a window contains is found. -/
def getInstruction (l : List WindowEntry) (sequenceNumber : Nat) : Option WindowEntry :=
  l.find? fun e => e.uop.sequenceNumber = sequenceNumber

/-- The 32-bit number that a 64-bit number becomes. -/
def toInt (n : Nat) : Int := (n : Int).bmod (2 ^ 32)

/-- The 64-bit number that is passed on. -/
def toUInt64 (i : Int) : Nat := (i % 2 ^ 64).toNat

def getCriticalPathLength (w : Windows) : Int :=
  if w.criticalPathHead ≤ w.criticalPathTail then toInt (w.criticalPathTail - w.criticalPathHead)
  else 0

def getEffectiveCriticalPathLength (cfg : WindowsConfig) (w : Windows)
    (criticalPathLength : Nat) : Nat :=
  if cfg.functionalUnitContention then (w.contention.effectiveLength criticalPathLength).1
  else criticalPathLength

/-- The oldest micro-operation leaves the old window, and the critical path starts behind it. -/
def evict (w : Windows) (oldest : WindowEntry) (rest : List WindowEntry) : Windows :=
  { w.removeFunctionalUnitStats oldest with
    criticalPathHead := max w.criticalPathHead oldest.execTime
    old := rest }

/-- The first micro-operation of the window moves to the old window. -/
def push (w : Windows) (e : WindowEntry) : Windows :=
  { w.addFunctionalUnitStats e with
    old := w.old ++ [e]
    window := w.window.tail }

def dispatchInstruction (cfg : WindowsConfig) (w : Windows) (e : WindowEntry) : Windows :=
  match w.old with
  | oldest :: rest =>
    if w.old.length = cfg.windowSize then (w.evict oldest rest).push e else w.push e
  | [] => w.push e

def clearOldWindow (w : Windows) (newCpHead : Nat) : Windows :=
  { w.clearFunctionalUnitStats with
    criticalPathHead := newCpHead
    criticalPathTail := newCpHead
    old := [] }

/-- One if the critical path would become longer by the cutoff or more. -/
def longLatencyOperationLatency (cfg : WindowsConfig) (w : Windows) (e : WindowEntry) : Nat :=
  if e.execTime < w.criticalPathTail then 0
  else if e.execTime - w.criticalPathTail < cfg.longLatencyCutoff then 0
  else 1

def updateCriticalPathTail (w : Windows) (e : WindowEntry) : Windows × WindowEntry :=
  if w.criticalPathTail < e.execTime then
    ({ w with criticalPathTail := e.execTime },
      { e with cpContr := e.execTime - w.criticalPathTail })
  else (w, e)

def getMinimalFlushLatency (w : Windows) (width : Nat) : Nat :=
  (w.old.length + (width - 1)) / width

/-- A share of the critical path in millionths. -/
def getCpContrFraction (w : Windows) (type : CpContrType) (effectiveLength : Nat) :
    Except WindowsAbort Nat :=
  if w.cpContrByType type ≤ w.cpContrTotal then
    if 0 < w.cpContrTotal then
      if effectiveLength = 0 then .error .divisionByZero
      else .ok (1000000 * w.cpContrByType type % 2 ^ 64 / effectiveLength)
    else .ok 0
  else .error .contributionTooLarge

/-! ### Branch resolution -/

/-- The execution times found so far for the producers of a branch, by number. -/
abbrev ExecTimeMap := Nat → Nat

def markProducer (w : Windows) (times : ExecTimeMap) (dependency : Nat) : ExecTimeMap :=
  if w.oldWindowContains dependency then
    match getInstruction w.old dependency with
    | some producer => Function.update times dependency producer.uop.execLatency
    | none => times
  else times

def markProducerOf (w : Windows) (number : Nat) (times : ExecTimeMap) (dependency : Nat) :
    ExecTimeMap :=
  if w.oldWindowContains dependency then
    match getInstruction w.old dependency with
    | some producer => Function.update times dependency
        (max ((producer.uop.execLatency + times number) % 2 ^ 32) (times dependency))
    | none => times
  else times

/-- An entry on a path to the branch; its own time is final, and is reset. -/
def resolveEntry (w : Windows) (state : ExecTimeMap × Nat) (e : WindowEntry) :
    ExecTimeMap × Nat :=
  let number := e.uop.sequenceNumber
  if state.1 number = 0 then state
  else
    let times := e.uop.allDependencies.foldl (w.markProducerOf number) state.1
    (Function.update times number 0, max state.2 (times number))

/-- From the youngest to the oldest in the old window. -/
def calculateBranchResolutionLatency (w : Windows) (e : WindowEntry) : Nat :=
  let times := e.uop.allDependencies.foldl w.markProducer fun _ => 0
  (w.old.reverse.foldl w.resolveEntry (times, 0)).2

end Windows

end Sniper.Performance
