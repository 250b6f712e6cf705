import Sniper.Performance.Windows
import Sniper.Performance.Contention
import Sniper.Lib.FixedPoint
set_option autoImplicit false

/-! The timer of the interval model. -/

namespace Sniper.Performance
open Sniper.Lib

namespace ContentionModel

/-- When a request ends that is made at a time. -/
def completionTime (m : ContentionModel) (start delay : Nat) : Nat :=
  if m.units = [] then start + delay
  else if start = 0 then delay
  else if start < m.last then start + delay
  else max start (m.units.getD (findUnit m.units start) (0, 0)).1 + delay

/-- When the last unit is free, and the model after all of them have been taken. -/
def getBarrierCompletionTime (m : ContentionModel) (start delay : Nat) : Nat × ContentionModel :=
  let free := m.units.foldl (fun time unit => max time unit.1) start
  (free + delay, { m with units := m.units.map fun _ => (free + delay, 0) })

end ContentionModel

/-- The parameters, and the memory, which answers an access with a latency in cycles and a place. The
two granularities are powers of two. -/
structure IntervalConfig (μ : Type) where
  windows : WindowsConfig
  dispatchWidth : Nat
  branchMispredictionPenalty : Nat
  memoryDependencyGranularity : Nat
  lllDependencyGranularity : Nat
  accessMemory : μ → DynamicMicroOp → (Nat × Nat) × μ

/-- The units of the dispatch bandwidth. -/
abbrev dispatchUnit : Nat := 2 ^ 14

structure IntervalTimer (μ : Type) where
  windows : Windows
  remainingDispatchBandwidth : FixedPoint dispatchUnit
  maxStoreCompletionTime : Nat
  maxLoadCompletionTime : Nat
  loadstoreContention : ContentionModel
  memory : μ

inductive StopDispatchReason where
  | noReason | iCacheMiss | branchMispredict
  deriving DecidableEq

namespace IntervalTimer

variable {μ : Type}

def mask (granularity address : Nat) : Nat := address - address % granularity

/-- The rate in whole micro-operations, and the part that is left for the next cycle. -/
def calculateCurrentDispatchRate (cfg : IntervalConfig μ) (s : IntervalTimer μ) :
    Nat × IntervalTimer μ :=
  let criticalPathLength := s.windows.getCriticalPathLength
  if 0 < criticalPathLength then
    let effective := s.windows.getEffectiveCriticalPathLength cfg.windows
      (Windows.toUInt64 criticalPathLength)
    let ipc := ((FixedPoint.ofInt s.windows.old.length).divInt effective).add
      s.remainingDispatchBandwidth
    let dispatchRate := (ipc.floor % 2 ^ 32).toNat
    (dispatchRate, { s with remainingDispatchBandwidth :=
      if dispatchRate < cfg.dispatchWidth then ipc.subInt dispatchRate else .ofInt 0 })
  else (cfg.dispatchWidth, { s with remainingDispatchBandwidth := .ofInt 0 })

def accessed (e : WindowEntry) (latency hitWhere : Nat) : WindowEntry :=
  { e with uop := { e.uop with
    execLatency := (e.uop.execLatency + latency) % 2 ^ 32
    dCacheHitWhere := some hitWhere } }

/-- The memory is accessed at dispatch, unless it was before. -/
def issueMemOp (cfg : IntervalConfig μ) (memory : μ) (e : WindowEntry) : μ × WindowEntry :=
  if (e.uop.microOp.isLoad || e.uop.microOp.isStore) && e.uop.dCacheHitWhere.isNone then
    let ((latency, hitWhere), memory) := cfg.accessMemory memory e.uop
    (memory, accessed e latency hitWhere)
  else (memory, e)

def isLongLatencyLoad (cfg : IntervalConfig μ) (e : WindowEntry) : Bool :=
  e.info.forceLongLatencyLoad ||
    (decide (0 < cfg.windows.longLatencyCutoff) &&
      decide (cfg.windows.longLatencyCutoff < e.uop.execLatency))

/-- The start of the execution of an entry, which may be before time zero. -/
def startTime (e : WindowEntry) : Int := e.execTime - e.uop.execLatency

/-- When a producer has its result, for an instruction fetched so much later than the oldest. -/
def producerExecTime (oldestStartTime relativeFetchTime : Int) (producer : WindowEntry) : Int :=
  let relativeStartTime := startTime producer - oldestStartTime
  if relativeStartTime < relativeFetchTime then
    producer.execTime + (relativeFetchTime - max relativeStartTime 0)
  else producer.execTime

def getMaxProducerExecTime (w : Windows) (e : WindowEntry) : Nat :=
  let oldest := w.old.headD e
  let relativeFetchTime : Int := e.fetchTime - oldest.fetchTime
  (e.uop.allDependencies.foldl (fun time dependency =>
    if w.oldWindowContains dependency then
      match Windows.getInstruction w.old dependency with
      | some producer => max time (producerExecTime (startTime oldest) relativeFetchTime producer)
      | none => time
    else time) 0).toNat

/-! ### A long-latency load blocks the window -/

def setDependent (e : WindowEntry) (dependent : WindowDependence) : WindowEntry :=
  { e with dependent := dependent }

def addICacheOverlap (e : WindowEntry) : WindowEntry := { e with icacheOverlap := true }

def addBPredOverlap (e : WindowEntry) : WindowEntry := { e with bpredOverlap := true }

def addDCacheOverlap (e : WindowEntry) : WindowEntry := { e with dcacheOverlap := true }

/-- Whether a dependency makes a micro-operation wait for the blocking load, or for one like it. -/
def blocks (cfg : IntervalConfig μ) (window : List WindowEntry) (dependency : Nat) : Bool :=
  if Windows.containsNumber window dependency then
    match Windows.getInstruction window dependency with
    | some dependee => decide (dependee.dependent = .dataDep) ||
        (decide (dependee.dependent = .indepMiss) && isLongLatencyLoad cfg dependee)
    | none => false
  else false

/-- The dependence of an entry on the blocking load, whose address is masked already. -/
def markDependent (cfg : IntervalConfig μ) (headAddress : Nat) (window : List WindowEntry)
    (e : WindowEntry) : WindowEntry :=
  let e := if e.uop.allDependencies.any (blocks cfg window) then setDependent e .dataDep else e
  if e.uop.microOp.isLoad && decide (mask cfg.lllDependencyGranularity e.uop.phys = headAddress) then
    setDependent e .dataDep
  else e

/-- An entry that overlaps with the blocking load; a load is issued. -/
def overlap (cfg : IntervalConfig μ) (criticalPathHead : Nat) (memBarrierPending : Bool) (memory : μ)
    (e : WindowEntry) : μ × WindowEntry :=
  if e.uop.microOp.isBranch && !decide (e.dependent = .dataDep) then (memory, addBPredOverlap e)
  else if e.uop.microOp.isLoad && !decide (e.dependent = .dataDep) && !memBarrierPending &&
      !e.dcacheOverlap then
    let (memory, e) := issueMemOp cfg memory (addDCacheOverlap e)
    (memory, (setDependent e .indepMiss).setExecTime criticalPathHead)
  else (memory, e)

/-- The loop of `blockWindow` over the entries behind those that are done, until one serializes. -/
def blockLoop (cfg : IntervalConfig μ) (criticalPathHead headAddress : Nat) :
    Bool → List WindowEntry → List WindowEntry → μ → List WindowEntry × μ
  | _, _, [], memory => ([], memory)
  | memBarrierPending, before, e :: rest, memory =>
    let e := addICacheOverlap (setDependent e .noDep)
    if e.uop.microOp.isSerializing then (e :: rest, memory)
    else
      let memBarrierPending := memBarrierPending || e.uop.microOp.isMemBarrier
      let e := markDependent cfg headAddress (before ++ e :: rest) e
      let (memory, e) := overlap cfg criticalPathHead memBarrierPending memory e
      let (rest, memory) :=
        blockLoop cfg criticalPathHead headAddress memBarrierPending (before ++ [e]) rest memory
      (e :: rest, memory)

/-- The first entry is the load that blocks. -/
def blockWindow (cfg : IntervalConfig μ) (s : IntervalTimer μ) (e : WindowEntry) :
    IntervalTimer μ :=
  let headAddress := mask cfg.lllDependencyGranularity
    (if e.uop.microOp.isLoad then e.uop.phys else 0)
  let head := setDependent e .indepMiss
  match s.windows.window with
  | [] => s
  | _ :: rest =>
    let (rest, memory) :=
      blockLoop cfg s.windows.criticalPathHead headAddress false [head] rest s.memory
    { s with windows := { s.windows with window := head :: rest }, memory := memory }

/-! ### Dispatch -/

/-- A micro-operation on its way to the old window, and the latency so far. -/
structure Dispatching (μ : Type) where
  timer : IntervalTimer μ
  entry : WindowEntry
  latency : Nat
  reason : StopDispatchReason

/-- The windows and the entry have changed. -/
def Dispatching.update (d : Dispatching μ) (windows : Windows) (entry : WindowEntry) :
    Dispatching μ :=
  { d with timer := { d.timer with windows := windows }, entry := entry }

def Dispatching.flush (d : Dispatching μ) (newCpHead latency : Nat) : Dispatching μ :=
  { d with
    timer := { d.timer with windows := d.timer.windows.clearOldWindow newCpHead }
    latency := d.latency + latency }

/-- The critical path becomes longer, or is begun anew when it would be too long. -/
def updateCriticalPath (cfg : IntervalConfig μ) (d : Dispatching μ) : Dispatching μ :=
  let lll := d.timer.windows.longLatencyOperationLatency cfg.windows d.entry
  if lll = 0 then
    let (windows, entry) := d.timer.windows.updateCriticalPathTail d.entry
    d.update windows entry
  else d.flush d.entry.execTime lll

def fetchMiss (cptail : Nat) (d : Dispatching μ) : Dispatching μ :=
  if d.entry.uop.iCacheMiss && !d.entry.icacheOverlap then
    { d.flush (cptail + d.entry.uop.iCacheLatency) d.entry.uop.iCacheLatency with
      reason := .iCacheMiss }
  else d

def branchMiss (cfg : IntervalConfig μ) (cptail : Nat) (d : Dispatching μ) : Dispatching μ :=
  if d.entry.uop.microOp.isBranch && d.entry.uop.branchMispredicted && !d.entry.bpredOverlap then
    let latency := (cfg.branchMispredictionPenalty +
      d.timer.windows.calculateBranchResolutionLatency d.entry) % 2 ^ 32
    { d.flush (cptail + latency) latency with reason := .branchMispredict }
  else d

/-- The whole window is done before it. -/
def serialize (cfg : IntervalConfig μ) (d : Dispatching μ) : Dispatching μ :=
  let flushLatency := (max d.timer.windows.getCriticalPathLength
    (d.timer.windows.getMinimalFlushLatency cfg.dispatchWidth : Int)).toNat
  let time := d.timer.windows.criticalPathTail
  { d with entry := d.entry.setExecTime time }.flush time
    (flushLatency + d.entry.uop.execLatency)

/-- All loads and stores are done before it. -/
def fence (cfg : IntervalConfig μ) (maxProducer : Nat) (d : Dispatching μ) : Dispatching μ :=
  let time := max maxProducer (max d.timer.maxStoreCompletionTime d.timer.maxLoadCompletionTime)
  updateCriticalPath cfg
    { d with entry := d.entry.setExecTime (time + d.entry.uop.execLatency) }

/-- The completion of a load, which waits for a unit. -/
def loadCompletion (d : Dispatching μ) (start : Nat) : Nat × Dispatching μ :=
  let delay := d.entry.uop.execLatency
  let (time, contention) := if d.entry.uop.microOp.isMemBarrier then
      d.timer.loadstoreContention.getBarrierCompletionTime start delay
    else (d.timer.loadstoreContention.completionTime start delay,
      d.timer.loadstoreContention.getCompletionTime start delay 0)
  (time, { d with timer := { d.timer with loadstoreContention := contention } })

def longLatencyLoad (cfg : IntervalConfig μ) (start : Nat) (d : Dispatching μ) : Dispatching μ :=
  let (completion, d) := loadCompletion d start
  let latency := completion - start
  let time := d.timer.windows.criticalPathTail
  let d := { d with entry := d.entry.setExecTime time }.flush (time + latency) latency
  { d with timer := blockWindow cfg d.timer d.entry }

def otherLoad (cfg : IntervalConfig μ) (start : Nat) (d : Dispatching μ) : Dispatching μ :=
  let (completion, d) := loadCompletion d start
  updateCriticalPath cfg { d with entry := d.entry.setExecTime completion }

/-- A load that overlaps with one before it does not add to the critical path. -/
def load (cfg : IntervalConfig μ) (start : Nat) (d : Dispatching μ) : Dispatching μ :=
  let d := if d.entry.dcacheOverlap then d
    else if isLongLatencyLoad cfg d.entry then longLatencyLoad cfg start d
    else otherLoad cfg start d
  { d with timer := { d.timer with
    maxLoadCompletionTime := max d.timer.maxLoadCompletionTime d.entry.execTime } }

def store (cfg : IntervalConfig μ) (start : Nat) (d : Dispatching μ) : Dispatching μ :=
  let completion := start + d.entry.uop.execLatency
  let d := updateCriticalPath cfg
    { d with entry := d.entry.setExecTime (start + d.entry.info.bypassLatency + 1) }
  { d with timer := { d.timer with
    maxStoreCompletionTime := max d.timer.maxStoreCompletionTime completion } }

/-- By kind, after the misses of the front end. -/
def execute (cfg : IntervalConfig μ) (maxProducer : Nat) (d : Dispatching μ) : Dispatching μ :=
  let op := d.entry.uop.microOp
  let start := max maxProducer d.timer.windows.criticalPathHead
  if op.isSerializing || d.entry.info.isInterrupt then serialize cfg d
  else if decide (op.type = .execute) && op.isMemBarrier then fence cfg maxProducer d
  else if op.isLoad then load cfg start d
  else if op.isStore then store cfg start d
  else updateCriticalPath cfg
    { d with entry := d.entry.setExecTime (start + d.entry.uop.execLatency) }

/-- `dispatchInstruction` for the first entry of the window. -/
def dispatchInstruction (cfg : IntervalConfig μ) (s : IntervalTimer μ) (e : WindowEntry) :
    Dispatching μ :=
  let (memory, e) := issueMemOp cfg s.memory e
  let s := { s with memory := memory }
  let maxProducer := getMaxProducerExecTime s.windows e
  let cptail := s.windows.criticalPathTail
  execute cfg maxProducer (branchMiss cfg cptail (fetchMiss cptail ⟨s, e, 0, .noReason⟩))

/-- The entry has been dispatched and is in the old window. -/
def Dispatching.finish (cfg : IntervalConfig μ) (d : Dispatching μ) : IntervalTimer μ :=
  { d.timer with windows := d.timer.windows.dispatchInstruction cfg.windows d.entry }

/-- What a cycle has dispatched so far. -/
structure Dispatched (μ : Type) where
  timer : IntervalTimer μ
  instructions : Nat
  latency : Nat
  microOps : Nat
  reason : StopDispatchReason

/-- The next micro-operation. -/
def Dispatched.next (cfg : IntervalConfig μ) (d : Dispatched μ) (e : WindowEntry) : Dispatched μ :=
  let dispatching := dispatchInstruction cfg d.timer e
  { timer := dispatching.finish cfg
    instructions := if dispatching.entry.uop.last then d.instructions + 1 else d.instructions
    latency := d.latency + dispatching.latency
    microOps := d.microOps + 1
    reason := dispatching.reason }

/-- The loop of `dispatchWindow`, which takes an entry from the window each time. -/
def dispatchLoop (cfg : IntervalConfig μ) (dispatchRate : Nat) : Nat → Dispatched μ → Dispatched μ
  | 0, d => d
  | left + 1, d =>
    match d.timer.windows.window with
    | [] => d
    | e :: _ =>
      if d.instructions < cfg.dispatchWidth ∧ d.microOps < dispatchRate ∧ d.reason = .noReason then
        dispatchLoop cfg dispatchRate left (d.next cfg e)
      else d

/-- A cycle takes at least one unit of time. -/
def dispatchWindow (cfg : IntervalConfig μ) (s : IntervalTimer μ) : Dispatched μ :=
  let (dispatchRate, s) := s.calculateCurrentDispatchRate cfg
  let d := dispatchLoop cfg dispatchRate s.windows.window.length ⟨s, 0, 0, 0, .noReason⟩
  { d with latency := if d.latency = 0 then 1 else d.latency }

/-- The shares of the critical path that are added to the statistics after a cycle in which the rate
stopped the dispatch. The effective length is narrowed to a 32-bit number. -/
def cpContrFractions (cfg : IntervalConfig μ) (s : IntervalTimer μ) :
    Except WindowsAbort (List Nat) :=
  let criticalPathLength := s.windows.getCriticalPathLength
  let effectiveCpLength := Windows.toInt (s.windows.getEffectiveCriticalPathLength cfg.windows
    (Windows.toUInt64 criticalPathLength))
  CpContrType.all.mapM fun type =>
    s.windows.getCpContrFraction type (Windows.toUInt64 effectiveCpLength)

/-- The loop of `simulate` while the window is full, with fuel. -/
def whileFull (cfg : IntervalConfig μ) : Nat → IntervalTimer μ → Option (IntervalTimer μ)
  | 0, _ => none
  | fuel + 1, s =>
    if s.windows.wIsFull cfg.windows then whileFull cfg fuel (s.dispatchWindow cfg).timer
    else some s

/-- The address of an access is aligned. -/
def aligned (cfg : IntervalConfig μ) (uop : DynamicMicroOp) : DynamicMicroOp :=
  if uop.microOp.isLoad || uop.microOp.isStore then
    { uop with address := mask cfg.memoryDependencyGranularity uop.address }
  else uop

def add (cfg : IntervalConfig μ) (s : IntervalTimer μ) (uop : DynamicMicroOp)
    (info : IntervalInfo) : Except WindowsAbort (IntervalTimer μ) := do
  let windows ← s.windows.add cfg.windows (aligned cfg uop) info
  return { s with windows := windows }

/-- One micro-operation of a call of `simulate`. -/
def simulateOne (cfg : IntervalConfig μ) (fuel : Nat) (s : IntervalTimer μ)
    (uop : DynamicMicroOp × IntervalInfo) : Except WindowsAbort (Option (IntervalTimer μ)) :=
  if uop.1.squashed then .ok (some s)
  else do
    let s ← s.add cfg uop.1 uop.2
    return whileFull cfg fuel s

/-- The timer before its first micro-operation. -/
def new (numOutstanding : Nat) (cpContrByPort : UopPort → Nat) (memory : μ) : IntervalTimer μ where
  windows := .clear cpContrByPort
  remainingDispatchBandwidth := .ofInt 0
  maxStoreCompletionTime := 0
  maxLoadCompletionTime := 0
  loadstoreContention := .new numOutstanding
  memory := memory

end IntervalTimer

end Sniper.Performance
