import Mathlib.Algebra.Group.Nat.Defs
import Mathlib.Order.Lattice.Nat
import Sniper.Performance.Contention
set_option autoImplicit false

/-! The timer of a core with a reorder buffer. -/

namespace Sniper.Performance

structure RobEntry where
  uop : DynamicMicroOp
  dispatched : Time
  ready : Time
  readyMax : Time
  addressReady : Time
  addressReadyMax : Time
  issued : Time
  done : Time
  dependants : List Nat
  addressProducers : List Nat
  deriving DecidableEq

/-- When an instruction went through the stages. -/
structure UopTimes where
  sequenceNumber : Nat
  dispatched : Time
  issued : Time
  done : Time
  committed : Time
  deriving DecidableEq

/-- The core, its issue contention and its memory, which answers an access with a latency in
cycles and a place whatever the time of the call. -/
structure RobConfig (σ μ : Type) where
  dispatchWidth : Nat
  commitWidth : Nat
  windowSize : Nat
  rsEntries : Nat
  mispredictionPenalty : Nat
  storeToLoadForwarding : Bool
  noAddressDisambiguation : Bool
  inorder : Bool
  contention : Option (RobContention σ)
  accessMemory : μ → DynamicMicroOp → (Nat × Nat) × μ

/-- The timer but for its clock and its contention model. The buffer holds the window and, behind
it, the micro-operations that wait for dispatch. What was executed and when is a history. -/
structure RobTimer (μ : Type) where
  rob : List RobEntry
  numInRob : Nat
  rsEntriesUsed : Nat
  frontendStalledUntil : Time
  inIcacheMiss : Bool
  lastStoreDone : Nat
  loadQueue : ContentionModel
  storeQueue : ContentionModel
  nextSequenceNumber : Nat
  registerDependencies : RegisterDependencies
  memoryDependencies : MemoryDependencies
  memory : μ
  instructionsExecuted : Nat
  trace : List UopTimes

def RobEntry.init (uop : DynamicMicroOp) (sequenceNumber : Nat) : RobEntry where
  uop := { uop with sequenceNumber := sequenceNumber }
  dispatched := (0 : Nat)
  ready := ⊤
  readyMax := (0 : Nat)
  addressReady := ⊤
  addressReadyMax := (0 : Nat)
  issued := ⊤
  done := ⊤
  dependants := []
  addressProducers := []

namespace RobTimer

variable {σ μ : Type}

def modifyEntry (s : RobTimer μ) (i : Nat) (f : RobEntry → RobEntry) : RobTimer μ :=
  { s with rob := s.rob.modify i f }

/-- The position of an entry; micro-operations in the buffer are numbered sequentially. -/
def findPosition (s : RobTimer μ) (sequenceNumber : Nat) : Except RobAbort Nat :=
  match s.rob.head? with
  | none => .error .outsideRob
  | some first =>
    if first.uop.sequenceNumber ≤ sequenceNumber ∧
        sequenceNumber - first.uop.sequenceNumber < s.rob.length then
      .ok (sequenceNumber - first.uop.sequenceNumber)
    else .error .outsideRob

def entryAt (s : RobTimer μ) (i : Nat) : Except RobAbort RobEntry :=
  match s.rob[i]? with
  | some entry => .ok entry
  | none => .error .noUops

def findEntryBySequenceNumber (s : RobTimer μ) (sequenceNumber : Nat) :
    Except RobAbort RobEntry := do
  s.entryAt (← s.findPosition sequenceNumber)

/-! ### Entering the buffer -/

/-- A register that the address of a store is computed from. -/
def addressRegister (s : RobTimer μ) (lowest : Nat) (entry : RobEntry) (reg : Option Nat) :
    Except RobAbort RobEntry :=
  match s.registerDependencies.peekProducer reg lowest with
  | none => .ok entry
  | some producer => do
    let prodEntry ← s.findEntryBySequenceNumber producer
    if prodEntry.done ≠ ⊤ then
      return { entry with addressReadyMax := max entry.addressReadyMax prodEntry.done }
    else return { entry with addressProducers := entry.addressProducers ++ [producer] }

def addressDependencies (s : RobTimer μ) (lowest : Nat) (entry : RobEntry) :
    Except RobAbort RobEntry :=
  if entry.uop.microOp.isStore then do
    let entry ← entry.uop.microOp.addressRegisters.foldlM (s.addressRegister lowest) entry
    return if entry.addressProducers = [] then { entry with addressReady := entry.addressReadyMax }
      else entry
  else .ok entry

/-- A load that depends on a store depends on what the store depends on instead. -/
def forward (s : RobTimer μ) (uop : DynamicMicroOp) :
    List Nat → Except RobAbort DynamicMicroOp
  | [] => .ok uop
  | dependency :: rest => do
    let prodEntry ← s.findEntryBySequenceNumber dependency
    if prodEntry.uop.microOp.isStore then
      prodEntry.uop.allDependencies.foldlM DynamicMicroOp.addDependency
        (← uop.removeDependency dependency)
    else s.forward uop rest

def forwardStore (cfg : RobConfig σ μ) (s : RobTimer μ) (uop : DynamicMicroOp) :
    Except RobAbort DynamicMicroOp :=
  if cfg.storeToLoadForwarding && uop.microOp.isLoad then s.forward uop uop.allDependencies
  else .ok uop

/-- The producers of an entry know it as dependant, but for those that are done already. -/
def dependOn (sequenceNumber : Nat) (state : RobTimer μ × Time × List Nat) (dependency : Nat) :
    Except RobAbort (RobTimer μ × Time × List Nat) := do
  let (s, readyMax, done) := state
  let i ← s.findPosition dependency
  let prodEntry ← s.entryAt i
  if prodEntry.done ≠ ⊤ then return (s, max readyMax prodEntry.done, done ++ [dependency])
  else
    return (s.modifyEntry i fun e => { e with dependants := e.dependants ++ [sequenceNumber] },
      readyMax, done)

/-- The dependencies of a new entry, from the registers, the memory and the own instruction. -/
def dependencies (cfg : RobConfig σ μ) (s : RobTimer μ) (lowest : Nat) (entry : RobEntry) :
    Except RobAbort (RobTimer μ × DynamicMicroOp) := do
  let (registers, uop) ← s.registerDependencies.setDependencies entry.uop lowest
  let (memory, uop) ← s.memoryDependencies.setDependencies uop lowest
  let uop ← s.forwardStore cfg uop
  return ({ s with registerDependencies := registers, memoryDependencies := memory }, uop)

/-- A micro-operation is put into the buffer, behind the window. -/
def enqueue (cfg : RobConfig σ μ) (s : RobTimer μ) (uop : DynamicMicroOp) :
    Except RobAbort (RobTimer μ) :=
  if uop.squashed then .ok s
  else if cfg.windowSize + 255 ≤ s.rob.length then .error .queueFull
  else do
    let entry := RobEntry.init uop s.nextSequenceNumber
    let last := s.rob.length
    let s := { s with rob := s.rob ++ [entry], nextSequenceNumber := s.nextSequenceNumber + 1 }
    let lowest := match s.rob.head? with
      | some first => first.uop.sequenceNumber
      | none => 0
    let entry ← s.addressDependencies lowest entry
    let (s, uop) ← s.dependencies cfg lowest entry
    let (s, readyMax, done) ← uop.allDependencies.foldlM (dependOn entry.uop.sequenceNumber)
      (s, entry.readyMax, [])
    if 8 < done.length then .error .tooManyDependencies
    else
      let uop ← done.foldlM DynamicMicroOp.removeDependency uop
      return s.modifyEntry last fun e => { e with
        uop := uop
        addressReady := entry.addressReady
        addressReadyMax := entry.addressReadyMax
        addressProducers := entry.addressProducers
        readyMax := readyMax
        ready := if uop.getDependenciesLength = 0 then readyMax else ⊤ }

/-! ### Dispatch -/

def dispatchEntry (now : Nat) (entry : RobEntry) : RobEntry :=
  { entry with dispatched := now, ready := max entry.ready ((now + 1 : Nat) : Time) }

/-- The instruction cache miss of an entry is over. -/
def fetched (s : RobTimer μ) (entry : RobEntry) : RobTimer μ :=
  if entry.uop.iCacheMiss then { s with inIcacheMiss := false } else s

/-- The first entry behind the window enters it. -/
def dispatchNext (now : Nat) (s : RobTimer μ) : RobTimer μ :=
  { s.modifyEntry s.numInRob (dispatchEntry now) with
    numInRob := s.numInRob + 1
    rsEntriesUsed := s.rsEntriesUsed + 1 }

/-- The loop of `doDispatch`, with what is left of the width. -/
def dispatchLoop (cfg : RobConfig σ μ) (now : Nat) :
    Nat → RobTimer μ → Time → Except RobAbort (RobTimer μ × Time)
  | left, s, nextEvent =>
    if s.numInRob < cfg.windowSize then
      match s.rob[s.numInRob]? with
      | none => .error .noUops
      | some entry =>
        match left with
        | 0 => .ok (s, nextEvent)
        | left + 1 =>
          if entry.uop.iCacheMiss && !s.inIcacheMiss then
            .ok ({ s with
              frontendStalledUntil := ((now + entry.uop.iCacheLatency : Nat) : Time)
              inIcacheMiss := true }, nextEvent)
          else
            let s := s.fetched entry
            if s.rsEntriesUsed = cfg.rsEntries then .ok (s, nextEvent)
            else
              let nextEvent := min nextEvent (dispatchEntry now entry).ready
              let s := s.dispatchNext now
              if entry.uop.microOp.isBranch && entry.uop.branchMispredicted then
                .ok ({ s with frontendStalledUntil := ⊤ }, nextEvent)
              else dispatchLoop cfg now left s nextEvent
    else .ok (s, nextEvent)

def doDispatch (cfg : RobConfig σ μ) (now : Nat) (s : RobTimer μ) :
    Except RobAbort (RobTimer μ × Time) := do
  let (s, nextEvent) ← (if s.frontendStalledUntil ≤ (now : Time) then
      dispatchLoop cfg now cfg.dispatchWidth s ⊤
    else .ok (s, ⊤))
  return (s, if s.numInRob = cfg.windowSize then nextEvent
    else min s.frontendStalledUntil nextEvent)

/-! ### Issue -/

/-- The latency of a memory access is known when it is issued, unless it was known before. -/
def access (cfg : RobConfig σ μ) (s : RobTimer μ) (uop : DynamicMicroOp) :
    RobTimer μ × DynamicMicroOp :=
  if (uop.microOp.isLoad || uop.microOp.isStore) && uop.dCacheHitWhere.isNone then
    let ((latency, hitWhere), memory) := cfg.accessMemory s.memory uop
    ({ s with memory := memory }, { uop with
      execLatency := (uop.execLatency + latency) % 2 ^ 32
      dCacheHitWhere := some hitWhere })
  else (s, uop)

/-- The queue that a load or a store is in. -/
def enterQueue (s : RobTimer μ) (now : Nat) (uop : DynamicMicroOp) : RobTimer μ :=
  if uop.microOp.isLoad then
    { s with loadQueue := s.loadQueue.getCompletionTime now uop.execLatency uop.address }
  else if uop.microOp.isStore then
    { s with storeQueue := s.storeQueue.getCompletionTime now uop.execLatency uop.address }
  else s

/-- A producer of the address of a store that is not done yet. -/
def addressPending (s : RobTimer μ) (producer : Nat) : Except RobAbort Bool :=
  match s.rob.head? with
  | none => .error .outsideRob
  | some first =>
    if first.uop.sequenceNumber ≤ producer then do
      let prodEntry ← s.findEntryBySequenceNumber producer
      return prodEntry.done = ⊤
    else .ok false

/-- The address of a store is ready when no producer of it is left. -/
def resolveAddress (s : RobTimer μ) (producer : Nat) (cycleDepend : Nat) (entry : RobEntry) :
    Except RobAbort RobEntry :=
  if entry.uop.microOp.isStore && decide (entry.addressReady = ⊤) then do
    let addressReadyMax := if producer ∈ entry.addressProducers then
        max entry.addressReadyMax (cycleDepend : Time)
      else entry.addressReadyMax
    let pending ← entry.addressProducers.mapM s.addressPending
    let addressReady := if pending.any id then entry.addressReady else addressReadyMax
    return { entry with addressReadyMax := addressReadyMax, addressReady := addressReady }
  else .ok entry

/-- A dependant learns that its producer will be done. -/
def wakeDependant (producer : Nat) (cycleDepend : Nat) (s : RobTimer μ) (dependant : Nat) :
    Except RobAbort (RobTimer μ) := do
  let i ← s.findPosition dependant
  let entry ← s.entryAt i
  if entry.uop.getDependenciesLength = 0 then .error .noDependencies
  else
    let readyMax := max entry.readyMax (cycleDepend : Time)
    let uop ← entry.uop.removeDependency producer
    let resolved ← s.resolveAddress producer cycleDepend { entry with
      uop := uop
      readyMax := readyMax
      ready := if uop.getDependenciesLength = 0 then readyMax else entry.ready }
    return s.modifyEntry i fun e => { e with
      uop := resolved.uop
      readyMax := resolved.readyMax
      ready := resolved.ready
      addressReadyMax := resolved.addressReadyMax
      addressReady := resolved.addressReady }

/-- When a result can be used, and when its producer can be committed: for a store at once. -/
def completion (now : Nat) (uop : DynamicMicroOp) : Nat × Nat :=
  if uop.microOp.isStore then (now + 1, now + 1)
  else (now + uop.execLatency, now + uop.execLatency + 1)

def storeIssued (s : RobTimer μ) (now : Nat) (uop : DynamicMicroOp) : RobTimer μ :=
  if uop.microOp.isStore then
    { s with lastStoreDone := max s.lastStoreDone (now + uop.execLatency + 1) }
  else s

/-- The entry is issued, and leaves the reservation stations. -/
def markIssued (s : RobTimer μ) (now i : Nat) (uop : DynamicMicroOp) (cycleDone : Nat) :
    RobTimer μ :=
  { s.modifyEntry i fun e => { e with uop := uop, issued := now, done := cycleDone } with
    rsEntriesUsed := s.rsEntriesUsed - 1 }

def contentionIssue (cfg : RobConfig σ μ) (c : σ) (uop : DynamicMicroOp) : σ :=
  match cfg.contention with
  | some m => m.doIssue c uop
  | none => c

def issueInstruction (cfg : RobConfig σ μ) (now : Nat) (s : RobTimer μ) (c : σ) (i : Nat)
    (entry : RobEntry) : Except RobAbort (RobTimer μ × σ × Nat) := do
  let (s, uop) := s.access cfg entry.uop
  let s := (s.enterQueue now uop).storeIssued now uop
  let (cycleDepend, cycleDone) := completion now uop
  if uop.microOp.isStore && decide (entry.ready < entry.addressReady) then
    .error .storeAddressLate
  else
    let s := s.markIssued now i uop cycleDone
    let s ← entry.dependants.foldlM (wakeDependant uop.sequenceNumber cycleDepend) s
    let s := if uop.microOp.isBranch && uop.branchMispredicted then
        { s with frontendStalledUntil := ((now + (cfg.mispredictionPenalty - 2) : Nat) : Time) }
      else s
    return (s, contentionIssue cfg c uop, cycleDone)

/-- What is known on the way through the window. -/
structure Scan where
  numIssued : Nat
  headOfQueue : Bool
  noMoreLoad : Bool
  noMoreStore : Bool
  haveUnresolvedStore : Bool
  nextEvent : Time

def Scan.start : Scan := ⟨0, true, false, false, false, ⊤⟩

/-- Whether an entry can be issued, must wait, holds back all memory accesses behind it, or
ends the search. -/
inductive Verdict where
  | issue | wait | fence | stop
  deriving DecidableEq

def verdict (cfg : RobConfig σ μ) (now : Nat) (s : RobTimer μ) (scan : Scan) (entry : RobEntry) :
    Verdict :=
  let op := entry.uop.microOp
  if (now : Time) < entry.ready then .wait
  else if (scan.noMoreLoad && op.isLoad) || (scan.noMoreStore && op.isStore) then .wait
  else if op.isSerializing then
    if scan.headOfQueue && decide (s.lastStoreDone ≤ now) then .issue else .stop
  else if op.isMemBarrier then
    if scan.headOfQueue && decide (s.lastStoreDone ≤ now) then .issue else .fence
  else if cfg.contention.isNone && decide (scan.numIssued = cfg.dispatchWidth) then .wait
  else if op.isLoad && !s.loadQueue.hasFreeSlot now then .wait
  else if op.isLoad && cfg.noAddressDisambiguation && scan.haveUnresolvedStore then .wait
  else if op.isStore && (!scan.headOfQueue || !s.storeQueue.hasFreeSlot now) then .wait
  else .issue

def initCycle (cfg : RobConfig σ μ) (now : Nat) (c : σ) : σ :=
  match cfg.contention with
  | some m => m.initCycle now c
  | none => c

/-- The contention model has its say only about what can be issued otherwise. -/
def tryIssue (cfg : RobConfig σ μ) (c : σ) (v : Verdict) (uop : DynamicMicroOp) : Bool × σ :=
  if v = .issue then
    match cfg.contention with
    | some m => m.tryIssue c uop
    | none => (true, c)
  else (false, c)

/-- Nothing more can be issued in this cycle. -/
def exhausted (cfg : RobConfig σ μ) (scan : Scan) (c : σ) : Bool :=
  match cfg.contention with
  | some m => m.noMore c
  | none => decide (scan.numIssued = cfg.dispatchWidth)

def Scan.fence (scan : Scan) (v : Verdict) : Scan :=
  if v = .fence then { scan with noMoreLoad := true, noMoreStore := true } else scan

def Scan.blocked (scan : Scan) (now : Nat) (entry : RobEntry) : Scan :=
  { scan with
    headOfQueue := false
    haveUnresolvedStore := scan.haveUnresolvedStore ||
      (entry.uop.microOp.isStore && decide ((now : Time) < entry.addressReady)) }

/-- The loop of `doIssue` over the entries from a position on, so many of them. -/
def issueLoop (cfg : RobConfig σ μ) (now : Nat) :
    Nat → Nat → Scan → RobTimer μ → σ → Except RobAbort (RobTimer μ × σ × Time)
  | 0, _, scan, s, c => .ok (s, c, scan.nextEvent)
  | left + 1, i, scan, s, c =>
    match s.rob[i]? with
    | none => .error .noUops
    | some entry =>
      if entry.done ≠ ⊤ then
        issueLoop cfg now left (i + 1) { scan with nextEvent := min scan.nextEvent entry.done } s c
      else
        let scan := { scan with nextEvent := min scan.nextEvent entry.ready }
        let v := verdict cfg now s scan entry
        if v = .stop then .ok (s, c, scan.nextEvent)
        else
          let (canIssue, c) := tryIssue cfg c v entry.uop
          if canIssue then do
            let (s, c, done) ← issueInstruction cfg now s c i entry
            let scan := { scan with
              numIssued := scan.numIssued + 1
              nextEvent := min scan.nextEvent (done : Time) }
            if exhausted cfg scan c then .ok (s, c, scan.nextEvent)
            else issueLoop cfg now left (i + 1) scan s c
          else
            let scan := (scan.fence v).blocked now entry
            if cfg.inorder || exhausted cfg scan c then .ok (s, c, scan.nextEvent)
            else issueLoop cfg now left (i + 1) scan s c

def doIssue (cfg : RobConfig σ μ) (now : Nat) (s : RobTimer μ) (c : σ) :
    Except RobAbort (RobTimer μ × σ × Time) :=
  issueLoop cfg now s.numInRob 0 .start s (initCycle cfg now c)

/-! ### Commit -/

def commitEntry (now : Nat) (s : RobTimer μ) (entry : RobEntry) (rest : List RobEntry) :
    RobTimer μ :=
  { s with
    rob := rest
    numInRob := s.numInRob - 1
    instructionsExecuted :=
      if entry.uop.last then s.instructionsExecuted + 1 else s.instructionsExecuted
    trace := s.trace ++
      [⟨entry.uop.sequenceNumber, entry.dispatched, entry.issued, entry.done, now⟩] }

/-- The loop of `doCommit` over the buffer. -/
def commitLoop (cfg : RobConfig σ μ) (now : Nat) : List RobEntry → Nat → RobTimer μ → RobTimer μ
  | [], _, s => s
  | entry :: rest, committed, s =>
    if entry.done ≤ (now : Time) then
      let s := commitEntry now s entry rest
      if committed + 1 = cfg.commitWidth then s else commitLoop cfg now rest (committed + 1) s
    else s

def doCommit (cfg : RobConfig σ μ) (now : Nat) (s : RobTimer μ) : RobTimer μ × Time :=
  let s := commitLoop cfg now s.rob 0 s
  (s, match s.rob with
    | [] => ⊤
    | front :: _ => front.done)

/-! ### Cycles -/

/-- The stages of one cycle, and the next event. -/
def cycle (cfg : RobConfig σ μ) (now : Nat) (s : RobTimer μ) (c : σ) :
    Except RobAbort (RobTimer μ × σ × Time) := do
  let (s, nextDispatch) ← doDispatch cfg now s
  let (s, c, nextIssue) ← doIssue cfg now s c
  let (s, nextCommit) := doCommit cfg now s
  return (s, c, min nextDispatch (min nextIssue nextCommit))

/-- There are too few micro-operations to dispatch, and more are asked for. -/
def starved (cfg : RobConfig σ μ) (now : Nat) (s : RobTimer μ) : Bool :=
  decide (s.frontendStalledUntil ≤ (now : Time)) &&
    decide (s.rob.length < s.numInRob + 2 * cfg.dispatchWidth)

end RobTimer

/-- Whether cycles without events are skipped, or all are run one at a time. -/
inductive Mode where
  | skip | single
  deriving DecidableEq

/-- The clock after a cycle. -/
def Mode.next (mode : Mode) (now : Nat) (nextEvent : Time) : Nat :=
  match mode, nextEvent with
  | .skip, some event => if now + 1 < event then event else now + 1
  | _, _ => now + 1

/-- The whole timer. -/
structure RobState (σ μ : Type) where
  now : Nat
  timer : RobTimer μ
  contention : σ

namespace RobState

variable {σ μ : Type}

/-- `none` asks for more micro-operations. -/
def execute (cfg : RobConfig σ μ) (mode : Mode) (s : RobState σ μ) :
    Except RobAbort (Option (RobState σ μ)) :=
  if s.timer.starved cfg s.now then .ok none
  else do
    let (timer, contention, nextEvent) ← s.timer.cycle cfg s.now s.contention
    return some ⟨mode.next s.now nextEvent, timer, contention⟩

/-- The loop of `simulate`, with fuel. -/
def run (cfg : RobConfig σ μ) (mode : Mode) : Nat → RobState σ μ → Except RobAbort (RobState σ μ)
  | 0, _ => .error .outOfFuel
  | fuel + 1, s => do
    match ← s.execute cfg mode with
    | none => .ok s
    | some s => run cfg mode fuel s

def simulate (cfg : RobConfig σ μ) (mode : Mode) (fuel : Nat) (s : RobState σ μ)
    (insts : List DynamicMicroOp) : Except RobAbort (RobState σ μ) := do
  let timer ← insts.foldlM (RobTimer.enqueue cfg) s.timer
  run cfg mode fuel { s with timer := timer }

/-- A stream of micro-operations, as it comes. -/
def simulateAll (cfg : RobConfig σ μ) (mode : Mode) (fuel : Nat) (s : RobState σ μ)
    (stream : List (List DynamicMicroOp)) : Except RobAbort (RobState σ μ) :=
  stream.foldlM (simulate cfg mode fuel) s

/-- The timer before its first micro-operation. -/
def new (loads stores : Nat) (memory : μ) (contention : σ) : RobState σ μ where
  now := 0
  contention := contention
  timer := {
    rob := []
    numInRob := 0
    rsEntriesUsed := 0
    frontendStalledUntil := (0 : Nat)
    inIcacheMiss := false
    lastStoreDone := 0
    loadQueue := .new loads
    storeQueue := .new stores
    nextSequenceNumber := 0
    registerDependencies := .clear
    memoryDependencies := .clear
    memory := memory
    instructionsExecuted := 0
    trace := [] }

end RobState

end Sniper.Performance
