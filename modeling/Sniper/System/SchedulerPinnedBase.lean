import Sniper.Lib.Machine
import Sniper.System.ThreadManager
import Mathlib.Algebra.Group.Int.Defs
import Mathlib.Algebra.Group.Nat.Defs
import Mathlib.Data.List.FinRange
set_option autoImplicit false

/-! The pinned scheduler: threads that share cores in turns. -/

namespace Sniper.System.Scheduling
open Sniper.Lib

variable {n : Nat}

structure ThreadInfo (n : Nat) where
  hasAffinity : Bool
  explicitAffinity : Bool
  coreAffinity : Fin n → Bool
  coreRunning : Option (Fin n)
  lastScheduledIn : SubsecondTime
  lastScheduledOut : SubsecondTime

namespace ThreadInfo

def new : ThreadInfo n := ⟨false, false, fun _ => false, none, 0, 0⟩

def clearAffinity (info : ThreadInfo n) : ThreadInfo n :=
  { info with coreAffinity := fun _ => false }

def addAffinity (info : ThreadInfo n) (core : Fin n) : ThreadInfo n :=
  { info with coreAffinity := Function.update info.coreAffinity core true, hasAffinity := true }

def isRunning (info : ThreadInfo n) : Bool := info.coreRunning.isSome

end ThreadInfo

/-- A thread is placed on a core, with what the tables say about it just before. -/
structure Placement (n : Nat) where
  thread : ThreadId
  core : Fin n
  runnable : Bool
  wasOn : Option (Fin n)
  allowed : Bool
  deriving DecidableEq

/-- Which thread each core runs, and on which core each thread is recorded to run. -/
structure Tables (n : Nat) where
  coreThread : Fin n → Option ThreadId
  threadCore : ThreadId → Option (Fin n)

/-- The scheduler, with what the thread manager records of threads and cores. A vector is a
function and its size. The placements and the tables that each hook found are a history that no
function reads. -/
structure SchedulerPinnedBase (n : Nat) where
  quantum : SubsecondTime
  lastPeriodic : SubsecondTime
  threadInfo : ThreadId → ThreadInfo n
  threadInfoSize : Nat
  coreThreadRunning : Fin n → Option ThreadId
  quantumLeft : Fin n → SubsecondTime
  threadsRunnable : ThreadId → Bool
  threadsRunnableSize : Nat
  threads : ThreadManager
  numThreads : Nat
  core : ThreadId → Option (Fin n)
  coreState : Fin n → CoreState
  placements : List (Placement n)
  calls : List (Tables n)

inductive SchedulerError where
  | outOfRange
  | invalidThread
  | invalidCore
  | threadWithoutCore
  | outOfFuel
  deriving DecidableEq

namespace SchedulerPinnedBase

abbrev Result (n : Nat) := Except SchedulerError (SchedulerPinnedBase n)

/-- What a hook does with a thread at a time. -/
abbrev Hook (n : Nat) := SchedulerPinnedBase n → ThreadId → SubsecondTime → Result n

def tables (s : SchedulerPinnedBase n) : Tables n :=
  ⟨s.coreThreadRunning, fun thread => (s.threadInfo thread).coreRunning⟩

/-- A hook is called. -/
def called (s : SchedulerPinnedBase n) : SchedulerPinnedBase n :=
  { s with calls := s.calls ++ [s.tables] }

def setInfo (s : SchedulerPinnedBase n) (thread : ThreadId) (info : ThreadInfo n) :
    SchedulerPinnedBase n :=
  { s with threadInfo := Function.update s.threadInfo thread info }

def setCoreThread (s : SchedulerPinnedBase n) (core : Fin n) (thread : Option ThreadId) :
    SchedulerPinnedBase n :=
  { s with coreThreadRunning := Function.update s.coreThreadRunning core thread }

def setRunnable (s : SchedulerPinnedBase n) (thread : ThreadId) (runnable : Bool) :
    SchedulerPinnedBase n :=
  { s with threadsRunnable := Function.update s.threadsRunnable thread runnable }

def setStatus (s : SchedulerPinnedBase n) (thread : ThreadId) (status : CoreState) :
    SchedulerPinnedBase n :=
  { s with threads := s.threads.set thread { s.threads.state thread with status := status } }

def setCoreState (s : SchedulerPinnedBase n) (core : Fin n) (state : CoreState) :
    SchedulerPinnedBase n :=
  { s with coreState := Function.update s.coreState core state }

def setCore (s : SchedulerPinnedBase n) (thread : ThreadId) (core : Option (Fin n)) :
    SchedulerPinnedBase n :=
  { s with core := Function.update s.core thread core }

def setQuantumLeft (s : SchedulerPinnedBase n) (core : Fin n) (time : SubsecondTime) :
    SchedulerPinnedBase n :=
  { s with quantumLeft := Function.update s.quantumLeft core time }

def isThread (s : SchedulerPinnedBase n) (thread : ThreadId) : Bool := thread < s.numThreads

/-- The core that a thread leaves is idle. -/
def leaveCore (s : SchedulerPinnedBase n) (thread : ThreadId) : SchedulerPinnedBase n :=
  match s.core thread with
  | some old => s.setCoreState old .idle
  | none => s

/-- A thread without core is resumed, unless it was stalled for something else. -/
def wake (hookThreadResume : Hook n) (s : SchedulerPinnedBase n) (thread : ThreadId)
    (time : SubsecondTime) : Result n :=
  if s.core thread = none ∧ (s.threads.state thread).status = .stalled ∧
      (s.threads.state thread).stalledReason = .unscheduled then
    hookThreadResume { s with threads := s.threads.resumeThread thread time false } thread time
  else .ok s

def enterCore (s : SchedulerPinnedBase n) (thread : ThreadId) (core : Fin n) :
    SchedulerPinnedBase n :=
  if (s.threads.state thread).status ≠ .stalled then
    (s.setCore thread (some core)).setCoreState core .running
  else s.setCore thread (some core)

/-- `ThreadManager::moveThread`. -/
def moveThread (hookThreadResume : Hook n) (s : SchedulerPinnedBase n) (thread : ThreadId)
    (core : Option (Fin n)) (time : SubsecondTime) : Result n :=
  if !s.isThread thread then .error .invalidThread
  else match core with
    | none => .ok ((s.leaveCore thread).setCore thread none)
    | some c => do
      let s ← wake hookThreadResume (s.leaveCore thread) thread time
      return s.enterCore thread c

def findFreeCoreForThread (s : SchedulerPinnedBase n) (thread : ThreadId) : Option (Fin n) :=
  (List.finRange n).find? fun c =>
    (s.threadInfo thread).coreAffinity c && decide (s.coreThreadRunning c = none)

def getPS (time : SubsecondTime) : Nat := time / 1000

/-- A difference of unsigned 64-bit numbers, read as a signed one. -/
def signedDifference (a b : Nat) : Int := ((a : Int) - (b : Int)).bmod (2 ^ 64)

/-- Negative for a thread that runs, positive for one that waits. -/
def score (s : SchedulerPinnedBase n) (time : SubsecondTime) (thread : ThreadId) : Int :=
  let info := s.threadInfo thread
  if info.isRunning then signedDifference (getPS info.lastScheduledIn) (getPS time)
  else signedDifference (getPS time) (getPS info.lastScheduledOut)

/-- Allowed on the core, runnable, and not running somewhere else. -/
def eligible (s : SchedulerPinnedBase n) (core : Fin n) (thread : ThreadId) : Bool :=
  (s.threadInfo thread).coreAffinity core && s.threadsRunnable thread &&
    (!(s.threadInfo thread).isRunning || (s.threadInfo thread).coreRunning = some core)

/-- The loop of `reschedule` over the threads: the best thread and its score. -/
def choose (s : SchedulerPinnedBase n) (time : SubsecondTime) (core : Fin n) :
    Option ThreadId × Int :=
  (List.range s.threadsRunnableSize).foldl (fun best thread =>
    if s.eligible core thread && decide (s.score time thread > best.2) then
      (some thread, s.score time thread)
    else best) (none, -2 ^ 63)

def unscheduled (s : SchedulerPinnedBase n) (thread : ThreadId) (core : Fin n)
    (time : SubsecondTime) : SchedulerPinnedBase n :=
  s.setInfo thread { s.threadInfo thread with
    coreRunning := none
    lastScheduledOut := (time + 1000 * core) % 2 ^ 64 }

/-- A thread is placed on a core; a core it was running on is told. -/
def scheduled (s : SchedulerPinnedBase n) (thread : ThreadId) (core : Fin n)
    (time : SubsecondTime) : SchedulerPinnedBase n :=
  let info := s.threadInfo thread
  { s.setInfo thread { info with coreRunning := some core, lastScheduledIn := time } with
    coreThreadRunning := match info.coreRunning with
      | some old => Function.update s.coreThreadRunning old none
      | none => s.coreThreadRunning
    placements := s.placements ++
      [⟨thread, core, s.threadsRunnable thread, info.coreRunning, info.coreAffinity core⟩] }

/-- The thread that runs on a core, if one does, is unscheduled. -/
def unscheduleCurrent (hookThreadResume : Hook n) (s : SchedulerPinnedBase n)
    (time : SubsecondTime) (core : Fin n) : Result n :=
  match s.coreThreadRunning core with
  | some current => moveThread hookThreadResume (s.unscheduled current core time) current none time
  | none => .ok s

/-- The core is set to run the thread before the thread is moved. -/
def scheduleNew (hookThreadResume : Hook n) (s : SchedulerPinnedBase n) (time : SubsecondTime)
    (core : Fin n) (new : Option ThreadId) : Result n :=
  match new with
  | some thread =>
    moveThread hookThreadResume ((s.setCoreThread core new).scheduled thread core time) thread
      (some core) time
  | none => .ok (s.setCoreThread core new)

def exchange (hookThreadResume : Hook n) (s : SchedulerPinnedBase n) (time : SubsecondTime)
    (core : Fin n) (new : Option ThreadId) : Result n :=
  if s.coreThreadRunning core = new then .ok s
  else do
    let s ← unscheduleCurrent hookThreadResume s time core
    scheduleNew hookThreadResume s time core new

def reschedule (hookThreadResume : Hook n) (s : SchedulerPinnedBase n) (time : SubsecondTime)
    (core : Fin n) : Result n :=
  if (s.coreThreadRunning core).any fun t => (s.threads.state t).status = .initializing then .ok s
  else if s.threadInfoSize < s.threadsRunnableSize then .error .outOfRange
  else do
    let s ← exchange hookThreadResume s time core (s.choose time core).1
    return s.setQuantumLeft core s.quantum

/-- A thread goes to a free core, if there is one for it. -/
def scheduleFree (hookThreadResume : Hook n) (s : SchedulerPinnedBase n) (thread : ThreadId)
    (time : SubsecondTime) : Result n :=
  if s.threadInfoSize ≤ thread then .error .outOfRange
  else match s.findFreeCoreForThread thread with
    | some c => reschedule hookThreadResume s time c
    | none => .ok s

/-- A core whose thread no longer runs takes another one. -/
def scheduleNext (hookThreadResume : Hook n) (s : SchedulerPinnedBase n) (thread : ThreadId)
    (time : SubsecondTime) : Result n :=
  if s.threadInfoSize ≤ thread then .error .outOfRange
  else match (s.threadInfo thread).coreRunning with
    | some c => reschedule hookThreadResume s time c
    | none => .ok s

/-- `__threadResume` and `threadResume`, which are called again when a rescheduling resumes
another thread. -/
def hookThreadResume : Nat → Hook n
  | 0, _, _, _ => .error .outOfFuel
  | fuel + 1, s, thread, time =>
    let s := s.called
    if s.threadsRunnableSize ≤ thread then .error .outOfRange
    else scheduleFree (hookThreadResume fuel) (s.setRunnable thread true) thread time

/-- `ThreadManager::resumeThread`. -/
def resumeThread (fuel : Nat) (s : SchedulerPinnedBase n) (thread : ThreadId)
    (time : SubsecondTime) : Result n :=
  if !s.isThread thread then .error .invalidThread
  else
    hookThreadResume fuel { s with threads := s.threads.resumeThread thread time false } thread time

/-- The next thread, with room for it in the table. -/
def newThread (s : SchedulerPinnedBase n) : SchedulerPinnedBase n :=
  { (s.setStatus s.numThreads .initializing).called with
    numThreads := s.numThreads + 1
    threadInfoSize :=
      if s.threadInfoSize ≤ s.numThreads then s.threadInfoSize + 16 else s.threadInfoSize }

/-- `initial` is what the derived class sets as affinity of a thread that has none. -/
def threadSetInitialAffinity (s : SchedulerPinnedBase n) (thread : ThreadId)
    (initial : List (Fin n)) : SchedulerPinnedBase n :=
  let info := s.threadInfo thread
  if info.hasAffinity then s
  else s.setInfo thread (initial.foldl ThreadInfo.addAffinity info.clearAffinity)

/-- A thread that starts up has a core. -/
def createOn (s : SchedulerPinnedBase n) (thread : ThreadId) (core : Fin n) :
    SchedulerPinnedBase n :=
  let s := s.setInfo thread { s.threadInfo thread with coreRunning := some core }
  let s := (s.setCoreThread core (some thread)).setQuantumLeft core s.quantum
  (s.setCore thread (some core)).setCoreState core .initializing

/-- `ThreadManager::createThread`. -/
def threadCreate (s : SchedulerPinnedBase n) (initial : List (Fin n)) : Result n :=
  let thread := s.numThreads
  if s.newThread.threadInfoSize ≤ thread then .error .outOfRange
  else
    let s := s.newThread.threadSetInitialAffinity thread initial
    match s.findFreeCoreForThread thread with
    | some c => .ok (s.createOn thread c)
    | none => .ok (s.setInfo thread { s.threadInfo thread with coreRunning := none })

/-- A thread starts, with room for it in the table. -/
def startThread (s : SchedulerPinnedBase n) (thread : ThreadId) : SchedulerPinnedBase n :=
  { (s.setStatus thread .running).called with
    threadsRunnableSize :=
      if s.threadsRunnableSize ≤ thread then s.threadsRunnableSize + 16
      else s.threadsRunnableSize }

/-- A thread that has started runs if it has a core. -/
def started (s : SchedulerPinnedBase n) (thread : ThreadId) : SchedulerPinnedBase n :=
  match s.core thread with
  | some c => (s.setCoreState c .running).setStatus thread .running
  | none => { s with threads := s.threads.stallThread thread .unscheduled }

/-- `ThreadManager::onThreadStart`. -/
def threadStart (fuel : Nat) (s : SchedulerPinnedBase n) (thread : ThreadId)
    (time : SubsecondTime) : Result n :=
  if !s.isThread thread then .error .invalidThread
  else if (s.startThread thread).threadsRunnableSize ≤ thread then .error .outOfRange
  else do
    let s ← scheduleFree (hookThreadResume fuel) ((s.startThread thread).setRunnable thread true)
      thread time
    return s.started thread

/-- `ThreadManager::stallThread_async`. -/
def threadStall (fuel : Nat) (s : SchedulerPinnedBase n) (thread : ThreadId) (reason : StallType)
    (time : SubsecondTime) : Result n :=
  let s := { s with threads := s.threads.stallThread thread reason }.called
  if reason = .unscheduled then .ok s
  else if s.threadsRunnableSize ≤ thread then .error .outOfRange
  else scheduleNext (hookThreadResume fuel) (s.setRunnable thread false) thread time

/-- `ThreadManager::onThreadExit`, which resumes those who wait for the exit. -/
def threadExit (fuel : Nat) (s : SchedulerPinnedBase n) (thread : ThreadId)
    (waiters : List ThreadId) (time : SubsecondTime) : Result n :=
  match s.core thread with
  | none => .error .threadWithoutCore
  | some c => do
    let s ← waiters.foldlM (fun s waiter => s.resumeThread fuel waiter time)
      (s.setStatus thread .idle)
    let s := ((s.setCoreState c .idle).setCore thread none).called
    if s.threadsRunnableSize ≤ thread then .error .outOfRange
    else scheduleNext (hookThreadResume fuel) (s.setRunnable thread false) thread time

def threadYield (fuel : Nat) (s : SchedulerPinnedBase n) (thread : ThreadId)
    (time : SubsecondTime) : Result n :=
  if s.threadInfoSize ≤ thread then .error .outOfRange
  else match (s.threadInfo thread).coreRunning with
    | none => .ok s
    | some c => do
      let s ← reschedule (hookThreadResume fuel) (s.setQuantumLeft c 0) time c
      if (s.threadInfo thread).coreAffinity c then return s
      else scheduleFree (hookThreadResume fuel) s thread time

/-- A core of a mask; its number must be that of a core. -/
def addCpu (info : ThreadInfo n) (cpu : Nat) : Except SchedulerError (ThreadInfo n) :=
  if h : cpu < n then .ok (info.addAffinity ⟨cpu, h⟩) else .error .invalidCore

/-- `none` is no mask; otherwise the numbers of the bits that are set in it. -/
def setMask (s : SchedulerPinnedBase n) (thread : ThreadId) (mask : Option (List Nat)) : Result n :=
  let info := { s.threadInfo thread with explicitAffinity := true }
  match mask with
  | none => .ok (s.setInfo thread ((List.finRange n).foldl ThreadInfo.addAffinity info))
  | some cpus => do
    let info ← cpus.foldlM addCpu info.clearAffinity
    return s.setInfo thread info

/-- What becomes of a thread whose affinity has been set: the caller yields, a thread that runs
where it may not will be rescheduled soon, and one that waits may find a free core. -/
def applyAffinity (fuel : Nat) (s : SchedulerPinnedBase n) (caller : Option ThreadId)
    (thread : ThreadId) (time : SubsecondTime) : Result n :=
  let info := s.threadInfo thread
  if !s.isThread thread then .ok s
  else if caller = some thread then s.threadYield fuel thread time
  else match info.coreRunning with
    | some c =>
      if !info.coreAffinity c then .ok (s.setQuantumLeft c 0)
      else if s.threadsRunnableSize ≤ thread then .error .outOfRange
      else .ok s
    | none =>
      if s.threadsRunnableSize ≤ thread then .error .outOfRange
      else if s.threadsRunnable thread then scheduleFree (hookThreadResume fuel) s thread time
      else .ok s

def threadSetAffinity (fuel : Nat) (s : SchedulerPinnedBase n) (caller : Option ThreadId)
    (thread : ThreadId) (mask : Option (List Nat)) (time : SubsecondTime) : Result n := do
  let s ← { s.called with
    threadInfoSize := if s.threadInfoSize ≤ thread then thread + 16 else s.threadInfoSize
    }.setMask thread mask
  s.applyAffinity fuel caller thread time

/-- A difference of unsigned 64-bit times. -/
def elapsed (time last : SubsecondTime) : SubsecondTime := (time + 2 ^ 64 - last) % 2 ^ 64

/-- A core whose quantum is over, or that runs no thread, is rescheduled. -/
def periodicCore (fuel : Nat) (time delta : SubsecondTime) (s : SchedulerPinnedBase n)
    (core : Fin n) : Result n :=
  if delta > s.quantumLeft core ∨ s.coreThreadRunning core = none then
    reschedule (hookThreadResume fuel) s time core
  else .ok (s.setQuantumLeft core (s.quantumLeft core - delta))

def periodic (fuel : Nat) (s : SchedulerPinnedBase n) (time : SubsecondTime) : Result n := do
  let s ← (List.finRange n).foldlM (periodicCore fuel time (elapsed time s.lastPeriodic)) s.called
  return { s with lastPeriodic := time }

end SchedulerPinnedBase

inductive SchedulerStep (n : Nat) where
  | threadCreate (initial : List (Fin n))
  | threadStart (thread : ThreadId) (time : SubsecondTime)
  | threadStall (thread : ThreadId) (reason : StallType) (time : SubsecondTime)
  | threadResume (thread : ThreadId) (time : SubsecondTime)
  | threadExit (thread : ThreadId) (waiters : List ThreadId) (time : SubsecondTime)
  | threadYield (thread : ThreadId) (time : SubsecondTime)
  | threadSetAffinity (caller : Option ThreadId) (thread : ThreadId) (mask : Option (List Nat))
      (time : SubsecondTime)
  | periodic (time : SubsecondTime)
  deriving DecidableEq

namespace SchedulerPinnedBase

def perform (fuel : Nat) (s : SchedulerPinnedBase n) : SchedulerStep n → Result n
  | .threadCreate initial => s.threadCreate initial
  | .threadStart thread time => threadStart fuel s thread time
  | .threadStall thread reason time => threadStall fuel s thread reason time
  | .threadResume thread time => resumeThread fuel s thread time
  | .threadExit thread waiters time => threadExit fuel s thread waiters time
  | .threadYield thread time => threadYield fuel s.called thread time
  | .threadSetAffinity caller thread mask time => threadSetAffinity fuel s caller thread mask time
  | .periodic time => periodic fuel s time

/-- No thread has been created. -/
structure Fresh (s : SchedulerPinnedBase n) : Prop where
  threadInfo : s.threadInfo = fun _ => .new
  threadInfoSize : s.threadInfoSize = 0
  coreThreadRunning : s.coreThreadRunning = fun _ => none
  threadsRunnable : s.threadsRunnable = fun _ => false
  threadsRunnableSize : s.threadsRunnableSize = 16
  numThreads : s.numThreads = 0
  core : s.core = fun _ => none
  placements : s.placements = []
  calls : s.calls = []

def machine : Machine (SchedulerPinnedBase n) (SchedulerStep n) Unit where
  init := Fresh
  step s i _ s' := ∃ fuel, s.perform fuel i = .ok s'

end SchedulerPinnedBase

end Sniper.System.Scheduling
