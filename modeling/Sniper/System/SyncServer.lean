import Sniper.Lib.Machine
import Sniper.System.ThreadManager
set_option autoImplicit false

/-! The mutexes and condition variables of the simulated program. -/

namespace Sniper.System
open Sniper.Lib

/-- The address of a `carbon_mutex_t` or a `carbon_cond_t`. -/
abbrev Addr := Nat

/-- `NO_OWNER` is `none`. -/
structure SimMutex where
  owner : Option ThreadId
  waiting : List ThreadId
  deriving DecidableEq

namespace SimMutex

def new : SimMutex := ⟨none, []⟩

/-- Owned by someone that is not this thread. -/
def isLocked (mutex : SimMutex) (thread : ThreadId) : Bool :=
  match mutex.owner with
  | none => false
  | some owner => owner != thread

end SimMutex

structure CondWaiter where
  thread : ThreadId
  mutex : Addr
  deriving DecidableEq

structure SimCond where
  waiting : List CondWaiter
  deriving DecidableEq

/-- The call a stalled thread is in: what it returns when it is resumed. -/
inductive Stalled where
  | mutexLock (mutex : Addr)
  | condWait (cond mutex : Addr)
  deriving DecidableEq

/-- The mutex the thread has when its call returns. -/
def Stalled.mutex : Stalled → Addr
  | .mutexLock mutex => mutex
  | .condWait _ mutex => mutex

/-- What happens to the objects, as it happens. -/
inductive SyncEvent where
  | stalled (thread : ThreadId) (mutex : Addr)
  | queued (mutex : Addr) (thread : ThreadId)
  | taken (mutex : Addr) (thread : ThreadId)
  | passed (mutex : Addr) (thread : ThreadId)
  | resumed (thread : ThreadId)
  deriving DecidableEq

/-- The server with the thread manager it works on. `inCall` holds the calls of the threads
that have not returned; the log is a history that no function reads. -/
structure SyncServer where
  mutexes : Addr → Option SimMutex
  conds : Addr → Option SimCond
  rescheduleCost : SubsecondTime
  threads : ThreadManager
  inCall : ThreadId → Option Stalled
  log : List SyncEvent

/-- The failures of the assertions. -/
inductive SyncError where
  | invalidMutex
  | notOwner
  | notInCall
  deriving DecidableEq

namespace SyncServer

def mutex (s : SyncServer) (mux : Addr) : SimMutex := (s.mutexes mux).getD .new

def cond (s : SyncServer) (cond : Addr) : SimCond := (s.conds cond).getD ⟨[]⟩

def setMutex (s : SyncServer) (mux : Addr) (mutex : SimMutex) : SyncServer :=
  { s with mutexes := Function.update s.mutexes mux (some mutex) }

def setCond (s : SyncServer) (c : Addr) (cond : SimCond) : SyncServer :=
  { s with conds := Function.update s.conds c (some cond) }

def getMutex (s : SyncServer) (mux : Addr) (canCreate : Bool) : Except SyncError SyncServer :=
  if (s.mutexes mux).isSome then .ok s
  else if canCreate then .ok (s.setMutex mux .new)
  else .error .invalidMutex

def getCond (s : SyncServer) (cond : Addr) : SyncServer :=
  if (s.conds cond).isSome then s else s.setCond cond ⟨[]⟩

def note (s : SyncServer) (event : SyncEvent) : SyncServer := { s with log := s.log ++ [event] }

/-- The thread stays in its call until it is resumed. -/
def stallThread (s : SyncServer) (thread : ThreadId) (reason : StallType) (call : Stalled) :
    SyncServer :=
  { s with
    threads := s.threads.stallThread thread reason
    inCall := Function.update s.inCall thread (some call) }.note (.stalled thread call.mutex)

def resumeThread (s : SyncServer) (thread : ThreadId) (time : SubsecondTime) : SyncServer :=
  { s with threads := s.threads.resumeThread thread time false }.note (.resumed thread)

/-- `SimMutex::lock`: the time when the thread owns the lock, unless it has to wait. -/
def lock (s : SyncServer) (mux : Addr) (thread : ThreadId) (time : SubsecondTime) :
    Option SubsecondTime × SyncServer :=
  match (s.mutex mux).owner with
  | none => (some time, (s.setMutex mux { s.mutex mux with owner := some thread }).note
      (.taken mux thread))
  | some _ =>
    (none, ((s.setMutex mux { s.mutex mux with waiting := (s.mutex mux).waiting ++ [thread] }).note
      (.queued mux thread)).stallThread thread .mutex (.mutexLock mux))

/-- `SimMutex::lock_async`: take the lock in the name of another thread. -/
def lockAsync (s : SyncServer) (mux : Addr) (thread : ThreadId) (time : SubsecondTime) :
    Bool × SyncServer :=
  match (s.mutex mux).owner with
  | none =>
    (true, ((s.setMutex mux { s.mutex mux with owner := some thread }).note
      (.taken mux thread)).resumeThread thread time)
  | some _ =>
    (false, (s.setMutex mux { s.mutex mux with waiting := (s.mutex mux).waiting ++ [thread] }).note
      (.queued mux thread))

/-- `SimMutex::unlock`: the next owner. -/
def unlock (s : SyncServer) (mux : Addr) (thread : ThreadId) (time : SubsecondTime) :
    Except SyncError (Option ThreadId × SyncServer) :=
  if (s.mutex mux).owner = some thread then
    match (s.mutex mux).waiting with
    | [] => .ok (none, s.setMutex mux ⟨none, []⟩)
    | waiter :: rest =>
      .ok (some waiter, ((s.setMutex mux ⟨some waiter, rest⟩).note
        (.passed mux waiter)).resumeThread waiter time)
  else .error .notOwner

/-- `SimCond::wait`. -/
def wait (s : SyncServer) (c : Addr) (thread : ThreadId) (time : SubsecondTime) (mux : Addr) :
    Except SyncError SyncServer := do
  let (_, s) ← s.unlock mux thread time
  let s := s.setCond c ⟨(s.cond c).waiting ++ [⟨thread, mux⟩]⟩
  return s.stallThread thread .cond (.condWait c mux)

/-- The waiter at the front goes for its mutex: the body of `signal` and of the loop of
`broadcast`. -/
def wakeFirst (s : SyncServer) (c : Addr) (woken : CondWaiter) (rest : List CondWaiter)
    (time : SubsecondTime) : Bool × SyncServer :=
  (s.setCond c ⟨rest⟩).lockAsync woken.mutex woken.thread time

/-- `SimCond::signal`: the thread that could grab its lock immediately. -/
def signal (s : SyncServer) (c : Addr) (time : SubsecondTime) : Option ThreadId × SyncServer :=
  match (s.cond c).waiting with
  | [] => (none, s)
  | woken :: rest =>
    match s.wakeFirst c woken rest time with
    | (true, s) => (some woken.thread, s)
    | (false, s) => (none, s)

/-- The loop of `SimCond::broadcast` over the waiters. -/
def wakeAll (s : SyncServer) (c : Addr) (time : SubsecondTime) : List CondWaiter → SyncServer
  | [] => s
  | woken :: rest => (s.wakeFirst c woken rest time).2.wakeAll c time rest

def broadcast (s : SyncServer) (c : Addr) (time : SubsecondTime) : SyncServer :=
  s.wakeAll c time (s.cond c).waiting

end SyncServer

/-- The calls of the threads; a thread that was resumed returns from the call it is in. -/
inductive SyncCall where
  | mutexInit (thread : ThreadId) (mux : Addr)
  | mutexLock (thread : ThreadId) (mux : Addr) (tryLock : Bool) (time : SubsecondTime)
  | mutexUnlock (thread : ThreadId) (mux : Addr) (time : SubsecondTime)
  | condInit (thread : ThreadId) (cond : Addr)
  | condWait (thread : ThreadId) (cond mux : Addr) (time : SubsecondTime)
  | condSignal (thread : ThreadId) (cond : Addr) (time : SubsecondTime)
  | condBroadcast (thread : ThreadId) (cond : Addr) (time : SubsecondTime)
  | returns (thread : ThreadId)
  deriving DecidableEq

inductive SyncAnswer where
  | inited
  | locked (time : SubsecondTime) (ok : Bool)
  | done (time : SubsecondTime)
  | stalls
  | returned (call : Stalled) (time : SubsecondTime)
  deriving DecidableEq

namespace SyncCall

def thread : SyncCall → ThreadId
  | .mutexInit t _ | .mutexLock t _ _ _ | .mutexUnlock t _ _ | .condInit t _ | .condWait t _ _ _
  | .condSignal t _ _ | .condBroadcast t _ _ | .returns t => t

end SyncCall

namespace SyncServer

def mutexInit (s : SyncServer) (mux : Addr) : Except SyncError (SyncAnswer × SyncServer) := do
  return (.inited, ← s.getMutex mux true)

def mutexLock (s : SyncServer) (thread : ThreadId) (mux : Addr) (tryLock : Bool)
    (time : SubsecondTime) : Except SyncError (SyncAnswer × SyncServer) := do
  let s ← s.getMutex mux true
  if tryLock && (s.mutex mux).isLocked thread then return (.locked time false, s)
  else
    match s.lock mux thread time with
    | (some timeEnd, s) => return (.locked (timeEnd + s.rescheduleCost) true, s)
    | (none, s) => return (.stalls, s)

def mutexUnlock (s : SyncServer) (thread : ThreadId) (mux : Addr) (time : SubsecondTime) :
    Except SyncError (SyncAnswer × SyncServer) := do
  let s ← s.getMutex mux false
  let (newOwner, s) ← s.unlock mux thread (time + s.rescheduleCost)
  return (.done (time + if newOwner = none then 0 else s.rescheduleCost), s)

def condWait (s : SyncServer) (thread : ThreadId) (c mux : Addr) (time : SubsecondTime) :
    Except SyncError (SyncAnswer × SyncServer) := do
  let s ← s.getMutex mux true
  let s ← (s.getCond c).wait c thread time mux
  return (.stalls, s)

def condSignal (s : SyncServer) (c : Addr) (time : SubsecondTime) : SyncAnswer × SyncServer :=
  (.done time, ((s.getCond c).signal c time).2)

def condBroadcast (s : SyncServer) (c : Addr) (time : SubsecondTime) : SyncAnswer × SyncServer :=
  (.done time, (s.getCond c).broadcast c time)

/-- The end of the call of a thread that was resumed. -/
def finish (s : SyncServer) (thread : ThreadId) : Except SyncError (SyncAnswer × SyncServer) :=
  let time := (s.threads.state thread).wakeupTime
  let s' := { s with inCall := Function.update s.inCall thread none }
  match s.inCall thread with
  | none => .error .notInCall
  | some (.mutexLock mux) => .ok (.returned (.mutexLock mux) (time + s.rescheduleCost), s')
  | some (.condWait c mux) => .ok (.returned (.condWait c mux) time, s')

def perform (s : SyncServer) : SyncCall → Except SyncError (SyncAnswer × SyncServer)
  | .mutexInit _ mux => s.mutexInit mux
  | .mutexLock thread mux tryLock time => s.mutexLock thread mux tryLock time
  | .mutexUnlock thread mux time => s.mutexUnlock thread mux time
  | .condInit _ c => .ok (.inited, s.getCond c)
  | .condWait thread c mux time => s.condWait thread c mux time
  | .condSignal _ c time => .ok (s.condSignal c time)
  | .condBroadcast _ c time => .ok (s.condBroadcast c time)
  | .returns thread => s.finish thread

/-- A server without objects, over threads of which none is stalled. -/
structure Fresh (s : SyncServer) : Prop where
  mutexes : s.mutexes = fun _ => none
  conds : s.conds = fun _ => none
  awake : ∀ thread, s.threads.isThreadStalled thread = false
  inCall : s.inCall = fun _ => none
  log : s.log = []

def machine : Machine SyncServer SyncCall SyncAnswer where
  init := Fresh
  step s call answer s' := s.perform call = .ok (answer, s')

/-- Only the holder unlocks a mutex or waits with it. -/
def respectsOwnership (s : SyncServer) : SyncCall → Bool
  | .mutexUnlock thread mux _ => (s.mutex mux).owner = some thread
  | .condWait thread _ mux _ => (s.mutex mux).owner = some thread
  | _ => true

/-- A running thread makes a call when it is in none, and returns when it is in one. -/
def ready (s : SyncServer) (call : SyncCall) : Bool :=
  s.threads.isThreadRunning call.thread &&
    match call with
    | .returns thread => (s.inCall thread).isSome
    | call => (s.inCall call.thread).isNone

def permitted (s : SyncServer) (call : SyncCall) : Bool := s.ready call && s.respectsOwnership call

end SyncServer

end Sniper.System
