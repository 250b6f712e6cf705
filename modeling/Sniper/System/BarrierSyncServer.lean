import Sniper.Lib.Machine
import Sniper.System.ThreadManager
import Mathlib.Data.List.FinRange
set_option autoImplicit false

/-! The barrier that keeps the clocks of the cores together. -/

namespace Sniper.System.Barrier
open Sniper.Lib

variable {n : Nat}

/-- What happens to the cores at the barrier, as it happens. -/
inductive BarrierEvent (n : Nat) where
  | arrives (core : Fin n)
  | released (core : Fin n) (localClock nextBarrierTime : SubsecondTime)
  | passes (core : Fin n)
  | signals (core : Fin n)
  deriving DecidableEq

/-- The server, with the cores that run a running thread. `hostCores` is `none` when there is no
limit; the log is a history that no function reads. -/
structure BarrierSyncServer (n : Nat) where
  barrierInterval : SubsecondTime
  nextBarrierTime : SubsecondTime
  localClock : Fin n → SubsecondTime
  acquire : Fin n → Bool
  toRelease : List (Fin n)
  coreGroup : Fin n → Option (Fin n)
  coreThread : Fin n → Option ThreadId
  globalTime : SubsecondTime
  fastforward : Bool
  disable : Bool
  hostCores : Option Nat
  running : Fin n → Bool
  log : List (BarrierEvent n)

/-- What the thread manager and the scheduler do. `running` tells which cores run afterwards. -/
inductive Move (n : Nat) where
  | resume (running : Fin n → Bool)
  | migrate (thread : ThreadId) (running : Fin n → Bool)

/-- What can happen between the calls of the barrier, and in a periodic event. -/
inductive Action (n : Nat) where
  | move (m : Move n)
  | setDisable (disable : Bool)
  | setFastForward (fastforward : Bool) (nextBarrierTime : Option SubsecondTime)
  | release

/-- What the periodic events of one release do, the first, the second and so on; whether a thread
runs or will time out after them; and the order in which cores are released. -/
structure Hooks (n : Nat) where
  actions : Nat → List (Action n)
  anyThreadRunning : Nat → Bool
  timeoutPending : Nat → Bool
  shuffle : List (Fin n) → List (Fin n)
  shuffle_perm : ∀ l, (shuffle l).Perm l

inductive BarrierError where
  | alreadyInBarrier
  | notAllReleased
  | deadlocked
  | outOfFuel
  deriving DecidableEq

namespace BarrierSyncServer

def note (s : BarrierSyncServer n) (events : List (BarrierEvent n)) : BarrierSyncServer n :=
  { s with log := s.log ++ events }

/-- The core at the back of the list is signalled, so many times. -/
def releaseBack (s : BarrierSyncServer n) : Nat → BarrierSyncServer n
  | 0 => s
  | k + 1 =>
    match s.toRelease.getLast? with
    | none => s
    | some core =>
      ({ s with toRelease := s.toRelease.dropLast }.note [.signals core]).releaseBack k

/-- `none` releases all. -/
def doRelease (s : BarrierSyncServer n) : Option Nat → BarrierSyncServer n
  | none => s.releaseBack s.toRelease.length
  | some k => s.releaseBack k

/-- A waiting thread is released by the next release, whatever its time. -/
def releaseThread (s : BarrierSyncServer n) (thread : ThreadId) : BarrierSyncServer n :=
  { s with localClock := fun c =>
      if s.acquire c ∧ s.coreThread c = some thread then 0 else s.localClock c }.doRelease (some 1)

def isCoreRunning (s : BarrierSyncServer n) (core : Fin n) : Bool :=
  s.running core ||
    (!s.fastforward && (List.finRange n).any fun c => s.coreGroup c = some core && s.running c)

/-- The loop of `isBarrierReached` over the cores. -/
def scan (s : BarrierSyncServer n) : List (Fin n) → Bool → Bool
  | [], reached => reached
  | c :: cs, reached =>
    if s.fastforward then
      if s.acquire c then s.scan cs true
      else if s.isCoreRunning c then false
      else s.scan cs reached
    else if s.coreGroup c ≠ none then s.scan cs reached
    else if s.isCoreRunning c then
      if s.localClock c < s.nextBarrierTime then false else s.scan cs true
    else s.scan cs reached

def isBarrierReached (s : BarrierSyncServer n) : Bool := s.scan (List.finRange n) false

def abortBarrier (s : BarrierSyncServer n) : BarrierSyncServer n :=
  { s with acquire := fun _ => false }.note
    (((List.finRange n).filter s.acquire).map BarrierEvent.signals)

def setDisable (s : BarrierSyncServer n) (disable : Bool) : BarrierSyncServer n :=
  let s := { s with disable := disable }
  if disable then s.abortBarrier else s

def setFastForward (s : BarrierSyncServer n) (fastforward : Bool)
    (nextBarrierTime : Option SubsecondTime) : BarrierSyncServer n :=
  { s with
    fastforward := fastforward
    nextBarrierTime := max s.nextBarrierTime (nextBarrierTime.getD 0) }

def moves (s : BarrierSyncServer n) : Move n → BarrierSyncServer n
  | .resume running => { s with running := running }
  | .migrate thread running => { s with running := running }.releaseThread thread

def act (s : BarrierSyncServer n) : Action n → BarrierSyncServer n
  | .move m => s.moves m
  | .setDisable disable => s.setDisable disable
  | .setFastForward fastforward next => s.setFastForward fastforward next
  | .release => s.abortBarrier

/-- The waiting cores whose time is below the barrier. -/
def due (s : BarrierSyncServer n) : List (Fin n) :=
  (List.finRange n).filter fun c => s.localClock c < s.nextBarrierTime && s.acquire c

/-- The loop over the cores of one round of `barrierRelease`; the caller does not wait. -/
def releaseDue (s : BarrierSyncServer n) (caller : Option ThreadId) : BarrierSyncServer n :=
  { s with
    acquire := fun c => s.acquire c && !(s.localClock c < s.nextBarrierTime)
    toRelease := s.toRelease ++ s.due.filter fun c => s.coreThread c ≠ caller }.note
    (s.due.map (fun c => BarrierEvent.released c (s.localClock c) s.nextBarrierTime) ++
      (s.due.filter fun c => s.coreThread c = caller).map BarrierEvent.passes)

/-- A round up to the point where the barrier moves on: the periodic event. -/
def periodic (s : BarrierSyncServer n) (hooks : Hooks n) (k : Nat) : BarrierSyncServer n :=
  (hooks.actions k).foldl act { s with globalTime := s.nextBarrierTime }

def bump (s : BarrierSyncServer n) : BarrierSyncServer n :=
  { s with nextBarrierTime := s.nextBarrierTime + s.barrierInterval }

/-- Only so many cores are released at a time, except in fast-forward mode. -/
def throttle (s : BarrierSyncServer n) (hooks : Hooks n) : BarrierSyncServer n :=
  { s with toRelease := hooks.shuffle s.toRelease }.doRelease
    (if s.fastforward then none else s.hostCores)

/-- The loop of `barrierRelease`: whether the caller must wait. -/
def releaseLoop (caller : Option ThreadId) (continueUntilRelease : Bool) (hooks : Hooks n) :
    Nat → Nat → BarrierSyncServer n → Except BarrierError (Bool × BarrierSyncServer n)
  | 0, _, _ => .error .outOfFuel
  | fuel + 1, k, s =>
    let s := s.periodic hooks k
    if continueUntilRelease && hooks.anyThreadRunning k then .ok (false, s)
    else if continueUntilRelease && !hooks.timeoutPending k then .error .deadlocked
    else if s.disable then .ok (false, s)
    else
      let s := s.bump
      if s.due = [] then releaseLoop caller continueUntilRelease hooks fuel (k + 1) s
      else
        let mustWait := !(s.due.any fun c => s.coreThread c = caller)
        .ok (mustWait, (s.releaseDue caller).throttle hooks)

/-- The latest of a time and the times of the cores. -/
def latest (s : BarrierSyncServer n) (time : SubsecondTime) : SubsecondTime :=
  (List.finRange n).foldl (fun next c => if s.localClock c > next then s.localClock c else next) time

/-- In fast-forward mode, skip over time slots. -/
def skip (s : BarrierSyncServer n) : BarrierSyncServer n :=
  if s.fastforward then { s with nextBarrierTime := s.latest s.nextBarrierTime } else s

def barrierRelease (s : BarrierSyncServer n) (fuel : Nat) (caller : Option ThreadId)
    (continueUntilRelease : Bool) (hooks : Hooks n) :
    Except BarrierError (Bool × BarrierSyncServer n) :=
  if s.toRelease ≠ [] then .error .notAllReleased
  else releaseLoop caller continueUntilRelease hooks fuel 0 s.skip

/-- Not when disabled. -/
def signal (s : BarrierSyncServer n) (fuel : Nat) (hooks : Hooks n) :
    Except BarrierError (BarrierSyncServer n) :=
  if s.disable then .ok s
  else if s.isBarrierReached then do
    let (_, s) ← s.barrierRelease fuel none false hooks
    return s
  else .ok s

/-- The core in whose name a core waits. -/
def master (s : BarrierSyncServer n) (core : Fin n) : Fin n :=
  if s.fastforward then core else (s.coreGroup core).getD core

/-- A core enters the barrier. -/
def arrive (s : BarrierSyncServer n) (master : Fin n) (thread : ThreadId) (time : SubsecondTime) :
    BarrierSyncServer n :=
  let s := s.doRelease (some 1)
  { s with
    localClock := Function.update s.localClock master time
    acquire := Function.update s.acquire master true
    coreThread := Function.update s.coreThread master (some thread) }.note [.arrives master]

/-- Whether the core has to wait. -/
def synchronize (s : BarrierSyncServer n) (fuel : Nat) (core : Fin n) (thread : ThreadId)
    (time : SubsecondTime) (hooks : Hooks n) : Except BarrierError (Bool × BarrierSyncServer n) :=
  if s.disable then .ok (false, s)
  else if s.acquire (s.master core) then .error .alreadyInBarrier
  else if time < s.nextBarrierTime && !s.fastforward then .ok (false, s)
  else
    let s := s.arrive (s.master core) thread time
    if s.isBarrierReached then s.barrierRelease fuel (some thread) false hooks
    else .ok (true, s)

/-- `threadStall`, and `threadExit` alike: the cores that still run are known, the scheduler has
made its moves, then the barrier is told. -/
def threadStall (s : BarrierSyncServer n) (fuel : Nat) (thread : ThreadId) (running : Fin n → Bool)
    (ms : List (Move n)) (hooks : Hooks n) : Except BarrierError (BarrierSyncServer n) :=
  ((ms.foldl moves { s with running := running }).releaseThread thread).signal fuel hooks

def advance (s : BarrierSyncServer n) (fuel : Nat) (hooks : Hooks n) :
    Except BarrierError (Bool × BarrierSyncServer n) :=
  s.barrierRelease fuel none true hooks

end BarrierSyncServer

inductive BarrierStep (n : Nat) where
  | synchronize (core : Fin n) (thread : ThreadId) (time : SubsecondTime) (hooks : Hooks n)
  | threadStall (thread : ThreadId) (running : Fin n → Bool) (ms : List (Move n)) (hooks : Hooks n)
  | threadExit (thread : ThreadId) (running : Fin n → Bool) (ms : List (Move n)) (hooks : Hooks n)
  | advance (hooks : Hooks n)
  | action (a : Action n)

namespace BarrierSyncServer

/-- The answer tells whether the caller must wait. -/
def perform (s : BarrierSyncServer n) (fuel : Nat) :
    BarrierStep n → Except BarrierError (Bool × BarrierSyncServer n)
  | .synchronize core thread time hooks => s.synchronize fuel core thread time hooks
  | .threadStall thread running ms hooks | .threadExit thread running ms hooks => do
    return (false, ← s.threadStall fuel thread running ms hooks)
  | .advance hooks => s.advance fuel hooks
  | .action a => .ok (false, s.act a)

/-- Nobody is at the barrier. -/
structure Fresh (s : BarrierSyncServer n) : Prop where
  interval : 0 < s.barrierInterval
  next : s.nextBarrierTime = s.barrierInterval
  clock : s.localClock = fun _ => 0
  acquire : s.acquire = fun _ => false
  toRelease : s.toRelease = []
  thread : s.coreThread = fun _ => none
  fastforward : s.fastforward = false
  disable : s.disable = false
  log : s.log = []

def machine : Machine (BarrierSyncServer n) (BarrierStep n) Bool where
  init := Fresh
  step s i answer s' := ∃ fuel, s.perform fuel i = .ok (answer, s')

/-- At most one core stops running. -/
def StopsOne (running running' : Fin n → Bool) : Prop :=
  ∀ a b, running a = true → running' a = false → running b = true → running' b = false → a = b

/-- Threads are resumed, or one is moved. -/
def Move.Legal (running : Fin n → Bool) : Move n → Prop
  | .resume running' => ∀ c, running c = true → running' c = true
  | .migrate _ running' => StopsOne running running'

def Move.after : Move n → (Fin n → Bool)
  | .resume running' => running'
  | .migrate _ running' => running'

def LegalMoves : (Fin n → Bool) → List (Move n) → Prop
  | _, [] => True
  | running, m :: ms => Move.Legal running m ∧ LegalMoves (Move.after m) ms

/-- What the callers of the barrier do: a thread that waits makes no call, one that stalls or
exits stops its core, and the barrier is advanced when no thread runs. -/
def Permitted (s : BarrierSyncServer n) : BarrierStep n → Prop
  | .synchronize _ thread _ _ => ∀ c, s.acquire c = true → s.coreThread c ≠ some thread
  | .threadStall _ running ms _ | .threadExit _ running ms _ =>
    StopsOne s.running running ∧ LegalMoves running ms
  | .advance _ => ∀ c, s.running c = false
  | .action (.move m) => Move.Legal s.running m
  | .action _ => True

end BarrierSyncServer

end Sniper.System.Barrier
