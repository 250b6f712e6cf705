import Mathlib.Logic.Function.Basic
set_option autoImplicit false

/-! The thread manager: which threads run, and which are stalled and why. -/

namespace Sniper.System

/-- Threads are numbered in the order of their creation. -/
abbrev ThreadId := Nat

abbrev CoreId := Nat

abbrev SubsecondTime := Nat

/-- `Core::State`. -/
inductive CoreState where
  | running | initializing | stalled | sleeping | wakingUp | idle | broken
  deriving DecidableEq, Repr

inductive StallType where
  | unscheduled | broken | join | mutex | cond | barrier | futex | pause | sleep | syscall
  deriving DecidableEq, Repr

/-- What the manager and the `Thread` object record of a thread. -/
structure ThreadState where
  status : CoreState
  stalledReason : StallType
  wakeupTime : SubsecondTime
  wakeupMsg : Bool
  deriving DecidableEq

structure ThreadManager where
  state : ThreadId → ThreadState

namespace ThreadManager

variable {tm : ThreadManager} {thread other : ThreadId} {reason : StallType} {time : SubsecondTime}

def set (tm : ThreadManager) (thread : ThreadId) (st : ThreadState) : ThreadManager :=
  ⟨Function.update tm.state thread st⟩

def isThreadRunning (tm : ThreadManager) (thread : ThreadId) : Bool :=
  (tm.state thread).status = .running

def isThreadStalled (tm : ThreadManager) (thread : ThreadId) : Bool :=
  (tm.state thread).status = .stalled

/-- `stallThread_async`: the thread waits from here on. -/
def stallThread (tm : ThreadManager) (thread : ThreadId) (reason : StallType) : ThreadManager :=
  tm.set thread { tm.state thread with status := .stalled, stalledReason := reason }

/-- The thread is signalled the time to wake up, with a message, and runs. -/
def resumeThread (tm : ThreadManager) (thread : ThreadId) (time : SubsecondTime) (msg : Bool) :
    ThreadManager :=
  tm.set thread { tm.state thread with status := .running, wakeupTime := time, wakeupMsg := msg }

@[simp] theorem isThreadStalled_stallThread :
    (tm.stallThread thread reason).isThreadStalled other =
      (decide (other = thread) || tm.isThreadStalled other) := by
  by_cases h : other = thread <;> simp [isThreadStalled, stallThread, set, h]

@[simp] theorem isThreadRunning_stallThread :
    (tm.stallThread thread reason).isThreadRunning other =
      (!decide (other = thread) && tm.isThreadRunning other) := by
  by_cases h : other = thread <;> simp [isThreadRunning, stallThread, set, h]

@[simp] theorem isThreadStalled_resumeThread {msg : Bool} :
    (tm.resumeThread thread time msg).isThreadStalled other =
      (!decide (other = thread) && tm.isThreadStalled other) := by
  by_cases h : other = thread <;> simp [isThreadStalled, resumeThread, set, h]

@[simp] theorem isThreadRunning_resumeThread {msg : Bool} :
    (tm.resumeThread thread time msg).isThreadRunning other =
      (decide (other = thread) || tm.isThreadRunning other) := by
  by_cases h : other = thread <;> simp [isThreadRunning, resumeThread, set, h]

theorem not_stalled_of_running (h : tm.isThreadRunning thread = true) :
    tm.isThreadStalled thread = false := by
  simp_all [isThreadRunning, isThreadStalled]

end ThreadManager

end Sniper.System
