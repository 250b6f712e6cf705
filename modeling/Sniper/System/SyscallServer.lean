import Mathlib.Algebra.Group.Nat.Defs
import Sniper.Lib.Machine
import Sniper.System.ThreadManager
set_option autoImplicit false

/-! The futex calls of the simulated program. -/

namespace Sniper.System.Syscall
open Sniper.Lib

/-- `int *`, and the physical addresses it is translated to. -/
abbrev Addr := Nat

/-- The `int` of the system call. -/
abbrev CInt := BitVec 32

def FUTEX_CMD_MASK : CInt := 0x7f
def FUTEX_PRIVATE_FLAG : CInt := 128
def FUTEX_BITSET_MATCH_ANY : CInt := 0xffffffff
def EWOULDBLOCK : Int := 11
def ETIMEDOUT : Int := 110

def MaxTime : SubsecondTime := 2 ^ 64 - 1

/-- The commands that are handled. -/
inductive FutexCmd where
  | wait | wake | cmpRequeue | wakeOp | waitBitset | wakeBitset
  deriving DecidableEq, Repr

def FutexCmd.ofOp (op : CInt) : Option FutexCmd :=
  match (op &&& FUTEX_CMD_MASK &&& ~~~FUTEX_PRIVATE_FLAG).toNat with
  | 0 => some .wait
  | 1 => some .wake
  | 4 => some .cmpRequeue
  | 5 => some .wakeOp
  | 9 => some .waitBitset
  | 10 => some .wakeBitset
  | _ => none

structure Timespec where
  sec : BitVec 64
  nsec : BitVec 64
  deriving DecidableEq

structure FutexArgs where
  uaddr : Addr
  op : CInt
  val : CInt
  timeout : Option Timespec
  val2 : CInt
  uaddr2 : Addr
  val3 : CInt
  deriving DecidableEq

/-- What does not change during a run: the translation of addresses, and two parameters of the
configuration. -/
structure SyscallEnv where
  va2pa : ThreadId → Addr → Addr
  osEmuTimeStart : BitVec 64
  rescheduleCost : SubsecondTime

/-- A futex call, with the values it reads from memory at `uaddr` and, for `FUTEX_WAKE_OP`, at
`uaddr2`; `executed` tells whether the core has executed any instruction. -/
structure FutexCall where
  thread : ThreadId
  args : FutexArgs
  actVal : CInt
  oldVal : CInt
  executed : Bool
  currTime : SubsecondTime
  deriving DecidableEq

structure Waiter where
  thread : ThreadId
  mask : CInt
  timeout : SubsecondTime
  deriving DecidableEq

/-- `m_sleeping`, and the futexes. -/
inductive Place where
  | sleeping
  | futex (addr : Addr)
  deriving DecidableEq

inductive WaitEvent where
  | stalled (thread : ThreadId)
  | resumed (place : Place) (thread : ThreadId) (msg : Bool)
  deriving DecidableEq

/-- The server with the thread manager it works on. `inCall` holds the calls of the threads that
have not returned, `keys` the addresses that `m_futexes` has an entry for; the log is a history
that no function reads. -/
structure SyscallServer where
  sleeping : List Waiter
  futexes : Addr → List Waiter
  keys : List Addr
  threads : ThreadManager
  inCall : ThreadId → Option Place
  log : List WaitEvent

inductive SyscallError where
  | unknownCmd
  | unknownOp
  | sameAddress
  | requeueLoop
  | notInCall
  deriving DecidableEq

inductive SyscallAnswer where
  | returned (res : Int) (endTime : SubsecondTime)
  | stalls
  | slept (endTime : SubsecondTime)
  | done
  deriving DecidableEq

/-- `futexDoOp`: the new value at the address, and whether the old one passes the test. -/
def futexDoOp (encodedOp oldval : CInt) : Except SyscallError (CInt × Bool) := do
  let op := ((encodedOp >>> 28) &&& 7).toNat
  let cmp := ((encodedOp >>> 24) &&& 15).toNat
  let oparg := (encodedOp <<< 8).sshiftRight 20
  let cmparg := (encodedOp <<< 20).sshiftRight 20
  -- the shift count is taken modulo the width
  let oparg : CInt := if encodedOp.getLsbD 31 then (1 : CInt) <<< (oparg.toNat % 32) else oparg
  let newval ← match op with
    | 0 => .ok oparg
    | 1 => .ok (oldval + oparg)
    | 2 => .ok (oldval ||| oparg)
    | 3 => .ok (oldval &&& ~~~oparg)
    | 4 => .ok (oldval ^^^ oparg)
    | _ => .error .unknownOp
  let ret ← match cmp with
    | 0 => .ok (oldval == cmparg)
    | 1 => .ok (oldval != cmparg)
    | 2 => .ok (oldval.slt cmparg)
    | 3 => .ok (oldval.sle cmparg)
    | 4 => .ok (cmparg.slt oldval)
    | 5 => .ok (cmparg.sle oldval)
    | _ => .error .unknownOp
  return (newval, ret)

namespace SyscallServer

variable (env : SyscallEnv)

/-- The stalled thread stays in its call until it is resumed. -/
def stallThread (s : SyscallServer) (thread : ThreadId) (reason : StallType) (place : Place) :
    SyscallServer :=
  { s with
    threads := s.threads.stallThread thread reason
    inCall := Function.update s.inCall thread (some place)
    log := s.log ++ [.stalled thread] }

def resumeThread (s : SyscallServer) (place : Place) (thread : ThreadId) (time : SubsecondTime)
    (msg : Bool) : SyscallServer :=
  { s with
    threads := s.threads.resumeThread thread time msg
    log := s.log ++ [.resumed place thread msg] }

def setFutex (s : SyscallServer) (addr : Addr) (waiting : List Waiter) : SyscallServer :=
  { s with futexes := Function.update s.futexes addr waiting }

/-- `m_futexes[address]`, which makes an entry where there is none. -/
def findFutexByUaddr (s : SyscallServer) (uaddr : Addr) (thread : ThreadId) :
    Addr × SyscallServer :=
  let address := env.va2pa thread uaddr
  (address, if address ∈ s.keys then s else { s with keys := s.keys ++ [address] })

def applyRescheduleCost (executed conditional : Bool) : SubsecondTime :=
  if !conditional then 0 else if !executed then 0 else env.rescheduleCost

/-- `SimFutex::enqueueWaiter`. -/
def enqueueWaiter (s : SyscallServer) (addr : Addr) (waiter : Waiter) : SyscallServer :=
  (s.setFutex addr (s.futexes addr ++ [waiter])).stallThread waiter.thread .futex (.futex addr)

/-- `SimFutex::dequeueWaiter`: the first waiter whose mask meets the given one. -/
def dequeueWaiter (s : SyscallServer) (addr : Addr) (mask : CInt) (time : SubsecondTime) :
    Option ThreadId × SyscallServer :=
  match (s.futexes addr).find? fun w => mask &&& w.mask ≠ 0 with
  | none => (none, s)
  | some w =>
    (some w.thread, (s.setFutex addr ((s.futexes addr).eraseP fun w => mask &&& w.mask ≠ 0)).resumeThread
      (.futex addr) w.thread time true)

/-- `SimFutex::requeueWaiter`. -/
def requeueWaiter (s : SyscallServer) (addr addr2 : Addr) : Option ThreadId × SyscallServer :=
  match s.futexes addr with
  | [] => (none, s)
  | w :: rest =>
    let s := s.setFutex addr rest
    (some w.thread, s.setFutex addr2 (s.futexes addr2 ++ [w]))

/-- `SimFutex::wakeTimedOut`: at most one waiter, the first whose time has come. -/
def wakeTimedOut (s : SyscallServer) (addr : Addr) (time : SubsecondTime) : SyscallServer :=
  match (s.futexes addr).find? fun w => w.timeout ≤ time with
  | none => s
  | some w =>
    (s.setFutex addr ((s.futexes addr).eraseP fun w => w.timeout ≤ time)).resumeThread
      (.futex addr) w.thread time false

/-- The loop that wakes up to so many waiters, and how many there were. -/
def wakeLoop (s : SyscallServer) (addr : Addr) (mask : CInt) (time : SubsecondTime) :
    Nat → Nat × SyscallServer
  | 0 => (0, s)
  | n + 1 =>
    match s.dequeueWaiter addr mask time with
    | (none, s) => (0, s)
    | (some _, s) => ((s.wakeLoop addr mask time n).1 + 1, (s.wakeLoop addr mask time n).2)

/-- The number of rounds of `for (int i = 0; i < nr; i++)`. -/
def rounds (nr : CInt) : Nat := nr.toInt.toNat

def futexWait (s : SyscallServer) (thread : ThreadId) (uaddr : Addr) (val actVal mask : CInt)
    (currTime timeoutTime : SubsecondTime) : SyscallAnswer × SyscallServer :=
  let (addr, s) := s.findFutexByUaddr env uaddr thread
  if val ≠ actVal then (.returned (-EWOULDBLOCK) currTime, s)
  else (.stalls, s.enqueueWaiter addr ⟨thread, mask, timeoutTime⟩)

def futexWake (s : SyscallServer) (thread : ThreadId) (uaddr : Addr) (nrWake mask : CInt)
    (executed : Bool) (currTime : SubsecondTime) : SyscallAnswer × SyscallServer :=
  let (addr, s) := s.findFutexByUaddr env uaddr thread
  let (woken, s) := s.wakeLoop addr mask (currTime + applyRescheduleCost env executed true)
    (rounds nrWake)
  (.returned woken (currTime + applyRescheduleCost env executed (decide (0 < woken))), s)

def futexWakeOp (s : SyscallServer) (thread : ThreadId) (uaddr uaddr2 : Addr)
    (nrWake nrWake2 op oldval : CInt) (executed : Bool) (currTime : SubsecondTime) :
    Except SyscallError (SyscallAnswer × SyscallServer) := do
  let (addr, s) := s.findFutexByUaddr env uaddr thread
  let (addr2, s) := s.findFutexByUaddr env uaddr2 thread
  let (_, opRet) ← futexDoOp op oldval
  let time := currTime + applyRescheduleCost env executed true
  let (woken, s) := s.wakeLoop addr FUTEX_BITSET_MATCH_ANY time (rounds nrWake)
  let (woken2, s) := s.wakeLoop addr2 FUTEX_BITSET_MATCH_ANY time
    (if opRet then rounds nrWake2 else 0)
  return (.returned (woken + woken2 : Nat)
    (currTime + applyRescheduleCost env executed (decide (0 < woken + woken2))), s)

/-- The loop that moves waiters as long as there is one, for at most `fuel` rounds. -/
def requeueLoop (s : SyscallServer) (addr addr2 : Addr) : Nat → Option SyscallServer
  | 0 => none
  | fuel + 1 =>
    match s.requeueWaiter addr addr2 with
    | (none, s) => some s
    | (some _, s) => s.requeueLoop addr addr2 fuel

def futexCmpRequeue (s : SyscallServer) (thread : ThreadId) (uaddr : Addr) (val : CInt)
    (uaddr2 : Addr) (val3 actVal : CInt) (currTime : SubsecondTime) :
    Except SyscallError (SyscallAnswer × SyscallServer) :=
  let (addr, s) := s.findFutexByUaddr env uaddr thread
  if val3 ≠ actVal then .ok (.returned (-EWOULDBLOCK) currTime, s)
  else
    let (woken, s) := s.wakeLoop addr FUTEX_BITSET_MATCH_ANY currTime (rounds val)
    let (addr2, s) := s.findFutexByUaddr env uaddr2 thread
    -- one round for each waiter and one that finds none: a loop that needs more never ends
    match s.requeueLoop addr addr2 ((s.futexes addr).length + 1) with
    | none => .error .requeueLoop
    | some s => .ok (.returned woken currTime, s)

/-- The time given to a waiting call, in femtoseconds, modulo the width. -/
def timeoutTime (cmd : FutexCmd) (timeout : Option Timespec) (currTime : SubsecondTime) :
    SubsecondTime :=
  match timeout with
  | none => MaxTime
  | some ts =>
    let timeoutVal := ((ts.sec - env.osEmuTimeStart) * BitVec.ofNat 64 (10 ^ 15) +
      ts.nsec * BitVec.ofNat 64 (10 ^ 6)).toNat
    if cmd = .waitBitset then timeoutVal else (currTime + timeoutVal) % 2 ^ 64

def handleFutexCall (s : SyscallServer) (c : FutexCall) :
    Except SyscallError (SyscallAnswer × SyscallServer) :=
  let args := c.args
  match FutexCmd.ofOp args.op with
  | none => .error .unknownCmd
  | some cmd =>
    match cmd with
    | .wait | .waitBitset =>
      .ok (s.futexWait env c.thread args.uaddr args.val c.actVal
        (if cmd = .waitBitset then args.val3 else FUTEX_BITSET_MATCH_ANY) c.currTime
        (timeoutTime env cmd args.timeout c.currTime))
    | .wake | .wakeBitset =>
      -- the command is compared with FUTEX_WAIT_BITSET here as well
      .ok (s.futexWake env c.thread args.uaddr args.val
        (if cmd = .waitBitset then args.val3 else FUTEX_BITSET_MATCH_ANY) c.executed c.currTime)
    | .wakeOp =>
      s.futexWakeOp env c.thread args.uaddr args.uaddr2 args.val args.val2 args.val3 c.oldVal
        c.executed c.currTime
    | .cmpRequeue =>
      if args.uaddr = args.uaddr2 then .error .sameAddress
      else s.futexCmpRequeue env c.thread args.uaddr args.val args.uaddr2 args.val3 c.actVal
        c.currTime

def handleSleepCall (s : SyscallServer) (thread : ThreadId) (wakeTime : SubsecondTime) :
    SyscallAnswer × SyscallServer :=
  let waiter : Waiter := ⟨thread, 0, wakeTime⟩
  (.stalls, { s with sleeping := s.sleeping ++ [waiter] }.stallThread thread .sleep .sleeping)

/-- At most one sleeper is woken. -/
def wakeSleeping (s : SyscallServer) (time : SubsecondTime) : SyscallServer :=
  match s.sleeping.find? fun w => w.timeout ≤ time with
  | none => s
  | some w =>
    { s with sleeping := s.sleeping.eraseP fun w => w.timeout ≤ time }.resumeThread .sleeping
      w.thread time false

/-- The periodic event; the table of futexes is run through in some order. -/
def futexPeriodic (s : SyscallServer) (time : SubsecondTime) (order : List Addr) : SyscallServer :=
  order.foldl (fun s addr => s.wakeTimedOut addr time) (s.wakeSleeping time)

/-- The end of the call of a thread that was resumed. -/
def finish (s : SyscallServer) (thread : ThreadId) :
    Except SyscallError (SyscallAnswer × SyscallServer) :=
  let st := s.threads.state thread
  let s' := { s with inCall := Function.update s.inCall thread none }
  match s.inCall thread with
  | none => .error .notInCall
  | some .sleeping => .ok (.slept st.wakeupTime, s')
  | some (.futex _) => .ok (.returned (if st.wakeupMsg then 0 else -ETIMEDOUT) st.wakeupTime, s')

end SyscallServer

/-- What the server does next: serve a call, let a resumed thread return, or the periodic
event. -/
inductive SyscallStep where
  | futex (call : FutexCall)
  | sleep (thread : ThreadId) (wakeTime : SubsecondTime)
  | returns (thread : ThreadId)
  | periodic (time : SubsecondTime) (order : List Addr)
  deriving DecidableEq

namespace SyscallServer

variable (env : SyscallEnv)

def perform (s : SyscallServer) : SyscallStep → Except SyscallError (SyscallAnswer × SyscallServer)
  | .futex call => s.handleFutexCall env call
  | .sleep thread wakeTime => .ok (s.handleSleepCall thread wakeTime)
  | .returns thread => s.finish thread
  | .periodic time order => .ok (.done, s.futexPeriodic time order)

/-- Nobody waits, and no thread is stalled. -/
structure Fresh (s : SyscallServer) : Prop where
  sleeping : s.sleeping = []
  futexes : s.futexes = fun _ => []
  keys : s.keys = []
  awake : ∀ thread, s.threads.isThreadStalled thread = false
  inCall : s.inCall = fun _ => none
  log : s.log = []

def machine : Machine SyscallServer SyscallStep SyscallAnswer where
  init := Fresh
  step s call answer s' := s.perform env call = .ok (answer, s')

/-- A running thread makes a call when it is in none, and returns when it is in one; the table is
run through once. -/
def permitted (s : SyscallServer) : SyscallStep → Bool
  | .futex call => s.threads.isThreadRunning call.thread && (s.inCall call.thread).isNone
  | .sleep thread _ => s.threads.isThreadRunning thread && (s.inCall thread).isNone
  | .returns thread => s.threads.isThreadRunning thread && (s.inCall thread).isSome
  | .periodic _ order => decide (order.Perm s.keys)

end SyscallServer

end Sniper.System.Syscall
