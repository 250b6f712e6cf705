import Sniper.Sift.Writer
import Sniper.Sift.Reader
import Mathlib.Algebra.Group.Nat.Defs
import Mathlib.Logic.Relation
set_option autoImplicit false

/-! The control records: the calls of the writer that send them, and the callbacks of the reader. -/

namespace Sniper.Sift
open Sniper.Lib

inductive EmuType where
  | rdtsc | getProcInfo | getTime | cpuid | setThreadInfo | papiStart | papiRead
  deriving DecidableEq, Repr

inductive CacheOnlyType where
  | branchTaken | branchNotTaken | memRead | memWrite | memIcache
  deriving DecidableEq, Repr

inductive RoutineOpType where
  | enter | exit | assert
  deriving DecidableEq, Repr

namespace EmuType

def all : List EmuType :=
  [.rdtsc, .getProcInfo, .getTime, .cpuid, .setThreadInfo, .papiStart, .papiRead]

/-- The enumerator with a value, if there is one. -/
def ofCode (v : Nat) : Option EmuType := all.find? fun t => t.ctorIdx == v

@[simp] theorem ofCode_ctorIdx (t : EmuType) : ofCode t.ctorIdx = some t := by cases t <;> rfl

theorem ctorIdx_lt (t : EmuType) : t.ctorIdx < 256 ^ 2 := by cases t <;> decide

end EmuType

namespace CacheOnlyType

def all : List CacheOnlyType := [.branchTaken, .branchNotTaken, .memRead, .memWrite, .memIcache]

def ofCode (v : Nat) : Option CacheOnlyType := all.find? fun t => t.ctorIdx == v

@[simp] theorem ofCode_ctorIdx (t : CacheOnlyType) : ofCode t.ctorIdx = some t := by
  cases t <;> rfl

theorem ctorIdx_lt (t : CacheOnlyType) : t.ctorIdx < 256 ^ 1 := by cases t <;> decide

end CacheOnlyType

namespace RoutineOpType

def all : List RoutineOpType := [.enter, .exit, .assert]

def ofCode (v : Nat) : Option RoutineOpType := all.find? fun t => t.ctorIdx == v

@[simp] theorem ofCode_ctorIdx (t : RoutineOpType) : ofCode t.ctorIdx = some t := by
  cases t <;> rfl

theorem ctorIdx_lt (t : RoutineOpType) : t.ctorIdx < 256 ^ 1 := by cases t <;> decide

end RoutineOpType

/-- A buffer whose size fits a `uint32_t`. -/
abbrev Buffer := { bs : List UInt8 // bs.length < 2 ^ 32 }

/-- The characters of a C string, which end before the first zero. -/
abbrev CString := { bs : List UInt8 // 0 ∉ bs }

/-- The eight bytes of an `EmuRequest`. -/
abbrev EmuRequest := Word

/-- A call of the writer that sends a control record. -/
inductive Control where
  | output (fd : UInt8) (data : Buffer)
  | syscall (number : BitVec 16) (data : Buffer)
  | newThread
  | join (thread : BitVec 32)
  | sync
  | fork
  | magic (a b c : Word)
  | emulate (type : EmuType) (req : EmuRequest)
  | routineChange (event : RoutineOpType) (eip esp callEip : Word)
  | routineAnnounce (eip : Word) (name imgname : CString) (offset : Word) (line column : BitVec 32)
      (filename : CString)
  | instructionCount (icount : BitVec 32)
  | cacheOnly (icount : UInt8) (type : CacheOnlyType) (eip address : Word)
  deriving DecidableEq

inductive Call where
  | instruction (i : Instr)
  | control (c : Control)
  deriving DecidableEq

namespace Writer

def SYS_write : BitVec 16 := 1
def SYS_futex : BitVec 16 := 202

def writeOther (t : RecOtherType) (size : Nat) (payload : List UInt8) (w : Writer) : Writer :=
  w.write (otherBytes t size ++ payload)

def instructionCount (icount : BitVec 32) (w : Writer) : Writer :=
  w.writeOther .instructionCount 4 (leBytes 4 icount.toNat)

def cacheOnly (cfg : WriterConfig) (icount : UInt8) (type : CacheOnlyType) (eip address : Word)
    (w : Writer) : Writer :=
  ((w.sendVa2pa cfg eip).sendVa2pa cfg address).writeOther .cacheOnly (1 + 1 + 8 + 8)
    ([icount] ++ leBytes 1 type.ctorIdx ++ wordBytes eip ++ wordBytes address)

/-- `Output`. -/
def outputData (fd : UInt8) (data : Buffer) (w : Writer) : Writer :=
  w.writeOther .output (1 + data.val.length) ([fd] ++ data.val)

def newThread (w : Writer) : Writer := w.writeOther .newThread 0 []

/-- `args[k]`. -/
def argument (data : Buffer) (k : Nat) : Except Abort Word :=
  if 8 * (k + 1) ≤ data.val.length then .ok (wordValue ((data.val.drop (8 * k)).take 8))
  else .error .argumentsOverrun

/-- The mapping of the data a system call refers to. -/
def sendArgument (cfg : WriterConfig) (number : BitVec 16) (data : Buffer) (w : Writer) :
    Except Abort Writer :=
  if number = SYS_futex then (argument data 0).map (w.sendVa2pa cfg)
  else if number = SYS_write then (argument data 1).map (w.sendVa2pa cfg)
  else .ok w

def syscall (cfg : WriterConfig) (number : BitVec 16) (data : Buffer) (w : Writer) :
    Except Abort Writer := do
  let w ← w.sendArgument cfg number data
  return w.writeOther .syscallRequest (2 + data.val.length) (leBytes 2 number.toNat ++ data.val)

def join (thread : BitVec 32) (w : Writer) : Writer := w.writeOther .join 4 (leBytes 4 thread.toNat)

def sync (w : Writer) : Writer := w.writeOther .sync 0 []

def fork (w : Writer) : Writer := w.writeOther .fork 0 []

def magic (a b c : Word) (w : Writer) : Writer :=
  w.writeOther .magicInstruction (3 * 8) (wordBytes a ++ wordBytes b ++ wordBytes c)

def emulate (type : EmuType) (req : EmuRequest) (w : Writer) : Writer :=
  w.writeOther .emu (2 + 8) (leBytes 2 type.ctorIdx ++ wordBytes req)

def routineChange (event : RoutineOpType) (eip esp callEip : Word) (w : Writer) : Writer :=
  w.writeOther .routineChange (1 + 3 * 8)
    (leBytes 1 event.ctorIdx ++ wordBytes eip ++ wordBytes esp ++ wordBytes callEip)

/-- `strlen(s) + 1`, in a `uint16_t`. -/
def stringSize (s : CString) : Nat := (s.val.length + 1) % 2 ^ 16

/-- The size of a string and as many of its bytes, the final zero among them. -/
def stringBytes (s : CString) : List UInt8 :=
  leBytes 2 (stringSize s) ++ (s.val ++ [0]).take (stringSize s)

def routineAnnounce (eip : Word) (name imgname : CString) (offset : Word) (line column : BitVec 32)
    (filename : CString) (w : Writer) : Writer :=
  w.writeOther .routineAnnounce
    (8 + 2 + stringSize name + 2 + stringSize imgname + 8 + 4 + 4 + 2 + stringSize filename)
    (wordBytes eip ++ stringBytes name ++ stringBytes imgname ++ wordBytes offset ++
      leBytes 4 line.toNat ++ leBytes 4 column.toNat ++ stringBytes filename)

def control (cfg : WriterConfig) (w : Writer) : Control → Except Abort Writer
  | .output fd data => .ok (w.outputData fd data)
  | .syscall number data => w.syscall cfg number data
  | .newThread => .ok w.newThread
  | .join thread => .ok (w.join thread)
  | .sync => .ok w.sync
  | .fork => .ok w.fork
  | .magic a b c => .ok (w.magic a b c)
  | .emulate type req => .ok (w.emulate type req)
  | .routineChange event eip esp callEip => .ok (w.routineChange event eip esp callEip)
  | .routineAnnounce eip name imgname offset line column filename =>
    .ok (w.routineAnnounce eip name imgname offset line column filename)
  | .instructionCount icount => .ok (w.instructionCount icount)
  | .cacheOnly icount type eip address => .ok (w.cacheOnly cfg icount type eip address)

def call (cfg : WriterConfig) (w : Writer) : Call → Except Abort Writer
  | .instruction i => w.instruction cfg i
  | .control c => w.control cfg c

def calls (cfg : WriterConfig) : List Call → Writer → Except Abort Writer
  | [], w => .ok w
  | c :: cs, w => do
    let w ← w.call cfg c
    calls cfg cs w

end Writer

/-- The trace file of a sequence of calls. -/
def writeCalls (cfg : WriterConfig) (deflate : List UInt8 → List UInt8) (cs : List Call) :
    Except Abort (List UInt8) := do
  let w ← Writer.fresh.calls cfg cs
  let body := w.close.output
  return headerBytes cfg.options ++ (if cfg.useCompression then deflate body else body)

/-- A callback with its arguments. A byte that is no enumerator and a buffer without a zero have
no value. -/
inductive Callback where
  | instructionCount (icount : BitVec 32)
  | cacheOnly (icount : UInt8) (type : Option CacheOnlyType) (eip address : Word)
  | output (fd : UInt8) (bytes : List UInt8)
  | syscall (number : BitVec 16) (bytes : List UInt8)
  | newThread
  | join (thread : BitVec 32)
  | fork
  | magic (a b c : Word)
  | emu (type : Option EmuType) (req : List UInt8)
  | routineChange (event : Option RoutineOpType) (eip esp callEip : Word)
  | routineAnnounce (eip : Word) (name imgname : Option (List UInt8)) (offset : Word)
      (line column : BitVec 32) (filename : Option (List UInt8))
  deriving DecidableEq

/-- The callbacks that are set. -/
structure Handlers where
  instructionCount : Bool
  cacheOnly : Bool
  output : Bool
  syscall : Bool
  newThread : Bool
  join : Bool
  fork : Bool
  magic : Bool
  emu : Bool
  routineChange : Bool
  routineAnnounce : Bool
  deriving DecidableEq, Repr

def Handlers.calls (h : Handlers) : Callback → Bool
  | .instructionCount .. => h.instructionCount
  | .cacheOnly .. => h.cacheOnly
  | .output .. => h.output
  | .syscall .. => h.syscall
  | .newThread => h.newThread
  | .join .. => h.join
  | .fork => h.fork
  | .magic .. => h.magic
  | .emu .. => h.emu
  | .routineChange .. => h.routineChange
  | .routineAnnounce .. => h.routineAnnounce

namespace Reader

def readNat (n : Nat) (r : Reader) : Except Abort (Nat × Reader) := do
  let (bs, r) ← r.readBytes n
  return (leValue bs, r)

/-- The string a callback finds in a buffer. -/
def cString (bs : List UInt8) : Option (List UInt8) :=
  if 0 ∈ bs then some (bs.takeWhile (· != 0)) else none

def readString (r : Reader) : Except Abort (Option (List UInt8) × Reader) := do
  let (n, r) ← r.readNat 2
  let (bs, r) ← r.readBytes n
  return (cString bs, r)

/-- The branches of the switch that make a callback: what they assert and what they read. -/
def handler (h : Handlers) :
    RecOtherType → Option (Nat → Reader → Except Abort (Callback × Reader))
  | .instructionCount => some fun size r => do
    check (size = 4) .recordSize
    let (icount, r) ← r.readNat 4
    return (.instructionCount (BitVec.ofNat 32 icount), r)
  | .cacheOnly => some fun size r => do
    check (size = 1 + 1 + 8 + 8) .recordSize
    let (icount, r) ← r.readNat 1
    let (type, r) ← r.readNat 1
    let (eip, r) ← r.readWord
    let (address, r) ← r.readWord
    return (.cacheOnly (UInt8.ofNat icount) (CacheOnlyType.ofCode type) eip address, r)
  | .output => some fun size r => do
    check (1 < size) .recordSize
    let (fd, r) ← r.readNat 1
    let (bytes, r) ← r.readBytes (size - 1)
    return (.output (UInt8.ofNat fd) bytes, r)
  | .syscallRequest => some fun size r => do
    check (2 < size) .recordSize
    let (number, r) ← r.readNat 2
    let (bytes, r) ← r.readBytes (size - 2)
    check h.syscall .noHandler
    return (.syscall (BitVec.ofNat 16 number) bytes, r)
  | .newThread => some fun size r => do
    check (size = 0) .recordSize
    check h.newThread .noHandler
    return (.newThread, r)
  | .join => some fun size r => do
    check (size = 4) .recordSize
    let (thread, r) ← r.readNat 4
    check h.join .noHandler
    return (.join (BitVec.ofNat 32 thread), r)
  | .sync => some fun size r => do
    check (size = 0) .recordSize
    return (.instructionCount 0, r)
  | .fork => some fun size r => do
    check (size = 0) .recordSize
    check h.fork .noHandler
    return (.fork, r)
  | .magicInstruction => some fun size r => do
    check (size = 3 * 8) .recordSize
    let (a, r) ← r.readWord
    let (b, r) ← r.readWord
    let (c, r) ← r.readWord
    return (.magic a b c, r)
  | .emu => some fun size r => do
    check (size ≤ 2 + 8) .recordSize
    let (type, r) ← r.readNat 2
    let (req, r) ← r.readBytes (BitVec.ofNat 64 size - 2).toNat
    return (.emu (EmuType.ofCode type) req, r)
  | .routineChange => some fun size r => do
    check (size = 1 + 3 * 8) .recordSize
    let (event, r) ← r.readNat 1
    let (eip, r) ← r.readWord
    let (esp, r) ← r.readWord
    let (callEip, r) ← r.readWord
    return (.routineChange (RoutineOpType.ofCode event) eip esp callEip, r)
  | .routineAnnounce => some fun _ r => do
    let (eip, r) ← r.readWord
    let (name, r) ← r.readString
    let (imgname, r) ← r.readString
    let (offset, r) ← r.readWord
    let (line, r) ← r.readNat 4
    let (column, r) ← r.readNat 4
    let (filename, r) ← r.readString
    return (.routineAnnounce eip name imgname offset (BitVec.ofNat 32 line)
      (BitVec.ofNat 32 column) filename, r)
  | _ => none

theorem handler_isSome (h : Handlers) (t : RecOtherType) :
    (handler h t).isSome = t.hasCallback := by
  cases t <;> rfl

end Reader

/-- What a user of the reader sees: the callbacks and the instructions `Read` returns. -/
inductive Event where
  | callback (c : Callback)
  | insn (i : Instruction)
  deriving DecidableEq

def Item.events : Item → List Event
  | .insn i => [.insn i]
  | _ => []

/-- A reader together with what has come out of it. -/
structure Session where
  reader : Reader
  events : List Event

namespace Session

/-- The branch that makes a callback, when such a record is next. -/
def pending (h : Handlers) (s : Session) :
    Option (Nat → Reader → Except Abort (Callback × Reader)) :=
  match s.reader.input with
  | byte :: code :: _ => if byte = 0 then (RecOtherType.ofCode code).bind (Reader.handler h) else none
  | _ => none

/-- A callback is made if it is set. -/
def called (h : Handlers) (s : Session) (c : Callback) (r : Reader) : Session where
  reader := r
  events := if h.calls c then s.events ++ [.callback c] else s.events

/-- One turn of the loop of `Read`, with its callbacks. -/
def step (env : ReaderEnv) (h : Handlers) (s : Session) : Except Abort (Item × Session) :=
  match s.pending h with
  | some branch => do
    let (rec, r) ← s.reader.readBytes 6
    let (c, r) ← branch (leValue (rec.drop 2)) r
    return (.again, s.called h c r)
  | none => do
    let (item, r) ← Reader.step env s.reader
    return (item, ⟨r, s.events ++ item.events⟩)

/-- The callbacks as the reader alone sees them: they take their arguments off the input. -/
def takesArguments (h : Handlers) (t : RecOtherType) (size : Nat) (r : Reader) :
    Except Abort Reader :=
  match Reader.handler h t with
  | some branch => (branch size r).map (·.2)
  | none => .ok r

/-- The turns of all calls of `Read` up to the one that reports the end. -/
def readAll (env : ReaderEnv) (h : Handlers) : Nat → Session → Except Abort Session
  | 0, _ => .error .spins
  | fuel + 1, s => do
    let (item, s) ← s.step env h
    match item with
    | .stop => return s
    | _ => readAll env h fuel s

/-- A turn that is not the last. -/
def Turn (env : ReaderEnv) (h : Handlers) (s s' : Session) : Prop :=
  ∃ item, s.step env h = .ok (item, s') ∧ item ≠ .stop

end Session

end Sniper.Sift
