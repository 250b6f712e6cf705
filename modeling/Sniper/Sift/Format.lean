import Sniper.Lib.LittleEndian
import Sniper.Lib.Machine
set_option autoImplicit false

/-! The records of a SIFT trace, as the bytes both ends agree on. -/

namespace Sniper.Sift
open Sniper.Lib

abbrev Word := BitVec 64

def maxDynamicAddresses : Nat := 2
def magicNumber : Nat := 0x54464953
def pageSize : Word := 4096
def icacheSize : Nat := 0x1000
def icacheOffsetMask : Word := 0xfff
def icachePageMask : Word := ~~~icacheOffsetMask

/-- What stops a writer or a reader: a failed assertion, a stream that ends early, a store past
`addresses`, a load past the arguments of a system call, or a loop that does not end. -/
inductive Abort where
  | size
  | numAddresses
  | spins
  | endOfInput
  | header
  | recordSize
  | addressesOverrun
  | icacheMissing
  | xedError
  | staticSize
  | nullPointer
  | noHandler
  | argumentsOverrun
  deriving DecidableEq, Repr

def check (b : Bool) (a : Abort) : Except Abort Unit := if b then .ok () else .error a

@[simp] theorem check_true (a : Abort) : check true a = .ok () := rfl
@[simp] theorem check_false (a : Abort) : check false a = .error a := rfl

theorem check_pos {p : Prop} [Decidable p] {a : Abort} (h : p) : check (decide p) a = .ok () := by
  rw [decide_eq_true h, check_true]

theorem check_neg {p : Prop} [Decidable p] {a : Abort} (h : ¬p) :
    check (decide p) a = .error a := by
  rw [decide_eq_false h, check_false]

theorem check_eq_ok {b : Bool} {a : Abort} {u : Unit} : check b a = .ok u ↔ b = true := by
  cases b <;> simp

theorem pure_eq_ok {α : Type} {x y : α} : (pure x : Except Abort α) = .ok y ↔ x = y := by
  simp [pure, Except.pure]

inductive RecOtherType where
  | icache | output | syscallRequest | syscallResponse | newThread | newThreadResponse
  | memoryRequest | memoryResponse | join | joinResponse | endResponse | icacheVariable
  | sync | syncResponse | logical2Physical | magicInstruction | magicInstructionResponse
  | routineChange | routineAnnounce | emu | emuResponse | fork | forkResponse
  | instructionCount | cacheOnly | end
  deriving DecidableEq, Repr

namespace RecOtherType

/-- The enumerators count from zero, the end record apart. -/
def code : RecOtherType → UInt8
  | .end => 0xff
  | t => UInt8.ofNat t.ctorIdx

def all : List RecOtherType :=
  [.icache, .output, .syscallRequest, .syscallResponse, .newThread, .newThreadResponse,
   .memoryRequest, .memoryResponse, .join, .joinResponse, .endResponse, .icacheVariable,
   .sync, .syncResponse, .logical2Physical, .magicInstruction, .magicInstructionResponse,
   .routineChange, .routineAnnounce, .emu, .emuResponse, .fork, .forkResponse,
   .instructionCount, .cacheOnly, .end]

def ofCode (b : UInt8) : Option RecOtherType := all.find? fun t => t.code == b

@[simp] theorem ofCode_code (t : RecOtherType) : ofCode t.code = some t := by
  cases t <;> rfl

/-- The control records `Read` answers through a callback. -/
def hasCallback : RecOtherType → Bool
  | .output | .syscallRequest | .newThread | .join | .sync | .fork | .magicInstruction | .emu
  | .routineChange | .routineAnnounce | .instructionCount | .cacheOnly => true
  | _ => false

end RecOtherType

/-- One call of `Writer::Instruction`. -/
structure Instr where
  addr : Word
  size : Nat
  addresses : List Word
  isBranch : Bool
  taken : Bool
  isPredicate : Bool
  executed : Bool
  deriving DecidableEq, Repr

def wordBytes (v : Word) : List UInt8 := leBytes 8 v.toNat

def wordValue (bs : List UInt8) : Word := BitVec.ofNat 64 (leValue bs)

@[simp] theorem length_wordBytes (v : Word) : (wordBytes v).length = 8 := length_leBytes 8 _

@[simp] theorem wordValue_wordBytes (v : Word) : wordValue (wordBytes v) = v :=
  ofNat_leValue_leBytes v

/-- `Record::Instruction`: size:4, num_addresses:2, is_branch:1, taken:1. -/
def instructionBytes (i : Instr) : List UInt8 :=
  [UInt8.ofNat (i.size % 16 + 16 * (i.addresses.length % 4) + 64 * i.isBranch.toNat +
    128 * i.taken.toNat)]

/-- `Record::InstructionExt`: type:4, size:4, num_addresses:2, is_branch:1, taken:1,
is_predicate:1, executed:1, then the address. -/
def instructionExtBytes (i : Instr) : List UInt8 :=
  [UInt8.ofNat (16 * (i.size % 16)),
   UInt8.ofNat (i.addresses.length % 4 + 4 * i.isBranch.toNat + 8 * i.taken.toNat +
    16 * i.isPredicate.toNat + 32 * i.executed.toNat)] ++ wordBytes i.addr

/-- `Record::Other`: a zero byte, the type and a 32-bit size. -/
def otherBytes (t : RecOtherType) (size : Nat) : List UInt8 := [0, t.code] ++ leBytes 4 size

@[simp] theorem length_otherBytes (t : RecOtherType) (size : Nat) :
    (otherBytes t size).length = 6 := by simp [otherBytes]

/-- `Header::options`. -/
structure Options where
  compressionZlib : Bool
  archIA32 : Bool
  icacheVariable : Bool
  physicalAddress : Bool
  deriving DecidableEq, Repr

def Options.word (o : Options) : Nat :=
  o.compressionZlib.toNat + 2 * o.archIA32.toNat + 4 * o.icacheVariable.toNat +
    8 * o.physicalAddress.toNat

/-- `Header`: magic, size of the extra header, options. -/
def headerBytes (o : Options) : List UInt8 :=
  leBytes 4 magicNumber ++ leBytes 4 0 ++ leBytes 8 o.word

@[simp] theorem length_headerBytes (o : Options) : (headerBytes o).length = 16 := by
  simp [headerBytes]

end Sniper.Sift
