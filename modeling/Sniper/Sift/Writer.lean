import Mathlib.Algebra.Group.Nat.Defs
import Sniper.Sift.Format
set_option autoImplicit false

namespace Sniper.Sift
open Sniper.Lib

/-- What a writer is built with. `code` is the program image `getCodeFunc` copies from, and
`pagemap` the page map of the process, which has no answer for some pages. -/
structure WriterConfig where
  code : Word → UInt8
  useCompression : Bool
  arch32 : Bool
  requiresIcachePerInsn : Bool
  sendVa2paMapping : Bool
  pagemap : Word → Option Word

def WriterConfig.options (cfg : WriterConfig) : Options where
  compressionZlib := cfg.useCompression
  archIA32 := cfg.arch32
  icacheVariable := cfg.requiresIcachePerInsn
  physicalAddress := cfg.sendVa2paMapping

def WriterConfig.va2paLookup (cfg : WriterConfig) (vp : Word) : Word :=
  -- the vsyscall range is not looked up
  if 0xffffffffff600 ≤ vp && vp < 0xfffffffffffff then vp else (cfg.pagemap vp).getD vp

/-- `getCodeFunc(dst, src, size)`. -/
def getCode (code : Word → UInt8) (src : Word) (size : Nat) : List UInt8 :=
  (List.range size).map fun i => code (src + BitVec.ofNat 64 i)

@[simp] theorem length_getCode (code : Word → UInt8) (src : Word) (size : Nat) :
    (getCode code src size).length = size := by simp [getCode]

structure Writer where
  output : List UInt8
  lastAddress : Word
  icache : Word → Bool
  va2pa : Word → Bool

namespace Writer

def fresh : Writer := ⟨[], 0, fun _ => false, fun _ => false⟩

def write (w : Writer) (bs : List UInt8) : Writer := { w with output := w.output ++ bs }

/-- The record that carries one variable piece of code. -/
def icacheVariableBytes (cfg : WriterConfig) (addr : Word) (size : Nat) : List UInt8 :=
  otherBytes .icacheVariable (8 + size) ++ wordBytes addr ++ getCode cfg.code addr size

/-- The record that carries one page of code. -/
def icacheBytes (cfg : WriterConfig) (base : Word) : List UInt8 :=
  otherBytes .icache (8 + icacheSize) ++ wordBytes base ++ getCode cfg.code base icacheSize

def sendIcacheVariable (cfg : WriterConfig) (addr : Word) (size : Nat) (w : Writer) : Writer :=
  if w.icache addr then w
  else { w.write (icacheVariableBytes cfg addr size) with
    icache := Function.update w.icache addr true }

def sendIcachePage (cfg : WriterConfig) (base : Word) (w : Writer) : Writer :=
  if w.icache base then w
  else { w.write (icacheBytes cfg base) with icache := Function.update w.icache base true }

/-- The page loop from `base` while it is at most `last`. There are `2 ^ 52` pages, so a loop
that outlasts its fuel has been through every one of them and goes round for ever. -/
def sendIcachePages (cfg : WriterConfig) (last : Word) : Nat → Word → Writer → Except Abort Writer
  | 0, _, _ => .error .spins
  | fuel + 1, base, w =>
    if base ≤ last then
      sendIcachePages cfg last fuel (base + BitVec.ofNat 64 icacheSize) (w.sendIcachePage cfg base)
    else .ok w

def sendIcache (cfg : WriterConfig) (addr : Word) (size : Nat) (w : Writer) : Except Abort Writer :=
  if cfg.requiresIcachePerInsn then .ok (w.sendIcacheVariable cfg addr size)
  else w.sendIcachePages cfg ((addr + BitVec.ofNat 64 size - 1) &&& icachePageMask) (2 ^ 52 + 1)
    (addr &&& icachePageMask)

def va2paBytes (vp pp : Word) : List UInt8 :=
  otherBytes .logical2Physical 16 ++ wordBytes vp ++ wordBytes pp

def sendVa2pa (cfg : WriterConfig) (w : Writer) (va : Word) : Writer :=
  if !cfg.sendVa2paMapping then w
  else
    let vp := va / pageSize
    if w.va2pa vp then w
    else
      let pp := cfg.va2paLookup vp
      if pp = 0 then w
      else { w.write (va2paBytes vp pp) with va2pa := Function.update w.va2pa vp true }

/-- The instruction record itself, with its data addresses. -/
def sendRecord (w : Writer) (i : Instr) : Writer :=
  if i.addr = w.lastAddress && !i.isPredicate then
    { w.write (instructionBytes i ++ i.addresses.flatMap wordBytes) with
      lastAddress := w.lastAddress + BitVec.ofNat 64 i.size }
  else
    { w.write (instructionExtBytes i ++ i.addresses.flatMap wordBytes) with
      lastAddress := i.addr + BitVec.ofNat 64 i.size }

def instruction (cfg : WriterConfig) (w : Writer) (i : Instr) : Except Abort Writer := do
  check (i.size < 16) .size
  check (i.addresses.length ≤ maxDynamicAddresses) .numAddresses
  let w ← w.sendIcache cfg i.addr i.size
  let w := i.addresses.foldl (sendVa2pa cfg) (w.sendVa2pa cfg i.addr)
  return w.sendRecord i

def instructions (cfg : WriterConfig) : List Instr → Writer → Except Abort Writer
  | [], w => .ok w
  | i :: is, w => do
    let w ← w.instruction cfg i
    instructions cfg is w

/-- `End`. -/
def close (w : Writer) : Writer := w.write (otherBytes .end 0)

end Writer

/-- The trace file of a sequence of calls: the header, then the records, which zlib may pack. -/
def writeTrace (cfg : WriterConfig) (deflate : List UInt8 → List UInt8) (is : List Instr) :
    Except Abort (List UInt8) := do
  let w ← Writer.fresh.instructions cfg is
  let body := w.close.output
  return headerBytes cfg.options ++ (if cfg.useCompression then deflate body else body)

end Sniper.Sift
