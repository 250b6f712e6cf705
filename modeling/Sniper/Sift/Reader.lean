import Sniper.Sift.Format
set_option autoImplicit false

namespace Sniper.Sift
open Sniper.Lib

/-- A decoded static instruction. Pointers to them are positions in the order of creation, and
`next` is the probable next one. -/
structure StaticInstruction where
  addr : Word
  size : Nat
  data : List UInt8
  next : Option Nat
  deriving DecidableEq, Repr

/-- What `Read` fills in. -/
structure Instruction where
  sinst : StaticInstruction
  addresses : List Word
  isBranch : Bool
  taken : Bool
  isPredicate : Bool
  executed : Bool
  deriving DecidableEq, Repr

structure Reader where
  input : List UInt8
  lastAddress : Word
  icache : Word → Option (Nat → UInt8)
  sinsts : List StaticInstruction
  scache : Word → Option Nat
  vcache : Word → Option Word
  arch32 : Bool
  traceHasPa : Bool
  seenEnd : Bool
  lastSinst : Option Nat

/-- What the reader takes from outside: the instruction decoder, zlib, the bytes of a page before
any is stored in it, and the callbacks behind the control records. -/
structure ReaderEnv where
  xedDecode : Bool → List UInt8 → Bool
  inflate : List UInt8 → List UInt8
  newPage : Word → Nat → UInt8
  control : RecOtherType → Nat → Reader → Except Abort Reader

/-- What one turn of the loop of `Read` comes to. `stale` is a call after the end, which reports
an instruction without reading one. -/
inductive Item where
  | again
  | insn (i : Instruction)
  | stop
  | stale
  deriving DecidableEq, Repr

namespace Reader

def readBytes (n : Nat) (r : Reader) : Except Abort (List UInt8 × Reader) :=
  if n ≤ r.input.length then .ok (r.input.take n, { r with input := r.input.drop n })
  else .error .endOfInput

def readWord (r : Reader) : Except Abort (Word × Reader) := do
  let (bs, r) ← r.readBytes 8
  return (wordValue bs, r)

/-- `memcpy` into a page. -/
def storeAt (page : Nat → UInt8) (offset : Nat) (bs : List UInt8) : Nat → UInt8 :=
  fun k => if offset ≤ k then bs.getD (k - offset) (page k) else page k

/-- The loop of a variable icache record: the bytes go to one page after the other. -/
def storeCode (newPage : Word → Nat → UInt8) : Nat → Word → List UInt8 →
    (Word → Option (Nat → UInt8)) → (Word → Option (Nat → UInt8))
  | 0, _, _, icache => icache
  | fuel + 1, address, bs, icache =>
    if bs = [] then icache
    else
      let base := address &&& icachePageMask
      let offset := (address &&& icacheOffsetMask).toNat
      let page := (icache base).getD (newPage base)
      let n := min bs.length (icacheSize - offset)
      storeCode newPage fuel (base + BitVec.ofNat 64 icacheSize) (bs.drop n)
        (Function.update icache base (some (storeAt page offset (bs.take n))))

/-- A record of a type the reader does not handle. -/
def skip (size : Nat) (r : Reader) : Except Abort (Item × Reader) := do
  let (_, r) ← r.readBytes size
  return (.again, r)

/-- The switch over the types of the records with a zero first byte. -/
def payload (env : ReaderEnv) (type : Option RecOtherType) (size : Nat) (r : Reader) :
    Except Abort (Item × Reader) := do
  match type with
  | some .end =>
    check (size = 0) .recordSize
    return (.stop, { r with seenEnd := true })
  | some .icache =>
    check (size = 8 + icacheSize) .recordSize
    let (address, r) ← r.readWord
    let (bytes, r) ← r.readBytes icacheSize
    return (.again, { r with icache := Function.update r.icache address (some (bytes.getD · 0)) })
  | some .icacheVariable =>
    let (address, r) ← r.readWord
    let (bytes, r) ← r.readBytes (BitVec.ofNat 64 size - 8).toNat
    return (.again, { r with icache := storeCode env.newPage bytes.length address bytes r.icache })
  | some .logical2Physical =>
    check (size = 16) .recordSize
    let (vp, r) ← r.readWord
    let (pp, r) ← r.readWord
    return (.again, { r with vcache := Function.update r.vcache vp (some pp) })
  | some t =>
    if t.hasCallback then
      let r ← env.control t size r
      return (.again, r)
    else r.skip size
  | none => r.skip size

def other (env : ReaderEnv) (r : Reader) : Except Abort (Item × Reader) := do
  let (rec, r) ← r.readBytes 6
  payload env (RecOtherType.ofCode (rec.getD 1 0)) (leValue (rec.drop 2)) r

/-- The copy loop of `decodeInstruction`. -/
def copyCode (icache : Word → Option (Nat → UInt8)) : Nat → Word → Nat → Nat →
    Except Abort (List UInt8)
  | 0, _, _, _ => .ok []
  | fuel + 1, base, offset, size =>
    if size = 0 then .ok []
    else
      match icache base with
      | none => .error .icacheMissing
      | some page => do
        let n := min size (icacheSize - offset)
        let rest ← copyCode icache fuel (base + BitVec.ofNat 64 icacheSize) 0 (size - n)
        return (List.range n).map (fun i => page (offset + i)) ++ rest

def decodeInstruction (env : ReaderEnv) (r : Reader) (addr : Word) (size : Nat) :
    Except Abort StaticInstruction := do
  let data ← copyCode r.icache size (addr &&& icachePageMask) (addr &&& icacheOffsetMask).toNat size
  check (env.xedDecode r.arch32 data) .xedError
  return ⟨addr, size, data, none⟩

/-- `m_last_sinst->next`. -/
def lastNext (r : Reader) : Option Nat := do
  let p ← r.lastSinst
  let s ← r.sinsts[p]?
  s.next

/-- The pointer `getStaticInstruction` finds or makes, before it is linked. -/
def findStatic (env : ReaderEnv) (r : Reader) (addr : Word) (size : Nat) :
    Except Abort (Nat × Reader) := do
  let hit := r.lastNext.filter fun q => (r.sinsts[q]?).any fun s => s.addr == addr
  match hit with
  | some q => return (q, r)
  | none =>
    match r.scache addr with
    | some q =>
      check ((r.sinsts[q]?).any fun s => s.size == size) .staticSize
      return (q, r)
    | none =>
      let s ← r.decodeInstruction env addr size
      return (r.sinsts.length, { r with
        sinsts := r.sinsts ++ [s], scache := Function.update r.scache addr (some r.sinsts.length) })

/-- The last static instruction learns its next one, once. -/
def link (r : Reader) (q : Nat) : Reader :=
  { r with
    sinsts := match r.lastSinst with
      | some p => r.sinsts.modify p fun s => if s.next = none then { s with next := some q } else s
      | none => r.sinsts
    lastSinst := some q }

def getStaticInstruction (env : ReaderEnv) (r : Reader) (addr : Word) (size : Nat) :
    Except Abort (StaticInstruction × Reader) := do
  let (q, r) ← r.findStatic env addr size
  let r := r.link q
  match r.sinsts[q]? with
  | some s => return (s, r)
  | none => .error .nullPointer

def readAddresses : Nat → Reader → Except Abort (List Word × Reader)
  | 0, r => .ok ([], r)
  | n + 1, r => do
    let (a, r) ← r.readWord
    let (as, r) ← readAddresses n r
    return (a :: as, r)

/-- What follows the fixed part of either instruction record. -/
def finish (env : ReaderEnv) (r : Reader) (addr : Word) (size numAddresses : Nat)
    (isBranch taken isPredicate executed : Bool) : Except Abort (Item × Reader) := do
  let r := { r with lastAddress := addr + BitVec.ofNat 64 size }
  check (numAddresses ≤ maxDynamicAddresses) .addressesOverrun
  let (addresses, r) ← readAddresses numAddresses r
  let (sinst, r) ← r.getStaticInstruction env addr size
  return (.insn ⟨sinst, addresses, isBranch, taken, isPredicate, executed⟩, r)

def simple (env : ReaderEnv) (r : Reader) : Except Abort (Item × Reader) := do
  let (rec, r) ← r.readBytes 1
  let b := (rec.getD 0 0).toNat
  r.finish env r.lastAddress (b % 16) (b / 16 % 4) (b / 64 % 2 = 1) (b / 128 % 2 = 1) false true

def extended (env : ReaderEnv) (r : Reader) : Except Abort (Item × Reader) := do
  let (rec, r) ← r.readBytes 10
  let b := (rec.getD 1 0).toNat
  r.finish env (wordValue (rec.drop 2)) ((rec.getD 0 0).toNat / 16) (b % 4) (b / 4 % 2 = 1)
    (b / 8 % 2 = 1) (b / 16 % 2 = 1) (b / 32 % 2 = 1)

/-- One turn of the loop of `Read`. -/
def step (env : ReaderEnv) (r : Reader) : Except Abort (Item × Reader) :=
  match r.input with
  | [] => .error .endOfInput
  | byte :: _ =>
    if byte = 0 then r.other env
    else if byte.toNat % 16 ≠ 0 then r.simple env
    else r.extended env

def readLoop (env : ReaderEnv) : Nat → Reader → Except Abort (Item × Reader)
  | 0, _ => .error .endOfInput
  | fuel + 1, r => do
    let (item, r) ← r.step env
    match item with
    | .again => readLoop env fuel r
    | item => return (item, r)

/-- `Read`: every turn of its loop takes a byte off the input. -/
def read (env : ReaderEnv) (r : Reader) : Except Abort (Item × Reader) :=
  if r.seenEnd then .ok (.stale, r) else readLoop env (r.input.length + 1) r

/-- The instructions `Read` returns until it reports the end. -/
def readAll (env : ReaderEnv) : Nat → Reader → Except Abort (List Instruction)
  | 0, _ => .error .spins
  | fuel + 1, r => do
    match ← r.read env with
    | (.insn i, r) => return i :: (← readAll env fuel r)
    | (.stop, _) => return []
    | _ => .error .spins

/-- The header of a stream: the options are taken off one by one, and none may be left. -/
def acceptHeader (env : ReaderEnv) (hdr : List UInt8) (r : Reader) : Except Abort Reader := do
  check (leValue (hdr.take 4) = magicNumber) .header
  check (leValue ((hdr.drop 4).take 4) = 0) .header
  let options := leValue (hdr.drop 8)
  check (options < 16) .header
  return { r with
    input := if options % 2 = 1 then env.inflate r.input else r.input
    arch32 := options / 2 % 2 = 1
    traceHasPa := options / 8 % 2 = 1 }

/-- A reader before its first record. -/
def fresh (input : List UInt8) : Reader :=
  ⟨input, 0, fun _ => none, [], fun _ => none, fun _ => none, false, false, false, none⟩

def initStream (env : ReaderEnv) (file : List UInt8) : Except Abort Reader := do
  let (hdr, r) ← (fresh file).readBytes 16
  acceptHeader env hdr r

end Reader

def readTrace (env : ReaderEnv) (file : List UInt8) : Except Abort (List Instruction) := do
  let r ← Reader.initStream env file
  r.readAll env (r.input.length + 1)

end Sniper.Sift
