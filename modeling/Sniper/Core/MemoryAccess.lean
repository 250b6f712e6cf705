import Mathlib.Data.Nat.Notation
set_option autoImplicit false

/-! `Core::initiateMemoryAccess`: an access goes to the memory manager one cache line at a time. -/

namespace Sniper.Core

abbrev IntPtr := BitVec 64

/-- A place of a hit, by its number: those of the memory components come first. -/
abbrev HitWhere := Nat

namespace HitWhere

def unknown : HitWhere := 21
def numHitWheres : Nat := 24

end HitWhere

inductive LockSignal | none | lock | unlock
  deriving DecidableEq

inductive MemOp | read | readEx | write
  deriving DecidableEq

inductive MemModeled | none | count | countTlbTime | time | fenced | return
  deriving DecidableEq

structure Request where
  /-- `MemComponent::component_t` -/
  memComponent : Nat
  lockSignal : LockSignal
  memOpType : MemOp
  address : IntPtr
  /-- `none` is the null pointer. -/
  dataBuf : Option IntPtr
  dataSize : BitVec 32
  modeled : MemModeled
  /-- `none` is `SubsecondTime::MaxTime()`. -/
  now : Option Nat

/-- What is asked of the memory manager at one line. -/
structure Piece where
  address : IntPtr
  offset : BitVec 32
  dataBuf : Option IntPtr
  dataLength : BitVec 32
  deriving DecidableEq

namespace Piece

def start (p : Piece) : Nat := p.address.toNat + p.offset.toNat

def length (p : Piece) : Nat := p.dataLength.toNat

end Piece

/-- What the access calls, with a state `σ` of its own. -/
structure MemorySystem (σ : Type) where
  cacheBlockSize : BitVec 32
  coreInitiateMemoryAccess : Nat → LockSignal → MemOp → Piece → MemModeled → σ → HitWhere × σ
  cheetahAccess : Option (MemOp → IntPtr → σ → σ)
  acquire : σ → σ
  release : σ → σ
  /-- the performance model's time -/
  coreTime : σ → Nat
  /-- the memory performance model's time of the user thread -/
  getElapsedTime : σ → Nat
  setElapsedTime : Nat → σ → σ
  isEnabled : σ → Bool
  queueMemAccess : Nat → IntPtr → BitVec 32 → Bool → σ → σ
  handleMemoryLatency : Nat → HitWhere → σ → σ
  incrTotalMemoryAccessLatency : Nat → σ → σ

structure MemoryResult where
  hitWhere : HitWhere
  latency : Nat
  deriving DecidableEq

inductive MemoryError | timeBackwards | hitWhereUnknown | invalidHitWhere
  deriving DecidableEq

def makeMemoryResult (hitWhere : HitWhere) (latency : Nat) : Except MemoryError MemoryResult :=
  if hitWhere < HitWhere.numHitWheres then .ok ⟨hitWhere, latency⟩ else .error .invalidHitWhere

section Lines

variable (line : BitVec 32) (r : Request)

def Request.beginAddr : IntPtr := r.address

def Request.endAddr : IntPtr := r.address + r.dataSize.setWidth 64

def aligned (addr : IntPtr) : IntPtr := addr - addr % line.setWidth 64

def currOffset (curr : IntPtr) : BitVec 32 :=
  if curr = aligned line r.beginAddr then (r.beginAddr % line.setWidth 64).setWidth 32 else 0

def currSize (curr : IntPtr) : BitVec 32 :=
  if curr = aligned line r.endAddr then
    (r.endAddr % line.setWidth 64 - (currOffset line r curr).setWidth 64).setWidth 32
  else line - currOffset line r curr

/-- The part of the access in the line at `curr`, none where it ends at the first byte of the line. -/
def pieceAt (head curr : IntPtr) : Option Piece :=
  if curr = aligned line r.endAddr ∧ currSize line r curr = 0 then none
  else some ⟨curr, currOffset line r curr, r.dataBuf.map fun _ => head, currSize line r curr⟩

end Lines

/-- The loop's variables, and the calls of the memory manager it made. -/
structure Walk (σ : Type) where
  currDataBufferHead : IntPtr
  numMisses : BitVec 32
  hitWhere : HitWhere
  calls : List Piece
  sys : σ

section Access

variable {σ : Type} (m : MemorySystem σ) (r : Request)

def Walk.accessLine (w : Walk σ) (p : Piece) : Walk σ :=
  let sys := match m.cheetahAccess with
    | some access => access r.memOpType p.address w.sys
    | none => w.sys
  let (thisHitWhere, sys) :=
    m.coreInitiateMemoryAccess r.memComponent r.lockSignal r.memOpType p r.modeled sys
  { currDataBufferHead := w.currDataBufferHead + p.dataLength.setWidth 64
    -- the source counts a miss by the places of the lines before this one
    numMisses := if w.hitWhere ≠ r.memComponent then w.numMisses + 1 else w.numMisses
    hitWhere :=
      if w.hitWhere = HitWhere.unknown ∨
          (thisHitWhere ≠ HitWhere.unknown ∧ w.hitWhere < thisHitWhere) then thisHitWhere
      else w.hitWhere
    calls := w.calls ++ [p]
    sys }

def Walk.turn (w : Walk σ) (curr : IntPtr) : Walk σ :=
  match pieceAt m.cacheBlockSize r w.currDataBufferHead curr with
  | some p => w.accessLine m r p
  | none => w

/-- The loop over the lines, none where it is not over after `fuel` turns. -/
def accessLines : Nat → IntPtr → Walk σ → Option (Walk σ)
  | 0, _, _ => none
  | fuel + 1, curr, w =>
    if curr ≤ aligned m.cacheBlockSize r.endAddr then
      accessLines fuel (curr + m.cacheBlockSize.setWidth 64) (w.turn m r curr)
    else some w

/-- What becomes of the access once its lines are done. -/
def finishAccess (initialTime : Nat) (w : Walk σ) : Except MemoryError (MemoryResult × σ) := do
  let finalTime := m.getElapsedTime w.sys
  if finalTime < initialTime then throw .timeBackwards
  let sys := if r.lockSignal ≠ .lock then m.release w.sys else w.sys
  let shmemTime := finalTime - initialTime
  let sys := match r.modeled with
    | .time | .fenced =>
      if m.isEnabled sys then
        m.queueMemAccess shmemTime r.address r.dataSize (r.modeled = .fenced) sys
      else sys
    | .count | .countTlbTime =>
      if 0 < shmemTime then m.handleMemoryLatency shmemTime w.hitWhere sys else sys
    | .none | .return => sys
  let sys := if r.modeled ≠ .none then m.incrTotalMemoryAccessLatency shmemTime sys else sys
  if w.hitWhere = HitWhere.unknown then throw .hitWhereUnknown
  return (← makeMemoryResult w.hitWhere shmemTime, sys)

/-- The calls of the memory manager in order, and the answer. -/
def initiateMemoryAccess (fuel : Nat) (sys : σ) :
    Option (List Piece × Except MemoryError (MemoryResult × σ)) :=
  if r.dataSize = 0 then
    some ([], (makeMemoryResult r.memComponent 0).map fun result => (result, sys))
  else do
    let initialTime := r.now.getD (m.coreTime sys)
    let sys := if r.lockSignal ≠ .unlock then m.acquire sys else sys
    let sys := m.setElapsedTime initialTime sys
    let w ← accessLines m r fuel (aligned m.cacheBlockSize r.beginAddr)
      ⟨r.dataBuf.getD 0, 0, HitWhere.unknown, [], sys⟩
    return (w.calls, finishAccess m r initialTime w)

end Access

end Sniper.Core
