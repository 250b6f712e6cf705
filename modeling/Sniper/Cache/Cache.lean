import Sniper.Cache.Address
import Sniper.Cache.Conservation
set_option autoImplicit false
set_option linter.dupNamespace false

/-! A cache: its sets, and the one compression controller they share. -/

namespace Sniper.Cache
open Sniper.Lib Dish

variable {n assoc : Nat}

/-- A write through the pointer to a block info. -/
def SuperblockInfo.modifyAt (s : SuperblockInfo) (b : BlockId)
    (f : CacheBlockInfo → CacheBlockInfo) : SuperblockInfo :=
  { s with blockInfos := Function.update s.blockInfos b ((s.blockInfos b).map f) }

def CacheSet.readLine (s : CacheSet n assoc) (w : Fin assoc) (b : BlockId) (a : Slice n) :
    Option (Line n) → Outcome (Option (Line n))
  | none => .ok none
  | some rd => do
    check ((s w).info.isValidAt b) .assertion
    (s w).data.readBlockData b a (some rd)

structure Cache (n assoc : Nat) where
  sets : Nat → CacheSet n assoc
  cntlr : CompressionCntlr

/-- The arguments of an access that its type decides about. A load is given a buffer to fill, a
store one to read; a store also says whether it is a writeback, and needs a list for the lines it
displaces and a controller. -/
inductive Access (n : Nat) where
  | load (accData : Option (Line n))
  | store (accData : Option Ptr) (isWriteback hasWritebacks hasCntlr : Bool)

/-- What an access hands back: the block info it hit, the buffer it filled and the lines it
displaced. -/
structure Accessed (n : Nat) where
  hit : Option CacheBlockInfo
  buf : Option (Line n)
  writebacks : List (Writeback n)

namespace Cache

/-- A cache as constructed, its compression options as configured. -/
def fresh (compressible otf prune : Bool) : Cache n assoc :=
  ⟨fun _ => .fresh, ⟨compressible, otf, prune, 0, 0⟩⟩

def setSet (c : Cache n assoc) (set : Nat) (s : CacheSet n assoc) (k : CompressionCntlr) :
    Cache n assoc :=
  ⟨Function.update c.sets set s, k⟩

variable (g : CacheGeometry n)

/-- The offset of an address in its block, taken with a mask. -/
def offsetOf (n : Nat) (addr : Addr) : Nat := (addr &&& BitVec.ofNat 64 (n - 1)).toNat

/-- Where the line of an address is, if it is resident. -/
def find (c : Cache n assoc) (addr : Addr) : Outcome (Option (Fin assoc)) :=
  (c.sets (g.setOf addr)).find (tagOf n addr) (g.blockIdOf addr)

def infoAt (c : Cache n assoc) (addr : Addr) (w : Fin assoc) : Option CacheBlockInfo :=
  (c.sets (g.setOf addr) w).info.blockInfos (g.blockIdOf addr)

def peekSingleLine (c : Cache n assoc) (addr : Addr) : Outcome (Option CacheBlockInfo) := do
  let found ← c.find g addr
  return found.bind (c.infoAt g addr)

/-- The data an insertion takes: none without a controller, else the caller's on a fill and the
bytes of the host at the address otherwise. -/
def insertData (hasCntlr isFill : Bool) (ins : Option Ptr) (real : Ptr) : Outcome (Option Ptr) :=
  if hasCntlr then
    if isFill then do
      check ins.isSome .assertion
      return ins
    else return some real
  else return none

def insertSingleLine (o : Order) (c : Cache n assoc) (addr : Addr) (ins : Option Ptr) (real : Ptr)
    (isFill hasCntlr : Bool) (repl : Fin (assoc + 1)) :
    Outcome (Cache n assoc × List (Writeback n)) := do
  let data ← insertData hasCntlr isFill ins real
  let (s, wbs, k) ← (c.sets (g.setOf addr)).insertLine g.linear o (.new (tagOf n addr)) data repl
    c.cntlr
  return (c.setSet (g.setOf addr) s k, wbs)

/-- The buffer a store reads: the bytes of the host unless the caller brings its own. -/
def storeData (accData : Option Ptr) (bytes : Nat) (real : Ptr) : Option Ptr :=
  if bytes = 0 then accData else some (accData.getD real)

def accessSingleLine (o : Order) (c : Cache n assoc) (addr : Addr) (access : Access n) (bytes : Nat)
    (real : Ptr) (repl : Fin (assoc + 1)) : Outcome (Accessed n × Cache n assoc) := do
  let found ← c.find g addr
  match found with
  | none =>
    match access with
    | .load accData => return (⟨none, accData, []⟩, c)
    | .store .. => return (⟨none, none, []⟩, c)
  | some w =>
    if h : offsetOf n addr + bytes ≤ n then
      match access with
      | .load accData => do
        let buf ← (c.sets (g.setOf addr)).readLine w (g.blockIdOf addr) ⟨_, bytes, h⟩ accData
        return (⟨c.infoAt g addr w, buf, []⟩, c)
      | .store accData isWriteback hasWritebacks hasCntlr => do
        check hasWritebacks .assertion
        check hasCntlr .assertion
        let (s, wbs, k) ← (c.sets (g.setOf addr)).writeLine g.linear o (tagOf n addr)
          (g.blockIdOf addr) ⟨_, bytes, h⟩ (storeData accData bytes real) isWriteback repl c.cntlr
        return (⟨c.infoAt g addr w, none, wbs⟩, c.setSet (g.setOf addr) s k)
    else .error .assertion

def invalidateSingleLine (c : Cache n assoc) (addr : Addr) : Outcome (Cache n assoc) := do
  let (s, k) ← (c.sets (g.setOf addr)).invalidate (tagOf n addr) (g.blockIdOf addr) c.cntlr
  return c.setSet (g.setOf addr) s k

/-- A write to the block info that `peekSingleLine` returned, past the set. -/
def modifyInfo (c : Cache n assoc) (addr : Addr) (f : CacheBlockInfo → CacheBlockInfo) :
    Outcome (Cache n assoc) := do
  let found ← c.find g addr
  match found with
  | none => .error .nullPointer
  | some w =>
    let s := c.sets (g.setOf addr)
    let v := { s w with info := (s w).info.modifyAt (g.blockIdOf addr) f }
    return c.setSet (g.setOf addr) (Function.update s w v) c.cntlr

def setCState (c : Cache n assoc) (addr : Addr) (cstate : CacheState) : Outcome (Cache n assoc) :=
  c.modifyInfo g addr fun i => { i with cstate := cstate }

/-- `CacheBlockInfo::invalidate` called by a controller on the block info itself. -/
def invalidateInfo (c : Cache n assoc) (addr : Addr) : Outcome (Cache n assoc) :=
  c.modifyInfo g addr CacheBlockInfo.invalidate

end Cache

inductive CacheOp (n : Nat) where
  | insertSingleLine (addr : Addr) (ins : Option Ptr) (real : Ptr) (isFill hasCntlr : Bool)
  | accessSingleLine (addr : Addr) (access : Access n) (bytes : Nat) (real : Ptr)
  | invalidateSingleLine (addr : Addr)
  | setCState (addr : Addr) (cstate : CacheState)
  | invalidateInfo (addr : Addr)

/-- One call on a cache, with the replacement way it will be told if it asks for one. -/
structure CacheCall (n assoc : Nat) where
  op : CacheOp n
  repl : Fin (assoc + 1)
  order : Order

namespace Cache

def perform (g : CacheGeometry n) (c : Cache n assoc) (call : CacheCall n assoc) :
    Outcome (List (Writeback n) × Cache n assoc) :=
  match call.op with
  | .insertSingleLine addr ins real isFill hasCntlr => do
    let (c, wbs) ← c.insertSingleLine g call.order addr ins real isFill hasCntlr call.repl
    return (wbs, c)
  | .accessSingleLine addr access bytes real => do
    let (out, c) ← c.accessSingleLine g call.order addr access bytes real call.repl
    return (out.writebacks, c)
  | .invalidateSingleLine addr => do
    let c ← c.invalidateSingleLine g addr
    return ([], c)
  | .setCState addr cstate => do
    let c ← c.setCState g addr cstate
    return ([], c)
  | .invalidateInfo addr => do
    let c ← c.invalidateInfo g addr
    return ([], c)

def machine (n assoc : Nat) (g : CacheGeometry n) :
    Machine (Cache n assoc) (CacheCall n assoc) (List (Writeback n)) where
  init c := ∃ compressible otf prune, c = fresh compressible otf prune
  step c call wbs c' := c.perform g call = .ok (wbs, c')

/-- Lines are inserted only when not resident. -/
def InsertsAbsent (g : CacheGeometry n) (c : Cache n assoc) (call : CacheCall n assoc) : Prop :=
  match call.op with
  | .insertSingleLine addr .. => c.peekSingleLine g addr = .ok none
  | _ => True

end Cache

end Sniper.Cache
