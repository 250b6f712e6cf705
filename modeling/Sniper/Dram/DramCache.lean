import Sniper.Cache.Contents
set_option autoImplicit false

/-! The DRAM cache, in front of a DRAM controller. -/

namespace Sniper.Dram
open Sniper.Lib Cache Cache.Dish

variable {n assoc : Nat}

/-- The data map of a DRAM controller, which it keeps for the fault injection manager. -/
structure DramCntlr (n : Nat) where
  dataMap : Addr → Option (Line n)

namespace DramCntlr

/-- A line that was never accessed is blank. -/
def line (m : DramCntlr n) (addr : Addr) : Line n := (m.dataMap addr).getD .zero

def getDataFromDram (m : DramCntlr n) (addr : Addr) : Line n × DramCntlr n :=
  (m.line addr, ⟨Function.update m.dataMap addr (some (m.line addr))⟩)

/-- A line must have been read before it is written. -/
def putDataToDram (m : DramCntlr n) (addr : Addr) (wrData : Line n) : Outcome (DramCntlr n) := do
  check (m.dataMap addr).isSome .nullPointer
  return ⟨Function.update m.dataMap addr (some wrData)⟩

/-- The loop over the lines displaced by an insertion, of which the dirty ones are written. -/
def putWritebacks (m : DramCntlr n) : List (Writeback n) → Outcome (DramCntlr n)
  | [] => .ok m
  | wb :: wbs =>
    if wb.info.cstate = .modified then do
      let m ← m.putDataToDram wb.addr wb.data
      m.putWritebacks wbs
    else m.putWritebacks wbs

end DramCntlr

structure DramCache (n assoc : Nat) where
  cache : Cache n assoc
  dram : DramCntlr n

inductive DramOp (n : Nat) where
  | getDataFromDram (addr : Addr) (rdData : Line n)
  | putDataToDram (addr : Addr) (wrData : Line n)

def DramOp.addr : DramOp n → Addr
  | .getDataFromDram addr _ => addr
  | .putDataToDram addr _ => addr

/-- One access, with the way that makes room for its line and, each with its own, the lines the
prefetcher asks for after it. No line of this cache is ever being upgraded, so there is a way to
replace. -/
structure DramCall (n assoc : Nat) where
  op : DramOp n
  repl : Fin assoc
  prefetches : List (Addr × Fin assoc)
  order : Order

/-- What an access hands back: whether it hit, the buffer it was given, and the lines that were
displaced meanwhile. -/
structure DramAnswer (n : Nat) where
  hit : Bool
  data : Line n
  evicted : List (Writeback n)

namespace DramCache

variable (g : CacheGeometry n) (host : Addr → Ptr)

/-- An insertion without a controller, which marks the line, then writes back what it displaced. -/
def putDataToCache (o : Order) (d : DramCache n assoc) (cstate : CacheState) (addr : Addr)
    (insData : Line n) (repl : Fin assoc) : Outcome (List (Writeback n) × DramCache n assoc) := do
  let (cache, wbs) ← d.cache.insertSingleLine g o addr (some insData.ptr) (host addr) false false
    repl.castSucc
  let cache ← cache.setCState g addr cstate
  let dram ← d.dram.putWritebacks wbs
  return (wbs, ⟨cache, dram⟩)

/-- The loop over the prefetch list. -/
def callPrefetcher (o : Order) (d : DramCache n assoc) :
    List (Addr × Fin assoc) → Outcome (List (Writeback n) × DramCache n assoc)
  | [] => .ok ([], d)
  | (addr, repl) :: rest => do
    let info ← d.cache.peekSingleLine g addr
    match info with
    | some _ => d.callPrefetcher o rest
    | none =>
      let (data, dram) := d.dram.getDataFromDram addr
      let (wbs, d) ← putDataToCache g host o ⟨d.cache, dram⟩ .shared addr data repl
      let (wbs', d) ← d.callPrefetcher o rest
      return (wbs ++ wbs', d)

/-- The access itself. No access is told to be a writeback, and none is given a list for the lines
it displaces or a controller. -/
def doAccess (d : DramCache n assoc) (o : Order) (repl : Fin assoc) :
    DramOp n → Outcome (DramAnswer n × DramCache n assoc)
  | .getDataFromDram addr rdData => do
    let info ← d.cache.peekSingleLine g addr
    match info with
    | some _ =>
      let (out, cache) ← d.cache.accessSingleLine g o addr (.load (some rdData)) n (host addr)
        repl.castSucc
      return (⟨true, out.buf.getD rdData, out.writebacks⟩, ⟨cache, d.dram⟩)
    | none =>
      let (data, dram) := d.dram.getDataFromDram addr
      let (wbs, d) ← putDataToCache g host o ⟨d.cache, dram⟩ .shared addr data repl
      return (⟨false, data, wbs⟩, d)
  | .putDataToDram addr wrData => do
    let info ← d.cache.peekSingleLine g addr
    match info with
    | some _ =>
      let (out, cache) ← d.cache.accessSingleLine g o addr (.store (some wrData.ptr) false false false)
        n (host addr) repl.castSucc
      let cache ← cache.setCState g addr .modified
      return (⟨true, wrData, out.writebacks⟩, ⟨cache, d.dram⟩)
    | none =>
      let (wbs, d) ← putDataToCache g host o d .modified addr wrData repl
      return (⟨false, wrData, wbs⟩, d)

def perform (d : DramCache n assoc) (call : DramCall n assoc) :
    Outcome (DramAnswer n × DramCache n assoc) := do
  let (out, d) ← d.doAccess g host call.order call.repl call.op
  let (wbs, d) ← d.callPrefetcher g host call.order call.prefetches
  return ({ out with evicted := out.evicted ++ wbs }, d)

/-- Runs of a DRAM cache that starts empty in front of a given DRAM controller. -/
def machine (n assoc : Nat) (g : CacheGeometry n) (host : Addr → Ptr) (m : DramCntlr n) :
    Machine (DramCache n assoc) (DramCall n assoc) (DramAnswer n) where
  init d := ∃ otf prune, d = ⟨.fresh false otf prune, m⟩
  step d call out d' := d.perform g host call = .ok (out, d')

end DramCache

/-! ### The memory behind the calls -/

/-- The memory a caller has in mind after a call. -/
def DramOp.after (mem : Addr → Line n) : DramOp n → Addr → Line n
  | .getDataFromDram .. => mem
  | .putDataToDram addr wrData => Function.update mem addr wrData

/-- The data last put, or that of the DRAM behind the cache where none was put. -/
def latest (m : DramCntlr n) (tr : List (DramCall n assoc × DramAnswer n)) : Addr → Line n :=
  tr.foldl (fun mem e => e.1.op.after mem) m.line

@[simp] theorem latest_nil (m : DramCntlr n) :
    latest m ([] : List (DramCall n assoc × DramAnswer n)) = m.line := rfl

@[simp] theorem latest_snoc (m : DramCntlr n) (tr : List (DramCall n assoc × DramAnswer n))
    (call : DramCall n assoc) (out : DramAnswer n) :
    latest m (tr ++ [(call, out)]) = call.op.after (latest m tr) := by
  simp [latest]

/-- The address of a whole line. -/
structure LineAddr (n : Nat) (addr : Addr) : Prop where
  start : tagToAddress n (tagOf n addr) = addr
  offset : Cache.offsetOf n addr = 0
  used : (CacheBlockInfo.new (tagOf n addr)).isValid = true

/-- The line is in the cache, or blank in the DRAM. -/
def CachedOrBlank (g : CacheGeometry n) (d : DramCache n assoc) (addr : Addr) : Prop :=
  d.cache.peekSingleLine g addr = .ok none → d.dram.line addr = .zero

/-- A blank line is read, or one that is not in the cache is written, after it was read. -/
def DramOp.Harmless (g : CacheGeometry n) (d : DramCache n assoc) : DramOp n → Prop
  | .getDataFromDram addr _ => LineAddr n addr ∧ CachedOrBlank g d addr
  | .putDataToDram addr wrData => LineAddr n addr ∧ d.cache.peekSingleLine g addr = .ok none ∧
    wrData = .zero ∧ (d.dram.dataMap addr).isSome = true

def Harmless (g : CacheGeometry n) (d : DramCache n assoc) (call : DramCall n assoc) : Prop :=
  call.op.Harmless g d ∧
  ∀ p ∈ call.prefetches, LineAddr n p.1 ∧ (p.1 = call.op.addr ∨ CachedOrBlank g d p.1)

/-- What a read of the line would return. -/
def ReadsBack (g : CacheGeometry n) (host : Addr → Ptr) (d : DramCache n assoc) (addr : Addr)
    (line : Line n) : Prop :=
  ∀ rdData repl o, ∃ out d',
    d.perform g host ⟨.getDataFromDram addr rdData, repl, [], o⟩ = .ok (out, d') ∧ out.data = line

end Sniper.Dram
