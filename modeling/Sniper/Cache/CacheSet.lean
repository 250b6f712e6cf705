import Sniper.Cache.BlockInfo
import Sniper.Cache.Refinement
set_option autoImplicit false

namespace Sniper.Cache
open Sniper.Lib Dish

/-- The tags of one way: four block infos, each possibly null. -/
structure SuperblockInfo where
  supertag : Addr
  blockInfos : BlockId → Option CacheBlockInfo

namespace SuperblockInfo

def fresh : SuperblockInfo := ⟨tagUnused, fun _ => none⟩

def isValidAt (s : SuperblockInfo) (b : BlockId) : Bool := (s.blockInfos b).any CacheBlockInfo.isValid

def isValid (s : SuperblockInfo) : Bool := (List.finRange superblockSize).any s.isValidAt

def canInsertBlockInfo (s : SuperblockInfo) (supertag : Addr) (b : BlockId) : Bool :=
  if !s.isValid then true else !s.isValidAt b && supertag == s.supertag

def insertBlockInfo (s : SuperblockInfo) (supertag : Addr) (b : BlockId) (i : CacheBlockInfo) :
    SuperblockInfo where
  supertag := if !s.isValid then supertag else s.supertag
  blockInfos := Function.update s.blockInfos b (some i)

/-- The supertag of a superblock without a valid block is unused. -/
def dropSupertag (s : SuperblockInfo) : SuperblockInfo :=
  if !s.isValid then { s with supertag := tagUnused } else s

def evictBlockInfo (s : SuperblockInfo) (b : BlockId) : Option CacheBlockInfo × SuperblockInfo :=
  (s.blockInfos b, { s with blockInfos := Function.update s.blockInfos b none }.dropSupertag)

def compareTags (s : SuperblockInfo) (tag : Addr) : Option BlockId :=
  (List.finRange superblockSize).find? fun b =>
    (s.blockInfos b).any fun i => i.isValid && tag == i.tag

def invalidateBlockInfo (s : SuperblockInfo) (tag : Addr) (b : BlockId) : Outcome SuperblockInfo :=
  match s.blockInfos b with
  | none => .error .nullPointer
  | some i => do
    check (tag == i.tag) .tagMismatch
    return { s with blockInfos := Function.update s.blockInfos b (some i.invalidate) }.dropSupertag

end SuperblockInfo

variable {n assoc : Nat}

/-- One way of a set: `m_superblock_info_ways[way]` and `m_data_ways[way]`. -/
structure Way (n : Nat) where
  info : SuperblockInfo
  data : BlockData n

def Way.fresh : Way n := ⟨.fresh, .fresh⟩

/-- A line on its way out of the set: its address, its block info and its bytes. -/
structure Writeback (n : Nat) where
  addr : Addr
  info : CacheBlockInfo
  data : Line n

def tagToAddress (n : Nat) (tag : Addr) : Addr := tag <<< n.log2

open scoped Lib.Literals in
/-- The supertag and the block id of an address; `linear` is the home lookup's linear address,
or the identity without one. -/
def splitAddress (n : Nat) (linear : Addr → Addr) (addr : Addr) : Addr × BlockId :=
  let superblockNum := linear addr >>> n.log2
  (superblockNum >>> superblockSize.log2, Fin.ofNat superblockSize superblockNum.toNat)

abbrev CacheSet (n assoc : Nat) := Fin assoc → Way n

namespace CacheSet

def fresh : CacheSet n assoc := fun _ => .fresh

/-- The scan for a superblock that takes the line beside those it holds. -/
def mergeWay (s : CacheSet n assoc) (supertag : Addr) (b : BlockId) (ins : Option Ptr)
    (k : CompressionCntlr) : List (Fin assoc) → Outcome (Option (Fin assoc))
  | [] => .ok none
  | w :: ws =>
    if (s w).info.canInsertBlockInfo supertag b then do
      let fits ← (s w).data.canInsertBlockData b ins k
      if fits then return some w
      mergeWay s supertag b ins k ws
    else mergeWay s supertag b ins k ws

/-- Insert a line into a way: its bytes, then its block info. -/
def placeLine (o : Order) (v : Way n) (supertag : Addr) (b : BlockId) (i : CacheBlockInfo)
    (ins : Option Ptr) (k : CompressionCntlr) : Outcome (Way n × CompressionCntlr) := do
  let (data, k) ← v.data.insertBlockData o b ins k
  return (⟨v.info.insertBlockInfo supertag b i, data⟩, k)

/-- Kick out the listed blocks of a way, as far as they are valid. -/
def evictBlocks (v : Way n) (k : CompressionCntlr) :
    List BlockId → Outcome (Way n × List (Writeback n) × CompressionCntlr)
  | [] => .ok (v, [], k)
  | b :: bs =>
    if v.info.isValidAt b then
      match v.info.evictBlockInfo b with
      | (none, _) => .error .nullPointer
      | (some i, info) => do
        let (line, data, k) ← v.data.evictBlockData b k
        let (v, wbs, k) ← evictBlocks ⟨info, data⟩ k bs
        return (v, ⟨tagToAddress n i.tag, i, line⟩ :: wbs, k)
    else evictBlocks v k bs

/-- `insertLine`; `repl` is what `getReplacementWay` answers, `assoc` standing for a bypass. -/
def insertLine (linear : Addr → Addr) (o : Order) (s : CacheSet n assoc) (i : CacheBlockInfo)
    (ins : Option Ptr) (repl : Fin (assoc + 1)) (k : CompressionCntlr) :
    Outcome (CacheSet n assoc × List (Writeback n) × CompressionCntlr) := do
  let addr := tagToAddress n i.tag
  let (supertag, b) := splitAddress n linear addr
  let merge ← mergeWay s supertag b ins k (List.finRange assoc)
  match merge with
  | some w =>
    let (v, k) ← placeLine o (s w) supertag b i ins k
    return (Function.update s w v, [], k)
  | none =>
    if h : repl.val < assoc then
      let w : Fin assoc := ⟨repl, h⟩
      let (v, wbs, k) ← evictBlocks (s w) k (List.finRange superblockSize)
      check (!v.info.isValid) .assertion
      let (v, k) ← placeLine o v supertag b i ins k
      return (Function.update s w v, wbs, k)
    else
      match ins with
      | none => .error .nullPointer
      | some p => return (s, [⟨addr, i, .ofPtr p⟩], k)

/-- The first way that holds the tag, which must hold it at the block id asked for. -/
def find (s : CacheSet n assoc) (tag : Addr) (b : BlockId) : Outcome (Option (Fin assoc)) :=
  match (List.finRange assoc).find? fun w => ((s w).info.compareTags tag).isSome with
  | none => .ok none
  | some w => do
    check ((s w).info.compareTags tag == some b) .wrongPlace
    return some w

/-- The temporary buffer of an evict-and-reinsert write: the new bytes go to its start. -/
def patched (old : Line n) (a : Slice n) : Option Ptr → Line n
  | none => old
  | some wr => copyN (wr.add a.offset) a.bytes 0 old

def writeLine (linear : Addr → Addr) (o : Order) (s : CacheSet n assoc) (tag : Addr) (b : BlockId)
    (a : Slice n) (wr : Option Ptr) (isWriteback : Bool) (repl : Fin (assoc + 1))
    (k : CompressionCntlr) :
    Outcome (CacheSet n assoc × List (Writeback n) × CompressionCntlr) := do
  check ((wr.isNone && a.offset == 0 && a.bytes == 0) || wr.isSome) .assertion
  let found ← find s tag b
  match found with
  | none => .error .notResident
  | some w =>
    let accepted ← (s w).data.canWriteBlockData b a wr k
    if accepted then
      let (data, k) ← (s w).data.writeBlockData o b a wr k
      return (Function.update s w { s w with data := data }, [], k)
    else
      let (line, data, k) ← (s w).data.evictBlockData b k
      match (s w).info.evictBlockInfo b with
      | (none, _) => .error .nullPointer
      | (some i, info) =>
        let s := Function.update s w ⟨info, data⟩
        let (s, wbs, k) ← insertLine linear o s i (some (patched line a wr).ptr) repl k
        if isWriteback then return (s, wbs, k)
        let found ← find s tag b
        check found.isSome .notResident
        return (s, wbs, k)

def invalidate (s : CacheSet n assoc) (tag : Addr) (b : BlockId) (k : CompressionCntlr) :
    Outcome (CacheSet n assoc × CompressionCntlr) := do
  let found ← find s tag b
  match found with
  | none => return (s, k)
  | some w =>
    let info ← (s w).info.invalidateBlockInfo tag b
    let (data, k) := (s w).data.invalidateBlockData b k
    return (Function.update s w ⟨info, data⟩, k)

/-! ### What the operations on a set can do -/

variable {linear : Addr → Addr} {o : Order} {s s' : CacheSet n assoc} {i : CacheBlockInfo}
variable {ins : Option Ptr} {repl : Fin (assoc + 1)} {k k' : CompressionCntlr}
variable {wbs : List (Writeback n)} {supertag : Addr} {b : BlockId}

theorem mergeWay_some {ws : List (Fin assoc)} {w : Fin assoc}
    (h : mergeWay s supertag b ins k ws = .ok (some w)) :
    (s w).info.canInsertBlockInfo supertag b = true ∧
      (s w).data.canInsertBlockData b ins k = .ok true := by
  induction ws with
  | nil => simp [mergeWay] at h
  | cons u ws ih =>
    rw [mergeWay] at h
    split at h
    · rename_i hinfo
      simp only [except_bind_eq_ok] at h
      obtain ⟨fits, hfits, h⟩ := h
      cases fits with
      | true =>
        simp only [if_true, pure_eq_ok, Option.some.injEq] at h
        subst h
        exact ⟨hinfo, hfits⟩
      | false => exact ih (by simpa using h)
    · exact ih h

/-- How a completed insertion of block `b` of superblock `supertag` went. -/
inductive InsertCase (o : Order) (s : CacheSet n assoc) (addr supertag : Addr) (b : BlockId)
    (i : CacheBlockInfo) (ins : Option Ptr) (repl : Fin (assoc + 1)) (k : CompressionCntlr) :
    CacheSet n assoc → List (Writeback n) → CompressionCntlr → Prop where
  | merged {w : Fin assoc} {v : Way n} {k' : CompressionCntlr} :
      mergeWay s supertag b ins k (List.finRange assoc) = .ok (some w) →
      placeLine o (s w) supertag b i ins k = .ok (v, k') →
      InsertCase o s addr supertag b i ins repl k (Function.update s w v) [] k'
  | replaced {w : Fin assoc} {v v' : Way n} {wbs : List (Writeback n)} {k₁ k' : CompressionCntlr} :
      mergeWay s supertag b ins k (List.finRange assoc) = .ok none → w.val = repl.val →
      evictBlocks (s w) k (List.finRange superblockSize) = .ok (v, wbs, k₁) →
      v.info.isValid = false → placeLine o v supertag b i ins k₁ = .ok (v', k') →
      InsertCase o s addr supertag b i ins repl k (Function.update s w v') wbs k'
  | bypassed {p : Ptr} :
      mergeWay s supertag b ins k (List.finRange assoc) = .ok none → repl.val = assoc →
      ins = some p → InsertCase o s addr supertag b i ins repl k s [⟨addr, i, .ofPtr p⟩] k

theorem insertLine_cases (h : insertLine linear o s i ins repl k = .ok (s', wbs, k')) :
    InsertCase o s (tagToAddress n i.tag) (splitAddress n linear (tagToAddress n i.tag)).1
      (splitAddress n linear (tagToAddress n i.tag)).2 i ins repl k s' wbs k' := by
  simp only [insertLine, except_bind_eq_ok] at h
  obtain ⟨merge, hmerge, h⟩ := h
  cases merge with
  | some w =>
    simp only [except_bind_eq_ok, pure_eq_ok, Prod.mk.injEq] at h
    obtain ⟨⟨v, k₁⟩, hplace, rfl, rfl, rfl⟩ := h
    exact .merged hmerge hplace
  | none =>
    simp only at h
    split at h
    · simp only [except_bind_eq_ok, pure_eq_ok, Prod.mk.injEq, check_ok, Bool.not_eq_true'] at h
      obtain ⟨⟨v, wbs', k₁⟩, hev, -, hempty, ⟨v', k₂⟩, hplace, rfl, rfl, rfl⟩ := h
      exact .replaced hmerge rfl hev hempty hplace
    · cases ins with
      | none => simp at h
      | some p =>
        simp only [pure_eq_ok, Prod.mk.injEq] at h
        obtain ⟨rfl, rfl, rfl⟩ := h
        have hle := repl.isLt
        exact .bypassed hmerge (by omega) rfl

theorem find_some {tag : Addr} {w : Fin assoc} (h : find s tag b = .ok (some w)) :
    ∃ i, (s w).info.blockInfos b = some i ∧ i.isValid = true ∧ i.tag = tag := by
  simp only [find] at h
  split at h
  · simp at h
  · simp only [except_bind_eq_ok, pure_eq_ok, Option.some.injEq, check_ok, beq_iff_eq] at h
    obtain ⟨-, hcmp, rfl⟩ := h
    have hmatch := List.find?_some hcmp
    simp only [Option.any_eq_true, Bool.and_eq_true, beq_iff_eq] at hmatch
    obtain ⟨i, hi, hvalid, htag⟩ := hmatch
    exact ⟨i, hi, hvalid, htag.symm⟩

/-- How a completed write went: in place, or by eviction and insertion. -/
inductive WriteCase (linear : Addr → Addr) (o : Order) (s : CacheSet n assoc) (w : Fin assoc)
    (b : BlockId) (i : CacheBlockInfo) (a : Slice n) (wr : Option Ptr) (repl : Fin (assoc + 1))
    (k : CompressionCntlr) : CacheSet n assoc → List (Writeback n) → CompressionCntlr → Prop where
  | inPlace {data : BlockData n} {k' : CompressionCntlr} :
      (s w).data.canWriteBlockData b a wr k = .ok true →
      (s w).data.writeBlockData o b a wr k = .ok (data, k') →
      WriteCase linear o s w b i a wr repl k (Function.update s w { s w with data := data }) [] k'
  | reinserted {line : Line n} {data : BlockData n} {k₁ k' : CompressionCntlr}
      {s' : CacheSet n assoc} {wbs : List (Writeback n)} :
      (s w).data.canWriteBlockData b a wr k = .ok false →
      (s w).data.evictBlockData b k = .ok (line, data, k₁) →
      insertLine linear o (Function.update s w ⟨((s w).info.evictBlockInfo b).2, data⟩) i
        (some (patched line a wr).ptr) repl k₁ = .ok (s', wbs, k') →
      WriteCase linear o s w b i a wr repl k s' wbs k'

theorem writeLine_cases {tag : Addr} {a : Slice n} {wr : Option Ptr} {isWriteback : Bool}
    (h : writeLine linear o s tag b a wr isWriteback repl k = .ok (s', wbs, k')) :
    ∃ w i, find s tag b = .ok (some w) ∧ (s w).info.blockInfos b = some i ∧ i.isValid = true ∧
      i.tag = tag ∧ WriteCase linear o s w b i a wr repl k s' wbs k' := by
  simp only [writeLine, except_bind_eq_ok] at h
  obtain ⟨-, -, found, hfind, h⟩ := h
  cases found with
  | none => simp at h
  | some w =>
    obtain ⟨i, hi, hvalid, htag⟩ := find_some hfind
    refine ⟨w, i, hfind, hi, hvalid, htag, ?_⟩
    simp only [except_bind_eq_ok] at h
    obtain ⟨accepted, hcan, h⟩ := h
    cases accepted with
    | true =>
      simp only [if_true, except_bind_eq_ok, pure_eq_ok, Prod.mk.injEq] at h
      obtain ⟨⟨data, k₁⟩, hwrite, rfl, rfl, rfl⟩ := h
      exact .inPlace hcan hwrite
    | false =>
      simp only [Bool.false_eq_true, if_false, except_bind_eq_ok] at h
      obtain ⟨⟨line, data, k₁⟩, hev, h⟩ := h
      have hinfo : (s w).info.evictBlockInfo b = (some i, ((s w).info.evictBlockInfo b).2) := by
        simp [SuperblockInfo.evictBlockInfo, hi]
      rw [hinfo] at h
      simp only [except_bind_eq_ok] at h
      obtain ⟨⟨u, wbs', k₂⟩, hins, h⟩ := h
      have hend : u = s' ∧ wbs' = wbs ∧ k₂ = k' := by
        cases isWriteback with
        | true => simpa using h
        | false =>
          simp only [Bool.false_eq_true, if_false, except_bind_eq_ok, pure_eq_ok, Prod.mk.injEq] at h
          obtain ⟨-, -, -, -, hend⟩ := h
          exact hend
      obtain ⟨rfl, rfl, rfl⟩ := hend
      exact .reinserted hcan hev hins

theorem invalidate_cases {tag : Addr} (h : s.invalidate tag b k = .ok (s', k')) :
    (find s tag b = .ok none ∧ s' = s ∧ k' = k) ∨
    ∃ w info, find s tag b = .ok (some w) ∧ (s w).info.invalidateBlockInfo tag b = .ok info ∧
      s' = Function.update s w ⟨info, ((s w).data.invalidateBlockData b k).1⟩ ∧
      k' = ((s w).data.invalidateBlockData b k).2 := by
  simp only [invalidate, except_bind_eq_ok] at h
  obtain ⟨found, hfind, h⟩ := h
  cases found with
  | none =>
    simp only [pure_eq_ok, Prod.mk.injEq] at h
    exact .inl ⟨hfind, h.1.symm, h.2.symm⟩
  | some w =>
    simp only [except_bind_eq_ok, pure_eq_ok, Prod.mk.injEq] at h
    obtain ⟨info, hinfo, rfl, rfl⟩ := h
    exact .inr ⟨w, info, hfind, hinfo, rfl, rfl⟩

end CacheSet

end Sniper.Cache
