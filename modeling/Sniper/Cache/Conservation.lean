import Sniper.Cache.CacheSet
import Mathlib.Algebra.BigOperators.Fin
import Mathlib.Algebra.Order.Group.Multiset
set_option autoImplicit false

namespace Sniper.Cache
open Sniper.Lib Dish

variable {n assoc : Nat}

/-- Changing a family at one place changes its sum by that term. -/
theorem sum_change {ι M : Type} [Fintype ι] [DecidableEq ι] [AddCommMonoid M] {f g : ι → M} {p : ι}
    (h : ∀ q, q ≠ p → g q = f q) : (∑ q, g q) + f p = (∑ q, f q) + g p := by
  have hrest : ∑ q ∈ Finset.univ.erase p, g q = ∑ q ∈ Finset.univ.erase p, f q :=
    Finset.sum_congr rfl fun q hq => h q (Finset.ne_of_mem_erase hq)
  rw [← Finset.add_sum_erase _ g (Finset.mem_univ p), ← Finset.add_sum_erase _ f (Finset.mem_univ p),
    hrest, add_right_comm, add_comm (g p), add_right_comm]

/-- The line at one place of a way: none, or its tag and its bytes. -/
def Way.cell (v : Way n) (b : BlockId) : Multiset (Addr × Line n) :=
  match v.info.blockInfos b with
  | none => 0
  | some i => if i.isValid then {(i.tag, v.data.data b)} else 0

def Way.lines (v : Way n) : Multiset (Addr × Line n) := ∑ b, v.cell b

def CacheSet.lines (s : CacheSet n assoc) : Multiset (Addr × Line n) := ∑ w, (s w).lines

def writebackLines (wbs : List (Writeback n)) : Multiset (Addr × Line n) :=
  (wbs.map fun wb => (wb.info.tag, wb.data) : List (Addr × Line n))

/-- The same with the whole block info in place of its tag. -/
def Way.block (v : Way n) (b : BlockId) : Multiset (CacheBlockInfo × Line n) :=
  match v.info.blockInfos b with
  | none => 0
  | some i => if i.isValid then {(i, v.data.data b)} else 0

def Way.blocks (v : Way n) : Multiset (CacheBlockInfo × Line n) := ∑ b, v.block b

def CacheSet.blocks (s : CacheSet n assoc) : Multiset (CacheBlockInfo × Line n) :=
  ∑ w, (s w).blocks

def writebackBlocks (wbs : List (Writeback n)) : Multiset (CacheBlockInfo × Line n) :=
  (wbs.map fun wb => (wb.info, wb.data) : List (CacheBlockInfo × Line n))

def byTag (p : CacheBlockInfo × Line n) : Addr × Line n := (p.1.tag, p.2)

theorem Way.cell_eq_map (v : Way n) (b : BlockId) : v.cell b = (v.block b).map byTag := by
  unfold cell block
  split
  · rfl
  · split <;> rfl

theorem CacheSet.lines_eq_map (s : CacheSet n assoc) : s.lines = s.blocks.map byTag := by
  have hmap : ∀ m : Multiset (CacheBlockInfo × Line n),
      m.map byTag = Multiset.mapAddMonoidHom byTag m := fun _ => rfl
  simp only [CacheSet.lines, CacheSet.blocks, Way.lines, Way.blocks, hmap, map_sum,
    Way.cell_eq_map]

theorem writebackLines_eq_map (wbs : List (Writeback n)) :
    writebackLines wbs = (writebackBlocks wbs).map byTag := by
  simp [writebackLines, writebackBlocks, byTag, Function.comp_def]

/-- Tags and bytes of a way are valid together. -/
structure Way.Agrees (v : Way n) : Prop where
  inv : v.data.Inv
  same : ∀ b, v.info.isValidAt b = v.data.valid b

theorem Way.agrees_fresh : (Way.fresh : Way n).Agrees := ⟨BlockData.inv_fresh, fun _ => rfl⟩

theorem SuperblockInfo.isValidAt_congr {s s' : SuperblockInfo} {b : BlockId}
    (h : s'.blockInfos b = s.blockInfos b) : s'.isValidAt b = s.isValidAt b := by
  simp only [isValidAt, h]

@[simp] theorem SuperblockInfo.dropSupertag_blockInfos (s : SuperblockInfo) :
    s.dropSupertag.blockInfos = s.blockInfos := by
  simp only [dropSupertag]
  split <;> rfl

namespace Way

theorem block_of_invalid {v : Way n} {b : BlockId} (h : v.info.isValidAt b = false) :
    v.block b = 0 := by
  simp only [block]
  cases hi : v.info.blockInfos b with
  | none => rfl
  | some i =>
    simp only [SuperblockInfo.isValidAt, hi, Option.any_some] at h
    simp [h]

theorem block_of_valid {v : Way n} {b : BlockId} {i : CacheBlockInfo}
    (hi : v.info.blockInfos b = some i) (h : i.isValid = true) :
    v.block b = {(i, v.data.data b)} := by
  simp [block, hi, h]

theorem isValidAt_iff {v : Way n} {b : BlockId} :
    v.info.isValidAt b = true ↔ ∃ i, v.info.blockInfos b = some i ∧ i.isValid = true := by
  simp [SuperblockInfo.isValidAt, Option.any_eq_true]

/-- Ways that differ at one block only. -/
theorem blocks_change (v v' : Way n) {b : BlockId}
    (hinfo : ∀ b', b' ≠ b → v'.info.blockInfos b' = v.info.blockInfos b')
    (hdata : ∀ b', b' ≠ b → v'.data.data b' = v.data.data b') :
    v'.blocks + v.block b = v.blocks + v'.block b := by
  apply sum_change
  intro b' hb'
  simp only [block, hinfo b' hb', hdata b' hb']

/-- Ways that differ at one block agree elsewhere as before. -/
theorem Agrees.change {v v' : Way n} {b : BlockId} {valid : Bool} (h : v.Agrees)
    (inv : v'.data.Inv) (hinfo : ∀ b', b' ≠ b → v'.info.blockInfos b' = v.info.blockInfos b')
    (hvalid : v'.data.valid = Function.update v.data.valid b valid)
    (hb : v'.info.isValidAt b = valid) : v'.Agrees := by
  refine ⟨inv, fun b' => ?_⟩
  by_cases hbb : b' = b
  · subst hbb
    rw [hb, hvalid, Function.update_self]
  · rw [hvalid, Function.update_of_ne hbb, ← h.same b']
    exact SuperblockInfo.isValidAt_congr (hinfo b' hbb)

end Way

namespace CacheSet

def Agrees (s : CacheSet n assoc) : Prop := ∀ w, (s w).Agrees

theorem Agrees.update {s : CacheSet n assoc} {w : Fin assoc} {v : Way n} (h : s.Agrees)
    (hv : v.Agrees) : Agrees (Function.update s w v) := by
  intro w'
  by_cases hw : w' = w
  · subst hw
    rw [Function.update_self]
    exact hv
  · rw [Function.update_of_ne hw]
    exact h w'

theorem blocks_update (s : CacheSet n assoc) (w : Fin assoc) (v : Way n) :
    blocks (Function.update s w v) + (s w).blocks = blocks s + v.blocks := by
  have h := sum_change (f := fun w' => (s w').blocks)
    (g := fun w' => (Function.update s w v w').blocks) (p := w)
    (fun q hq => by simp [hq])
  simpa [blocks] using h

/-- Placing a line into a way whose block is free adds exactly that line. -/
theorem placeLine_spec {o : Order} {v v' : Way n} {supertag : Addr} {b : BlockId}
    {i : CacheBlockInfo} {ins : Option Ptr} {k k' : CompressionCntlr} (hv : v.Agrees)
    (hi : i.isValid = true) (h : placeLine o v supertag b i ins k = .ok (v', k')) :
    v'.Agrees ∧ v'.blocks = v.blocks + {(i, ins.elim .zero Line.ofPtr)} := by
  simp only [placeLine, except_bind_eq_ok, pure_eq_ok, Prod.mk.injEq] at h
  obtain ⟨⟨data, k1⟩, hins, rfl, rfl⟩ := h
  obtain ⟨inv', hfree, hvalid, hdata⟩ := BlockData.insertBlockData_spec hv.inv hins
  have hinfo : ∀ b', b' ≠ b →
      (v.info.insertBlockInfo supertag b i).blockInfos b' = v.info.blockInfos b' := by
    intro b' hb'
    simp [SuperblockInfo.insertBlockInfo, hb']
  have hself : (v.info.insertBlockInfo supertag b i).blockInfos b = some i := by
    simp [SuperblockInfo.insertBlockInfo]
  refine ⟨hv.change inv' hinfo hvalid ?_, ?_⟩
  · exact Way.isValidAt_iff.2 ⟨i, hself, hi⟩
  · have hchange := Way.blocks_change v ⟨v.info.insertBlockInfo supertag b i, data⟩ hinfo
      (fun b' hb' => by rw [hdata, Function.update_of_ne hb'])
    have hzero : v.block b = 0 := Way.block_of_invalid (by rw [hv.same b, hfree])
    rw [hzero, add_zero, Way.block_of_valid hself hi, hdata, Function.update_self] at hchange
    exact hchange

/-- Evicting a valid block takes exactly its line out of the way. -/
theorem evictBlock_spec {v : Way n} {data : BlockData n} {b : BlockId} {i : CacheBlockInfo}
    {line : Line n} {k k' : CompressionCntlr} (hv : v.Agrees)
    (hi : v.info.blockInfos b = some i) (hvalid : i.isValid = true)
    (h : v.data.evictBlockData b k = .ok (line, data, k')) :
    (⟨(v.info.evictBlockInfo b).2, data⟩ : Way n).Agrees ∧ line = v.data.data b ∧
      v.blocks = (⟨(v.info.evictBlockInfo b).2, data⟩ : Way n).blocks + {(i, line)} := by
  obtain ⟨inv', -, hline, hval, hdata⟩ := BlockData.evictBlockData_spec hv.inv h
  have hinfo : ∀ b', b' ≠ b →
      (v.info.evictBlockInfo b).2.blockInfos b' = v.info.blockInfos b' := by
    intro b' hb'
    simp [SuperblockInfo.evictBlockInfo, hb']
  have hself : (v.info.evictBlockInfo b).2.isValidAt b = false := by
    simp [SuperblockInfo.evictBlockInfo, SuperblockInfo.isValidAt]
  refine ⟨hv.change inv' hinfo hval hself, hline, ?_⟩
  have hchange := Way.blocks_change v ⟨(v.info.evictBlockInfo b).2, data⟩ hinfo
    (fun b' hb' => by rw [hdata, Function.update_of_ne hb'])
  rw [Way.block_of_valid hi hvalid, Way.block_of_invalid hself, add_zero] at hchange
  rw [hline, hchange]

/-- The eviction loop turns lines of the way into writebacks. -/
theorem evictBlocks_spec {v v' : Way n} {k k' : CompressionCntlr} {bs : List BlockId}
    {wbs : List (Writeback n)} (hv : v.Agrees) (h : evictBlocks v k bs = .ok (v', wbs, k')) :
    v'.Agrees ∧ v.blocks = v'.blocks + writebackBlocks wbs := by
  induction bs generalizing v k wbs with
  | nil =>
    simp only [evictBlocks, Except.ok.injEq, Prod.mk.injEq] at h
    obtain ⟨rfl, rfl, rfl⟩ := h
    exact ⟨hv, by simp [writebackBlocks]⟩
  | cons b bs ih =>
    by_cases hb : v.info.isValidAt b = true
    · obtain ⟨i, hi, hvalid⟩ := Way.isValidAt_iff.1 hb
      have hev : v.info.evictBlockInfo b = (some i, (v.info.evictBlockInfo b).2) := by
        simp [SuperblockInfo.evictBlockInfo, hi]
      simp only [evictBlocks, hb, if_true] at h
      rw [hev] at h
      simp only [except_bind_eq_ok, pure_eq_ok, Prod.mk.injEq] at h
      obtain ⟨⟨line, data, k1⟩, hdata, ⟨u, wbs', k2⟩, hrest, rfl, rfl, rfl⟩ := h
      obtain ⟨hv', -, hlines⟩ := evictBlock_spec hv hi hvalid hdata
      obtain ⟨hu, hlines'⟩ := ih hv' hrest
      refine ⟨hu, ?_⟩
      rw [hlines, hlines', add_assoc]
      congr 1
      simp only [writebackBlocks, List.map_cons, ← Multiset.cons_coe]
      rw [← Multiset.singleton_add, add_comm]
    · simp only [evictBlocks, hb] at h
      exact ih hv h

/-- The line a caller inserts; a null pointer stands for a blank line. -/
def inserted (i : CacheBlockInfo) (ins : Option Ptr) : Multiset (Addr × Line n) :=
  {(i.tag, ins.elim .zero Line.ofPtr)}

theorem insertLine_spec {linear : Addr → Addr} {o : Order} {s s' : CacheSet n assoc}
    {i : CacheBlockInfo} {ins : Option Ptr} {repl : Fin (assoc + 1)} {k k' : CompressionCntlr}
    {wbs : List (Writeback n)} (hs : s.Agrees) (hi : i.isValid = true)
    (h : insertLine linear o s i ins repl k = .ok (s', wbs, k')) :
    s'.Agrees ∧ s'.blocks + writebackBlocks wbs = s.blocks + {(i, ins.elim .zero Line.ofPtr)} := by
  cases insertLine_cases h with
  | @merged w v _ _ hplace =>
    obtain ⟨hv, hblocks⟩ := placeLine_spec (hs w) hi hplace
    refine ⟨hs.update hv, ?_⟩
    have hupd := blocks_update s w v
    rw [hblocks, ← add_assoc, add_right_comm] at hupd
    simpa [writebackBlocks] using add_right_cancel hupd
  | @replaced w v v' _ _ _ _ _ hev _ hplace =>
    obtain ⟨hv, hout⟩ := evictBlocks_spec (hs w) hev
    obtain ⟨hv', hblocks⟩ := placeLine_spec hv hi hplace
    refine ⟨hs.update hv', ?_⟩
    have hupd := blocks_update s w v'
    rw [hblocks, hout, ← add_assoc, ← add_assoc, add_right_comm (blocks _) v.blocks,
      add_right_comm s.blocks v.blocks] at hupd
    exact add_right_cancel hupd
  | bypassed _ _ hins =>
    subst hins
    exact ⟨hs, by simp [writebackBlocks]⟩

theorem ofPtr_ptr (d : Line n) : Line.ofPtr d.ptr = d := by
  funext k
  simp [Line.ofPtr, Line.ptr]

/-- The line as the caller means to write it. -/
def rewritten (old : Line n) (a : Slice n) (wr : Option Ptr) : Line n :=
  wr.elim old fun wr => copyN (wr.add a.offset) a.bytes a.offset old

/-- The line as the code leaves it: written in place, or patched and inserted again. -/
def leftBy (v : Way n) (b : BlockId) (a : Slice n) (wr : Option Ptr) (accepted : Bool) : Line n :=
  if accepted then wr.elim (v.data.data b) (v.data.written b a)
  else patched (v.data.data b) a wr

theorem writeInPlace_spec {o : Order} {s : CacheSet n assoc} {w : Fin assoc} {b : BlockId}
    {a : Slice n} {wr : Option Ptr} {k k' : CompressionCntlr} {data : BlockData n}
    {i : CacheBlockInfo} (hs : s.Agrees) (hi : (s w).info.blockInfos b = some i)
    (hvalid : i.isValid = true) (h : (s w).data.writeBlockData o b a wr k = .ok (data, k')) :
    Agrees (Function.update s w { s w with data := data }) ∧
      blocks (Function.update s w { s w with data := data }) + {(i, (s w).data.data b)} =
        s.blocks + {(i, leftBy (s w) b a wr true)} := by
  obtain ⟨inv', hval, hdata⟩ := BlockData.writeBlockData_spec (hs w).inv h
  have hline : data.data = Function.update (s w).data.data b (leftBy (s w) b a wr true) := by
    rw [hdata]
    cases wr <;> simp [leftBy]
  have hagree : ({ s w with data := data } : Way n).Agrees := by
    refine ⟨inv', fun b' => ?_⟩
    rw [hval]
    exact (hs w).same b'
  refine ⟨hs.update hagree, ?_⟩
  have hway := Way.blocks_change (s w) { s w with data := data } (b := b)
    (fun _ _ => rfl) (fun b' hb' => by rw [hline, Function.update_of_ne hb'])
  rw [Way.block_of_valid hi hvalid, Way.block_of_valid (v := { s w with data := data }) hi hvalid,
    hline, Function.update_self] at hway
  have hupd := blocks_update s w { s w with data := data }
  apply add_right_cancel (b := (s w).blocks)
  rw [add_right_comm, hupd, add_assoc, hway, ← add_assoc, add_right_comm]

/-- A completed write replaces one line by the line the code leaves. -/
theorem writeLine_spec {linear : Addr → Addr} {o : Order} {s s' : CacheSet n assoc} {tag : Addr}
    {b : BlockId} {a : Slice n} {wr : Option Ptr} {isWriteback : Bool} {repl : Fin (assoc + 1)}
    {k k' : CompressionCntlr} {wbs : List (Writeback n)} (hs : s.Agrees)
    (h : writeLine linear o s tag b a wr isWriteback repl k = .ok (s', wbs, k')) :
    s'.Agrees ∧ ∃ w i accepted, find s tag b = .ok (some w) ∧
      (s w).info.blockInfos b = some i ∧ i.isValid = true ∧ i.tag = tag ∧
      (s w).data.canWriteBlockData b a wr k = .ok accepted ∧
      s'.blocks + writebackBlocks wbs + {(i, (s w).data.data b)} =
        s.blocks + {(i, leftBy (s w) b a wr accepted)} := by
  obtain ⟨w, i, hfind, hi, hvalid, htag, hcase⟩ := writeLine_cases h
  cases hcase with
  | inPlace hcan hwrite =>
    obtain ⟨hagree, hblocks⟩ := writeInPlace_spec hs hi hvalid hwrite
    refine ⟨hagree, w, i, true, hfind, hi, hvalid, htag, hcan, ?_⟩
    simpa [writebackBlocks] using hblocks
  | @reinserted line data _ _ _ _ hcan hev hins =>
    obtain ⟨hagree, hline, hway⟩ := evictBlock_spec (hs w) hi hvalid hev
    obtain ⟨hagree', hblocks⟩ := insertLine_spec (hs.update hagree) hvalid hins
    refine ⟨hagree', w, i, false, hfind, hi, hvalid, htag, hcan, ?_⟩
    have hupd := blocks_update s w ⟨((s w).info.evictBlockInfo b).2, data⟩
    have hout : blocks (Function.update s w ⟨((s w).info.evictBlockInfo b).2, data⟩) +
        {(i, (s w).data.data b)} = s.blocks := by
      apply add_right_cancel (b := (⟨((s w).info.evictBlockInfo b).2, data⟩ : Way n).blocks)
      rw [← hupd, hway, ← hline, add_assoc]
      congr 1
      rw [add_comm]
    rw [hblocks, add_right_comm, hout]
    simp [leftBy, ofPtr_ptr, hline]

/-- The bytes the code leaves are the bytes meant: in place, as far as the data store takes the
right slice of the buffer; through the temporary buffer, as far as a patch at its start and a
patch at the offset are the same. -/
def WriteKeeps (v : Way n) (b : BlockId) (a : Slice n) (wr : Option Ptr) (accepted : Bool) : Prop :=
  ∀ p, wr = some p →
    if accepted then
      v.data.scheme = .uncompressed ∨ ∀ j < a.bytes, p j = p (a.offset + j)
    else
      copyN (p.add a.offset) a.bytes 0 (v.data.data b) =
        copyN (p.add a.offset) a.bytes a.offset (v.data.data b)

theorem leftBy_eq_iff (v : Way n) (b : BlockId) (a : Slice n) (wr : Option Ptr) (accepted : Bool) :
    leftBy v b a wr accepted = rewritten (v.data.data b) a wr ↔ WriteKeeps v b a wr accepted := by
  cases wr with
  | none => cases accepted <;> simp [leftBy, rewritten, WriteKeeps, patched]
  | some p =>
    cases accepted with
    | true => simpa [leftBy, rewritten, WriteKeeps] using BlockData.written_eq_iff v.data b a p
    | false => simp [leftBy, rewritten, WriteKeeps, patched]

theorem invalidate_spec {s s' : CacheSet n assoc} {tag : Addr} {b : BlockId}
    {k k' : CompressionCntlr} (hs : s.Agrees) (h : invalidate s tag b k = .ok (s', k')) :
    s'.Agrees ∧ ((find s tag b = .ok none ∧ s' = s) ∨
      ∃ w i, find s tag b = .ok (some w) ∧ (s w).info.blockInfos b = some i ∧ i.isValid = true ∧
        i.tag = tag ∧ s'.blocks + {(i, (s w).data.data b)} = s.blocks) := by
  rcases invalidate_cases h with ⟨hfind, rfl, rfl⟩ | ⟨w, info, hfind, hinv, rfl, rfl⟩
  · exact ⟨hs, .inl ⟨hfind, rfl⟩⟩
  obtain ⟨i, hi, hvalid, htag⟩ := find_some hfind
  simp only [SuperblockInfo.invalidateBlockInfo, hi, htag, except_bind_eq_ok, pure_eq_ok] at hinv
  obtain ⟨-, -, rfl⟩ := hinv
  obtain ⟨inv', hval, hdata⟩ := BlockData.dropBlock_spec b k (hs w).inv
  let v : Way n := ⟨SuperblockInfo.dropSupertag { (s w).info with
    blockInfos := Function.update (s w).info.blockInfos b (some i.invalidate) },
    ((s w).data.invalidateBlockData b k).1⟩
  have hinfo : ∀ b', b' ≠ b → v.info.blockInfos b' = (s w).info.blockInfos b' := by
    intro b' hb'
    simp [v, hb']
  have hself : v.info.isValidAt b = false := by
    simp [v, SuperblockInfo.isValidAt, CacheBlockInfo.isValid, CacheBlockInfo.invalidate]
  have hagree : v.Agrees := (hs w).change inv' hinfo hval hself
  refine ⟨hs.update hagree, .inr ⟨w, i, hfind, hi, hvalid, htag, ?_⟩⟩
  have hway := Way.blocks_change (s w) v hinfo
    (fun b' hb' => by simp only [v, BlockData.invalidateBlockData, hdata, Function.update_of_ne hb'])
  rw [Way.block_of_valid hi hvalid, Way.block_of_invalid hself, add_zero] at hway
  have hupd := blocks_update s w v
  apply add_right_cancel (b := v.blocks)
  rw [← hupd, ← hway, add_assoc]
  congr 1
  rw [add_comm]

end CacheSet

inductive SetOp (n : Nat) where
  | insertLine (i : CacheBlockInfo) (ins : Option Ptr)
  | writeLine (tag : Addr) (b : BlockId) (a : Slice n) (wr : Option Ptr) (isWriteback : Bool)
  | invalidate (tag : Addr) (b : BlockId)

/-- One call on a set, with the replacement way it will be told if it asks for one. -/
structure SetCall (n assoc : Nat) where
  op : SetOp n
  repl : Fin (assoc + 1)
  cntlr : CompressionCntlr
  order : Order

namespace CacheSet

/-- Callers take the tag of an inserted line from its address, so it is never the unused one. -/
def perform (linear : Addr → Addr) (s : CacheSet n assoc) (c : SetCall n assoc) :
    Outcome (List (Writeback n) × CacheSet n assoc) :=
  match c.op with
  | .insertLine i ins => do
    check i.isValid .refused
    let (s, wbs, _) ← insertLine linear c.order s i ins c.repl c.cntlr
    return (wbs, s)
  | .writeLine tag b a wr isWriteback => do
    let (s, wbs, _) ← writeLine linear c.order s tag b a wr isWriteback c.repl c.cntlr
    return (wbs, s)
  | .invalidate tag b => do
    let (s, _) ← invalidate s tag b c.cntlr
    return ([], s)

def machine (n assoc : Nat) (linear : Addr → Addr) :
    Machine (CacheSet n assoc) (SetCall n assoc) (List (Writeback n)) where
  init s := s = fresh
  step s c wbs s' := s.perform linear c = .ok (wbs, s')

theorem perform_agrees {linear : Addr → Addr} {s s' : CacheSet n assoc} {c : SetCall n assoc}
    {wbs : List (Writeback n)} (hs : s.Agrees) (h : s.perform linear c = .ok (wbs, s')) :
    s'.Agrees := by
  obtain ⟨op, repl, k, o⟩ := c
  cases op with
  | insertLine i ins =>
    simp only [perform, except_bind_eq_ok, pure_eq_ok, Prod.mk.injEq, check_ok] at h
    obtain ⟨-, hi, ⟨u, wbs', k'⟩, hins, rfl, rfl⟩ := h
    exact (insertLine_spec hs hi hins).1
  | writeLine tag b a wr isWriteback =>
    simp only [perform, except_bind_eq_ok, pure_eq_ok, Prod.mk.injEq] at h
    obtain ⟨⟨u, wbs', k'⟩, hwr, rfl, rfl⟩ := h
    exact (writeLine_spec hs hwr).1
  | invalidate tag b =>
    simp only [perform, except_bind_eq_ok, pure_eq_ok, Prod.mk.injEq] at h
    obtain ⟨⟨u, k'⟩, hinv, rfl, rfl⟩ := h
    exact (invalidate_spec hs hinv).1

theorem reachable_agrees {linear : Addr → Addr} {s : CacheSet n assoc}
    (h : Reachable (machine n assoc linear) s) : s.Agrees := by
  refine h.invariant (I := Agrees) ?_ ?_
  · rintro s rfl w
    exact Way.agrees_fresh
  · intro s c wbs s' hs hstep
    exact perform_agrees hs hstep

theorem writeLine_conserves_iff {linear : Addr → Addr} {o : Order} {s s' : CacheSet n assoc}
    {tag : Addr} {b : BlockId} {a : Slice n} {wr : Option Ptr} {isWriteback : Bool}
    {repl : Fin (assoc + 1)} {k k' : CompressionCntlr} {wbs : List (Writeback n)} (hs : s.Agrees)
    (h : writeLine linear o s tag b a wr isWriteback repl k = .ok (s', wbs, k')) :
    ∃ w accepted, find s tag b = .ok (some w) ∧
      (s w).data.canWriteBlockData b a wr k = .ok accepted ∧
      (s'.lines + writebackLines wbs + {(tag, (s w).data.data b)} =
        s.lines + {(tag, rewritten ((s w).data.data b) a wr)} ↔ WriteKeeps (s w) b a wr accepted) := by
  obtain ⟨-, w, i, accepted, hfind, -, -, rfl, hcan, hblocks⟩ := writeLine_spec hs h
  have hlines : s'.lines + writebackLines wbs + {(i.tag, (s w).data.data b)} =
      s.lines + {(i.tag, leftBy (s w) b a wr accepted)} := by
    simpa [lines_eq_map, writebackLines_eq_map, byTag] using congrArg (Multiset.map byTag) hblocks
  refine ⟨w, accepted, hfind, hcan, ?_⟩
  rw [hlines, ← leftBy_eq_iff, add_right_inj, Multiset.singleton_inj, Prod.mk.injEq]
  simp

/-- In every reachable set, an insertion and an invalidation conserve the lines, and a write
does so exactly when the bytes the code leaves are the bytes meant. -/
theorem lines_conserved_iff {linear : Addr → Addr} {s : CacheSet n assoc}
    (h : Reachable (machine n assoc linear) s) :
    (∀ o i ins repl k s' wbs k', i.isValid = true →
      insertLine linear o s i ins repl k = .ok (s', wbs, k') →
      s'.lines + writebackLines wbs = s.lines + inserted i ins) ∧
    (∀ o tag b a wr isWriteback repl k s' wbs k',
      writeLine linear o s tag b a wr isWriteback repl k = .ok (s', wbs, k') →
      ∃ w accepted, find s tag b = .ok (some w) ∧
        (s w).data.canWriteBlockData b a wr k = .ok accepted ∧
        (s'.lines + writebackLines wbs + {(tag, (s w).data.data b)} =
          s.lines + {(tag, rewritten ((s w).data.data b) a wr)} ↔
            WriteKeeps (s w) b a wr accepted)) ∧
    ∀ tag b k s' k', invalidate s tag b k = .ok (s', k') →
      (find s tag b = .ok none ∧ s'.lines = s.lines) ∨
        ∃ w, find s tag b = .ok (some w) ∧ s'.lines + {(tag, (s w).data.data b)} = s.lines := by
  have hs := reachable_agrees h
  refine ⟨?_, ?_, ?_⟩
  · intro o i ins repl k s' wbs k' hi hins
    have hblocks := (insertLine_spec hs hi hins).2
    simpa [lines_eq_map, writebackLines_eq_map, inserted, byTag] using
      congrArg (Multiset.map byTag) hblocks
  · intro o tag b a wr isWriteback repl k s' wbs k' hwr
    exact writeLine_conserves_iff hs hwr
  · intro tag b k s' k' hinv
    rcases (invalidate_spec hs hinv).2 with ⟨hfind, rfl⟩ | ⟨w, i, hfind, -, -, rfl, hblocks⟩
    · exact .inl ⟨hfind, rfl⟩
    · refine .inr ⟨w, hfind, ?_⟩
      simpa [lines_eq_map, byTag] using congrArg (Multiset.map byTag) hblocks

def performAll (linear : Addr → Addr) (s : CacheSet n assoc) :
    List (SetCall n assoc) → Outcome (CacheSet n assoc)
  | [] => .ok s
  | c :: cs => do
    let (_, s) ← s.perform linear c
    performAll linear s cs

theorem performAll_reachable {linear : Addr → Addr} {s s' : CacheSet n assoc}
    {cs : List (SetCall n assoc)} (h : Reachable (machine n assoc linear) s)
    (hall : performAll linear s cs = .ok s') : Reachable (machine n assoc linear) s' := by
  induction cs generalizing s with
  | nil =>
    simp only [performAll, Except.ok.injEq] at hall
    exact hall ▸ h
  | cons c cs ih =>
    simp only [performAll, except_bind_eq_ok] at hall
    obtain ⟨⟨wbs, u⟩, hstep, hall⟩ := hall
    obtain ⟨tr, hrun⟩ := h
    exact ih ⟨_, hrun.next (i := c) trivial hstep⟩ hall

theorem fresh_reachable {linear : Addr → Addr} :
    Reachable (machine n assoc linear) (fresh : CacheSet n assoc) := ⟨[], .start rfl⟩

/-- The insertion of a blank line, into the first way if a victim is asked for. -/
def insertBlankLine (tag : Addr) : SetCall 64 assoc :=
  ⟨.insertLine (.new tag) (some fun _ => 0), 0, BlockData.sampleCntlr false false, .greatest⟩

/-- Two neighbouring blank lines, merged into one way of a direct-mapped set. -/
def mergedBlankLines : List (SetCall 64 1) := [insertBlankLine 0, insertBlankLine 1]

theorem lines_conserved_iff_sample : ∃ s : CacheSet 64 1, Reachable (machine 64 1 id) s ∧
    ∃ s' wbs k', insertLine id .greatest s (.new 2) (some fun _ => 0) 0
      (BlockData.sampleCntlr false false) = .ok (s', wbs, k') ∧
      s'.lines + writebackLines wbs = s.lines + {(2, .ofPtr fun _ => 0)} := by
  have heval : Outcome.test (performAll id fresh mergedBlankLines) (fun s =>
      Outcome.test (insertLine id .greatest s (.new 2) (some fun _ => 0) 0
        (BlockData.sampleCntlr false false)) fun _ => true) = true := by
    rfl
  obtain ⟨s, hs, heval⟩ := Outcome.test_eq_true heval
  obtain ⟨⟨s', wbs, k'⟩, hins, -⟩ := Outcome.test_eq_true heval
  have hreach := performAll_reachable fresh_reachable hs
  exact ⟨s, hreach, s', wbs, k', hins,
    (lines_conserved_iff hreach).1 _ _ _ _ _ _ _ _ (by decide) hins⟩

/-- Eight fresh chunks in the second half of the buffer. -/
def upperHalf : Ptr := fun j => if 32 ≤ j ∧ j % 4 = 0 then .ofNat 8 (j / 4) else 0

/-- The write of a second half that no longer fits the dictionary takes the line out, patches
its first half instead, and inserts it again. -/
theorem reinserted_write_misplaced : ∃ s : CacheSet 64 1, Reachable (machine 64 1 id) s ∧
    ∃ s' wbs k', writeLine id .greatest s 0 0 ⟨32, 32, by decide⟩ (some upperHalf) false 0
      (BlockData.sampleCntlr false false) = .ok (s', wbs, k') ∧
    ∃ w, find s 0 0 = .ok (some w) ∧
      s'.lines + writebackLines wbs + {(0, (s w).data.data 0)} ≠
        s.lines + {(0, rewritten ((s w).data.data 0) ⟨32, 32, by decide⟩ (some upperHalf))} := by
  have heval : Outcome.test (performAll id fresh mergedBlankLines) (fun s =>
      Outcome.test (writeLine id .greatest s 0 0 ⟨32, 32, by decide⟩ (some upperHalf) false 0
        (BlockData.sampleCntlr false false)) (fun _ => true) &&
      Outcome.test ((s 0).data.canWriteBlockData 0 ⟨32, 32, by decide⟩ (some upperHalf)
        (BlockData.sampleCntlr false false)) (!·) &&
      (s 0).data.data 0 0 == 0) = true := by
    rfl
  obtain ⟨s, hs, heval⟩ := Outcome.test_eq_true heval
  simp only [Bool.and_eq_true, beq_iff_eq] at heval
  obtain ⟨⟨⟨s', wbs, k'⟩, hwr, -⟩, hbyte⟩ :=
    And.intro (Outcome.test_eq_true heval.1.1) heval.2
  obtain ⟨refused, hcan, href⟩ := Outcome.test_eq_true heval.1.2
  have hreach := performAll_reachable fresh_reachable hs
  obtain ⟨w, accepted, hfind, hcan', hiff⟩ :=
    writeLine_conserves_iff (reachable_agrees hreach) hwr
  refine ⟨s, hreach, s', wbs, k', hwr, w, hfind, ?_⟩
  rw [Ne, hiff]
  have hw : w = 0 := Subsingleton.elim w 0
  subst hw
  rw [hcan, Except.ok.injEq] at hcan'
  subst hcan'
  intro hkeeps
  have hline := hkeeps upperHalf rfl
  simp only [Bool.not_eq_true'] at href
  simp only [href, Bool.false_eq_true, if_false] at hline
  have hfirst := congrFun hline (0 : Fin 64)
  simp [copyN, Ptr.add, upperHalf, hbyte] at hfirst

end CacheSet

end Sniper.Cache
