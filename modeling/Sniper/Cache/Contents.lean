import Sniper.Cache.Placement
set_option autoImplicit false
set_option linter.dupNamespace false

/-! What a cache holds, as a table from tags to lines. -/

namespace Sniper.Cache
open Sniper.Lib Dish

variable {n assoc : Nat} {g : CacheGeometry n} {set : Nat}

/-- A block info with its line. -/
abbrev Entry (n : Nat) := CacheBlockInfo × Line n

/-- The entries of a table are split into those that stay and those that are written back. -/
structure Splits (P P' : Entry n → Prop) (wbs : List (Writeback n)) : Prop where
  kept : ∀ e, P' e → P e
  out : ∀ wb ∈ wbs, P (wb.info, wb.data) ∧ wb.addr = tagToAddress n wb.info.tag
  all : ∀ e, P e → P' e ∨ ∃ wb ∈ wbs, (wb.info, wb.data) = e
  apart : ∀ wb ∈ wbs, ∀ e, P' e → e.1.tag ≠ wb.info.tag
  once : (wbs.map fun wb => wb.info.tag).Nodup

theorem Splits.refl (P : Entry n → Prop) : Splits P P [] where
  kept _ h := h
  out wb h := by cases h
  all _ h := .inl h
  apart wb h := by cases h
  once := List.nodup_nil

/-- The tables are given up to equivalence. -/
theorem Splits.congr {P P' Q Q' : Entry n → Prop} {wbs : List (Writeback n)} (h : Splits P P' wbs)
    (hP : ∀ e, Q e ↔ P e) (hP' : ∀ e, Q' e ↔ P' e) : Splits Q Q' wbs where
  kept e he := (hP e).mpr (h.kept e ((hP' e).mp he))
  out wb hwb := ⟨(hP _).mpr (h.out wb hwb).1, (h.out wb hwb).2⟩
  all e he := by
    rw [hP']
    exact h.all e ((hP e).mp he)
  apart wb hwb e he := h.apart wb hwb e ((hP' e).mp he)
  once := h.once

/-- Entries of other tags beside the table that is split. -/
theorem Splits.beside {P P' R : Entry n → Prop} {wbs : List (Writeback n)} (h : Splits P P' wbs)
    (hR : ∀ e e', R e → P e' → e.1.tag ≠ e'.1.tag) :
    Splits (fun e => P e ∨ R e) (fun e => P' e ∨ R e) wbs where
  kept e he := he.imp_left (h.kept e)
  out wb hwb := ⟨.inl (h.out wb hwb).1, (h.out wb hwb).2⟩
  all e he := by
    rcases he with he | he
    · exact (h.all e he).imp_left .inl
    · exact .inl (.inr he)
  apart wb hwb e he := by
    rcases he with he | he
    · exact h.apart wb hwb e he
    · exact hR e _ he (h.out wb hwb).1
  once := h.once

/-- A sum of tables without a repeated tag. -/
theorem Splits.of_blocks {M A : Multiset (Entry n)} {wbs : List (Writeback n)}
    (h : A + writebackBlocks wbs = M) (hnodup : (M.map fun e => e.1.tag).Nodup)
    (haddr : ∀ wb ∈ wbs, wb.addr = tagToAddress n wb.info.tag) :
    Splits (· ∈ M) (· ∈ A) wbs := by
  have hmem : ∀ e, e ∈ writebackBlocks wbs ↔ ∃ wb ∈ wbs, (wb.info, wb.data) = e := by
    intro e
    simp [writebackBlocks]
  subst h
  rw [Multiset.map_add, Multiset.nodup_add] at hnodup
  obtain ⟨-, honce, hdisjoint⟩ := hnodup
  refine ⟨?_, ?_, ?_, ?_, ?_⟩
  · intro e he
    exact Multiset.mem_add.mpr (.inl he)
  · intro wb hwb
    exact ⟨Multiset.mem_add.mpr (.inr ((hmem _).mpr ⟨wb, hwb, rfl⟩)), haddr wb hwb⟩
  · intro e he
    rw [← hmem]
    exact Multiset.mem_add.mp he
  · intro wb hwb e he htag
    have hin : wb.info.tag ∈ (writebackBlocks wbs).map fun e => e.1.tag :=
      Multiset.mem_map.mpr ⟨_, (hmem _).mpr ⟨wb, hwb, rfl⟩, rfl⟩
    exact Multiset.disjoint_left.mp hdisjoint (Multiset.mem_map.mpr ⟨e, he, htag⟩) hin
  · simpa [writebackBlocks, Function.comp_def] using honce

namespace CacheSet

variable {s s' : CacheSet n assoc} {e : Entry n}

/-- A valid block of the set, with its line. -/
def Holds (s : CacheSet n assoc) (e : Entry n) : Prop :=
  ∃ w b, (s w).info.blockInfos b = some e.1 ∧ e.1.isValid = true ∧ (s w).data.data b = e.2

theorem mem_blocks : e ∈ s.blocks ↔ s.Holds e := by
  have hblock : ∀ w b, e ∈ (s w).block b ↔
      (s w).info.blockInfos b = some e.1 ∧ e.1.isValid = true ∧ (s w).data.data b = e.2 := by
    intro w b
    obtain ⟨i, d⟩ := e
    unfold Way.block
    cases hi : (s w).info.blockInfos b with
    | none => simp
    | some j =>
      by_cases hj : j.isValid = true
      · simp only [hj, if_true, Multiset.mem_singleton, Prod.mk.injEq, Option.some.injEq]
        constructor
        · rintro ⟨rfl, rfl⟩
          exact ⟨rfl, hj, rfl⟩
        · rintro ⟨rfl, -, rfl⟩
          exact ⟨rfl, rfl⟩
      · simp only [hj, Bool.false_eq_true, if_false, Multiset.notMem_zero, Option.some.injEq,
          false_iff]
        rintro ⟨rfl, hv, -⟩
        exact hj hv
  simp only [blocks, Way.blocks, Multiset.mem_sum, Finset.mem_univ, true_and, hblock, Holds]

theorem Holds.tagAt (h : s.Holds e) : ∃ w b, (s w).info.tagAt b = some e.1.tag ∧
    (s w).info.blockInfos b = some e.1 ∧ (s w).data.data b = e.2 := by
  obtain ⟨w, b, hi, hv, hd⟩ := h
  exact ⟨w, b, SuperblockInfo.tagAt_eq_some.mpr ⟨_, hi, hv, rfl⟩, hi, hd⟩

theorem Placed.place_unique (h : s.Placed g set) {w w' : Fin assoc} {b b' : BlockId} {t : Addr}
    (ht : (s w).info.tagAt b = some t) (ht' : (s w').info.tagAt b' = some t) :
    w = w' ∧ b = b' := by
  have hw : w = w' := h.unique w w' b b' t ht ht'
  subst hw
  have hb := ((h.ways w) b t ht).2.2.1
  have hb' := ((h.ways w) b' t ht').2.2.1
  exact ⟨rfl, hb.symm.trans hb'⟩

theorem Placed.holds_unique (h : s.Placed g set) {e' : Entry n} (he : s.Holds e)
    (he' : s.Holds e') (htag : e.1.tag = e'.1.tag) : e = e' := by
  obtain ⟨w, b, ht, hi, hd⟩ := he.tagAt
  obtain ⟨w', b', ht', hi', hd'⟩ := he'.tagAt
  rw [htag] at ht
  obtain ⟨rfl, rfl⟩ := h.place_unique ht ht'
  rw [hi] at hi'
  exact Prod.ext (Option.some.inj hi') (hd.symm.trans hd')

/-- No tag twice in a set. -/
theorem Placed.tags_nodup (h : s.Placed g set) : (s.blocks.map fun e => e.1.tag).Nodup := by
  have hmap : ∀ m : Multiset (Entry n), (m.map fun e => e.1.tag) =
      Multiset.mapAddMonoidHom (fun e : Entry n => e.1.tag) m := fun _ => rfl
  rw [Multiset.nodup_iff_count_le_one]
  intro t
  have hcell : ∀ w b, (((s w).block b).map fun e => e.1.tag).count t =
      if (s w).info.tagAt b = some t then 1 else 0 := by
    intro w b
    unfold Way.block SuperblockInfo.tagAt
    cases hi : (s w).info.blockInfos b with
    | none => simp
    | some i =>
      by_cases hv : i.isValid = true
      · simp [hv, Multiset.count_singleton, eq_comm (a := t)]
      · simp [hv]
  have hcount : (s.blocks.map fun e => e.1.tag).count t =
      (Finset.univ.filter fun p : Fin assoc × BlockId => (s p.1).info.tagAt p.2 = some t).card := by
    rw [hmap, blocks, map_sum, Multiset.count_sum', Finset.card_filter, Fintype.sum_prod_type]
    refine Finset.sum_congr rfl fun w _ => ?_
    rw [Way.blocks, map_sum, Multiset.count_sum']
    refine Finset.sum_congr rfl fun b _ => ?_
    exact hcell w b
  rw [hcount, Finset.card_le_one]
  rintro ⟨w, b⟩ hp ⟨w', b'⟩ hp'
  rw [Finset.mem_filter] at hp hp'
  obtain ⟨rfl, rfl⟩ := h.place_unique hp.2 hp'.2
  rfl

theorem evictBlocks_addr {v v' : Way n} {k k' : CompressionCntlr} {bs : List BlockId}
    {wbs : List (Writeback n)} (h : evictBlocks v k bs = .ok (v', wbs, k')) :
    ∀ wb ∈ wbs, wb.addr = tagToAddress n wb.info.tag := by
  induction bs generalizing v k wbs with
  | nil =>
    cases h
    intro wb hwb
    cases hwb
  | cons b bs ih =>
    rw [evictBlocks] at h
    split at h
    · split at h
      · cases h
      · simp only [except_bind_eq_ok, pure_eq_ok, Prod.mk.injEq] at h
        obtain ⟨⟨line, data, k₁⟩, -, ⟨u, wbs', k₂⟩, hrest, rfl, rfl, rfl⟩ := h
        intro wb hwb
        rcases List.mem_cons.mp hwb with rfl | hwb
        · rfl
        · exact ih hrest wb hwb
    · exact ih h

variable {linear : Addr → Addr} {o : Order} {repl : Fin (assoc + 1)} {k k' : CompressionCntlr}
variable {wbs : List (Writeback n)}

theorem insertLine_addr {i : CacheBlockInfo} {ins : Option Ptr}
    (h : insertLine linear o s i ins repl k = .ok (s', wbs, k')) :
    ∀ wb ∈ wbs, wb.addr = tagToAddress n wb.info.tag := by
  cases insertLine_cases h with
  | merged =>
    intro wb hwb
    cases hwb
  | replaced _ _ hev => exact evictBlocks_addr hev
  | bypassed =>
    intro wb hwb
    rw [List.mem_singleton.mp hwb]

theorem writeLine_addr {tag : Addr} {b : BlockId} {a : Slice n} {wr : Option Ptr}
    {isWriteback : Bool} (h : writeLine linear o s tag b a wr isWriteback repl k = .ok (s', wbs, k')) :
    ∀ wb ∈ wbs, wb.addr = tagToAddress n wb.info.tag := by
  obtain ⟨w, i, -, -, -, -, hcase⟩ := writeLine_cases h
  cases hcase with
  | inPlace =>
    intro wb hwb
    cases hwb
  | reinserted _ _ hins => exact insertLine_addr hins

/-- What an insertion of a line that is absent leaves of the lines there were. -/
theorem insertLine_splits {i : CacheBlockInfo} {ins : Option Ptr} (hp : s.Placed g set)
    (hs : s.Agrees) (hi : i.isValid = true) (hnew : ¬s.Resident i.tag)
    (h : insertLine linear o s i ins repl k = .ok (s', wbs, k')) :
    s'.Agrees ∧
      Splits (fun e => s.Holds e ∨ e = (i, ins.elim .zero Line.ofPtr)) s'.Holds wbs := by
  obtain ⟨hagree, hblocks⟩ := insertLine_spec hs hi h
  refine ⟨hagree, ?_⟩
  have hnodup : ((s.blocks + {(i, ins.elim .zero Line.ofPtr)}).map fun e => e.1.tag).Nodup := by
    rw [Multiset.map_add, Multiset.map_singleton, Multiset.nodup_add]
    refine ⟨hp.tags_nodup, Multiset.nodup_singleton _, ?_⟩
    rw [Multiset.disjoint_singleton]
    intro hmem
    obtain ⟨e, he, htag⟩ := Multiset.mem_map.mp hmem
    obtain ⟨w, b, hat, -⟩ := (mem_blocks.mp he).tagAt
    exact hnew ⟨w, b, htag ▸ hat⟩
  refine (Splits.of_blocks hblocks hnodup (insertLine_addr h)).congr ?_ ?_
  · intro e
    rw [Multiset.mem_add, mem_blocks, Multiset.mem_singleton]
  · intro e
    rw [mem_blocks]

/-- What a write leaves of the lines there were: the line itself is as the code left it. -/
theorem writeLine_splits {tag : Addr} {b : BlockId} {a : Slice n} {wr : Option Ptr}
    {isWriteback : Bool} (hp : s.Placed g set) (hs : s.Agrees)
    (h : writeLine linear o s tag b a wr isWriteback repl k = .ok (s', wbs, k')) :
    s'.Agrees ∧ ∃ w i accepted, find s tag b = .ok (some w) ∧
      (s w).info.blockInfos b = some i ∧ i.isValid = true ∧ i.tag = tag ∧
      (s w).data.canWriteBlockData b a wr k = .ok accepted ∧
      Splits (fun e => (s.Holds e ∧ e.1.tag ≠ tag) ∨ e = (i, leftBy (s w) b a wr accepted))
        s'.Holds wbs := by
  obtain ⟨hagree, w, i, accepted, hfind, hi, hv, htag, hcan, hblocks⟩ := writeLine_spec hs h
  refine ⟨hagree, w, i, accepted, hfind, hi, hv, htag, hcan, ?_⟩
  have hold : s.Holds (i, (s w).data.data b) := ⟨w, b, hi, hv, rfl⟩
  obtain ⟨rest, hrest⟩ := Multiset.exists_cons_of_mem (mem_blocks.mpr hold)
  have hnodup := hp.tags_nodup
  rw [hrest, Multiset.map_cons, Multiset.nodup_cons] at hnodup
  have hsplit : s'.blocks + writebackBlocks wbs = (i, leftBy (s w) b a wr accepted) ::ₘ rest := by
    apply add_right_cancel (b := {(i, (s w).data.data b)})
    rw [hblocks, hrest, ← Multiset.singleton_add, ← Multiset.singleton_add]
    ac_rfl
  refine (Splits.of_blocks hsplit ?_ (writeLine_addr h)).congr ?_ ?_
  · rw [Multiset.map_cons, Multiset.nodup_cons]
    exact hnodup
  · intro e
    rw [Multiset.mem_cons, or_comm]
    refine or_congr Iff.rfl ⟨fun he => ?_, fun he => ?_⟩
    · have hmem := mem_blocks.mpr he.1
      rw [hrest, Multiset.mem_cons] at hmem
      rcases hmem with rfl | hmem
      · exact absurd htag he.2
      · exact hmem
    · refine ⟨mem_blocks.mp (by rw [hrest]; exact Multiset.mem_cons_of_mem he), fun ht => ?_⟩
      exact hnodup.1 (Multiset.mem_map.mpr ⟨e, he, ht.trans htag.symm⟩)
  · intro e
    rw [mem_blocks]

end CacheSet

namespace Cache

variable {c c' : Cache n assoc} {e : Entry n}

def Holds (c : Cache n assoc) (e : Entry n) : Prop := ∃ set, (c.sets set).Holds e

/-- Every line in its place, its tag and its data valid together. -/
structure Sound (g : CacheGeometry n) (c : Cache n assoc) : Prop where
  placed : c.Placed g
  agrees : ∀ set, (c.sets set).Agrees

theorem fresh_sound (compressible otf prune : Bool) :
    (fresh compressible otf prune : Cache n assoc).Sound g :=
  ⟨fun _ => CacheSet.fresh_placed, fun _ _ => Way.agrees_fresh⟩

theorem not_holds_fresh (compressible otf prune : Bool) :
    ¬(fresh compressible otf prune : Cache n assoc).Holds e := by
  rintro ⟨set, w, b, hi, -⟩
  simp [fresh, CacheSet.fresh, Way.fresh, SuperblockInfo.fresh] at hi

namespace Sound

variable (h : c.Sound g)

include h

theorem set_of_holds (he : (c.sets set).Holds e) :
    g.setOf (tagToAddress n e.1.tag) = set ∧ tagOf n (tagToAddress n e.1.tag) = e.1.tag := by
  obtain ⟨w, b, ht, -⟩ := he.tagAt
  have hplace := ((h.placed set).ways w) b _ ht
  exact ⟨hplace.2.1, hplace.1⟩

theorem holds_unique {e' : Entry n} (he : c.Holds e) (he' : c.Holds e')
    (htag : e.1.tag = e'.1.tag) : e = e' := by
  obtain ⟨set, he⟩ := he
  obtain ⟨set', he'⟩ := he'
  have hset := (h.set_of_holds he).1
  rw [htag, (h.set_of_holds he').1] at hset
  subst hset
  exact (h.placed _).holds_unique he he' htag

theorem tagOf_holds (he : c.Holds e) : tagOf n (tagToAddress n e.1.tag) = e.1.tag := by
  obtain ⟨set, he⟩ := he
  exact (h.set_of_holds he).2

/-- A lookup finds the line of an address, or there is none. -/
theorem lookup (addr : Addr) :
    (∃ w i, c.find g addr = .ok (some w) ∧ c.infoAt g addr w = some i ∧ i.isValid = true ∧
      i.tag = tagOf n addr ∧
      c.Holds (i, (c.sets (g.setOf addr) w).data.data (g.blockIdOf addr))) ∨
    (c.find g addr = .ok none ∧ ¬c.Resident (tagOf n addr)) := by
  rcases h.placed.find addr with ⟨w, hw, hat⟩ | habsent
  · obtain ⟨i, hi, hv, ht⟩ := SuperblockInfo.tagAt_eq_some.mp hat
    exact .inl ⟨w, i, hw, hi, hv, ht, _, w, _, hi, hv, rfl⟩
  · exact .inr habsent

omit h in
theorem resident_of_holds (he : c.Holds e) : c.Resident e.1.tag := by
  obtain ⟨set, he⟩ := he
  obtain ⟨w, b, ht, -⟩ := he.tagAt
  exact ⟨set, w, b, ht⟩

/-- A lookup of a line that is held. -/
theorem find_holds {addr : Addr} (he : c.Holds e) (htag : e.1.tag = tagOf n addr) :
    ∃ w, c.find g addr = .ok (some w) ∧ c.infoAt g addr w = some e.1 ∧
      (c.sets (g.setOf addr) w).data.data (g.blockIdOf addr) = e.2 := by
  rcases h.lookup addr with ⟨w, i, hw, hi, -, ht, hheld⟩ | ⟨-, habs⟩
  · have hsame := h.holds_unique he hheld (htag.trans ht.symm)
    subst hsame
    exact ⟨w, hw, hi, rfl⟩
  · exact absurd (htag ▸ resident_of_holds he) habs

theorem peek_holds {addr : Addr} (he : c.Holds e) (htag : e.1.tag = tagOf n addr) :
    c.peekSingleLine g addr = .ok (some e.1) := by
  obtain ⟨w, hw, hi, -⟩ := h.find_holds he htag
  simp [peekSingleLine, hw, hi, bind, Except.bind, pure, Except.pure]

theorem peek_some {addr : Addr} {i : CacheBlockInfo}
    (hpeek : c.peekSingleLine g addr = .ok (some i)) :
    i.isValid = true ∧ i.tag = tagOf n addr ∧ ∃ d, c.Holds (i, d) := by
  rcases h.lookup addr with ⟨w, j, hw, hj, hv, ht, hheld⟩ | ⟨hnone, -⟩
  · have hij : i = j := by
      simpa [peekSingleLine, hw, hj, bind, Except.bind, pure, Except.pure] using hpeek.symm
    subst hij
    exact ⟨hv, ht, _, hheld⟩
  · simp [peekSingleLine, hnone, bind, Except.bind, pure, Except.pure] at hpeek

theorem peek_none_iff (addr : Addr) :
    c.peekSingleLine g addr = .ok none ↔ ∀ e, c.Holds e → e.1.tag ≠ tagOf n addr := by
  constructor
  · intro hpeek e he htag
    rw [h.peek_holds he htag] at hpeek
    cases hpeek
  · intro hall
    rcases h.placed.peek addr with ⟨i, hi, -⟩ | ⟨hnone, -⟩
    · obtain ⟨-, ht, d, hd⟩ := h.peek_some hi
      exact absurd ht (hall _ hd)
    · exact hnone

/-- A line is held, or a lookup of it finds nothing. -/
theorem lookup_line (addr : Addr) :
    (∃ e, c.Holds e ∧ e.1.tag = tagOf n addr) ∨ c.peekSingleLine g addr = .ok none := by
  rcases h.placed.peek addr with ⟨i, hi, -, ht, -⟩ | ⟨hnone, -⟩
  · obtain ⟨-, -, d, hd⟩ := h.peek_some hi
    exact .inl ⟨_, hd, ht⟩
  · exact .inr hnone

omit h in
theorem holds_setSet {s : CacheSet n assoc} {k : CompressionCntlr} :
    (c.setSet set s k).Holds e ↔ s.Holds e ∨ ∃ set', set' ≠ set ∧ (c.sets set').Holds e := by
  constructor
  · rintro ⟨set', he⟩
    by_cases hset : set' = set
    · subst hset
      simp only [Cache.setSet, Function.update_self] at he
      exact .inl he
    · simp only [Cache.setSet, Function.update_of_ne hset] at he
      exact .inr ⟨set', hset, he⟩
  · rintro (he | ⟨set', hset, he⟩)
    · exact ⟨set, by simpa [Cache.setSet] using he⟩
    · exact ⟨set', by simpa [Cache.setSet, hset] using he⟩

theorem setSet {s : CacheSet n assoc} {k : CompressionCntlr} (hp : s.Placed g set)
    (hs : s.Agrees) : (c.setSet set s k).Sound g := by
  refine ⟨h.placed.setSet hp k, fun set' => ?_⟩
  by_cases hset : set' = set
  · subst hset
    simpa [Cache.setSet] using hs
  · simpa [Cache.setSet, hset] using h.agrees set'

/-- Splitting the entries of one set, all of whose tags belong there. -/
theorem splits_setSet {s : CacheSet n assoc} {k : CompressionCntlr} {P : Entry n → Prop}
    {wbs : List (Writeback n)} (hsplit : Splits P s.Holds wbs)
    (hP : ∀ e, P e → g.setOf (tagToAddress n e.1.tag) = set) :
    Splits (fun e => P e ∨ ∃ set', set' ≠ set ∧ (c.sets set').Holds e)
      (c.setSet set s k).Holds wbs := by
  refine (hsplit.beside (R := fun e => ∃ set', set' ≠ set ∧ (c.sets set').Holds e) ?_).congr
    (fun e => Iff.rfl) (fun e => holds_setSet)
  rintro e e' ⟨set', hset, he⟩ he' htag
  have hplace := (h.set_of_holds he).1
  rw [htag, hP e' he'] at hplace
  exact hset hplace.symm

end Sound

theorem holds_iff (set : Nat) :
    c.Holds e ↔ (c.sets set).Holds e ∨ ∃ set', set' ≠ set ∧ (c.sets set').Holds e := by
  constructor
  · rintro ⟨set', he⟩
    by_cases hset : set' = set
    · subst hset
      exact .inl he
    · exact .inr ⟨set', hset, he⟩
  · rintro (he | ⟨set', -, he⟩)
    · exact ⟨set, he⟩
    · exact ⟨set', he⟩

/-- The line an insertion brings: blank without data. -/
def insertedLine (data : Option Ptr) : Line n := data.elim .zero Line.ofPtr

theorem insertSingleLine_splits {o : Order} {addr : Addr} {ins : Option Ptr} {real : Ptr}
    {isFill hasCntlr : Bool} {repl : Fin (assoc + 1)} {wbs : List (Writeback n)} (hc : c.Sound g)
    (hvalid : (CacheBlockInfo.new (tagOf n addr)).isValid = true)
    (hpeek : c.peekSingleLine g addr = .ok none)
    (h : c.insertSingleLine g o addr ins real isFill hasCntlr repl = .ok (c', wbs)) :
    c'.Sound g ∧ ∃ data, insertData hasCntlr isFill ins real = .ok data ∧
      Splits (fun e => c.Holds e ∨ e = (.new (tagOf n addr), insertedLine data)) c'.Holds wbs := by
  have hplaced := insertSingleLine_placed hc.placed hpeek h
  simp only [insertSingleLine, except_bind_eq_ok, pure_eq_ok, Prod.mk.injEq] at h
  obtain ⟨data, hdata, ⟨s, wbs', k⟩, hins, rfl, rfl⟩ := h
  have habs := hc.placed.absent hpeek
  rw [hc.placed.resident_iff] at habs
  obtain ⟨hagree, hsplit⟩ :=
    CacheSet.insertLine_splits (hc.placed _) (hc.agrees _) hvalid habs hins
  have hset := hplaced (g.setOf addr)
  simp only [Cache.setSet, Function.update_self] at hset
  refine ⟨hc.setSet hset hagree, data, hdata, (hc.splits_setSet hsplit ?_).congr ?_ fun e => Iff.rfl⟩
  · rintro e (he | rfl)
    · exact (hc.set_of_holds he).1
    · exact g.setOf_line addr
  · intro e
    rw [holds_iff (g.setOf addr), insertedLine, or_right_comm]

/-- A full load of a line that is held. -/
theorem accessSingleLine_load {o : Order} {addr : Addr} {real : Ptr} {repl : Fin (assoc + 1)}
    (hc : c.Sound g) (he : c.Holds e) (htag : e.1.tag = tagOf n addr) (hoff : offsetOf n addr = 0)
    (buf : Line n) : c.accessSingleLine g o addr (.load (some buf)) n real repl =
      .ok (⟨some e.1, some e.2, []⟩, c) := by
  obtain ⟨w, hw, hi, hd⟩ := hc.find_holds he htag
  have hvalid : (c.sets (g.setOf addr) w).info.isValidAt (g.blockIdOf addr) = true := by
    obtain ⟨i, hi', hv, -⟩ := CacheSet.find_some hw
    simp [SuperblockInfo.isValidAt, hi', hv]
  have hdata : (c.sets (g.setOf addr) w).data.valid (g.blockIdOf addr) = true := by
    rw [← (hc.agrees _ w).same, hvalid]
  have hread : ∀ off (hb : off + n ≤ n), off = 0 →
      (c.sets (g.setOf addr)).readLine w (g.blockIdOf addr) ⟨off, n, hb⟩ (some buf) =
        .ok (some e.2) := by
    rintro off hb rfl
    simp only [CacheSet.readLine, hvalid, BlockData.readBlockData, hdata, check, if_true, hd, bind,
      Except.bind, pure, Except.pure, Option.isSome_some, Bool.true_or]
    have hstart : e.2.ptr.add 0 = e.2.ptr := by
      funext j
      simp [Ptr.add]
    rw [copyN_full, hstart, CacheSet.ofPtr_ptr]
  have hle : offsetOf n addr + n ≤ n := by omega
  have hbuf := hread (offsetOf n addr) hle hoff
  simp only [accessSingleLine, hw, hle, dif_pos, bind, Except.bind, hbuf, hi, pure, Except.pure]

/-- A change of a block info that keeps its tag. -/
theorem modifyInfo_spec {addr : Addr} {f : CacheBlockInfo → CacheBlockInfo} (hc : c.Sound g)
    (he : c.Holds e) (htag : e.1.tag = tagOf n addr) (hf : ∀ i, (f i).tag = i.tag) :
    ∃ c', c.modifyInfo g addr f = .ok c' ∧ c'.Sound g ∧ c'.cntlr = c.cntlr ∧
      ∀ e', c'.Holds e' ↔ (c.Holds e' ∧ e'.1.tag ≠ tagOf n addr) ∨ e' = (f e.1, e.2) := by
  obtain ⟨w, hw, hi, hd⟩ := hc.find_holds he htag
  have hvalid : ∀ i, (f i).isValid = i.isValid := fun i => by simp only [CacheBlockInfo.isValid, hf]
  have hv : e.1.isValid = true := by
    obtain ⟨-, -, -, -, hv, -⟩ := he
    exact hv
  let s := c.sets (g.setOf addr)
  let v : Way n := { s w with info := (s w).info.modifyAt (g.blockIdOf addr) f }
  have hmod : c.modifyInfo g addr f =
      .ok (c.setSet (g.setOf addr) (Function.update s w v) c.cntlr) := by
    simp only [modifyInfo, hw, bind, Except.bind, pure, Except.pure]
    rfl
  have hself : v.info.blockInfos (g.blockIdOf addr) = some (f e.1) := by
    simp only [v, SuperblockInfo.modifyAt, Function.update_self]
    rw [show (s w).info.blockInfos (g.blockIdOf addr) = some e.1 from hi, Option.map_some]
  have hother : ∀ b, b ≠ g.blockIdOf addr → v.info.blockInfos b = (s w).info.blockInfos b := by
    intro b hb
    simp [v, SuperblockInfo.modifyAt, hb]
  have hagree : v.Agrees := by
    refine ⟨(hc.agrees _ w).inv, fun b => ?_⟩
    rw [← (hc.agrees _ w).same b]
    by_cases hb : b = g.blockIdOf addr
    · subst hb
      have hat : (s w).info.blockInfos (g.blockIdOf addr) = some e.1 := hi
      simp only [SuperblockInfo.isValidAt, hself, Option.any_some, hvalid]
      rw [show (c.sets (g.setOf addr) w).info.blockInfos (g.blockIdOf addr) = some e.1 from hat,
        Option.any_some]
    · exact SuperblockInfo.isValidAt_congr (hother b hb)
  have hplaced := modifyInfo_placed hc.placed hmod fun i hfi => ⟨(hvalid i) ▸ hfi, hf i⟩
  have hset := hplaced (g.setOf addr)
  simp only [Cache.setSet, Function.update_self] at hset
  refine ⟨_, hmod, hc.setSet hset ((hc.agrees _).update hagree), rfl, fun e' => ?_⟩
  have hwv : (Function.update s w v) w = v := Function.update_self ..
  rw [Sound.holds_setSet, holds_iff (g.setOf addr)]
  constructor
  · rintro (⟨w', b', hi', hv', hd'⟩ | ⟨set', hne, he'⟩)
    · by_cases hww : w' = w
      · subst hww
        rw [hwv] at hi' hd'
        by_cases hb : b' = g.blockIdOf addr
        · subst hb
          rw [hself] at hi'
          exact .inr (Prod.ext (Option.some.inj hi').symm (hd'.symm.trans hd))
        · rw [hother b' hb] at hi'
          have hold : s.Holds e' := ⟨w', b', hi', hv', hd'⟩
          refine .inl ⟨.inl hold, fun ht => hb ?_⟩
          have h₁ : (s w').info.tagAt b' = some (tagOf n addr) :=
            SuperblockInfo.tagAt_eq_some.mpr ⟨_, hi', hv', ht⟩
          have h₂ : (s w').info.tagAt (g.blockIdOf addr) = some (tagOf n addr) :=
            SuperblockInfo.tagAt_eq_some.mpr ⟨_, hi, hv, htag⟩
          exact ((hc.placed _).place_unique h₁ h₂).2
      · rw [Function.update_of_ne hww] at hi' hd'
        have hold : s.Holds e' := ⟨w', b', hi', hv', hd'⟩
        refine .inl ⟨.inl hold, fun ht => hww ?_⟩
        have h₁ : (s w').info.tagAt b' = some (tagOf n addr) :=
          SuperblockInfo.tagAt_eq_some.mpr ⟨_, hi', hv', ht⟩
        have h₂ : (s w).info.tagAt (g.blockIdOf addr) = some (tagOf n addr) :=
          SuperblockInfo.tagAt_eq_some.mpr ⟨_, hi, hv, htag⟩
        exact ((hc.placed _).place_unique h₁ h₂).1
    · refine .inl ⟨.inr ⟨set', hne, he'⟩, fun ht => hne ?_⟩
      rw [← (hc.set_of_holds he').1, ht, g.setOf_line]
  · rintro (⟨⟨w', b', hi', hv', hd'⟩ | hrest, ht⟩ | rfl)
    · left
      refine ⟨w', b', ?_⟩
      by_cases hww : w' = w
      · subst hww
        rw [hwv]
        have hb : b' ≠ g.blockIdOf addr := by
          rintro rfl
          rw [show (c.sets (g.setOf addr) w').info.blockInfos (g.blockIdOf addr) = some e.1 from hi]
            at hi'
          rw [← Option.some.inj hi'] at ht
          exact ht htag
        rw [hother b' hb]
        exact ⟨hi', hv', hd'⟩
      · rw [Function.update_of_ne hww]
        exact ⟨hi', hv', hd'⟩
    · exact .inr hrest
    · refine .inl ⟨w, g.blockIdOf addr, ?_, (hvalid e.1).trans hv, ?_⟩
      · rw [hwv]
        exact hself
      · rw [hwv]
        exact hd

theorem setCState_spec {addr : Addr} (cstate : CacheState) (hc : c.Sound g) (he : c.Holds e)
    (htag : e.1.tag = tagOf n addr) :
    ∃ c', c.setCState g addr cstate = .ok c' ∧ c'.Sound g ∧ c'.cntlr = c.cntlr ∧
      ∀ e', c'.Holds e' ↔
        (c.Holds e' ∧ e'.1.tag ≠ tagOf n addr) ∨ e' = ({ e.1 with cstate := cstate }, e.2) :=
  modifyInfo_spec hc he htag fun _ => rfl

end Cache

end Sniper.Cache
