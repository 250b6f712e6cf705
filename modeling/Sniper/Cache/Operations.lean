import Sniper.Cache.Encoding
import Sniper.Lib.Machine
set_option autoImplicit false

namespace Sniper.Cache
open Sniper.Lib Dish

variable {n : Nat}

@[simp] theorem pure_eq_ok {α : Type} {x y : α} : (pure x : Outcome α) = .ok y ↔ x = y := by
  simp [pure, Except.pure]

theorem CompressionCntlr.insert_prune (k : CompressionCntlr) (c : Scheme) :
    (k.insert c).shouldPruneDISHEntries = k.shouldPruneDISHEntries := by
  cases c <;> rfl

theorem CompressionCntlr.evict_prune (k : CompressionCntlr) (c : Scheme) :
    (k.evict c).shouldPruneDISHEntries = k.shouldPruneDISHEntries := by
  cases c <;> rfl

namespace BlockData

@[simp] theorem setData_scheme (s : BlockData n) (b : BlockId) (d : Line n) :
    (s.setData b d).scheme = s.scheme := rfl

@[simp] theorem setData_valid (s : BlockData n) (b : BlockId) (d : Line n) :
    (s.setData b d).valid = s.valid := rfl

@[simp] theorem setData_data (s : BlockData n) (b : BlockId) (d : Line n) :
    (s.setData b d).data = Function.update s.data b d := rfl

@[simp] theorem setData_table (s : BlockData n) (b : BlockId) (d : Line n) :
    (s.setData b d).table = s.table := rfl

@[simp] theorem setValid_scheme (s : BlockData n) (b : BlockId) (v : Bool) :
    (s.setValid b v).scheme = s.scheme := rfl

@[simp] theorem setValid_valid (s : BlockData n) (b : BlockId) (v : Bool) :
    (s.setValid b v).valid = Function.update s.valid b v := rfl

@[simp] theorem setValid_data (s : BlockData n) (b : BlockId) (v : Bool) :
    (s.setValid b v).data = s.data := rfl

@[simp] theorem setValid_table (s : BlockData n) (b : BlockId) (v : Bool) :
    (s.setValid b v).table = s.table := rfl

/-- The blocks that a compression into scheme `c` enters into the dictionary. -/
def encodeList (s : BlockData n) (c : Scheme) (b : BlockId) : List BlockId :=
  if s.scheme = c then [b]
  else if s.scheme = .uncompressed then
    match s.getFirstValid with
    | some u => if u ≠ b then [u, b] else [b]
    | none => [b]
  else (List.finRange superblockSize).filter s.valid

/-- The state in which the encoding loop of a compression starts. -/
def recoded (s : BlockData n) (c : Scheme) (b : BlockId) (d : Line n) : BlockData n :=
  (s.setData b d).changeScheme c

@[simp] theorem recoded_data (s : BlockData n) (c : Scheme) (b : BlockId) (d : Line n) :
    (s.recoded c b d).data = Function.update s.data b d := rfl

theorem encodeAll_singleton (o : Order) (c : Scheme) (s : BlockData n) (b : BlockId) :
    encodeAll o c [b] s = s.encode o c b := by
  simp only [encodeAll, bind, Except.bind]
  cases s.encode o c b <;> rfl

/-- A compression that passed its checks is its encoding loop. -/
theorem compressAs_eq (o : Order) (c : Scheme) {fits : Outcome Bool} {s : BlockData n} {b : BlockId}
    {a : Slice n} (wr : Ptr) (k : CompressionCntlr) (hv : s.isValid = true)
    (hlegal : s.legalSlice b a = true)
    (hunc : s.scheme = .uncompressed → a.offset = 0 ∧ a.bytes = n) (hfits : fits = .ok true)
    (hinv : s.scheme ≠ .invalid) :
    ∃ k', k'.shouldPruneDISHEntries = k.shouldPruneDISHEntries ∧
      compressAs o c fits s b a wr k =
      (encodeAll o c (s.encodeList c b)
        (s.recoded c b (copyN wr a.bytes a.offset (s.data b)))).map (fun s' => (s', k')) := by
  have hcheck : ((s.scheme == .uncompressed && a.offset == 0 && a.bytes == n) ||
      s.scheme != .uncompressed) = true := by
    by_cases hs : s.scheme = .uncompressed
    · obtain ⟨h0, hn⟩ := hunc hs
      simp [hs, h0, hn]
    · simp [hs]
  have hget : ∀ d, (s.setData b d).getFirstValid = s.getFirstValid := fun _ => rfl
  simp only [compressAs, hv, hlegal, hcheck, hfits, check, if_true, setData_scheme, hget,
    setData_valid, bind, Except.bind]
  by_cases hc : s.scheme = c
  · refine ⟨k, rfl, ?_⟩
    have hself : s.recoded c b (copyN wr a.bytes a.offset (s.data b)) =
        s.setData b (copyN wr a.bytes a.offset (s.data b)) := by
      rw [← hc]
      exact changeScheme_self (s.setData b _)
    simp only [hc, if_true, encodeList, hself, encodeAll_singleton]
    rfl
  · simp only [hc, if_false, encodeList]
    cases hs : s.scheme with
    | invalid => exact absurd hs hinv
    | uncompressed => exact ⟨k.insert c, k.insert_prune c, rfl⟩
    | scheme1 => exact ⟨_, ((k.evict .scheme1).insert_prune c).trans (k.evict_prune _), rfl⟩
    | scheme2 => exact ⟨_, ((k.evict .scheme2).insert_prune c).trans (k.evict_prune _), rfl⟩

theorem compressAs_ok {o : Order} {c : Scheme} {fits : Outcome Bool} {s s' : BlockData n}
    {b : BlockId} {a : Slice n} {wr : Ptr} {k k' : CompressionCntlr} (hinv : s.scheme ≠ .invalid)
    (h : compressAs o c fits s b a wr k = .ok (s', k')) :
    fits = .ok true ∧ k'.shouldPruneDISHEntries = k.shouldPruneDISHEntries ∧
      encodeAll o c (s.encodeList c b)
        (s.recoded c b (copyN wr a.bytes a.offset (s.data b))) = .ok s' := by
  have hchecks := h
  simp only [compressAs, except_bind_eq_ok, check_ok] at hchecks
  obtain ⟨-, hv, -, hlegal, -, hunc, fit, hfits, -, hfit, -⟩ := hchecks
  rw [hfit] at hfits
  have hunc' : s.scheme = .uncompressed → a.offset = 0 ∧ a.bytes = n := by
    intro hs
    simpa [hs] using hunc
  obtain ⟨k'', hprune, heq⟩ := compressAs_eq o c wr k hv hlegal hunc' hfits hinv
  rw [heq] at h
  refine ⟨hfits, ?_⟩
  cases he : encodeAll o c (s.encodeList c b)
      (s.recoded c b (copyN wr a.bytes a.offset (s.data b))) with
  | error f => simp [he, Except.map] at h
  | ok u =>
    simp only [he, Except.map, Except.ok.injEq, Prod.mk.injEq] at h
    rw [← h.1, ← h.2]
    exact ⟨hprune, rfl⟩

/-- Bookkeeping that every operation keeps. -/
structure Inv (s : BlockData n) : Prop where
  scheme_ne : s.scheme ≠ .invalid
  table_wf : s.table.Wf s.scheme.dictSize
  blank : ∀ b, s.valid b = false → s.data b = .zero
  empty_uncompressed : s.isValid = false → s.scheme = .uncompressed

theorem inv_fresh : (fresh : BlockData n).Inv :=
  ⟨by simp [fresh], PtrTable.wf_empty, fun _ _ => rfl, fun _ => rfl⟩

theorem wf_zero_eq_empty {t : PtrTable Word} (wf : t.Wf 0) : t = .empty := by
  have hcover := wf.cover
  simp only [Finset.range_zero, Finset.union_eq_empty] at hcover
  have hdict : t.dict = [] := by
    have hused := wf.used_eq
    rw [hcover.2] at hused
    simpa using hused.symm
  cases t with
  | mk dict free used =>
    simp only at hcover hdict
    simp [PtrTable.empty, hcover, hdict]

theorem Inv.table_empty {s : BlockData n} (inv : s.Inv) (h : s.scheme = .uncompressed) :
    s.table = .empty := by
  have wf := inv.table_wf
  rw [h] at wf
  exact wf_zero_eq_empty wf

/-- A change of scheme starts an empty dictionary of the new scheme's size. -/
theorem changeScheme_table {s : BlockData n} (inv : s.Inv) {c : Scheme}
    (hc : c ≠ .invalid) (hne : s.scheme ≠ c) :
    (s.changeScheme c).table = PtrTable.empty.fill c.dictSize := by
  have hfill : (PtrTable.empty : PtrTable Word).fill 0 = .empty := by simp [PtrTable.fill, PtrTable.empty]
  have hempty := inv.table_empty
  have hinv := inv.scheme_ne
  cases hs : s.scheme <;> cases c <;>
    simp_all [changeScheme, Scheme.dictSize]

theorem recoded_table_wf {s : BlockData n} (inv : s.Inv) {c : Scheme} (hc : c ≠ .invalid)
    (b : BlockId) (d : Line n) : (s.recoded c b d).table.Wf c.dictSize := by
  by_cases hne : s.scheme = c
  · subst hne
    have hself : s.recoded s.scheme b d = s.setData b d := changeScheme_self (s.setData b d)
    rw [hself]
    exact inv.table_wf
  · have htable : (s.recoded c b d).table = PtrTable.empty.fill c.dictSize :=
      changeScheme_table inv hc hne
    rw [htable]
    exact PtrTable.wf_fill_empty _

theorem recoded_vals {s : BlockData n} (inv : s.Inv) {c : Scheme} (hc : c ≠ .invalid)
    (b : BlockId) (d : Line n) :
    (s.recoded c b d).table.vals = if s.scheme = c then s.table.vals else ∅ := by
  by_cases hne : s.scheme = c
  · subst hne
    have hself : s.recoded s.scheme b d = s.setData b d := changeScheme_self (s.setData b d)
    rw [hself, if_pos rfl]
    rfl
  · have htable : (s.recoded c b d).table = PtrTable.empty.fill c.dictSize :=
      changeScheme_table inv hc hne
    rw [htable, if_neg hne]
    simp

theorem firstFit_mem {l : List (Scheme × Outcome Bool)} {c : Scheme} (h : firstFit l = .ok c)
    (hc : c ≠ .invalid) : (c, .ok true) ∈ l := by
  induction l with
  | nil =>
    simp only [firstFit, Except.ok.injEq] at h
    exact absurd h.symm hc
  | cons x rest ih =>
    obtain ⟨c', fits⟩ := x
    simp only [firstFit, except_bind_eq_ok] at h
    obtain ⟨fit, rfl, h⟩ := h
    cases fit with
    | true =>
      simp only [if_true, pure_eq_ok] at h
      exact h ▸ List.mem_cons_self
    | false => exact List.mem_cons_of_mem _ (ih (by simpa using h))

/-- The compressibility check of a scheme. -/
def isSchemeCompressible (s : BlockData n) (c : Scheme) (b : BlockId) (a : Slice n) (wr : Ptr)
    (k : CompressionCntlr) : Outcome Bool :=
  match c with
  | .scheme1 => s.isScheme1Compressible b a wr k
  | .scheme2 => s.isScheme2Compressible b a wr k
  | _ => .ok false

/-- A write stays uncompressed, or goes to a scheme whose check accepted it. -/
theorem getSchemeForWrite_cases {s : BlockData n} {b : BlockId} {a : Slice n} {wr : Ptr}
    {k : CompressionCntlr} {c : Scheme} (h : s.getSchemeForWrite b a wr k = .ok c)
    (hc : c ≠ .invalid) :
    s.valid b = true ∧ ((s.scheme = .uncompressed ∧ c = .uncompressed) ∨
      (s.scheme ≠ .uncompressed ∧ c ≠ .uncompressed ∧
        s.isSchemeCompressible c b a wr k = .ok true)) := by
  simp only [getSchemeForWrite] at h
  by_cases hv : s.isValid = true ∧ s.valid b = true
  · refine ⟨hv.2, ?_⟩
    simp only [hv.1, hv.2, Bool.not_true, Bool.or_self, Bool.false_eq_true, if_false] at h
    cases hs : s.scheme with
    | invalid => simp [hs] at h
    | uncompressed => exact .inl ⟨rfl, by simpa [hs] using h.symm⟩
    | scheme1 | scheme2 =>
      simp only [hs] at h
      have hmem := firstFit_mem h hc
      right
      split at hmem <;> simp at hmem <;> grind [isSchemeCompressible]
  · have : (!s.isValid || !s.valid b) = true := by
      cases h1 : s.isValid <;> cases h2 : s.valid b <;> simp_all
    simp only [this, if_true, Except.ok.injEq] at h
    exact absurd h.symm hc

/-- An insertion finds the superblock empty, or goes to a scheme whose check accepted it. -/
theorem getSchemeForInsertion_cases {s : BlockData n} {b : BlockId} {wr : Ptr}
    {k : CompressionCntlr} {c : Scheme} (h : s.getSchemeForInsertion b wr k = .ok c)
    (hc : c ≠ .invalid) :
    (s.isValid = false ∧ c = .uncompressed) ∨
      (s.isValid = true ∧ s.valid b = false ∧ c ≠ .uncompressed ∧
        s.isSchemeCompressible c b .full wr k = .ok true) := by
  simp only [getSchemeForInsertion] at h
  cases hv : s.isValid with
  | false =>
    left
    cases hk : k.canCompress <;> simpa [hv, hk, eq_comm] using h
  | true =>
    right
    cases hk : k.canCompress with
    | false =>
      simp only [hk, hv, Bool.false_eq_true, if_false, if_true, Except.ok.injEq] at h
      exact absurd h.symm hc
    | true =>
      cases hb : s.valid b with
      | true =>
        simp only [hk, hv, hb, if_true, Except.ok.injEq] at h
        exact absurd h.symm hc
      | false =>
        simp only [hk, hv, hb, if_true, Bool.false_eq_true, if_false] at h
        refine ⟨rfl, rfl, ?_⟩
        cases hs : s.scheme with
        | invalid => simp [hs] at h
        | uncompressed =>
          cases hd : k.getDefaultScheme with
          | scheme1 =>
            simp only [hs, hd] at h
            have hmem := firstFit_mem h hc
            simp at hmem
            grind [isSchemeCompressible]
          | scheme2 =>
            -- a failed check of SCHEME2 fails again, so SCHEME1 is never the answer here
            simp only [hs, hd, firstFit, except_bind_eq_ok] at h
            obtain ⟨fit, hfit, h⟩ := h
            cases fit with
            | true =>
              simp only [if_true, pure_eq_ok] at h
              subst h
              exact ⟨by simp, hfit⟩
            | false =>
              simp only [Bool.false_eq_true, if_false, except_bind_eq_ok] at h
              obtain ⟨fit', hfit', h⟩ := h
              rw [hfit] at hfit'
              cases hfit'
              simp at h
              exact absurd h.symm hc
          | invalid | uncompressed => simp [hs, hd] at h
        | scheme1 | scheme2 =>
          simp only [hs] at h
          have hmem := firstFit_mem h hc
          split at hmem <;> simp at hmem <;> grind [isSchemeCompressible]

/-- How a line reaches the data array: raw, or through the dictionary of scheme `c`. -/
inductive Stores (o : Order) (s : BlockData n) (b : BlockId) (d : Line n) :
    Scheme → BlockData n → Prop where
  | raw : s.scheme = .uncompressed → Stores o s b d .uncompressed (s.setData b d)
  | coded {c : Scheme} {u : BlockData n} : c ≠ .uncompressed → c ≠ .invalid →
      encodeAll o c (s.encodeList c b) (s.recoded c b d) = .ok u → Stores o s b d c u

theorem Stores.spec {o : Order} {s u : BlockData n} {b : BlockId} {d : Line n} {c : Scheme}
    (inv : s.Inv) (h : Stores o s b d c u) :
    u.scheme = c ∧ c ≠ .invalid ∧ u.valid = s.valid ∧ u.data = Function.update s.data b d ∧
      u.table.Wf c.dictSize := by
  cases h with
  | raw hs =>
    refine ⟨hs, by simp, rfl, rfl, ?_⟩
    have wf := inv.table_wf
    rw [hs] at wf
    exact wf
  | coded _ hinv he =>
    obtain ⟨hsch, hval, hdata, wf, -⟩ := encodeAll_spec (recoded_table_wf inv hinv b d) he
    exact ⟨hsch, hinv, hval, hdata, wf⟩

theorem compactIfPruning_ok {k : CompressionCntlr} {s s' : BlockData n}
    (h : compactIfPruning k s = .ok s') : s' = s ∨
      (s' = s.eraseUnused ∧ k.shouldPruneDISHEntries = true ∧ s.scheme ≠ .uncompressed) := by
  simp only [compactIfPruning] at h
  split at h
  · next hk =>
    simp only [compact] at h
    split at h
    · exact .inl (by simpa using h.symm)
    · cases hs : s.scheme <;> simp only [hs, reduceCtorEq, Except.ok.injEq] at h
      · exact .inl h.symm
      · exact .inr ⟨h.symm, hk, by simp⟩
      · exact .inr ⟨h.symm, hk, by simp⟩
  · exact .inl (by simpa using h.symm)

theorem compactIfPruning_isOk {k : CompressionCntlr} {s : BlockData n} (h : s.scheme ≠ .invalid) :
    ∃ s', compactIfPruning k s = .ok s' := by
  simp only [compactIfPruning, compact]
  split
  · split
    · exact ⟨s, rfl⟩
    · cases hs : s.scheme <;> simp_all
  · exact ⟨s, rfl⟩

@[simp] theorem eraseUnused_table (s : BlockData n) :
    s.eraseUnused.table = s.table.prune s.entryUsed := rfl

theorem compactIfPruning_spec {k : CompressionCntlr} {s s' : BlockData n}
    (h : compactIfPruning k s = .ok s') : s'.scheme = s.scheme ∧ s'.valid = s.valid ∧
      s'.data = s.data ∧ ∀ size, s.table.Wf size → s'.table.Wf size := by
  rcases compactIfPruning_ok h with rfl | ⟨rfl, -⟩
  · exact ⟨rfl, rfl, rfl, fun _ wf => wf⟩
  · exact ⟨rfl, rfl, rfl, fun _ wf => PtrTable.prune_wf wf⟩

/-- The contents of the written block, as the code's branch for the current scheme leaves it. -/
def written (s : BlockData n) (b : BlockId) (a : Slice n) (wr : Ptr) : Line n :=
  if s.scheme = .uncompressed then copyN (wr.add a.offset) a.bytes a.offset (s.data b)
  else copyN wr a.bytes a.offset (s.data b)

theorem compress_stores {o : Order} {c : Scheme} {s s' : BlockData n} {b : BlockId} {a : Slice n}
    {wr : Ptr} {k k' : CompressionCntlr} (inv : s.Inv) (hu : c ≠ .uncompressed) (hc : c ≠ .invalid)
    (h : compressAs o c (s.isSchemeCompressible c b a wr k) s b a wr k = .ok (s', k')) :
    k'.shouldPruneDISHEntries = k.shouldPruneDISHEntries ∧
      Stores o s b (copyN wr a.bytes a.offset (s.data b)) c s' := by
  obtain ⟨-, hprune, he⟩ := compressAs_ok inv.scheme_ne h
  exact ⟨hprune, .coded hu hc he⟩

/-- A completed write stores the new line, then compacts. -/
theorem writeBlockData_some {o : Order} {s s' : BlockData n} {b : BlockId} {a : Slice n} {wr : Ptr}
    {k k' : CompressionCntlr} (inv : s.Inv) (h : s.writeBlockData o b a (some wr) k = .ok (s', k')) :
    s.valid b = true ∧ ∃ c u, s.getSchemeForWrite b a wr k = .ok c ∧
      Stores o s b (s.written b a wr) c u ∧ compactIfPruning k u = .ok s' := by
  simp only [writeBlockData, except_bind_eq_ok, pure_eq_ok, Prod.mk.injEq] at h
  obtain ⟨-, -, c, hget, ⟨u, k1⟩, hbody, s1, hcomp, rfl, rfl⟩ := h
  have hc : c ≠ .invalid := by
    rintro rfl
    simp [storeWritten] at hbody
  obtain ⟨hv, hcase⟩ := getSchemeForWrite_cases hget hc
  refine ⟨hv, c, u, hget, ?_⟩
  rcases hcase with ⟨hs, rfl⟩ | ⟨hs, hu, hfit⟩
  · simp only [storeWritten, Except.ok.injEq, Prod.mk.injEq] at hbody
    obtain ⟨rfl, rfl⟩ := hbody
    refine ⟨?_, hcomp⟩
    simp only [written, hs, if_true]
    exact .raw hs
  · have hstore : k1.shouldPruneDISHEntries = k.shouldPruneDISHEntries ∧
        Stores o s b (copyN wr a.bytes a.offset (s.data b)) c u := by
      cases c with
      | invalid => exact absurd rfl hc
      | uncompressed => exact absurd rfl hu
      | scheme1 => exact compress_stores inv hu hc hbody
      | scheme2 => exact compress_stores inv hu hc hbody
    simp only [written, hs, if_false]
    refine ⟨hstore.2, ?_⟩
    simpa only [compactIfPruning, hstore.1] using hcomp

theorem writeBlockData_none {o : Order} {s s' : BlockData n} {b : BlockId} {a : Slice n}
    {k k' : CompressionCntlr} (h : s.writeBlockData o b a none k = .ok (s', k')) :
    compactIfPruning k s = .ok s' := by
  simp only [writeBlockData, except_bind_eq_ok, pure_eq_ok, Prod.mk.injEq] at h
  obtain ⟨-, -, s1, hcomp, rfl, rfl⟩ := h
  exact hcomp

/-- A completed insertion stores the line, marks it valid, then compacts. -/
theorem insertBlockData_some {o : Order} {s s' : BlockData n} {b : BlockId} {ins : Ptr}
    {k k' : CompressionCntlr} (inv : s.Inv) (h : s.insertBlockData o b (some ins) k = .ok (s', k')) :
    s.valid b = false ∧ ∃ c u, s.getSchemeForInsertion b ins k = .ok c ∧
      Stores o s b (Line.ofPtr ins) c u ∧ compactIfPruning k (u.setValid b true) = .ok s' := by
  simp only [insertBlockData, except_bind_eq_ok, pure_eq_ok, Prod.mk.injEq, check_ok] at h
  obtain ⟨-, hv, c, hget, ⟨u, k1⟩, hbody, s1, hcomp, rfl, rfl⟩ := h
  have hc : c ≠ .invalid := by
    rintro rfl
    simp [storeInserted] at hbody
  refine ⟨by simpa using hv, c, u, hget, ?_⟩
  have hfull : Line.ofPtr ins = copyN ins (Slice.full : Slice n).bytes
      (Slice.full : Slice n).offset (s.data b) := (copyN_full ins (s.data b)).symm
  rcases getSchemeForInsertion_cases hget hc with ⟨hempty, rfl⟩ | ⟨-, -, hu, hfit⟩
  · simp only [storeInserted, Except.ok.injEq, Prod.mk.injEq] at hbody
    obtain ⟨rfl, rfl⟩ := hbody
    rw [hfull]
    exact ⟨.raw (inv.empty_uncompressed hempty), hcomp⟩
  · have hstore : k1.shouldPruneDISHEntries = k.shouldPruneDISHEntries ∧
        Stores o s b (Line.ofPtr ins) c u := by
      rw [hfull]
      cases c with
      | invalid => exact absurd rfl hc
      | uncompressed => exact absurd rfl hu
      | scheme1 => exact compress_stores inv hu hc hbody
      | scheme2 => exact compress_stores inv hu hc hbody
    refine ⟨hstore.2, ?_⟩
    simpa only [compactIfPruning, hstore.1] using hcomp

theorem insertBlockData_none {o : Order} {s s' : BlockData n} {b : BlockId}
    {k k' : CompressionCntlr} (h : s.insertBlockData o b none k = .ok (s', k')) :
    s.valid b = false ∧ compactIfPruning k (s.setValid b true) = .ok s' := by
  simp only [insertBlockData, except_bind_eq_ok, pure_eq_ok, Prod.mk.injEq, check_ok] at h
  obtain ⟨-, hv, s1, hcomp, rfl, rfl⟩ := h
  exact ⟨by simpa using hv, hcomp⟩

theorem setValid_isValid (s : BlockData n) (b : BlockId) : (s.setValid b true).isValid = true :=
  isValid_of_valid (b := b) (by simp)

theorem Inv.of_stored {s' : BlockData n} (h : s'.scheme ≠ .invalid)
    (wf : s'.table.Wf s'.scheme.dictSize) (hvalid : s'.isValid = true)
    (hblank : ∀ b, s'.valid b = false → s'.data b = .zero) : s'.Inv :=
  ⟨h, wf, hblank, fun hf => by simp [hvalid] at hf⟩

/-- The effect of a write on the stored lines. -/
theorem writeBlockData_spec {o : Order} {s s' : BlockData n} {b : BlockId} {a : Slice n}
    {wr : Option Ptr} {k k' : CompressionCntlr} (inv : s.Inv)
    (h : s.writeBlockData o b a wr k = .ok (s', k')) :
    s'.Inv ∧ s'.valid = s.valid ∧
      s'.data = match wr with
        | none => s.data
        | some wr => Function.update s.data b (s.written b a wr) := by
  cases wr with
  | none =>
    obtain ⟨hsch, hval, hdata, hwf⟩ := compactIfPruning_spec (writeBlockData_none h)
    refine ⟨⟨?_, ?_, ?_, ?_⟩, hval, hdata⟩
    · rw [hsch]; exact inv.scheme_ne
    · rw [hsch]; exact hwf _ inv.table_wf
    · rw [hval, hdata]; exact inv.blank
    · intro hf
      rw [hsch]
      exact inv.empty_uncompressed (by simpa only [isValid, hval] using hf)
  | some wr =>
    obtain ⟨hb, c, u, -, hst, hcomp⟩ := writeBlockData_some inv h
    obtain ⟨hsch, hc, hval, hdata, hwf⟩ := hst.spec inv
    obtain ⟨hsch', hval', hdata', hwf'⟩ := compactIfPruning_spec hcomp
    have hv := hval'.trans hval
    have hd := hdata'.trans hdata
    refine ⟨.of_stored ?_ ?_ ?_ ?_, hv, hd⟩
    · rw [hsch', hsch]; exact hc
    · rw [hsch', hsch]; exact hwf' _ hwf
    · exact isValid_of_valid (b := b) (by rw [hv]; exact hb)
    · intro b' hb'
      rw [hv] at hb'
      have hne : b' ≠ b := by rintro rfl; simp [hb] at hb'
      rw [hd, Function.update_of_ne hne]
      exact inv.blank b' hb'

/-- The effect of an insertion on the stored lines; a null insertion keeps the blank line. -/
theorem insertBlockData_spec {o : Order} {s s' : BlockData n} {b : BlockId} {ins : Option Ptr}
    {k k' : CompressionCntlr} (inv : s.Inv) (h : s.insertBlockData o b ins k = .ok (s', k')) :
    s'.Inv ∧ s.valid b = false ∧ s'.valid = Function.update s.valid b true ∧
      s'.data = Function.update s.data b (ins.elim .zero Line.ofPtr) := by
  have key : ∃ u : BlockData n, s.valid b = false ∧ u.scheme ≠ .invalid ∧ u.table.Wf u.scheme.dictSize ∧
      u.valid = s.valid ∧ u.data = Function.update s.data b (ins.elim .zero Line.ofPtr) ∧
      compactIfPruning k (u.setValid b true) = .ok s' := by
    cases ins with
    | none =>
      obtain ⟨hv, hcomp⟩ := insertBlockData_none h
      refine ⟨s, hv, inv.scheme_ne, inv.table_wf, rfl, ?_, hcomp⟩
      rw [Option.elim_none, ← inv.blank b hv, Function.update_eq_self]
    | some ins =>
      obtain ⟨hv, c, u, -, hst, hcomp⟩ := insertBlockData_some inv h
      obtain ⟨hsch, hc, hval, hdata, hwf⟩ := hst.spec inv
      exact ⟨u, hv, hsch ▸ hc, hsch ▸ hwf, hval, hdata, hcomp⟩
  obtain ⟨u, hv, hc, hwf, hval, hdata, hcomp⟩ := key
  obtain ⟨hsch', hval', hdata', hwf'⟩ := compactIfPruning_spec hcomp
  rw [setValid_valid, hval] at hval'
  rw [setValid_data, hdata] at hdata'
  refine ⟨.of_stored ?_ ?_ ?_ ?_, hv, hval', hdata'⟩
  · rw [hsch']; exact hc
  · rw [hsch']; exact hwf' _ hwf
  · exact isValid_of_valid (b := b) (by rw [hval']; simp)
  · intro b' hb'
    have hne : b' ≠ b := by
      rintro rfl
      simp [hval'] at hb'
    rw [hval', Function.update_of_ne hne] at hb'
    rw [hdata', Function.update_of_ne hne]
    exact inv.blank b' hb'

theorem dropBlock_spec {s : BlockData n} (b : BlockId) (k : CompressionCntlr) (inv : s.Inv) :
    (s.dropBlock b k).1.Inv ∧ (s.dropBlock b k).1.valid = Function.update s.valid b false ∧
      (s.dropBlock b k).1.data = Function.update s.data b .zero := by
  have hblank : ∀ b', Function.update s.valid b false b' = false →
      Function.update s.data b .zero b' = .zero := by
    intro b' hb'
    by_cases hne : b' = b
    · subst hne; simp
    · rw [Function.update_of_ne hne] at hb' ⊢
      exact inv.blank b' hb'
  simp only [dropBlock]
  split
  · next hf =>
    refine ⟨⟨by simp, ?_, hblank, fun _ => rfl⟩, rfl, rfl⟩
    by_cases hs : s.scheme = .uncompressed
    · simp [changeScheme, hs, inv.table_empty hs, Scheme.dictSize, PtrTable.wf_empty]
    · have hne := inv.scheme_ne
      cases hsch : s.scheme <;> simp_all [changeScheme, Scheme.dictSize, PtrTable.wf_empty]
  · next hf =>
    exact ⟨⟨inv.scheme_ne, inv.table_wf, hblank, fun h => by simp [h] at hf⟩, rfl, rfl⟩

theorem evictBlockData_spec {s s' : BlockData n} {b : BlockId} {k k' : CompressionCntlr}
    {line : Line n} (inv : s.Inv) (h : s.evictBlockData b k = .ok (line, s', k')) :
    s'.Inv ∧ s.valid b = true ∧ line = s.data b ∧ s'.valid = Function.update s.valid b false ∧
      s'.data = Function.update s.data b .zero := by
  simp only [evictBlockData, except_bind_eq_ok, check_ok] at h
  obtain ⟨-, hv, h⟩ := h
  obtain ⟨inv', hval, hdata⟩ := dropBlock_spec b k inv
  split at h
  · next hvalid =>
    simp only [except_bind_eq_ok, pure_eq_ok, Prod.mk.injEq] at h
    obtain ⟨s1, hcomp, rfl, rfl, rfl⟩ := h
    obtain ⟨hsch', hval', hdata', hwf'⟩ := compactIfPruning_spec hcomp
    have hv' := hval'.trans hval
    refine ⟨.of_stored ?_ ?_ ?_ ?_, hv, rfl, hv', hdata'.trans hdata⟩
    · rw [hsch']; exact inv'.scheme_ne
    · rw [hsch']; exact hwf' _ inv'.table_wf
    · simpa only [isValid, hval'] using hvalid
    · rw [hval', hdata']; exact inv'.blank
  · simp only [pure_eq_ok, Prod.mk.injEq] at h
    obtain ⟨rfl, rfl, rfl⟩ := h
    exact ⟨inv', hv, rfl, hval, hdata⟩

end BlockData

end Sniper.Cache
