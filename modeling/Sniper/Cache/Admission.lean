import Sniper.Cache.Refinement
set_option autoImplicit false

namespace Sniper.Cache
open Sniper.Lib Dish

variable {n : Nat}

namespace BlockData

theorem fitsVacancies_card {t : PtrTable Word} {vs : List Word} {vacancies : Nat}
    (h : fitsVacancies t vs vacancies = true) : (vs.toFinset \ t.vals).card ≤ vacancies := by
  induction vs generalizing vacancies with
  | nil => simp
  | cons v vs ih =>
    simp only [fitsVacancies, PtrTable.lookup_isSome, decide_eq_true_eq] at h
    rw [List.toFinset_cons]
    split at h
    · next hv =>
      rw [Finset.insert_sdiff_of_mem _ hv]
      exact ih h
    · next hv =>
      cases vacancies with
      | zero => simp at h
      | succ vacancies =>
        rw [Finset.insert_sdiff_of_notMem _ hv]
        have hle := Finset.card_insert_le v (vs.toFinset \ t.vals)
        have hih := ih h
        omega

/-- A positive vacancy count leaves room for all values at once. -/
theorem fitsVacancies_room {t : PtrTable Word} {size : Nat} (wf : t.Wf size) {vs : List Word}
    (h : fitsVacancies t vs t.free.card = true) : (t.vals ∪ vs.toFinset).card ≤ size := by
  have hnew := fitsVacancies_card h
  have hcard := wf.card
  rw [← Finset.union_sdiff_self_eq_union, Finset.card_union_of_disjoint Finset.disjoint_sdiff]
  omega

/-- What an accepting check has tested, in the scheme it was made in. -/
def Checked1 (s : BlockData n) (b : BlockId) (a : Slice n) (wr : Ptr) : Prop :=
  match s.scheme with
  | .scheme1 =>
    fitsVacancies s.table (copyN (wr.add a.offset) a.bytes a.offset (s.data b)).chunks
      s.table.free.card = true
  | .uncompressed =>
    (s.uncompressedChunks b ++ (List.range (chunksPerBlock n)).map wr.chunk).toFinset.card
      ≤ scheme1DictSize
  | _ => True

def Checked2 (s : BlockData n) (b : BlockId) (a : Slice n) (wr : Ptr) : Prop :=
  match s.scheme with
  | .scheme1 =>
    (((s.otherBlocks b).flatMap fun i => (s.data i).chunks.map upper) ++
      (copyN (wr.add a.offset) a.bytes a.offset (s.data b)).chunks.map upper).toFinset.card
      ≤ scheme2DictSize
  | .scheme2 =>
    fitsVacancies s.table ((copyN wr a.bytes a.offset (s.data b)).chunks.map upper)
      s.table.free.card = true
  | .uncompressed =>
    ((s.uncompressedChunks b).map upper ++
      ((List.range (a.bytes / granularityBytes)).map wr.chunk).map upper).toFinset.card
      ≤ scheme2DictSize
  | .invalid => True

theorem isScheme1Compressible_true {s : BlockData n} {b : BlockId} {a : Slice n} {wr : Ptr}
    {k : CompressionCntlr} (h : s.isScheme1Compressible b a wr k = .ok true) :
    s.isValid = true ∧ s.legalSlice b a = true ∧ s.Checked1 b a wr := by
  simp only [isScheme1Compressible] at h
  cases hv : s.isValid with
  | false => simp [hv] at h
  | true =>
    cases hk : k.canCompress with
    | false => simp [hv, hk] at h
    | true =>
      simp only [hv, hk, Bool.not_true, Bool.false_eq_true, if_false, except_bind_eq_ok, check_ok] at h
      obtain ⟨-, hlegal, h⟩ := h
      refine ⟨rfl, hlegal, ?_⟩
      cases hs : s.scheme <;> simp_all [Checked1, testData_eq]

theorem isScheme2Compressible_true {s : BlockData n} {b : BlockId} {a : Slice n} {wr : Ptr}
    {k : CompressionCntlr} (h : s.isScheme2Compressible b a wr k = .ok true) :
    s.isValid = true ∧ s.legalSlice b a = true ∧ s.Checked2 b a wr := by
  simp only [isScheme2Compressible] at h
  cases hv : s.isValid with
  | false => simp [hv] at h
  | true =>
    cases hk : k.canCompress with
    | false => simp [hv, hk] at h
    | true =>
      simp only [hv, hk, Bool.not_true, Bool.false_eq_true, if_false, except_bind_eq_ok, check_ok] at h
      obtain ⟨-, hlegal, h⟩ := h
      refine ⟨rfl, hlegal, ?_⟩
      cases hs : s.scheme <;> simp_all [Checked2, testData_eq]
      split at h <;> simp_all

theorem isSchemeCompressible_true {s : BlockData n} {c : Scheme} {b : BlockId} {a : Slice n}
    {wr : Ptr} {k : CompressionCntlr} (h : s.isSchemeCompressible c b a wr k = .ok true) :
    s.isValid = true ∧ s.legalSlice b a = true := by
  cases c with
  | scheme1 => exact ⟨(isScheme1Compressible_true h).1, (isScheme1Compressible_true h).2.1⟩
  | scheme2 => exact ⟨(isScheme2Compressible_true h).1, (isScheme2Compressible_true h).2.1⟩
  | invalid | uncompressed => simp [isSchemeCompressible] at h

theorem firstFit_cons {c c1 : Scheme} {fits : Outcome Bool} {rest : List (Scheme × Outcome Bool)}
    (h : firstFit ((c1, fits) :: rest) = .ok c) :
    (fits = .ok true ∧ c = c1) ∨ (fits = .ok false ∧ firstFit rest = .ok c) := by
  simp only [firstFit, except_bind_eq_ok] at h
  obtain ⟨fit, rfl, h⟩ := h
  cases fit with
  | true =>
    simp only [if_true, pure_eq_ok] at h
    exact .inl ⟨rfl, h.symm⟩
  | false => exact .inr ⟨rfl, by simpa using h⟩

/-- A compressed superblock keeps its scheme if that scheme's check accepts. -/
def KeepsOrChanges (s : BlockData n) (b : BlockId) (a : Slice n) (wr : Ptr) (k : CompressionCntlr)
    (c : Scheme) : Prop :=
  (c = s.scheme ∧ s.isSchemeCompressible s.scheme b a wr k = .ok true) ∨
    (c ≠ s.scheme ∧ s.isSchemeCompressible s.scheme b a wr k = .ok false ∧
      s.isSchemeCompressible c b a wr k = .ok true)

theorem getSchemeForWrite_keeps {s : BlockData n} {b : BlockId} {a : Slice n} {wr : Ptr}
    {k : CompressionCntlr} {c : Scheme} (h : s.getSchemeForWrite b a wr k = .ok c)
    (hc : c ≠ .invalid) (hs : s.scheme ≠ .uncompressed) : s.KeepsOrChanges b a wr k c := by
  simp only [getSchemeForWrite] at h
  split at h
  · exact absurd (Except.ok.inj h).symm hc
  · cases hsch : s.scheme with
    | invalid => simp [hsch] at h
    | uncompressed => exact absurd hsch hs
    | scheme1 | scheme2 =>
      simp only [hsch] at h
      simp only [KeepsOrChanges, hsch]
      split at h <;> rcases firstFit_cons h with ⟨hfit, rfl⟩ | ⟨hfit, h⟩
      · exact .inl ⟨rfl, hfit⟩
      · obtain ⟨hfit', rfl⟩ | ⟨-, h⟩ := firstFit_cons h
        · exact .inr ⟨by simp, hfit, hfit'⟩
        · exact absurd (Except.ok.inj h).symm hc
      · exact .inl ⟨rfl, hfit⟩
      · exact absurd (Except.ok.inj h).symm hc

theorem getSchemeForInsertion_keeps {s : BlockData n} {b : BlockId} {wr : Ptr}
    {k : CompressionCntlr} {c : Scheme} (h : s.getSchemeForInsertion b wr k = .ok c)
    (hc : c ≠ .invalid) (hv : s.isValid = true) (hs : s.scheme ≠ .uncompressed) :
    s.KeepsOrChanges b .full wr k c := by
  simp only [getSchemeForInsertion, hv, if_true] at h
  split at h
  · split at h
    · exact absurd (Except.ok.inj h).symm hc
    · cases hsch : s.scheme with
      | invalid => simp [hsch] at h
      | uncompressed => exact absurd hsch hs
      | scheme1 | scheme2 =>
        simp only [hsch] at h
        simp only [KeepsOrChanges, hsch]
        split at h <;> rcases firstFit_cons h with ⟨hfit, rfl⟩ | ⟨hfit, h⟩
        · exact .inl ⟨rfl, hfit⟩
        · obtain ⟨hfit', rfl⟩ | ⟨-, h⟩ := firstFit_cons h
          · exact .inr ⟨by simp, hfit, hfit'⟩
          · exact absurd (Except.ok.inj h).symm hc
        · exact .inl ⟨rfl, hfit⟩
        · exact absurd (Except.ok.inj h).symm hc
  · exact absurd (Except.ok.inj h).symm hc

/-- The dictionary values that the blocks valid now need under scheme `c`. -/
def validKeys (s : BlockData n) (c : Scheme) (data : BlockId → Line n) : Finset Word :=
  (((List.finRange superblockSize).filter s.valid).flatMap fun i => (data i).keys c).toFinset

/-- The values that a compression into scheme `c` needs besides those already in the table. -/
def neededKeys (s : BlockData n) (c : Scheme) (b : BlockId) (d : Line n) : Finset Word :=
  (if s.scheme = c then s.table.vals else ∅) ∪
    ((s.encodeList c b).flatMap fun i => (Function.update s.data b d i).keys c).toFinset

theorem encodeAll_error {o : Order} {c : Scheme} {bs : List BlockId} {s : BlockData n} {f : Fault}
    (h : encodeAll o c bs s = .error f) : f = .dictionaryFull := by
  induction bs generalizing s with
  | nil => simp [encodeAll] at h
  | cons b bs ih =>
    cases he : s.encode o c b with
    | ok u => exact ih (by simpa [encodeAll, he, bind, Except.bind] using h)
    | error f' =>
      simp only [encodeAll, he, bind, Except.bind, Except.error.injEq] at h
      subst h
      simp only [encode] at he
      split at he <;> simp_all

/-- A compression whose check accepted completes exactly when the needed values fit, and
otherwise stops at the full dictionary. -/
theorem compressAs_completes {o : Order} {c : Scheme} {s : BlockData n} {b : BlockId} {a : Slice n}
    {wr : Ptr} {k : CompressionCntlr} (inv : s.Inv) (hc : c ≠ .invalid)
    (hunc : s.scheme = .uncompressed → a.offset = 0 ∧ a.bytes = n)
    (hfits : s.isSchemeCompressible c b a wr k = .ok true) :
    ((∃ r, compressAs o c (s.isSchemeCompressible c b a wr k) s b a wr k = .ok r) ↔
      (s.neededKeys c b (copyN wr a.bytes a.offset (s.data b))).card ≤ c.dictSize) ∧
    ∀ f, compressAs o c (s.isSchemeCompressible c b a wr k) s b a wr k = .error f →
      f = .dictionaryFull := by
  obtain ⟨hv, hlegal⟩ := isSchemeCompressible_true hfits
  obtain ⟨k', -, heq⟩ := compressAs_eq o c wr k hv hlegal hunc hfits inv.scheme_ne
  have hwf := recoded_table_wf inv hc b (copyN wr a.bytes a.offset (s.data b))
  have hok := encodeAll_isOk o c (s.encodeList c b) hwf
  rw [recoded_vals inv hc] at hok
  rw [heq]
  cases he : encodeAll o c (s.encodeList c b)
      (s.recoded c b (copyN wr a.bytes a.offset (s.data b))) with
  | ok u =>
    rw [he] at hok
    refine ⟨?_, by simp [Except.map]⟩
    simpa [Except.map, neededKeys] using hok
  | error f =>
    rw [he] at hok
    refine ⟨?_, ?_⟩
    · simpa [Except.map, neededKeys] using hok
    · intro f' hf'
      simp only [Except.map, Except.error.injEq] at hf'
      exact hf' ▸ encodeAll_error he

theorem keys_scheme1 (d : Line n) : d.keys .scheme1 = d.chunks := by
  simp [Line.keys, Scheme.key]

theorem keys_scheme2 (d : Line n) : d.keys .scheme2 = d.chunks.map upper := rfl

theorem neededKeys_keep {s : BlockData n} {c : Scheme} (h : s.scheme = c) (b : BlockId)
    (d : Line n) : s.neededKeys c b d = s.table.vals ∪ (d.keys c).toFinset := by
  simp [neededKeys, encodeList, h]

theorem neededKeys_change {s : BlockData n} {c : Scheme} (h : s.scheme ≠ c)
    (hs : s.scheme ≠ .uncompressed) (b : BlockId) (d : Line n) :
    s.neededKeys c b d = s.validKeys c (Function.update s.data b d) := by
  simp [neededKeys, encodeList, h, hs, validKeys]

theorem neededKeys_uncompressed {s : BlockData n} {c : Scheme} (hc : c ≠ .uncompressed)
    (hs : s.scheme = .uncompressed) (hv : s.isValid = true) (b : BlockId) (d : Line n) :
    s.neededKeys c b d = ((s.uncompressedChunks b).map c.key ++ d.keys c).toFinset := by
  obtain ⟨u, hu⟩ := getFirstValid_isSome hv
  have hne : Scheme.uncompressed ≠ c := fun h => hc h.symm
  by_cases hub : u = b
  · simp [neededKeys, encodeList, hs, hne, hu, hub, uncompressedChunks]
  · simp [neededKeys, encodeList, hs, hne, hu, hub, uncompressedChunks, Line.keys]

theorem validKeys_update {s : BlockData n} {c : Scheme} {b : BlockId} (hb : s.valid b = false)
    (d : Line n) : s.validKeys c (Function.update s.data b d) = s.validKeys c s.data := by
  have hmap : ∀ i ∈ (List.finRange superblockSize).filter s.valid,
      (Function.update s.data b d i).keys c = (s.data i).keys c := by
    intro i hi
    have hne : i ≠ b := by
      rintro rfl
      simp [hb] at hi
    rw [Function.update_of_ne hne]
  simp only [validKeys, List.flatMap_congr hmap]

/-- The blocks a change from SCHEME1 to SCHEME2 re-encodes are among those its check counted. -/
theorem validKeys_checked {s : BlockData n} {b : BlockId} (hb : s.valid b = false) (vs : List Word) :
    s.validKeys .scheme2 s.data ⊆
      (((s.otherBlocks b).flatMap fun i => (s.data i).chunks.map upper) ++ vs).toFinset := by
  have hother : s.otherBlocks b = (List.finRange superblockSize).filter s.valid := by
    apply List.filter_congr
    intro i _
    cases hi : s.valid i with
    | false => rfl
    | true =>
      have hne : i ≠ b := by
        rintro rfl
        simp [hb] at hi
      simp [hne]
  rw [hother, List.toFinset_append]
  exact Finset.subset_union_left

/-- The one insertion the checks misjudge: a change from SCHEME2 to SCHEME1, which re-encodes
the blocks already valid but counted only one chunk of each. -/
def InsertFits (s : BlockData n) (b : BlockId) (ins : Ptr) (k : CompressionCntlr) : Prop :=
  s.scheme = .scheme2 → s.isScheme2Compressible b .full ins k = .ok false →
    (s.validKeys .scheme1 s.data).card ≤ scheme1DictSize

/-- The writes the checks misjudge: the check merges the slice at its offset, the compression
merges the start of the buffer. -/
def WriteFits (s : BlockData n) (b : BlockId) (a : Slice n) (wr : Ptr) (k : CompressionCntlr) :
    Prop :=
  let merged := copyN wr a.bytes a.offset (s.data b)
  match s.scheme with
  | .scheme1 =>
    (s.isScheme1Compressible b a wr k = .ok true →
      (s.table.vals ∪ merged.chunks.toFinset).card ≤ scheme1DictSize) ∧
    (s.isScheme1Compressible b a wr k = .ok false →
      (s.validKeys .scheme2 (Function.update s.data b merged)).card ≤ scheme2DictSize)
  | .scheme2 =>
    s.isScheme2Compressible b a wr k = .ok false →
      (s.validKeys .scheme1 (Function.update s.data b merged)).card ≤ scheme1DictSize
  | _ => True

theorem insert_room_iff {s : BlockData n} {b : BlockId} {ins : Ptr} {k : CompressionCntlr}
    {c : Scheme} (inv : s.Inv) (h : s.getSchemeForInsertion b ins k = .ok c) (hc : c ≠ .invalid)
    (hv : s.isValid = true) :
    (s.neededKeys c b (Line.ofPtr ins)).card ≤ c.dictSize ↔ s.InsertFits b ins k := by
  have hfull : ∀ p : Ptr, copyN (p.add (Slice.full : Slice n).offset) (Slice.full : Slice n).bytes
      (Slice.full : Slice n).offset (s.data b) = Line.ofPtr p := by
    intro p
    have hadd : p.add 0 = p := by
      funext j
      simp [Ptr.add]
    simp only [Slice.full, hadd]
    exact copyN_full p (s.data b)
  have hfull' : copyN ins (Slice.full : Slice n).bytes (Slice.full : Slice n).offset (s.data b) =
      Line.ofPtr ins := copyN_full ins (s.data b)
  rcases getSchemeForInsertion_cases h hc with ⟨hempty, -⟩ | ⟨-, hb, hu, hfit⟩
  · simp [hv] at hempty
  by_cases hs : s.scheme = .uncompressed
  · have hfits : s.InsertFits b ins k := fun h2 => by simp [hs] at h2
    simp only [hfits, iff_true]
    rw [neededKeys_uncompressed hu hs hv]
    cases c with
    | invalid => exact absurd rfl hc
    | uncompressed => exact absurd rfl hu
    | scheme1 =>
      have hch := (isScheme1Compressible_true hfit).2.2
      simp only [Checked1, hs] at hch
      simpa [keys_scheme1, chunks_ofPtr_chunk, Scheme.key, Scheme.dictSize] using hch
    | scheme2 =>
      have hch := (isScheme2Compressible_true hfit).2.2
      simp only [Checked2, hs] at hch
      simpa [keys_scheme2, chunks_ofPtr_chunk, Scheme.key, Scheme.dictSize, Slice.full,
        chunksPerBlock] using hch
  · rcases getSchemeForInsertion_keeps h hc hv hs with ⟨rfl, hfit⟩ | ⟨hne, hno, hfit⟩
    · have hfits : s.InsertFits b ins k := by
        intro h2 hno
        simp [h2, isSchemeCompressible, hno] at hfit
      simp only [hfits, iff_true]
      rw [neededKeys_keep rfl]
      have hwf := inv.table_wf
      cases hsch : s.scheme with
      | invalid => exact absurd hsch hc
      | uncompressed => exact absurd hsch hs
      | scheme1 =>
        rw [hsch] at hfit hwf
        have hch := (isScheme1Compressible_true hfit).2.2
        simp only [Checked1, hsch, hfull] at hch
        rw [keys_scheme1]
        exact fitsVacancies_room hwf hch
      | scheme2 =>
        rw [hsch] at hfit hwf
        have hch := (isScheme2Compressible_true hfit).2.2
        simp only [Checked2, hsch, hfull'] at hch
        rw [keys_scheme2]
        exact fitsVacancies_room hwf hch
    · rw [neededKeys_change (fun h => hne h.symm) hs, validKeys_update hb]
      cases hsch : s.scheme with
      | invalid => exact absurd hsch inv.scheme_ne
      | uncompressed => exact absurd hsch hs
      | scheme1 =>
        have hfits : s.InsertFits b ins k := fun h2 => by simp [hsch] at h2
        simp only [hfits, iff_true]
        cases c with
        | invalid => exact absurd rfl hc
        | uncompressed => exact absurd rfl hu
        | scheme1 => exact absurd hsch.symm hne
        | scheme2 =>
          have hch := (isScheme2Compressible_true hfit).2.2
          simp only [Checked2, hsch] at hch
          exact (Finset.card_le_card (validKeys_checked hb _)).trans hch
      | scheme2 =>
        rw [hsch] at hno
        cases c with
        | invalid => exact absurd rfl hc
        | uncompressed => exact absurd rfl hu
        | scheme2 => exact absurd hsch.symm hne
        | scheme1 => exact ⟨fun hle _ _ => hle, fun hfits => hfits hsch hno⟩

theorem write_room_iff {s : BlockData n} {b : BlockId} {a : Slice n} {wr : Ptr}
    {k : CompressionCntlr} {c : Scheme} (inv : s.Inv) (h : s.getSchemeForWrite b a wr k = .ok c)
    (hc : c ≠ .invalid) (hs : s.scheme ≠ .uncompressed) :
    (s.neededKeys c b (copyN wr a.bytes a.offset (s.data b))).card ≤ c.dictSize ↔
      s.WriteFits b a wr k := by
  have hu : c ≠ .uncompressed := by
    rcases getSchemeForWrite_cases h hc with ⟨-, ⟨hs', -⟩ | ⟨-, hu, -⟩⟩
    · exact absurd hs' hs
    · exact hu
  rcases getSchemeForWrite_keeps h hc hs with ⟨rfl, hfit⟩ | ⟨hne, hno, -⟩
  · rw [neededKeys_keep rfl]
    have hwf := inv.table_wf
    cases hsch : s.scheme with
    | invalid => exact absurd hsch hc
    | uncompressed => exact absurd hsch hs
    | scheme1 =>
      rw [hsch] at hfit
      have hfit1 : s.isScheme1Compressible b a wr k = .ok true := hfit
      simp only [WriteFits, hsch, keys_scheme1, hfit1, Scheme.dictSize]
      simp
    | scheme2 =>
      rw [hsch] at hfit hwf
      have hfit2 : s.isScheme2Compressible b a wr k = .ok true := hfit
      have hch := (isScheme2Compressible_true hfit2).2.2
      simp only [Checked2, hsch] at hch
      have hroom := fitsVacancies_room hwf hch
      simp only [WriteFits, hsch, hfit2, keys_scheme2]
      simpa using hroom
  · rw [neededKeys_change (fun h => hne h.symm) hs]
    cases hsch : s.scheme with
    | invalid => exact absurd hsch inv.scheme_ne
    | uncompressed => exact absurd hsch hs
    | scheme1 =>
      rw [hsch] at hno hne
      have hno1 : s.isScheme1Compressible b a wr k = .ok false := hno
      cases c with
      | invalid => exact absurd rfl hc
      | uncompressed => exact absurd rfl hu
      | scheme1 => exact absurd rfl hne
      | scheme2 => simp [WriteFits, hsch, hno1, Scheme.dictSize]
    | scheme2 =>
      rw [hsch] at hno hne
      have hno2 : s.isScheme2Compressible b a wr k = .ok false := hno
      cases c with
      | invalid => exact absurd rfl hc
      | uncompressed => exact absurd rfl hu
      | scheme2 => exact absurd rfl hne
      | scheme1 => simp [WriteFits, hsch, hno2, Scheme.dictSize]

/-- A call that either completes, exactly under `fits`, or finds the dictionary full. -/
def CompletesIff {α : Type} (x : Outcome α) (fits : Prop) : Prop :=
  ((∃ r, x = .ok r) ↔ fits) ∧ (¬ fits → x = .error .dictionaryFull)

theorem completesIff_of_ok {α : Type} {x : Outcome α} {fits : Prop} (h : ∃ r, x = .ok r)
    (hfits : fits) : CompletesIff x fits :=
  ⟨⟨fun _ => hfits, fun _ => h⟩, fun hn => absurd hfits hn⟩

/-- Completion of a store carries over to the call, since compaction never fails after it. -/
theorem completesIff_store {o : Order} {c : Scheme} {s : BlockData n} {b : BlockId} {a : Slice n}
    {wr : Ptr} {k : CompressionCntlr} (inv : s.Inv) (hu : c ≠ .uncompressed) (hc : c ≠ .invalid)
    (hunc : s.scheme = .uncompressed → a.offset = 0 ∧ a.bytes = n)
    (hfits : s.isSchemeCompressible c b a wr k = .ok true) {fits : Prop}
    (hroom : (s.neededKeys c b (copyN wr a.bytes a.offset (s.data b))).card ≤ c.dictSize ↔ fits)
    (mark : BlockData n → BlockData n) (hmark : ∀ u : BlockData n, (mark u).scheme = u.scheme) :
    CompletesIff (do
      let r ← compressAs o c (s.isSchemeCompressible c b a wr k) s b a wr k
      let u ← compactIfPruning r.2 (mark r.1)
      return (u, r.2)) fits := by
  obtain ⟨hiff, herr⟩ := compressAs_completes (o := o) inv hc hunc hfits
  cases hx : compressAs o c (s.isSchemeCompressible c b a wr k) s b a wr k with
  | error f =>
    have hn : ¬ fits := by
      rw [← hroom, ← hiff, hx]
      simp
    have hf := herr f hx
    subst hf
    exact ⟨by simp [bind, Except.bind, hn], fun _ => rfl⟩
  | ok r =>
    obtain ⟨u, k'⟩ := r
    have hyes : fits := hroom.1 (hiff.1 ⟨_, hx⟩)
    obtain ⟨-, hst⟩ := compress_stores inv hu hc hx
    obtain ⟨hsch, -⟩ := hst.spec inv
    have hne : (mark u).scheme ≠ .invalid := by
      rw [hmark, hsch]
      exact hc
    obtain ⟨v, hv⟩ := compactIfPruning_isOk (k := k') hne
    exact completesIff_of_ok ⟨(v, k'), by simp [bind, Except.bind, hv, pure, Except.pure]⟩ hyes

theorem insertBlockData_completes {s : BlockData n} (inv : s.Inv) (o : Order) {b : BlockId}
    {ins : Option Ptr} {k : CompressionCntlr} (h : s.canInsertBlockData b ins k = .ok true) :
    CompletesIff (s.insertBlockData o b ins k) (∀ p, ins = some p → s.InsertFits b p k) := by
  cases hv : s.valid b with
  | true => simp [canInsertBlockData, hv] at h
  | false =>
    cases ins with
    | none =>
      obtain ⟨u, hu⟩ := compactIfPruning_isOk (k := k) (s := s.setValid b true) inv.scheme_ne
      refine completesIff_of_ok ⟨(u, k), ?_⟩ (by simp)
      simp [insertBlockData, hv, check, bind, Except.bind, hu, pure, Except.pure]
    | some p =>
      simp only [canInsertBlockData, hv, Bool.false_eq_true, if_false, except_bind_eq_ok, pure_eq_ok] at h
      obtain ⟨c, hget, hc⟩ := h
      have hc' : c ≠ .invalid := by simpa using hc
      have heq : s.insertBlockData o b (some p) k = (do
          let r ← storeInserted o s b p k c
          let u ← compactIfPruning r.2 (r.1.setValid b true)
          return (u, r.2)) := by
        simp [insertBlockData, hv, check, hget, bind, Except.bind]
      rw [heq]
      simp only [Option.some.injEq, forall_eq']
      rcases getSchemeForInsertion_cases hget hc' with ⟨hempty, rfl⟩ | ⟨hvalid, -, hu, hfit⟩
      · have hs := inv.empty_uncompressed hempty
        have hne : ((s.setData b (copyN p n 0 (s.data b))).setValid b true).scheme ≠ .invalid := by
          simp [hs]
        obtain ⟨v, hv'⟩ := compactIfPruning_isOk (k := k) hne
        refine completesIff_of_ok ⟨(v, k), ?_⟩ (fun h2 => by simp [hs] at h2)
        simp [storeInserted, bind, Except.bind, hv', pure, Except.pure]
      · have hroom := insert_room_iff inv hget hc' hvalid
        rw [← copyN_full p (s.data b)] at hroom
        have hstore : storeInserted o s b p k c =
            compressAs o c (s.isSchemeCompressible c b .full p k) s b .full p k := by
          cases c with
          | invalid => exact absurd rfl hc'
          | uncompressed => exact absurd rfl hu
          | scheme1 => rfl
          | scheme2 => rfl
        rw [hstore]
        exact completesIff_store inv hu hc' (fun _ => ⟨rfl, rfl⟩) hfit hroom
          (fun u => u.setValid b true) (fun _ => rfl)

theorem writeBlockData_completes {s : BlockData n} (inv : s.Inv) (o : Order) {b : BlockId}
    {a : Slice n} {wr : Option Ptr} {k : CompressionCntlr}
    (h : s.canWriteBlockData b a wr k = .ok true) :
    CompletesIff (s.writeBlockData o b a wr k) (∀ p, wr = some p → s.WriteFits b a p k) := by
  have hv := canWriteBlockData_valid h
  simp only [canWriteBlockData, except_bind_eq_ok, check_ok, hv, Bool.not_true, Bool.false_eq_true,
    if_false] at h
  obtain ⟨-, hnull, h⟩ := h
  cases wr with
  | none =>
    have hbytes : a.bytes = 0 := by
      simp only [Option.isNone_none, Bool.true_and, Option.isSome_none, Bool.or_false,
        Bool.and_eq_true, beq_iff_eq] at hnull
      exact hnull.2
    obtain ⟨u, hu⟩ := compactIfPruning_isOk (k := k) inv.scheme_ne
    refine completesIff_of_ok ⟨(u, k), ?_⟩ (by simp)
    simp [writeBlockData, hbytes, check, bind, Except.bind, hu, pure, Except.pure]
  | some p =>
    simp only [except_bind_eq_ok, pure_eq_ok] at h
    obtain ⟨c, hget, hc⟩ := h
    have hc' : c ≠ .invalid := by simpa using hc
    have heq : s.writeBlockData o b a (some p) k = (do
        let r ← storeWritten o s b a p k c
        let u ← compactIfPruning r.2 r.1
        return (u, r.2)) := by
      simp [writeBlockData, check, hget, bind, Except.bind]
    rw [heq]
    simp only [Option.some.injEq, forall_eq']
    rcases getSchemeForWrite_cases hget hc' with ⟨-, ⟨hs, rfl⟩ | ⟨hs, hu, hfit⟩⟩
    · obtain ⟨v, hv'⟩ := compactIfPruning_isOk (k := k)
        (s := s.setData b (copyN (p.add a.offset) a.bytes a.offset (s.data b))) inv.scheme_ne
      refine completesIff_of_ok ⟨(v, k), ?_⟩ (by simp [WriteFits, hs])
      simp [storeWritten, bind, Except.bind, hv', pure, Except.pure]
    · have hstore : storeWritten o s b a p k c =
          compressAs o c (s.isSchemeCompressible c b a p k) s b a p k := by
        cases c with
        | invalid => exact absurd rfl hc'
        | uncompressed => exact absurd rfl hu
        | scheme1 => rfl
        | scheme2 => rfl
      rw [hstore]
      exact completesIff_store inv hu hc' (fun h => absurd h hs) hfit
        (write_room_iff inv hget hc' hs) (fun u => u) (fun _ => rfl)

/-- In every reachable state the dictionary is within its scheme's size, and an accepted
insertion or write completes exactly when it fits; otherwise it dies on a full dictionary. -/
theorem admission_sound_iff {s : BlockData n} (h : Reachable (machine n) s) :
    s.table.dict.length ≤ s.scheme.dictSize ∧
      (∀ o b ins k, s.canInsertBlockData b ins k = .ok true →
        CompletesIff (s.insertBlockData o b ins k) (∀ p, ins = some p → s.InsertFits b p k)) ∧
      ∀ o b a wr k, s.canWriteBlockData b a wr k = .ok true →
        CompletesIff (s.writeBlockData o b a wr k) (∀ p, wr = some p → s.WriteFits b a p k) := by
  have inv := reachable_inv h
  refine ⟨?_, fun o b ins k hcan => insertBlockData_completes inv o hcan,
    fun o b a wr k hcan => writeBlockData_completes inv o hcan⟩
  rw [inv.table_wf.dict_length]
  exact inv.table_wf.vals_card_le

/-- A third blank line joins the two of the sample run. -/
theorem admission_sound_iff_sample : ∃ s : BlockData 64, Reachable (machine 64) s ∧
    s.canInsertBlockData 2 (some fun _ => 0) (sampleCntlr false false) = .ok true ∧
    ∃ r, s.insertBlockData .greatest 2 (some fun _ => 0) (sampleCntlr false false) = .ok r := by
  have heval : Outcome.test (fresh.performAll twoBlankLines) (fun s =>
      s.scheme == .scheme1 &&
      Outcome.test (s.canInsertBlockData 2 (some fun _ => 0) (sampleCntlr false false)) id) =
      true := by
    rfl
  obtain ⟨s, hs, heval⟩ := Outcome.test_eq_true heval
  simp only [Bool.and_eq_true, beq_iff_eq] at heval
  have hreach := performAll_reachable hs
  have hcan := Outcome.test_id heval.2
  refine ⟨s, hreach, hcan, ?_⟩
  refine ((admission_sound_iff hreach).2.1 .greatest 2 _ _ hcan).1.2 ?_
  intro p _ h2
  simp [heval.1] at h2

/-- The line whose chunk `i` is `f i`, for chunks below 256. -/
def chunkPtr (f : Nat → Byte) : Ptr := fun j => if j % 4 = 0 then f (j / 4) else 0

open scoped Lib.Literals in
/-- A block of sixteen chunks with one upper part, and a blank block: SCHEME2. -/
def sixteenChunks : List (Call 64) :=
  [⟨.insert 0 (some (chunkPtr fun i => .ofNat 8 i)), sampleCntlr true false, .greatest⟩,
   ⟨.insert 1 (some fun _ => 0), sampleCntlr true false, .greatest⟩]

/-- Four new upper parts, too many for SCHEME2, and few enough chunks for SCHEME1. -/
def fourUppers : Ptr := chunkPtr fun i => if i < 4 then .ofNat 8 (16 * (i + 1)) else 0

/-- Eight new chunks in the first half of the buffer, zeros in the second. -/
def eightChunks : Ptr := chunkPtr fun i => if i < 8 then .ofNat 8 (i + 1) else 0

/-- Both checks accept a call that dies on a full dictionary: an insertion that changes
SCHEME2 to SCHEME1, and a write of the second half of a block in SCHEME1. -/
theorem accepted_call_fails :
    (∃ s : BlockData 64, Reachable (machine 64) s ∧
      s.canInsertBlockData 2 (some fourUppers) (sampleCntlr true false) = .ok true ∧
      s.insertBlockData .greatest 2 (some fourUppers) (sampleCntlr true false) =
        .error .dictionaryFull) ∧
    ∃ s : BlockData 64, Reachable (machine 64) s ∧
      s.canWriteBlockData 0 ⟨32, 32, by decide⟩ (some eightChunks) (sampleCntlr false false) =
        .ok true ∧
      s.writeBlockData .greatest 0 ⟨32, 32, by decide⟩ (some eightChunks) (sampleCntlr false false) =
        .error .dictionaryFull := by
  constructor
  · have heval : Outcome.test (fresh.performAll sixteenChunks) (fun s =>
        Outcome.test (s.canInsertBlockData 2 (some fourUppers) (sampleCntlr true false)) id &&
        Outcome.failsWith (s.insertBlockData .greatest 2 (some fourUppers) (sampleCntlr true false))
          .dictionaryFull) = true := by
      rfl
    obtain ⟨s, hs, heval⟩ := Outcome.test_eq_true heval
    rw [Bool.and_eq_true] at heval
    exact ⟨s, performAll_reachable hs, Outcome.test_id heval.1, Outcome.failsWith_eq_true heval.2⟩
  · have heval : Outcome.test (fresh.performAll twoBlankLines) (fun s =>
        Outcome.test (s.canWriteBlockData 0 ⟨32, 32, by decide⟩ (some eightChunks)
          (sampleCntlr false false)) id &&
        Outcome.failsWith (s.writeBlockData .greatest 0 ⟨32, 32, by decide⟩ (some eightChunks)
          (sampleCntlr false false)) .dictionaryFull) = true := by
      rfl
    obtain ⟨s, hs, heval⟩ := Outcome.test_eq_true heval
    rw [Bool.and_eq_true] at heval
    exact ⟨s, performAll_reachable hs, Outcome.test_id heval.1, Outcome.failsWith_eq_true heval.2⟩

end BlockData

end Sniper.Cache
