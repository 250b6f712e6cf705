import Sniper.Cache.Pruning
set_option autoImplicit false

/-! What the compressibility checks count, and what they should count. -/

namespace Sniper.Cache
open Sniper.Lib Dish

variable {n : Nat}

namespace BlockData

/-- The block after a write as the caller means it: the slice at its own place in the buffer. -/
def merged (s : BlockData n) (b : BlockId) (a : Slice n) (wr : Ptr) : Line n :=
  copyN (wr.add a.offset) a.bytes a.offset (s.data b)

/-- The block after a write as a compression stores it: from the start of the buffer. -/
def stored (s : BlockData n) (b : BlockId) (a : Slice n) (wr : Ptr) : Line n :=
  copyN wr a.bytes a.offset (s.data b)

/-- A slice at the start of the block is the same either way. -/
theorem stored_eq_merged (s : BlockData n) (b : BlockId) {a : Slice n} (h : a.offset = 0)
    (wr : Ptr) : s.stored b a wr = s.merged b a wr := by
  have hadd : wr.add a.offset = wr := by
    funext j
    rw [Ptr.add, h, Nat.zero_add]
  rw [stored, merged, hadd]

/-! ### Checks that keep the scheme -/

/-- The chunks of a block with a value that the dictionary does not hold. -/
def newOccurrences (t : PtrTable Word) (vs : List Word) : List Word :=
  vs.filter fun v => v ∉ t.vals

/-- The values that the dictionary does not hold. -/
def newValues (t : PtrTable Word) (vs : List Word) : Finset Word := vs.toFinset \ t.vals

theorem newValues_eq (t : PtrTable Word) (vs : List Word) :
    newValues t vs = (newOccurrences t vs).toFinset := by
  ext v
  simp [newValues, newOccurrences]

theorem newValues_card_le (t : PtrTable Word) (vs : List Word) :
    (newValues t vs).card ≤ (newOccurrences t vs).length := by
  rw [newValues_eq]
  exact List.toFinset_card_le _

/-- The walk counts a new value each time it meets it. -/
theorem fitsVacancies_iff {t : PtrTable Word} {vs : List Word} {vacancies : Nat} :
    fitsVacancies t vs vacancies = true ↔ (newOccurrences t vs).length ≤ vacancies := by
  induction vs generalizing vacancies with
  | nil => simp [fitsVacancies, newOccurrences]
  | cons v vs ih =>
    by_cases hv : v ∈ t.vals
    · have hskip : newOccurrences t (v :: vs) = newOccurrences t vs := by
        simp [newOccurrences, hv]
      rw [hskip, ← ih]
      simp [fitsVacancies, PtrTable.lookup_isSome, hv]
    · have hcount : newOccurrences t (v :: vs) = v :: newOccurrences t vs := by
        simp [newOccurrences, hv]
      rw [hcount, List.length_cons]
      cases vacancies with
      | zero => simp [fitsVacancies, PtrTable.lookup_isSome, hv]
      | succ vacancies =>
        rw [Nat.succ_le_succ_iff, ← ih]
        simp [fitsVacancies, PtrTable.lookup_isSome, hv]

/-- The block that the check of a superblock in scheme `c` looks at. -/
def checked (s : BlockData n) (c : Scheme) (b : BlockId) (a : Slice n) (wr : Ptr) : Line n :=
  match c with
  | .scheme2 => s.stored b a wr
  | _ => s.merged b a wr

theorem isSchemeCompressible_keep {s : BlockData n} (inv : s.Inv) (hs : s.scheme ≠ .uncompressed)
    {b : BlockId} {a : Slice n} (hlegal : s.legalSlice b a = true) (wr : Ptr)
    {k : CompressionCntlr} (hk : k.canCompress = true) :
    s.isSchemeCompressible s.scheme b a wr k = .ok true ↔
      (newOccurrences s.table ((s.checked s.scheme b a wr).keys s.scheme)).length ≤
        s.table.free.card := by
  have hv : s.isValid = true := by
    by_contra hv
    exact hs (inv.empty_uncompressed (eq_false_of_ne_true hv))
  rw [← fitsVacancies_iff]
  cases hsch : s.scheme with
  | invalid => exact absurd hsch inv.scheme_ne
  | uncompressed => exact absurd hsch hs
  | scheme1 =>
    simp [isSchemeCompressible, isScheme1Compressible, hv, hk, hlegal, hsch, check, checked, merged,
      testData_eq, keys_scheme1, bind, Except.bind, pure, Except.pure]
  | scheme2 =>
    simp [isSchemeCompressible, isScheme2Compressible, hv, hk, hlegal, hsch, check, checked, stored,
      testData_eq, keys_scheme2, bind, Except.bind, pure, Except.pure]

/-- The encoding loop finds a pointer for every chunk when the new values fit the free ones. -/
theorem encode_newValues {s : BlockData n} (inv : s.Inv) (o : Order) (b : BlockId) (d : Line n) :
    (∃ u, (s.setData b d).encode o s.scheme b = .ok u) ↔
      (newValues s.table (d.keys s.scheme)).card ≤ s.table.free.card := by
  have wf : (s.setData b d).table.Wf s.scheme.dictSize := inv.table_wf
  have hcard := inv.table_wf.card
  have hself : (s.setData b d).data b = d := by simp
  rw [encode_isOk wf, setData_table, hself, ← Finset.union_sdiff_self_eq_union,
    Finset.card_union_of_disjoint Finset.disjoint_sdiff]
  change s.table.vals.card + (newValues s.table (d.keys s.scheme)).card ≤ _ ↔ _
  omega

/-- The check of a superblock's own scheme counts no value twice at the limit, and the slice makes
no difference where it is taken from. -/
def CountsNewValues (s : BlockData n) (b : BlockId) (a : Slice n) (wr : Ptr) : Prop :=
  let demand := fun d : Line n => (newValues s.table (d.keys s.scheme)).card
  ((newOccurrences s.table ((s.checked s.scheme b a wr).keys s.scheme)).length ≤
      s.table.free.card ∨ s.table.free.card < demand (s.checked s.scheme b a wr)) ∧
    (demand (s.merged b a wr) ≤ s.table.free.card ↔ demand (s.stored b a wr) ≤ s.table.free.card)

/-- The check of a compressed superblock's own scheme answers that the merged block's new values
fit the free pointers, and that the compression will find a pointer for each chunk, exactly when
it counts right. -/
theorem same_scheme_exact_iff {s : BlockData n} (h : Reachable (machine n) s)
    (hs : s.scheme ≠ .uncompressed) {b : BlockId} {a : Slice n} (hlegal : s.legalSlice b a = true)
    (wr : Ptr) {k : CompressionCntlr} (hk : k.canCompress = true) (o : Order) :
    ((s.isSchemeCompressible s.scheme b a wr k = .ok true ↔
        (newValues s.table ((s.merged b a wr).keys s.scheme)).card ≤ s.table.free.card) ∧
      (s.isSchemeCompressible s.scheme b a wr k = .ok true ↔
        ∃ u, (s.setData b (s.stored b a wr)).encode o s.scheme b = .ok u)) ↔
      s.CountsNewValues b a wr := by
  have inv := reachable_inv h
  have hle := newValues_card_le s.table ((s.checked s.scheme b a wr).keys s.scheme)
  have hwhich : s.checked s.scheme b a wr = s.merged b a wr ∨
      s.checked s.scheme b a wr = s.stored b a wr := by
    cases s.scheme with
    | scheme2 => exact .inr rfl
    | invalid | uncompressed | scheme1 => exact .inl rfl
  rw [isSchemeCompressible_keep inv hs hlegal wr hk, encode_newValues inv, CountsNewValues]
  rcases hwhich with hwhich | hwhich
  · rw [hwhich] at hle ⊢
    dsimp only
    omega
  · rw [hwhich] at hle ⊢
    dsimp only
    omega

/-- An insertion of a line with one new value, once, into a SCHEME1 superblock of blank lines. -/
def oneFive : Ptr := chunkPtr fun i => if i = 0 then 5 else 0

theorem same_scheme_exact_iff_oneFive : ∃ s : BlockData 64, s.scheme = .scheme1 ∧
    s.isScheme1Compressible 2 .full oneFive (sampleCntlr false false) = .ok true ∧
    ∃ u, (s.setData 2 (s.stored 2 .full oneFive)).encode .greatest s.scheme 2 = .ok u := by
  have heval : Outcome.test (fresh.performAll twoBlankLines) (fun s =>
      s.scheme == .scheme1 && s.legalSlice 2 .full &&
      decide ((newOccurrences s.table ((s.merged 2 .full oneFive).keys .scheme1)).length ≤
        s.table.free.card) &&
      decide ((newValues s.table ((s.merged 2 .full oneFive).keys .scheme1)).card ≤
        s.table.free.card) &&
      decide ((newValues s.table ((s.stored 2 .full oneFive).keys .scheme1)).card ≤
        s.table.free.card) &&
      Outcome.test (s.isScheme1Compressible 2 .full oneFive (sampleCntlr false false)) id) = true := by
    rfl
  obtain ⟨s, hs, heval⟩ := Outcome.test_eq_true heval
  simp only [Bool.and_eq_true, beq_iff_eq, decide_eq_true_eq] at heval
  obtain ⟨⟨⟨⟨⟨hscheme, hlegal⟩, hocc⟩, hmerged⟩, hstored⟩, hcheck⟩ := heval
  have hcounts : s.CountsNewValues 2 .full oneFive := by
    simp only [CountsNewValues, hscheme]
    exact ⟨.inl hocc, ⟨fun _ => hstored, fun _ => hmerged⟩⟩
  have hexact := (same_scheme_exact_iff (performAll_reachable hs) (by rw [hscheme]; decide) hlegal
    oneFive (k := sampleCntlr false false) rfl .greatest).mpr hcounts
  have hfits := Outcome.test_id hcheck
  exact ⟨s, hscheme, hfits, hexact.2.mp (by rw [hscheme]; exact hfits)⟩

/-- A new value in all sixteen chunks is refused, although it needs one pointer and seven are
free. -/
theorem repeated_value_refused :
    ¬∀ (s : BlockData 64), Reachable (machine 64) s → s.scheme = .scheme1 → ∀ wr : Ptr,
      (s.isScheme1Compressible 2 .full wr (sampleCntlr false false) = .ok true ↔
        (newValues s.table ((s.merged 2 .full wr).keys .scheme1)).card ≤ s.table.free.card) := by
  intro hall
  have heval : Outcome.test (fresh.performAll twoBlankLines) (fun s =>
      s.scheme == .scheme1 &&
      Outcome.test (s.isScheme1Compressible 2 .full (chunkPtr fun _ => 5) (sampleCntlr false false))
        (! ·) &&
      decide ((newValues s.table ((s.merged 2 .full (chunkPtr fun _ => 5)).keys .scheme1)).card ≤
        s.table.free.card)) = true := by
    rfl
  obtain ⟨s, hs, heval⟩ := Outcome.test_eq_true heval
  simp only [Bool.and_eq_true, beq_iff_eq, decide_eq_true_eq] at heval
  obtain ⟨⟨hscheme, hcheck⟩, hroom⟩ := heval
  obtain ⟨r, hr, hfalse⟩ := Outcome.test_eq_true hcheck
  have htrue := (hall s (performAll_reachable hs) hscheme _).mpr hroom
  rw [hr] at htrue
  obtain rfl := Except.ok.inj htrue
  cases hfalse

/-! ### Checks that change the scheme -/

/-- The values needed under scheme `c` by the other valid blocks and the block after the write. -/
def demand (s : BlockData n) (c : Scheme) (b : BlockId) (a : Slice n) (wr : Ptr) : Finset Word :=
  (((s.otherBlocks b).flatMap fun i => (s.data i).keys c) ++ (s.merged b a wr).keys c).toFinset

/-- What the check of SCHEME1 counts in SCHEME2: of each other block the chunk at the block's own
number. -/
def sampled (s : BlockData n) (b : BlockId) (a : Slice n) (wr : Ptr) : Finset Word :=
  (((s.otherBlocks b).flatMap fun i =>
    (List.range (chunksPerBlock n)).map fun _ => (s.data i).chunk i) ++
      (s.merged b a wr).chunks).toFinset

/-- What the checks count in an uncompressed superblock: the first valid block, and so many chunks
from the start of the buffer. -/
def buffered (s : BlockData n) (c : Scheme) (b : BlockId) (chunks : Nat) (wr : Ptr) : Finset Word :=
  ((s.uncompressedChunks b).map c.key ++ ((List.range chunks).map wr.chunk).map c.key).toFinset

/-- What the checks of the other schemes count is over the limit when what they should count is. -/
def CountsConversions (s : BlockData n) (b : BlockId) (a : Slice n) (wr : Ptr)
    (k : CompressionCntlr) : Prop :=
  match s.scheme with
  | .scheme2 => k.canChangeSchemeOTF = true →
      ((s.sampled b a wr).card ≤ scheme1DictSize ↔
        (s.demand .scheme1 b a wr).card ≤ scheme1DictSize)
  | .uncompressed =>
    ((s.buffered .scheme1 b (chunksPerBlock n) wr).card ≤ scheme1DictSize ↔
      (s.demand .scheme1 b a wr).card ≤ scheme1DictSize) ∧
    ((s.buffered .scheme2 b (a.bytes / granularityBytes) wr).card ≤ scheme2DictSize ↔
      (s.demand .scheme2 b a wr).card ≤ scheme2DictSize)
  | _ => True

theorem isScheme1Compressible_change {s : BlockData n} (hv : s.isValid = true) {b : BlockId}
    {a : Slice n} (hlegal : s.legalSlice b a = true) (wr : Ptr) {k : CompressionCntlr}
    (hk : k.canCompress = true) :
    (s.scheme = .scheme2 → k.canChangeSchemeOTF = true →
      (s.isScheme1Compressible b a wr k = .ok true ↔
        (s.sampled b a wr).card ≤ scheme1DictSize)) ∧
    (s.scheme = .uncompressed → (s.isScheme1Compressible b a wr k = .ok true ↔
      (s.buffered .scheme1 b (chunksPerBlock n) wr).card ≤ scheme1DictSize)) := by
  constructor
  · intro hs hotf
    simp [isScheme1Compressible, hv, hk, hlegal, hs, hotf, check, sampled, merged, testData_eq, bind,
      Except.bind, pure, Except.pure]
  · intro hs
    simp [isScheme1Compressible, hv, hk, hlegal, hs, check, buffered, Scheme.key, bind, Except.bind,
      pure, Except.pure]

theorem isScheme2Compressible_change {s : BlockData n} (hv : s.isValid = true) {b : BlockId}
    {a : Slice n} (hlegal : s.legalSlice b a = true) (wr : Ptr) {k : CompressionCntlr}
    (hk : k.canCompress = true) :
    (s.scheme = .scheme1 → k.canChangeSchemeOTF = true →
      (s.isScheme2Compressible b a wr k = .ok true ↔
        (s.demand .scheme2 b a wr).card ≤ scheme2DictSize)) ∧
    (s.scheme = .uncompressed → (s.isScheme2Compressible b a wr k = .ok true ↔
      (s.buffered .scheme2 b (a.bytes / granularityBytes) wr).card ≤ scheme2DictSize)) := by
  constructor
  · intro hs hotf
    simp [isScheme2Compressible, hv, hk, hlegal, hs, hotf, check, demand, merged, testData_eq,
      keys_scheme2, bind, Except.bind, pure, Except.pure]
  · intro hs
    simp [isScheme2Compressible, hv, hk, hlegal, hs, check, buffered, Scheme.key, bind, Except.bind,
      pure, Except.pure]

theorem mem_demand {s : BlockData n} {c : Scheme} {b : BlockId} {a : Slice n} {wr : Ptr} {v : Word} :
    v ∈ s.demand c b a wr ↔
      (∃ i, s.valid i = true ∧ i ≠ b ∧ v ∈ (s.data i).keys c) ∨ v ∈ (s.merged b a wr).keys c := by
  simp [demand, otherBlocks, and_assoc]

/-- A whole line beside the one line of an uncompressed superblock is counted right. -/
theorem buffered_eq_demand {s : BlockData n} (hs : s.scheme = .uncompressed) (hsingle : s.Single)
    (hv : s.isValid = true) (c : Scheme) (b : BlockId) {a : Slice n} (hoff : a.offset = 0)
    (hbytes : a.bytes = n) (wr : Ptr) :
    s.buffered c b (chunksPerBlock n) wr = s.demand c b a wr := by
  obtain ⟨u, hu⟩ := getFirstValid_isSome hv
  have huv := getFirstValid_valid hu
  have hline : s.merged b a wr = Line.ofPtr wr := by
    rw [← stored_eq_merged s b hoff, stored, hbytes, hoff, copyN_full]
  have hnew : ((List.range (chunksPerBlock n)).map wr.chunk).map c.key =
      (Line.ofPtr wr : Line n).keys c := by
    rw [Line.keys, chunks_ofPtr_chunk]
  ext v
  rw [mem_demand, hline, buffered, hnew, List.mem_toFinset, List.mem_append]
  refine or_congr_left ?_
  by_cases hub : u = b
  · have hnone : s.uncompressedChunks b = [] := by simp [uncompressedChunks, hu, hub]
    rw [hnone]
    constructor
    · intro h
      simp at h
    · rintro ⟨i, hi, hib, -⟩
      exact absurd ((hsingle hs i u hi huv).trans hub) hib
  · have hone : (s.uncompressedChunks b).map c.key = (s.data u).keys c := by
      simp [uncompressedChunks, hu, hub, Line.keys]
    rw [hone]
    constructor
    · intro h
      exact ⟨u, huv, hub, h⟩
    · rintro ⟨i, hi, -, h⟩
      rw [hsingle hs u i huv hi]
      exact h

/-- A check of a scheme that the superblock is not in says whether all that is needed fits the
dictionary, exactly when what it counts and what is needed are on one side of the limit. From SCHEME1
this is always so, and for a whole line beside the one line of an uncompressed superblock. -/
theorem conversion_exact_iff {s : BlockData n} (hv : s.isValid = true) {b : BlockId} {a : Slice n}
    (hlegal : s.legalSlice b a = true) (wr : Ptr) {k : CompressionCntlr}
    (hk : k.canCompress = true) (hinv : s.scheme ≠ .invalid) :
    (((s.scheme ≠ .scheme1 → s.scheme = .uncompressed ∨ k.canChangeSchemeOTF = true →
        (s.isScheme1Compressible b a wr k = .ok true ↔
          (s.demand .scheme1 b a wr).card ≤ scheme1DictSize)) ∧
      (s.scheme ≠ .scheme2 → s.scheme = .uncompressed ∨ k.canChangeSchemeOTF = true →
        (s.isScheme2Compressible b a wr k = .ok true ↔
          (s.demand .scheme2 b a wr).card ≤ scheme2DictSize))) ↔
      s.CountsConversions b a wr k) ∧
    (s.scheme = .uncompressed → s.Single → a.offset = 0 → a.bytes = n →
      s.CountsConversions b a wr k) := by
  have h1 := isScheme1Compressible_change hv hlegal wr hk
  have h2 := isScheme2Compressible_change hv hlegal wr hk
  constructor
  · rw [CountsConversions]
    cases hs : s.scheme with
    | invalid => exact absurd hs hinv
    | uncompressed =>
      rw [h1.2 hs, h2.2 hs]
      exact ⟨fun h => ⟨h.1 (by decide) (.inl rfl), h.2 (by decide) (.inl rfl)⟩,
        fun h => ⟨fun _ _ => h.1, fun _ _ => h.2⟩⟩
    | scheme1 =>
      refine ⟨fun _ => trivial, fun _ => ⟨fun hne => absurd rfl hne, fun _ hotf => ?_⟩⟩
      rcases hotf with hunc | hotf
      · cases hunc
      · exact h2.1 hs hotf
    | scheme2 =>
      constructor
      · intro h hotf
        rw [← h1.1 hs hotf]
        exact h.1 (by decide) (.inr hotf)
      · intro h
        refine ⟨fun _ hotf => ?_, fun hne => absurd rfl hne⟩
        rcases hotf with hunc | hotf
        · cases hunc
        · rw [h1.1 hs hotf]
          exact h hotf
  · intro hs hsingle hoff hbytes
    have hchunks : a.bytes / granularityBytes = chunksPerBlock n := by rw [hbytes, chunksPerBlock]
    simp only [CountsConversions, hs, hchunks, buffered_eq_demand hs hsingle hv _ b hoff hbytes wr,
      iff_self, and_self]

theorem conversion_exact_iff_blank : ∃ s : BlockData 64, s.scheme = .uncompressed ∧
    (s.isScheme2Compressible 1 .full oneFive (sampleCntlr false false) = .ok true ↔
      (s.demand .scheme2 1 .full oneFive).card ≤ scheme2DictSize) := by
  have heval : Outcome.test (fresh.performAll (twoBlankLines.take 1)) (fun s =>
      s.scheme == .uncompressed && s.isValid && s.legalSlice 1 .full &&
        (List.finRange superblockSize).all fun b => !s.valid b || b == 0) = true := by
    rfl
  obtain ⟨s, hs, heval⟩ := Outcome.test_eq_true heval
  simp only [Bool.and_eq_true, beq_iff_eq, List.all_eq_true] at heval
  obtain ⟨⟨⟨hscheme, hv⟩, hlegal⟩, hblocks⟩ := heval
  have honly : ∀ b, s.valid b = true → b = 0 := by
    intro b hb
    simpa [hb] using hblocks b (List.mem_finRange b)
  have hsingle : s.Single := fun _ b b' hb hb' => (honly b hb).trans (honly b' hb').symm
  have hexact := conversion_exact_iff hv hlegal oneFive (k := sampleCntlr false false) rfl
    (by rw [hscheme]; decide)
  exact ⟨s, hscheme, (hexact.1.mpr (hexact.2 hscheme hsingle rfl rfl)).2
    (by rw [hscheme]; decide) (.inl hscheme)⟩

/-- Of a block of sixteen distinct chunks the check counts the first. -/
theorem conversion_undercounts :
    ¬∀ s : BlockData 64, Reachable (machine 64) s → s.scheme = .scheme2 → ∀ wr : Ptr,
      (s.isScheme1Compressible 2 .full wr (sampleCntlr true false) = .ok true ↔
        (s.demand .scheme1 2 .full wr).card ≤ scheme1DictSize) := by
  intro hall
  have heval : Outcome.test (fresh.performAll sixteenChunks) (fun s => s.scheme == .scheme2 &&
      Outcome.test (s.isScheme1Compressible 2 .full (fun _ => 0) (sampleCntlr true false)) id &&
      !decide ((s.demand .scheme1 2 .full fun _ => 0).card ≤ scheme1DictSize)) = true := by
    rfl
  obtain ⟨s, hs, heval⟩ := Outcome.test_eq_true heval
  simp only [Bool.and_eq_true, beq_iff_eq, Bool.not_eq_true', decide_eq_false_iff_not] at heval
  obtain ⟨⟨hscheme, hcheck⟩, hover⟩ := heval
  exact hover ((hall s (performAll_reachable hs) hscheme _).mp (Outcome.test_id hcheck))

/-! ### The preferred scheme -/

/-- The same controller with other populations of the two schemes. -/
def withCounters (k : CompressionCntlr) (scheme1 scheme2 : Int) : CompressionCntlr :=
  { k with numScheme1 := scheme1, numScheme2 := scheme2 }

/-- A scheme can hold the line of the superblock and another one in a free block. -/
def CanHold (s : BlockData n) (c : Scheme) (b : BlockId) (ins : Ptr) (k : CompressionCntlr) : Prop :=
  k.canCompress = true ∧ (s.demand c b .full ins).card ≤
    if c = .scheme1 then scheme1DictSize else scheme2DictSize

theorem legalSlice_full {s : BlockData n} {b : BlockId} (hb : s.valid b = false) :
    s.legalSlice b .full = true := by
  simp [legalSlice, hb, Slice.full]

/-- In an uncompressed superblock the checks always answer, the same for all populations. -/
theorem uncompressed_answers {s : BlockData n} (hs : s.scheme = .uncompressed) {b : BlockId}
    (hb : s.valid b = false) (ins : Ptr) (k : CompressionCntlr) :
    (∃ fits, s.isScheme1Compressible b .full ins k = .ok fits) ∧
    (∃ fits, s.isScheme2Compressible b .full ins k = .ok fits) ∧
    ∀ x y, s.isScheme1Compressible b .full ins (withCounters k x y) =
        s.isScheme1Compressible b .full ins k ∧
      s.isScheme2Compressible b .full ins (withCounters k x y) =
        s.isScheme2Compressible b .full ins k := by
  have hlegal := legalSlice_full (n := n) hb
  refine ⟨?_, ?_, fun x y => ⟨rfl, rfl⟩⟩
  · cases hv : s.isValid <;> cases hk : k.canCompress <;>
      simp [isScheme1Compressible, hv, hk, hlegal, hs, check, bind, Except.bind, pure, Except.pure]
  · cases hv : s.isValid <;> cases hk : k.canCompress <;>
      simp [isScheme2Compressible, hv, hk, hlegal, hs, check, bind, Except.bind, pure, Except.pure]

/-- The decision for an uncompressed superblock, by the preferred scheme. -/
theorem getSchemeForInsertion_uncompressed {s : BlockData n} (hs : s.scheme = .uncompressed)
    (hv : s.isValid = true) {b : BlockId} (hb : s.valid b = false) (ins : Ptr)
    (k : CompressionCntlr) {fits1 fits2 : Bool}
    (h1 : s.isScheme1Compressible b .full ins k = .ok fits1)
    (h2 : s.isScheme2Compressible b .full ins k = .ok fits2) :
    s.getSchemeForInsertion b ins k = .ok (
      if k.numScheme1 ≥ k.numScheme2 then
        if fits1 then .scheme1 else if fits2 then .scheme2 else .invalid
      else if fits2 then .scheme2 else .invalid) := by
  by_cases hk : k.canCompress = true
  · rw [getSchemeForInsertion]
    simp only [hk, hv, hb, hs, h1, h2, if_true, Bool.false_eq_true, if_false,
      CompressionCntlr.getDefaultScheme]
    by_cases hpref : k.numScheme1 ≥ k.numScheme2
    · cases fits1 <;> cases fits2 <;>
        simp [hpref, firstFit, bind, Except.bind, pure, Except.pure]
    · cases fits1 <;> cases fits2 <;>
        simp [hpref, firstFit, bind, Except.bind, pure, Except.pure]
  · have hno : ∀ {fits : Bool}, (.ok false : Outcome Bool) = .ok fits → fits = false := by
      intro fits h
      exact (Except.ok.inj h).symm
    simp only [isScheme1Compressible, isScheme2Compressible, hv, eq_false_of_ne_true hk, Bool.not_true,
      Bool.not_false, Bool.false_eq_true, if_false, if_true] at h1 h2
    obtain rfl := hno h1
    obtain rfl := hno h2
    simp [getSchemeForInsertion, hv, eq_false_of_ne_true hk]

/-- The check of a scheme accepts a line beside the one line of an uncompressed superblock when the
scheme can hold both. -/
theorem canHold_iff {s : BlockData n} (hs : s.scheme = .uncompressed) (hsingle : s.Single)
    (hv : s.isValid = true) {b : BlockId} (hb : s.valid b = false) (ins : Ptr)
    (k : CompressionCntlr) {c : Scheme} (hc : c = .scheme1 ∨ c = .scheme2) :
    s.isSchemeCompressible c b .full ins k = .ok true ↔ s.CanHold c b ins k := by
  by_cases hk : k.canCompress = true
  · have hexact := conversion_exact_iff hv (legalSlice_full (n := n) hb) ins hk
      (by rw [hs]; decide)
    have hcount := hexact.1.mpr (hexact.2 hs hsingle rfl rfl)
    rcases hc with rfl | rfl
    · simpa [CanHold, hk, isSchemeCompressible] using hcount.1 (by rw [hs]; decide) (.inl hs)
    · simpa [CanHold, hk, isSchemeCompressible] using hcount.2 (by rw [hs]; decide) (.inl hs)
  · rcases hc with rfl | rfl <;>
      simp [CanHold, hk, isSchemeCompressible, isScheme1Compressible, isScheme2Compressible, hv]

/-- The decision by the preferred scheme and what the two checks answer. -/
def preferred (prefer1 fits1 fits2 : Bool) : Scheme :=
  if prefer1 then if fits1 then .scheme1 else if fits2 then .scheme2 else .invalid
  else if fits2 then .scheme2 else .invalid

/-- With SCHEME2 preferred, SCHEME1 is not asked. -/
theorem preferred_eq_invalid {prefer1 fits1 fits2 : Bool} (h : fits1 = true → fits2 = true) :
    preferred prefer1 fits1 fits2 = .invalid ↔ ¬fits1 = true ∧ ¬fits2 = true := by
  cases prefer1 <;> cases fits1 <;> cases fits2 <;> simp_all [preferred]

/-- Whichever scheme is preferred, an uncompressed superblock with a line takes another one when one
of the schemes can hold both, under a scheme that accepts it. This is so exactly when SCHEME2 can hold
both if SCHEME1 can. -/
theorem preference_iff {s : BlockData n} (hs : s.scheme = .uncompressed) (hsingle : s.Single)
    (hv : s.isValid = true) {b : BlockId} (hb : s.valid b = false) (ins : Ptr)
    (k : CompressionCntlr) :
    ((∀ x y x' y', s.getSchemeForInsertion b ins (withCounters k x y) = .ok .invalid ↔
        s.getSchemeForInsertion b ins (withCounters k x' y') = .ok .invalid) ∧
      (∀ x y, s.getSchemeForInsertion b ins (withCounters k x y) = .ok .invalid ↔
        ¬s.CanHold .scheme1 b ins k ∧ ¬s.CanHold .scheme2 b ins k) ∧
      ∀ x y, ∃ c, s.getSchemeForInsertion b ins (withCounters k x y) = .ok c ∧ (c ≠ .invalid →
        s.isSchemeCompressible c b .full ins (withCounters k x y) = .ok true)) ↔
    (s.CanHold .scheme1 b ins k → s.CanHold .scheme2 b ins k) := by
  obtain ⟨⟨fits1, h1⟩, ⟨fits2, h2⟩, hsame⟩ := uncompressed_answers hs hb ins k
  have hdecide : ∀ x y, s.getSchemeForInsertion b ins (withCounters k x y) =
      .ok (preferred (decide (x ≥ y)) fits1 fits2) := by
    intro x y
    rw [getSchemeForInsertion_uncompressed hs hv hb ins (withCounters k x y)
      ((hsame x y).1.trans h1) ((hsame x y).2.trans h2)]
    by_cases hxy : x ≥ y <;> simp [preferred, withCounters, hxy]
  have hc1 : s.CanHold .scheme1 b ins k ↔ fits1 = true := by
    rw [← canHold_iff hs hsingle hv hb ins k (.inl rfl), isSchemeCompressible, h1, Except.ok.injEq]
  have hc2 : s.CanHold .scheme2 b ins k ↔ fits2 = true := by
    rw [← canHold_iff hs hsingle hv hb ins k (.inr rfl), isSchemeCompressible, h2, Except.ok.injEq]
  rw [hc1, hc2]
  constructor
  · rintro ⟨-, hinvalid, -⟩ hfits1
    by_contra hfits2
    have hget := hdecide 0 1
    simp only [preferred, hfits2] at hget
    exact ((hinvalid 0 1).mp hget).1 hfits1
  · intro himp
    have hinvalid : ∀ x y, s.getSchemeForInsertion b ins (withCounters k x y) = .ok .invalid ↔
        ¬fits1 = true ∧ ¬fits2 = true := by
      intro x y
      rw [hdecide, Except.ok.injEq, preferred_eq_invalid himp]
    refine ⟨fun x y x' y' => by rw [hinvalid, hinvalid], hinvalid, fun x y => ⟨_, hdecide x y, ?_⟩⟩
    intro hc
    rcases getSchemeForInsertion_cases (hdecide x y) hc with ⟨hempty, -⟩ | ⟨-, -, -, hfit⟩
    · rw [hempty] at hv
      cases hv
    · exact hfit

/-- An uncompressed superblock with one blank line. -/
theorem blankLine_single : ∃ s : BlockData 64, Reachable (machine 64) s ∧
    s.scheme = .uncompressed ∧ s.Single ∧ s.isValid = true ∧ s.valid 1 = false ∧
    (s.demand .scheme1 1 .full fourUppers).card ≤ scheme1DictSize ∧
    (s.demand .scheme2 1 .full oneFive).card ≤ scheme2DictSize ∧
    s.getSchemeForInsertion 1 fourUppers (withCounters (sampleCntlr false false) 0 1) =
      .ok .invalid := by
  have heval : Outcome.test (fresh.performAll (twoBlankLines.take 1)) (fun s =>
      s.scheme == .uncompressed && s.isValid && !s.valid 1 &&
        ((List.finRange superblockSize).all fun b => !s.valid b || b == 0) &&
        decide ((s.demand .scheme1 1 .full fourUppers).card ≤ scheme1DictSize) &&
        decide ((s.demand .scheme2 1 .full oneFive).card ≤ scheme2DictSize) &&
        Outcome.test (s.getSchemeForInsertion 1 fourUppers
          (withCounters (sampleCntlr false false) 0 1)) (· == .invalid)) = true := by
    rfl
  obtain ⟨s, hs, heval⟩ := Outcome.test_eq_true heval
  simp only [Bool.and_eq_true, beq_iff_eq, List.all_eq_true, decide_eq_true_eq,
    Bool.not_eq_true'] at heval
  obtain ⟨⟨⟨⟨⟨⟨hscheme, hv⟩, hfree⟩, hblocks⟩, hfour⟩, hfive⟩, hget⟩ := heval
  have honly : ∀ b, s.valid b = true → b = 0 := by
    intro b hb
    simpa [hb] using hblocks b (List.mem_finRange b)
  have hsingle : s.Single := fun _ b b' hb hb' => (honly b hb).trans (honly b' hb').symm
  obtain ⟨c, hc, hinvalid⟩ := Outcome.test_eq_true hget
  rw [beq_iff_eq] at hinvalid
  rw [hinvalid] at hc
  exact ⟨s, performAll_reachable hs, hscheme, hsingle, hv, hfree, hfour, hfive, hc⟩

theorem preference_iff_blankLine : ∃ s : BlockData 64, s.scheme = .uncompressed ∧
    ∀ x y, s.getSchemeForInsertion 1 oneFive (withCounters (sampleCntlr false false) x y) ≠
      .ok .invalid := by
  obtain ⟨s, -, hscheme, hsingle, hv, hfree, -, hfive, -⟩ := blankLine_single
  have hhold : s.CanHold .scheme2 1 oneFive (sampleCntlr false false) := ⟨rfl, hfive⟩
  have hagree := (preference_iff hscheme hsingle hv hfree oneFive (sampleCntlr false false)).mpr
    fun _ => hhold
  exact ⟨s, hscheme, fun x y hget => ((hagree.2.1 x y).mp hget).2 hhold⟩

/-- Five upper parts in five chunks: a line that only SCHEME1 can hold is refused when SCHEME2 is
preferred. -/
theorem preference_refuses :
    ¬∀ s : BlockData 64, Reachable (machine 64) s → s.scheme = .uncompressed → s.Single →
      s.isValid = true → ∀ b, s.valid b = false → ∀ ins k x y,
      (s.getSchemeForInsertion b ins (withCounters k x y) = .ok .invalid ↔
        ¬s.CanHold .scheme1 b ins k ∧ ¬s.CanHold .scheme2 b ins k) := by
  intro hall
  obtain ⟨s, hreach, hscheme, hsingle, hv, hfree, hfour, -, hget⟩ := blankLine_single
  have hnone := (hall s hreach hscheme hsingle hv 1 hfree _ _ _ _).mp hget
  exact hnone.1 ⟨rfl, hfour⟩

end BlockData

end Sniper.Cache
