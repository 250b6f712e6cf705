import Sniper.Cache.Admission
set_option autoImplicit false

namespace Sniper.Cache
open Sniper.Lib Dish

variable {n : Nat}

namespace BlockData

/-- Decoding a valid block through the dictionary gives its bytes back. -/
def Decodes (s : BlockData n) : Prop :=
  ∀ b, s.valid b = true → ∀ i < chunksPerBlock n,
    match s.scheme with
    | .scheme1 => s.table.entry (s.dataPtrs b i) = some ((s.data b).chunk i)
    | .scheme2 => ∃ v, s.table.entry (s.dataPtrs b i) = some v ∧
        (v <<< scheme2OffsetBits) ||| (s.dataOffsets b i).setWidth 32 = (s.data b).chunk i
    | _ => True

/-- Every valid block of a compressed superblock is encoded, and an uncompressed superblock
holds one block at most. -/
structure Coded (s : BlockData n) : Prop where
  inv : s.Inv
  encodes : s.scheme ≠ .uncompressed → ∀ b, s.valid b = true → s.Encodes s.scheme b
  single : s.scheme = .uncompressed → ∀ b b', s.valid b = true → s.valid b' = true → b = b'

theorem Coded.decodes {s : BlockData n} (h : s.Coded) : s.Decodes := by
  intro b hb i hi
  have wf := h.inv.table_wf
  cases hs : s.scheme with
  | invalid | uncompressed => trivial
  | scheme1 =>
    obtain ⟨hmem, -⟩ := h.encodes (by simp [hs]) b hb i hi
    simpa [hs, Scheme.key] using PtrTable.entry_of_mem wf hmem
  | scheme2 =>
    obtain ⟨hmem, hoff⟩ := h.encodes (by simp [hs]) b hb i hi
    rw [hs] at hmem
    refine ⟨upper ((s.data b).chunk i), PtrTable.entry_of_mem wf hmem, ?_⟩
    rw [hoff hs]
    exact upper_lower _

theorem coded_fresh : (fresh : BlockData n).Coded :=
  ⟨inv_fresh, fun h => absurd rfl h, fun _ b b' hb => by simp [fresh] at hb⟩

/-- The upper part of every stored chunk is itself a stored chunk. -/
def UppersStored (valid : BlockId → Bool) (data : BlockId → Line n) : Prop :=
  ∀ b, valid b = true → ∀ i < chunksPerBlock n,
    ∃ b', valid b' = true ∧ ∃ j < chunksPerBlock n, (data b').chunk j = upper ((data b).chunk i)

theorem entryUsed_iff {s : BlockData n} {v : Word} :
    s.entryUsed v = true ↔
      ∃ b, s.valid b = true ∧ ∃ j < chunksPerBlock n, (s.data b).chunk j = v := by
  simp [entryUsed, Line.chunks]

/-- Compaction keeps the entries of a valid block, unless it looks for upper parts among chunks. -/
theorem Encodes.eraseUnused {s : BlockData n} {c : Scheme} {b : BlockId} (hb : s.valid b = true)
    (hup : c = .scheme2 → UppersStored s.valid s.data) (h : s.Encodes c b) :
    s.eraseUnused.Encodes c b := by
  intro i hi
  obtain ⟨hmem, hoff⟩ := h i hi
  refine ⟨?_, hoff⟩
  show _ ∈ (s.table.prune s.entryUsed).dict
  rw [PtrTable.mem_prune]
  refine ⟨hmem, entryUsed_iff.2 ?_⟩
  cases c with
  | scheme2 => exact hup rfl b hb i hi
  | invalid | uncompressed | scheme1 => exact ⟨b, hb, i, hi, rfl⟩

theorem Coded.compact {s s' : BlockData n} {k : CompressionCntlr} (h : s.Coded)
    (hup : k.shouldPruneDISHEntries = true → s.scheme = .scheme2 → UppersStored s.valid s.data)
    (hcomp : compactIfPruning k s = .ok s') : s'.Coded := by
  rcases compactIfPruning_ok hcomp with rfl | ⟨rfl, hk, hs⟩
  · exact h
  · refine ⟨?_, ?_, fun hs' => absurd hs' hs⟩
    · exact ⟨h.inv.scheme_ne, PtrTable.prune_wf h.inv.table_wf, h.inv.blank,
        h.inv.empty_uncompressed⟩
    · intro _ b hb
      exact (h.encodes hs b hb).eraseUnused hb (hup hk)

/-- The blocks that are encoded once a line is stored under scheme `c`. -/
theorem Stores.encodes {o : Order} {s u : BlockData n} {b : BlockId} {d : Line n} {c : Scheme}
    (h : s.Coded) (hst : Stores o s b d c u) (hc : c ≠ .uncompressed) {b' : BlockId}
    (hb' : s.valid b' = true ∨ (b' = b ∧ (s.scheme = c ∨ s.scheme = .uncompressed))) :
    u.Encodes c b' := by
  cases hst with
  | raw _ => exact absurd rfl hc
  | coded _ hinv he =>
    obtain ⟨-, -, -, -, -, henc⟩ := encodeAll_spec (recoded_table_wf h.inv hinv b d) he
    apply henc
    by_cases hkeep : s.scheme = c
    · by_cases hbb : b' = b
      · simp [encodeList, hkeep, hbb]
      · right
        have hvalid : s.valid b' = true := by
          rcases hb' with hb' | hb'
          · exact hb'
          · exact absurd hb'.1 hbb
        have hself : s.recoded c b d = s.setData b d := by
          rw [← hkeep]
          exact changeScheme_self (s.setData b d)
        have hold := h.encodes (by rw [hkeep]; exact hc) b' hvalid
        rw [hkeep] at hold
        rw [hself]
        exact hold.mono (by simp [hbb]) (fun e he => he) rfl rfl
    · left
      by_cases hunc : s.scheme = .uncompressed
      · have hne : Scheme.uncompressed ≠ c := fun h => hc h.symm
        by_cases hbb : b' = b
        · subst hbb
          simp only [encodeList, hunc, hne, if_false, if_true]
          cases s.getFirstValid with
          | none => simp
          | some w => by_cases hwb : w = b' <;> simp [hwb]
        · have hvalid : s.valid b' = true := by
            rcases hb' with hb' | hb'
            · exact hb'
            · exact absurd hb'.1 hbb
          obtain ⟨w, hw⟩ := getFirstValid_isSome (isValid_of_valid hvalid)
          have hwb : w = b' := h.single hunc w b' (getFirstValid_valid hw) hvalid
          subst hwb
          simp [encodeList, hunc, hne, hw, hbb]
      · have hvalid : s.valid b' = true := by
          rcases hb' with hb' | ⟨-, hb' | hb'⟩
          · exact hb'
          · exact absurd hb' hkeep
          · exact absurd hb' hunc
        simp [encodeList, hkeep, hunc, hvalid]

/-- What a call must meet for the encoding to stay faithful. An insertion into a compressed
superblock stays in its scheme; and where the call ends with a compaction under SCHEME2, every
upper part in use occurs as a chunk of a block that is then valid. -/
def EncodingKept (s : BlockData n) (c : Call n) : Prop :=
  match c.op with
  | .insert b (some ins) =>
    (s.scheme ≠ .uncompressed → s.getSchemeForInsertion b ins c.cntlr = .ok s.scheme) ∧
    (c.cntlr.shouldPruneDISHEntries = true →
      s.getSchemeForInsertion b ins c.cntlr = .ok .scheme2 →
      UppersStored (Function.update s.valid b true) (Function.update s.data b (Line.ofPtr ins)))
  | .write b a (some wr) =>
    c.cntlr.shouldPruneDISHEntries = true →
      s.getSchemeForWrite b a wr c.cntlr = .ok .scheme2 →
      UppersStored s.valid (Function.update s.data b (copyN wr a.bytes a.offset (s.data b)))
  | .evict b =>
    c.cntlr.shouldPruneDISHEntries = true → s.scheme = .scheme2 →
      UppersStored (Function.update s.valid b false) s.data
  | _ => True

/-- Calls that hand over data. -/
def NonNull (c : Call n) : Prop :=
  match c.op with
  | .insert _ ins => ins ≠ none
  | .write _ _ wr => wr ≠ none
  | _ => True

theorem insert_coded {o : Order} {s s' : BlockData n} {b : BlockId} {ins : Ptr}
    {k k' : CompressionCntlr} (h : s.Coded) (hins : s.insertBlockData o b (some ins) k = .ok (s', k'))
    (hkeep : s.scheme ≠ .uncompressed → s.getSchemeForInsertion b ins k = .ok s.scheme)
    (hup : k.shouldPruneDISHEntries = true → s.getSchemeForInsertion b ins k = .ok .scheme2 →
      UppersStored (Function.update s.valid b true) (Function.update s.data b (Line.ofPtr ins))) :
    s'.Coded := by
  obtain ⟨hv, c, u, hget, hst, hcomp⟩ := insertBlockData_some h.inv hins
  obtain ⟨hsch, hc, hval, hdata, hwf⟩ := hst.spec h.inv
  have hmarked : (u.setValid b true).Coded := by
    refine ⟨⟨?_, ?_, ?_, ?_⟩, ?_, ?_⟩
    · simpa [hsch] using hc
    · simpa [hsch] using hwf
    · intro b' hb'
      by_cases hbb : b' = b
      · simp [hbb] at hb'
      · simp only [setValid_valid, Function.update_of_ne hbb, hval] at hb'
        simp only [setValid_data, hdata, Function.update_of_ne hbb]
        exact h.inv.blank b' hb'
    · intro hf
      rw [setValid_isValid] at hf
      exact absurd hf (by simp)
    · intro hs b' hb'
      rw [setValid_scheme, hsch] at hs ⊢
      have henc : u.Encodes c b' := by
        refine hst.encodes h hs ?_
        by_cases hbb : b' = b
        · right
          refine ⟨hbb, ?_⟩
          by_cases hunc : s.scheme = .uncompressed
          · exact .inr hunc
          · have := (hkeep hunc).symm.trans hget
            exact .inl (Except.ok.inj this)
        · left
          simpa [hbb, hval] using hb'
      exact henc.mono rfl (fun e he => he) rfl rfl
    · intro hs
      rw [setValid_scheme, hsch] at hs
      subst hs
      rcases getSchemeForInsertion_cases hget hc with ⟨hempty, -⟩ | ⟨-, -, hu, -⟩
      · have hnone := isValid_eq_false.1 hempty
        have hone : ∀ b', (u.setValid b true).valid b' = true → b' = b := by
          intro b' hb'
          by_contra hbb
          simp [hbb, hval, hnone] at hb'
        intro b1 b2 h1 h2
        rw [hone b1 h1, hone b2 h2]
      · exact absurd rfl hu
  refine hmarked.compact ?_ hcomp
  intro hk h2
  rw [setValid_scheme, hsch] at h2
  rw [setValid_valid, hval, setValid_data, hdata]
  exact hup hk (h2 ▸ hget)

theorem write_coded {o : Order} {s s' : BlockData n} {b : BlockId} {a : Slice n} {wr : Ptr}
    {k k' : CompressionCntlr} (h : s.Coded) (hwr : s.writeBlockData o b a (some wr) k = .ok (s', k'))
    (hup : k.shouldPruneDISHEntries = true → s.getSchemeForWrite b a wr k = .ok .scheme2 →
      UppersStored s.valid (Function.update s.data b (copyN wr a.bytes a.offset (s.data b)))) :
    s'.Coded := by
  obtain ⟨hv, c, u, hget, hst, hcomp⟩ := writeBlockData_some h.inv hwr
  obtain ⟨hsch, hc, hval, hdata, hwf⟩ := hst.spec h.inv
  have hstored : u.Coded := by
    refine ⟨.of_stored (hsch ▸ hc) (hsch ▸ hwf) ?_ ?_, ?_, ?_⟩
    · exact isValid_of_valid (b := b) (by rw [hval]; exact hv)
    · intro b' hb'
      rw [hval] at hb'
      have hbb : b' ≠ b := by
        rintro rfl
        simp [hv] at hb'
      rw [hdata, Function.update_of_ne hbb]
      exact h.inv.blank b' hb'
    · intro hs b' hb'
      rw [hsch] at hs ⊢
      exact hst.encodes h hs (.inl (by rwa [hval] at hb'))
    · intro hs
      rw [hsch] at hs
      subst hs
      rw [hval]
      rcases getSchemeForWrite_cases hget hc with ⟨-, ⟨hunc, -⟩ | ⟨-, hu, -⟩⟩
      · exact h.single hunc
      · exact absurd rfl hu
  refine hstored.compact ?_ hcomp
  intro hk h2
  rw [hsch] at h2
  subst h2
  have hs : s.scheme ≠ .uncompressed := by
    rcases getSchemeForWrite_cases hget hc with ⟨-, ⟨-, hu⟩ | ⟨hs, -⟩⟩
    · simp at hu
    · exact hs
  rw [hval, hdata, written, if_neg hs]
  exact hup hk hget

theorem drop_coded {s : BlockData n} (h : s.Coded) (b : BlockId) (k : CompressionCntlr) :
    (s.dropBlock b k).1.Coded := by
  obtain ⟨inv', hval, hdata⟩ := dropBlock_spec b k h.inv
  by_cases hvalid : ((s.setValid b false).setData b .zero).isValid = true
  · have heq : (s.dropBlock b k).1 = (s.setValid b false).setData b .zero := by
      simp [dropBlock, hvalid]
    rw [heq] at inv' ⊢
    refine ⟨inv', ?_, ?_⟩
    · intro hs b' hb'
      have hbb : b' ≠ b := by
        rintro rfl
        simp at hb'
      have hb : s.valid b' = true := by simpa [hbb] using hb'
      exact (h.encodes hs b' hb).mono (by simp [hbb]) (fun e he => he) rfl rfl
    · intro hs b1 b2 h1 h2
      have hin : ∀ b', Function.update s.valid b false b' = true → s.valid b' = true := by
        intro b' hb'
        by_cases hbb : b' = b
        · simp [hbb] at hb'
        · simpa [hbb] using hb'
      exact h.single hs b1 b2 (hin b1 h1) (hin b2 h2)
  · have hf : ((s.setValid b false).setData b .zero).isValid = false := by simpa using hvalid
    have hs : (s.dropBlock b k).1.scheme = .uncompressed := by simp [dropBlock, hf]
    refine ⟨inv', fun hne => absurd hs hne, fun _ b1 b2 h1 _ => ?_⟩
    rw [hval] at h1
    have hnone := isValid_eq_false.1 hf b1
    simp only [setData_valid, setValid_valid] at hnone
    rw [hnone] at h1
    exact absurd h1 (by simp)

theorem evict_coded {s s' : BlockData n} {b : BlockId} {line : Line n} {k k' : CompressionCntlr}
    (h : s.Coded) (hev : s.evictBlockData b k = .ok (line, s', k'))
    (hup : k.shouldPruneDISHEntries = true → s.scheme = .scheme2 →
      UppersStored (Function.update s.valid b false) s.data) : s'.Coded := by
  simp only [evictBlockData, except_bind_eq_ok, check_ok] at hev
  obtain ⟨-, -, hev⟩ := hev
  have hdrop := drop_coded h b k
  split at hev
  · next hvalid =>
    simp only [except_bind_eq_ok, pure_eq_ok, Prod.mk.injEq] at hev
    obtain ⟨s1, hcomp, -, rfl, -⟩ := hev
    refine hdrop.compact ?_ hcomp
    obtain ⟨-, hval, hdata⟩ := dropBlock_spec b k h.inv
    have hk : (s.dropBlock b k).2.shouldPruneDISHEntries = k.shouldPruneDISHEntries := by
      simp only [dropBlock]
      split
      · exact CompressionCntlr.evict_prune k _
      · rfl
    intro hprune h2
    have hs : s.scheme = .scheme2 := by
      simp only [dropBlock] at h2
      split at h2
      · simp at h2
      · exact h2
    have hstored := hup (hk ▸ hprune) hs
    rw [hval, hdata]
    intro b1 h1 i hi
    obtain ⟨b2, h2', j, hj, heq⟩ := hstored b1 h1 i hi
    have hne : ∀ b', Function.update s.valid b false b' = true → b' ≠ b := by
      rintro b' hb' rfl
      simp at hb'
    refine ⟨b2, h2', j, hj, ?_⟩
    rw [Function.update_of_ne (hne b1 h1), Function.update_of_ne (hne b2 h2')]
    exact heq
  · simp only [pure_eq_ok, Prod.mk.injEq] at hev
    obtain ⟨-, rfl, -⟩ := hev
    exact hdrop

theorem perform_coded {s s' : BlockData n} {c : Call n} {out : Option (Line n)} (h : s.Coded)
    (hnull : NonNull c) (hkept : s.EncodingKept c) (hstep : s.perform c = .ok (out, s')) :
    s'.Coded := by
  obtain ⟨op, k, o⟩ := c
  cases op with
  | insert b ins =>
    simp only [perform, except_bind_eq_ok, pure_eq_ok, Prod.mk.injEq] at hstep
    obtain ⟨-, -, -, -, ⟨u, k'⟩, hins, -, rfl⟩ := hstep
    cases ins with
    | none => exact absurd rfl hnull
    | some ins => exact insert_coded h hins hkept.1 hkept.2
  | write b a wr =>
    simp only [perform, except_bind_eq_ok, pure_eq_ok, Prod.mk.injEq] at hstep
    obtain ⟨-, -, -, -, ⟨u, k'⟩, hwr, -, rfl⟩ := hstep
    cases wr with
    | none => exact absurd rfl hnull
    | some wr => exact write_coded h hwr hkept
  | read b a rd =>
    simp only [perform, except_bind_eq_ok, pure_eq_ok, Prod.mk.injEq] at hstep
    obtain ⟨-, -, -, rfl⟩ := hstep
    exact h
  | evict b =>
    simp only [perform, except_bind_eq_ok, pure_eq_ok, Prod.mk.injEq] at hstep
    obtain ⟨⟨line, u, k'⟩, hev, -, rfl⟩ := hstep
    exact evict_coded h hev hkept
  | invalidate b =>
    simp only [perform, pure_eq_ok, Prod.mk.injEq] at hstep
    obtain ⟨-, rfl⟩ := hstep
    exact drop_coded h b k

open scoped Lib.Literals in
/-- A block of sixteen chunks with upper part 2 beside a blank block, with pruning. -/
def prunedUppers : List (Call 64) :=
  [⟨.insert 0 (some (chunkPtr fun i => .ofNat 8 (32 + i))), sampleCntlr false true, .greatest⟩,
   ⟨.insert 1 (some fun _ => 0), sampleCntlr false true, .greatest⟩]

open scoped Lib.Literals in
/-- The same block inserted third, with on-the-fly changes: SCHEME1 becomes SCHEME2. -/
def unencodedInsert : List (Call 64) :=
  [⟨.insert 0 (some fun _ => 0), sampleCntlr true false, .greatest⟩,
   ⟨.insert 1 (some fun _ => 0), sampleCntlr true false, .greatest⟩,
   ⟨.insert 2 (some (chunkPtr fun i => .ofNat 8 (32 + i))), sampleCntlr true false, .greatest⟩]

theorem not_decodes {s : BlockData 64} {b : BlockId} (hb : s.valid b = true)
    (hs : s.scheme = .scheme2) (hnone : s.table.entry (s.dataPtrs b 0) = none) : ¬ s.Decodes := by
  intro h
  have hchunk := h b hb 0 (by decide)
  simp [hs, hnone] at hchunk

end BlockData

end Sniper.Cache
