import Sniper.Cache.Faithful
set_option autoImplicit false

/-! What pruning leaves in the dictionary. -/

namespace Sniper.Cache
open Sniper.Lib Dish

variable {n : Nat}

/-- Some valid block needs the value under a scheme. -/
def Lives (c : Scheme) (valid : BlockId → Bool) (data : BlockId → Line n) (v : Word) : Prop :=
  ∃ b, valid b = true ∧ v ∈ (data b).keys c

theorem Lives.congr {c : Scheme} {valid : BlockId → Bool} {data data' : BlockId → Line n} {v : Word}
    (h : ∀ b, valid b = true → data' b = data b) :
    Lives c valid data' v ↔ Lives c valid data v := by
  constructor
  · rintro ⟨b, hb, hv⟩
    exact ⟨b, hb, h b hb ▸ hv⟩
  · rintro ⟨b, hb, hv⟩
    exact ⟨b, hb, (h b hb).symm ▸ hv⟩

/-- A block that becomes valid adds what it needs itself. -/
theorem lives_insert {c : Scheme} {valid : BlockId → Bool} {data : BlockId → Line n} {b : BlockId}
    (hb : valid b = false) (d : Line n) (v : Word) :
    Lives c (Function.update valid b true) (Function.update data b d) v ↔
      Lives c valid data v ∨ v ∈ d.keys c := by
  constructor
  · rintro ⟨b', hb', hv⟩
    by_cases hbb : b' = b
    · subst hbb
      exact .inr (by simpa using hv)
    · rw [Function.update_of_ne hbb] at hb' hv
      exact .inl ⟨b', hb', hv⟩
  · rintro (⟨b', hb', hv⟩ | hv)
    · have hbb : b' ≠ b := by
        rintro rfl
        rw [hb] at hb'
        cases hb'
      exact ⟨b', by rwa [Function.update_of_ne hbb], by rwa [Function.update_of_ne hbb]⟩
    · exact ⟨b, by simp, by simpa using hv⟩

/-- After a write of a valid block, its new line and what the others need. -/
theorem lives_of_write {c : Scheme} {valid : BlockId → Bool} {data : BlockId → Line n} {b : BlockId}
    {d : Line n} {v : Word} (h : Lives c valid (Function.update data b d) v) :
    Lives c valid data v ∨ v ∈ d.keys c := by
  obtain ⟨b', hb', hv⟩ := h
  by_cases hbb : b' = b
  · subst hbb
    exact .inr (by simpa using hv)
  · rw [Function.update_of_ne hbb] at hv
    exact .inl ⟨b', hb', hv⟩

theorem lives_drop {c : Scheme} {valid : BlockId → Bool} {data : BlockId → Line n} {b : BlockId}
    {v : Word} (h : Lives c (Function.update valid b false) data v) : Lives c valid data v := by
  obtain ⟨b', hb', hv⟩ := h
  by_cases hbb : b' = b
  · subst hbb
    simp at hb'
  · rw [Function.update_of_ne hbb] at hb'
    exact ⟨b', hb', hv⟩

/-- A dropped block's bytes are blanked, which does not count. -/
theorem lives_blanked {c : Scheme} {valid : BlockId → Bool} {data : BlockId → Line n} {b : BlockId}
    {v : Word} : Lives c (Function.update valid b false) (Function.update data b .zero) v ↔
      Lives c (Function.update valid b false) data v := by
  refine Lives.congr fun b' hb' => ?_
  have hbb : b' ≠ b := by
    rintro rfl
    simp at hb'
  exact Function.update_of_ne hbb _ _

namespace BlockData

/-- The dictionary holds the values that some valid block needs, and no others. -/
def DictionaryLive (s : BlockData n) : Prop :=
  s.scheme ≠ .uncompressed → ∀ v, v ∈ s.table.vals ↔ Lives s.scheme s.valid s.data v

theorem mem_validKeys {s : BlockData n} {c : Scheme} {data : BlockId → Line n} {v : Word} :
    v ∈ s.validKeys c data ↔ Lives c s.valid data v := by
  simp [validKeys, Lives]

/-- Compaction keeps the entries whose value is a whole chunk of a valid block. -/
theorem mem_vals_eraseUnused {s : BlockData n} {v : Word} :
    v ∈ s.eraseUnused.table.vals ↔ v ∈ s.table.vals ∧ Lives .scheme1 s.valid s.data v := by
  rw [eraseUnused_table, PtrTable.vals_prune, Finset.mem_filter, entryUsed_iff]
  simp [Lives, keys_scheme1, Line.chunks]

theorem compact_vals {k : CompressionCntlr} {s s' : BlockData n}
    (hk : k.shouldPruneDISHEntries = true) (hv : s.isValid = true) (hs : s.scheme ≠ .uncompressed)
    (h : compactIfPruning k s = .ok s') (v : Word) :
    v ∈ s'.table.vals ↔ v ∈ s.table.vals ∧ Lives .scheme1 s.valid s.data v := by
  have herase : s' = s.eraseUnused := by
    simp only [compactIfPruning, compact, hk, hv, Bool.not_true, Bool.false_eq_true, if_true,
      if_false] at h
    cases hsch : s.scheme with
    | uncompressed => exact absurd hsch hs
    | invalid => simp [hsch] at h
    | scheme1 | scheme2 =>
      simp only [hsch, Except.ok.injEq] at h
      exact h.symm
  rw [herase]
  exact mem_vals_eraseUnused

/-- What a compression leaves in the dictionary before it is pruned. -/
theorem Stores.vals {o : Order} {s u : BlockData n} {b : BlockId} {d : Line n} {c : Scheme}
    (inv : s.Inv) (h : Stores o s b d c u) (hc : c ≠ .uncompressed) :
    u.table.vals = s.neededKeys c b d := by
  cases h with
  | raw _ => exact absurd rfl hc
  | coded _ hinv he =>
    obtain ⟨-, -, -, -, hvals, -⟩ := encodeAll_spec (recoded_table_wf inv hinv b d) he
    rw [hvals, recoded_vals inv hinv b d, recoded_data, neededKeys]

/-- An uncompressed superblock holds one block at most. -/
def Single (s : BlockData n) : Prop :=
  s.scheme = .uncompressed → ∀ b b', s.valid b = true → s.valid b' = true → b = b'

/-- Besides a new block, an uncompressed superblock has its one valid block to encode. -/
theorem mem_uncompressedChunks {s : BlockData n} (hs : s.scheme = .uncompressed) (hsingle : s.Single)
    (hv : s.isValid = true) {b : BlockId} (hb : s.valid b = false) (c : Scheme) (v : Word) :
    v ∈ (s.uncompressedChunks b).map c.key ↔ Lives c s.valid s.data v := by
  obtain ⟨u, hu⟩ := getFirstValid_isSome hv
  have huv := getFirstValid_valid hu
  have hub : u ≠ b := by
    rintro rfl
    rw [hb] at huv
    cases huv
  have hchunks : (s.uncompressedChunks b).map c.key = (s.data u).keys c := by
    simp [uncompressedChunks, hu, hub, Line.keys]
  rw [hchunks]
  constructor
  · intro h
    exact ⟨u, huv, h⟩
  · rintro ⟨b', hb', h⟩
    rw [hsingle hs u b' huv hb']
    exact h

/-! ### The calls that prune exactly -/

/-- A line goes into an invalid block under scheme `c`: each value needed afterwards is a whole
chunk, and a change of scheme, which does not encode the new line, finds all that it needs. -/
def InsertExact (s : BlockData n) (b : BlockId) (d : Line n) (c : Scheme) : Prop :=
  c ≠ .uncompressed →
    (∀ v, Lives c (Function.update s.valid b true) (Function.update s.data b d) v →
      Lives .scheme1 (Function.update s.valid b true) (Function.update s.data b d) v) ∧
    (s.scheme ≠ .uncompressed → c ≠ s.scheme → ∀ v ∈ d.keys c, Lives c s.valid s.data v)

/-- A valid block is rewritten under scheme `c`: each value needed afterwards is a whole chunk, and
no value that is needed no more is one. -/
def WriteExact (s : BlockData n) (b : BlockId) (d : Line n) (c : Scheme) : Prop :=
  c ≠ .uncompressed →
    (∀ v, Lives c s.valid (Function.update s.data b d) v →
      Lives .scheme1 s.valid (Function.update s.data b d) v) ∧
    (c = s.scheme → ∀ v, Lives c s.valid s.data v →
      Lives .scheme1 s.valid (Function.update s.data b d) v →
      Lives c s.valid (Function.update s.data b d) v)

/-- The same for a block that is evicted. -/
def EvictExact (s : BlockData n) (b : BlockId) : Prop :=
  s.scheme ≠ .uncompressed →
    (∀ v, Lives s.scheme (Function.update s.valid b false) s.data v →
      Lives .scheme1 (Function.update s.valid b false) s.data v) ∧
    ∀ v, Lives s.scheme s.valid s.data v →
      Lives .scheme1 (Function.update s.valid b false) s.data v →
      Lives s.scheme (Function.update s.valid b false) s.data v

/-- An invalidation does not prune: the other blocks, if there are any, need all values. -/
def InvalidateExact (s : BlockData n) (b : BlockId) : Prop :=
  s.scheme ≠ .uncompressed → (∃ b', Function.update s.valid b false b' = true) →
    ∀ v, Lives s.scheme s.valid s.data v →
      Lives s.scheme (Function.update s.valid b false) s.data v

/-- The calls after which a pruned dictionary is exact. -/
def PrunesExactly (s : BlockData n) (c : Call n) : Prop :=
  match c.op with
  | .insert b (some ins) => ∀ scheme, s.getSchemeForInsertion b ins c.cntlr = .ok scheme →
      s.InsertExact b (Line.ofPtr ins) scheme
  | .insert _ none => False
  | .write b a (some wr) => ∀ scheme, s.getSchemeForWrite b a wr c.cntlr = .ok scheme →
      s.WriteExact b (s.written b a wr) scheme
  | .write _ _ none => s.scheme ≠ .uncompressed →
      ∀ v, Lives s.scheme s.valid s.data v → Lives .scheme1 s.valid s.data v
  | .read .. => True
  | .evict b => s.EvictExact b
  | .invalidate b => s.InvalidateExact b

theorem dictionaryLive_uncompressed {s : BlockData n} (hs : s.scheme = .uncompressed) :
    s.DictionaryLive := fun hne => absurd hs hne

theorem insert_live_iff {o : Order} {s s' : BlockData n} {b : BlockId} {ins : Ptr}
    {k k' : CompressionCntlr} (inv : s.Inv) (hsingle : s.Single) (hlive : s.DictionaryLive)
    (hk : k.shouldPruneDISHEntries = true) (h : s.insertBlockData o b (some ins) k = .ok (s', k')) :
    s'.DictionaryLive ↔ ∀ scheme, s.getSchemeForInsertion b ins k = .ok scheme →
      s.InsertExact b (Line.ofPtr ins) scheme := by
  obtain ⟨hb, c, u, hget, hst, hcomp⟩ := insertBlockData_some inv h
  obtain ⟨hsch, hc, hval, hdata, -⟩ := hst.spec inv
  obtain ⟨hsch', hval', hdata', -⟩ := compactIfPruning_spec hcomp
  have hone : (∀ scheme, s.getSchemeForInsertion b ins k = .ok scheme →
      s.InsertExact b (Line.ofPtr ins) scheme) ↔ s.InsertExact b (Line.ofPtr ins) c := by
    rw [hget]
    exact ⟨fun hall => hall c rfl, fun hone scheme heq => Except.ok.inj heq ▸ hone⟩
  rw [hone]
  have hscheme : s'.scheme = c := hsch'.trans hsch
  have hvalid : s'.valid = Function.update s.valid b true := by rw [hval', setValid_valid, hval]
  have hlines : s'.data = Function.update s.data b (Line.ofPtr ins) := hdata'.trans hdata
  by_cases hu : c = .uncompressed
  · exact ⟨fun _ hne => absurd hu hne, fun _ => dictionaryLive_uncompressed (hscheme.trans hu)⟩
  · have hvals := compact_vals hk (setValid_isValid u b) (by rw [setValid_scheme, hsch]; exact hu)
      hcomp
    have hafter : ∀ v, v ∈ s'.table.vals ↔ v ∈ s.neededKeys c b (Line.ofPtr ins) ∧
        Lives .scheme1 (Function.update s.valid b true)
          (Function.update s.data b (Line.ofPtr ins)) v := by
      intro v
      rw [hvals v, setValid_table, setValid_valid, setValid_data, hval, hdata, hst.vals inv hu]
    have hexact : s'.DictionaryLive ↔ ∀ v, v ∈ s'.table.vals ↔
        Lives c (Function.update s.valid b true) (Function.update s.data b (Line.ofPtr ins)) v := by
      rw [DictionaryLive, hscheme, hvalid, hlines]
      exact ⟨fun hall => hall hu, fun hall _ => hall⟩
    rw [hexact, InsertExact]
    simp only [hafter]
    -- what was encoded: everything needed, unless the scheme changed and the new line was left out
    by_cases hkept : s.scheme = .uncompressed ∨ s.scheme = c
    · have hneeded : ∀ v, v ∈ s.neededKeys c b (Line.ofPtr ins) ↔ Lives c
          (Function.update s.valid b true) (Function.update s.data b (Line.ofPtr ins)) v := by
        intro v
        rw [lives_insert hb]
        rcases hkept with hunc | hsame
        · have hv : s.isValid = true := by
            rcases getSchemeForInsertion_cases hget hc with ⟨-, hu'⟩ | ⟨hv, -⟩
            · exact absurd hu' hu
            · exact hv
          rw [neededKeys_uncompressed hu hunc hv, List.mem_toFinset, List.mem_append,
            mem_uncompressedChunks hunc hsingle hv hb]
        · rw [neededKeys_keep hsame, Finset.mem_union, List.mem_toFinset,
            hlive (by rw [hsame]; exact hu) v, hsame]
      simp only [hneeded, and_iff_left_iff_imp]
      constructor
      · intro hall _
        refine ⟨hall, fun hne hchange => ?_⟩
        rcases hkept with hunc | hsame
        · exact absurd hunc hne
        · exact absurd hsame.symm hchange
      · intro hall
        exact (hall hu).1
    · have hne : s.scheme ≠ .uncompressed := fun h => hkept (.inl h)
      have hchange : s.scheme ≠ c := fun h => hkept (.inr h)
      have hneeded : ∀ v, v ∈ s.neededKeys c b (Line.ofPtr ins) ↔ Lives c s.valid s.data v := by
        intro v
        rw [neededKeys_change hchange hne, validKeys_update hb, mem_validKeys]
      simp only [hneeded, lives_insert hb]
      constructor
      · intro hall _
        refine ⟨fun v hv => ((hall v).mpr hv).2, fun _ _ v hv => ((hall v).mpr (.inr hv)).1⟩
      · intro hall v
        obtain ⟨hchunks, hfound⟩ := hall hu
        refine ⟨fun hv => .inl hv.1, fun hv => ⟨?_, hchunks v hv⟩⟩
        rcases hv with hv | hv
        · exact hv
        · exact hfound hne (Ne.symm hchange) v hv

theorem write_live_iff {o : Order} {s s' : BlockData n} {b : BlockId} {a : Slice n} {wr : Ptr}
    {k k' : CompressionCntlr} (inv : s.Inv) (hlive : s.DictionaryLive)
    (hk : k.shouldPruneDISHEntries = true) (h : s.writeBlockData o b a (some wr) k = .ok (s', k')) :
    s'.DictionaryLive ↔ ∀ scheme, s.getSchemeForWrite b a wr k = .ok scheme →
      s.WriteExact b (s.written b a wr) scheme := by
  obtain ⟨hb, c, u, hget, hst, hcomp⟩ := writeBlockData_some inv h
  obtain ⟨hsch, hc, hval, hdata, -⟩ := hst.spec inv
  obtain ⟨hsch', hval', hdata', -⟩ := compactIfPruning_spec hcomp
  have hone : (∀ scheme, s.getSchemeForWrite b a wr k = .ok scheme →
      s.WriteExact b (s.written b a wr) scheme) ↔ s.WriteExact b (s.written b a wr) c := by
    rw [hget]
    exact ⟨fun hall => hall c rfl, fun hone scheme heq => Except.ok.inj heq ▸ hone⟩
  rw [hone]
  have hscheme : s'.scheme = c := hsch'.trans hsch
  have hvalid : s'.valid = s.valid := hval'.trans hval
  have hlines : s'.data = Function.update s.data b (s.written b a wr) := hdata'.trans hdata
  by_cases hu : c = .uncompressed
  · exact ⟨fun _ hne => absurd hu hne, fun _ => dictionaryLive_uncompressed (hscheme.trans hu)⟩
  · have hne : s.scheme ≠ .uncompressed := by
      rcases getSchemeForWrite_cases hget hc with ⟨-, ⟨-, hu'⟩ | ⟨hne, -⟩⟩
      · exact absurd hu' hu
      · exact hne
    have hvals := compact_vals hk (isValid_of_valid (by rw [hval]; exact hb))
      (by rw [hsch]; exact hu) hcomp
    have hafter : ∀ v, v ∈ s'.table.vals ↔ v ∈ s.neededKeys c b (s.written b a wr) ∧
        Lives .scheme1 s.valid (Function.update s.data b (s.written b a wr)) v := by
      intro v
      rw [hvals v, hval, hdata, hst.vals inv hu]
    have hexact : s'.DictionaryLive ↔ ∀ v, v ∈ s'.table.vals ↔
        Lives c s.valid (Function.update s.data b (s.written b a wr)) v := by
      rw [DictionaryLive, hscheme, hvalid, hlines]
      exact ⟨fun hall => hall hu, fun hall _ => hall⟩
    rw [hexact, WriteExact]
    simp only [hafter]
    by_cases hsame : s.scheme = c
    · -- the values of the old line are still there before the pruning
      have hneeded : ∀ v, v ∈ s.neededKeys c b (s.written b a wr) ↔
          Lives c s.valid s.data v ∨ v ∈ (s.written b a wr).keys c := by
        intro v
        rw [neededKeys_keep hsame, Finset.mem_union, List.mem_toFinset, hlive hne v, hsame]
      have hnew : ∀ v ∈ (s.written b a wr).keys c,
          Lives c s.valid (Function.update s.data b (s.written b a wr)) v :=
        fun v hv => ⟨b, hb, by simpa using hv⟩
      simp only [hneeded]
      constructor
      · intro hall _
        exact ⟨fun v hv => ((hall v).mpr hv).2, fun _ v hold hwhole => (hall v).mp ⟨.inl hold, hwhole⟩⟩
      · intro hall v
        obtain ⟨hchunks, hdead⟩ := hall hu
        refine ⟨fun hv => ?_, fun hv => ⟨lives_of_write hv, hchunks v hv⟩⟩
        rcases hv.1 with hold | hnew'
        · exact hdead hsame.symm v hold hv.2
        · exact hnew v hnew'
    · have hneeded : ∀ v, v ∈ s.neededKeys c b (s.written b a wr) ↔
          Lives c s.valid (Function.update s.data b (s.written b a wr)) v := by
        intro v
        rw [neededKeys_change hsame hne, mem_validKeys]
      simp only [hneeded, and_iff_left_iff_imp]
      exact ⟨fun hall _ => ⟨hall, fun heq => absurd heq.symm hsame⟩, fun hall => (hall hu).1⟩

theorem writeNull_live_iff {o : Order} {s s' : BlockData n} {b : BlockId} {a : Slice n}
    {k k' : CompressionCntlr} (inv : s.Inv) (hlive : s.DictionaryLive)
    (hk : k.shouldPruneDISHEntries = true) (h : s.writeBlockData o b a none k = .ok (s', k')) :
    s'.DictionaryLive ↔ (s.scheme ≠ .uncompressed →
      ∀ v, Lives s.scheme s.valid s.data v → Lives .scheme1 s.valid s.data v) := by
  have hcomp := writeBlockData_none h
  obtain ⟨hsch, hval, hdata, -⟩ := compactIfPruning_spec hcomp
  rw [DictionaryLive, hsch, hval, hdata]
  by_cases hs : s.scheme = .uncompressed
  · exact ⟨fun _ hne => absurd hs hne, fun _ hne => absurd hs hne⟩
  · have hv : s.isValid = true := by
      by_contra hv
      exact hs (inv.empty_uncompressed (eq_false_of_ne_true hv))
    simp only [compact_vals hk hv hs hcomp, hlive hs, and_iff_left_iff_imp]

theorem dropBlock_kept {s : BlockData n} {b : BlockId}
    (h : ∃ b', Function.update s.valid b false b' = true) (k : CompressionCntlr) :
    s.dropBlock b k = ((s.setValid b false).setData b .zero, k) := by
  have hv : ((s.setValid b false).setData b .zero).isValid = true := isValid_iff.mpr h
  simp [dropBlock, hv]

theorem dropBlock_emptied {s : BlockData n} {b : BlockId}
    (h : ¬∃ b', Function.update s.valid b false b' = true) (k : CompressionCntlr) :
    (s.dropBlock b k).1.scheme = .uncompressed ∧ (s.dropBlock b k).1.isValid = false := by
  have hv : ((s.setValid b false).setData b .zero).isValid = false := by
    rw [← Bool.not_eq_true, isValid_iff]
    exact h
  simp only [dropBlock, hv, Bool.not_false, if_true]
  exact ⟨rfl, hv⟩

theorem invalidate_live_iff {s : BlockData n} {b : BlockId} (k : CompressionCntlr)
    (hlive : s.DictionaryLive) :
    (s.invalidateBlockData b k).1.DictionaryLive ↔ s.InvalidateExact b := by
  rw [invalidateBlockData]
  by_cases hleft : ∃ b', Function.update s.valid b false b' = true
  · rw [dropBlock_kept hleft]
    constructor
    · intro hafter hs _ v hv
      exact lives_blanked.mp ((hafter hs v).mp ((hlive hs v).mpr hv))
    · intro hexact hs v
      refine ((hlive hs v).trans ⟨hexact hs hleft v, lives_drop⟩).trans lives_blanked.symm
  · have hunc := (dropBlock_emptied hleft k).1
    exact ⟨fun _ _ h => absurd h hleft, fun _ => dictionaryLive_uncompressed hunc⟩

theorem evict_live_iff {s s' : BlockData n} {b : BlockId} {line : Line n} {k k' : CompressionCntlr}
    (hlive : s.DictionaryLive) (hk : k.shouldPruneDISHEntries = true)
    (h : s.evictBlockData b k = .ok (line, s', k')) : s'.DictionaryLive ↔ s.EvictExact b := by
  simp only [evictBlockData, except_bind_eq_ok, check_ok] at h
  obtain ⟨-, -, h⟩ := h
  by_cases hleft : ∃ b', Function.update s.valid b false b' = true
  · have hv : ((s.setValid b false).setData b .zero).isValid = true := isValid_iff.mpr hleft
    simp only [dropBlock_kept hleft, hv, if_true, except_bind_eq_ok, pure_eq_ok, Prod.mk.injEq] at h
    obtain ⟨u, hcomp, -, rfl, -⟩ := h
    obtain ⟨hsch, hval, hdata, -⟩ := compactIfPruning_spec hcomp
    have hexact : u.DictionaryLive ↔ (s.scheme ≠ .uncompressed → ∀ v, v ∈ u.table.vals ↔
        Lives s.scheme (Function.update s.valid b false) s.data v) := by
      rw [DictionaryLive, hsch, hval, hdata]
      simp only [setData_scheme, setValid_scheme, setData_valid, setValid_valid, setData_data,
        setValid_data, lives_blanked]
    rw [hexact, EvictExact]
    refine imp_congr_right fun hs => ?_
    have hvals : ∀ v, v ∈ u.table.vals ↔ Lives s.scheme s.valid s.data v ∧
        Lives .scheme1 (Function.update s.valid b false) s.data v := by
      intro v
      rw [compact_vals hk hv hs hcomp v]
      simp only [setData_table, setValid_table, setData_valid, setValid_valid, setData_data,
        setValid_data, lives_blanked, hlive hs v]
    simp only [hvals]
    constructor
    · intro hall
      exact ⟨fun v hv => ((hall v).mpr hv).2, fun v hold hwhole => (hall v).mp ⟨hold, hwhole⟩⟩
    · rintro ⟨hchunks, hdead⟩ v
      exact ⟨fun hv => hdead v hv.1 hv.2, fun hv => ⟨lives_drop hv, hchunks v hv⟩⟩
  · obtain ⟨hunc, hempty⟩ := dropBlock_emptied hleft k
    simp only [hempty, Bool.false_eq_true, if_false, pure_eq_ok, Prod.mk.injEq] at h
    obtain ⟨-, rfl, -⟩ := h
    have hnone : ∀ c v, ¬Lives c (Function.update s.valid b false) s.data v := by
      rintro c v ⟨b', hb', -⟩
      exact hleft ⟨b', hb'⟩
    refine ⟨fun _ _ => ⟨fun v hv => absurd hv (hnone _ v), fun v _ hv => absurd hv (hnone _ v)⟩,
      fun _ => dictionaryLive_uncompressed hunc⟩

/-! ### Runs -/

theorem perform_single {s s' : BlockData n} {c : Call n} {out : Option (Line n)} (inv : s.Inv)
    (hsingle : s.Single) (hdata : ∀ b, c.op ≠ .insert b none)
    (hstep : s.perform c = .ok (out, s')) : s'.Single := by
  obtain ⟨op, k, o⟩ := c
  have hdrop : ∀ b k, (s.dropBlock b k).1.Single := by
    intro b k hs b1 b2 h1 h2
    obtain ⟨-, hval, -⟩ := dropBlock_spec b k inv
    rw [hval] at h1 h2
    have hne : ∀ b', Function.update s.valid b false b' = true → b' ≠ b ∧ s.valid b' = true := by
      intro b' hb'
      have hbb : b' ≠ b := by
        rintro rfl
        simp at hb'
      exact ⟨hbb, by rwa [Function.update_of_ne hbb] at hb'⟩
    have hkept := dropBlock_kept ⟨b1, h1⟩ k
    rw [hkept] at hs
    exact hsingle hs b1 b2 (hne b1 h1).2 (hne b2 h2).2
  cases op with
  | insert b ins =>
    simp only [perform, except_bind_eq_ok, pure_eq_ok, Prod.mk.injEq] at hstep
    obtain ⟨-, -, -, -, ⟨u, k'⟩, hins, -, rfl⟩ := hstep
    cases ins with
    | none => exact absurd rfl (hdata b)
    | some ins =>
      obtain ⟨hb, c, w, hget, hst, hcomp⟩ := insertBlockData_some inv hins
      obtain ⟨hsch, hc, hval, -, -⟩ := hst.spec inv
      obtain ⟨hsch', hval', -, -⟩ := compactIfPruning_spec hcomp
      intro hs b1 b2 h1 h2
      have hu : c = .uncompressed := by rw [← hsch, ← hs, hsch', setValid_scheme]
      rcases getSchemeForInsertion_cases hget hc with ⟨hempty, -⟩ | ⟨-, -, hu', -⟩
      · have honly : ∀ b', u.valid b' = true → b' = b := by
          intro b' hb'
          by_contra hbb
          rw [hval', setValid_valid, hval, Function.update_of_ne hbb,
            isValid_eq_false.mp hempty b'] at hb'
          cases hb'
        rw [honly b1 h1, honly b2 h2]
      · exact absurd hu hu'
  | write b a wr =>
    simp only [perform, except_bind_eq_ok, pure_eq_ok, Prod.mk.injEq] at hstep
    obtain ⟨-, -, -, -, ⟨u, k'⟩, hwr, -, rfl⟩ := hstep
    intro hs b1 b2 h1 h2
    have hval := (writeBlockData_spec inv hwr).2.1
    rw [hval] at h1 h2
    refine hsingle ?_ b1 b2 h1 h2
    cases wr with
    | none =>
      obtain ⟨hsch, -⟩ := compactIfPruning_spec (writeBlockData_none hwr)
      rw [← hsch]
      exact hs
    | some wr =>
      obtain ⟨-, c, w, hget, hst, hcomp⟩ := writeBlockData_some inv hwr
      obtain ⟨hsch, hc, -, -, -⟩ := hst.spec inv
      obtain ⟨hsch', -⟩ := compactIfPruning_spec hcomp
      rcases getSchemeForWrite_cases hget hc with ⟨-, ⟨hs', -⟩ | ⟨-, hu, -⟩⟩
      · exact hs'
      · exact absurd (by rw [← hsch, ← hsch', hs]) hu
  | read b a rd =>
    simp only [perform, except_bind_eq_ok, pure_eq_ok, Prod.mk.injEq] at hstep
    obtain ⟨-, -, -, rfl⟩ := hstep
    exact hsingle
  | evict b =>
    simp only [perform, except_bind_eq_ok, pure_eq_ok, Prod.mk.injEq, evictBlockData, check_ok] at hstep
    obtain ⟨⟨line, u, k'⟩, ⟨-, -, hev⟩, -, rfl⟩ := hstep
    split at hev
    · simp only [except_bind_eq_ok, pure_eq_ok, Prod.mk.injEq] at hev
      obtain ⟨w, hcomp, -, rfl, -⟩ := hev
      obtain ⟨hsch, hval, -, -⟩ := compactIfPruning_spec hcomp
      intro hs b1 b2 h1 h2
      rw [hsch] at hs
      rw [hval] at h1 h2
      exact hdrop b k hs b1 b2 h1 h2
    · simp only [pure_eq_ok, Prod.mk.injEq] at hev
      obtain ⟨-, rfl, -⟩ := hev
      exact hdrop b k
  | invalidate b =>
    simp only [perform, pure_eq_ok, Prod.mk.injEq] at hstep
    obtain ⟨-, rfl⟩ := hstep
    exact hdrop b k

theorem perform_live_iff {s s' : BlockData n} {c : Call n} {out : Option (Line n)} (inv : s.Inv)
    (hsingle : s.Single) (hlive : s.DictionaryLive) (hk : c.cntlr.shouldPruneDISHEntries = true)
    (hdata : ∀ b, c.op ≠ .insert b none) (hstep : s.perform c = .ok (out, s')) :
    s'.DictionaryLive ↔ s.PrunesExactly c := by
  obtain ⟨op, k, o⟩ := c
  cases op with
  | insert b ins =>
    simp only [perform, except_bind_eq_ok, pure_eq_ok, Prod.mk.injEq] at hstep
    obtain ⟨-, -, -, -, ⟨u, k'⟩, hins, -, rfl⟩ := hstep
    cases ins with
    | none => exact absurd rfl (hdata b)
    | some ins => exact insert_live_iff inv hsingle hlive hk hins
  | write b a wr =>
    simp only [perform, except_bind_eq_ok, pure_eq_ok, Prod.mk.injEq] at hstep
    obtain ⟨-, -, -, -, ⟨u, k'⟩, hwr, -, rfl⟩ := hstep
    cases wr with
    | none => exact writeNull_live_iff inv hlive hk hwr
    | some wr => exact write_live_iff inv hlive hk hwr
  | read b a rd =>
    simp only [perform, except_bind_eq_ok, pure_eq_ok, Prod.mk.injEq] at hstep
    obtain ⟨-, -, -, rfl⟩ := hstep
    exact ⟨fun _ => trivial, fun _ => hlive⟩
  | evict b =>
    simp only [perform, except_bind_eq_ok, pure_eq_ok, Prod.mk.injEq] at hstep
    obtain ⟨⟨line, u, k'⟩, hev, -, rfl⟩ := hstep
    exact evict_live_iff hlive hk hev
  | invalidate b =>
    simp only [perform, pure_eq_ok, Prod.mk.injEq] at hstep
    obtain ⟨-, rfl⟩ := hstep
    exact invalidate_live_iff k hlive

/-- With pruning, along a run of calls that prune exactly, the dictionary holds in every state the
values that some valid block needs and no others; a call that does not prune exactly ends this. -/
theorem pruning_exact {tr : List (Call n × Option (Line n))} {s : BlockData n}
    (h : Run (machine n)
      (fun s c => c.cntlr.shouldPruneDISHEntries = true ∧ s.PrunesExactly c) tr s) :
    s.DictionaryLive ∧ ∀ c out s', c.cntlr.shouldPruneDISHEntries = true →
      (∀ b, c.op ≠ .insert b none) → s.perform c = .ok (out, s') →
      (s'.DictionaryLive ↔ s.PrunesExactly c) := by
  have hall : s.Inv ∧ s.Single ∧ s.DictionaryLive := by
    refine h.invariant (I := fun s => s.Inv ∧ s.Single ∧ s.DictionaryLive) ?_ ?_
    · rintro s rfl
      exact ⟨inv_fresh, coded_fresh.single, dictionaryLive_uncompressed rfl⟩
    · rintro s c out s' ⟨inv, hsingle, hlive⟩ ⟨hk, hexact⟩ hstep
      have hdata : ∀ b, c.op ≠ .insert b none := by
        intro b hop
        simp [PrunesExactly, hop] at hexact
      exact ⟨perform_inv inv hstep, perform_single inv hsingle hdata hstep,
        (perform_live_iff inv hsingle hlive hk hdata hstep).mpr hexact⟩
  obtain ⟨inv, hsingle, hlive⟩ := hall
  exact ⟨hlive, fun c out s' hk hdata hstep => perform_live_iff inv hsingle hlive hk hdata hstep⟩

/-- Two blank lines, with pruning: SCHEME1 with the one value zero. -/
theorem pruning_exact_twoBlankLines : ∃ s : BlockData 64, s.scheme = .scheme1 ∧
    s.valid 1 = true ∧ ∀ v, v ∈ s.table.vals ↔ Lives .scheme1 s.valid s.data v := by
  let blank (b : BlockId) : Call 64 := ⟨.insert b (some fun _ => 0), sampleCntlr false true, .greatest⟩
  have heval : Outcome.test (fresh.perform (blank 0)) (fun r => r.2.scheme == .uncompressed &&
      Outcome.test (r.2.getSchemeForInsertion 1 (fun _ => 0) (sampleCntlr false true))
        (· == .scheme1) &&
      Outcome.test (r.2.perform (blank 1)) fun r => r.2.scheme == .scheme1 && r.2.valid 1) = true := by
    decide
  have hfirst : Outcome.test ((fresh : BlockData 64).getSchemeForInsertion 0 (fun _ => 0)
      (sampleCntlr false true)) (· == .uncompressed) = true := by
    rfl
  obtain ⟨c0, hc0, hunc⟩ := Outcome.test_eq_true hfirst
  obtain ⟨⟨out1, s1⟩, h1, heval⟩ := Outcome.test_eq_true heval
  simp only [Bool.and_eq_true, beq_iff_eq] at heval
  obtain ⟨⟨hs1, hget⟩, heval⟩ := heval
  obtain ⟨c1, hc1, hget⟩ := Outcome.test_eq_true hget
  obtain ⟨⟨out2, s2⟩, h2, heval⟩ := Outcome.test_eq_true heval
  simp only [Bool.and_eq_true, beq_iff_eq] at heval hget hunc
  have hstart : Run (machine 64)
      (fun s c => c.cntlr.shouldPruneDISHEntries = true ∧ s.PrunesExactly c) [] fresh := .start rfl
  have hexact0 : (fresh : BlockData 64).PrunesExactly (blank 0) := by
    intro c hc hne
    rw [hc0, hunc] at hc
    exact absurd (Except.ok.inj hc).symm hne
  have hexact1 : s1.PrunesExactly (blank 1) := by
    intro c hc _
    rw [hc1, hget] at hc
    obtain rfl := Except.ok.inj hc
    exact ⟨fun _ hv => hv, fun hne => absurd hs1 hne⟩
  have hrun := (hstart.next (i := blank 0) ⟨rfl, hexact0⟩ h1).next (i := blank 1) ⟨rfl, hexact1⟩ h2
  refine ⟨s2, heval.1, heval.2, fun v => ?_⟩
  have hlive := (pruning_exact hrun).1 (by rw [heval.1]; decide) v
  rwa [heval.1] at hlive

/-- The upper part of sixteen chunks is not among the chunks, and its entry goes. -/
theorem pruning_removes_live_value :
    ¬∀ tr (s : BlockData 64), Run (machine 64)
      (fun _ c => c.cntlr.shouldPruneDISHEntries = true ∧ NonNull c) tr s → s.DictionaryLive := by
  intro hall
  have heval : Outcome.test (fresh.performAll prunedUppers) (fun s => s.valid 0 &&
      s.scheme == .scheme2 && ((s.data 0).keys .scheme2).contains 2 && s.table.lookup 2 == none) =
        true := by
    rfl
  obtain ⟨s, hs, heval⟩ := Outcome.test_eq_true heval
  simp only [Bool.and_eq_true, beq_iff_eq, List.contains_iff_mem] at heval
  obtain ⟨⟨⟨hvalid, hscheme⟩, hkey⟩, hnone⟩ := heval
  obtain ⟨tr, -, hrun⟩ := performAll_run
    (fun _ c => c.cntlr.shouldPruneDISHEntries = true ∧ NonNull c)
    (by simp [prunedUppers, NonNull, sampleCntlr, CompressionCntlr.shouldPruneDISHEntries])
    (.start rfl) hs
  have hlive := hall tr s hrun (by rw [hscheme]; decide) 2
  rw [hscheme] at hlive
  exact PtrTable.lookup_eq_none.mp hnone (hlive.mpr ⟨0, hvalid, hkey⟩)

end BlockData

end Sniper.Cache
