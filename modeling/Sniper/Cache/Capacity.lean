import Sniper.Cache.Counters
import Sniper.Cache.Placement
set_option autoImplicit false
set_option linter.dupNamespace false

/-! How many lines a way holds. -/

namespace Sniper.Cache
open Sniper.Lib Dish

variable {n assoc : Nat}

namespace BlockData

variable {s s' : BlockData n} {k k' : CompressionCntlr} {b : BlockId} {o : Order}

/-- An insertion leaves a superblock uncompressed only if it was so, and one that brings data only
if it found the superblock empty. -/
theorem insertBlockData_uncompressed {ins : Option Ptr} (inv : s.Inv)
    (h : s.insertBlockData o b ins k = .ok (s', k')) (hs : s'.scheme = .uncompressed) :
    s.scheme = .uncompressed ∧ (ins.isSome = true → s.isValid = false) := by
  cases ins with
  | none =>
    rw [compactIfPruning_scheme (insertBlockData_none h).2, setValid_scheme] at hs
    exact ⟨hs, fun hn => by cases hn⟩
  | some p =>
    obtain ⟨-, c, u, hget, hst, hcomp⟩ := insertBlockData_some inv h
    obtain ⟨hsch, hc, -⟩ := hst.spec inv
    rw [compactIfPruning_scheme hcomp, setValid_scheme, hsch] at hs
    subst hs
    rcases getSchemeForInsertion_cases hget hc with ⟨hempty, -⟩ | ⟨-, -, hne, -⟩
    · exact ⟨inv.empty_uncompressed hempty, fun _ => hempty⟩
    · exact absurd rfl hne

/-- Without compression an insertion stays uncompressed. -/
theorem insertBlockData_raw {ins : Option Ptr} (inv : s.Inv) (hk : k.canCompress = false)
    (hs : s.scheme = .uncompressed) (h : s.insertBlockData o b ins k = .ok (s', k')) :
    s'.scheme = .uncompressed := by
  cases ins with
  | none => rw [compactIfPruning_scheme (insertBlockData_none h).2, setValid_scheme, hs]
  | some p =>
    obtain ⟨-, c, u, hget, hst, hcomp⟩ := insertBlockData_some inv h
    obtain ⟨hsch, hc, -⟩ := hst.spec inv
    rw [compactIfPruning_scheme hcomp, setValid_scheme, hsch]
    cases hv : s.isValid with
    | true =>
      simp only [getSchemeForInsertion, hk, hv, Bool.false_eq_true, if_false, if_true,
        Except.ok.injEq] at hget
      exact absurd hget.symm hc
    | false =>
      simp only [getSchemeForInsertion, hk, hv, Bool.false_eq_true, if_false,
        Except.ok.injEq] at hget
      exact hget.symm

/-- A write keeps an uncompressed superblock uncompressed, and a compressed one compressed. -/
theorem writeBlockData_uncompressed_iff {a : Slice n} {wr : Option Ptr} (inv : s.Inv)
    (h : s.writeBlockData o b a wr k = .ok (s', k')) :
    s'.scheme = .uncompressed ↔ s.scheme = .uncompressed := by
  cases wr with
  | none => rw [compactIfPruning_scheme (writeBlockData_none h)]
  | some p =>
    obtain ⟨-, c, u, hget, hst, hcomp⟩ := writeBlockData_some inv h
    obtain ⟨hsch, hc, -⟩ := hst.spec inv
    rw [compactIfPruning_scheme hcomp, hsch]
    rcases (getSchemeForWrite_cases hget hc).2 with ⟨hs, rfl⟩ | ⟨hs, hne, -⟩
    · simp [hs]
    · simp [hs, hne]

/-- Dropping a block leaves the scheme alone or the superblock empty and uncompressed. -/
theorem dropBlock_scheme (s : BlockData n) (b : BlockId) (k : CompressionCntlr) :
    (s.dropBlock b k).1.scheme = s.scheme ∨
      ((s.dropBlock b k).1.scheme = .uncompressed ∧ (s.dropBlock b k).1.isValid = false) := by
  simp only [dropBlock]
  split
  · rename_i hv
    rw [Bool.not_eq_true'] at hv
    exact .inr ⟨changeScheme_scheme _ _, hv⟩
  · exact .inl rfl

theorem evictBlockData_scheme {line : Line n} (h : s.evictBlockData b k = .ok (line, s', k')) :
    s'.scheme = s.scheme ∨ (s'.scheme = .uncompressed ∧ s'.isValid = false) := by
  have hdrop := dropBlock_scheme s b k
  simp only [evictBlockData, except_bind_eq_ok] at h
  obtain ⟨-, -, h⟩ := h
  split at h
  · rename_i hv
    simp only [except_bind_eq_ok, pure_eq_ok, Prod.mk.injEq] at h
    obtain ⟨u, hu, -, rfl, -⟩ := h
    rw [compactIfPruning_scheme hu]
    rcases hdrop with hs | ⟨-, hempty⟩
    · exact .inl hs
    · rw [hempty] at hv
      cases hv
  · simp only [pure_eq_ok, Prod.mk.injEq] at h
    obtain ⟨-, rfl, -⟩ := h
    exact hdrop

/-- A valid block of an uncompressed superblock takes every write in place. -/
theorem canWriteBlockData_uncompressed {a : Slice n} {wr : Option Ptr} {accepted : Bool}
    (hs : s.scheme = .uncompressed) (hb : s.valid b = true)
    (h : s.canWriteBlockData b a wr k = .ok accepted) : accepted = true := by
  simp only [canWriteBlockData, except_bind_eq_ok, hb, Bool.not_true, Bool.false_eq_true, if_false] at h
  obtain ⟨-, -, h⟩ := h
  cases wr with
  | none => exact (pure_eq_ok.mp h).symm
  | some p =>
    simp only [getSchemeForWrite, isValid_of_valid hb, hb, hs, Bool.not_true, Bool.or_self,
      Bool.false_eq_true, if_false, except_bind_eq_ok, Except.ok.injEq, pure_eq_ok] at h
    obtain ⟨c, rfl, h⟩ := h
    exact h.symm.trans (by decide)

end BlockData

/-- If the data of a way is uncompressed, the way holds one line at most. -/
def Way.HoldsOne (v : Way n) : Prop :=
  v.data.scheme = .uncompressed →
    ∀ b b', v.info.isValidAt b = true → v.info.isValidAt b' = true → b = b'

/-- A way of a cache that compresses or not: a valid tag has data behind it, and uncompressed data
is behind one tag at most. -/
structure Way.Fits (compressible : Bool) (v : Way n) : Prop where
  inv : v.data.Inv
  backed : ∀ b, v.info.isValidAt b = true → v.data.valid b = true
  single : v.HoldsOne
  raw : compressible = false → v.data.scheme = .uncompressed

namespace Way

variable {compressible : Bool} {v v' : Way n}

theorem fresh_fits : (Way.fresh : Way n).Fits compressible where
  inv := BlockData.inv_fresh
  backed b hb := by simp [Way.fresh, SuperblockInfo.fresh, SuperblockInfo.isValidAt] at hb
  single _ b b' hb := by simp [Way.fresh, SuperblockInfo.fresh, SuperblockInfo.isValidAt] at hb
  raw _ := rfl

theorem Fits.not_isValidAt (h : v.Fits compressible) (hv : v.data.isValid = false) (b : BlockId) :
    v.info.isValidAt b = false := by
  by_contra hb
  rw [Bool.not_eq_false] at hb
  have hdata := h.backed b hb
  rw [BlockData.isValid_eq_false.mp hv b] at hdata
  cases hdata

/-- A way that lost lines and kept its scheme, or was emptied. -/
theorem Fits.shrink (h : v.Fits compressible) (inv : v'.data.Inv)
    (hinfo : ∀ b, v'.info.isValidAt b = true → v.info.isValidAt b = true)
    (hbacked : ∀ b, v'.info.isValidAt b = true → v'.data.valid b = true)
    (hscheme : v'.data.scheme = v.data.scheme ∨
      (v'.data.scheme = .uncompressed ∧ v'.data.isValid = false)) : v'.Fits compressible where
  inv := inv
  backed := hbacked
  single hs b b' hb hb' := by
    rcases hscheme with hsame | ⟨-, hempty⟩
    · exact h.single (hsame ▸ hs) b b' (hinfo b hb) (hinfo b' hb')
    · have hdata := hbacked b hb
      rw [BlockData.isValid_eq_false.mp hempty b] at hdata
      cases hdata
  raw hc := by
    rcases hscheme with hsame | ⟨hs, -⟩
    · rw [hsame]
      exact h.raw hc
    · exact hs

end Way

namespace SuperblockInfo

variable {s s' : SuperblockInfo} {b : BlockId}

theorem insertBlockInfo_isValidAt (s : SuperblockInfo) (supertag : Addr) (b : BlockId)
    (i : CacheBlockInfo) (b' : BlockId) : (s.insertBlockInfo supertag b i).isValidAt b' =
      if b' = b then i.isValid else s.isValidAt b' := by
  by_cases hb : b' = b
  · subst hb
    simp [insertBlockInfo, isValidAt]
  · simp [insertBlockInfo, isValidAt, hb]

theorem evictBlockInfo_isValidAt (s : SuperblockInfo) (b b' : BlockId) :
    (s.evictBlockInfo b).2.isValidAt b' = if b' = b then false else s.isValidAt b' := by
  by_cases hb : b' = b
  · subst hb
    simp [evictBlockInfo, isValidAt]
  · simp [evictBlockInfo, isValidAt, hb]

theorem invalidateBlockInfo_isValidAt {tag : Addr} (h : s.invalidateBlockInfo tag b = .ok s')
    (b' : BlockId) : s'.isValidAt b' = if b' = b then false else s.isValidAt b' := by
  unfold invalidateBlockInfo at h
  split at h
  · cases h
  · simp only [except_bind_eq_ok, pure_eq_ok] at h
    obtain ⟨-, -, rfl⟩ := h
    by_cases hb : b' = b
    · subst hb
      simp [isValidAt, CacheBlockInfo.invalidate, CacheBlockInfo.isValid]
    · simp [isValidAt, hb]

end SuperblockInfo

namespace CacheSet

variable {compressible : Bool} {v v' : Way n} {b : BlockId} {k k' : CompressionCntlr}

/-- Dropping a block from both sides of a way. -/
theorem fits_drop {info : SuperblockInfo} {data : BlockData n} (h : v.Fits compressible)
    (hinfo : ∀ b', info.isValidAt b' = if b' = b then false else v.info.isValidAt b')
    (inv : data.Inv) (hvalid : data.valid = Function.update v.data.valid b false)
    (hscheme : data.scheme = v.data.scheme ∨
      (data.scheme = .uncompressed ∧ data.isValid = false)) :
    (⟨info, data⟩ : Way n).Fits compressible := by
  refine h.shrink inv (fun b' hb' => ?_) (fun b' hb' => ?_) hscheme
  · rw [hinfo] at hb'
    split at hb'
    · cases hb'
    · exact hb'
  · rw [hinfo] at hb'
    split at hb'
    · cases hb'
    · rename_i hne
      simp only [hvalid, Function.update_of_ne hne]
      exact h.backed b' hb'

theorem evictBlock_fits {data : BlockData n} {line : Line n} (h : v.Fits compressible)
    (hev : v.data.evictBlockData b k = .ok (line, data, k')) :
    (⟨(v.info.evictBlockInfo b).2, data⟩ : Way n).Fits compressible := by
  obtain ⟨inv, -, -, hvalid, -⟩ := BlockData.evictBlockData_spec h.inv hev
  exact fits_drop h (v.info.evictBlockInfo_isValidAt b) inv hvalid
    (BlockData.evictBlockData_scheme hev)

theorem evictBlocks_fits {bs : List BlockId} {wbs : List (Writeback n)} (h : v.Fits compressible)
    (hev : evictBlocks v k bs = .ok (v', wbs, k')) :
    v'.Fits compressible ∧ k'.compressible = k.compressible := by
  induction bs generalizing v k wbs with
  | nil =>
    cases hev
    exact ⟨h, rfl⟩
  | cons b bs ih =>
    rw [evictBlocks] at hev
    split at hev
    · split at hev
      · cases hev
      · rename_i i info hinfo
        simp only [except_bind_eq_ok, pure_eq_ok, Prod.mk.injEq] at hev
        obtain ⟨⟨line, data, k₁⟩, hdata, ⟨u, wbs', k₂⟩, hrest, rfl, -, rfl⟩ := hev
        have hout := evictBlock_fits h hdata
        rw [hinfo] at hout
        obtain ⟨hfits, hk⟩ := ih hout hrest
        exact ⟨hfits, hk.trans (BlockData.evictBlockData_tracks hdata).compressible⟩
    · exact ih h hev

/-- What a way loses to the eviction loop: nothing, if it held nothing. -/
theorem evictBlocks_nil {bs : List BlockId} {wbs : List (Writeback n)}
    (h : ∀ b, v.info.isValidAt b = false) (hev : evictBlocks v k bs = .ok (v', wbs, k')) :
    wbs = [] := by
  induction bs with
  | nil =>
    cases hev
    rfl
  | cons b bs ih =>
    rw [evictBlocks, if_neg (by rw [h b]; decide)] at hev
    exact ih hev

/-- One line at most, if it held one at most. -/
theorem evictBlocks_length {bs : List BlockId} {wbs : List (Writeback n)}
    (h : ∀ b b', v.info.isValidAt b = true → v.info.isValidAt b' = true → b = b')
    (hev : evictBlocks v k bs = .ok (v', wbs, k')) : wbs.length ≤ 1 := by
  induction bs with
  | nil =>
    cases hev
    exact Nat.zero_le 1
  | cons b bs ih =>
    rw [evictBlocks] at hev
    split at hev
    · rename_i hb
      split at hev
      · cases hev
      · rename_i i info hinfo
        simp only [except_bind_eq_ok, pure_eq_ok, Prod.mk.injEq] at hev
        obtain ⟨⟨line, data, k₁⟩, -, ⟨u, wbs', k₂⟩, hrest, -, rfl, -⟩ := hev
        have hnone : ∀ b', (⟨info, data⟩ : Way n).info.isValidAt b' = false := by
          intro b'
          have hat := v.info.evictBlockInfo_isValidAt b b'
          rw [hinfo] at hat
          rw [hat]
          split
          · rfl
          · rename_i hne
            by_contra hb'
            rw [Bool.not_eq_false] at hb'
            exact hne (h b' b hb' hb)
        simp [evictBlocks_nil hnone hrest]
    · exact ih hev

/-- Placing a line: with data it finds its way empty or leaves it compressed, and without data it
must find an uncompressed way empty. -/
theorem placeLine_fits {o : Order} {supertag : Addr} {i : CacheBlockInfo} {ins : Option Ptr}
    (h : v.Fits compressible) (hk : k.compressible = compressible)
    (halone : ins = none → i.isValid = true → v.data.scheme = .uncompressed →
      v.info.isValid = false)
    (hplace : placeLine o v supertag b i ins k = .ok (v', k')) :
    v'.Fits compressible ∧ k'.compressible = k.compressible := by
  simp only [placeLine, except_bind_eq_ok, pure_eq_ok, Prod.mk.injEq] at hplace
  obtain ⟨⟨data, k₁⟩, hins, rfl, rfl⟩ := hplace
  obtain ⟨inv, -, hvalid, -⟩ := BlockData.insertBlockData_spec h.inv hins
  refine ⟨⟨inv, fun b' hb' => ?_, fun hs b₁ b₂ h₁ h₂ => ?_, fun hc => ?_⟩,
    (BlockData.insertBlockData_tracks hins).compressible⟩
  · simp only [hvalid]
    rw [SuperblockInfo.insertBlockInfo_isValidAt] at hb'
    by_cases hb : b' = b
    · subst hb
      exact Function.update_self ..
    · rw [if_neg hb] at hb'
      rw [Function.update_of_ne hb]
      exact h.backed b' hb'
  · obtain ⟨hold, hempty⟩ := BlockData.insertBlockData_uncompressed h.inv hins hs
    rw [SuperblockInfo.insertBlockInfo_isValidAt] at h₁ h₂
    -- an old line beside the new one would be one too many
    have hother : ∀ b', b' ≠ b → i.isValid = true → v.info.isValidAt b' = false := by
      intro b' _ hi
      cases ins with
      | some p => exact h.not_isValidAt (hempty rfl) b'
      | none =>
        have hinvalid := halone rfl hi hold
        by_contra hb'
        rw [Bool.not_eq_false] at hb'
        rw [SuperblockInfo.isValid, List.any_eq_true.mpr ⟨b', List.mem_finRange b', hb'⟩] at hinvalid
        cases hinvalid
    by_cases hb₁ : b₁ = b
    · by_cases hb₂ : b₂ = b
      · rw [hb₁, hb₂]
      · rw [if_pos hb₁] at h₁
        rw [if_neg hb₂, hother b₂ hb₂ h₁] at h₂
        cases h₂
    · by_cases hb₂ : b₂ = b
      · rw [if_pos hb₂] at h₂
        rw [if_neg hb₁, hother b₁ hb₁ h₂] at h₁
        cases h₁
      · rw [if_neg hb₁] at h₁
        rw [if_neg hb₂] at h₂
        exact h.single hold b₁ b₂ h₁ h₂
  · refine BlockData.insertBlockData_raw h.inv ?_ (h.raw hc) hins
    rw [CompressionCntlr.canCompress, hk, hc]

variable {s s' : CacheSet n assoc} {linear : Addr → Addr} {o : Order} {wbs : List (Writeback n)}

/-- Every way of a set fits. -/
def Fits (compressible : Bool) (s : CacheSet n assoc) : Prop := ∀ w, (s w).Fits compressible

theorem fresh_fits : (fresh : CacheSet n assoc).Fits compressible := fun _ => Way.fresh_fits

theorem Fits.update (h : s.Fits compressible) {w : Fin assoc} (hv : v.Fits compressible) :
    Fits compressible (Function.update s w v) := by
  intro w'
  by_cases hw : w' = w
  · subst hw
    rw [Function.update_self]
    exact hv
  · rw [Function.update_of_ne hw]
    exact h w'

/-- An insertion without data may join an uncompressed way only if that way is empty. -/
def JoinsAlone (linear : Addr → Addr) (s : CacheSet n assoc) (i : CacheBlockInfo)
    (k : CompressionCntlr) : Prop :=
  ∀ w, mergeWay s (splitAddress n linear (tagToAddress n i.tag)).1
      (splitAddress n linear (tagToAddress n i.tag)).2 none k (List.finRange assoc) = .ok (some w) →
    i.isValid = true → (s w).data.scheme = .uncompressed → (s w).info.isValid = false

theorem insertLine_fits {i : CacheBlockInfo} {ins : Option Ptr} {repl : Fin (assoc + 1)}
    (hs : s.Fits compressible) (hk : k.compressible = compressible)
    (halone : ins = none → s.JoinsAlone linear i k)
    (h : insertLine linear o s i ins repl k = .ok (s', wbs, k')) :
    s'.Fits compressible ∧ k'.compressible = k.compressible := by
  cases insertLine_cases h with
  | @merged w _ _ hmerge hplace =>
    have hjoin : ins = none → i.isValid = true → (s w).data.scheme = .uncompressed →
        (s w).info.isValid = false := by
      rintro rfl
      exact halone rfl w hmerge
    obtain ⟨hv, hk'⟩ := placeLine_fits (hs w) hk hjoin hplace
    exact ⟨hs.update hv, hk'⟩
  | @replaced w _ _ _ _ _ _ _ hev hempty hplace =>
    obtain ⟨hv, hk₁⟩ := evictBlocks_fits (hs w) hev
    obtain ⟨hv', hk'⟩ := placeLine_fits hv (hk₁.trans hk) (fun _ _ _ => hempty) hplace
    exact ⟨hs.update hv', hk'.trans hk₁⟩
  | bypassed => exact ⟨hs, rfl⟩

/-- An insertion that may not join its way leaves two lines in it. -/
theorem insertLine_crowds {i : CacheBlockInfo} {repl : Fin (assoc + 1)}
    (halone : ¬s.JoinsAlone linear i k)
    (h : insertLine linear o s i none repl k = .ok (s', wbs, k')) : ∃ w, ¬(s' w).HoldsOne := by
  simp only [JoinsAlone, not_forall, Bool.not_eq_false] at halone
  obtain ⟨w, hmerge, hi, hscheme, hv⟩ := halone
  cases insertLine_cases h with
  | @merged w' _ _ hmerge' hplace =>
    have hw : w' = w := by
      rw [hmerge] at hmerge'
      simpa using hmerge'.symm
    subst hw
    refine ⟨w', fun hone => ?_⟩
    obtain ⟨b', -, hb'⟩ := List.any_eq_true.mp hv
    -- the scan asked for a free block beside the one that is there
    have hfree := (mergeWay_some hmerge).1
    simp only [SuperblockInfo.canInsertBlockInfo, hv, Bool.not_true, Bool.false_eq_true, if_false,
      Bool.and_eq_true, Bool.not_eq_true'] at hfree
    simp only [placeLine, except_bind_eq_ok, pure_eq_ok, Prod.mk.injEq] at hplace
    obtain ⟨⟨data, k₁⟩, hins, rfl, rfl⟩ := hplace
    have hne : b' ≠ (splitAddress n linear (tagToAddress n i.tag)).2 := by
      rintro rfl
      rw [hfree.1] at hb'
      cases hb'
    rw [Function.update_self] at hone
    have hraw : data.scheme = .uncompressed := by
      rw [BlockData.compactIfPruning_scheme (BlockData.insertBlockData_none hins).2,
        BlockData.setValid_scheme, hscheme]
    refine hne (hone hraw b' _ ?_ ?_)
    · rw [SuperblockInfo.insertBlockInfo_isValidAt, if_neg hne]
      exact hb'
    · rw [SuperblockInfo.insertBlockInfo_isValidAt, if_pos rfl]
      exact hi
  | replaced hnone => rw [hmerge] at hnone; cases hnone
  | bypassed hnone => rw [hmerge] at hnone; cases hnone

/-- Without compression an insertion displaces one line at most. -/
theorem insertLine_length {i : CacheBlockInfo} {ins : Option Ptr} {repl : Fin (assoc + 1)}
    (hs : s.Fits false) (h : insertLine linear o s i ins repl k = .ok (s', wbs, k')) :
    wbs.length ≤ 1 := by
  cases insertLine_cases h with
  | merged => exact Nat.zero_le 1
  | @replaced w _ _ _ _ _ _ _ hev => exact evictBlocks_length ((hs w).single ((hs w).raw rfl)) hev
  | bypassed => exact Nat.le_refl 1

theorem writeLine_fits {tag : Addr} {a : Slice n} {wr : Option Ptr} {isWriteback : Bool}
    {repl : Fin (assoc + 1)} (hs : s.Fits compressible) (hk : k.compressible = compressible)
    (h : writeLine linear o s tag b a wr isWriteback repl k = .ok (s', wbs, k')) :
    s'.Fits compressible ∧ k'.compressible = k.compressible := by
  obtain ⟨w, i, -, -, -, -, hcase⟩ := writeLine_cases h
  cases hcase with
  | @inPlace data _ _ hwrite =>
    obtain ⟨inv, hvalid, -⟩ := BlockData.writeBlockData_spec (hs w).inv hwrite
    have hscheme := BlockData.writeBlockData_uncompressed_iff (hs w).inv hwrite
    refine ⟨hs.update ⟨inv, fun b' hb' => ?_, fun hraw => ?_, fun hc => ?_⟩,
      (BlockData.writeBlockData_tracks hwrite).compressible⟩
    · simp only [hvalid]
      exact (hs w).backed b' hb'
    · exact (hs w).single (hscheme.mp hraw)
    · exact hscheme.mpr ((hs w).raw hc)
  | reinserted _ hev hins =>
    have hk₁ := (BlockData.evictBlockData_tracks hev).compressible
    obtain ⟨hfits, hk'⟩ := insertLine_fits (hs.update (evictBlock_fits (hs w) hev)) (hk₁.trans hk)
      (fun hnone => by cases hnone) hins
    exact ⟨hfits, hk'.trans hk₁⟩

/-- Without compression a write displaces nothing. -/
theorem writeLine_length {tag : Addr} {a : Slice n} {wr : Option Ptr} {isWriteback : Bool}
    {repl : Fin (assoc + 1)} (hs : s.Fits false)
    (h : writeLine linear o s tag b a wr isWriteback repl k = .ok (s', wbs, k')) : wbs = [] := by
  obtain ⟨w, i, -, hi, hvalid, -, hcase⟩ := writeLine_cases h
  cases hcase with
  | inPlace => rfl
  | reinserted hcan =>
    have hat : (s w).info.isValidAt b = true := by simp [SuperblockInfo.isValidAt, hi, hvalid]
    exact absurd (BlockData.canWriteBlockData_uncompressed ((hs w).raw rfl) ((hs w).backed b hat) hcan)
      (by decide)

theorem invalidate_fits {tag : Addr} (hs : s.Fits compressible)
    (h : s.invalidate tag b k = .ok (s', k')) :
    s'.Fits compressible ∧ k'.compressible = k.compressible := by
  rcases invalidate_cases h with ⟨-, rfl, rfl⟩ | ⟨w, info, -, hinfo, rfl, rfl⟩
  · exact ⟨hs, rfl⟩
  · obtain ⟨inv, hvalid, -⟩ := BlockData.dropBlock_spec b k (hs w).inv
    have hv : (⟨info, ((s w).data.invalidateBlockData b k).1⟩ : Way n).Fits compressible :=
      fits_drop (hs w) (SuperblockInfo.invalidateBlockInfo_isValidAt hinfo) inv hvalid
        (BlockData.dropBlock_scheme _ b k)
    exact ⟨hs.update hv, (BlockData.dropBlock_tracks _ b k).compressible⟩

/-- A block info is changed, and is not made valid by it. -/
theorem modifyAt_fits {w : Fin assoc} {f : CacheBlockInfo → CacheBlockInfo} (hs : s.Fits compressible)
    (hf : ∀ i, (f i).isValid = true → i.isValid = true) :
    Fits compressible (Function.update s w { s w with info := (s w).info.modifyAt b f }) := by
  have hinfo : ∀ b', ((s w).info.modifyAt b f).isValidAt b' = true →
      (s w).info.isValidAt b' = true := by
    intro b' hb'
    by_cases hb : b' = b
    · subst hb
      cases hi : (s w).info.blockInfos b' with
      | none => simp [SuperblockInfo.modifyAt, SuperblockInfo.isValidAt, hi] at hb'
      | some i =>
        simp only [SuperblockInfo.modifyAt, SuperblockInfo.isValidAt, hi, Function.update_self,
          Option.map_some, Option.any_some] at hb' ⊢
        exact hf i hb'
    · simpa [SuperblockInfo.modifyAt, SuperblockInfo.isValidAt, hb] using hb'
  exact hs.update ((hs w).shrink (hs w).inv hinfo (fun b' hb' => (hs w).backed b' (hinfo b' hb'))
    (.inl rfl))

/-- The valid lines of a set. -/
def numLines (s : CacheSet n assoc) : Nat :=
  (Finset.univ.filter fun p : Fin assoc × BlockId => (s p.1).info.isValidAt p.2).card

theorem numLines_le (h : s.Fits false) : s.numLines ≤ assoc := by
  have hinj : Set.InjOn Prod.fst (SetLike.coe (Finset.univ.filter
      fun p : Fin assoc × BlockId => (s p.1).info.isValidAt p.2)) := by
    rintro ⟨w, b⟩ hb ⟨w', b'⟩ hb' hw
    simp only [Finset.coe_filter, Finset.mem_univ, true_and, Set.mem_ofPred_eq] at hb hb' hw
    subst hw
    rw [(h w).single ((h w).raw rfl) b b' hb hb']
  calc s.numLines ≤ (Finset.univ : Finset (Fin assoc)).card :=
        Finset.card_le_card_of_injOn Prod.fst (fun _ _ => Finset.mem_univ _) hinj
    _ = assoc := Finset.card_fin assoc

end CacheSet

namespace Cache

variable {g : CacheGeometry n} {c c' : Cache n assoc} {set : Nat}

def Fits (c : Cache n assoc) : Prop := ∀ set, (c.sets set).Fits c.cntlr.compressible

/-- Every uncompressed way of the cache holds one line at most. -/
def HoldsOnePerWay (c : Cache n assoc) : Prop := ∀ set w, (c.sets set w).HoldsOne

/-- A line without data, as a cache without a controller inserts it, does not join a line that an
uncompressed way already holds. -/
def InsertsAlone (g : CacheGeometry n) (c : Cache n assoc) (call : CacheCall n assoc) : Prop :=
  match call.op with
  | .insertSingleLine addr _ _ _ false =>
    (c.sets (g.setOf addr)).JoinsAlone g.linear (.new (tagOf n addr)) c.cntlr
  | _ => True

theorem Fits.holdsOnePerWay (h : c.Fits) : c.HoldsOnePerWay := fun set w => (h set w).single

theorem Fits.setSet (h : c.Fits) {s : CacheSet n assoc} {k : CompressionCntlr}
    (hs : s.Fits c.cntlr.compressible ∧ k.compressible = c.cntlr.compressible) :
    (c.setSet set s k).Fits := by
  intro set'
  have hk : (c.setSet set s k).cntlr.compressible = c.cntlr.compressible := hs.2
  rw [hk]
  by_cases hset : set' = set
  · subst hset
    simpa [Cache.setSet] using hs.1
  · simpa [Cache.setSet, hset] using h set'

theorem insertData_isSome {hasCntlr isFill : Bool} {ins data : Option Ptr} {real : Ptr}
    (h : insertData hasCntlr isFill ins real = .ok data) : data.isSome = hasCntlr := by
  cases hasCntlr with
  | false =>
    cases h
    rfl
  | true =>
    cases isFill with
    | false =>
      cases h
      rfl
    | true =>
      simp only [insertData, if_true, except_bind_eq_ok, check_ok, pure_eq_ok] at h
      obtain ⟨-, hsome, rfl⟩ := h
      exact hsome

/-- What an insertion into a fitting cache does, and when the cache still fits. -/
theorem insertSingleLine_fits {o : Order} {addr : Addr} {ins : Option Ptr} {real : Ptr}
    {isFill hasCntlr : Bool} {repl : Fin (assoc + 1)} {wbs : List (Writeback n)} (hc : c.Fits)
    (hok : InsertsAlone g c ⟨.insertSingleLine addr ins real isFill hasCntlr, repl, o⟩)
    (h : c.insertSingleLine g o addr ins real isFill hasCntlr repl = .ok (c', wbs)) : c'.Fits := by
  simp only [insertSingleLine, except_bind_eq_ok, pure_eq_ok, Prod.mk.injEq] at h
  obtain ⟨data, hdata, ⟨s, wbs', k⟩, hins, rfl, -⟩ := h
  refine hc.setSet (CacheSet.insertLine_fits (hc _) rfl ?_ hins)
  rintro rfl
  have hnone : hasCntlr = false := (insertData_isSome hdata).symm
  subst hnone
  exact hok

theorem insertSingleLine_crowds {o : Order} {addr : Addr} {ins : Option Ptr} {real : Ptr}
    {isFill hasCntlr : Bool} {repl : Fin (assoc + 1)} {wbs : List (Writeback n)}
    (hok : ¬InsertsAlone g c ⟨.insertSingleLine addr ins real isFill hasCntlr, repl, o⟩)
    (h : c.insertSingleLine g o addr ins real isFill hasCntlr repl = .ok (c', wbs)) :
    ¬c'.HoldsOnePerWay := by
  cases hasCntlr with
  | true => exact absurd trivial hok
  | false =>
    simp only [insertSingleLine, insertData, Bool.false_eq_true, if_false, except_bind_eq_ok, pure_eq_ok,
      Prod.mk.injEq] at h
    obtain ⟨_, rfl, ⟨s, wbs', k⟩, hins, rfl, -⟩ := h
    obtain ⟨w, hw⟩ := CacheSet.insertLine_crowds hok hins
    intro hone
    have hset := hone (g.setOf addr) w
    simp only [Cache.setSet, Function.update_self] at hset
    exact hw hset

theorem accessSingleLine_fits {o : Order} {addr : Addr} {access : Access n} {bytes : Nat}
    {real : Ptr} {repl : Fin (assoc + 1)} {out : Accessed n} (hc : c.Fits)
    (h : c.accessSingleLine g o addr access bytes real repl = .ok (out, c')) :
    c'.Fits ∧ (c.cntlr.compressible = false → out.writebacks = []) := by
  simp only [accessSingleLine, except_bind_eq_ok] at h
  obtain ⟨found, -, h⟩ := h
  cases found with
  | none => cases access <;> cases h <;> exact ⟨hc, fun _ => rfl⟩
  | some w =>
    simp only at h
    split at h
    · cases access with
      | load accData =>
        simp only [except_bind_eq_ok, pure_eq_ok, Prod.mk.injEq] at h
        obtain ⟨-, -, rfl, rfl⟩ := h
        exact ⟨hc, fun _ => rfl⟩
      | store accData isWriteback hasWritebacks hasCntlr =>
        simp only [except_bind_eq_ok, pure_eq_ok, Prod.mk.injEq] at h
        obtain ⟨-, -, -, -, ⟨s, wbs, k⟩, hwr, rfl, rfl⟩ := h
        refine ⟨hc.setSet (CacheSet.writeLine_fits (hc _) rfl hwr), fun hraw => ?_⟩
        have hset := hc (g.setOf addr)
        rw [hraw] at hset
        exact CacheSet.writeLine_length hset hwr
    · cases h

theorem modifyInfo_fits {addr : Addr} {f : CacheBlockInfo → CacheBlockInfo} (hc : c.Fits)
    (h : c.modifyInfo g addr f = .ok c') (hf : ∀ i, (f i).isValid = true → i.isValid = true) :
    c'.Fits := by
  simp only [modifyInfo, except_bind_eq_ok] at h
  obtain ⟨found, -, h⟩ := h
  cases found with
  | none => cases h
  | some w =>
    cases h
    exact hc.setSet ⟨CacheSet.modifyAt_fits (hc _) hf, rfl⟩

/-- The other calls keep a fitting cache fitting whatever they are given. -/
theorem perform_fits {call : CacheCall n assoc} {wbs : List (Writeback n)} (hc : c.Fits)
    (hok : InsertsAlone g c call) (h : c.perform g call = .ok (wbs, c')) : c'.Fits := by
  obtain ⟨op, repl, o⟩ := call
  cases op with
  | insertSingleLine addr ins real isFill hasCntlr =>
    simp only [perform, except_bind_eq_ok, pure_eq_ok, Prod.mk.injEq] at h
    obtain ⟨⟨u, wbs'⟩, hins, -, rfl⟩ := h
    exact insertSingleLine_fits hc hok hins
  | accessSingleLine addr access bytes real =>
    simp only [perform, except_bind_eq_ok, pure_eq_ok, Prod.mk.injEq] at h
    obtain ⟨⟨out, u⟩, hacc, -, rfl⟩ := h
    exact (accessSingleLine_fits hc hacc).1
  | invalidateSingleLine addr =>
    simp only [perform, invalidateSingleLine, except_bind_eq_ok, pure_eq_ok, Prod.mk.injEq] at h
    obtain ⟨u, ⟨⟨s, k⟩, hinv, rfl⟩, -, rfl⟩ := h
    exact hc.setSet (CacheSet.invalidate_fits (hc _) hinv)
  | setCState addr cstate =>
    simp only [perform, except_bind_eq_ok, pure_eq_ok, Prod.mk.injEq] at h
    obtain ⟨u, hset, -, rfl⟩ := h
    exact modifyInfo_fits hc hset fun _ hv => hv
  | invalidateInfo addr =>
    simp only [perform, except_bind_eq_ok, pure_eq_ok, Prod.mk.injEq] at h
    obtain ⟨u, hinv, -, rfl⟩ := h
    exact modifyInfo_fits hc hinv fun i hv => by
      simp [CacheBlockInfo.invalidate, CacheBlockInfo.isValid] at hv

theorem perform_holdsOnePerWay_iff {call : CacheCall n assoc} {wbs : List (Writeback n)}
    (hc : c.Fits) (h : c.perform g call = .ok (wbs, c')) :
    c'.HoldsOnePerWay ↔ InsertsAlone g c call := by
  refine ⟨fun hone => ?_, fun hok => (perform_fits hc hok h).holdsOnePerWay⟩
  obtain ⟨op, repl, o⟩ := call
  cases op with
  | insertSingleLine addr ins real isFill hasCntlr =>
    simp only [perform, except_bind_eq_ok, pure_eq_ok, Prod.mk.injEq] at h
    obtain ⟨⟨u, wbs'⟩, hins, -, rfl⟩ := h
    by_contra hok
    exact insertSingleLine_crowds hok hins hone
  | _ => trivial

/-- Without compression a call displaces one line at most. -/
theorem perform_length {call : CacheCall n assoc} {wbs : List (Writeback n)} (hc : c.Fits)
    (hraw : c.cntlr.compressible = false) (h : c.perform g call = .ok (wbs, c')) :
    wbs.length ≤ 1 := by
  obtain ⟨op, repl, o⟩ := call
  cases op with
  | insertSingleLine addr ins real isFill hasCntlr =>
    simp only [perform, insertSingleLine, except_bind_eq_ok, pure_eq_ok, Prod.mk.injEq] at h
    obtain ⟨⟨u, wbs'⟩, ⟨data, -, ⟨s, wbs'', k⟩, hins, -, rfl⟩, rfl, -⟩ := h
    have hset := hc (g.setOf addr)
    rw [hraw] at hset
    exact CacheSet.insertLine_length hset hins
  | accessSingleLine addr access bytes real =>
    simp only [perform, except_bind_eq_ok, pure_eq_ok, Prod.mk.injEq] at h
    obtain ⟨⟨out, u⟩, hacc, rfl, -⟩ := h
    rw [(accessSingleLine_fits hc hacc).2 hraw]
    exact Nat.zero_le 1
  | invalidateSingleLine addr =>
    simp only [perform, except_bind_eq_ok, pure_eq_ok, Prod.mk.injEq] at h
    obtain ⟨u, -, rfl, -⟩ := h
    exact Nat.zero_le 1
  | setCState addr cstate =>
    simp only [perform, except_bind_eq_ok, pure_eq_ok, Prod.mk.injEq] at h
    obtain ⟨u, -, rfl, -⟩ := h
    exact Nat.zero_le 1
  | invalidateInfo addr =>
    simp only [perform, except_bind_eq_ok, pure_eq_ok, Prod.mk.injEq] at h
    obtain ⟨u, -, rfl, -⟩ := h
    exact Nat.zero_le 1

/-- Along a run in which no line without data joins one in an uncompressed way, an uncompressed
way holds one line at most; without compression a set then holds a line a way at most, and no call
displaces more than one. A call that breaks the rule breaks the bound at once. -/
theorem one_line_per_uncompressed_way (c : Cache n assoc)
    (tr : List (CacheCall n assoc × List (Writeback n)))
    (h : Run (machine n assoc g) (InsertsAlone g) tr c) :
    c.HoldsOnePerWay ∧
    (c.cntlr.compressible = false → (∀ set, (c.sets set).numLines ≤ assoc) ∧
      ∀ call wbs c', c.perform g call = .ok (wbs, c') → wbs.length ≤ 1) ∧
    ∀ call wbs c', c.perform g call = .ok (wbs, c') →
      (c'.HoldsOnePerWay ↔ InsertsAlone g c call) := by
  have hc : c.Fits := by
    refine h.invariant (I := Fits) ?_ ?_
    · rintro c ⟨_, _, _, rfl⟩ set
      exact CacheSet.fresh_fits
    · intro c call wbs c' hc hok hstep
      exact perform_fits hc hok hstep
  refine ⟨hc.holdsOnePerWay, fun hraw => ⟨fun set => ?_, fun call wbs c' => perform_length hc hraw⟩,
    fun call wbs c' => perform_holdsOnePerWay_iff hc⟩
  have hset := hc set
  rw [hraw] at hset
  exact CacheSet.numLines_le hset

/-- Two lines of one superblock, each with its data or neither. -/
def twoOfSuperblock (hasCntlr : Bool) : List (CacheCall 64 2) :=
  [insertEmptyLine 0 hasCntlr, insertEmptyLine 64 hasCntlr]

def withDataCall (_ : Cache n assoc) (call : CacheCall n assoc) : Bool :=
  match call.op with
  | .insertSingleLine _ _ _ _ hasCntlr => hasCntlr
  | _ => true

theorem insertsAlone_of_withDataCall (c : Cache n assoc) (call : CacheCall n assoc)
    (h : withDataCall c call = true) : InsertsAlone g c call := by
  obtain ⟨op, repl, o⟩ := call
  cases op with
  | insertSingleLine addr ins real isFill hasCntlr =>
    have hdata : hasCntlr = true := h
    subst hdata
    trivial
  | _ => trivial

theorem one_line_per_uncompressed_way_twoWays : ∃ c : Cache 64 2,
    (c.sets 0 0).info.isValidAt 0 = true ∧ (c.sets 0 1).info.isValidAt 1 = true ∧
      (c.sets 0 0).info.isValidAt 1 = false ∧ (c.sets 0).numLines ≤ 2 := by
  have heval : (performEach (perform ⟨4, none⟩) withDataCall (fresh false false false : Cache 64 2)
      (twoOfSuperblock true)).any (fun c => !c.cntlr.compressible &&
        (c.sets 0 0).data.scheme == .uncompressed && (c.sets 0 0).info.isValidAt 0 &&
        (c.sets 0 1).info.isValidAt 1) = true := by
    rfl
  obtain ⟨c, hc, heval⟩ := Option.any_eq_true _ _ |>.mp heval
  simp only [Bool.and_eq_true, Bool.not_eq_true', beq_iff_eq] at heval
  obtain ⟨⟨⟨hraw, hscheme⟩, h0⟩, h1⟩ := heval
  obtain ⟨tr, hrun⟩ := Run.performEach (M := machine 64 2 ⟨4, none⟩) (fun _ _ _ _ h => h)
    insertsAlone_of_withDataCall (.start ⟨false, false, false, rfl⟩) hc
  obtain ⟨hone, hsmall, -⟩ := one_line_per_uncompressed_way c tr hrun
  refine ⟨c, h0, h1, ?_, (hsmall hraw).1 0⟩
  by_contra hb
  rw [Bool.not_eq_false] at hb
  exact absurd (hone 0 0 hscheme 0 1 h0 hb) (by decide)

/-- Without data the second line joins the first: the special case for null data in
`canInsertBlockData` does not ask whether the way is compressed. -/
theorem null_data_shares_way :
    ¬∀ c : Cache 64 2, Reachable (machine 64 2 ⟨4, none⟩) c → c.HoldsOnePerWay := by
  intro hall
  have heval : (performEach (perform ⟨4, none⟩) (fun _ _ => true)
      (fresh false false false : Cache 64 2) (twoOfSuperblock false)).any (fun c =>
        (c.sets 0 0).data.scheme == .uncompressed && (c.sets 0 0).info.isValidAt 0 &&
        (c.sets 0 0).info.isValidAt 1) = true := by
    rfl
  obtain ⟨c, hc, heval⟩ := Option.any_eq_true _ _ |>.mp heval
  simp only [Bool.and_eq_true, beq_iff_eq] at heval
  obtain ⟨⟨hscheme, h0⟩, h1⟩ := heval
  have hreach : Reachable (machine 64 2 ⟨4, none⟩) c :=
    Run.performEach (M := machine 64 2 ⟨4, none⟩) (fun _ _ _ _ h => h) (fun _ _ _ => trivial)
      (.start ⟨false, false, false, rfl⟩) hc
  exact absurd (hall c hreach 0 0 hscheme 0 1 h0 h1) (by decide)

end Cache

end Sniper.Cache
