import Sniper.Cache.Capacity
set_option autoImplicit false

/-! Insertion without data into sets that do not compress. -/

namespace Sniper.Cache
open Sniper.Lib Dish

variable {n assoc : Nat}

theorem compactIfPruning_raw {s : BlockData n} {k : CompressionCntlr} (hk : k.compressible = false) :
    BlockData.compactIfPruning k s = .ok s := by
  simp [BlockData.compactIfPruning, CompressionCntlr.shouldPruneDISHEntries, hk]

namespace CacheSet

variable {s : CacheSet n assoc} {supertag : Addr} {b : BlockId} {k : CompressionCntlr}

theorem mergeWay_null (ws : List (Fin assoc)) :
    ∃ r, mergeWay s supertag b none k ws = .ok r := by
  induction ws with
  | nil => exact ⟨none, rfl⟩
  | cons w ws ih =>
    rw [mergeWay]
    split
    · cases hv : (s w).data.valid b with
      | true => simpa [BlockData.canInsertBlockData, hv, bind, Except.bind, pure, Except.pure] using ih
      | false =>
        exact ⟨some w, by
          simp [BlockData.canInsertBlockData, hv, bind, Except.bind, pure, Except.pure]⟩
    · exact ih

theorem placeLine_null {o : Order} {v : Way n} {i : CacheBlockInfo} (hk : k.compressible = false)
    (hfree : v.data.valid b = false) :
    ∃ v', placeLine o v supertag b i none k = .ok (v', k) ∧ v'.info.blockInfos b = some i := by
  refine ⟨⟨v.info.insertBlockInfo supertag b i, v.data.setValid b true⟩, ?_, ?_⟩
  · simp [placeLine, BlockData.insertBlockData, hfree, check, compactIfPruning_raw hk, bind,
      Except.bind, pure, Except.pure]
  · simp [SuperblockInfo.insertBlockInfo]

theorem evictBlockData_raw {data : BlockData n} (hk : k.compressible = false)
    (hv : data.valid b = true) :
    ∃ line data' k', data.evictBlockData b k = .ok (line, data', k') ∧ k'.compressible = false := by
  have hev : ∃ line data' k', data.evictBlockData b k = .ok (line, data', k') := by
    simp only [BlockData.evictBlockData, hv, check, if_true, bind, Except.bind, pure, Except.pure]
    have hdrop : (data.dropBlock b k).2.compressible = false :=
      (BlockData.dropBlock_tracks data b k).compressible.trans hk
    split
    · rw [compactIfPruning_raw hdrop]
      exact ⟨_, _, _, rfl⟩
    · exact ⟨_, _, _, rfl⟩
  obtain ⟨line, data', k', hev⟩ := hev
  exact ⟨line, data', k', hev, (BlockData.evictBlockData_tracks hev).compressible.trans hk⟩

/-- The eviction loop empties the listed blocks. -/
theorem evictBlocks_raw {v : Way n} (hv : v.Agrees) (hk : k.compressible = false)
    (bs : List BlockId) : ∃ v' wbs k', evictBlocks v k bs = .ok (v', wbs, k') ∧
      k'.compressible = false ∧ (∀ b ∈ bs, v'.info.isValidAt b = false) ∧
      ∀ b, v.info.isValidAt b = false → v'.info.isValidAt b = false := by
  induction bs generalizing v k with
  | nil =>
    refine ⟨v, [], k, rfl, hk, ?_, fun b hb => hb⟩
    intro b hb
    cases hb
  | cons b bs ih =>
    by_cases hb : v.info.isValidAt b = true
    · obtain ⟨i, hi, hvalid⟩ := Way.isValidAt_iff.mp hb
      obtain ⟨line, data, k₁, hev, hk₁⟩ := evictBlockData_raw (k := k) hk ((hv.same b).symm.trans hb)
      have hinfo : v.info.evictBlockInfo b = (some i, (v.info.evictBlockInfo b).2) := by
        simp [SuperblockInfo.evictBlockInfo, hi]
      obtain ⟨hagree, -, -⟩ := evictBlock_spec hv hi hvalid hev
      obtain ⟨v', wbs, k', hrest, hk', hgone, hstay⟩ := ih hagree hk₁
      have hself : (v.info.evictBlockInfo b).2.isValidAt b = false := by
        rw [SuperblockInfo.evictBlockInfo_isValidAt, if_pos rfl]
      refine ⟨v', ⟨tagToAddress n i.tag, i, line⟩ :: wbs, k', ?_, hk', ?_, ?_⟩
      · rw [evictBlocks, if_pos hb, hinfo]
        simp [hev, hrest, bind, Except.bind, pure, Except.pure]
      · intro b' hb'
        rcases List.mem_cons.mp hb' with rfl | hb'
        · exact hstay _ hself
        · exact hgone b' hb'
      · intro b' hb'
        refine hstay b' ?_
        rw [SuperblockInfo.evictBlockInfo_isValidAt]
        split
        · rfl
        · exact hb'
    · obtain ⟨v', wbs, k', hrest, hk', hgone, hstay⟩ := ih hv hk
      rw [Bool.not_eq_true] at hb
      refine ⟨v', wbs, k', ?_, hk', ?_, hstay⟩
      · rw [evictBlocks, if_neg (by rw [hb]; decide)]
        exact hrest
      · intro b' hb'
        rcases List.mem_cons.mp hb' with rfl | hb'
        · exact hstay _ hb
        · exact hgone b' hb'

/-- Without compression a line without data always finds a place, unless the set is bypassed. -/
theorem insertLine_null {linear : Addr → Addr} {o : Order} {i : CacheBlockInfo}
    {repl : Fin (assoc + 1)} (hs : s.Agrees) (hk : k.compressible = false)
    (hrepl : repl.val < assoc) : ∃ s' wbs k', insertLine linear o s i none repl k = .ok (s', wbs, k') ∧
      k'.compressible = false ∧ ∃ w b, (s' w).info.blockInfos b = some i := by
  let supertag := (splitAddress n linear (tagToAddress n i.tag)).1
  let b := (splitAddress n linear (tagToAddress n i.tag)).2
  have hmerge : ∃ r, mergeWay s supertag b none k (List.finRange assoc) = .ok r := mergeWay_null _
  obtain ⟨r, hr⟩ := hmerge
  cases r with
  | some w =>
    have hfree : (s w).data.valid b = false := by
      have hcan := (mergeWay_some hr).2
      by_contra hv
      rw [Bool.not_eq_false] at hv
      simp [BlockData.canInsertBlockData, hv, pure, Except.pure] at hcan
    obtain ⟨v, hplace, hself⟩ : ∃ v, placeLine o (s w) supertag b i none k = .ok (v, k) ∧
      v.info.blockInfos b = some i := placeLine_null hk hfree
    refine ⟨Function.update s w v, [], k, ?_, hk, w, b, ?_⟩
    · simp only [insertLine, bind, Except.bind]
      rw [hr]
      simp only
      rw [hplace]
      rfl
    · rw [Function.update_self]
      exact hself
  | none =>
    obtain ⟨v, wbs, k₁, hev, hk₁, hgone, -⟩ :=
      evictBlocks_raw (hs ⟨repl, hrepl⟩) hk (List.finRange superblockSize)
    have hagree := (evictBlocks_spec (hs ⟨repl, hrepl⟩) hev).1
    have hempty : v.info.isValid = false := by
      by_contra hv
      rw [Bool.not_eq_false] at hv
      obtain ⟨b, hb, hvb⟩ := List.any_eq_true.mp hv
      rw [hgone b hb] at hvb
      cases hvb
    have hfree : v.data.valid b = false := by
      rw [← hagree.same]
      exact hgone _ (List.mem_finRange _)
    obtain ⟨u, hplace, hself⟩ : ∃ u, placeLine o v supertag b i none k₁ = .ok (u, k₁) ∧
      u.info.blockInfos b = some i := placeLine_null hk₁ hfree
    refine ⟨Function.update s ⟨repl, hrepl⟩ u, wbs, k₁, ?_, hk₁, ⟨repl, hrepl⟩, b, ?_⟩
    · simp only [insertLine, bind, Except.bind]
      rw [hr]
      simp only [dif_pos hrepl, hev, check, hempty, Bool.not_false, if_true]
      rw [hplace]
      rfl
    · rw [Function.update_self]
      exact hself

end CacheSet

end Sniper.Cache
