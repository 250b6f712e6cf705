import Sniper.Cache.Contents
import Sniper.Cache.WithoutData
import Sniper.Cache.Lru
set_option autoImplicit false

/-! A set under LRU replacement whose lines have neither data nor a coherence state. -/

namespace Sniper.Cache
open Sniper.Lib Dish

variable {n assoc : Nat}

/-- The tags of the lines in a way. -/
def Way.tags (v : Way n) : List Addr := (List.finRange superblockSize).filterMap v.info.tagAt

theorem Way.mem_blocks {v : Way n} {e : CacheBlockInfo × Line n} :
    e ∈ v.blocks ↔ ∃ b, v.info.blockInfos b = some e.1 ∧ e.1.isValid = true ∧ v.data.data b = e.2 := by
  have hone := CacheSet.mem_blocks (s := fun _ : Fin 1 => v) (e := e)
  simpa [CacheSet.blocks, CacheSet.Holds] using hone

theorem evictBlocks_tags {v v' : Way n} {k k' : CompressionCntlr} {bs : List BlockId}
    {wbs : List (Writeback n)} (hv : v.Agrees)
    (h : CacheSet.evictBlocks v k bs = .ok (v', wbs, k')) {wb : Writeback n} (hwb : wb ∈ wbs) :
    wb.info.tag ∈ v.tags := by
  have hmem : (wb.info, wb.data) ∈ v.blocks := by
    rw [(CacheSet.evictBlocks_spec hv h).2]
    refine Multiset.mem_add.mpr (.inr ?_)
    simp only [writebackBlocks, Multiset.mem_coe, List.mem_map]
    exact ⟨wb, hwb, rfl⟩
  obtain ⟨b, hb, hvalid, -⟩ := Way.mem_blocks.mp hmem
  exact List.mem_filterMap.mpr
    ⟨b, List.mem_finRange b, SuperblockInfo.tagAt_eq_some.mpr ⟨wb.info, hb, hvalid, rfl⟩⟩

/-- The lines an insertion has to give up: those in the way the policy picks, if it picks one. -/
def PolicySet.victims (linear : Addr → Addr) (s : PolicySet (CacheSetLRU n assoc))
    (i : CacheBlockInfo) (k : CompressionCntlr) : List Addr :=
  match s.ways.mergeFor linear i none k with
  | .ok none =>
    let way := (CacheSetLRU.getReplacementWay s.ways s.repl).1
    if h : way.val < assoc then (s.ways ⟨way, h⟩).tags else []
  | _ => []

namespace CacheSet

variable {s s' : CacheSet n assoc} {t : Addr}

theorem resident_iff : s.Resident t ↔ ∃ e ∈ s.blocks, e.1.tag = t := by
  constructor
  · rintro ⟨w, b, hb⟩
    obtain ⟨i, hi, hv, htag⟩ := SuperblockInfo.tagAt_eq_some.mp hb
    exact ⟨(i, (s w).data.data b), mem_blocks.mpr ⟨w, b, hi, hv, rfl⟩, htag⟩
  · rintro ⟨e, he, rfl⟩
    obtain ⟨w, b, hb, -, -⟩ := (mem_blocks.mp he).tagAt
    exact ⟨w, b, hb⟩

variable {g : CacheGeometry n} {set : Nat} {o : Order} {i : CacheBlockInfo} {ins : Option Ptr}
variable {repl : Fin (assoc + 1)} {k k' : CompressionCntlr} {wbs : List (Writeback n)}

/-- What an insertion does to the tags of a set. -/
structure Inserted (s s' : CacheSet n assoc) (i : CacheBlockInfo) (wbs : List (Writeback n)) :
    Prop where
  kept : ∀ t, s.Resident t → s'.Resident t ∨ ∃ wb ∈ wbs, wb.info.tag = t
  known : ∀ t, s'.Resident t → t = i.tag ∨ s.Resident t
  there : s'.Resident i.tag

theorem insertLine_inserted {linear : Addr → Addr} (hs : s.Agrees) (hi : i.isValid = true)
    (hrepl : repl.val < assoc) (h : insertLine linear o s i ins repl k = .ok (s', wbs, k')) :
    Inserted s s' i wbs := by
  obtain ⟨-, hblocks⟩ := insertLine_spec hs hi h
  refine ⟨fun t ht => ?_, fun t ht => ?_, ?_⟩
  · obtain ⟨e, he, rfl⟩ := resident_iff.mp ht
    have hmem : e ∈ s'.blocks + writebackBlocks wbs := by
      rw [hblocks]
      exact Multiset.mem_add.mpr (.inl he)
    rcases Multiset.mem_add.mp hmem with hmem | hmem
    · exact .inl (resident_iff.mpr ⟨e, hmem, rfl⟩)
    · simp only [writebackBlocks, Multiset.mem_coe, List.mem_map] at hmem
      obtain ⟨wb, hwb, rfl⟩ := hmem
      exact .inr ⟨wb, hwb, rfl⟩
  · obtain ⟨e, he, rfl⟩ := resident_iff.mp ht
    have hmem : e ∈ s.blocks + {(i, ins.elim .zero Line.ofPtr)} := by
      rw [← hblocks]
      exact Multiset.mem_add.mpr (.inl he)
    rcases Multiset.mem_add.mp hmem with hmem | hmem
    · exact .inr (resident_iff.mpr ⟨e, hmem, rfl⟩)
    · rw [Multiset.mem_singleton.mp hmem]
      exact .inl rfl
  · have hplaced : ∀ {w : Fin assoc} {v v' : Way n} {st : Addr} {b : BlockId}
        {k k' : CompressionCntlr}, placeLine o v st b i ins k = .ok (v', k') →
        Resident (Function.update s w v') i.tag := by
      intro w v v' st b k k' hplace
      refine ⟨w, b, ?_⟩
      rw [Function.update_self, placeLine_info hplace]
      exact SuperblockInfo.tagAt_eq_some.mpr ⟨i, by simp [SuperblockInfo.insertBlockInfo], hi, rfl⟩
    cases insertLine_cases h with
    | merged _ hplace => exact hplaced hplace
    | replaced _ _ _ _ hplace => exact hplaced hplace
    | bypassed _ hbypass _ => omega

/-- A line goes where its address says, whatever else the set holds. -/
theorem insertLine_placedIn {addr : Addr} (hs : ∀ w, (s w).info.PlacedIn g set)
    (hset : g.setOf addr = set) (hi : i.tag = tagOf n addr)
    (h : insertLine g.linear o s i ins repl k = .ok (s', wbs, k')) (w : Fin assoc) :
    (s' w).info.PlacedIn g set := by
  have hline : g.setOf (tagToAddress n i.tag) = set ∧
      i.tag = tagOf n (tagToAddress n i.tag) := by
    rw [hi]
    simp [hset]
  have hupdate : ∀ {u : Fin assoc} {info : SuperblockInfo} {v : Way n},
      SuperblockInfo.Below info (s u).info →
      info.canInsertBlockInfo (g.supertagOf (tagToAddress n i.tag))
        (g.blockIdOf (tagToAddress n i.tag)) = true →
      v.info = info.insertBlockInfo (g.supertagOf (tagToAddress n i.tag))
        (g.blockIdOf (tagToAddress n i.tag)) i →
      (Function.update s u v w).info.PlacedIn g set := by
    intro u info v hbelow hcan hv
    by_cases hw : w = u
    · subst hw
      rw [Function.update_self, hv]
      exact ((hs w).below hbelow).insert hline.1 hcan hline.2
    · rw [Function.update_of_ne hw]
      exact hs w
  cases insertLine_cases h with
  | merged hmerge hplace =>
    exact hupdate (.refl _) (mergeWay_some hmerge).1 (placeLine_info hplace)
  | replaced _ _ hev hempty hplace =>
    refine hupdate (evictBlocks_below hev) ?_ (placeLine_info hplace)
    simp [SuperblockInfo.canInsertBlockInfo, hempty]
  | bypassed => exact hs w

/-- The lookup of an address in its own set, where a line may be in several ways. -/
theorem find_placedIn {addr : Addr} (hs : ∀ w, (s w).info.PlacedIn g (g.setOf addr)) :
    (∃ w, s.find (tagOf n addr) (g.blockIdOf addr) = .ok (some w) ∧ s.Resident (tagOf n addr)) ∨
    (s.find (tagOf n addr) (g.blockIdOf addr) = .ok none ∧ ¬s.Resident (tagOf n addr)) := by
  unfold CacheSet.find
  cases hfind : (List.finRange assoc).find?
      fun w => ((s w).info.compareTags (tagOf n addr)).isSome with
  | none =>
    refine .inr ⟨rfl, ?_⟩
    rintro ⟨w, b, hb⟩
    have hmiss := List.find?_eq_none.mp hfind w (List.mem_finRange w)
    exact hmiss (SuperblockInfo.compareTags_isSome.mpr ⟨b, hb⟩)
  | some w =>
    obtain ⟨b, hb⟩ := Option.isSome_iff_exists.mp (List.find?_eq_some_iff_append.mp hfind).1
    have htag := SuperblockInfo.compareTags_some hb
    have hplace : g.blockIdOf addr = b := by
      have hid := (hs w b _ htag).2.2.1
      rwa [g.blockIdOf_line] at hid
    refine .inl ⟨w, ?_, w, b, htag⟩
    simp [hb, hplace, check, bind, Except.bind, pure, Except.pure]

end CacheSet

/-! ### Pages -/

/-- A set of pages: every line is where its address says, and none has a coherence state. -/
structure PageSet (g : CacheGeometry n) (set : Nat) (s : PolicySet (CacheSetLRU n assoc)) : Prop where
  agrees : s.ways.Agrees
  placed : ∀ w, (s.ways w).info.PlacedIn g set
  settled : ∀ e ∈ s.ways.blocks, e.1.cstate = .invalid
  ways : s.repl.Perm (List.finRange assoc)

namespace PageSet

variable {g : CacheGeometry n} {set : Nat} {s s' : PolicySet (CacheSetLRU n assoc)} {o : Order}
variable {k k' : CompressionCntlr} {wbs : List (Writeback n)} {way : Fin (assoc + 1)}

theorem fresh : PageSet g set (PolicySet.fresh (CacheSetLRU n assoc)) where
  agrees _ := Way.agrees_fresh
  placed _ := SuperblockInfo.fresh_placedIn
  settled e he := by
    obtain ⟨w, b, hb, -, -⟩ := CacheSet.mem_blocks.mp he
    cases hb
  ways := .refl _

/-- No page waits for an upgrade. -/
theorem isValidReplacement (h : PageSet g set s) (w : Fin assoc) :
    (s.ways w).info.isValidReplacement = true := by
  rw [SuperblockInfo.isValidReplacement, List.all_eq_true]
  intro b _
  cases hi : (s.ways w).info.blockInfos b with
  | none => rfl
  | some i =>
    by_cases hv : i.isValid = true
    · have hstate := h.settled (i, (s.ways w).data.data b)
        (CacheSet.mem_blocks.mpr ⟨w, b, hi, hv, rfl⟩)
      have hstate' : i.cstate = .invalid := hstate
      simp [hstate']
    · simp [hv]

/-- A set of pages always has a way for one more. -/
theorem chooseWay_isOk (h : PageSet g set s) (hassoc : 0 < assoc) (linear : Addr → Addr)
    (i : CacheBlockInfo) (k : CompressionCntlr) :
    ∃ way l', s.chooseWay linear i none true () k = .ok (way, l') ∧ way.val < assoc := by
  have hmerge : ∃ r, s.ways.mergeFor linear i none k = .ok r := CacheSet.mergeWay_null _
  obtain ⟨r, hr⟩ := hmerge
  cases r with
  | some w =>
    refine ⟨w.castSucc, s.repl, ?_, w.isLt⟩
    simp [PolicySet.chooseWay, hr, bind, Except.bind, pure, Except.pure]
  | none =>
    have hfull := CacheSet.valid_of_mergeFor_none h.agrees hr
    rcases getReplacementWay_full hfull s.repl with ⟨w, hget, -⟩ | ⟨-, hnone⟩
    · refine ⟨w.castSucc, moveToBack s.repl w, ?_, w.isLt⟩
      simp [PolicySet.chooseWay, hr, hget, bind, Except.bind, pure, Except.pure]
    · rw [List.find?_eq_none] at hnone
      have hfirst := hnone ⟨0, hassoc⟩ (h.ways.mem_iff.mpr (List.mem_finRange _))
      exact absurd (h.isValidReplacement _) hfirst

/-- Only the victims are handed over. -/
theorem insertLine_victims (h : PageSet g set s) {linear : Addr → Addr} {i : CacheBlockInfo}
    (hins : s.insertLine linear o i none true () k = .ok (way, s', wbs, k')) {wb : Writeback n}
    (hwb : wb ∈ wbs) : wb.info.tag ∈ s.victims linear i k := by
  obtain ⟨hchoose, hways⟩ := PolicySet.insertLine_ways hins
  have hcase := CacheSet.insertLine_cases hways
  generalize s'.ways = ways at hcase
  cases hcase with
  | merged => cases hwb
  | @replaced w v v' _ _ _ hnone hway hev _ _ =>
    have hmerge : s.ways.mergeFor linear i none k = .ok none := hnone
    have hpicked : (CacheSetLRU.getReplacementWay s.ways s.repl).1 = way := by
      simp only [PolicySet.chooseWay, hmerge, except_bind_eq_ok, Except.ok.injEq, exists_eq_left',
        pure_eq_ok] at hchoose
      rw [hchoose]
    have hlt : way.val < assoc := by
      have := w.isLt
      omega
    have htags := evictBlocks_tags (h.agrees w) hev hwb
    have hw : w = ⟨way, hlt⟩ := Fin.ext hway
    rw [hw] at htags
    simp only [PolicySet.victims, hmerge, hpicked, hlt, dif_pos]
    exact htags
  | bypassed _ _ hsome => cases hsome

/-- A page is always taken. -/
theorem insertLine_isOk (h : PageSet g set s) (hassoc : 0 < assoc) (hk : k.compressible = false)
    {addr : Addr} (hset : g.setOf addr = set)
    (hvalid : (CacheBlockInfo.new (tagOf n addr)).isValid = true) (o : Order) :
    ∃ way s' wbs k', s.insertLine g.linear o (.new (tagOf n addr)) none true () k =
        .ok (way, s', wbs, k') ∧ PageSet g set s' ∧ k'.compressible = false ∧
      CacheSet.Inserted s.ways s'.ways (.new (tagOf n addr)) wbs ∧
      ∀ wb ∈ wbs, wb.addr = tagToAddress n wb.info.tag ∧
        wb.info.tag ∈ s.victims g.linear (.new (tagOf n addr)) k := by
  obtain ⟨way, l', hchoose, hway⟩ := h.chooseWay_isOk hassoc g.linear (.new (tagOf n addr)) k
  obtain ⟨ways, wbs, k', hins, hk', -⟩ : ∃ ways wbs k', s.ways.insertLine g.linear o
      (.new (tagOf n addr)) none way k = .ok (ways, wbs, k') ∧ k'.compressible = false ∧
        ∃ w b, (ways w).info.blockInfos b = some (.new (tagOf n addr)) :=
    CacheSet.insertLine_null h.agrees hk hway
  obtain ⟨hagree, hblocks⟩ := CacheSet.insertLine_spec h.agrees hvalid hins
  have hdone : s.insertLine g.linear o (.new (tagOf n addr)) none true () k =
      .ok (way, ⟨ways, l'⟩, wbs, k') := by
    simp [PolicySet.insertLine, hchoose, hins, bind, Except.bind, pure, Except.pure]
  refine ⟨way, ⟨ways, l'⟩, wbs, k', hdone, ⟨hagree, ?_, fun e he => ?_, ?_⟩, hk', ?_, ?_⟩
  · exact CacheSet.insertLine_placedIn h.placed hset rfl hins
  · have hmem : e ∈ s.ways.blocks + {(CacheBlockInfo.new (tagOf n addr), Line.zero)} := by
      have hsum := Multiset.mem_add (t := writebackBlocks wbs).mpr (.inl he)
      rw [hblocks] at hsum
      exact hsum
    rcases Multiset.mem_add.mp hmem with hmem | hmem
    · exact h.settled e hmem
    · rw [Multiset.mem_singleton.mp hmem]
      rfl
  · exact PolicySet.chooseWay_keeps (I := (List.Perm · (List.finRange assoc)))
      (fun _ _ _ _ => getReplacementWay_perm) h.ways hchoose
  · exact CacheSet.insertLine_inserted h.agrees hvalid hway hins
  · intro wb hwb
    exact ⟨CacheSet.insertLine_addr hins wb hwb, h.insertLine_victims hdone hwb⟩

end PageSet

end Sniper.Cache
