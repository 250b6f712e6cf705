import Sniper.Cache.QueryBased
set_option autoImplicit false

/-! What a writeback to a set pushes out of it. -/

namespace Sniper.Cache
open Sniper.Lib Dish

variable {n assoc : Nat}

/-- No line that was pushed out by the line with this tag is in a previous level. -/
def SparesLower (lower : LowerLevel) (tag : Addr) (wbs : List (Writeback n)) : Prop :=
  ∀ wb ∈ wbs, wb.info.tag ≠ tag → lower wb.info = false

theorem mem_blocks_iff {v : Way n} {e : CacheBlockInfo × Line n} : e ∈ v.blocks ↔
    ∃ b, v.info.blockInfos b = some e.1 ∧ e.1.isValid = true ∧ v.data.data b = e.2 := by
  obtain ⟨i, line⟩ := e
  simp only [Way.blocks, Multiset.mem_sum, Finset.mem_univ, true_and]
  refine exists_congr fun b => ?_
  by_cases hat : v.info.isValidAt b = true
  · obtain ⟨j, hj, hvalid⟩ := Way.isValidAt_iff.mp hat
    rw [Way.block_of_valid hj hvalid, hj]
    simp only [Multiset.mem_singleton, Prod.mk.injEq, Option.some.injEq]
    constructor
    · rintro ⟨rfl, rfl⟩
      exact ⟨rfl, hvalid, rfl⟩
    · rintro ⟨rfl, -, rfl⟩
      exact ⟨rfl, rfl⟩
  · rw [Way.block_of_invalid (eq_false_of_ne_true hat)]
    simp only [Multiset.notMem_zero, false_iff]
    rintro ⟨hi, hvalid, -⟩
    exact hat (Way.isValidAt_iff.mpr ⟨i, hi, hvalid⟩)

/-- The loop over a superblock pushes out its lines, all of them. -/
theorem evictBlocks_infos {v v' : Way n} {k k' : CompressionCntlr} {wbs : List (Writeback n)}
    (hv : v.Agrees) (hempty : v'.info.isValid = false)
    (h : CacheSet.evictBlocks v k (List.finRange superblockSize) = .ok (v', wbs, k'))
    (i : CacheBlockInfo) :
    (∃ wb ∈ wbs, wb.info = i) ↔ ∃ b, v.info.blockInfos b = some i ∧ i.isValid = true := by
  obtain ⟨-, hblocks⟩ := CacheSet.evictBlocks_spec hv h
  have hnone : ∀ e, e ∉ v'.blocks := by
    intro e he
    obtain ⟨b, hb, hvalid, -⟩ := mem_blocks_iff.mp he
    rw [SuperblockInfo.not_valid_of_isValid hempty hb] at hvalid
    cases hvalid
  constructor
  · rintro ⟨wb, hwb, rfl⟩
    have hmem : (wb.info, wb.data) ∈ v.blocks := by
      rw [hblocks, Multiset.mem_add]
      exact .inr (Multiset.mem_coe.mpr (List.mem_map_of_mem hwb))
    obtain ⟨b, hb, hvalid, -⟩ := mem_blocks_iff.mp hmem
    exact ⟨b, hb, hvalid⟩
  · rintro ⟨b, hb, hvalid⟩
    have hmem : (i, v.data.data b) ∈ v.blocks := mem_blocks_iff.mpr ⟨b, hb, hvalid, rfl⟩
    rw [hblocks, Multiset.mem_add] at hmem
    have hout := hmem.resolve_left (hnone _)
    obtain ⟨wb, hwb, heq⟩ := List.mem_map.mp (Multiset.mem_coe.mp hout)
    exact ⟨wb, hwb, congrArg Prod.fst heq⟩

namespace PolicySet

variable {p : Policy n assoc}

/-- A line that is written does not fit in its place and joins no other superblock. `ways` is the set
without it. -/
def Displaced (linear : Addr → Addr) (s : PolicySet p) (tag : Addr) (b : BlockId) (a : Slice n)
    (wr : Option Ptr) (k : CompressionCntlr) (ways : CacheSet n assoc) : Prop :=
  ∃ w i line k', s.ways.find tag b = .ok (some w) ∧
    (s.ways w).data.canWriteBlockData b a wr k = .ok false ∧
    s.ways.takeOut w b k = .ok (i, line, ways, k') ∧
    ways.mergeFor linear i (some (CacheSet.patched line a wr).ptr) k' = .ok none

variable {linear : Addr → Addr} {o : Order} {s : PolicySet p} {tag : Addr} {b : BlockId}
variable {a : Slice n} {wr : Option Ptr} {update isWriteback : Bool} {answers : p.Answers}
variable {uninit : Nat} {k : CompressionCntlr} {st : Stored p}

theorem displaced_full {ways : CacheSet n assoc} (hs : s.ways.Agrees)
    (h : Displaced linear s tag b a wr k ways) (w : Fin assoc) :
    (ways w).Agrees ∧ (ways w).info.isValid = true := by
  obtain ⟨w', i, line, k', hfind, -, htake, hmerge⟩ := h
  have hways := (takeOut_agrees hs hfind htake).1
  exact ⟨hways w, CacheSet.valid_of_mergeFor_none hways hmerge w⟩

/-- A write in place displaces no line. -/
theorem Displaced.not_canWrite {ways : CacheSet n assoc} {w : Fin assoc}
    (h : Displaced linear s tag b a wr k ways) (hfind : s.ways.find tag b = .ok (some w))
    (hcan : (s.ways w).data.canWriteBlockData b a wr k = .ok true) : False := by
  obtain ⟨w', -, -, -, hfind', hcan', -⟩ := h
  rw [hfind, Except.ok.injEq, Option.some.injEq] at hfind'
  rw [← hfind', hcan] at hcan'
  cases hcan'

/-- The line that is displaced is the one that is taken out. -/
theorem Displaced.takenOut {ways ways' : CacheSet n assoc} {w : Fin assoc} {i : CacheBlockInfo}
    {line : Line n} {k' : CompressionCntlr} (h : Displaced linear s tag b a wr k ways')
    (hfind : s.ways.find tag b = .ok (some w))
    (htake : s.ways.takeOut w b k = .ok (i, line, ways, k')) :
    ways' = ways ∧
      ways.mergeFor linear i (some (CacheSet.patched line a wr).ptr) k' = .ok none := by
  obtain ⟨w', i', line', k₁, hfind', -, htake', hmerge⟩ := h
  rw [hfind, Except.ok.injEq, Option.some.injEq] at hfind'
  subst hfind'
  rw [htake, Except.ok.injEq, Prod.mk.injEq, Prod.mk.injEq, Prod.mk.injEq] at htake'
  obtain ⟨rfl, rfl, rfl, rfl⟩ := htake'
  exact ⟨rfl, hmerge⟩

theorem takeOut_tag {ways : CacheSet n assoc} {w : Fin assoc} {i : CacheBlockInfo}
    {line : Line n} {k' : CompressionCntlr} (hfind : s.ways.find tag b = .ok (some w))
    (htake : s.ways.takeOut w b k = .ok (i, line, ways, k')) : i.tag = tag := by
  obtain ⟨info, data, hinfo, -, -⟩ := takeOut_cases htake
  obtain ⟨i', hi', -, htag⟩ := CacheSet.find_some hfind
  have hi : (s.ways w).info.blockInfos b = some i := congrArg Prod.fst hinfo
  rw [hi', Option.some.injEq] at hi
  rw [← hi]
  exact htag

/-- What a write pushes out, the written line apart: the lines of the way that the policy gives up for a
displaced line. -/
theorem mem_writebacks_iff (hs : s.ways.Agrees)
    (h : s.writeLine linear o tag b a wr update isWriteback answers uninit k = .ok st)
    {i : CacheBlockInfo} (hi : i.tag ≠ tag) :
    (∃ wb ∈ st.writebacks, wb.info = i) ↔
      ∃ ways, Displaced linear s tag b a wr k ways ∧ ∃ w : Fin assoc,
        (p.getReplacementWay ways s.repl (!isWriteback) answers).1 = w.castSucc ∧
          ∃ b, (ways w).info.blockInfos b = some i ∧ i.isValid = true := by
  simp only [writeLine, except_bind_eq_ok, pure_eq_ok] at h
  obtain ⟨st, hstore, repl, -, rfl⟩ := h
  obtain ⟨w, hfind, hcase⟩ := storeLine_cases hstore
  cases hcase with
  | inPlace hcan hwrite =>
    simp only [List.not_mem_nil, false_and, exists_false, false_iff]
    rintro ⟨ways, hdis, -⟩
    exact hdis.not_canWrite hfind hcan
  | @reinserted j line ways k₁ k₂ way u wbs finalWay hcan htake hins hwb hagain =>
    obtain ⟨uways, urepl⟩ := u
    obtain ⟨hchoose, hways⟩ := insertLine_ways hins
    obtain ⟨hagree, -⟩ := takeOut_agrees hs hfind htake
    simp only [chooseWay, except_bind_eq_ok] at hchoose
    obtain ⟨merge, hmerge, hchoose⟩ := hchoose
    cases CacheSet.insertLine_cases hways with
    | merged hmerged hplace =>
      simp only [List.not_mem_nil, false_and, exists_false, false_iff]
      rintro ⟨ways', hdis, -⟩
      obtain ⟨-, hnone⟩ := hdis.takenOut hfind htake
      simp only [CacheSet.mergeFor] at hnone
      rw [hmerged] at hnone
      cases hnone
    | @replaced w' v v' _ _ _ hnone hway hev hempty hplace =>
      simp only [CacheSet.mergeFor] at hmerge
      rw [hnone, Except.ok.injEq] at hmerge
      subst hmerge
      rw [pure_eq_ok] at hchoose
      have hgiven : (p.getReplacementWay ways s.repl (!isWriteback) answers).1 = w'.castSucc := by
        rw [hchoose]
        exact Fin.ext hway.symm
      rw [evictBlocks_infos (hagree w') hempty hev]
      constructor
      · rintro ⟨b', hb', hvalid⟩
        refine ⟨ways, ⟨w, j, line, k₁, hfind, hcan, htake, ?_⟩, w', hgiven, b', hb', hvalid⟩
        simp only [CacheSet.mergeFor, hnone]
      · rintro ⟨ways', hdis, w'', hgiven', b', hb', hvalid⟩
        obtain ⟨rfl, -⟩ := hdis.takenOut hfind htake
        rw [hgiven] at hgiven'
        obtain rfl := Fin.castSucc_injective _ hgiven'
        exact ⟨b', hb', hvalid⟩
    | bypassed hnone hway hsome =>
      simp only [CacheSet.mergeFor] at hmerge
      rw [hnone, Except.ok.injEq] at hmerge
      subst hmerge
      rw [pure_eq_ok] at hchoose
      have hlast : (p.getReplacementWay ways s.repl (!isWriteback) answers).1 = Fin.last assoc := by
        rw [hchoose]
        exact Fin.ext hway
      constructor
      · rintro ⟨wb, hwb', rfl⟩
        rw [List.mem_singleton.mp hwb'] at hi
        exact absurd (takeOut_tag hfind htake) hi
      · rintro ⟨ways', hdis, w'', hgiven, -⟩
        obtain ⟨rfl, -⟩ := hdis.takenOut hfind htake
        rw [hlast] at hgiven
        exact absurd hgiven.symm (Fin.castSucc_ne_last w'')

theorem run_agrees (h : Reachable (machine p linear) s) : s.ways.Agrees := by
  refine h.invariant (I := fun s => s.ways.Agrees) ?_ ?_
  · rintro u rfl w
    exact Way.agrees_fresh
  · intro u call touched u' hu hstep
    exact perform_agrees hu hstep

end PolicySet

/-- When a written line joins no superblock, the least recently used way that may be replaced holds no other
line of a previous level. -/
def VictimNotBelow (linear : Addr → Addr) (s : PolicySet (CacheSetLRU n assoc)) (tag : Addr)
    (b : BlockId) (a : Slice n) (wr : Option Ptr) (k : CompressionCntlr) (lower : LowerLevel) : Prop :=
  ∀ ways, s.Displaced linear tag b a wr k ways →
    ∀ w, s.repl.find? (fun w => (ways w).info.isValidReplacement) = some w →
      ∀ b' i, (ways w).info.blockInfos b' = some i → i.isValid = true → i.tag ≠ tag →
        lower i = false

section

variable {linear : Addr → Addr} {o : Order} {tag : Addr} {b : BlockId}
variable {a : Slice n} {wr : Option Ptr} {update : Bool} {uninit : Nat} {k : CompressionCntlr}

theorem qbs_sparesLower {attempts : Nat} {s : PolicySet (CacheSetLRUQBS attempts n assoc)}
    {lower : LowerLevel} {st : PolicySet.Stored (CacheSetLRUQBS attempts n assoc)}
    (hs : s.ways.Agrees) (hl : s.repl.Perm (List.finRange assoc))
    (h : s.writeLine linear o tag b a wr update true lower uninit k = .ok st) :
    SparesLower lower tag st.writebacks := by
  intro wb hwb htag
  obtain ⟨ways, -, w, hway, b', hb', hvalid⟩ :=
    (PolicySet.mem_writebacks_iff hs h htag).mp ⟨wb, hwb, rfl⟩
  have hrespects : CacheSetLRUQBS.Respects ways false lower attempts _ :=
    CacheSetLRUQBS.getReplacementWay_respects hl
  exact SuperblockInfo.rejected_eq_false_iff.mp (hrespects.spared rfl w hway) b' _ hb' hvalid

theorem lru_sparesLower_iff {s : PolicySet (CacheSetLRU n assoc)}
    {lower : LowerLevel} {st : PolicySet.Stored (CacheSetLRU n assoc)} (hs : s.ways.Agrees)
    (h : s.writeLine linear o tag b a wr update true () uninit k = .ok st) :
    SparesLower lower tag st.writebacks ↔ VictimNotBelow linear s tag b a wr k lower := by
  -- in the full set the answer is the first way of the list that may be replaced
  have hpick : ∀ ways, s.Displaced linear tag b a wr k ways → ∀ w : Fin assoc,
      (CacheSetLRU.getReplacementWay ways s.repl).1 = w.castSucc ↔
        s.repl.find? (fun w => (ways w).info.isValidReplacement) = some w := by
    intro ways hdis w
    have hfull := fun w => (PolicySet.displaced_full hs hdis w).2
    rcases getReplacementWay_full hfull s.repl with ⟨w', hget, hfind⟩ | ⟨hget, hfind⟩
    · rw [hget, hfind]
      simp only [Option.some.injEq]
      exact Fin.castSucc_inj
    · rw [hget, hfind]
      simp only [reduceCtorEq, iff_false]
      exact (Fin.castSucc_ne_last w).symm
  constructor
  · intro hspares ways hdis w hw b' i hi hvalid htag
    obtain ⟨wb, hwb, rfl⟩ := (PolicySet.mem_writebacks_iff hs h htag).mpr
      ⟨ways, hdis, w, (hpick ways hdis w).mpr hw, b', hi, hvalid⟩
    exact hspares wb hwb htag
  · intro hvictim wb hwb htag
    obtain ⟨ways, hdis, w, hway, b', hb', hvalid⟩ :=
      (PolicySet.mem_writebacks_iff hs h htag).mp ⟨wb, hwb, rfl⟩
    exact hvictim ways hdis w ((hpick ways hdis w).mp hway) b' _ hb' hvalid htag

end

/-- Under query-based selection a writeback pushes out no line of a previous level. Under LRU, which does not
look at the flag, exactly when the victim it finds has none. -/
theorem writeback_sparesLower (linear : Addr → Addr) (o : Order) (tag : Addr) (b : BlockId)
    (a : Slice n) (wr : Option Ptr) (update : Bool) (uninit : Nat) (k : CompressionCntlr)
    (lower : LowerLevel) :
    (∀ attempts, ∀ s : PolicySet (CacheSetLRUQBS attempts n assoc),
      Reachable (PolicySet.machine (CacheSetLRUQBS attempts n assoc) linear) s →
      ∀ st, s.writeLine linear o tag b a wr update true lower uninit k = .ok st →
        SparesLower lower tag st.writebacks) ∧
    (∀ s : PolicySet (CacheSetLRU n assoc),
      Reachable (PolicySet.machine (CacheSetLRU n assoc) linear) s →
      ∀ st, s.writeLine linear o tag b a wr update true () uninit k = .ok st →
        (SparesLower lower tag st.writebacks ↔ VictimNotBelow linear s tag b a wr k lower)) := by
  constructor
  · intro attempts s hs st h
    exact qbs_sparesLower (PolicySet.run_agrees hs) (CacheSetLRUQBS.repl_perm hs) h
  · intro s hs st h
    exact lru_sparesLower_iff (PolicySet.run_agrees hs) h

/-- Two neighbouring lines in one way, a line of another superblock in the other. -/
def pairAndOther (p : Policy 64 2) (answers : p.Answers) : List (PolicyCall p) :=
  [⟨.insertLine (.new 0) (some fun _ => 0) true answers, BlockData.sampleCntlr false false, .greatest⟩,
   ⟨.insertLine (.new 1) (some fun _ => 0) true answers, BlockData.sampleCntlr false false, .greatest⟩,
   ⟨.insertLine (.new 64) (some fun _ => 0) true answers, BlockData.sampleCntlr false false, .greatest⟩]

open scoped Lib.Literals in
/-- The first line of the pair is written back and no longer compressible. -/
def growFirst {p : Policy 64 2} (s : PolicySet p) (answers : p.Answers) : Outcome (PolicySet.Stored p) :=
  s.writeLine id .greatest 0 0 .full (some PolicySet.freshChunks) false true answers 0
    (BlockData.sampleCntlr false false)

/-- Then its neighbour is pushed out, although a previous level has it. -/
theorem lru_pushes_out_lower :
    ¬∀ s : PolicySet (CacheSetLRU 64 2), Reachable (PolicySet.machine (CacheSetLRU 64 2) id) s →
      ∀ (tag : Addr) (b : BlockId) (a : Slice 64) (wr : Option Ptr) (update : Bool) (uninit : Nat)
        (k : CompressionCntlr) (lower : LowerLevel) (st : PolicySet.Stored (CacheSetLRU 64 2)),
        s.writeLine id .greatest tag b a wr update true () uninit k = .ok st →
          SparesLower lower tag st.writebacks := by
  intro hall
  have heval : (performEach (PolicySet.perform id) (fun _ _ => true) (PolicySet.fresh (CacheSetLRU 64 2))
      (pairAndOther _ ())).any (fun s => Outcome.test (growFirst s ()) fun st =>
        st.writebacks.any fun wb => wb.info.tag == 1) = true := by
    rfl
  obtain ⟨s, hs, heval⟩ := Option.any_eq_true _ _ |>.mp heval
  obtain ⟨st, hst, hout⟩ := Outcome.test_eq_true heval
  obtain ⟨wb, hwb, htag⟩ := List.any_eq_true.mp hout
  rw [beq_iff_eq] at htag
  have hspared := hall s (PolicySet.performEach_reachable hs) _ _ _ _ _ _ _ (fun i => i.tag == 1) st hst wb hwb
    (by rw [htag]; decide)
  simp [htag] at hspared

/-- Query-based selection gives up the other way, or passes the written line on. -/
theorem writeback_sparesLower_pairAndOther : ∃ s : PolicySet (CacheSetLRUQBS 1 64 2),
    Reachable (PolicySet.machine (CacheSetLRUQBS 1 64 2) id) s ∧
    ∃ st, growFirst s (fun i => i.tag == 1) = .ok st ∧ st.writebacks ≠ [] ∧
      SparesLower (fun i => i.tag == 1) 0 st.writebacks := by
  have heval : (performEach (PolicySet.perform id) (fun _ _ => true)
      (PolicySet.fresh (CacheSetLRUQBS 1 64 2)) (pairAndOther _ fun i => i.tag == 1)).any
        (fun s => Outcome.test (growFirst s fun i => i.tag == 1) fun st =>
          !st.writebacks.isEmpty) = true := by
    rfl
  obtain ⟨s, hs, heval⟩ := Option.any_eq_true _ _ |>.mp heval
  obtain ⟨st, hst, hout⟩ := Outcome.test_eq_true heval
  refine ⟨s, PolicySet.performEach_reachable hs, st, hst, by simpa using hout, ?_⟩
  exact (writeback_sparesLower id .greatest 0 0 .full (some PolicySet.freshChunks) false 0
    (BlockData.sampleCntlr false false) fun i => i.tag == 1).1 1 s (PolicySet.performEach_reachable hs) st hst

end Sniper.Cache
