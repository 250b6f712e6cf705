import Sniper.Cheetah.Hits
set_option autoImplicit false

/-! The one pass against the caches it stands for: each of them simulated by itself, with its own
number of sets and ways. -/

namespace Sniper.Cheetah
open Sniper.Lib

/-! ### Lines -/

/-- The set of a line in a cache with `2 ^ s` sets. -/
def setIndex (s : Nat) (line : BitVec 64) : Nat := line.toNat % 2 ^ s

def tagOf (c : Config) (line : BitVec 64) : Nat := (line.sshiftRight c.A).toNat

variable {c : Config} {level ways : Nat} {line line' : BitVec 64}

theorem tagOf_testBit (b : Nat) (hb : c.A + b < 64) :
    (tagOf c line).testBit b = line.toNat.testBit (c.A + b) := by
  have hshift := BitVec.getLsbD_sshiftRight line c.A b
  rw [if_pos hb, decide_eq_false (by omega), Bool.not_false, Bool.true_and] at hshift
  rw [tagOf, BitVec.testBit_toNat, hshift, BitVec.testBit_toNat]

theorem tagOf_mod (hle : c.A + level ≤ 64) :
    tagOf c line % 2 ^ level = line.toNat / 2 ^ c.A % 2 ^ level := by
  refine Nat.eq_of_testBit_eq fun b => ?_
  rw [Nat.testBit_mod_two_pow, Nat.testBit_mod_two_pow, Nat.testBit_div_two_pow]
  by_cases hb : b < level
  · rw [tagOf_testBit b (by omega), Nat.add_comm]
  · rw [decide_eq_false hb, Bool.false_and, Bool.false_and]

/-- A class of tags in a set of the smallest cache is a set of a larger one. -/
theorem setIndex_add (hle : c.A + level ≤ 64) :
    setIndex (c.A + level) line = setIndex (c.A + level) line' ↔
      setIndex c.A line = setIndex c.A line' ∧
        tagOf c line % 2 ^ level = tagOf c line' % 2 ^ level := by
  rw [tagOf_mod hle, tagOf_mod hle, setIndex, setIndex, setIndex, setIndex, Nat.pow_add, Nat.mod_mul,
    Nat.mod_mul]
  have hpos := Nat.two_pow_pos c.A
  constructor
  · intro h
    have hlow : line.toNat % 2 ^ c.A = line'.toNat % 2 ^ c.A := by
      have hmod := congrArg (· % 2 ^ c.A) h
      simpa only [Nat.add_mul_mod_self_left, Nat.mod_mod] using hmod
    rw [hlow] at h
    exact ⟨hlow, Nat.eq_of_mul_eq_mul_left hpos (Nat.add_left_cancel h)⟩
  · rintro ⟨hlow, hhigh⟩
    rw [hlow, hhigh]

/-- Lines of one set have tags of their own. -/
theorem tagOf_inj (hset : setIndex c.A line = setIndex c.A line') (htag : tagOf c line = tagOf c line') :
    line = line' := by
  refine BitVec.eq_of_getLsbD_eq fun b hb => ?_
  rw [← BitVec.testBit_toNat, ← BitVec.testBit_toNat]
  by_cases hlow : b < c.A
  · have hbit := congrArg (Nat.testBit · b) hset
    simpa only [setIndex, Nat.testBit_mod_two_pow, hlow, decide_true, Bool.true_and] using hbit
  · obtain ⟨m, rfl⟩ := Nat.exists_eq_add_of_le (Nat.le_of_not_lt hlow)
    rw [← tagOf_testBit m hb, ← tagOf_testBit m hb, htag]

/-! ### Stacks -/

/-- The tag of an access is none of those the trees are filled with. -/
def Fresh (c : Config) (line : BitVec 64) : Prop := ∀ k < 2 ^ c.maxDepth, tagOf c line ≠ initTag k

theorem Fresh.not_mem (h : Fresh c line) : tagOf c line ∉ initStack c := by
  intro hin
  obtain ⟨k, hk, hin⟩ := List.mem_flatMap.mp hin
  exact h k (List.mem_range.mp hk) (List.eq_of_mem_replicate hin)

theorem Fresh.of_lt (h : tagOf c line < 0x80000000) : Fresh c line := by
  intro k _ heq
  rw [heq, initTag] at h
  omega

/-- The stacks of the trees in terms of one stack of lines. -/
def Lines (c : Config) (R : Config.Stacks) (lines : List (BitVec 64)) : Prop :=
  ∀ i, R i = (lines.filter fun l => decide (setIndex c.A l = i)).map (tagOf c) ++ initStack c

theorem Lines.access {R : Config.Stacks} {lines : List (BitVec 64)} (h : Lines c R lines)
    (addr : BitVec 64) (hfresh : Fresh c (c.line addr)) :
    Lines c (c.accessStacks R addr) (moveToFront lines (c.line addr)) := by
  have hset : c.setNo addr = setIndex c.A (c.line addr) := CheetahSACLRU.setNo_eq addr
  have htag : c.origTag addr = tagOf c (c.line addr) := rfl
  intro i
  rw [Config.accessStacks, htag]
  by_cases hi : i = c.setNo addr
  · have hown : (fun l => decide (setIndex c.A l = i)) (c.line addr) = true := by
      rw [hi, hset]
      exact decide_eq_true rfl
    rw [LruStack.filter_moveToFront_of_pos (p := fun l => decide (setIndex c.A l = i)) hown, hi, Function.update_self, h (c.setNo addr),
      LruStack.moveToFront_append hfresh.not_mem]
    congr 1
    refine (LruStack.map_moveToFront fun l hl htag => tagOf_inj ?_ htag).symm
    rw [of_decide_eq_true (List.mem_filter.mp hl).2, hset]
  · have hother : (fun l => decide (setIndex c.A l = i)) (c.line addr) = false :=
      decide_eq_false fun heq => hi (by rw [hset, heq])
    rw [Function.update_of_ne hi,
      LruStack.filter_moveToFront_of_neg (p := fun l => decide (setIndex c.A l = i)) hother]
    exact h i

/-- A line is found in its tree just if it is in its set of the cache. -/
theorem Lines.found_iff {R : Config.Stacks} {lines : List (BitVec 64)} (h : Lines c R lines)
    (hle : c.A + level ≤ 64) {contents : SetContents (BitVec 64) Nat}
    (hc : contents.Tops (setIndex (c.A + level)) ways lines) (addr : BitVec 64)
    (hfresh : Fresh c (c.line addr)) :
    c.found R level ways addr = true ↔ c.line addr ∈ contents (setIndex (c.A + level) (c.line addr)) := by
  have hset : c.setNo addr = setIndex c.A (c.line addr) := CheetahSACLRU.setNo_eq addr
  have hpart : tagClasses.part (R (c.setNo addr)) level (c.origTag addr) =
      (lines.filter fun l => decide (setIndex (c.A + level) l =
        setIndex (c.A + level) (c.line addr))).map (tagOf c) ++
        tagClasses.part (initStack c) level (c.origTag addr) := by
    rw [h (c.setNo addr), Classes.part, List.filter_append, List.filter_map, List.filter_filter]
    congr 2
    refine List.filter_congr fun l _ => ?_
    rw [Bool.eq_iff_iff, Bool.and_eq_true, Function.comp_apply, Classes.same_iff, decide_eq_true_iff,
      decide_eq_true_iff, setIndex_add hle, hset]
    exact and_comm
  have hback : tagOf c (c.line addr) ∉ tagClasses.part (initStack c) level (c.origTag addr) :=
    fun hin => hfresh.not_mem (List.mem_filter.mp hin).1
  rw [CheetahSACLRU.found_iff, hpart, List.take_append, List.mem_append, ← List.map_take, hc]
  constructor
  · rintro (hin | hin)
    · obtain ⟨l, hl, htag⟩ := List.mem_map.mp hin
      have hclass := of_decide_eq_true (List.mem_filter.mp (List.mem_of_mem_take hl)).2
      rw [setIndex_add hle] at hclass
      have heq := tagOf_inj hclass.1 htag
      subst heq
      exact hl
    · exact absurd (List.mem_of_mem_take hin) hback
  · exact fun hin => Or.inl (List.mem_map.mpr ⟨_, hin, rfl⟩)

theorem Lines.foundCount {R : Config.Stacks} {lines : List (BitVec 64)} (h : Lines c R lines)
    (hle : c.A + level ≤ 64) {contents : SetContents (BitVec 64) Nat}
    (hc : contents.Tops (setIndex (c.A + level)) ways lines) (addrs : List (BitVec 64))
    (hfresh : ∀ addr ∈ addrs, Fresh c (c.line addr)) :
    c.foundCount level ways R addrs =
      SetContents.hits (setIndex (c.A + level)) ways contents (addrs.map c.line) := by
  induction addrs generalizing R lines contents with
  | nil => rfl
  | cons addr addrs ih =>
    have hfirst := hfresh addr List.mem_cons_self
    rw [Config.foundCount, List.map_cons, SetContents.hits,
      ih (h.access addr hfirst) (hc.access _) fun a ha => hfresh a (List.mem_cons_of_mem addr ha)]
    congr 1
    exact if_congr (h.found_iff hle hc addr hfirst) rfl rfl

/-! ### Answers -/

namespace CheetahSACLRU

/-- The count of a cache is that of the cache simulated by itself. -/
theorem Simulates.lru {addrs : List (BitVec 64)} {s : CheetahSACLRU} (h : Simulates c addrs s)
    (hfresh : ∀ addr ∈ addrs, Fresh c (c.line addr)) {setsLog2 assoc : Nat} (hmin : c.A ≤ setsLog2)
    (hmax : setsLog2 ≤ c.B) (hassoc : assoc ≤ c.twoPwrN) :
    (s.hits c setsLog2 assoc).1 =
      SetContents.hits (setIndex setsLog2) assoc .empty (addrs.map c.line) := by
  have hA := a_lt c
  have hD := c.maxDepth_lt
  have hdepth : c.maxDepth = c.B - c.A := rfl
  obtain ⟨level, rfl⟩ := Nat.exists_eq_add_of_le hmin
  have hlevel : c.A + level - c.A ≤ c.maxDepth := by omega
  have hlines : Lines c (fun _ => initStack c) [] := fun _ => rfl
  rw [hits_eq _ hlevel, h.counts _ hlevel assoc hassoc, Nat.add_sub_cancel_left]
  exact hlines.foundCount (by omega) (SetContents.tops_empty _ _) _ hfresh

/-- The hits reported for a cache are those of the cache simulated by itself, after any accesses and
queries. -/
theorem hits_eq_lru (c : Config) (ops : List Op)
    (hfresh : ∀ addr ∈ addresses ops, Fresh c (c.line addr)) {setsLog2 assoc : Nat}
    (hmin : c.A ≤ setsLog2) (hmax : setsLog2 ≤ c.B) (hassoc : assoc ≤ c.twoPwrN) :
    ((run c ops).hits c setsLog2 assoc).1 =
      SetContents.hits (setIndex setsLog2) assoc .empty ((addresses ops).map c.line) :=
  (simulates_run ops).lru hfresh hmin hmax hassoc

/-- Four accesses to a cache of one or two sets of two ways. -/
def sampleConfig : Config := ⟨1, 2, 0, 0, Nat.zero_le 2, by decide⟩

def sampleOps : List Op := [.access 4, .access 6, .hits 1 2, .access 8, .access 4]

theorem sampleOps_fresh : ∀ addr ∈ addresses sampleOps, Fresh sampleConfig (sampleConfig.line addr) := by
  intro addr haddr
  refine Fresh.of_lt ?_
  simp only [addresses, sampleOps, List.filterMap_cons, Op.address, List.filterMap_nil, List.mem_cons,
    List.not_mem_nil, or_false] at haddr
  rcases haddr with rfl | rfl | rfl | rfl <;> simp [tagOf, Config.line, sampleConfig]

theorem hits_eq_lru_sample :
    ((run sampleConfig sampleOps).hits sampleConfig 1 2).1 =
      SetContents.hits (setIndex 1) 2 .empty ((addresses sampleOps).map sampleConfig.line) :=
  hits_eq_lru sampleConfig sampleOps sampleOps_fresh (show sampleConfig.A ≤ 1 by decide)
    (show 1 ≤ sampleConfig.B by decide) (show 2 ≤ sampleConfig.twoPwrN by decide)

/-- More sets or more ways never mean fewer hits, whatever tags are accessed. -/
theorem hits_mono (c : Config) (ops : List Op) {setsLog2 setsLog2' assoc assoc' : Nat}
    (hmin : c.A ≤ setsLog2) (hsets : setsLog2 ≤ setsLog2') (hmax : setsLog2' ≤ c.B)
    (hways : assoc ≤ assoc') (hassoc : assoc' ≤ c.twoPwrN) :
    ((run c ops).hits c setsLog2 assoc).1 ≤ ((run c ops).hits c setsLog2' assoc').1 ∧
      ((run c ops).hits c setsLog2' assoc').1 ≤ (run c ops).tEntries := by
  have hdepth : c.maxDepth = c.B - c.A := rfl
  have hsim := simulates_run (c := c) ops
  rw [hits_eq _ (show setsLog2 - c.A ≤ c.maxDepth by omega), hits_eq _ (show setsLog2' - c.A ≤ c.maxDepth by omega),
    hsim.counts _ (by omega) assoc (hways.trans hassoc), hsim.counts _ (by omega) assoc' hassoc,
    hsim.tEntries]
  have hfound : ∀ R addr, c.found R (setsLog2 - c.A) assoc addr = true →
      c.found R (setsLog2' - c.A) assoc' addr = true := by
    intro R addr h
    rw [found_iff] at h ⊢
    have hdepths := LruStack.mem_take_iff_idxOf.mp h
    have hfiner : tagClasses.part (R (c.setNo addr)) (setsLog2' - c.A) (c.origTag addr) =
        (tagClasses.part (R (c.setNo addr)) (setsLog2 - c.A) (c.origTag addr)).filter
          (tagClasses.same (setsLog2' - c.A) (c.origTag addr)) :=
      (Classes.filter_same_same _ (by omega)).symm
    rw [LruStack.mem_take_iff_idxOf, hfiner]
    exact ⟨List.mem_filter.mpr ⟨hdepths.1, Classes.same_iff.mpr rfl⟩,
      (LruStack.idxOf_filter_le (Classes.same_iff.mpr rfl)).trans_lt (hdepths.2.trans_le hways)⟩
  constructor
  · generalize (fun _ => initStack c) = R
    induction addresses ops generalizing R with
    | nil => exact Nat.le_refl 0
    | cons addr addrs ih =>
      rw [Config.foundCount, Config.foundCount]
      refine Nat.add_le_add ?_ (ih _)
      by_cases h : c.found R (setsLog2 - c.A) assoc addr = true
      · rw [if_pos h, if_pos (hfound R addr h)]
      · rw [if_neg h]
        exact Nat.zero_le _
  · generalize (fun _ => initStack c) = R
    induction addresses ops generalizing R with
    | nil => exact Nat.le_refl 0
    | cons addr addrs ih =>
      rw [Config.foundCount, List.length_cons, Nat.add_comm]
      refine Nat.add_le_add (ih _) ?_
      split
      · exact Nat.le_refl 1
      · exact Nat.zero_le 1

theorem hits_mono_sample :
    ((run sampleConfig sampleOps).hits sampleConfig 0 1).1 ≤
        ((run sampleConfig sampleOps).hits sampleConfig 1 2).1 ∧
      ((run sampleConfig sampleOps).hits sampleConfig 1 2).1 ≤ (run sampleConfig sampleOps).tEntries :=
  hits_mono sampleConfig sampleOps (show sampleConfig.A ≤ 0 by decide) (show 0 ≤ 1 by decide)
    (show 1 ≤ sampleConfig.B by decide) (show 1 ≤ 2 by decide)
    (show 2 ≤ sampleConfig.twoPwrN by decide)

/-- The slots of the array after any run: nothing is written behind the trees, the first used position
of a slot is one of its positions or the one behind it, and the tags from there on are of its set. -/
theorem slots_run (c : Config) (ops : List Op) :
    (∀ p, 2 ^ c.A * c.sizeOfTree ≤ p → (run c ops).arr p = 0) ∧
      ∀ i < 2 ^ c.A, ∀ d ≤ c.maxDepth, ∀ k < 2 ^ d,
        0 < (run c ops).arr (c.slotAt i d k) ∧ (run c ops).arr (c.slotAt i d k) ≤ c.twoPwrN + 1 ∧
          ∀ q, (run c ops).arr (c.slotAt i d k) ≤ q → q ≤ c.twoPwrN →
            (run c ops).arr (c.slotAt i d k + q) % 2 ^ d = k := by
  have hsim := simulates_run (c := c) ops
  refine ⟨hsim.outside, fun i hi d hd k hk => ?_⟩
  have hslot := hsim.tree i hi d hd k hk
  have hheader := hslot.header
  have hle : (stackNode c (c.stacksAfter (addresses ops) i) d k).length ≤ c.twoPwrN :=
    Classes.length_node_le
  refine ⟨by omega, by omega, fun q hq hqn => ?_⟩
  obtain ⟨j, rfl⟩ := Nat.exists_eq_add_of_le hq
  have hj : j < (stackNode c (c.stacksAfter (addresses ops) i) d k).length := by omega
  rw [hslot.entries j hj]
  have hmem := Classes.mem_node_same (List.getElem_mem hj)
  rwa [tagClasses_cls, tagClasses_cls, Nat.mod_eq_of_lt hk] at hmem

end CheetahSACLRU

end Sniper.Cheetah
