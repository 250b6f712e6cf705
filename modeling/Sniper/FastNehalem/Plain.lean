import Sniper.FastNehalem.MemoryManager
import Mathlib.Algebra.BigOperators.Fin
set_option autoImplicit false

/-! The time stamps against plain lists of recently used lines, and what the counters add up to. -/

namespace Sniper.FastNehalem
open Sniper.Lib

/-! ### Caches as lists of lines -/

/-- A cache whose sets are lists, the most recently used line first. -/
def plainLookup (assoc sizeKb : Nat) (c : SetContents Tag Nat) (_op : MemOp) (tag : Tag) :
    Bool × SetContents Tag Nat :=
  (decide (tag ∈ c (Cache.setIndex assoc sizeKb tag)), c.access (Cache.setIndex assoc sizeKb) assoc tag)

def plainLookups : Lookups (SetContents Tag Nat) where
  icache := plainLookup 4 32
  dcache := plainLookup 8 32
  l2cache := plainLookup 8 256
  l3cache := plainLookup 16 8192

/-- The sets of a cache in order of use are the lists, followed by ways never used. -/
def Listed (assoc : Nat) (c : Cache) (p : SetContents Tag Nat) : Prop :=
  ∃ w : SetContents Tag Nat,
    (∀ i, ∃ ways, CacheSet.Order assoc (c.sets i) ways ∧ ways.map (c.sets i).tags = w i) ∧
      w.Padded assoc p (List.replicate assoc 0)

theorem listed_fresh (assoc : Nat) : Listed assoc .fresh .empty := by
  refine ⟨fun _ => List.replicate assoc 0, fun i => ⟨_, CacheSet.Order.fresh assoc, ?_⟩, fun i => ?_⟩
  · refine List.eq_replicate_iff.mpr ⟨?_, fun t ht => ?_⟩
    · rw [List.length_map, List.length_reverse, List.length_range]
    · obtain ⟨a, -, rfl⟩ := List.mem_map.mp ht
      rfl
  · refine ⟨?_, Nat.zero_le assoc⟩
    rw [SetContents.empty, List.nil_append, List.take_of_length_le]
    rw [List.length_replicate]

namespace Cache

variable {assoc sizeKb : Nat} {c : Cache} {op : MemOp} {tag : Tag}

@[simp] theorem countAccess_sets (c : Cache) (op : MemOp) : (c.countAccess op).sets = c.sets := by
  rw [countAccess]
  split <;> rfl

@[simp] theorem countMiss_sets (c : Cache) (op : MemOp) : (c.countMiss op).sets = c.sets := by
  rw [countMiss]
  split <;> rfl

theorem lookup_fst : (lookup assoc sizeKb c op tag).1 =
    ((c.sets (setIndex assoc sizeKb tag)).find assoc tag).1 := by
  simp only [lookup, countAccess_sets]
  split
  · next h => exact h.symm
  · next h => exact (Bool.eq_false_of_not_eq_true h).symm

theorem lookup_sets : (lookup assoc sizeKb c op tag).2.sets =
    Function.update c.sets (setIndex assoc sizeKb tag)
      ((c.sets (setIndex assoc sizeKb tag)).find assoc tag).2 := by
  simp only [lookup, countAccess_sets]
  split
  · rfl
  · rw [countMiss_sets]

end Cache

theorem listed_alike {assoc : Nat} (sizeKb : Nat) (hpos : 0 < assoc) :
    Alike (fun tag => tag ≠ 0) (Listed assoc) (Cache.lookup assoc sizeKb) (plainLookup assoc sizeKb) := by
  intro c p h op tag htag
  obtain ⟨w, hways, hpad⟩ := h
  have hout : tag ∉ List.replicate assoc (0 : Tag) := fun hin => htag (List.eq_of_mem_replicate hin)
  obtain ⟨ways, horder, hmap⟩ := hways (Cache.setIndex assoc sizeKb tag)
  obtain ⟨hanswer, ways', horder', hmap'⟩ := horder.find hpos htag
  rw [hmap] at hanswer hmap'
  constructor
  · rw [Cache.lookup_fst, hanswer, plainLookup]
    exact decide_eq_decide.mpr (hpad.mem_iff hout _)
  · refine ⟨w.access (Cache.setIndex assoc sizeKb) assoc tag, fun i => ?_, hpad.access hout⟩
    rw [Cache.lookup_sets, SetContents.access]
    by_cases hi : i = Cache.setIndex assoc sizeKb tag
    · rw [hi, Function.update_self, Function.update_self]
      exact ⟨ways', horder', hmap'⟩
    · rw [Function.update_of_ne hi, Function.update_of_ne hi]
      exact hways i

def listed : Relation (fun tag : Tag => tag ≠ 0) lookups plainLookups where
  icache := Listed 4
  dcache := Listed 8
  l2cache := Listed 8
  l3cache := Listed 16
  icache_alike := listed_alike 32 (Nat.succ_pos 3)
  dcache_alike := listed_alike 32 (Nat.succ_pos 7)
  l2cache_alike := listed_alike 256 (Nat.succ_pos 7)
  l3cache_alike := listed_alike 8192 (Nat.succ_pos 15)

namespace MemoryManager

variable {n : Nat}

/-- Every access of a run takes as long as it would with lists of recently used lines, from empty
caches on. -/
theorem latencies_eq_plain (as : List (Access n)) (has : ∀ a ∈ as, a.address >>> 6 ≠ 0) :
    (run lookups (make .fresh) as).1 = (run plainLookups (make .empty) as).1 := by
  have hmade : Related listed (make .fresh : MemoryManager Cache n) (make .empty) :=
    ⟨fun _ => listed_fresh 4, fun _ => listed_fresh 8, fun _ => listed_fresh 8, listed_fresh 16⟩
  exact (hmade.run as has).1

theorem latencies_eq_plain_sample :
    (run lookups (make .fresh : MemoryManager Cache 1) [⟨⟨0, Nat.one_pos⟩, true, .read, 64#64⟩]).1 =
      (run plainLookups (make .empty) [⟨⟨0, Nat.one_pos⟩, true, .read, 64#64⟩]).1 :=
  latencies_eq_plain _ (by simp)

end MemoryManager

/-! ### Counters -/

namespace MemOp

def isWrite (op : MemOp) : Bool := decide (op = .write)

/-- One more for the kind of access that it is. -/
def one (op : MemOp) (w : Bool) : Nat := if op.isWrite = w then 1 else 0

end MemOp

namespace Cache

/-- Stores or loads. -/
def accesses (c : Cache) (w : Bool) : Nat := if w = true then c.stores else c.loads

def misses (c : Cache) (w : Bool) : Nat := if w = true then c.storeMisses else c.loadMisses

theorem lookup_accesses (assoc sizeKb : Nat) (c : Cache) (op : MemOp) (tag : Tag) (w : Bool) :
    (lookup assoc sizeKb c op tag).2.accesses w = c.accesses w + op.one w := by
  simp only [lookup, countAccess, countMiss, accesses, MemOp.one, MemOp.isWrite]
  cases op <;> cases w <;> simp <;> split <;> rfl

theorem lookup_misses (assoc sizeKb : Nat) (c : Cache) (op : MemOp) (tag : Tag) (w : Bool) :
    (lookup assoc sizeKb c op tag).2.misses w =
      c.misses w + if (lookup assoc sizeKb c op tag).1 = true then 0 else op.one w := by
  simp only [lookup, countAccess, countMiss, misses, MemOp.one, MemOp.isWrite]
  cases op <;> cases w <;> simp <;> split <;> simp

/-- A lookup counts itself, and a miss if it is one. -/
structure Counts (f : Cache → MemOp → Tag → Bool × Cache) : Prop where
  accesses : ∀ c op tag w, (f c op tag).2.accesses w = c.accesses w + op.one w
  misses : ∀ c op tag w, (f c op tag).2.misses w =
    c.misses w + if (f c op tag).1 = true then 0 else op.one w

theorem counts_lookup (assoc sizeKb : Nat) : Counts (lookup assoc sizeKb) :=
  ⟨lookup_accesses assoc sizeKb, lookup_misses assoc sizeKb⟩

theorem Counts.hit {f : Cache → MemOp → Tag → Bool × Cache} (h : Counts f) {c : Cache} {op : MemOp}
    {tag : Tag} (hhit : (f c op tag).1 = true) (w : Bool) :
    (f c op tag).2.misses w = c.misses w := by
  rw [h.misses, if_pos hhit, Nat.add_zero]

theorem Counts.miss {f : Cache → MemOp → Tag → Bool × Cache} (h : Counts f) {c : Cache} {op : MemOp}
    {tag : Tag} (hhit : ¬(f c op tag).1 = true) (w : Bool) :
    (f c op tag).2.misses w = c.misses w + op.one w := by
  rw [h.misses, if_neg hhit]

end Cache

def Dram.accesses (d : Dram) (w : Bool) : Nat := if w = true then d.writes else d.reads

namespace MemoryManager

variable {n : Nat} {m : MemoryManager Cache n} {op : MemOp} {tag : Tag} {core : Fin n}

/-- What the counters of the shared levels add up to. -/
structure Shared (m : MemoryManager Cache n) : Prop where
  dram : ∀ w, m.dram.accesses w = m.l3cache.misses w
  latency : m.dram.totalLatency = dramLatency * (m.dram.reads + m.dram.writes)
  l3cache : ∀ w, m.l3cache.accesses w = ∑ core, (m.l2cache core).misses w

/-- What all counters add up to: each level is accessed as often as the levels before it miss. -/
structure Conserved (m : MemoryManager Cache n) : Prop where
  shared : Shared m
  l2cache : ∀ core w, (m.l2cache core).accesses w =
    (m.icache core).misses w + (m.dcache core).misses w

theorem accessL3_keeps (m : MemoryManager Cache n) (op : MemOp) (tag : Tag) :
    (m.accessL3 lookups op tag).2.icache = m.icache ∧ (m.accessL3 lookups op tag).2.dcache = m.dcache ∧
      (m.accessL3 lookups op tag).2.l2cache = m.l2cache := by
  simp only [accessL3]
  split <;> exact ⟨rfl, rfl, rfl⟩

/-- The third level and memory, one access of the third level being accounted for by `extra`. -/
theorem accessL3_shared (hdram : ∀ w, m.dram.accesses w = m.l3cache.misses w)
    (hlatency : m.dram.totalLatency = dramLatency * (m.dram.reads + m.dram.writes))
    (hl3 : ∀ w, m.l3cache.accesses w + op.one w = ∑ core, (m.l2cache core).misses w) :
    Shared (m.accessL3 lookups op tag).2 := by
  have hcounts : Cache.Counts lookups.l3cache := Cache.counts_lookup 16 8192
  have hl3' := fun w => (hcounts.accesses m.l3cache op tag w).trans (hl3 w)
  simp only [accessL3]
  by_cases hhit : (lookups.l3cache m.l3cache op tag).1 = true
  · rw [if_pos hhit]
    exact ⟨fun w => (hdram w).trans (hcounts.hit hhit w).symm, hlatency, hl3'⟩
  · rw [if_neg hhit]
    refine ⟨fun w => ?_, ?_, hl3'⟩
    · refine Eq.trans ?_ (hcounts.miss hhit w).symm
      rw [← hdram w]
      cases op <;> cases w <;> rfl
    · simp only [accessDram, dramLatency] at hlatency ⊢
      cases op <;> simp only [hlatency, reduceCtorEq, if_true, if_false] <;> omega

theorem sum_update {f : Fin n → Cache} {core : Fin n} {c : Cache} {w : Bool} {extra : Nat}
    (h : c.misses w = (f core).misses w + extra) :
    ∑ i, (Function.update f core c i).misses w = (∑ i, (f i).misses w) + extra := by
  have hsplit : ∀ i, (Function.update f core c i).misses w =
      (f i).misses w + if i = core then extra else 0 := by
    intro i
    by_cases hi : i = core
    · rw [hi, Function.update_self, if_pos rfl, h]
    · rw [Function.update_of_ne hi, if_neg hi, Nat.add_zero]
  rw [Finset.sum_congr rfl fun i _ => hsplit i, Finset.sum_add_distrib, Finset.sum_ite_eq']
  simp

/-- An access that misses in the first level is accounted for in the levels behind it. -/
theorem accessL2_conserved (hshared : Shared m)
    (hl2 : ∀ c w, (m.l2cache c).accesses w + (if c = core then op.one w else 0) =
      (m.icache c).misses w + (m.dcache c).misses w) :
    Conserved (m.accessL2 lookups core op tag).2 := by
  have hcounts : Cache.Counts lookups.l2cache := Cache.counts_lookup 8 256
  have hcores : ∀ c w, (Function.update m.l2cache core
      (lookups.l2cache (m.l2cache core) op tag).2 c).accesses w =
      (m.icache c).misses w + (m.dcache c).misses w := by
    intro c w
    have hw := hl2 c w
    by_cases hc : c = core
    · rw [if_pos hc] at hw
      rw [← hw, hc, Function.update_self, hcounts.accesses]
    · rw [if_neg hc, Nat.add_zero] at hw
      rw [← hw, Function.update_of_ne hc]
  simp only [accessL2]
  by_cases hhit : (lookups.l2cache (m.l2cache core) op tag).1 = true
  · rw [if_pos hhit]
    refine ⟨⟨hshared.dram, hshared.latency, fun w => ?_⟩, hcores⟩
    rw [sum_update (w := w) ((hcounts.hit hhit w).trans (Nat.add_zero _).symm), Nat.add_zero]
    exact hshared.l3cache w
  · rw [if_neg hhit]
    obtain ⟨hic, hdc, hl2c⟩ := accessL3_keeps
      { m with l2cache := Function.update m.l2cache core (lookups.l2cache (m.l2cache core) op tag).2 }
      op tag
    refine ⟨accessL3_shared hshared.dram hshared.latency fun w => ?_, fun c w => ?_⟩
    · rw [sum_update (hcounts.miss hhit w), hshared.l3cache w]
    · rw [hic, hdc, hl2c]
      exact hcores c w

/-- A first-level cache, the other one of the core missing as often as before. -/
theorem firstLevel {f : Fin n → Cache} {c' : Cache} {w : Bool} {extra : Nat}
    {l2 : Fin n → Nat} {other : Fin n → Nat} (h : ∀ c, l2 c = (f c).misses w + other c)
    (hc : c'.misses w = (f core).misses w + extra) (c : Fin n) :
    l2 c + (if c = core then extra else 0) = (Function.update f core c' c).misses w + other c := by
  by_cases heq : c = core
  · rw [heq, if_pos rfl, Function.update_self, hc, h]
    omega
  · rw [if_neg heq, Function.update_of_ne heq, h, Nat.add_zero]

theorem Conserved.perform (h : Conserved m) (a : Access n) : Conserved (m.perform lookups a).2 := by
  rw [MemoryManager.perform, coreInitiateMemoryAccessFast]
  cases a.useIcache with
  | true =>
    have hcounts : Cache.Counts lookups.icache := Cache.counts_lookup 4 32
    simp only [if_true]
    by_cases hhit : (lookups.icache (m.icache a.core) a.op (a.address >>> 6)).1 = true
    · rw [if_pos hhit]
      refine ⟨⟨h.shared.dram, h.shared.latency, h.shared.l3cache⟩, fun c w => ?_⟩
      have hc := firstLevel (fun c => h.l2cache c w) ((hcounts.hit hhit w).trans (Nat.add_zero _).symm) c
      simpa using hc
    · rw [if_neg hhit]
      exact accessL2_conserved ⟨h.shared.dram, h.shared.latency, h.shared.l3cache⟩ fun c w =>
        firstLevel (fun c => h.l2cache c w) (hcounts.miss hhit w) c
  | false =>
    have hcounts : Cache.Counts lookups.dcache := Cache.counts_lookup 8 32
    have hswap : ∀ c w, (m.l2cache c).accesses w = (m.dcache c).misses w + (m.icache c).misses w :=
      fun c w => (h.l2cache c w).trans (Nat.add_comm _ _)
    simp only [Bool.false_eq_true, if_false]
    by_cases hhit : (lookups.dcache (m.dcache a.core) a.op (a.address >>> 6)).1 = true
    · rw [if_pos hhit]
      refine ⟨⟨h.shared.dram, h.shared.latency, h.shared.l3cache⟩, fun c w => ?_⟩
      have hc := firstLevel (fun c => hswap c w) ((hcounts.hit hhit w).trans (Nat.add_zero _).symm) c
      rw [Nat.add_comm] at hc
      simpa [Nat.add_comm] using hc
    · rw [if_neg hhit]
      exact accessL2_conserved ⟨h.shared.dram, h.shared.latency, h.shared.l3cache⟩ fun c w =>
        (firstLevel (fun c => hswap c w) (hcounts.miss hhit w) c).trans (Nat.add_comm _ _)

theorem Conserved.run (h : Conserved m) (as : List (Access n)) :
    Conserved (MemoryManager.run lookups m as).2 := by
  induction as generalizing m with
  | nil => exact h
  | cons a as ih => exact ih (h.perform a)

theorem conserved_make : Conserved (make .fresh : MemoryManager Cache n) := by
  refine ⟨⟨fun w => ?_, rfl, fun w => ?_⟩, fun core w => ?_⟩
  · cases w <;> rfl
  · have hzero : ∀ c ∈ Finset.univ, ((make .fresh : MemoryManager Cache n).l2cache c).misses w = 0 := by
      intro c _
      cases w <;> rfl
    rw [Finset.sum_eq_zero hzero]
    cases w <;> rfl
  · cases w <;> rfl

/-- After every run each level has been accessed, for loads and for stores, just as often as the levels
before it missed, and memory has been busy for each of its accesses. -/
theorem counters_conserved (as : List (Access n)) (w : Bool) :
    let m := (MemoryManager.run lookups (make .fresh : MemoryManager Cache n) as).2
    (∀ core, (m.l2cache core).accesses w = (m.icache core).misses w + (m.dcache core).misses w) ∧
      m.l3cache.accesses w = ∑ core, (m.l2cache core).misses w ∧
      m.dram.accesses w = m.l3cache.misses w ∧
      m.dram.totalLatency = dramLatency * (m.dram.reads + m.dram.writes) := by
  have h := conserved_make.run as
  exact ⟨fun core => h.l2cache core w, h.shared.l3cache w, h.shared.dram w, h.shared.latency⟩

end MemoryManager

end Sniper.FastNehalem
