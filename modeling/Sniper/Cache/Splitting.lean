import Sniper.Cache.Address
import Sniper.Lib.Interleave
set_option autoImplicit false

/-! How lines spread over the home nodes and over the sets of a cache. -/

namespace Sniper.Cache
open Sniper.Lib Interleave

variable {n : Nat}

/-- Lines are numbered up to the last address. -/
def lastLine (n : Nat) : Nat := (2 ^ 64 - 1) / 2 ^ n.log2

theorem tagOf_le_lastLine (addr : Addr) : (tagOf n addr).toNat ≤ lastLine n := by
  have hlt := addr.isLt
  rw [toNat_tagOf, lastLine]
  exact Nat.div_le_div_right (by omega)

theorem toNat_tagToAddress {t : Nat} (h : t ≤ lastLine n) :
    (tagToAddress n (BitVec.ofNat 64 t)).toNat = 2 ^ n.log2 * t := by
  have hle : 2 ^ n.log2 * t ≤ 2 ^ 64 - 1 :=
    Nat.le_trans (Nat.mul_le_mul_left _ h) (Nat.mul_div_le _ _)
  have ht : t ≤ 2 ^ n.log2 * t := Nat.le_mul_of_pos_left t (Nat.two_pow_pos _)
  have htag : t % 2 ^ 64 = t := Nat.mod_eq_of_lt (by omega)
  rw [tagToAddress, BitVec.toNat_shiftLeft, BitVec.toNat_ofNat, Nat.shiftLeft_eq, htag, Nat.mul_comm,
    Nat.mod_eq_of_lt (by omega)]

theorem tagOf_ofNat {t : Nat} (h : t ≤ lastLine n) :
    (tagOf n (tagToAddress n (BitVec.ofNat 64 t))).toNat = t := by
  rw [toNat_tagOf, toNat_tagToAddress h, Nat.mul_div_cancel_left _ (Nat.two_pow_pos _)]

namespace AddressHomeLookup

/-- The lines that lie together at one node. -/
def unitLines (l : AddressHomeLookup n) : Nat := 2 ^ (l.ahlParam - n.log2)

theorem unitLines_pos (l : AddressHomeLookup n) : 0 < l.unitLines := Nat.two_pow_pos _

theorem unit_pow (l : AddressHomeLookup n) : 2 ^ l.ahlParam = 2 ^ n.log2 * l.unitLines := by
  rw [unitLines, ← Nat.pow_add, Nat.add_sub_cancel' l.log2_le]

/-- The nodes take the units of lines in turn. -/
theorem getHome_eq_owner (l : AddressHomeLookup n) (addr : Addr) :
    l.getHome addr = owner l.unitLines l.totalModules (tagOf n addr).toNat := by
  rw [getHome, owner, toNat_tagOf, BitVec.toNat_ushiftRight, Nat.shiftRight_eq_div_pow,
    Nat.div_div_eq_div_mul, unit_pow]

theorem linear_eq_rank (l : AddressHomeLookup n) (addr : Addr) :
    (tagOf n (l.getLinearAddress addr)).toNat =
      rank l.unitLines l.totalModules (tagOf n addr).toNat := by
  rw [linearBlock_toNat, rank, toNat_tagOf, unit_pow, Nat.mod_mul_right_div_self,
    Nat.div_div_eq_div_mul _ _ l.unitLines, unitLines]

/-- The home node and the linear address name one address. -/
theorem eq_of_getLinearAddress (l : AddressHomeLookup n) {a b : Addr}
    (hhome : l.getHome a = l.getHome b) (hlinear : l.getLinearAddress a = l.getLinearAddress b) :
    a = b := by
  have hnat := congrArg BitVec.toNat hlinear
  rw [toNat_getLinearAddress, toNat_getLinearAddress] at hnat
  have hpos := Nat.two_pow_pos l.ahlParam
  have hquot : a.toNat / 2 ^ l.ahlParam / l.totalModules =
      b.toNat / 2 ^ l.ahlParam / l.totalModules := by
    have := congrArg (· / 2 ^ l.ahlParam) hnat
    simpa only [Nat.mul_add_div hpos, Nat.div_eq_of_lt (Nat.mod_lt _ hpos), Nat.add_zero] using this
  have hrem : a.toNat % 2 ^ l.ahlParam = b.toNat % 2 ^ l.ahlParam := by
    rw [hquot] at hnat
    omega
  have hunit : a.toNat / 2 ^ l.ahlParam = b.toNat / 2 ^ l.ahlParam := by
    simp only [getHome, BitVec.toNat_ushiftRight, Nat.shiftRight_eq_div_pow] at hhome
    rw [← Nat.div_add_mod (a.toNat / 2 ^ l.ahlParam) l.totalModules, hquot, hhome,
      Nat.div_add_mod]
  apply BitVec.eq_of_toNat_eq
  rw [← Nat.div_add_mod a.toNat (2 ^ l.ahlParam), ← Nat.div_add_mod b.toNat (2 ^ l.ahlParam),
    hunit, hrem]

/-- The next line of a node has the next linear number. -/
theorem linear_next (l : AddressHomeLookup n) (hm : 0 < l.totalModules) {a b : Addr}
    (hhome : l.getHome a = l.getHome b) (hab : tagOf n a < tagOf n b)
    (hnone : ∀ c, l.getHome c = l.getHome a → ¬(tagOf n a < tagOf n c ∧ tagOf n c < tagOf n b)) :
    (tagOf n (l.getLinearAddress b)).toNat = (tagOf n (l.getLinearAddress a)).toNat + 1 := by
  rw [linear_eq_rank, linear_eq_rank]
  rw [getHome_eq_owner, getHome_eq_owner] at hhome
  refine rank_next l.unitLines_pos hm hhome hab fun v hav hvb howner => ?_
  have htag : (tagOf n (tagToAddress n (BitVec.ofNat 64 v))).toNat = v :=
    tagOf_ofNat (Nat.le_trans (Nat.le_of_lt hvb) (tagOf_le_lastLine b))
  refine hnone (tagToAddress n (BitVec.ofNat 64 v)) ?_ ⟨?_, ?_⟩
  · rw [getHome_eq_owner, getHome_eq_owner, htag]
    exact howner
  · rw [BitVec.lt_def, htag]
    exact hav
  · rw [BitVec.lt_def, htag]
    exact hvb

/-- The number of lines that are homed at a node. -/
def homedLines (l : AddressHomeLookup n) (h : Nat) : Nat :=
  Nat.count (fun t => l.getHome (tagToAddress n (BitVec.ofNat 64 t)) = h) (lastLine n + 1)

theorem homedLines_eq (l : AddressHomeLookup n) (h : Nat) :
    l.homedLines h =
      Nat.count (fun t => owner l.unitLines l.totalModules t = h) (lastLine n + 1) := by
  rw [homedLines, Nat.count_eq_card_filter_range, Nat.count_eq_card_filter_range]
  refine congrArg Finset.card (Finset.filter_congr fun t ht => ?_)
  rw [Finset.mem_range] at ht
  rw [getHome_eq_owner, tagOf_ofNat (by omega)]

theorem linear_lt_homedLines (l : AddressHomeLookup n) (hm : 0 < l.totalModules) (addr : Addr) :
    (tagOf n (l.getLinearAddress addr)).toNat < l.homedLines (l.getHome addr) := by
  have hlast := tagOf_le_lastLine (n := n) addr
  rw [homedLines_eq, linear_eq_rank, ← count_owner l.unitLines_pos hm, getHome_eq_owner]
  exact Nat.count_strict_mono rfl (by omega)

theorem exists_linear (l : AddressHomeLookup n) (hm : 0 < l.totalModules) {h j : Nat}
    (hj : j < l.homedLines h) :
    ∃ addr, l.getHome addr = h ∧ (tagOf n (l.getLinearAddress addr)).toNat = j := by
  rw [homedLines_eq] at hj
  obtain ⟨t, ht, howner, hrank⟩ := exists_rank l.unitLines_pos hm hj
  refine ⟨tagToAddress n (BitVec.ofNat 64 t), ?_, ?_⟩
  · rw [getHome_eq_owner, tagOf_ofNat (by omega), howner]
  · rw [linear_eq_rank, tagOf_ofNat (by omega), hrank]

end AddressHomeLookup

namespace CacheGeometry

/-- Sixteen lines in a row share a set. -/
theorem setOf_eq (g : CacheGeometry n) {j : Nat} (hj : j < 32) (hsets : g.numSets = 2 ^ j)
    (addr : Addr) : g.setOf addr = (tagOf n (g.linear addr)).toNat / 16 % 2 ^ j := by
  rw [setOf, setIndex, hsets, toNat_and_mask _ (by omega), BitVec.toNat_ushiftRight,
    Nat.shiftRight_eq_div_pow, tagOf]
  rfl

end CacheGeometry

namespace AddressHomeLookup

/-- Three nodes in turns of 256 bytes. -/
def threeNodes : AddressHomeLookup 64 := ⟨8, 3, by decide⟩

end AddressHomeLookup

/-! ### Splitting without a home lookup -/

def blockOffset (n : Nat) (addr : Addr) : Addr := addr &&& BitVec.ofNat 64 (n - 1)

/-- The line and the offset give back the address. -/
theorem tagToAddress_add_offset {k : Nat} (hk : k < 32) (addr : Addr) :
    tagToAddress (2 ^ k) (tagOf (2 ^ k) addr) + blockOffset (2 ^ k) addr = addr := by
  have hline := toNat_lineAddress (2 ^ k) addr
  have hoff := toNat_and_mask addr (show k ≤ 64 by omega)
  have hsum := Nat.div_add_mod addr.toNat (2 ^ k)
  rw [Nat.log2_two_pow] at hline
  apply BitVec.eq_of_toNat_eq
  rw [BitVec.toNat_add, hline, blockOffset, hoff, hsum, Nat.mod_eq_of_lt addr.isLt]

namespace CacheGeometry

theorem toNat_supertagOf (g : CacheGeometry n) (addr : Addr) :
    (g.supertagOf addr).toNat = (tagOf n (g.linear addr)).toNat / 4 := by
  rw [supertagOf, splitAddress, BitVec.toNat_ushiftRight, Nat.shiftRight_eq_div_pow, tagOf]
  rfl

theorem val_blockIdOf (g : CacheGeometry n) (addr : Addr) :
    (g.blockIdOf addr).val = (tagOf n (g.linear addr)).toNat % 4 := rfl

/-- The set is taken from the supertag divided by four. -/
theorem setOf_eq_supertag (g : CacheGeometry n) {j : Nat} (hj : j < 32) (hsets : g.numSets = 2 ^ j)
    (addr : Addr) : g.setOf addr = (g.supertagOf addr).toNat / 4 % g.numSets := by
  rw [setOf_eq g hj hsets, toNat_supertagOf, hsets, Nat.div_div_eq_div_mul]

/-- Any `numSets` superblocks in a row, from `start` on, are in different sets. -/
def SpreadsFrom (g : CacheGeometry n) (start : Nat) : Prop :=
  ∀ a b, start ≤ (g.supertagOf a).toNat → (g.supertagOf a).toNat < (g.supertagOf b).toNat →
    (g.supertagOf b).toNat < start + g.numSets → g.setOf a ≠ g.setOf b

/-- Every superblock number up to the last has an address. -/
theorem exists_supertag (g : CacheGeometry n) (hhome : g.home = none) {t : Nat}
    (ht : t ≤ lastLine n / 4) : ∃ a, (g.supertagOf a).toNat = t := by
  refine ⟨tagToAddress n (BitVec.ofNat 64 (4 * t)), ?_⟩
  rw [toNat_supertagOf, linear, hhome, Option.elim_none, tagOf_ofNat (by omega),
    Nat.mul_div_cancel_left _ (by decide)]

/-- Four superblocks in a row are in one set, so that at most two in a row are apart. -/
theorem spreadsFrom_iff (g : CacheGeometry n) (hhome : g.home = none) {j : Nat} (hj : j < 32)
    (hsets : g.numSets = 2 ^ j) {start : Nat} (hstart : start + g.numSets ≤ lastLine n / 4 + 1) :
    g.SpreadsFrom start ↔ g.numSets = 1 ∨ (g.numSets = 2 ∧ start % 4 = 3) := by
  have hset := g.setOf_eq_supertag hj hsets
  constructor
  · intro h
    have hapart : ∀ i, i + 1 < g.numSets → (start + i) / 4 ≠ (start + i + 1) / 4 := by
      intro i hi heq
      obtain ⟨a, ha⟩ := g.exists_supertag hhome (show start + i ≤ lastLine n / 4 by omega)
      obtain ⟨b, hb⟩ := g.exists_supertag hhome (show start + i + 1 ≤ lastLine n / 4 by omega)
      refine h a b (by omega) (by omega) (by omega) ?_
      rw [hset, hset, ha, hb, heq]
    have hpos := Nat.two_pow_pos j
    by_cases hone : g.numSets = 1
    · exact .inl hone
    · have hfirst := hapart 0 (by omega)
      -- after a boundary the next two superblocks are together
      have htwo : ¬2 < g.numSets := by
        intro hlt
        have hsecond := hapart 1 (by omega)
        omega
      exact .inr (by omega)
  · rintro h a b ha hab hb heq
    rw [hset, hset] at heq
    rcases h with hone | ⟨htwo, hlast⟩
    · omega
    · rw [htwo] at heq hb
      omega

/-- The parts of an address fit together for every geometry, and superblocks are kept whole. The set is
the remainder of the supertag, and superblocks in a row are spread over the sets, for one set only. -/
theorem splitting_iff {k j : Nat} (hk : k < 32) (hj : j < 32) (g : CacheGeometry (2 ^ k))
    (hsets : g.numSets = 2 ^ j) (hhome : g.home = none) :
    (∀ a, tagToAddress (2 ^ k) (tagOf (2 ^ k) a) + blockOffset (2 ^ k) a = a ∧
      (tagOf (2 ^ k) a).toNat = (g.supertagOf a).toNat * superblockSize + g.blockIdOf a) ∧
    (∀ a b, g.supertagOf a = g.supertagOf b → g.setOf a = g.setOf b) ∧
    (∀ a, g.setOf a = (g.supertagOf a).toNat % g.numSets ↔
      (g.supertagOf a).toNat / 4 % g.numSets = (g.supertagOf a).toNat % g.numSets) ∧
    ((∀ a, g.setOf a = (g.supertagOf a).toNat % g.numSets) ↔ g.numSets = 1) ∧
    ∀ start, start + g.numSets ≤ lastLine (2 ^ k) / 4 + 1 →
      (g.SpreadsFrom start ↔ g.numSets = 1 ∨ (g.numSets = 2 ∧ start % 4 = 3)) := by
  have hset := g.setOf_eq_supertag hj hsets
  refine ⟨fun a => ⟨tagToAddress_add_offset hk a, ?_⟩, ?_, ?_, ?_, ?_⟩
  · rw [toNat_supertagOf, val_blockIdOf, linear, hhome, Option.elim_none, superblockSize]
    omega
  · intro a b h
    rw [hset, hset, h]
  · intro a
    rw [hset]
  · constructor
    · intro h
      have hlast : 1 ≤ lastLine (2 ^ k) / 4 := by
        have hpow : 2 ^ k ≤ 2 ^ 31 := Nat.pow_le_pow_right (by decide) (by omega)
        have hlines : 4 ≤ lastLine (2 ^ k) := by
          rw [lastLine, Nat.log2_two_pow, Nat.le_div_iff_mul_le (Nat.two_pow_pos k)]
          omega
        omega
      obtain ⟨a, ha⟩ := g.exists_supertag hhome hlast
      have hone := h a
      rw [hset, ha, Nat.zero_mod] at hone
      by_contra hne
      have hpos := Nat.two_pow_pos j
      rw [Nat.mod_eq_of_lt (by omega)] at hone
      omega
    · intro hone a
      rw [hset, hone, Nat.mod_one, Nat.mod_one]
  · intro start hstart
    exact g.spreadsFrom_iff hhome hj hsets hstart

/-- Lines of 64 bytes in 64 sets. -/
def sampleGeometry : CacheGeometry (2 ^ 6) := ⟨2 ^ 6, none⟩

theorem splitting_iff_sample : ¬sampleGeometry.SpreadsFrom 3 := by
  have hlaws := splitting_iff (k := 6) (j := 6) (by decide) (by decide) sampleGeometry rfl rfl
  rw [hlaws.2.2.2.2 3 (by decide)]
  decide

/-- The second superblock is in the first set. -/
theorem second_superblock_in_first_set :
    ¬∀ a : Addr, sampleGeometry.setOf a = (sampleGeometry.supertagOf a).toNat % 2 ^ 6 := by
  intro hall
  have hset := hall 256#64
  revert hset
  decide

end CacheGeometry

end Sniper.Cache
