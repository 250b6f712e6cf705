import Sniper.Cache.CacheSet
set_option autoImplicit false

/-! Addresses, tags and sets. -/

namespace Sniper.Cache

/-- The set an address falls in, by the mask hash. The block number is taken to the set index by a
shift over `superblockSize` bits, not over the two bits of a block id. -/
def setIndex (n numSets : Nat) (linear : Addr → Addr) (addr : Addr) : Nat :=
  (((linear addr >>> n.log2) >>> superblockSize) &&& BitVec.ofNat 64 (numSets - 1)).toNat

def tagOf (n : Nat) (addr : Addr) : Addr := addr >>> n.log2

/-- A mask over a power of two is a remainder. -/
theorem toNat_and_mask (a : Addr) {k : Nat} (hk : k ≤ 64) :
    (a &&& BitVec.ofNat 64 (2 ^ k - 1)).toNat = a.toNat % 2 ^ k := by
  have hlt : 2 ^ k - 1 < 2 ^ 64 := by
    have := Nat.pow_le_pow_right (by decide : 0 < 2) hk
    omega
  rw [BitVec.toNat_and, BitVec.toNat_ofNat, Nat.mod_eq_of_lt hlt, Nat.and_two_pow_sub_one_eq_mod]

/-- Which home node an address belongs to, and its address within that node. The constructor
checks that a cache block does not straddle two nodes. -/
structure AddressHomeLookup (n : Nat) where
  ahlParam : Nat
  totalModules : Nat
  covers : n ≤ 2 ^ ahlParam

namespace AddressHomeLookup

variable {n : Nat}

def ahlMask (l : AddressHomeLookup n) : Addr := 1#64 <<< l.ahlParam - 1

/-- The position of the home node in the list of nodes. -/
def getHome (l : AddressHomeLookup n) (addr : Addr) : Nat :=
  (addr >>> l.ahlParam).toNat % l.totalModules

def getLinearBlock (l : AddressHomeLookup n) (addr : Addr) : Addr :=
  BitVec.ofNat 64 ((addr >>> l.ahlParam).toNat / l.totalModules)

def getLinearAddress (l : AddressHomeLookup n) (addr : Addr) : Addr :=
  l.getLinearBlock addr <<< l.ahlParam ||| (addr &&& l.ahlMask)

theorem toNat_and_ahlMask (l : AddressHomeLookup n) (addr : Addr) :
    (addr &&& l.ahlMask).toNat = addr.toNat % 2 ^ l.ahlParam := by
  by_cases hp : l.ahlParam < 64
  · have hmask : l.ahlMask = BitVec.ofNat 64 (2 ^ l.ahlParam - 1) := by
      apply BitVec.eq_of_toNat_eq
      have hlt : 2 ^ l.ahlParam < 2 ^ 64 := Nat.pow_lt_pow_right (by decide) hp
      have hpos := Nat.two_pow_pos l.ahlParam
      rw [ahlMask, BitVec.toNat_sub, BitVec.toNat_shiftLeft, BitVec.toNat_ofNat, BitVec.toNat_ofNat,
        Nat.shiftLeft_eq, Nat.one_mod_two_pow (by decide), Nat.one_mul, Nat.mod_eq_of_lt hlt]
      simp only [BitVec.ofNat_eq_ofNat, BitVec.toNat_ofNat]
      omega
    rw [hmask, toNat_and_mask addr (Nat.le_of_lt hp)]
  · have hones : l.ahlMask = BitVec.allOnes 64 := by
      rw [ahlMask, BitVec.shiftLeft_eq_zero (by omega)]
      rfl
    have hlt : addr.toNat < 2 ^ l.ahlParam :=
      Nat.lt_of_lt_of_le addr.isLt (Nat.pow_le_pow_right (by decide) (by omega))
    rw [hones, BitVec.and_allOnes, Nat.mod_eq_of_lt hlt]

/-- The node's own number for the block, then the offset in the block. -/
theorem toNat_getLinearAddress (l : AddressHomeLookup n) (addr : Addr) :
    (l.getLinearAddress addr).toNat =
      2 ^ l.ahlParam * (addr.toNat / 2 ^ l.ahlParam / l.totalModules) +
        addr.toNat % 2 ^ l.ahlParam := by
  have hoff : addr.toNat % 2 ^ l.ahlParam < 2 ^ l.ahlParam :=
    Nat.mod_lt _ (Nat.two_pow_pos l.ahlParam)
  have hle : addr.toNat / 2 ^ l.ahlParam / l.totalModules ≤ addr.toNat / 2 ^ l.ahlParam :=
    Nat.div_le_self _ _
  have hblock : 2 ^ l.ahlParam * (addr.toNat / 2 ^ l.ahlParam / l.totalModules) ≤ addr.toNat :=
    Nat.le_trans (Nat.mul_le_mul_left _ hle) (Nat.mul_div_le _ _)
  have hlt : addr.toNat / 2 ^ l.ahlParam / l.totalModules < 2 ^ 64 :=
    Nat.lt_of_le_of_lt (Nat.le_trans hle (Nat.div_le_self _ _)) addr.isLt
  rw [getLinearAddress, BitVec.toNat_or, toNat_and_ahlMask, BitVec.toNat_shiftLeft, getLinearBlock,
    BitVec.toNat_ofNat, BitVec.toNat_ushiftRight, Nat.shiftRight_eq_div_pow, Nat.mod_eq_of_lt hlt,
    Nat.shiftLeft_eq, Nat.mod_eq_of_lt (by rw [Nat.mul_comm]; exact Nat.lt_of_le_of_lt hblock addr.isLt),
    Nat.two_pow_add_eq_or_of_lt hoff, Nat.mul_comm]

end AddressHomeLookup

/-- What places a line in a cache of blocks of `n` bytes. -/
structure CacheGeometry (n : Nat) where
  numSets : Nat
  home : Option (AddressHomeLookup n)

namespace CacheGeometry

variable {n : Nat}

/-- The address the set index, the supertag and the block id are taken from. -/
def linear (g : CacheGeometry n) (addr : Addr) : Addr :=
  g.home.elim addr fun l => l.getLinearAddress addr

def homeOf (g : CacheGeometry n) (addr : Addr) : Nat := g.home.elim 0 fun l => l.getHome addr

def setOf (g : CacheGeometry n) (addr : Addr) : Nat := setIndex n g.numSets g.linear addr

def supertagOf (g : CacheGeometry n) (addr : Addr) : Addr := (splitAddress n g.linear addr).1

def blockIdOf (g : CacheGeometry n) (addr : Addr) : BlockId := (splitAddress n g.linear addr).2

end CacheGeometry

/-! ### A line has one place -/

/-- The blocks below a coarser boundary, counted from it. -/
theorem div_pow_eq_add {k p : Nat} (h : k ≤ p) (q r : Nat) :
    (2 ^ p * q + r) / 2 ^ k = 2 ^ (p - k) * q + r / 2 ^ k := by
  have hsplit : 2 ^ p * q + r = r + 2 ^ k * (2 ^ (p - k) * q) := by
    rw [← Nat.mul_assoc, ← Nat.pow_add, Nat.add_sub_cancel' h, Nat.add_comm]
  rw [hsplit, Nat.add_mul_div_left _ _ (Nat.two_pow_pos k), Nat.add_comm]

theorem toNat_tagOf (n : Nat) (addr : Addr) : (tagOf n addr).toNat = addr.toNat / 2 ^ n.log2 := by
  rw [tagOf, BitVec.toNat_ushiftRight, Nat.shiftRight_eq_div_pow]

theorem toNat_lineAddress (n : Nat) (addr : Addr) :
    (tagToAddress n (tagOf n addr)).toNat = 2 ^ n.log2 * (addr.toNat / 2 ^ n.log2) := by
  have hle : 2 ^ n.log2 * (addr.toNat / 2 ^ n.log2) ≤ addr.toNat := Nat.mul_div_le _ _
  rw [tagToAddress, BitVec.toNat_shiftLeft, toNat_tagOf, Nat.shiftLeft_eq, Nat.mul_comm,
    Nat.mod_eq_of_lt (Nat.lt_of_le_of_lt hle addr.isLt)]

@[simp] theorem tagOf_tagToAddress (n : Nat) (addr : Addr) :
    tagOf n (tagToAddress n (tagOf n addr)) = tagOf n addr := by
  apply BitVec.eq_of_toNat_eq
  rw [toNat_tagOf, toNat_lineAddress, toNat_tagOf, Nat.mul_div_cancel_left _ (Nat.two_pow_pos _)]

namespace AddressHomeLookup

variable {n : Nat}

theorem log2_le (l : AddressHomeLookup n) : n.log2 ≤ l.ahlParam := by
  by_cases hn : n = 0
  · have hzero : n.log2 = 0 := by rw [hn]; rfl
    omega
  · have hle : 2 ^ n.log2 ≤ 2 ^ l.ahlParam := Nat.le_trans (Nat.log2_self_le hn) l.covers
    exact (Nat.pow_le_pow_iff_right (by decide)).mp hle

theorem linearBlock_toNat (l : AddressHomeLookup n) (addr : Addr) :
    (tagOf n (l.getLinearAddress addr)).toNat =
      2 ^ (l.ahlParam - n.log2) * (addr.toNat / 2 ^ l.ahlParam / l.totalModules) +
        addr.toNat % 2 ^ l.ahlParam / 2 ^ n.log2 := by
  rw [toNat_tagOf, toNat_getLinearAddress, div_pow_eq_add l.log2_le]

/-- An address and the start of its block are in the same place. -/
theorem linearBlock_line (l : AddressHomeLookup n) (addr : Addr) :
    tagOf n (l.getLinearAddress (tagToAddress n (tagOf n addr))) =
      tagOf n (l.getLinearAddress addr) := by
  have hlow : n.log2 ≤ l.ahlParam := l.log2_le
  have hpow : 2 ^ l.ahlParam = 2 ^ n.log2 * 2 ^ (l.ahlParam - n.log2) := by
    rw [← Nat.pow_add, Nat.add_sub_cancel' hlow]
  have hunit : 2 ^ n.log2 * (addr.toNat / 2 ^ n.log2) / 2 ^ l.ahlParam =
      addr.toNat / 2 ^ l.ahlParam := by
    rw [hpow, Nat.mul_div_mul_left _ _ (Nat.two_pow_pos _), Nat.div_div_eq_div_mul]
  have hoff : 2 ^ n.log2 * (addr.toNat / 2 ^ n.log2) % 2 ^ l.ahlParam / 2 ^ n.log2 =
      addr.toNat % 2 ^ l.ahlParam / 2 ^ n.log2 := by
    rw [hpow, Nat.mul_mod_mul_left, Nat.mul_div_cancel_left _ (Nat.two_pow_pos _),
      Nat.mod_mul_right_div_self]
  apply BitVec.eq_of_toNat_eq
  rw [linearBlock_toNat, linearBlock_toNat, toNat_lineAddress, hunit, hoff]

/-- Within a home node the linear address tells the blocks apart. -/
theorem tagOf_eq_of_linearBlock (l : AddressHomeLookup n) {a b : Addr}
    (hhome : l.getHome a = l.getHome b)
    (hblock : tagOf n (l.getLinearAddress a) = tagOf n (l.getLinearAddress b)) :
    tagOf n a = tagOf n b := by
  have hlow : n.log2 ≤ l.ahlParam := l.log2_le
  have hnat := congrArg BitVec.toNat hblock
  rw [linearBlock_toNat, linearBlock_toNat] at hnat
  have hoff : ∀ x : Nat, x % 2 ^ l.ahlParam / 2 ^ n.log2 < 2 ^ (l.ahlParam - n.log2) := by
    intro x
    rw [Nat.div_lt_iff_lt_mul (Nat.two_pow_pos _), ← Nat.pow_add, Nat.sub_add_cancel hlow]
    exact Nat.mod_lt _ (Nat.two_pow_pos _)
  -- equal quotient and remainder by the number of blocks in a node's unit
  have hquot : a.toNat / 2 ^ l.ahlParam / l.totalModules =
      b.toNat / 2 ^ l.ahlParam / l.totalModules := by
    have := congrArg (· / 2 ^ (l.ahlParam - n.log2)) hnat
    simpa only [Nat.mul_add_div (Nat.two_pow_pos _), Nat.div_eq_of_lt (hoff _), Nat.add_zero] using this
  have hrem : a.toNat % 2 ^ l.ahlParam / 2 ^ n.log2 = b.toNat % 2 ^ l.ahlParam / 2 ^ n.log2 := by
    rw [hquot] at hnat
    omega
  have hunit : a.toNat / 2 ^ l.ahlParam = b.toNat / 2 ^ l.ahlParam := by
    simp only [getHome, BitVec.toNat_ushiftRight, Nat.shiftRight_eq_div_pow] at hhome
    rw [← Nat.div_add_mod (a.toNat / 2 ^ l.ahlParam) l.totalModules, hquot, hhome,
      Nat.div_add_mod]
  apply BitVec.eq_of_toNat_eq
  rw [toNat_tagOf, toNat_tagOf, ← Nat.div_add_mod a.toNat (2 ^ l.ahlParam),
    ← Nat.div_add_mod b.toNat (2 ^ l.ahlParam), div_pow_eq_add hlow, div_pow_eq_add hlow, hunit, hrem]

end AddressHomeLookup

namespace CacheGeometry

variable {n : Nat} (g : CacheGeometry n)

theorem linear_line (addr : Addr) :
    g.linear (tagToAddress n (tagOf n addr)) >>> n.log2 = g.linear addr >>> n.log2 := by
  cases hh : g.home with
  | none =>
    simp only [linear, hh]
    exact tagOf_tagToAddress n addr
  | some l =>
    simp only [linear, hh]
    exact l.linearBlock_line addr

@[simp] theorem setOf_line (addr : Addr) :
    g.setOf (tagToAddress n (tagOf n addr)) = g.setOf addr := by
  simp only [setOf, setIndex, linear_line]

@[simp] theorem supertagOf_line (addr : Addr) :
    g.supertagOf (tagToAddress n (tagOf n addr)) = g.supertagOf addr := by
  simp only [supertagOf, splitAddress, linear_line]

@[simp] theorem blockIdOf_line (addr : Addr) :
    g.blockIdOf (tagToAddress n (tagOf n addr)) = g.blockIdOf addr := by
  simp only [blockIdOf, splitAddress, linear_line]

/-- A block of a superblock is one line of each home node. -/
theorem tagOf_eq_of_block {a b : Addr} (hhome : g.homeOf a = g.homeOf b)
    (hsuper : g.supertagOf a = g.supertagOf b) (hblock : g.blockIdOf a = g.blockIdOf b) :
    tagOf n a = tagOf n b := by
  have hnum : tagOf n (g.linear a) = tagOf n (g.linear b) := by
    apply BitVec.eq_of_toNat_eq
    have hquot := congrArg BitVec.toNat hsuper
    have hrem := congrArg Fin.val hblock
    have hlog : superblockSize.log2 = 2 := by decide
    simp only [supertagOf, splitAddress, BitVec.toNat_ushiftRight, Nat.shiftRight_eq_div_pow,
      hlog] at hquot
    simp only [blockIdOf, splitAddress, Fin.ofNat, superblockSize, BitVec.toNat_ushiftRight,
      Nat.shiftRight_eq_div_pow] at hrem
    rw [toNat_tagOf, toNat_tagOf]
    omega
  cases hh : g.home with
  | none => simpa only [linear, hh, Option.elim_none] using hnum
  | some l =>
    simp only [homeOf, hh, Option.elim_some] at hhome
    simp only [linear, hh, Option.elim_some] at hnum
    exact l.tagOf_eq_of_linearBlock hhome hnum

end CacheGeometry

end Sniper.Cache
