import Sniper.Cache.Address
set_option autoImplicit false

/-! The set locks of a last-level cache, and the sets of the caches they guard. -/

namespace Sniper.Cache

inductive AddressHash where
  | mask | mod | rng1Mod | rng2Mod
  deriving DecidableEq, Repr

/-- What `CacheParameters` keeps of a cache's configuration, the size in KiB. -/
structure CacheParameters where
  size : Nat
  associativity : Nat
  hash : AddressHash
  deriving DecidableEq, Repr

/-- 32-bit arithmetic, as in the source. -/
def CacheParameters.numSets (blockSize : Nat) (p : CacheParameters) : Nat :=
  (1024 * p.size % 2 ^ 32) / (p.associativity * blockSize % 2 ^ 32)

/-- The caches of a machine: a first level of instruction and data caches and the levels above,
each configured core by core. -/
structure MemoryConfig where
  blockSize : Nat
  applicationCores : Nat
  sharedCores : Nat
  l1Icache : Nat → CacheParameters
  l1Dcache : Nat → CacheParameters
  levels : List (Nat → CacheParameters)

namespace MemoryConfig

/-- Every cache of a core. -/
def caches (cfg : MemoryConfig) (core : Nat) : List CacheParameters :=
  cfg.l1Icache core :: cfg.l1Dcache core :: cfg.levels.map fun p => p core

/-- The caches below and including the last-level cache whose master is at `master`. -/
def hierarchy (cfg : MemoryConfig) (master : Nat) : List CacheParameters :=
  (List.range (max 1 cfg.sharedCores)).flatMap fun i => cfg.caches (master + i)

/-- What the constructors check of one cache. -/
structure Accepts (blockSize : Nat) (p : CacheParameters) : Prop where
  divides : 1024 * p.size % 2 ^ 32 = p.numSets blockSize * p.associativity * blockSize % 2 ^ 32
  powerOfTwo : p.hash = .mask → ∃ k, p.numSets blockSize = 2 ^ k

/-- A configuration with the mask hash throughout that passes the checks. -/
structure Accepted (cfg : MemoryConfig) : Prop where
  blockSize_pos : 0 < cfg.blockSize
  blockSize_lt : cfg.blockSize < 2 ^ 32
  accepts : ∀ core, ∀ p ∈ cfg.caches core, Accepts cfg.blockSize p
  mask : ∀ core, ∀ p ∈ cfg.caches core, p.hash = .mask

/-- The number of set locks the memory manager of the master core asks for. -/
def numSetLocks (cfg : MemoryConfig) (master : Nat) : Nat :=
  let numSets := (cfg.l1Dcache master).numSets cfg.blockSize
  let numSets := if numSets ≠ 2 ^ numSets.log2 then 1 else numSets
  if (List.range cfg.applicationCores).any fun core =>
      (cfg.l1Dcache core).size != (cfg.l1Dcache master).size || (cfg.l1Dcache core).hash != .mask
  then 1 else numSets

/-- The position of `getSetLock(addr)` in `m_setlocks`. -/
def getSetLock (cfg : MemoryConfig) (master : Nat) (addr : Addr) : Nat :=
  ((addr >>> cfg.blockSize.log2) &&& BitVec.ofNat 64 (cfg.numSetLocks master - 1)).toNat

/-- Some cache under the lock puts both addresses in one set. -/
def SharesSet (cfg : MemoryConfig) (master : Nat) (a b : Addr) : Prop :=
  ∃ p ∈ cfg.hierarchy master,
    setIndex cfg.blockSize (p.numSets cfg.blockSize) id a =
      setIndex cfg.blockSize (p.numSets cfg.blockSize) id b

/-- Addresses that share a set share its lock. -/
def LocksCoverSets (cfg : MemoryConfig) (master : Nat) : Prop :=
  ∀ a b, cfg.SharesSet master a b → cfg.getSetLock master a = cfg.getSetLock master b

/-- The machine falls back on one lock: its data caches have a single set, or another application
core has a data cache of another size. -/
def SingleLock (cfg : MemoryConfig) (master : Nat) : Prop :=
  (cfg.l1Dcache master).numSets cfg.blockSize = 1 ∨
    ∃ core < cfg.applicationCores, (cfg.l1Dcache core).size ≠ (cfg.l1Dcache master).size

variable {cfg : MemoryConfig} {master : Nat}

theorem l1Dcache_mem_caches (core : Nat) : cfg.l1Dcache core ∈ cfg.caches core :=
  List.mem_cons_of_mem _ List.mem_cons_self

theorem l1Dcache_mem_hierarchy : cfg.l1Dcache master ∈ cfg.hierarchy master := by
  refine List.mem_flatMap.mpr ⟨0, ?_, l1Dcache_mem_caches master⟩
  rw [List.mem_range]
  omega

/-- The locks are one, or as many as the data cache has sets. -/
theorem numSetLocks_eq (h : cfg.Accepted) :
    (cfg.SingleLock master → cfg.numSetLocks master = 1) ∧
    (¬cfg.SingleLock master → ∃ k, cfg.numSetLocks master = 2 ^ (k + 1) ∧ k < 32) := by
  have hm : ∀ core, (cfg.l1Dcache core).hash = .mask := fun core =>
    h.mask core _ (l1Dcache_mem_caches core)
  obtain ⟨k, hk⟩ := (h.accepts master _ (l1Dcache_mem_caches master)).powerOfTwo (hm master)
  have hpow : (cfg.l1Dcache master).numSets cfg.blockSize =
      2 ^ ((cfg.l1Dcache master).numSets cfg.blockSize).log2 := by
    rw [hk, Nat.log2_two_pow]
  have hany : ((List.range cfg.applicationCores).any fun core =>
      (cfg.l1Dcache core).size != (cfg.l1Dcache master).size || (cfg.l1Dcache core).hash != .mask) =
        true ↔ ∃ core < cfg.applicationCores,
          (cfg.l1Dcache core).size ≠ (cfg.l1Dcache master).size := by
    simp [hm]
  rw [numSetLocks]
  simp only [ne_eq, ← hpow, not_true, if_false]
  refine ⟨fun hs => ?_, fun hs => ?_⟩
  · rcases hs with h1 | hc
    · rw [h1, ite_self]
    · rw [if_pos (hany.mpr hc)]
  · rw [SingleLock, not_or] at hs
    rw [if_neg fun hc => hs.2 (hany.mp hc), hk]
    rw [hk] at hs
    have hk0 : k ≠ 0 := fun h0 => hs.1 (by rw [h0]; rfl)
    have hlt : (cfg.l1Dcache master).numSets cfg.blockSize < 2 ^ 32 :=
      Nat.lt_of_le_of_lt (Nat.div_le_self _ _) (Nat.mod_lt _ (by decide))
    rw [hk, Nat.pow_lt_pow_iff_right (by decide)] at hlt
    exact ⟨k - 1, by rw [Nat.sub_add_cancel (by omega)], by omega⟩

/-- The second block of memory: block number one. -/
theorem secondBlock_shiftRight {l : Nat} (hl : l < 32) :
    BitVec.ofNat 64 (2 ^ l) >>> l = (1 : Addr) := by
  apply BitVec.eq_of_toNat_eq
  have hlt : 2 ^ l < 2 ^ 64 := Nat.pow_lt_pow_right (by decide) (by omega)
  rw [BitVec.toNat_ushiftRight, BitVec.toNat_ofNat, Nat.mod_eq_of_lt hlt,
    Nat.shiftRight_eq_div_pow, Nat.div_self (Nat.two_pow_pos l)]
  rfl

/-- The first two blocks are in set zero of every cache. -/
theorem setIndex_secondBlock {n : Nat} (numSets : Nat) (hl : n.log2 < 32) :
    setIndex n numSets id (BitVec.ofNat 64 (2 ^ n.log2)) = setIndex n numSets id 0 := by
  simp only [setIndex, id, secondBlock_shiftRight hl]
  simp [superblockSize]

/-- Addresses that share a set of some cache share their lock exactly when there is one lock for
everything: the lock of an address is chosen by the low bits of its block number, which the set
index leaves out. -/
theorem locksCoverSets_iff (cfg : MemoryConfig) (master : Nat) (h : cfg.Accepted) :
    cfg.LocksCoverSets master ↔ cfg.SingleLock master := by
  refine ⟨fun hc => ?_, fun hs a b _ => ?_⟩
  · by_contra hs
    obtain ⟨k, hk, hk32⟩ := (numSetLocks_eq h).2 hs
    have hl : cfg.blockSize.log2 < 32 := (Nat.log2_lt (by have := h.blockSize_pos; omega)).mpr
      h.blockSize_lt
    have hsame := hc (BitVec.ofNat 64 (2 ^ cfg.blockSize.log2)) 0
      ⟨_, l1Dcache_mem_hierarchy, setIndex_secondBlock _ hl⟩
    rw [getSetLock, getSetLock, hk, toNat_and_mask _ (by omega), toNat_and_mask _ (by omega),
      secondBlock_shiftRight hl] at hsame
    have hpow : 2 ≤ 2 ^ (k + 1) := Nat.le_self_pow (by omega) 2
    have h1 : (1 : Addr).toNat % 2 ^ (k + 1) = 1 :=
      Nat.mod_eq_of_lt (show 1 < 2 ^ (k + 1) by omega)
    have h0 : ((0 : Addr) >>> cfg.blockSize.log2).toNat % 2 ^ (k + 1) = 0 := by simp
    rw [h1, h0] at hsame
    exact absurd hsame (by decide)
  · rw [getSetLock, getSetLock, (numSetLocks_eq h).1 hs]
    simp

/-- Ordinary caches with blocks of 64 bytes. -/
def ordinaryCaches : List CacheParameters :=
  [⟨32, 4, .mask⟩, ⟨32, 8, .mask⟩, ⟨64, 8, .mask⟩, ⟨256, 8, .mask⟩, ⟨8192, 16, .mask⟩]

theorem accepted_of_ordinaryCaches (hb : cfg.blockSize = 64)
    (h : ∀ core, ∀ p ∈ cfg.caches core, p ∈ ordinaryCaches) : cfg.Accepted where
  blockSize_pos := by omega
  blockSize_lt := by omega
  accepts core p hp := by
    have hlog : ∀ q ∈ ordinaryCaches, 1024 * q.size % 2 ^ 32 =
        q.numSets 64 * q.associativity * 64 % 2 ^ 32 ∧ q.numSets 64 = 2 ^ (q.numSets 64).log2 := by
      decide
    obtain ⟨hd, hl⟩ := hlog p (h core p hp)
    rw [hb]
    exact ⟨hd, fun _ => ⟨_, hl⟩⟩
  mask core p hp := by
    have hm : ∀ q ∈ ordinaryCaches, q.hash = .mask := by decide
    exact hm p (h core p hp)

/-- Two cores with data caches of 32 and 64 KiB. -/
def unequalCores : MemoryConfig where
  blockSize := 64
  applicationCores := 2
  sharedCores := 2
  l1Icache _ := ⟨32, 4, .mask⟩
  l1Dcache core := if core = 1 then ⟨64, 8, .mask⟩ else ⟨32, 8, .mask⟩
  levels := [fun _ => ⟨256, 8, .mask⟩, fun _ => ⟨8192, 16, .mask⟩]

theorem unequalCores_accepted : unequalCores.Accepted := by
  apply accepted_of_ordinaryCaches rfl
  intro core p hp
  by_cases hc : core = 1
  · simp only [caches, unequalCores, hc, if_true, List.map_cons, List.map_nil] at hp
    revert p
    decide
  · simp only [caches, unequalCores, if_neg hc, List.map_cons, List.map_nil] at hp
    revert p
    decide

theorem locksCoverSets_iff_unequalCores :
    unequalCores.LocksCoverSets 0 ∧ unequalCores.SingleLock 0 :=
  have hs : unequalCores.SingleLock 0 := .inr ⟨1, by decide, by decide⟩
  ⟨(locksCoverSets_iff unequalCores 0 unequalCores_accepted).mpr hs, hs⟩

/-- The data caches of both cores are of 32 KiB. -/
def equalCores : MemoryConfig := { unequalCores with l1Dcache := fun _ => ⟨32, 8, .mask⟩ }

/-- Addresses 0 and 64 are in set zero of each cache, and under different locks. -/
theorem equalCores_not_locksCoverSets :
    equalCores.Accepted ∧ equalCores.SharesSet 0 0 64 ∧
      equalCores.getSetLock 0 0 = 0 ∧ equalCores.getSetLock 0 64 = 1 ∧
      ¬equalCores.LocksCoverSets 0 := by
  have hacc : equalCores.Accepted := by
    apply accepted_of_ordinaryCaches rfl
    intro core p hp
    simp only [caches, equalCores, unequalCores, List.map_cons, List.map_nil] at hp
    revert p
    decide
  have hset : equalCores.SharesSet 0 0 64 := ⟨_, l1Dcache_mem_hierarchy, by decide⟩
  have h0 : equalCores.getSetLock 0 0 = 0 := by decide
  have h64 : equalCores.getSetLock 0 64 = 1 := by decide
  refine ⟨hacc, hset, h0, h64, fun hc => ?_⟩
  have := hc 0 64 hset
  rw [h0, h64] at this
  exact absurd this (by decide)

end MemoryConfig

end Sniper.Cache
