import Sniper.Lib.Shuffle
import Sniper.Lib.WordBytes
import Sniper.Sift.PhysicalAddresses
import Mathlib.Algebra.Group.Nat.Defs
import Mathlib.Data.List.GetD
import Mathlib.Data.List.Nodup
set_option autoImplicit false

/-! The physical addresses of the threads of a trace: each application has its own. -/

namespace Sniper.TraceFrontend
open Sniper.Lib Sniper.Lib.WordBytes

abbrev Addr := BitVec 64

def rngNext (state : BitVec 64) : BitVec 64 × BitVec 64 :=
  let state := (0x5DEECE66D#64 * state + 0xB#64) &&& (1#64 <<< 48 - 1#64)
  (state >>> 16, state)

def rngSeed (seed : BitVec 64) : BitVec 64 := seed <<< 16 + 0x330E#64

/-- `rng_next(state) % (i + 1)`. -/
def drawPlace (i : Nat) (state : BitVec 64) : Nat × BitVec 64 :=
  let r := rngNext state
  (r.1.toNat % (i + 1), r.2)

/-- `m_address_randomization_table`: entry 0 is there before the first draw. -/
def randomizationTable (appId : BitVec 64) : List (BitVec 8) :=
  Shuffle.shuffle drawPlace (rngSeed appId) [0#8] ((List.range' 1 255).map (BitVec.ofNat 8))

structure TraceThread where
  appId : BitVec 64
  coreId : BitVec 64
  trace : Sift.Reader
  appIdFromCoreId : Bool
  addressRandomization : Bool

namespace TraceThread

def table (t : TraceThread) (b : BitVec 8) : BitVec 8 := (randomizationTable t.appId).getD b.toNat 0

def remapAddress (t : TraceThread) (vaPage : Addr) : Addr :=
  let result := setByte vaPage 0 (t.table (byteAt vaPage 0))
  let result := setByte result 1 (t.table (byteAt result 1))
  setByte result 2 (t.table (byteAt result 2))

def haddr (t : TraceThread) : BitVec 64 := if t.appIdFromCoreId then t.coreId else t.appId

/-- The address in the thread's own part of the physical addresses. -/
def privateAddress (t : TraceThread) (va : Addr) : Addr :=
  if t.addressRandomization then
    t.haddr <<< 48 ||| t.remapAddress (va >>> 12) <<< 12 ||| va &&& (1#64 <<< 12 - 1#64)
  else t.haddr <<< 48 ||| va &&& ~~~((1#64 <<< 16 - 1#64) <<< 48)

def va2pa (t : TraceThread) (va : Addr) : Addr :=
  if t.trace.traceHasPa && t.trace.va2pa va ≠ 0 then t.trace.va2pa va else t.privateAddress va

/-! ### The table is a permutation -/

theorem randomizationTable_perm (appId : BitVec 64) :
    (randomizationTable appId).Perm ((List.range 256).map (BitVec.ofNat 8)) := by
  have hrange : List.range 256 = 0 :: List.range' 1 255 := by
    rw [List.range_eq_range']
    exact List.range'_succ
  rw [hrange, List.map_cons]
  exact Shuffle.shuffle_perm _ _ _ _

theorem table_injective (t : TraceThread) : Function.Injective t.table := by
  have hperm := randomizationTable_perm t.appId
  have hlen : (randomizationTable t.appId).length = 256 := by
    rw [hperm.length_eq, List.length_map, List.length_range]
  have hnodup : (randomizationTable t.appId).Nodup := by
    refine hperm.nodup_iff.mpr (List.Nodup.map_on (fun i hi j hj h => ?_) List.nodup_range)
    have hval := congrArg BitVec.toNat h
    rwa [BitVec.toNat_ofNat, BitVec.toNat_ofNat, Nat.mod_eq_of_lt (List.mem_range.mp hi),
      Nat.mod_eq_of_lt (List.mem_range.mp hj)] at hval
  intro b c h
  have hb : b.toNat < (randomizationTable t.appId).length := hlen ▸ b.isLt
  have hc : c.toNat < (randomizationTable t.appId).length := hlen ▸ c.isLt
  rw [table, table, List.getD_eq_getElem _ _ hb, List.getD_eq_getElem _ _ hc] at h
  exact BitVec.eq_of_toNat_eq (hnodup.getElem_inj_iff.mp h)

/-! ### Pages are remapped one to one -/

theorem byteAt_remapAddress (t : TraceThread) (vaPage : Addr) {k : Nat} (hk : k < 8) :
    byteAt (t.remapAddress vaPage) k =
      if k < 3 then t.table (byteAt vaPage k) else byteAt vaPage k := by
  have hfit : 8 * k + 8 ≤ 64 := by omega
  have hone : ∀ b, byteAt (setByte vaPage 0 b) 1 = byteAt vaPage 1 := fun b => by
    rw [byteAt_setByte (by decide) (by decide), if_neg (by decide)]
  have htwo : ∀ b c, byteAt (setByte (setByte vaPage 0 b) 1 c) 2 = byteAt vaPage 2 := fun b c => by
    rw [byteAt_setByte (by decide) (by decide), if_neg (by decide),
      byteAt_setByte (by decide) (by decide), if_neg (by decide)]
  simp only [remapAddress, hone, htwo]
  rw [byteAt_setByte (by decide) hfit, byteAt_setByte (by decide) hfit,
    byteAt_setByte (by decide) hfit]
  by_cases hk2 : k = 2
  · rw [if_pos hk2, if_pos (by omega), hk2]
  · rw [if_neg hk2]
    by_cases hk1 : k = 1
    · rw [if_pos hk1, if_pos (by omega), hk1]
    · rw [if_neg hk1]
      by_cases hk0 : k = 0
      · rw [if_pos hk0, if_pos (by omega), hk0]
      · rw [if_neg hk0, if_neg (by omega)]

theorem remapAddress_injective {t t' : TraceThread} (h : t.table = t'.table) {p q : Addr}
    (heq : t.remapAddress p = t'.remapAddress q) : p = q := by
  refine eq_of_byteAt (n := 8) rfl fun k hk => ?_
  have hbyte := congrArg (byteAt · k) heq
  simp only [byteAt_remapAddress _ _ hk, ← h] at hbyte
  by_cases hlow : k < 3
  · rw [if_pos hlow, if_pos hlow] at hbyte
    exact t.table_injective hbyte
  · rwa [if_neg hlow, if_neg hlow] at hbyte

/-- Only the lowest three bytes are remapped. -/
theorem getLsbD_remapAddress (t : TraceThread) (p : Addr) {i : Nat} (hi : 24 ≤ i) :
    (t.remapAddress p).getLsbD i = p.getLsbD i := by
  rcases Nat.lt_or_ge i 64 with hlt | hge
  · have hbyte := congrArg (BitVec.getLsbD · (i % 8))
      (t.byteAt_remapAddress p (by omega : i / 8 < 8))
    have hmod : i % 8 < 8 := Nat.mod_lt _ (by decide)
    rw [if_neg (by omega)] at hbyte
    simpa only [getLsbD_byteAt, decide_eq_true hmod, Bool.true_and, Nat.div_add_mod] using hbyte
  · rw [BitVec.getLsbD_of_ge _ _ hge, BitVec.getLsbD_of_ge _ _ hge]

/-! ### Private addresses -/

/-- What the address space of a thread has room for: 16 bits name it, 48 bits an address in it. -/
def Fits (t : TraceThread) (va : Addr) : Prop := t.haddr.toNat < 2 ^ 16 ∧ va.toNat < 2 ^ 48

theorem getLsbD_of_toNat_lt {x : BitVec 64} {n i : Nat} (h : x.toNat < 2 ^ n) (hi : n ≤ i) :
    x.getLsbD i = false := by
  rw [← BitVec.testBit_toNat]
  exact Nat.testBit_lt_two_pow (Nat.lt_of_lt_of_le h (Nat.pow_le_pow_right (by decide) hi))

/-- The three parts of a private address: the page offset, the page, and the address space. -/
theorem getLsbD_privateAddress {t : TraceThread} {va : Addr} (h : Fits t va) {i : Nat}
    (hi : i < 64) : (t.privateAddress va).getLsbD i =
      if i < 12 then va.getLsbD i
      else if i < 48 then
        (if t.addressRandomization then (t.remapAddress (va >>> 12)).getLsbD (i - 12)
        else va.getLsbD i)
      else t.haddr.getLsbD (i - 48) := by
  have hoffset : ∀ n, (1#64 <<< 12 - 1#64).getLsbD n = decide (n < 12) := fun n => by
    have hones : (1#64 <<< 12 - 1#64) = (BitVec.allOnes 12).setWidth 64 := by decide
    rw [hones, BitVec.getLsbD_setWidth, BitVec.getLsbD_allOnes]
    by_cases hn : n < 12
    · simp [hn, Nat.lt_trans hn]
    · simp [hn]
  have hmask : ∀ n, (~~~((1#64 <<< 16 - 1#64) <<< 48)).getLsbD n = decide (n < 48) := fun n => by
    have hones : (~~~((1#64 <<< 16 - 1#64) <<< 48)) = (BitVec.allOnes 48).setWidth 64 := by decide
    rw [hones, BitVec.getLsbD_setWidth, BitVec.getLsbD_allOnes]
    by_cases hn : n < 48
    · simp [hn, Nat.lt_trans hn]
    · simp [hn]
  have hhigh : 48 ≤ i → va.getLsbD i = false := getLsbD_of_toNat_lt h.2
  have hpage : 48 ≤ i → (t.remapAddress (va >>> 12)).getLsbD (i - 12) = false := fun hle => by
    rw [t.getLsbD_remapAddress _ (by omega), BitVec.getLsbD_ushiftRight,
      Nat.add_sub_cancel' (by omega : 12 ≤ i), hhigh hle]
  rw [privateAddress]
  split
  · rw [BitVec.getLsbD_or, BitVec.getLsbD_or, BitVec.getLsbD_and, hoffset, BitVec.getLsbD_shiftLeft,
      BitVec.getLsbD_shiftLeft, decide_eq_true hi]
    by_cases h12 : i < 12
    · simp [h12, Nat.lt_trans h12]
    · by_cases h48 : i < 48
      · simp [h12, h48]
      · simp [h12, h48, hpage (Nat.le_of_not_lt h48)]
  · rw [BitVec.getLsbD_or, BitVec.getLsbD_and, hmask, BitVec.getLsbD_shiftLeft, decide_eq_true hi]
    by_cases h48 : i < 48
    · by_cases h12 : i < 12 <;> simp [h12, h48]
    · have h12 : ¬i < 12 := fun h => h48 (Nat.lt_trans h (by decide))
      simp [h12, h48]

/-- The low twelve bits are never changed. -/
theorem getLsbD_offset {t : TraceThread} {va : Addr} (h : Fits t va) {i : Nat} (hi : i < 12) :
    (t.privateAddress va).getLsbD i = va.getLsbD i := by
  rw [getLsbD_privateAddress h (Nat.lt_trans hi (by decide)), if_pos hi]

/-- Where two private addresses meet, they are in one address space. -/
theorem haddr_eq_of_privateAddress {t t' : TraceThread} {va va' : Addr} (h : Fits t va)
    (h' : Fits t' va') (heq : t.privateAddress va = t'.privateAddress va') : t.haddr = t'.haddr := by
  refine BitVec.eq_of_getLsbD_eq fun i _ => ?_
  rcases Nat.lt_or_ge i 16 with hlow | hhigh
  · have hbit := congrArg (BitVec.getLsbD · (i + 48)) heq
    simp only [getLsbD_privateAddress h (by omega : i + 48 < 64),
      getLsbD_privateAddress h' (by omega : i + 48 < 64)] at hbit
    rwa [if_neg (by omega), if_neg (by omega), if_neg (by omega), if_neg (by omega),
      Nat.add_sub_cancel] at hbit
  · rw [getLsbD_of_toNat_lt h.1 hhigh, getLsbD_of_toNat_lt h'.1 hhigh]

theorem eq_of_privateAddress {t t' : TraceThread} {va va' : Addr} (h : Fits t va)
    (h' : Fits t' va') (hmode : t.addressRandomization = t'.addressRandomization)
    (htable : t.table = t'.table) (heq : t.privateAddress va = t'.privateAddress va') : va = va' := by
  have hpages : va >>> 12 = va' >>> 12 → ∀ i, 12 ≤ i → va.getLsbD i = va'.getLsbD i := by
    intro hpage i hi
    have hbit := congrArg (BitVec.getLsbD · (i - 12)) hpage
    simpa only [BitVec.getLsbD_ushiftRight, Nat.add_sub_cancel' hi] using hbit
  have hmiddle : ∀ i, 12 ≤ i → i < 48 → va.getLsbD i = va'.getLsbD i := by
    cases hrandom : t.addressRandomization with
    | true =>
      refine fun i hi _ => hpages (remapAddress_injective htable ?_) i hi
      refine BitVec.eq_of_getLsbD_eq fun j _ => ?_
      rcases Nat.lt_or_ge j 36 with hlow | hhigh
      · have hbit := congrArg (BitVec.getLsbD · (j + 12)) heq
        simp only [getLsbD_privateAddress h (by omega : j + 12 < 64),
          getLsbD_privateAddress h' (by omega : j + 12 < 64), ← hmode, hrandom] at hbit
        rwa [if_neg (by omega), if_pos (by omega), if_pos trivial, if_neg (by omega),
          if_pos (by omega), if_pos trivial, Nat.add_sub_cancel] at hbit
      · rw [t.getLsbD_remapAddress _ (by omega), t'.getLsbD_remapAddress _ (by omega),
          BitVec.getLsbD_ushiftRight, BitVec.getLsbD_ushiftRight,
          getLsbD_of_toNat_lt h.2 (by omega), getLsbD_of_toNat_lt h'.2 (by omega)]
    | false =>
      intro i hi hlt
      have hbit := congrArg (BitVec.getLsbD · i) heq
      simp only [getLsbD_privateAddress h (by omega : i < 64),
        getLsbD_privateAddress h' (by omega : i < 64), ← hmode, hrandom] at hbit
      rwa [if_neg (by omega), if_pos hlt, if_neg (by decide), if_neg (by omega), if_pos hlt,
        if_neg (by decide)] at hbit
  refine BitVec.eq_of_getLsbD_eq fun i _ => ?_
  rcases Nat.lt_or_ge i 12 with hlow | hhigh
  · rw [← getLsbD_offset h hlow, heq, getLsbD_offset h' hlow]
  · rcases Nat.lt_or_ge i 48 with hmid | hout
    · exact hmiddle i hhigh hmid
    · rw [getLsbD_of_toNat_lt h.2 hout, getLsbD_of_toNat_lt h'.2 hout]

/-- The trace gives no physical page for the address. -/
def Unmapped (t : TraceThread) (va : Addr) : Prop :=
  t.trace.traceHasPa = true → t.trace.va2pa va = 0

theorem va2pa_of_unmapped {t : TraceThread} {va : Addr} (h : Unmapped t va) :
    t.va2pa va = t.privateAddress va := by
  rw [va2pa, if_neg]
  rw [Bool.and_eq_true, decide_eq_true_eq]
  exact fun hmapped => hmapped.2 (h hmapped.1)

theorem table_congr {t t' : TraceThread} (h : t.appId = t'.appId) : t.table = t'.table := by
  funext b
  rw [table, table, h]

/-- Threads that are in one address space only when they are of one application: two of their
addresses are one physical address only if they are one address of one address space, and an address
keeps its place in its page, with and without randomization. -/
theorem va2pa_eq_iff (t t' : TraceThread) (va va' : Addr) (h : Fits t va) (h' : Fits t' va')
    (hmap : Unmapped t va) (hmap' : Unmapped t' va')
    (hmode : t.addressRandomization = t'.addressRandomization)
    (hspace : t.haddr = t'.haddr → t.appId = t'.appId) :
    (t.va2pa va = t'.va2pa va' ↔ t.haddr = t'.haddr ∧ va = va') ∧
      (t.va2pa va).toNat % 2 ^ 12 = va.toNat % 2 ^ 12 := by
  rw [va2pa_of_unmapped hmap, va2pa_of_unmapped hmap']
  refine ⟨⟨fun heq => ?_, fun heq => ?_⟩, ?_⟩
  · have hhaddr := haddr_eq_of_privateAddress h h' heq
    exact ⟨hhaddr, eq_of_privateAddress h h' hmode (table_congr (hspace hhaddr)) heq⟩
  · obtain ⟨hhaddr, rfl⟩ := heq
    rw [privateAddress, privateAddress, remapAddress, remapAddress, table_congr (hspace hhaddr),
      hhaddr, hmode]
  · refine Nat.eq_of_testBit_eq fun i => ?_
    rw [Nat.testBit_mod_two_pow, Nat.testBit_mod_two_pow, BitVec.testBit_toNat,
      BitVec.testBit_toNat]
    by_cases hi : i < 12
    · rw [getLsbD_offset h hi]
    · rw [decide_eq_false hi, Bool.false_and, Bool.false_and]

/-- Two threads of two applications, without physical addresses in their traces. -/
def sampleThread (appId : BitVec 64) : TraceThread := ⟨appId, 0, .fresh [], false, true⟩

theorem va2pa_eq_iff_sample :
    ((sampleThread 1).va2pa 0x401000 = (sampleThread 2).va2pa 0x401000 ↔
      (sampleThread 1).haddr = (sampleThread 2).haddr ∧ (0x401000 : Addr) = 0x401000) ∧
      ((sampleThread 1).va2pa 0x401000).toNat % 2 ^ 12 = (0x401000 : Addr).toNat % 2 ^ 12 :=
  va2pa_eq_iff (sampleThread 1) (sampleThread 2) 0x401000 0x401000 ⟨by decide, by decide⟩
    ⟨by decide, by decide⟩ (fun h => nomatch h) (fun h => nomatch h) rfl
    (fun h => absurd h (by decide))

end TraceThread

end Sniper.TraceFrontend
