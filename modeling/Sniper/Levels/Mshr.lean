import Sniper.Lib.Trimming
import Sniper.Timing.SubsecondTime
import Mathlib.Data.UInt
set_option autoImplicit false

/-! The misses a cache controller remembers, of which `cleanupMshr` keeps eight. -/

namespace Sniper.Levels
open Sniper.Timing Sniper.Lib.Trimming

structure MshrEntry where
  tIssue : SubsecondTime
  tComplete : SubsecondTime
  deriving DecidableEq, Repr

/-- One entry for each address, in the order in which the map is gone through. -/
structure Mshr where
  entries : List (UInt64 × MshrEntry)
  nodup : (entries.map Prod.fst).Nodup

namespace Mshr

def size (m : Mshr) : Nat := m.entries.length

def erase (m : Mshr) (address : UInt64) : Mshr where
  entries := m.entries.filter fun entry => entry.1 ≠ address
  nodup := m.nodup.sublist (List.filter_sublist.map Prod.fst)

/-- `address_min` and `time_min` after the search: an entry has to complete before `MaxTime`
to be found. -/
def earliest (m : Mshr) : UInt64 × Nat :=
  searchMin Prod.fst (fun entry => entry.2.tComplete.toNat) m.entries
    (0, SubsecondTime.maxTime.toNat)

/-- `cleanupMshr`, with a bound on its rounds. -/
def cleanupMshr : Nat → Mshr → Option Mshr
  | 0, m => if 8 < m.size then none else some m
  | rounds + 1, m => if 8 < m.size then cleanupMshr rounds (m.erase m.earliest.1) else some m

/-- The entries that no search finds and no erasure of address 0 hits. -/
def endless (m : Mshr) : List (UInt64 × MshrEntry) :=
  m.entries.filter fun entry => entry.1 ≠ 0 ∧ entry.2.tComplete = SubsecondTime.maxTime

/-- What is left is `min(n, 8)` of the entries, and what is gone completes no later. -/
structure KeepsNewest (m m' : Mshr) : Prop where
  trims : Trims (fun entry : UInt64 × MshrEntry => entry.2.tComplete.toNat) m.entries m'.entries
  size : m'.size = min m.size 8

variable {m m' : Mshr}

theorem endless_le : m.endless.length ≤ m.size :=
  List.length_filter_le _ _

/-- The entry of an address is the one that is erased. -/
theorem size_erase {entry : UInt64 × MshrEntry} (h : entry ∈ m.entries) :
    (m.erase entry.1).size + 1 = m.size := by
  have hnodup := m.nodup
  obtain ⟨before, after, heq⟩ := List.append_of_mem h
  have hkept : ∀ part : List (UInt64 × MshrEntry), (∀ x ∈ part, x.1 ≠ entry.1) →
      part.filter (fun x => x.1 ≠ entry.1) = part := fun part hpart =>
    List.filter_eq_self.mpr fun x hx => by simpa using hpart x hx
  rw [heq, List.map_append, List.map_cons, List.nodup_append, List.nodup_cons] at hnodup
  obtain ⟨-, ⟨hafter, -⟩, hbefore⟩ := hnodup
  have hone : (before ++ entry :: after).filter (fun x => x.1 ≠ entry.1) = before ++ after := by
    rw [List.filter_append, List.filter_cons_of_neg (by simp), hkept, hkept]
    · intro x hx hsame
      exact hafter (hsame ▸ List.mem_map_of_mem hx)
    · intro x hx
      exact hbefore x.1 (List.mem_map_of_mem hx) entry.1 List.mem_cons_self
  simp only [size, erase, heq]
  rw [hone, List.length_append, List.length_append, List.length_cons]
  rfl

/-- One round takes off an entry with the earliest completion, or tries address 0 when none
completes before `MaxTime`. -/
theorem round_cases :
    (∃ entry ∈ m.entries, m.earliest.1 = entry.1 ∧
        entry.2.tComplete.toNat < SubsecondTime.maxTime.toNat ∧
        ∀ other ∈ m.entries, entry.2.tComplete.toNat ≤ other.2.tComplete.toNat) ∨
      (m.earliest.1 = 0 ∧ ∀ entry ∈ m.entries, entry.2.tComplete = SubsecondTime.maxTime) := by
  rcases searchMin_cases Prod.fst (fun entry : UInt64 × MshrEntry => entry.2.tComplete.toNat)
    m.entries (0, SubsecondTime.maxTime.toNat) with
    ⟨hsame, hle⟩ | ⟨entry, hentry, hfound, hlt, hle⟩
  · refine .inr ⟨congrArg Prod.fst hsame, fun entry hentry => ?_⟩
    have hmax := hle entry hentry
    have hbound := entry.2.tComplete.toNat_lt
    apply UInt64.toNat_inj.mp
    have hmaxTime : SubsecondTime.maxTime.toNat = 2 ^ 64 - 1 := rfl
    dsimp only at hmax
    omega
  · exact .inl ⟨entry, hentry, congrArg Prod.fst hfound, hlt, hle⟩

theorem eq_of_address {entry other : UInt64 × MshrEntry} (h : entry ∈ m.entries)
    (h' : other ∈ m.entries) (hsame : entry.1 = other.1) : entry = other :=
  List.inj_on_of_nodup_map m.nodup h h' hsame

/-- The entries that cannot be found stay. -/
theorem endless_round : (m.erase m.earliest.1).endless = m.endless := by
  have hkept : ∀ x ∈ m.entries, (x.1 ≠ 0 ∧ x.2.tComplete = SubsecondTime.maxTime) →
      x.1 ≠ m.earliest.1 := by
    rintro x hx ⟨hzero, hmax⟩
    rcases m.round_cases with ⟨entry, hentry, hfound, hlt, -⟩ | ⟨hnone, -⟩
    · intro hsame
      have heq := eq_of_address hx hentry (hsame.trans hfound)
      rw [← heq, hmax] at hlt
      exact absurd hlt (Nat.lt_irrefl _)
    · rw [hnone]
      exact hzero
  simp only [endless, erase, List.filter_filter]
  refine List.filter_congr fun x hx => ?_
  by_cases hx' : x.1 ≠ 0 ∧ x.2.tComplete = SubsecondTime.maxTime
  · simp [hx', hkept x hx hx']
  · simp [hx']

/-- What a round takes off completes no later than anything else. -/
theorem trims_round : Trims (fun entry : UInt64 × MshrEntry => entry.2.tComplete.toNat) m.entries
    (m.erase m.earliest.1).entries := by
  refine trims_filter _ fun x hx hdropped y hy => ?_
  have hsame : x.1 = m.earliest.1 := by simpa using hdropped
  rcases m.round_cases with ⟨entry, hentry, hfound, -, hle⟩ | ⟨-, hall⟩
  · rw [eq_of_address hx hentry (hsame.trans hfound)]
    exact hle y hy
  · rw [hall x hx, hall y hy]

/-- A round takes off one entry, unless too many cannot be found. -/
theorem size_round (hsize : 8 < m.size) (hendless : m.endless.length ≤ 8) :
    (m.erase m.earliest.1).size + 1 = m.size := by
  rcases m.round_cases with ⟨entry, hentry, hfound, -⟩ | ⟨hnone, hall⟩
  · rw [hfound]
    exact size_erase hentry
  · have hzero : ∃ entry ∈ m.entries, entry.1 = 0 := by
      by_contra hno
      push Not at hno
      have hsame : m.endless = m.entries :=
        List.filter_eq_self.mpr fun x hx => by simp [hno x hx, hall x hx]
      rw [hsame] at hendless
      exact absurd hsize (Nat.not_lt.mpr hendless)
    obtain ⟨entry, hentry, haddress⟩ := hzero
    rw [hnone, ← haddress]
    exact size_erase hentry

/-- With few enough of them the rounds end, and what is left completes last. -/
theorem cleanupMshr_some {rounds : Nat} (hendless : m.endless.length ≤ 8)
    (hrounds : m.size ≤ rounds + 8) : ∃ m', m.cleanupMshr rounds = some m' ∧ m.KeepsNewest m' := by
  induction rounds generalizing m with
  | zero =>
    have hsmall : ¬8 < m.size := by omega
    exact ⟨m, if_neg hsmall, .refl _ _, by omega⟩
  | succ rounds ih =>
    rw [cleanupMshr]
    by_cases hsize : 8 < m.size
    · have hless := size_round hsize hendless
      obtain ⟨m', hm', hkeeps⟩ := ih (m := m.erase m.earliest.1) (by rwa [endless_round])
        (by omega)
      have hleft := hkeeps.size
      exact ⟨m', by rw [if_pos hsize, hm'], trims_round.trans hkeeps.trims, by omega⟩
    · exact ⟨m, if_neg hsize, .refl _ _, by omega⟩

/-- With too many of them no number of rounds is enough. -/
theorem cleanupMshr_none {rounds : Nat} (hendless : 8 < m.endless.length) :
    m.cleanupMshr rounds = none := by
  have hsize := hendless.trans_le m.endless_le
  induction rounds generalizing m with
  | zero => exact if_pos hsize
  | succ rounds ih =>
    have hstay : 8 < (m.erase m.earliest.1).endless.length := by rwa [endless_round]
    rw [cleanupMshr, if_pos hsize]
    exact ih hstay (hstay.trans_le endless_le)

/-- `cleanupMshr` ends, and keeps the eight entries that complete last, exactly when at most
eight entries other than that of address 0 complete at `MaxTime`. -/
theorem cleanupMshr_keepsNewest_iff (m : Mshr) :
    (∃ rounds m', m.cleanupMshr rounds = some m' ∧ m.KeepsNewest m') ↔ m.endless.length ≤ 8 := by
  constructor
  · rintro ⟨rounds, m', hm', -⟩
    by_contra hmany
    rw [cleanupMshr_none (Nat.lt_of_not_le hmany)] at hm'
    cases hm'
  · intro hendless
    exact ⟨m.size, cleanupMshr_some hendless (Nat.le_add_right _ _)⟩

/-- Nine misses at the addresses 64 to 576 that never complete. -/
def nineEndless : Mshr where
  entries := [64, 128, 192, 256, 320, 384, 448, 512, 576].map fun address =>
    (address, ⟨0, SubsecondTime.maxTime⟩)
  nodup := by decide

theorem nineEndless_not_cleaned :
    ¬∃ rounds m', nineEndless.cleanupMshr rounds = some m' ∧ nineEndless.KeepsNewest m' := by
  rintro ⟨rounds, m', hm', -⟩
  rw [cleanupMshr_none (by decide)] at hm'
  cases hm'

end Mshr

end Sniper.Levels
