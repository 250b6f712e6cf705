import Sniper.Cheetah.Saclru
import Sniper.Lib.SetTree
import Mathlib.Data.Nat.Bitwise
set_option autoImplicit false

/-! The slots of a tree in the array, and what the search for a tag makes of them. -/

namespace Sniper.Cheetah
open Sniper.Lib

/-- Tags by their low bits. -/
def tagClasses : Classes Nat Nat where
  cls d t := t % 2 ^ d
  whole x y := by rw [pow_zero, Nat.mod_one, Nat.mod_one]
  finer {d x y} h := by
    have hdvd : 2 ^ d ∣ 2 ^ (d + 1) := Nat.pow_dvd_pow 2 (Nat.le_succ d)
    rw [← Nat.mod_mod_of_dvd x hdvd, h, Nat.mod_mod_of_dvd y hdvd]

@[simp] theorem poke_self (arr : Nat → Nat) (p v : Nat) : poke arr p v p = v := by
  rw [poke, Function.update_self]

theorem poke_of_ne {arr : Nat → Nat} {p q : Nat} (v : Nat) (h : q ≠ p) : poke arr p v q = arr q := by
  rw [poke, Function.update_of_ne h]

namespace Config

variable {c : Config}

theorem twoPwrN_pos (c : Config) : 0 < c.twoPwrN := Nat.two_pow_pos c.N

/-! ### Right matches -/

theorem le_firstBit {diff m i : Nat} (hm : diff < 2 ^ m) (hne : diff ≠ 0) :
    i ≤ ((List.range (m + 1)).find? fun j => diff.testBit j).getD 0 ↔ diff % 2 ^ i = 0 := by
  obtain ⟨b, hb⟩ := Nat.exists_testBit_of_ne_zero hne
  have hbm : b < m := by
    by_contra hge
    have hlt := Nat.lt_of_lt_of_le hm (Nat.pow_le_pow_right Nat.two_pos (Nat.le_of_not_lt hge))
    rw [Nat.testBit_lt_two_pow hlt] at hb
    cases hb
  cases hfind : (List.range (m + 1)).find? fun j => diff.testBit j with
  | none =>
    have hno := List.find?_eq_none.mp hfind b (List.mem_range.mpr (Nat.lt_succ_of_lt hbm))
    exact absurd hb hno
  | some first =>
    obtain ⟨hbit, hbefore⟩ := List.find?_range_eq_some.mp hfind
    rw [Option.getD_some]
    constructor
    · intro hi
      refine Nat.eq_of_testBit_eq fun j => ?_
      rw [Nat.testBit_mod_two_pow, Nat.zero_testBit]
      by_cases hj : j < i
      · have hoff := hbefore.2 j (Nat.lt_of_lt_of_le hj hi)
        simpa using fun _ => hoff
      · rw [decide_eq_false hj, Bool.false_and]
    · intro hzero
      by_contra hlt
      have htest := congrArg (Nat.testBit · first) hzero
      simp only [Nat.testBit_mod_two_pow, Nat.zero_testBit] at htest
      rw [decide_eq_true (Nat.lt_of_not_le hlt), Bool.true_and] at htest
      rw [htest] at hbit
      cases hbit

theorem xor_mod_eq_zero {x y i : Nat} : (x ^^^ y) % 2 ^ i = 0 ↔ y % 2 ^ i = x % 2 ^ i := by
  rw [Nat.xor_mod_two_pow, Nat.xor_eq_zero_iff]
  exact eq_comm

/-- The right match is the finest level on which two tags are in one class. -/
theorem le_rightMatch {x y i : Nat} (hi : i ≤ c.maxDepth) :
    i ≤ c.rightMatch x y ↔ tagClasses.same i x y = true := by
  have hmask : (x ^^^ y) &&& c.diffSetMask = (x ^^^ y) % 2 ^ c.maxDepth :=
    Nat.and_two_pow_sub_one_eq_mod _ _
  have hmod : (x ^^^ y) % 2 ^ c.maxDepth % 2 ^ i = (x ^^^ y) % 2 ^ i :=
    Nat.mod_mod_of_dvd _ (Nat.pow_dvd_pow 2 hi)
  rw [rightMatch, hmask, Classes.same_iff]
  change _ ↔ y % 2 ^ i = x % 2 ^ i
  rw [← xor_mod_eq_zero, ← hmod, rmArr]
  by_cases hzero : (x ^^^ y) % 2 ^ c.maxDepth = 0
  · rw [if_pos hzero, hzero, Nat.zero_mod]
    exact iff_of_true hi rfl
  · rw [if_neg hzero]
    exact le_firstBit (Nat.mod_lt _ (Nat.two_pow_pos _)) hzero

theorem rightMatch_le (x y : Nat) : c.rightMatch x y ≤ c.maxDepth := by
  rw [rightMatch, rmArr]
  split
  · exact Nat.le_refl _
  · cases hfind : (List.range (c.maxDepth + 1)).find? fun j =>
        ((x ^^^ y) &&& c.diffSetMask).testBit j with
    | none => exact Nat.zero_le _
    | some first => exact Nat.le_of_lt_succ (List.mem_range.mp (List.mem_of_find?_eq_some hfind))

/-! ### Where slots are -/

/-- The slot of a class on a level of tree `i`. -/
def slotAt (c : Config) (i d k : Nat) : Nat := i * c.sizeOfTree + (2 ^ d + k - 1) * c.base

theorem entry_eq (d t : Nat) : c.entry d t = (2 ^ d + t % 2 ^ d - 1) * c.base := by
  rw [entry, Nat.and_two_pow_sub_one_eq_mod]

theorem add_entry (i d t : Nat) : i * c.sizeOfTree + c.entry d t = c.slotAt i d (t % 2 ^ d) := by
  rw [entry_eq, slotAt]

/-- The number of a slot in its tree. -/
theorem two_pow_add_inj {d d' k k' : Nat} (hk : k < 2 ^ d) (hk' : k' < 2 ^ d')
    (h : 2 ^ d + k = 2 ^ d' + k') : d = d' ∧ k = k' := by
  have hd : d = d' := by
    rcases Nat.lt_trichotomy d d' with hlt | heq | hgt
    · have hpow := Nat.pow_le_pow_right Nat.two_pos hlt
      rw [Nat.pow_succ] at hpow
      omega
    · exact heq
    · have hpow := Nat.pow_le_pow_right Nat.two_pos hgt
      rw [Nat.pow_succ] at hpow
      omega
  subst hd
  exact ⟨rfl, Nat.add_left_cancel h⟩

/-- Two slots of a tree have no position in common. -/
theorem slotAt_apart {i d d' k k' : Nat} (hk : k < 2 ^ d) (hk' : k' < 2 ^ d')
    (hne : (d, k) ≠ (d', k')) :
    c.slotAt i d k + c.twoPwrN < c.slotAt i d' k' ∨
      c.slotAt i d' k' + c.twoPwrN < c.slotAt i d k := by
  have hpos := Nat.two_pow_pos d
  have hpos' := Nat.two_pow_pos d'
  have hnum : 2 ^ d + k - 1 ≠ 2 ^ d' + k' - 1 := by
    intro heq
    have hsame := two_pow_add_inj hk hk' (by omega)
    exact hne (by rw [hsame.1, hsame.2])
  have hstep : ∀ a b : Nat, a < b → a * c.base + c.twoPwrN < b * c.base := by
    intro a b hab
    calc a * c.base + c.twoPwrN < (a + 1) * c.base := by rw [Nat.add_mul, base]; omega
      _ ≤ b * c.base := Nat.mul_le_mul_right _ hab
  rcases Nat.lt_or_gt_of_ne hnum with hlt | hgt
  · left
    have := hstep _ _ hlt
    rw [slotAt, slotAt]
    omega
  · right
    have := hstep _ _ hgt
    rw [slotAt, slotAt]
    omega

/-- A slot of a tree is inside the tree. -/
theorem slotAt_inside {i d k : Nat} (hd : d ≤ c.maxDepth) (hk : k < 2 ^ d) :
    i * c.sizeOfTree ≤ c.slotAt i d k ∧ c.slotAt i d k + c.twoPwrN < (i + 1) * c.sizeOfTree := by
  have hpow : 2 ^ d ≤ 2 ^ c.maxDepth := Nat.pow_le_pow_right Nat.two_pos hd
  have hnum : (2 ^ d + k - 1) + 1 ≤ 2 ^ c.maxDepth * 2 := by omega
  have hmul := Nat.mul_le_mul_right c.base hnum
  rw [Nat.add_mul, base] at hmul
  rw [slotAt, Nat.add_mul, sizeOfTree, base]
  omega

end Config

/-! ### The tags of a slot -/

/-- The position of the first tag of a slot and the tags from there to its end. -/
structure Holds (c : Config) (arr : Nat → Nat) (slot : Nat) (l : List Nat) : Prop where
  header : arr slot + l.length = c.twoPwrN + 1
  entries : ∀ j (h : j < l.length), arr (slot + (arr slot + j)) = l[j]

namespace Holds

variable {c : Config} {arr arr' : Nat → Nat} {slot : Nat} {l : List Nat}

/-- A slot does not change with the rest of the array. -/
theorem frame (h : Holds c arr slot l)
    (hsame : ∀ p, slot ≤ p → p ≤ slot + c.twoPwrN → arr' p = arr p) : Holds c arr' slot l := by
  have hslot : arr' slot = arr slot := hsame slot (Nat.le_refl _) (Nat.le_add_right _ _)
  have hheader := h.header
  refine ⟨by rw [hslot]; exact hheader, fun j hj => ?_⟩
  rw [hslot, hsame _ (Nat.le_add_right _ _) (by omega)]
  exact h.entries j hj

end Holds

/-- What the search leaves in the positions it goes over. -/
def shift (tag origTag : Nat) : List Nat → List Nat
  | [] => []
  | t :: l => if t = origTag then tag :: l else tag :: shift t origTag l

theorem length_shift (tag x : Nat) (l : List Nat) : (shift tag x l).length = l.length := by
  induction l generalizing tag with
  | nil => rfl
  | cons t l ih =>
    rw [shift]
    split
    · rfl
    · rw [List.length_cons, List.length_cons, ih]

theorem shift_of_mem {tag x : Nat} {l : List Nat} (h : x ∈ l) : shift tag x l = tag :: l.erase x := by
  induction l generalizing tag with
  | nil => cases h
  | cons t l ih =>
    rw [shift]
    by_cases ht : t = x
    · rw [if_pos ht, ht, List.erase_cons_head]
    · have hin := (List.mem_cons.mp h).resolve_left fun heq => ht heq.symm
      rw [if_neg ht, ih hin, List.erase_cons_tail (by simpa using ht)]

theorem shift_of_not_mem {tag x : Nat} {l : List Nat} (h : x ∉ l) :
    shift tag x l = (tag :: l).dropLast := by
  induction l generalizing tag with
  | nil => rfl
  | cons t l ih =>
    have ht : t ≠ x := fun heq => h (heq ▸ List.mem_cons_self)
    rw [shift, if_neg ht, ih fun hx => h (List.mem_cons_of_mem t hx), List.dropLast_cons_cons]

namespace CheetahSACLRU

variable {c : Config} {x slot : Nat}

/-- What the search does to the state, the tags from position `i` on being a list. -/
structure Searched (c : Config) (x slot i : Nat) (l : List Nat) (s : CheetahSACLRU)
    (r : CheetahSACLRU × Bool) : Prop where
  hit : r.2 = decide (x ∈ l)
  shifted : ∀ j (h : j < (shift s.tag x l).length), r.1.arr (slot + (i + j)) = (shift s.tag x l)[j]
  frame : ∀ p, p < slot + i ∨ slot + i + l.length ≤ p → r.1.arr p = s.arr p
  tag : x ∉ l → r.1.tag = l.getLastD s.tag
  depths : ∀ t, r.1.depths t =
    s.depths t + (l.take (l.idxOf x)).countP fun y => c.rightMatch x y = t
  sacHits : r.1.sacHits = s.sacHits
  tEntries : r.1.tEntries = s.tEntries
  hitarr0 : r.1.hitarr0 = s.hitarr0

theorem searched (l : List Nat) (i : Nat) (s : CheetahSACLRU)
    (hl : ∀ j (h : j < l.length), s.arr (slot + (i + j)) = l[j]) :
    Searched c x slot i l s (search c x slot l.length i s) := by
  induction l generalizing i s with
  | nil =>
    refine ⟨by simp [search], fun j hj => absurd hj (Nat.not_lt_zero j), fun _ _ => rfl,
      fun _ => rfl, fun t => by simp [search], rfl, rfl, rfl⟩
  | cons t1 l ih =>
    have hfirst : s.arr (slot + i) = t1 := by simpa using hl 0 (Nat.succ_pos _)
    have hrest : ∀ (v : Nat) j (h : j < l.length),
        poke s.arr (slot + i) v (slot + (i + 1 + j)) = l[j] := by
      intro v j hj
      have hnext := hl (j + 1) (Nat.succ_lt_succ hj)
      rw [poke_of_ne _ (by omega), show i + 1 + j = i + (j + 1) by omega, hnext,
        List.getElem_cons_succ]
    rw [List.length_cons, search, hfirst]
    by_cases ht : t1 = x
    · subst ht
      rw [if_pos rfl]
      refine ⟨by simp, ?_, ?_, fun h => absurd List.mem_cons_self h, by simp, rfl, rfl, rfl⟩
      · intro j hj
        have hshift : shift s.tag t1 (t1 :: l) = s.tag :: l := by rw [shift, if_pos rfl]
        rw [length_shift] at hj
        cases j with
        | zero => simp [hshift]
        | succ j =>
          have := hrest s.tag j (Nat.lt_of_succ_lt_succ hj)
          simp only [hshift, List.getElem_cons_succ]
          rw [← this]
          congr 1
          omega
      · intro p hp
        rw [List.length_cons] at hp
        exact poke_of_ne _ (by omega)
    · have hne : x ≠ t1 := fun h => ht h.symm
      rw [if_neg ht]
      have hsearch := ih (i + 1)
        { s with
          depths := poke s.depths (c.rightMatch x t1)
            (s.depths (c.rightMatch x t1) + 1)
          arr := poke s.arr (slot + i) s.tag
          tag := t1 } (hrest s.tag)
      have hshift : shift s.tag x (t1 :: l) = s.tag :: shift t1 x l := by rw [shift, if_neg ht]
      refine ⟨?_, ?_, ?_, ?_, ?_, hsearch.sacHits, hsearch.tEntries, hsearch.hitarr0⟩
      · rw [hsearch.hit]
        simp [hne]
      · intro j hj
        rw [hshift] at hj
        cases j with
        | zero =>
          have hkept := hsearch.frame (slot + i) (Or.inl (by omega))
          simp only [hshift, List.getElem_cons_zero, Nat.add_zero]
          rw [hkept]
          exact poke_self _ _ _
        | succ j =>
          have hnext := hsearch.shifted j (Nat.lt_of_succ_lt_succ hj)
          simp only [hshift, List.getElem_cons_succ]
          rw [← hnext]
          congr 1
          omega
      · intro p hp
        rw [List.length_cons] at hp
        rw [hsearch.frame p (by omega)]
        exact poke_of_ne _ (by omega)
      · intro h
        rw [hsearch.tag fun hx => h (List.mem_cons_of_mem t1 hx), List.getLastD_cons]
      · intro t
        rw [hsearch.depths t, List.idxOf_cons_ne l ht, List.take_succ_cons, List.countP_cons]
        by_cases htt : c.rightMatch x t1 = t
        · simp only [htt, poke_self, decide_true, if_true]
          omega
        · simp only [htt, poke_of_ne _ fun h => htt (Eq.symm h), decide_false, Bool.false_eq_true,
            if_false, Nat.add_zero]

/-- A slot after the search and without its top, which is no tag of it. -/
theorem holds_drop_search {s : CheetahSACLRU} {l : List Nat} (h : Holds c s.arr slot l)
    (hle : l.length ≤ c.twoPwrN) (hne : l ≠ []) :
    Holds c ((search c x slot (c.twoPwrN + 1 - s.arr slot) (s.arr slot) s).1.drop slot).arr slot
      (if x ∈ l then l.erase x else l.dropLast) := by
  have hheader := h.header
  have hleft : c.twoPwrN + 1 - s.arr slot = l.length := by omega
  have hsearch := searched (c := c) (x := x) l (s.arr slot) s h.entries
  have hslot : (search c x slot l.length (s.arr slot) s).1.arr slot = s.arr slot :=
    hsearch.frame slot (Or.inl (by omega))
  have hpos := List.length_pos_of_ne_nil hne
  have htail : (shift s.tag x l).tail = if x ∈ l then l.erase x else l.dropLast := by
    by_cases hx : x ∈ l
    · rw [if_pos hx, shift_of_mem hx, List.tail_cons]
    · rw [if_neg hx, shift_of_not_mem hx, List.dropLast_cons_of_ne_nil hne, List.tail_cons]
  have hlen : (shift s.tag x l).length = l.length := length_shift _ _ _
  rw [hleft, ← htail]
  constructor
  · rw [drop_arr, poke_self, hslot, List.length_tail, hlen]
    omega
  · intro j hj
    rw [List.length_tail] at hj
    have hnext := hsearch.shifted (j + 1) (by omega)
    rw [List.getElem_tail, ← hnext, drop_arr, poke_self, hslot, poke_of_ne _ (by omega)]
    congr 1
    omega

/-- A tag is put on top of a slot that has room. -/
theorem holds_push {s : CheetahSACLRU} {l : List Nat} {atag : Nat} (h : Holds c s.arr slot l)
    (hlt : l.length < c.twoPwrN) : Holds c (s.push slot atag).arr slot (atag :: l) := by
  have hheader := h.header
  have hslot : (s.push slot atag).arr slot = s.arr slot - 1 := by
    rw [push_arr, poke_self, poke_of_ne _ (by omega), poke_self]
  constructor
  · rw [hslot, List.length_cons]
    omega
  · intro j hj
    rw [hslot]
    cases j with
    | zero =>
      rw [push_arr, poke_self, Nat.add_zero, poke_self, List.getElem_cons_zero]
    | succ j =>
      have hold := h.entries j (Nat.lt_of_succ_lt_succ hj)
      rw [push_arr, poke_self, poke_of_ne _ (by omega), poke_of_ne _ (by omega),
        List.getElem_cons_succ, ← hold]
      congr 1
      omega

theorem drop_arr_of_ne (s : CheetahSACLRU) {p : Nat} (h : p ≠ slot) :
    (s.drop slot).arr p = s.arr p := by
  rw [drop_arr, poke_of_ne _ h]

/-- Only the slot itself is written. -/
theorem push_arr_of_apart (s : CheetahSACLRU) {p atag : Nat} (hle : s.arr slot ≤ c.twoPwrN + 1)
    (h : p < slot ∨ slot + c.twoPwrN < p) : (s.push slot atag).arr p = s.arr p := by
  have hpos := c.twoPwrN_pos
  rw [push_arr, poke_self, poke_of_ne _ (by omega), poke_of_ne _ (by omega)]

end CheetahSACLRU

end Sniper.Cheetah
