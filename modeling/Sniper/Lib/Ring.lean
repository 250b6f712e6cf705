import Mathlib.Data.List.Basic
import Mathlib.Data.Nat.ModEq
import Mathlib.Logic.Function.Basic
set_option autoImplicit false

/-! Entries that stand one after the other in a ring of slots. -/

namespace Sniper.Lib

variable {α : Type} {slots : Nat → α} {m a i j n : Nat}

/-- The slots are those below `m`; after the last one comes the first. -/
def slotAfter (m a i : Nat) : Nat := (a + i) % m

theorem slotAfter_lt (hm : 0 < m) : slotAfter m a i < m := Nat.mod_lt _ hm

@[simp] theorem slotAfter_slotAfter : slotAfter m (slotAfter m a i) j = slotAfter m a (i + j) := by
  rw [slotAfter, slotAfter, slotAfter, Nat.mod_add_mod, Nat.add_assoc]

theorem slotAfter_zero (ha : a < m) : slotAfter m a 0 = a := Nat.mod_eq_of_lt ha

theorem slotAfter_mod : slotAfter m (a % m) i = (a + i) % m := by
  rw [slotAfter, Nat.mod_add_mod]

/-- Once around. -/
theorem slotAfter_add_self : slotAfter m a (i + m) = slotAfter m a i := by
  rw [slotAfter, slotAfter, ← Nat.add_assoc, Nat.add_mod_right]

theorem slotAfter_inj (hi : i < m) (hj : j < m) (h : slotAfter m a i = slotAfter m a j) : i = j := by
  rw [slotAfter, slotAfter] at h
  have hij : Nat.ModEq m i j := Nat.ModEq.add_left_cancel' a h
  exact Nat.ModEq.eq_of_lt_of_lt hij hi hj

/-- How many slots after another a slot is. -/
theorem slotAfter_distance (ha : a < m) (hn : n < m) : (slotAfter m a n + m - a) % m = n := by
  rw [slotAfter]
  by_cases h : a + n < m
  · have hsum : a + n + m - a = n + m := by omega
    rw [Nat.mod_eq_of_lt h, hsum, Nat.add_mod_right, Nat.mod_eq_of_lt hn]
  · have hwrap : (a + n) % m = a + n - m := by
      rw [Nat.mod_eq_sub_mod (Nat.not_lt.mp h), Nat.mod_eq_of_lt (by omega)]
    have hsum : a + n - m + m - a = n := by omega
    rw [hwrap, hsum, Nat.mod_eq_of_lt hn]

/-- So many entries from a slot on. -/
def stretch (slots : Nat → α) (m a n : Nat) : List α :=
  (List.range n).map fun i => slots (slotAfter m a i)

@[simp] theorem length_stretch : (stretch slots m a n).length = n := by
  simp [stretch]

@[simp] theorem stretch_zero : stretch slots m a 0 = [] := rfl

theorem getElem?_stretch (h : i < n) :
    (stretch slots m a n)[i]? = some (slots (slotAfter m a i)) := by
  simp [stretch, h]

theorem mem_stretch {x : α} : x ∈ stretch slots m a n ↔ ∃ i < n, slots (slotAfter m a i) = x := by
  simp [stretch]

theorem stretch_map {β : Type} (f : α → β) :
    stretch (fun i => f (slots i)) m a n = (stretch slots m a n).map f := by
  rw [stretch, stretch, List.map_map]
  rfl

theorem stretch_add (k : Nat) :
    stretch slots m a (k + n) = stretch slots m a k ++ stretch slots m (slotAfter m a k) n := by
  simp only [stretch, List.range_add, List.map_append, List.map_map, slotAfter_slotAfter,
    Function.comp_def]

/-- The entry behind the last one. -/
theorem stretch_succ :
    stretch slots m a (n + 1) = stretch slots m a n ++ [slots (slotAfter m a n)] := by
  simp [stretch, List.range_succ]

/-- The first entry, and the ones behind it. -/
theorem stretch_cons (ha : a < m) :
    stretch slots m a (n + 1) = slots a :: stretch slots m (slotAfter m a 1) n := by
  rw [Nat.add_comm, stretch_add, stretch_succ, stretch_zero, slotAfter_zero ha]
  rfl

/-- A slot behind the entries is written. -/
theorem stretch_update_of_le {x : α} (h : n ≤ j) (hj : j < m) :
    stretch (Function.update slots (slotAfter m a j) x) m a n = stretch slots m a n := by
  refine List.map_congr_left fun i hi => Function.update_of_ne (fun heq => ?_) _ _
  have hi := List.mem_range.mp hi
  have hij := slotAfter_inj (hi.trans_le (h.trans hj.le)) hj heq
  exact absurd hij (hi.trans_le h).ne

/-- The slot of an entry is written. -/
theorem stretch_update {x : α} (hj : j < n) (hn : n ≤ m) :
    stretch (Function.update slots (slotAfter m a j) x) m a n = (stretch slots m a n).set j x := by
  refine List.ext_getElem? fun i => ?_
  by_cases hi : i < n
  · rw [getElem?_stretch hi, List.getElem?_set, length_stretch, getElem?_stretch hi]
    by_cases hij : j = i
    · rw [hij, Function.update_self, if_pos rfl, if_pos hi]
    · have hne : slotAfter m a i ≠ slotAfter m a j := fun heq =>
        hij (slotAfter_inj (hj.trans_le hn) (hi.trans_le hn) heq.symm)
      rw [Function.update_of_ne hne, if_neg hij]
  · have hlen : n ≤ i := Nat.not_lt.mp hi
    rw [List.getElem?_eq_none (by simpa using hlen), List.getElem?_eq_none (by simpa using hlen)]

/-- The entry behind the last one is written. -/
theorem stretch_push {x : α} (hn : n < m) :
    stretch (Function.update slots (slotAfter m a n) x) m a (n + 1) = stretch slots m a n ++ [x] := by
  rw [stretch_succ, stretch_update_of_le le_rfl hn, Function.update_self]

end Sniper.Lib
