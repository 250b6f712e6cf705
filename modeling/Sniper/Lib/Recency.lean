import Mathlib.Data.List.FinRange
import Mathlib.Data.List.Nodup
import Mathlib.Logic.Function.Basic
set_option autoImplicit false

namespace Sniper.Lib

/-- When each item was last touched. -/
structure Clock (α : Type) where
  last : α → Nat
  now : Nat

namespace Clock

variable {α : Type}

/-- A list of all items, the least recently touched first. -/
structure Orders (c : Clock α) (l : List α) : Prop where
  complete : ∀ a, a ∈ l
  sorted : l.Pairwise fun a b => c.last a < c.last b
  past : ∀ a, c.last a < c.now

namespace Orders

variable {c : Clock α} {l : List α}

theorem nodup (h : c.Orders l) : l.Nodup := by
  refine h.sorted.imp fun hlt heq => ?_
  rw [heq] at hlt
  exact Nat.lt_irrefl _ hlt

/-- The first item with a property is the least recently touched with it. -/
theorem find_least (h : c.Orders l) {p : α → Bool} {a : α} (ha : l.find? p = some a) {b : α}
    (hb : p b = true) (hne : b ≠ a) : c.last a < c.last b := by
  obtain ⟨-, front, back, rfl, hfront⟩ := List.find?_eq_some_iff_append.mp ha
  have hmem := h.complete b
  rw [List.mem_append, List.mem_cons] at hmem
  rcases hmem with hin | rfl | hin
  · simpa [hb] using hfront b hin
  · exact absurd rfl hne
  · exact List.rel_of_pairwise_cons (List.pairwise_append.mp h.sorted).2.1 hin

end Orders

end Clock

variable {α : Type} [DecidableEq α]

/-- An item taken out of its place and put at the end. -/
def moveToBack (l : List α) (a : α) : List α := l.erase a ++ [a]

@[simp] theorem moveToBack_getLast (l : List α) (a : α) : (moveToBack l a).getLast? = some a := by
  simp [moveToBack]

theorem moveToBack_perm {l : List α} {a : α} (h : a ∈ l) : (moveToBack l a).Perm l :=
  (List.perm_append_singleton a (l.erase a)).trans (List.perm_cons_erase h).symm

/-- The last item stays where it is. -/
theorem moveToBack_last {l : List α} {a : α} (hl : l.Nodup) (h : l.getLast? = some a) :
    moveToBack l a = l := by
  obtain ⟨front, rfl⟩ := List.getLast?_eq_some_iff.mp h
  have hfresh : a ∉ front := by
    intro ha
    exact (List.nodup_append.mp hl).2.2 a ha a (List.mem_singleton_self a) rfl
  rw [moveToBack, List.erase_append_right _ hfresh]
  simp

namespace Clock

variable {c : Clock α} {l : List α}

def touch (c : Clock α) (a : α) : Clock α := ⟨Function.update c.last a c.now, c.now + 1⟩

def touchAll (c : Clock α) (as : List α) : Clock α := as.foldl touch c

theorem touchAll_append (c : Clock α) (as bs : List α) :
    c.touchAll (as ++ bs) = (c.touchAll as).touchAll bs := by
  simp [touchAll]

@[simp] theorem touch_last_self (c : Clock α) (a : α) : (c.touch a).last a = c.now := by
  simp [touch]

theorem touch_last_of_ne (c : Clock α) {a b : α} (h : b ≠ a) : (c.touch a).last b = c.last b := by
  simp [touch, h]

theorem touch_past (h : ∀ b, c.last b < c.now) (a b : α) :
    (c.touch a).last b < (c.touch a).now := by
  by_cases hb : b = a
  · simp [touch, hb]
  · rw [c.touch_last_of_ne hb]
    exact Nat.lt_succ_of_lt (h b)

theorem touchAll_past (h : ∀ b, c.last b < c.now) (as : List α) (b : α) :
    (c.touchAll as).last b < (c.touchAll as).now := by
  induction as generalizing c with
  | nil => exact h b
  | cons a as ih => exact ih (touch_past h a)

/-- No item has been touched since the last of a row. -/
theorem touchAll_newest (h : ∀ b, c.last b < c.now) {as : List α} {a : α}
    (ha : as.getLast? = some a) (b : α) : (c.touchAll as).last b ≤ (c.touchAll as).last a := by
  obtain ⟨front, rfl⟩ := List.getLast?_eq_some_iff.mp ha
  have hsplit : c.touchAll (front ++ [a]) = (c.touchAll front).touch a := by
    rw [touchAll_append]
    rfl
  have hpast := touch_past (touchAll_past h front) a b
  rw [hsplit, touch_last_self]
  exact Nat.le_of_lt_succ hpast

namespace Orders

omit [DecidableEq α] in
/-- The item touched last is at the end. -/
theorem getLast_of_newest (h : c.Orders l) {a : α} (ha : ∀ b, c.last b ≤ c.last a) :
    l.getLast? = some a := by
  obtain ⟨front, back, rfl⟩ := List.append_of_mem (h.complete a)
  cases back with
  | nil => simp
  | cons b back =>
    have hlater := List.rel_of_pairwise_cons (List.pairwise_append.mp h.sorted).2.1
      List.mem_cons_self
    exact absurd hlater (Nat.not_lt.mpr (ha b))

/-- Moving an item to the end follows a touch. -/
theorem touch (h : c.Orders l) (a : α) : (c.touch a).Orders (moveToBack l a) := by
  have hother : ∀ b ∈ l.erase a, (c.touch a).last b = c.last b := by
    intro b hb
    refine c.touch_last_of_ne ?_
    rintro rfl
    exact h.nodup.not_mem_erase hb
  constructor
  · intro b
    by_cases hb : b = a
    · simp [moveToBack, hb]
    · simp [moveToBack, List.mem_erase_of_ne hb, h.complete b]
  · rw [moveToBack, List.pairwise_append]
    refine ⟨?_, List.pairwise_singleton _ _, ?_⟩
    · have hkept := h.sorted.sublist (List.erase_sublist : (l.erase a).Sublist l)
      refine hkept.imp_of_mem fun {x y} hx hy hlt => ?_
      rw [hother x hx, hother y hy]
      exact hlt
    · intro b hb x hx
      obtain rfl := List.mem_singleton.mp hx
      rw [hother b hb, touch_last_self]
      exact h.past b
  · exact touch_past h.past a

/-- The item at the end may be touched again. -/
theorem touch_last (h : c.Orders l) {a : α} (ha : l.getLast? = some a) : (c.touch a).Orders l := by
  have htouch := h.touch a
  rwa [moveToBack_last h.nodup ha] at htouch

end Orders

end Clock

end Sniper.Lib
