import Mathlib.Algebra.BigOperators.Group.List.Basic
import Mathlib.Algebra.Order.BigOperators.Group.List
import Mathlib.Algebra.Order.Ring.Nat
import Mathlib.Algebra.Group.Action.Defs
set_option autoImplicit false

/-! Paths through the elements of a sliding window: each element ends at some time, and some make
the path longer. -/

namespace Sniper.Lib

variable {α : Type} (time growth : α → Nat) (cutoff : Nat)

/-- From a time on, an element ends no later than the path does with it, and exactly then if it makes
the path longer, which is by less than the cutoff. -/
structure Extends (start : Nat) (a : α) : Prop where
  time_le : time a ≤ start + growth a
  time_eq : growth a ≠ 0 → time a = start + growth a
  growth_lt : growth a ≠ 0 → growth a < cutoff

inductive SlidingPath : Nat → List α → Nat → Prop where
  | nil (start : Nat) : SlidingPath start [] start
  | cons {start final : Nat} {a : α} {l : List α} :
      Extends time growth cutoff start a → SlidingPath (start + growth a) l final →
      SlidingPath start (a :: l) final

variable {time growth cutoff}

/-- An element that ends in time and adds nothing. -/
theorem Extends.of_le {start : Nat} {a : α} (hnone : growth a = 0) (hle : time a ≤ start) :
    Extends time growth cutoff start a :=
  ⟨hle.trans (Nat.le_add_right start _), fun h => absurd hnone h, fun h => absurd hnone h⟩

/-- An element that ends later than the path so far. -/
theorem Extends.of_lt {start : Nat} {a : α} (heq : time a = start + growth a)
    (hlt : growth a < cutoff) : Extends time growth cutoff start a :=
  ⟨heq.le, fun _ => heq, fun _ => hlt⟩

namespace SlidingPath

theorem final_eq {start final : Nat} {l : List α}
    (h : SlidingPath time growth cutoff start l final) :
    final = start + (l.map growth).sum := by
  induction h with
  | nil start => rw [List.map_nil, List.sum_nil, Nat.add_zero]
  | cons _ _ ih => rw [ih, List.map_cons, List.sum_cons, Nat.add_assoc]

theorem snoc {start middle : Nat} {l : List α} {a : α}
    (h : SlidingPath time growth cutoff start l middle)
    (ha : Extends time growth cutoff middle a) :
    SlidingPath time growth cutoff start (l ++ [a]) (middle + growth a) := by
  induction h with
  | nil start => exact .cons ha (.nil _)
  | cons hb _ ih => exact .cons hb (ih ha)

/-- When the first element leaves, the path starts where that element ended, if that is later. -/
theorem tail {start final : Nat} {a : α} {l : List α}
    (h : SlidingPath time growth cutoff start (a :: l) final) :
    SlidingPath time growth cutoff (max start (time a)) l final := by
  cases h with
  | cons ha hl =>
    have hstart : max start (time a) = start + growth a := by
      by_cases hnone : growth a = 0
      · have hle := ha.time_le
        omega
      · rw [ha.time_eq hnone]
        exact max_eq_right (Nat.le_add_right _ _)
    rwa [hstart]

/-- Each element adds less than the cutoff. -/
theorem growth_le {start final : Nat} {l : List α}
    (h : SlidingPath time growth cutoff start l final) :
    ∀ a ∈ l, growth a ≤ cutoff - 1 := by
  induction h with
  | nil start => exact fun a ha => absurd ha List.not_mem_nil
  | cons hb _ ih =>
    intro a ha
    rcases List.mem_cons.mp ha with rfl | ha
    · by_cases hnone : growth a = 0
      · exact hnone ▸ Nat.zero_le _
      · exact Nat.le_sub_one_of_lt (hb.growth_lt hnone)
    · exact ih a ha

theorem sum_growth_le {start final : Nat} {l : List α}
    (h : SlidingPath time growth cutoff start l final) :
    (l.map growth).sum ≤ l.length * (cutoff - 1) := by
  have hle := List.sum_le_card_nsmul (l.map growth) (cutoff - 1) (by
    intro n hn
    obtain ⟨a, ha, rfl⟩ := List.mem_map.mp hn
    exact h.growth_le a ha)
  rwa [List.length_map, smul_eq_mul] at hle

end SlidingPath

end Sniper.Lib
