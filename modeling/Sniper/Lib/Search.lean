import Mathlib.Data.List.Basic
import Mathlib.Order.Basic
import Mathlib.Order.Lattice
set_option autoImplicit false

/-! Searching for the next element: a range in blocks, and a sorted list from its beginning to
its end. -/

namespace Sniper.Lib.Search

theorem findSome?_congr {α β : Type} {f g : α → Option β} {all : List α}
    (h : ∀ x ∈ all, f x = g x) : all.findSome? f = all.findSome? g := by
  induction all with
  | nil => rfl
  | cons x all ih =>
    rw [List.findSome?_cons, List.findSome?_cons, h x List.mem_cons_self,
      ih fun y hy => h y (List.mem_cons_of_mem x hy)]

section Blocks

variable {β : Type} (f : ℕ → Option β)

/-- A search block by block. -/
theorem findSome?_range_mul (m n : ℕ) :
    (List.range (m * n)).findSome? f =
      (List.range m).findSome? fun i => (List.range n).findSome? fun j => f (n * i + j) := by
  induction m with
  | zero => simp
  | succ m ih =>
    rw [Nat.succ_mul, List.range_add, List.findSome?_append, ih, List.range_succ,
      List.findSome?_append, List.findSome?_map]
    simp [Function.comp_def, Nat.mul_comm m n]

variable {f}

/-- Places at the beginning where there is nothing to be found may be left out. -/
theorem findSome?_range_skip {start count : ℕ} (hnone : ∀ i < start, i < count → f i = none) :
    (List.range count).findSome? f = (List.range' start (count - start)).findSome? f := by
  rcases Nat.le_total start count with hle | hle
  · obtain ⟨rest, rfl⟩ := Nat.exists_eq_add_of_le hle
    have hfirst : (List.range start).findSome? f = none := by
      rw [List.findSome?_eq_none_iff]
      intro i hi
      have hlt := List.mem_range.mp hi
      exact hnone i hlt (Nat.lt_of_lt_of_le hlt hle)
    rw [List.range_add, List.findSome?_append, hfirst, Option.none_or, Nat.add_sub_cancel_left,
      List.range'_eq_map_range]
  · have hall : (List.range count).findSome? f = none := by
      rw [List.findSome?_eq_none_iff]
      intro i hi
      have hlt := List.mem_range.mp hi
      exact hnone i (Nat.lt_of_lt_of_le hlt hle) hlt
    rw [hall, Nat.sub_eq_zero_of_le hle]
    rfl

end Blocks

section Sorted

variable {α : Type} [LinearOrder α]

/-- The next element after `last`. -/
def next (all : List α) (last : α) : Option α := all.find? fun x => decide (last < x)

/-- The answers when one asks for the next element again and again; after the last one the
answer is `nothing`, and asking begins anew. -/
def answers (search : α → Option α) (nothing : α) : ℕ → α → List α
  | 0, _ => []
  | n + 1, last =>
    (search last).getD nothing :: answers search nothing n ((search last).getD nothing)

variable {all passed rest : List α} {last nothing x : α} {search : α → Option α}
variable {n : ℕ}

theorem mem_of_mem_answers (h : x ∈ answers (next all) nothing n last) : x = nothing ∨ x ∈ all := by
  induction n generalizing last with
  | zero => cases h
  | succ n ih =>
    rcases List.mem_cons.mp h with rfl | hrest
    · cases hfound : next all last with
      | none => exact .inl rfl
      | some y => exact .inr (List.mem_of_find?_eq_some hfound)
    · exact ih hrest

theorem next_append (hpassed : ∀ x ∈ passed, x ≤ last) (hrest : ∀ x ∈ rest, last < x) :
    next (passed ++ rest) last = rest.head? := by
  have hskip : passed.find? (fun x => decide (last < x)) = none := by
    rw [List.find?_eq_none]
    exact fun x hx hlt => absurd (of_decide_eq_true hlt) (not_lt.mpr (hpassed x hx))
  rw [next, List.find?_append, hskip, Option.none_or]
  cases rest with
  | nil => rfl
  | cons x rest => exact List.find?_cons_of_pos (decide_eq_true (hrest x List.mem_cons_self))

/-- From `last` on the answers go through the rest of the list, and then begin anew. -/
theorem answers_next (hsorted : (passed ++ rest).Pairwise (· < ·))
    (hpassed : ∀ x ∈ passed, x ≤ last) (hrest : ∀ x ∈ rest, last < x) :
    answers (next (passed ++ rest)) nothing (rest.length + 1) last = rest ++ [nothing] := by
  induction rest generalizing passed last with
  | nil =>
    rw [List.length_nil, answers, next_append hpassed hrest]
    rfl
  | cons x rest ih =>
    rw [List.length_cons, answers, next_append hpassed hrest]
    have heq : passed ++ x :: rest = (passed ++ [x]) ++ rest := by simp
    have hx := (List.pairwise_append.mp hsorted).2.2
    have hrest' := (List.pairwise_cons.mp (List.pairwise_append.mp hsorted).2.1).1
    simp only [List.head?_cons, Option.getD_some, List.cons_append, List.cons.injEq, true_and]
    rw [heq] at hsorted ⊢
    refine ih hsorted (fun y hy => ?_) hrest'
    rcases List.mem_append.mp hy with hy | hy
    · exact (hx y hy x List.mem_cons_self).le
    · exact (List.mem_singleton.mp hy).le

end Sorted

end Sniper.Lib.Search
