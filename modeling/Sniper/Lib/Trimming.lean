import Mathlib.Data.List.Basic
import Mathlib.Order.Basic
import Mathlib.Order.Lattice
set_option autoImplicit false

/-! Taking the smallest elements off a list, one after the other. -/

namespace Sniper.Lib.Trimming

variable {α β γ : Type} [LinearOrder β]

/-- `kept` is what remains of `all`: nothing that is gone is above anything that remains. -/
structure Trims (key : α → β) (all kept : List α) : Prop where
  sublist : kept.Sublist all
  le : ∀ x ∈ all, x ∉ kept → ∀ y ∈ kept, key x ≤ key y

theorem Trims.refl (key : α → β) (all : List α) : Trims key all all :=
  ⟨List.Sublist.refl all, fun _ hx hgone => absurd hx hgone⟩

theorem Trims.trans {key : α → β} {all some few : List α} (h : Trims key all some)
    (h' : Trims key some few) : Trims key all few where
  sublist := h'.sublist.trans h.sublist
  le x hx hgone y hy := by
    by_cases hkept : x ∈ some
    · exact h'.le x hkept hgone y hy
    · exact h.le x hx hkept y (h'.sublist.subset hy)

/-- What a filter drops is below everything. -/
theorem trims_filter {key : α → β} {all : List α} (p : α → Bool)
    (h : ∀ x ∈ all, p x = false → ∀ y ∈ all, key x ≤ key y) : Trims key all (all.filter p) where
  sublist := List.filter_sublist
  le x hx hgone y hy := by
    have hdropped : p x = false := by
      cases hp : p x with
      | false => rfl
      | true => exact absurd (List.mem_filter.mpr ⟨hx, hp⟩) hgone
    exact h x hx hdropped y (List.mem_of_mem_filter hy)

/-- The first smallest element below a bound, by its name, or else the name given. -/
def searchMin (name : α → γ) (key : α → β) (all : List α) (start : γ × β) : γ × β :=
  all.foldl (fun best x => if key x < best.2 then (name x, key x) else best) start

/-- Nothing is below the bound, or a smallest element is found. -/
theorem searchMin_cases (name : α → γ) (key : α → β) (all : List α) (start : γ × β) :
    (searchMin name key all start = start ∧ ∀ x ∈ all, start.2 ≤ key x) ∨
      ∃ x ∈ all, searchMin name key all start = (name x, key x) ∧ key x < start.2 ∧
        ∀ y ∈ all, key x ≤ key y := by
  induction all generalizing start with
  | nil => exact .inl ⟨rfl, fun x hx => absurd hx List.not_mem_nil⟩
  | cons a rest ih =>
    rw [searchMin, List.foldl_cons, ← searchMin]
    by_cases hlt : key a < start.2
    · rw [if_pos hlt]
      rcases ih (name a, key a) with ⟨hsame, hle⟩ | ⟨x, hx, hfound, hbelow, hle⟩
      · refine .inr ⟨a, List.mem_cons_self, hsame, hlt, fun y hy => ?_⟩
        rcases List.mem_cons.mp hy with rfl | hy
        · exact le_rfl
        · exact hle y hy
      · refine .inr ⟨x, List.mem_cons_of_mem a hx, hfound, hbelow.trans hlt, fun y hy => ?_⟩
        rcases List.mem_cons.mp hy with rfl | hy
        · exact hbelow.le
        · exact hle y hy
    · rw [if_neg hlt]
      rcases ih start with ⟨hsame, hle⟩ | ⟨x, hx, hfound, hbelow, hle⟩
      · refine .inl ⟨hsame, fun y hy => ?_⟩
        rcases List.mem_cons.mp hy with rfl | hy
        · exact not_lt.mp hlt
        · exact hle y hy
      · refine .inr ⟨x, List.mem_cons_of_mem a hx, hfound, hbelow, fun y hy => ?_⟩
        rcases List.mem_cons.mp hy with rfl | hy
        · exact hbelow.le.trans (not_lt.mp hlt)
        · exact hle y hy

end Sniper.Lib.Trimming
