import Mathlib.Algebra.BigOperators.Group.Finset.Piecewise
import Mathlib.Algebra.Order.BigOperators.Group.Finset
import Mathlib.Data.Fintype.Basic
import Mathlib.Logic.Function.Basic
set_option autoImplicit false

/-! Parties at places, and sums of what each place counts for. -/

namespace Sniper.Lib
open Finset

variable {P σ : Type} [Fintype P]

/-- The sum of the weights of the places where the parties are. -/
def total (weight : σ → Nat) (place : P → σ) : Nat := ∑ p, weight (place p)

/-- How many parties are at a place that passes the test. -/
def population (test : σ → Bool) (place : P → σ) : Nat := total (fun x => (test x).toNat) place

variable {weight weight' : σ → Nat} {test : σ → Bool} {place place' : P → σ}

/-- A party moves: its new place counts, the old one no longer. -/
theorem total_update [DecidableEq P] (weight : σ → Nat) (place : P → σ) (p : P) (x : σ) :
    total weight (Function.update place p x) + weight (place p) =
      total weight place + weight x := by
  have hothers : ∑ q ∈ univ.erase p, weight (Function.update place p x q) =
      ∑ q ∈ univ.erase p, weight (place q) := by
    refine sum_congr rfl fun q hq => ?_
    rw [Function.update_of_ne (ne_of_mem_erase hq)]
  rw [total, total, ← add_sum_erase univ (fun q => weight (Function.update place p x q)) (mem_univ p),
    ← add_sum_erase univ (fun q => weight (place q)) (mem_univ p), hothers, Function.update_self]
  omega

theorem total_congr (h : ∀ p, weight (place p) = weight' (place' p)) :
    total weight place = total weight' place' :=
  sum_congr rfl fun p _ => h p

theorem total_le (h : ∀ p, weight (place p) ≤ weight' (place' p)) :
    total weight place ≤ total weight' place' :=
  sum_le_sum fun p _ => h p

/-- Each place gets dearer by no more than a constant. -/
theorem total_le_add {d : Nat} (h : ∀ p, weight (place p) ≤ weight' (place' p) + d) :
    total weight place ≤ total weight' place' + Fintype.card P * d := by
  rw [← Nat.nsmul_eq_mul, ← card_univ, ← sum_const, total, total, ← sum_add_distrib]
  exact sum_le_sum fun p _ => h p

theorem population_update [DecidableEq P] (test : σ → Bool) (place : P → σ) (p : P) (x : σ) :
    population test (Function.update place p x) + (test (place p)).toNat =
      population test place + (test x).toNat :=
  total_update _ place p x

theorem population_eq_zero : population test place = 0 ↔ ∀ p, test (place p) = false := by
  rw [population, total, sum_eq_zero_iff]
  simp

theorem population_eq_card : population test place = Fintype.card P ↔ ∀ p, test (place p) = true := by
  rw [← card_univ, card_eq_sum_ones, population, total,
    sum_eq_sum_iff_of_le fun p _ => Bool.toNat_le (test (place p))]
  simp

theorem population_pos : 0 < population test place ↔ ∃ p, test (place p) = true := by
  rw [Nat.pos_iff_ne_zero, ne_eq, population_eq_zero, not_forall]
  simp

end Sniper.Lib
