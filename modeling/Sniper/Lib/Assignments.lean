import Mathlib.Combinatorics.Hall.Basic
import Mathlib.Algebra.BigOperators.Group.Finset.Basic
import Mathlib.Algebra.Order.BigOperators.Group.Finset
set_option autoImplicit false

/-! Jobs of several kinds on machines that each take one job a round. -/

namespace Sniper.Lib

/-- Each job has a machine and a round that no other job has; the machine is one of its own. -/
def Fits {ι π : Type} (allowed : ι → Finset π) (rounds : Nat) : Prop :=
  ∃ place : ι → π × Fin rounds, Function.Injective place ∧ ∀ job, (place job).1 ∈ allowed job

namespace Fits

variable {ι κ π : Type}

/-- In one round, the machines are pairwise different. -/
theorem one_iff (allowed : ι → Finset π) :
    Fits allowed 1 ↔
      ∃ machine : ι → π, Function.Injective machine ∧ ∀ job, machine job ∈ allowed job := by
  constructor
  · rintro ⟨place, hinj, hmem⟩
    refine ⟨fun job => (place job).1, ?_, hmem⟩
    intro job other hsame
    exact hinj (Prod.ext hsame (Subsingleton.elim _ _))
  · rintro ⟨machine, hinj, hmem⟩
    refine ⟨fun job => (machine job, 0), ?_, hmem⟩
    intro job other hsame
    exact hinj (Prod.mk.inj hsame).1

variable [Fintype ι] [DecidableEq π]

/-- The marriage condition, with the sets of jobs that matter: those that need a machine of a given
set. -/
theorem iff_card (allowed : ι → Finset π) (rounds : Nat) :
    Fits allowed rounds ↔
      ∀ machines : Finset π,
        (Finset.univ.filter fun job => allowed job ⊆ machines).card ≤ rounds * machines.card := by
  have hall := Finset.all_card_le_biUnion_card_iff_exists_injective
    (fun job : ι => allowed job ×ˢ (Finset.univ : Finset (Fin rounds)))
  have hfits : Fits allowed rounds ↔
      ∃ place : ι → π × Fin rounds, Function.Injective place ∧
        ∀ job, place job ∈ allowed job ×ˢ (Finset.univ : Finset (Fin rounds)) := by
    simp only [Fits, Finset.mem_product, Finset.mem_univ, and_true]
  rw [hfits, ← hall]
  constructor
  · intro h machines
    have hslots : ((Finset.univ.filter fun job => allowed job ⊆ machines).biUnion
        fun job => allowed job ×ˢ (Finset.univ : Finset (Fin rounds))) ⊆
          machines ×ˢ Finset.univ := by
      refine Finset.biUnion_subset.mpr fun job hjob => ?_
      exact Finset.product_subset_product_left (Finset.mem_filter.mp hjob).2
    have hcard := (h _).trans (Finset.card_le_card hslots)
    rwa [Finset.card_product, Finset.card_univ, Fintype.card_fin, Nat.mul_comm] at hcard
  · intro h jobs
    have hjobs : jobs ⊆ Finset.univ.filter fun job => allowed job ⊆ jobs.biUnion allowed := by
      intro job hjob
      exact Finset.mem_filter.mpr ⟨Finset.mem_univ _, Finset.subset_biUnion_of_mem allowed hjob⟩
    have hslots : jobs.biUnion (fun job => allowed job ×ˢ (Finset.univ : Finset (Fin rounds))) =
        jobs.biUnion allowed ×ˢ Finset.univ := by
      ext slot
      simp only [Finset.mem_biUnion, Finset.mem_product, Finset.mem_univ, and_true]
    have hcard := (Finset.card_le_card hjobs).trans (h _)
    rwa [hslots, Finset.card_product, Finset.card_univ, Fintype.card_fin, Nat.mul_comm]

/-- Jobs of one kind have the same machines, so that only their numbers matter. -/
theorem iff_sum [Fintype κ] [DecidableEq κ] (kind : ι → κ) (allowed : κ → Finset π)
    (rounds : Nat) :
    Fits (fun job => allowed (kind job)) rounds ↔
      ∀ machines : Finset π,
        (∑ k, if allowed k ⊆ machines then (Finset.univ.filter fun job => kind job = k).card
          else 0) ≤ rounds * machines.card := by
  rw [iff_card]
  refine forall_congr' fun machines => ?_
  have hsplit : (Finset.univ.filter fun job => allowed (kind job) ⊆ machines).card =
      ∑ k, if allowed k ⊆ machines then (Finset.univ.filter fun job => kind job = k).card
        else 0 := by
    rw [Finset.card_eq_sum_card_fiberwise (f := kind) (t := Finset.univ)
      (fun job _ => Finset.mem_coe.mpr (Finset.mem_univ _))]
    refine Finset.sum_congr rfl fun k _ => ?_
    rw [Finset.filter_filter]
    split
    · next hk =>
      congr 1
      refine Finset.filter_congr fun job _ => ?_
      exact ⟨And.right, fun h => ⟨by rwa [h], h⟩⟩
    · next hk =>
      rw [Finset.card_eq_zero, Finset.filter_eq_empty_iff]
      rintro job _ ⟨hsub, rfl⟩
      exact hk hsub
  rw [hsplit]

end Fits

end Sniper.Lib
