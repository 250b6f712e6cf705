import Mathlib.Data.Nat.Count
import Mathlib.Data.Nat.Nth
import Mathlib.Data.Int.CardIntervalMod
import Mathlib.Tactic.Convert
set_option autoImplicit false

namespace Sniper.Lib.Interleave

/-- Items in runs of `B`, the runs dealt to `m` owners in turn. -/
def owner (B m t : Nat) : Nat := t / B % m

/-- The number of an item among those of its owner. -/
def rank (B m t : Nat) : Nat := B * (t / B / m) + t % B

/-- Counting a property of the run over whole runs and a part of the next one. -/
theorem count_runs (P : Nat → Prop) [DecidablePred P] {B : Nat} (q : Nat) {r : Nat} (hr : r ≤ B) :
    Nat.count (fun t => P (t / B)) (B * q + r) =
      B * Nat.count P q + if P q then r else 0 := by
  have hpart : ∀ q r, r ≤ B → Nat.count (fun t => P ((B * q + t) / B)) r =
      if P q then r else 0 := by
    intro q r hr
    induction r with
    | zero => simp
    | succ r ih =>
      have hquot : (B * q + r) / B = q := by
        rw [Nat.mul_add_div (by omega), Nat.div_eq_of_lt (by omega), Nat.add_zero]
      rw [Nat.count_succ, ih (by omega), hquot]
      by_cases hp : P q <;> simp [hp]
  induction q generalizing r with
  | zero => simpa using hpart 0 r hr
  | succ q ih =>
    have hwhole := ih (Nat.le_refl B)
    rw [← Nat.mul_succ] at hwhole
    rw [Nat.count_add, hpart _ r hr, hwhole, Nat.count_succ]
    by_cases hp : P q <;> simp [hp, Nat.mul_add]

/-- The owner's items below an item are as many as its number says. -/
theorem count_owner {B m : Nat} (hB : 0 < B) (hm : 0 < m) (t : Nat) :
    Nat.count (fun u => owner B m u = owner B m t) t = rank B m t := by
  have hruns := count_runs (fun q => q % m = t / B % m) (t / B) (Nat.le_of_lt (Nat.mod_lt t hB))
  have hturns : Nat.count (fun q => q % m = t / B % m) (t / B) = t / B / m := by
    have hcard := Nat.count_modEq_card (t / B) hm (t / B)
    rw [if_neg (Nat.lt_irrefl _), Nat.add_zero] at hcard
    convert hcard
    exact Iff.rfl
  rw [Nat.div_add_mod, if_pos rfl, hturns] at hruns
  exact hruns

/-- An owner's next item has the next number. -/
theorem rank_next {B m : Nat} (hB : 0 < B) (hm : 0 < m) {t u : Nat}
    (h : owner B m t = owner B m u) (htu : t < u)
    (hnone : ∀ v, t < v → v < u → owner B m v ≠ owner B m t) : rank B m u = rank B m t + 1 := by
  obtain ⟨k, rfl⟩ : ∃ k, u = t + 1 + k := ⟨u - (t + 1), by omega⟩
  have hgap : Nat.count (fun i => owner B m (t + 1 + i) = owner B m t) k = 0 := by
    rw [Nat.count_iff_forall_not]
    intro i hi
    exact hnone _ (by omega) (by omega)
  rw [← count_owner hB hm (t + 1 + k), ← h, Nat.count_add, hgap, Nat.count_succ,
    count_owner hB hm t, if_pos rfl, Nat.add_zero]

/-- Every number below the count of an owner's items is the number of one of them. -/
theorem exists_rank {B m : Nat} (hB : 0 < B) (hm : 0 < m) {h j N : Nat}
    (hj : j < Nat.count (fun u => owner B m u = h) N) :
    ∃ t < N, owner B m t = h ∧ rank B m t = j := by
  have hcard : ∀ hf : (Set.ofPred fun u => owner B m u = h).Finite, j < hf.toFinset.card :=
    fun hf => Nat.lt_of_lt_of_le hj (Nat.count_le_card hf N)
  have howner := Nat.nth_mem j hcard
  refine ⟨_, Nat.nth_lt_of_lt_count hj, howner, ?_⟩
  rw [← count_owner hB hm, howner]
  exact Nat.count_nth hcard

end Sniper.Lib.Interleave
