import Sniper.Lib.Machine
import Mathlib.Order.WellFounded
set_option autoImplicit false

namespace Sniper.Lib

/-- A run that never stops. -/
structure InfiniteRun {σ ι ο : Type} (M : Machine σ ι ο) where
  state : Nat → σ
  input : Nat → ι
  output : Nat → ο
  starts : M.init (state 0)
  steps : ∀ i, M.step (state i) (input i) (output i) (state (i + 1))

namespace InfiniteRun

variable {σ ι ο : Type} {M : Machine σ ι ο} (r : InfiniteRun M)

theorem reachable (i : Nat) : Reachable M (r.state i) := by
  induction i with
  | zero => exact ⟨[], .start r.starts⟩
  | succ i ih =>
    obtain ⟨tr, h⟩ := ih
    exact ⟨_, h.next trivial (r.steps i)⟩

/-- What only the inputs `A` end, and has ended, one of them has ended. -/
theorem taken (P : σ → Prop) (A : ι → Prop) {i j : Nat}
    (hkeep : ∀ k, P (r.state k) → ¬A (r.input k) → P (r.state (k + 1)))
    (hi : P (r.state i)) (hij : i ≤ j) (hj : ¬P (r.state j)) : ∃ k, i ≤ k ∧ A (r.input k) := by
  by_contra hnever
  push Not at hnever
  refine hj ?_
  clear hj
  induction j, hij using Nat.le_induction with
  | base => exact hi
  | succ j hij ih => exact hkeep j ih (hnever j hij)

/-- `P` holds from the state `i` on up to the step `j`, whose output meets `goal`. -/
structure Until (P : σ → Prop) (goal : ο → Prop) (i j : Nat) : Prop where
  order : i ≤ j
  reached : goal (r.output j)
  holds : ∀ k, i ≤ k → k ≤ j → P (r.state k)

variable {r} {P : σ → Prop} {goal : ο → Prop} {i j k : Nat}

theorem Until.extend (h : r.Until P goal j k) (hij : i ≤ j)
    (hholds : ∀ l, i ≤ l → l ≤ j → P (r.state l)) : r.Until P goal i k := by
  refine ⟨hij.trans h.order, h.reached, fun l hil hlk => ?_⟩
  rcases Nat.le_total l j with hlj | hjl
  · exact hholds l hil hlj
  · exact h.holds l hjl hlk

variable {W : Type} [PartialOrder W] (rank : σ → W)

/-- Up to the step that meets `goal`, `P` holds and the rank does not grow. -/
theorem until_or_keeps
    (hkeep : ∀ k, P (r.state k) →
      goal (r.output k) ∨ P (r.state (k + 1)) ∧ rank (r.state (k + 1)) ≤ rank (r.state k))
    (hi : P (r.state i)) (hij : i ≤ j) :
    (∃ k, r.Until P goal i k) ∨
      rank (r.state j) ≤ rank (r.state i) ∧ ∀ k, i ≤ k → k ≤ j → P (r.state k) := by
  induction j, hij using Nat.le_induction with
  | base =>
    refine .inr ⟨le_rfl, fun k hik hki => ?_⟩
    rwa [Nat.le_antisymm hki hik]
  | succ j hij ih =>
    rcases ih with hreached | ⟨hrank, hholds⟩
    · exact .inl hreached
    rcases hkeep j (hholds j hij le_rfl) with hgoal | ⟨hnext, hle⟩
    · exact .inl ⟨j, hij, hgoal, hholds⟩
    · refine .inr ⟨hle.trans hrank, fun k hik hkj => ?_⟩
      rcases Nat.le_succ_iff.mp hkj with hkj | rfl
      · exact hholds k hik hkj
      · exact hnext

/-- Where every step keeps `P` without raising the rank, and from every state a step that
lowers it comes in the end, `goal` is met. -/
theorem until_of_rank [WellFoundedLT W]
    (hkeep : ∀ k, P (r.state k) →
      goal (r.output k) ∨ P (r.state (k + 1)) ∧ rank (r.state (k + 1)) ≤ rank (r.state k))
    (hhelp : ∀ i, P (r.state i) → ∃ j, i ≤ j ∧ (P (r.state j) →
      rank (r.state j) = rank (r.state i) →
        goal (r.output j) ∨ rank (r.state (j + 1)) < rank (r.state j)))
    (hi : P (r.state i)) : ∃ j, r.Until P goal i j := by
  generalize hw : rank (r.state i) = w
  induction w using WellFoundedLT.induction generalizing i with
  | ind w ih =>
  subst hw
  obtain ⟨j, hij, hlower⟩ := hhelp i hi
  rcases until_or_keeps rank hkeep hi hij with hreached | ⟨hrank, hholds⟩
  · exact hreached
  have hj := hholds j hij le_rfl
  rcases hrank.lt_or_eq with hlt | heq
  · obtain ⟨k, hk⟩ := ih _ hlt hj rfl
    exact ⟨k, hk.extend hij hholds⟩
  rcases hkeep j hj with hgoal | ⟨hnext, -⟩
  · exact ⟨j, hij, hgoal, hholds⟩
  rcases hlower hj heq with hgoal | hlt
  · exact ⟨j, hij, hgoal, hholds⟩
  · obtain ⟨k, hk⟩ := ih _ (heq ▸ hlt) hnext rfl
    refine ⟨k, hk.extend (hij.trans (Nat.le_succ j)) fun l hil hlj => ?_⟩
    rcases Nat.le_succ_iff.mp hlj with hlj | rfl
    · exact hholds l hil hlj
    · exact hnext

end InfiniteRun

end Sniper.Lib
