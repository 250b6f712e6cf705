import Mathlib.Data.Int.Basic
set_option autoImplicit false

/-! Walks that follow a next-hop function, and the coordinates of a line or a ring. -/

namespace Sniper.Lib

section Follow

variable {α δ : Type} [DecidableEq α]

/-- Take hop after hop from `c` until a hop leads to `d`. -/
def follow (next : α → δ × α) (d : α) : Nat → α → Option (List (δ × α))
  | 0, _ => none
  | fuel + 1, c =>
    if (next c).2 = d then some [next c]
    else (follow next d fuel (next c).2).map (next c :: ·)

theorem follow_last {next : α → δ × α} {d c : α} (h : (next c).2 = d) (fuel : Nat) :
    follow next d (fuel + 1) c = some [next c] := by
  rw [follow, if_pos h]

theorem follow_hop {next : α → δ × α} {d c : α} (h : (next c).2 ≠ d) (fuel : Nat) :
    follow next d (fuel + 1) c = (follow next d fuel (next c).2).map (next c :: ·) := by
  rw [follow, if_neg h]

/-- More fuel changes nothing. -/
theorem follow_mono {next : α → δ × α} {d : α} {fuel : Nat} {c : α} {hops : List (δ × α)}
    (h : follow next d fuel c = some hops) (k : Nat) :
    follow next d (fuel + k) c = some hops := by
  induction fuel generalizing c hops with
  | zero => cases h
  | succ fuel ih =>
    rw [Nat.succ_add]
    by_cases hd : (next c).2 = d
    · rw [follow_last hd] at h ⊢
      exact h
    · rw [follow_hop hd, Option.map_eq_some_iff] at h
      obtain ⟨hops', hrec, rfl⟩ := h
      rw [follow_hop hd, ih hrec]
      rfl

/-- Where every hop that does not arrive lowers a rank, the walk arrives within the rank. -/
theorem follow_arrives {next : α → δ × α} {d : α} {P : α → Prop} (rank : α → Nat)
    (hop : ∀ c, P c → (next c).2 ≠ d → P (next c).2 ∧ rank (next c).2 < rank c) {c : α} (hc : P c) :
    ∃ hops, follow next d (rank c + 1) c = some hops := by
  induction hn : rank c using Nat.strong_induction_on generalizing c with
  | _ n ih =>
    by_cases hd : (next c).2 = d
    · exact ⟨_, follow_last hd n⟩
    · obtain ⟨hP, hlt⟩ := hop c hc hd
      obtain ⟨hops, hrec⟩ := ih (rank (next c).2) (hn ▸ hlt) hP rfl
      obtain ⟨k, hk⟩ : ∃ k, n = rank (next c).2 + 1 + k := ⟨n - rank (next c).2 - 1, by omega⟩
      refine ⟨next c :: hops, ?_⟩
      rw [follow_hop hd, hk, follow_mono hrec]
      rfl

/-- What holds of each hop of a walk and adds up along it. -/
theorem follow_induction {next : α → δ × α} {d : α} {P : α → Prop}
    {Q : α → List (δ × α) → Prop}
    (last : ∀ c, P c → (next c).2 = d → Q c [next c])
    (hop : ∀ c hops, P c → (next c).2 ≠ d → P (next c).2 ∧ (Q (next c).2 hops → Q c (next c :: hops)))
    {fuel : Nat} {c : α} {hops : List (δ × α)} (hc : P c)
    (h : follow next d fuel c = some hops) : Q c hops := by
  induction fuel generalizing c hops with
  | zero => cases h
  | succ fuel ih =>
    by_cases hd : (next c).2 = d
    · rw [follow_last hd] at h
      cases h
      exact last c hc hd
    · rw [follow_hop hd, Option.map_eq_some_iff] at h
      obtain ⟨hops', hrec, rfl⟩ := h
      obtain ⟨hP, hQ⟩ := hop c hops' hc hd
      exact hQ (ih hP hrec)

/-- Two walks that take the same hops are the same. -/
theorem follow_congr {next next' : α → δ × α} {d : α} {P : α → Prop}
    (heq : ∀ c, P c → next' c = next c) (hop : ∀ c, P c → (next c).2 ≠ d → P (next c).2) (fuel : Nat)
    {c : α} (hc : P c) : follow next' d fuel c = follow next d fuel c := by
  induction fuel generalizing c with
  | zero => rfl
  | succ fuel ih =>
    rw [follow, follow, heq c hc]
    by_cases hd : (next c).2 = d
    · rw [if_pos hd, if_pos hd]
    · rw [if_neg hd, if_neg hd, ih (hop c hc hd)]

end Follow

section Axis

/-- Whether the way from `s` to `d` leads down: towards the smaller coordinate, or the other way
round a ring when `d` is farther than `t`. -/
def leadsDown (t : Int) (wrap : Bool) (s d : Int) : Bool :=
  Bool.xor (decide (d < s)) (wrap && decide (t < (s - d).natAbs))

/-- The coordinate behind one step, on a ring of `n` points. -/
def stepDown (n s : Int) : Int := (s - 1 + n) % n

def stepUp (n s : Int) : Int := (s + 1 + n) % n

/-- The number of steps the way takes. -/
def wayLength (n t : Int) (wrap : Bool) (s d : Int) : Int :=
  if wrap && decide (t < (s - d).natAbs) then n - (s - d).natAbs else (s - d).natAbs

/-- The number of steps of the shorter way. -/
def axisDistance (n : Int) (wrap : Bool) (s d : Int) : Int :=
  if wrap then min (s - d).natAbs (n - (s - d).natAbs) else (s - d).natAbs

variable {n t : Int} {wrap : Bool} {s d : Int}

theorem emod_of_range {x n : Int} (h0 : 0 ≤ x) (h1 : x < n) : (x + n) % n = x := by
  rw [Int.add_emod_right, Int.emod_eq_of_lt h0 h1]

theorem stepDown_eq (h0 : 0 ≤ s) (h1 : s < n) :
    stepDown n s = if s = 0 then n - 1 else s - 1 := by
  rw [stepDown]
  split
  · rename_i hs
    have hn : s - 1 + n = n - 1 := by omega
    rw [hn, Int.emod_eq_of_lt (by omega) (by omega)]
  · exact emod_of_range (by omega) (by omega)

theorem stepUp_eq (h0 : 0 ≤ s) (h1 : s < n) :
    stepUp n s = if s = n - 1 then 0 else s + 1 := by
  rw [stepUp]
  split
  · rename_i hs
    have hn : s + 1 + n = 0 + n + n := by omega
    rw [hn, Int.add_emod_right, Int.add_emod_right, Int.zero_emod]
  · exact emod_of_range (by omega) (by omega)

theorem wayLength_nonneg (hs : 0 ≤ s ∧ s < n) (hd : 0 ≤ d ∧ d < n) :
    0 ≤ wayLength n t wrap s d := by
  rw [wayLength]
  split <;> omega

/-- A way has no steps exactly when it is at its end. -/
theorem wayLength_eq_zero (ht : 0 ≤ t) (hs : 0 ≤ s ∧ s < n) (hd : 0 ≤ d ∧ d < n) :
    wayLength n t wrap s d = 0 ↔ s = d := by
  rw [wayLength]
  by_cases hfar : (wrap && decide (t < (s - d).natAbs)) = true
  · rw [if_pos hfar]
    simp only [Bool.and_eq_true, decide_eq_true_eq] at hfar
    omega
  · rw [if_neg hfar]
    omega

/-- Each step of the way keeps to the axis and shortens the way by one, if the threshold is not
below half of the ring. -/
theorem wayLength_step (ht : n ≤ 2 * t + 2) (hs : 0 ≤ s ∧ s < n) (hd : 0 ≤ d ∧ d < n)
    (hne : s ≠ d) :
    let s' := if leadsDown t wrap s d then stepDown n s else stepUp n s
    (0 ≤ s' ∧ s' < n) ∧ wayLength n t wrap s' d + 1 = wayLength n t wrap s d := by
  rw [stepDown_eq hs.1 hs.2, stepUp_eq hs.1 hs.2]
  simp only [leadsDown, wayLength]
  cases wrap with
  | false =>
    by_cases hlt : d < s
    · simp only [hlt, decide_true, Bool.false_and, Bool.xor_false, if_true, Bool.false_eq_true,
        if_false]
      split <;> omega
    · simp only [hlt, decide_false, Bool.false_and, Bool.xor_false, Bool.false_eq_true, if_false]
      split <;> omega
  | true =>
    by_cases hlt : d < s <;> by_cases hfar : t < (s - d).natAbs
    · simp only [hlt, hfar, decide_true, Bool.and_true, Bool.xor_self, Bool.false_eq_true, if_false,
        Bool.true_and, if_true, decide_eq_true_eq]
      split <;> split <;> omega
    · simp only [hlt, hfar, decide_true, decide_false, Bool.and_false, Bool.xor_false, if_true,
        Bool.true_and, Bool.false_eq_true, if_false, decide_eq_true_eq]
      split <;> split <;> omega
    · simp only [hlt, hfar, decide_true, decide_false, Bool.and_true, Bool.false_xor, if_true,
        Bool.true_and, decide_eq_true_eq]
      split <;> split <;> omega
    · simp only [hlt, hfar, decide_false, Bool.and_false, Bool.xor_self, Bool.false_eq_true,
        if_false, Bool.true_and, decide_eq_true_eq]
      split <;> split <;> omega

/-- The way is as short as the distance, unless it is a step longer: on a ring of an odd number of
points, to one just over half way round. -/
theorem wayLength_eq (ht : t = (n + 1) / 2) :
    wayLength n t wrap s d =
      axisDistance n wrap s d + if wrap = true ∧ 2 * (s - d).natAbs = n + 1 then 1 else 0 := by
  rw [axisDistance, wayLength]
  cases wrap with
  | false => simp
  | true =>
    simp only [Bool.true_and, decide_eq_true_eq, if_true, true_and]
    split <;> split <;> omega

end Axis

end Sniper.Lib
