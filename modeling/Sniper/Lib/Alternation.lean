import Mathlib.Init
set_option autoImplicit false

/-! Histories in which what opens is closed before it opens again. -/

namespace Sniper.Lib

variable {ε : Type} {opens closes : ε → Bool}

/-- Whether it is open after the events, if opening and closing alternate. -/
def alternate (opens closes : ε → Bool) : Bool → List ε → Option Bool
  | b, [] => some b
  | b, event :: log =>
    if opens event then if b then none else alternate opens closes true log
    else if closes event then if b then alternate opens closes false log else none
    else alternate opens closes b log

theorem alternate_append (b : Bool) (log more : List ε) :
    alternate opens closes b (log ++ more) =
      (alternate opens closes b log).bind fun b' => alternate opens closes b' more := by
  induction log generalizing b with
  | nil => rfl
  | cons event log ih =>
    simp only [List.cons_append, alternate]
    split
    · split
      · rfl
      · exact ih true
    · split
      · split
        · exact ih false
        · rfl
      · exact ih b

/-- Every opening but a last one that is still open was closed, once. -/
theorem alternate_count (hne : ∀ e, opens e = true → closes e = false) {b b' : Bool}
    {log : List ε} (h : alternate opens closes b log = some b') :
    b.toNat + log.countP opens = log.countP closes + b'.toNat := by
  induction log generalizing b with
  | nil =>
    cases h
    simp
  | cons event log ih =>
    rw [alternate] at h
    rw [List.countP_cons, List.countP_cons]
    split at h
    · rename_i ho
      split at h
      · cases h
      · rename_i hb
        have hih := ih h
        simp only [ho, hne event ho, Bool.not_eq_true] at hb ⊢
        simp only [hb, Bool.toNat_true, Bool.toNat_false, if_true, Bool.false_eq_true,
          if_false] at hih ⊢
        omega
    · rename_i ho
      split at h
      · rename_i hc
        split at h
        · rename_i hb
          have hih := ih h
          simp only [ho, hc, hb, Bool.toNat_true, Bool.toNat_false, if_true, Bool.false_eq_true,
            if_false] at hih ⊢
          omega
        · cases h
      · rename_i hc
        have hih := ih h
        simp only [ho, hc, if_false, Bool.false_eq_true] at hih ⊢
        omega

end Sniper.Lib
