import Mathlib.Data.Nat.Notation
set_option autoImplicit false

/-! One bit of a word: testing, setting and clearing it by a mask. -/

namespace Sniper.Lib.Bits

variable {w i j : ℕ} {x : BitVec w}

theorem getLsbD_bit : (1#w <<< i).getLsbD j = (decide (i < w) && decide (i = j)) := by
  rw [← BitVec.twoPow_eq, BitVec.getLsbD_twoPow]

theorem and_bit_ne_zero : x &&& 1#w <<< i ≠ 0 ↔ x.getLsbD i = true := by
  rw [← BitVec.twoPow_eq, BitVec.and_twoPow]
  by_cases hbit : x.getLsbD i = true
  · rw [if_pos hbit]
    refine iff_of_true (fun hzero => ?_) hbit
    have htest := congrArg (BitVec.getLsbD · i) hzero
    simp [BitVec.lt_of_getLsbD hbit] at htest
  · rw [if_neg hbit]
    exact iff_of_false (fun hne => hne rfl) hbit

theorem getLsbD_or_bit (hi : i < w) :
    (x ||| 1#w <<< i).getLsbD j = (x.getLsbD j || decide (i = j)) := by
  rw [BitVec.getLsbD_or, getLsbD_bit, decide_eq_true hi, Bool.true_and]

theorem getLsbD_and_not_bit (hi : i < w) :
    (x &&& ~~~(1#w <<< i)).getLsbD j = (x.getLsbD j && !decide (i = j)) := by
  rw [BitVec.getLsbD_and, BitVec.getLsbD_not, getLsbD_bit, decide_eq_true hi, Bool.true_and]
  by_cases hj : j < w
  · rw [decide_eq_true hj, Bool.true_and]
  · have hout : x.getLsbD j = false := BitVec.getLsbD_of_ge x j (Nat.le_of_not_lt hj)
    rw [hout, Bool.false_and, Bool.false_and]

end Sniper.Lib.Bits
