import Mathlib.Data.Nat.Notation
set_option autoImplicit false

/-! The bytes of a word, the lowest first: reading and writing one of them. -/

namespace Sniper.Lib.WordBytes

variable {w : ℕ} {x y : BitVec w} {b : BitVec 8} {i j k : ℕ}

def byteAt (x : BitVec w) (k : ℕ) : BitVec 8 := (x >>> (8 * k)).setWidth 8

def setByte (x : BitVec w) (k : ℕ) (b : BitVec 8) : BitVec w :=
  x &&& ~~~((0xff#8).setWidth w <<< (8 * k)) ||| b.setWidth w <<< (8 * k)

theorem getLsbD_byteAt : (byteAt x k).getLsbD i = (decide (i < 8) && x.getLsbD (8 * k + i)) := by
  rw [byteAt, BitVec.getLsbD_setWidth, BitVec.getLsbD_ushiftRight]

theorem getLsbD_setByte (hi : i < w) : (setByte x k b).getLsbD i =
    if 8 * k ≤ i ∧ i < 8 * k + 8 then b.getLsbD (i - 8 * k) else x.getLsbD i := by
  have hones : (0xff#8).getLsbD (i - 8 * k) = decide (i - 8 * k < 8) := by
    have hall : (0xff#8) = BitVec.allOnes 8 := by decide
    rw [hall, BitVec.getLsbD_allOnes]
  have hshift : i - 8 * k < w := Nat.lt_of_le_of_lt (Nat.sub_le ..) hi
  rw [setByte, BitVec.getLsbD_or, BitVec.getLsbD_and, BitVec.getLsbD_not, BitVec.getLsbD_shiftLeft,
    BitVec.getLsbD_shiftLeft, BitVec.getLsbD_setWidth, BitVec.getLsbD_setWidth, hones,
    decide_eq_true hi, decide_eq_true hshift]
  by_cases hin : 8 * k ≤ i ∧ i < 8 * k + 8
  · have hlow : ¬i < 8 * k := Nat.not_lt.mpr hin.1
    have hlt : i - 8 * k < 8 := by omega
    rw [if_pos hin, decide_eq_false hlow, decide_eq_true hlt]
    simp
  · rw [if_neg hin]
    by_cases hlow : i < 8 * k
    · rw [decide_eq_true hlow]
      simp
    · have hlt : ¬i - 8 * k < 8 := by omega
      have hout : b.getLsbD (i - 8 * k) = false := BitVec.getLsbD_of_ge b _ (by omega)
      rw [decide_eq_false hlow, decide_eq_false hlt, hout]
      simp

/-- A written byte is read back, and no other byte is changed. -/
theorem byteAt_setByte (hk : 8 * k + 8 ≤ w) (hj : 8 * j + 8 ≤ w) :
    byteAt (setByte x k b) j = if j = k then b else byteAt x j := by
  refine BitVec.eq_of_getLsbD_eq fun i hi => ?_
  rw [getLsbD_byteAt, decide_eq_true hi, Bool.true_and, getLsbD_setByte (by omega)]
  by_cases heq : j = k
  · subst heq
    rw [if_pos (by omega), if_pos rfl, Nat.add_sub_cancel_left]
  · rw [if_neg (by omega), if_neg heq, getLsbD_byteAt, decide_eq_true hi, Bool.true_and]

/-- A word is its bytes. -/
theorem eq_of_byteAt {n : ℕ} (hw : w = 8 * n) (h : ∀ k < n, byteAt x k = byteAt y k) : x = y := by
  refine BitVec.eq_of_getLsbD_eq fun i hi => ?_
  have hbyte := congrArg (BitVec.getLsbD · (i % 8)) (h (i / 8) (by omega))
  have hlt : i % 8 < 8 := Nat.mod_lt _ (by decide)
  simp only [getLsbD_byteAt, decide_eq_true hlt, Bool.true_and, Nat.div_add_mod] at hbyte
  exact hbyte

end Sniper.Lib.WordBytes
