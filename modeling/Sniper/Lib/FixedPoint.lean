import Mathlib.Algebra.Order.Group.Int
set_option autoImplicit false

/-! Fractions as integers, in units of a fixed size. -/

namespace Sniper.Lib

structure FixedPoint (one : Nat) where
  raw : Int
  deriving DecidableEq

namespace FixedPoint

variable {one : Nat}

def ofInt (i : Int) : FixedPoint one := ⟨i * one⟩

def add (x y : FixedPoint one) : FixedPoint one := ⟨x.raw + y.raw⟩

def subInt (x : FixedPoint one) (i : Int) : FixedPoint one := ⟨x.raw - i * one⟩

/-- The quotient is rounded towards zero. -/
def divInt (x : FixedPoint one) (i : Int) : FixedPoint one := ⟨x.raw.tdiv i⟩

def floor (x : FixedPoint one) : Int := x.raw.tdiv one

/-- Less than one, and not less than zero. -/
structure Fraction (x : FixedPoint one) : Prop where
  nonneg : 0 ≤ x.raw
  lt : x.raw < one

theorem fraction_ofInt_zero (hone : 0 < one) : (ofInt 0 : FixedPoint one).Fraction := by
  constructor
  · simp [ofInt]
  · simpa [ofInt] using hone

theorem floor_nonneg {x : FixedPoint one} (h : 0 ≤ x.raw) : 0 ≤ x.floor :=
  Int.tdiv_nonneg h (Int.natCast_nonneg one)

/-- What is left when all ones are taken away. -/
theorem fraction_subInt_floor (hone : 0 < one) {x : FixedPoint one} (h : 0 ≤ x.raw) :
    (x.subInt x.floor).Fraction := by
  have hpos : (0 : Int) < one := Int.natCast_pos.mpr hone
  have hdiv : x.floor = x.raw / one := Int.tdiv_eq_ediv_of_nonneg h
  have hmod : (x.subInt x.floor).raw = x.raw % one := by
    rw [subInt, hdiv, Int.emod_def, Int.mul_comm]
  constructor
  · rw [hmod]
    exact Int.emod_nonneg _ hpos.ne'
  · rw [hmod]
    exact Int.emod_lt_of_pos _ hpos

/-- A part of a whole number that is at least one unit. -/
theorem one_le_divInt {n d : Int} (hd : 0 < d) (hle : d ≤ n * one) :
    1 ≤ ((ofInt n : FixedPoint one).divInt d).raw := by
  have hnonneg : 0 ≤ n * (one : Int) := hd.le.trans hle
  rw [divInt, ofInt, Int.tdiv_eq_ediv_of_nonneg hnonneg, Int.le_ediv_iff_mul_le hd, Int.one_mul]
  exact hle

theorem divInt_nonneg {n d : Int} (hn : 0 ≤ n) (hd : 0 ≤ d) :
    0 ≤ ((ofInt n : FixedPoint one).divInt d).raw :=
  Int.tdiv_nonneg (Int.mul_nonneg hn (Int.natCast_nonneg one)) hd

/-- The quotient by a whole number is at most as large. -/
theorem divInt_le {n d : Int} (hn : 0 ≤ n) :
    ((ofInt n : FixedPoint one).divInt d).raw ≤ n * one := by
  have hnonneg : 0 ≤ n * (one : Int) := Int.mul_nonneg hn (Int.natCast_nonneg one)
  rw [divInt, ofInt, Int.tdiv_eq_ediv_of_nonneg hnonneg]
  exact Int.ediv_le_self d hnonneg

theorem floor_le {x : FixedPoint one} (hone : 0 < one) {n : Int} (h : 0 ≤ x.raw)
    (hlt : x.raw < (n + 1) * one) : x.floor ≤ n := by
  rw [floor, Int.tdiv_eq_ediv_of_nonneg h]
  exact Int.le_of_lt_add_one (Int.ediv_lt_of_lt_mul (Int.natCast_pos.mpr hone) hlt)

/-! ### A share that is added to what was left before -/

variable {n d : Int} {x : FixedPoint one}

theorem share_nonneg (hn : 0 ≤ n) (hd : 0 ≤ d) (hx : x.Fraction) :
    0 ≤ (((ofInt n).divInt d).add x).raw :=
  Int.add_nonneg (divInt_nonneg hn hd) hx.nonneg

/-- There are no more ones than in the whole. -/
theorem share_floor_le (hone : 0 < one) (hn : 0 ≤ n) (hd : 0 ≤ d) (hx : x.Fraction) :
    (((ofInt n).divInt d).add x).floor ≤ n := by
  refine floor_le hone (share_nonneg hn hd hx) ?_
  calc (((ofInt n).divInt d).add x).raw
      ≤ n * one + x.raw := Int.add_le_add_right (divInt_le hn) _
    _ < n * one + one := Int.add_lt_add_left hx.lt _
    _ = (n + 1) * one := by rw [Int.add_mul, Int.one_mul]

/-- A share of at least one unit is not lost. -/
theorem lt_share (hd : 0 < d) (hle : d ≤ n * one) :
    x.raw < (((ofInt n).divInt d).add x).raw := by
  have hshare := one_le_divInt hd hle
  exact Int.lt_add_of_pos_left x.raw hshare

end FixedPoint

end Sniper.Lib
