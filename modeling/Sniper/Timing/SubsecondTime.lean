import Mathlib.Algebra.Group.Nat.Defs
import Mathlib.Order.Defs.LinearOrder
set_option autoImplicit false

/-! Simulated time: femtoseconds in 64 bits, with the wrap-around of unsigned arithmetic. -/

namespace Sniper.Timing

/-- `m_time`. -/
abbrev SubsecondTime := UInt64

namespace SubsecondTime

def maxTime : SubsecondTime := 0xffffffffffffffff

/-- `getPS`: whole picoseconds. -/
def getPS (t : SubsecondTime) : UInt64 := t / 1000

end SubsecondTime

theorem toNat_add_of_lt {a b : SubsecondTime} (h : a.toNat + b.toNat < 2 ^ 64) :
    (a + b).toNat = a.toNat + b.toNat := by
  rw [UInt64.toNat_add, Nat.mod_eq_of_lt h]

/-- Adding a delay and taking it off again gives the same time, also across the end of the range. -/
theorem add_sub_self (a b : SubsecondTime) : a + b - b = a := by
  apply UInt64.toNat_inj.mp
  have ha := a.toNat_lt
  have hb := b.toNat_lt
  rw [UInt64.toNat_sub, UInt64.toNat_add]
  omega

end Sniper.Timing
