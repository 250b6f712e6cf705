import Mathlib.Algebra.Group.Nat.Defs
import Mathlib.Data.List.Basic
set_option autoImplicit false

/-! Little-endian numbers in byte lists. -/

namespace Sniper.Lib

/-- The low `n` bytes of `v`, least significant first. -/
def leBytes : Nat → Nat → List UInt8
  | 0, _ => []
  | n + 1, v => UInt8.ofNat v :: leBytes n (v / 256)

def leValue : List UInt8 → Nat
  | [] => 0
  | b :: bs => b.toNat + 256 * leValue bs

@[simp] theorem length_leBytes (n v : Nat) : (leBytes n v).length = n := by
  induction n generalizing v with
  | zero => rfl
  | succ n ih => simp [leBytes, ih]

theorem leValue_leBytes (n v : Nat) : leValue (leBytes n v) = v % 256 ^ n := by
  induction n generalizing v with
  | zero => simp [leBytes, leValue, Nat.mod_one]
  | succ n ih =>
    have hb : (UInt8.ofNat v).toNat = v % 256 := by simp
    rw [leBytes, leValue, ih, hb, Nat.pow_succ, Nat.mul_comm (256 ^ n) 256, Nat.mod_mul]

theorem leValue_leBytes_of_lt {n v : Nat} (h : v < 256 ^ n) : leValue (leBytes n v) = v := by
  rw [leValue_leBytes, Nat.mod_eq_of_lt h]

/-- A word survives being written in eight bytes. -/
@[simp] theorem ofNat_leValue_leBytes (v : BitVec 64) :
    BitVec.ofNat 64 (leValue (leBytes 8 v.toNat)) = v := by
  have h : v.toNat < 256 ^ 8 := v.isLt
  rw [leValue_leBytes_of_lt h, BitVec.ofNat_toNat, BitVec.setWidth_eq]

end Sniper.Lib
