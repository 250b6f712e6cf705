import Sniper.Lib.Machine
import Sniper.Timing.SubsecondTime
import Mathlib.Algebra.BigOperators.Group.List.Basic
import Mathlib.Data.List.DropRight
import Mathlib.Data.UInt
set_option autoImplicit false

/-! The average of the last delays, kept in a ring of one more entry than the window has. -/

namespace Sniper.Timing
open Sniper.Lib

/-- What stops the simulator in the queue model: an assertion that fails, or a division by zero. -/
inductive Fault where
  | listEmpty
  | listTooLong
  | intervalNotFound
  | moduloByZero
  | divisionByZero
  deriving DecidableEq, Repr

/-- A 32-bit number modulo `maxValue`. -/
@[ext] structure ModuloNum where
  value : Nat
  maxValue : Nat
  deriving DecidableEq, Repr

namespace ModuloNum

def add (a : ModuloNum) (value : Nat) : Except Fault ModuloNum :=
  if a.maxValue = 0 then .error .moduloByZero
  else .ok { a with value := (a.value + value % a.maxValue) % 2 ^ 32 % a.maxValue }

def sub (a b : ModuloNum) : ModuloNum :=
  { a with value :=
      if b.value ≤ a.value then a.value - b.value else a.maxValue - b.value + a.value }

end ModuloNum

/-- One step further round a ring is one more or back at its start. -/
theorem mod_of_lt_twice {x m : Nat} (h : x < 2 * m) : x % m = if x < m then x else x - m := by
  split
  case isTrue hlt => exact Nat.mod_eq_of_lt hlt
  case isFalse hge =>
    rw [Nat.mod_eq_sub_mod (by omega), Nat.mod_eq_of_lt (by omega)]

/-- Different places in a ring. -/
theorem mod_ne {f i j m : Nat} (hf : f < m) (hij : i < j) (hj : j < m) :
    (f + i) % m ≠ (f + j) % m := by
  rw [mod_of_lt_twice (by omega), mod_of_lt_twice (by omega)]
  split <;> split <;> omega

theorem ModuloNum.add_one {a : ModuloNum} (hmax : 2 ≤ a.maxValue) (hlt : a.maxValue < 2 ^ 32)
    (ha : a.value < a.maxValue) : a.add 1 = .ok ⟨(a.value + 1) % a.maxValue, a.maxValue⟩ := by
  have hone : 1 % a.maxValue = 1 := Nat.mod_eq_of_lt (by omega)
  rw [ModuloNum.add, if_neg (by omega), hone, Nat.mod_eq_of_lt (a := a.value + 1) (by omega)]

structure MovingArithmeticMean where
  numList : List SubsecondTime
  maxWindowSize : UInt32
  currWindowFront : ModuloNum
  currWindowBack : ModuloNum
  sum : SubsecondTime
  deriving DecidableEq, Repr

namespace MovingArithmeticMean

def new (maxWindowSize : UInt32) : MovingArithmeticMean :=
  let size := (maxWindowSize + 1).toNat
  ⟨List.replicate size 0, maxWindowSize, ⟨0, size⟩, ⟨0, size⟩, 0⟩

def currWindowSize (a : MovingArithmeticMean) : Nat :=
  (a.currWindowBack.sub a.currWindowFront).value

def addToWindow (a : MovingArithmeticMean) (nextNum : SubsecondTime) :
    Except Fault MovingArithmeticMean := do
  let numList := a.numList.set a.currWindowBack.value nextNum
  let back ← a.currWindowBack.add 1
  let front ← (if back = a.currWindowFront then a.currWindowFront.add 1 else .ok a.currWindowFront)
  return { a with numList := numList, currWindowBack := back, currWindowFront := front }

def update (a : MovingArithmeticMean) (nextNum : SubsecondTime) :
    Except Fault MovingArithmeticMean :=
  let sum :=
    if a.currWindowSize = a.maxWindowSize.toNat
    then a.sum - a.numList.getD a.currWindowFront.value 0 else a.sum
  addToWindow { a with sum := sum + nextNum } nextNum

def compute (a : MovingArithmeticMean) : Except Fault SubsecondTime :=
  if a.currWindowSize = 0 then .error .divisionByZero
  else .ok (a.sum / UInt64.ofNat a.currWindowSize)

theorem compute_error {a : MovingArithmeticMean} {fault : Fault} (h : a.compute = .error fault) :
    fault = .divisionByZero := by
  unfold compute at h
  split at h
  · cases h
    rfl
  · cases h

theorem addToWindow_error {a : MovingArithmeticMean} {nextNum : SubsecondTime} {fault : Fault}
    (h : a.addToWindow nextNum = .error fault) : fault = .moduloByZero := by
  have hadd : ∀ (m : ModuloNum) (v : Nat), m.add v = .error fault → fault = .moduloByZero := by
    intro m v hm
    unfold ModuloNum.add at hm
    split at hm
    · cases hm
      rfl
    · cases hm
  unfold addToWindow at h
  rcases except_bind_eq_error.mp h with hback | ⟨back, -, h⟩
  · exact hadd _ _ hback
  · rcases except_bind_eq_error.mp h with hfront | ⟨front, -, h⟩
    · split at hfront
      · exact hadd _ _ hfront
      · cases hfront
    · cases h

theorem update_error {a : MovingArithmeticMean} {nextNum : SubsecondTime} {fault : Fault}
    (h : a.update nextNum = .error fault) : fault = .moduloByZero :=
  addToWindow_error h

/-- The ring holds the numbers of `window`, the oldest first. -/
structure Holds (a : MovingArithmeticMean) (window : List SubsecondTime) : Prop where
  size_lt : a.maxWindowSize.toNat + 1 < 2 ^ 32
  frontMax : a.currWindowFront.maxValue = a.maxWindowSize.toNat + 1
  backMax : a.currWindowBack.maxValue = a.maxWindowSize.toNat + 1
  front_lt : a.currWindowFront.value < a.maxWindowSize.toNat + 1
  back : a.currWindowBack.value =
    (a.currWindowFront.value + window.length) % (a.maxWindowSize.toNat + 1)
  window_le : window.length ≤ a.maxWindowSize.toNat
  listLength : a.numList.length = a.maxWindowSize.toNat + 1
  entry : ∀ (i : Nat) (hi : i < window.length), a.numList.getD
    ((a.currWindowFront.value + i) % (a.maxWindowSize.toNat + 1)) 0 = window[i]
  sum : a.sum = window.sum

theorem new_holds {maxWindowSize : UInt32} (h : maxWindowSize.toNat + 1 < 2 ^ 32) :
    (new maxWindowSize).Holds [] := by
  have hsize : (maxWindowSize + 1).toNat = maxWindowSize.toNat + 1 := by
    rw [UInt32.toNat_add]
    exact Nat.mod_eq_of_lt h
  refine ⟨h, hsize, hsize, ?_, ?_, ?_, ?_, ?_, rfl⟩ <;> simp [new, hsize]

namespace Holds

variable {a : MovingArithmeticMean} {window : List SubsecondTime}

theorem currWindowSize (h : a.Holds window) : a.currWindowSize = window.length := by
  have hlt := h.front_lt
  have hle := h.window_le
  have hback := h.back
  rw [mod_of_lt_twice (by omega)] at hback
  unfold MovingArithmeticMean.currWindowSize ModuloNum.sub
  simp only [h.backMax]
  split at hback <;> split <;> omega

theorem compute (h : a.Holds window) (hne : window ≠ []) :
    a.compute = .ok (window.sum / UInt64.ofNat window.length) := by
  have hpos := List.length_pos_iff.mpr hne
  rw [MovingArithmeticMean.compute, h.currWindowSize, if_neg hpos.ne', h.sum]

/-- The ring with a number behind the window, in the one entry the window does not use. -/
theorem entry_set (h : a.Holds window) (nextNum : SubsecondTime) (i : Nat)
    (hi : i < (window ++ [nextNum]).length) :
    (a.numList.set a.currWindowBack.value nextNum).getD
      ((a.currWindowFront.value + i) % (a.maxWindowSize.toNat + 1)) 0 =
        (window ++ [nextNum])[i] := by
  have hlen : (window ++ [nextNum]).length = window.length + 1 := by simp
  have hplace : (a.currWindowFront.value + i) % (a.maxWindowSize.toNat + 1) < a.numList.length := by
    rw [h.listLength]
    exact Nat.mod_lt _ (by omega)
  rw [List.getD_eq_getElem?_getD, List.getElem?_set, h.back]
  rcases Nat.lt_or_ge i window.length with hold | hnew
  · have hne := mod_ne h.front_lt hold (Nat.lt_succ_of_le h.window_le)
    rw [if_neg (fun heq => hne heq.symm), List.getElem_append_left hold, ← h.entry i hold,
      List.getD_eq_getElem?_getD]
  · have hi' : i = window.length := by omega
    subst hi'
    rw [if_pos rfl, if_pos hplace, List.getElem_append_right (Nat.le_refl _)]
    simp

/-- The back goes one step on. -/
theorem back_add (h : a.Holds window) (hpos : 0 < a.maxWindowSize.toNat) :
    a.currWindowBack.add 1 = .ok
      ⟨(a.currWindowFront.value + (window.length + 1)) % (a.maxWindowSize.toNat + 1),
        a.maxWindowSize.toNat + 1⟩ := by
  have hlt := h.size_lt
  have hback : a.currWindowBack.value < a.currWindowBack.maxValue := by
    rw [h.backMax, h.back]
    exact Nat.mod_lt _ (by omega)
  rw [ModuloNum.add_one (by rw [h.backMax]; omega) (by rw [h.backMax]; omega) hback, h.backMax,
    h.back, Nat.mod_add_mod, Nat.add_assoc]

/-- The back meets the front when the window was full. -/
theorem back_meets (h : a.Holds window) :
    (⟨(a.currWindowFront.value + (window.length + 1)) % (a.maxWindowSize.toNat + 1),
        a.maxWindowSize.toNat + 1⟩ : ModuloNum) = a.currWindowFront ↔
      window.length = a.maxWindowSize.toNat := by
  have hle := h.window_le
  have hfront := h.front_lt
  rw [ModuloNum.ext_iff, h.frontMax, and_iff_left rfl, mod_of_lt_twice (by omega)]
  dsimp only
  split <;> omega

/-- A number is added, and when the window is full the oldest one goes. -/
theorem update (h : a.Holds window) (hpos : 0 < a.maxWindowSize.toNat) (nextNum : SubsecondTime) :
    ∃ a', a.update nextNum = .ok a' ∧ a'.maxWindowSize = a.maxWindowSize ∧
      a'.Holds ((if window.length = a.maxWindowSize.toNat then window.tail else window) ++
        [nextNum]) := by
  have hlt := h.size_lt
  have hfront := h.front_lt
  rw [MovingArithmeticMean.update, addToWindow, h.currWindowSize]
  simp only [h.back_add hpos, h.back_meets, bind, Except.bind, pure, Except.pure]
  by_cases hfull : window.length = a.maxWindowSize.toNat
  · -- the back meets the front, which leaves the oldest number
    have hne : window ≠ [] := List.length_pos_iff.mp (by omega)
    obtain ⟨oldest, rest, rfl⟩ := List.exists_cons_of_ne_nil hne
    have hmove := ModuloNum.add_one (a := a.currWindowFront) (by rw [h.frontMax]; omega)
      (by rw [h.frontMax]; omega) (by rw [h.frontMax]; exact hfront)
    rw [h.frontMax] at hmove
    simp only [if_pos hfull, hmove, List.tail_cons]
    have hold := h.entry 0 (by simp)
    rw [Nat.add_zero, Nat.mod_eq_of_lt hfront] at hold
    refine ⟨_, rfl, rfl, h.size_lt, rfl, rfl, Nat.mod_lt _ (Nat.succ_pos _), ?_, ?_, ?_, ?_, ?_⟩
    · simp [Nat.add_assoc, Nat.add_comm 1]
    · simpa using hfull.le
    · simpa using h.listLength
    · intro i hi
      have hset := h.entry_set nextNum (i + 1) (by simpa using hi)
      simpa [Nat.add_assoc, Nat.add_comm 1] using hset
    · rw [hold, h.sum]
      simp
  · simp only [if_neg hfull]
    have hle := h.window_le
    refine ⟨_, rfl, rfl, h.size_lt, h.frontMax, rfl, hfront, ?_, ?_, ?_, ?_, ?_⟩
    · simp
    · simp
      omega
    · simpa using h.listLength
    · exact h.entry_set nextNum
    · simp [h.sum]

end Holds

def updateAll (maxWindowSize : UInt32) (nums : List SubsecondTime) :
    Except Fault MovingArithmeticMean :=
  nums.foldlM update (new maxWindowSize)

/-- The sum is that of the last numbers, and `compute` divides it by how many they are. -/
structure Averages (a : MovingArithmeticMean) (maxWindowSize : UInt32)
    (nums : List SubsecondTime) : Prop where
  sum : a.sum = (nums.rtake maxWindowSize.toNat).sum
  currWindowSize : a.currWindowSize = min nums.length maxWindowSize.toNat
  compute : nums ≠ [] → a.compute = .ok (a.sum / UInt64.ofNat (min nums.length maxWindowSize.toNat))

/-- The oldest of too many numbers does not count. -/
theorem rtake_tail {nums : List SubsecondTime} {n : Nat} (h : n < nums.length) :
    nums.tail.rtake n = nums.rtake n := by
  obtain ⟨oldest, rest, rfl⟩ := List.exists_cons_of_length_pos (Nat.zero_lt_of_lt h)
  rw [List.length_cons] at h
  have hlen : (oldest :: rest).length - n = rest.length - n + 1 := by
    rw [List.length_cons]
    omega
  rw [List.tail_cons, List.rtake, List.rtake, hlen, List.drop_succ_cons]

/-- After any number of updates the ring holds the last numbers. -/
theorem Holds.updateAll {a : MovingArithmeticMean} {window : List SubsecondTime}
    (nums : List SubsecondTime) (h : a.Holds window) (hpos : 0 < a.maxWindowSize.toNat) :
    ∃ a', nums.foldlM MovingArithmeticMean.update a = .ok a' ∧
      a'.Holds ((window ++ nums).rtake a.maxWindowSize.toNat) := by
  induction nums generalizing a window with
  | nil =>
    refine ⟨a, rfl, ?_⟩
    have hall : window.length - a.maxWindowSize.toNat = 0 := Nat.sub_eq_zero_of_le h.window_le
    rw [List.append_nil, List.rtake, hall, List.drop_zero]
    exact h
  | cons num rest ih =>
    obtain ⟨a', hupdate, hmax, hholds⟩ := h.update hpos num
    obtain ⟨a'', hrest, hlast⟩ := ih hholds (hmax ▸ hpos)
    refine ⟨a'', by rw [List.foldlM_cons, hupdate]; exact hrest, ?_⟩
    rw [hmax, List.append_assoc, List.singleton_append] at hlast
    split at hlast
    · rename_i hfull
      have hne : window ≠ [] := List.length_pos_iff.mp (by omega)
      rw [← List.tail_append_of_ne_nil hne, rtake_tail (by simp; omega)] at hlast
      exact hlast
    · exact hlast

/-- A ring of 2^32 places has none, and no number can be added. -/
theorem new_update_error {maxWindowSize : UInt32} (h : maxWindowSize.toNat + 1 = 2 ^ 32)
    (num : SubsecondTime) : (new maxWindowSize).update num = .error .moduloByZero := by
  have hsize : (maxWindowSize + 1).toNat = 0 := by
    rw [UInt32.toNat_add]
    change (maxWindowSize.toNat + 1) % 2 ^ 32 = 0
    omega
  rw [update, addToWindow]
  simp only [new, hsize, ModuloNum.add, if_true]
  rfl

/-- The average is exact, however often the ring has been gone round, unless its size wraps. -/
theorem averages_iff {maxWindowSize : UInt32} (hpos : 1 ≤ maxWindowSize.toNat)
    (nums : List SubsecondTime) :
    (∃ a, updateAll maxWindowSize nums = .ok a ∧ a.Averages maxWindowSize nums) ↔
      nums = [] ∨ maxWindowSize.toNat + 1 < 2 ^ 32 := by
  have hbound := maxWindowSize.toNat_lt
  constructor
  · rintro ⟨a, ha, -⟩
    cases nums with
    | nil => exact .inl rfl
    | cons num rest =>
      refine .inr ?_
      by_contra hwraps
      rw [updateAll, List.foldlM_cons, new_update_error (by omega)] at ha
      cases ha
  · rintro (rfl | hsize)
    · exact ⟨new maxWindowSize, rfl, by simp [new, List.rtake], by simp [new,
        MovingArithmeticMean.currWindowSize, ModuloNum.sub], fun hne => absurd rfl hne⟩
    · obtain ⟨a, ha, hholds⟩ := (new_holds hsize).updateAll nums hpos
      rw [List.nil_append, show (new maxWindowSize).maxWindowSize = maxWindowSize from rfl] at hholds
      have hlength : (nums.rtake maxWindowSize.toNat).length =
          min nums.length maxWindowSize.toNat := by
        rw [List.rtake, List.length_drop]
        omega
      refine ⟨a, ha, hholds.sum, hholds.currWindowSize.trans hlength, fun hne => ?_⟩
      have hsome : nums.rtake maxWindowSize.toNat ≠ [] := by
        have hlen := List.length_pos_iff.mpr hne
        exact List.length_pos_iff.mp (by omega)
      rw [hholds.compute hsome, hholds.sum, hlength]

/-- Two places, and three numbers. -/
theorem averages_iff_threeNums :
    (1 ≤ (2 : UInt32).toNat) ∧
      ((∃ a, updateAll 2 [3, 5, 7] = .ok a ∧ a.Averages 2 [3, 5, 7]) ↔
        [(3 : SubsecondTime), 5, 7] = [] ∨ (2 : UInt32).toNat + 1 < 2 ^ 32) :=
  ⟨by decide, averages_iff (by decide) [3, 5, 7]⟩

/-- The largest window cannot be updated at all. -/
theorem largest_window_divides_by_zero :
    ¬∃ a, updateAll 0xffffffff [1] = .ok a ∧ a.Averages 0xffffffff [1] := by
  rintro ⟨a, ha, -⟩
  rw [updateAll, List.foldlM_cons, new_update_error (by decide)] at ha
  cases ha

end MovingArithmeticMean

end Sniper.Timing
