import Mathlib.Data.List.Basic
import Mathlib.Logic.Function.Basic
import Mathlib.Order.Lattice.Nat
set_option autoImplicit false

/-! Least recently used replacement seen as a stack of everything accessed so far, the most recent
access on top: a set of `n` ways holds the top `n` of the part of the stack that maps to it. -/

namespace Sniper.Lib

variable {α β : Type} [DecidableEq α]

/-- An item taken out of its place, if it has one, and put on top. -/
def moveToFront (l : List α) (x : α) : List α := x :: l.erase x

namespace LruStack

variable {l : List α} {x y : α} {n m : Nat}

/-! ### One access -/

theorem length_le_moveToFront (l : List α) (x : α) : l.length ≤ (moveToFront l x).length := by
  rw [moveToFront, List.length_cons, List.length_erase]
  split <;> omega

/-- An access to an item outside a part of the stack leaves that part alone. -/
theorem filter_moveToFront_of_neg {p : α → Bool} (h : p x = false) :
    (moveToFront l x).filter p = l.filter p := by
  have hout : x ∉ l.filter p := by simp [h]
  rw [moveToFront, List.filter_cons_of_neg (by simp [h]), ← List.erase_filter,
    List.erase_of_not_mem hout]

theorem filter_moveToFront_of_pos {p : α → Bool} (h : p x = true) :
    (moveToFront l x).filter p = moveToFront (l.filter p) x := by
  rw [moveToFront, List.filter_cons_of_pos h, ← List.erase_filter, moveToFront]

/-- Cutting the stack to `n` items before an access changes nothing among the top `n` after it. -/
theorem take_moveToFront_take (l : List α) (x : α) (n : Nat) :
    (moveToFront (l.take n) x).take n = (moveToFront l x).take n := by
  have herase : ∀ (l : List α) (n : Nat), ((l.take (n + 1)).erase x).take n = (l.erase x).take n := by
    intro l
    induction l with
    | nil => simp
    | cons y l ih =>
      intro n
      by_cases hy : y = x
      · simp [hy]
      · have hbeq : ¬(y == x) = true := by simpa using hy
        cases n with
        | zero => simp
        | succ n =>
          rw [List.take_succ_cons, List.erase_cons_tail hbeq, List.erase_cons_tail hbeq,
            List.take_succ_cons, List.take_succ_cons, ih n]
  cases n with
  | zero => simp
  | succ n => simp [moveToFront, herase l n]

theorem map_moveToFront [DecidableEq β] {t : α → β}
    (hinj : ∀ y ∈ l, t y = t x → y = x) :
    (moveToFront l x).map t = moveToFront (l.map t) (t x) := by
  have herase : (l.erase x).map t = (l.map t).erase (t x) := by
    induction l with
    | nil => rfl
    | cons y l ih =>
      have hrest := ih fun z hz => hinj z (List.mem_cons_of_mem y hz)
      by_cases hy : y = x
      · rw [hy, List.erase_cons_head, List.map_cons, List.erase_cons_head]
      · have hty : t y ≠ t x := fun h => hy (hinj y List.mem_cons_self h)
        rw [List.erase_cons_tail (by simpa using hy), List.map_cons, List.map_cons, hrest,
          List.erase_cons_tail (by simpa using hty)]
  rw [moveToFront, moveToFront, List.map_cons, herase]

theorem moveToFront_append {back : List α} (hx : x ∉ back) :
    moveToFront (l ++ back) x = moveToFront l x ++ back := by
  rw [moveToFront, moveToFront, List.cons_append, List.erase_append]
  split
  · rfl
  · next hl => rw [List.erase_of_not_mem hl, List.erase_of_not_mem hx]

/-! ### Depths -/

theorem mem_take_iff_idxOf : x ∈ l.take n ↔ x ∈ l ∧ l.idxOf x < n := by
  induction l generalizing n with
  | nil => simp
  | cons y l ih =>
    by_cases hy : y = x
    · subst hy
      cases n with
      | zero => simp
      | succ n => simp
    · have hne : x ≠ y := fun h => hy h.symm
      cases n with
      | zero => simp
      | succ n => simp [List.idxOf_cons_ne l hy, hne, ih]

/-- An item is no deeper in a part of a list than in the whole. -/
theorem idxOf_filter_le {p : α → Bool} (h : p x = true) : (l.filter p).idxOf x ≤ l.idxOf x := by
  induction l with
  | nil => simp
  | cons y l ih =>
    by_cases hy : y = x
    · subst hy
      rw [List.filter_cons_of_pos h, List.idxOf_cons_self, List.idxOf_cons_self]
    · rw [List.idxOf_cons_ne l hy]
      by_cases hp : p y = true
      · rw [List.filter_cons_of_pos hp, List.idxOf_cons_ne _ hy]
        exact Nat.succ_le_succ ih
      · rw [List.filter_cons_of_neg hp]
        exact Nat.le_succ_of_le ih

end LruStack

/-! ### A cache of several sets -/

/-- What each set holds, the most recent first. -/
abbrev SetContents (α β : Type) : Type := β → List α

namespace SetContents

variable [DecidableEq β] {f : α → β} {ways : Nat} {c : SetContents α β} {x : α}

def empty : SetContents α β := fun _ => []

/-- An access brings its item to the front of its set, which keeps no more than its ways. -/
def access (f : α → β) (ways : Nat) (c : SetContents α β) (x : α) : SetContents α β :=
  Function.update c (f x) ((moveToFront (c (f x)) x).take ways)

/-- How many accesses of a trace find their item in its set. -/
def hits (f : α → β) (ways : Nat) : SetContents α β → List α → Nat
  | _, [] => 0
  | c, x :: xs => (if x ∈ c (f x) then 1 else 0) + hits f ways (c.access f ways x) xs

/-- The contents are the tops of the parts of one stack. -/
def Tops (f : α → β) (ways : Nat) (c : SetContents α β) (stack : List α) : Prop :=
  ∀ b, c b = (stack.filter (fun y => decide (f y = b))).take ways

omit [DecidableEq α] in
theorem tops_empty (f : α → β) (ways : Nat) : (empty : SetContents α β).Tops f ways [] := by
  intro b
  simp [empty]

theorem Tops.access {stack : List α} (h : c.Tops f ways stack) (x : α) :
    (c.access f ways x).Tops f ways (moveToFront stack x) := by
  intro b
  by_cases hb : b = f x
  · subst hb
    rw [SetContents.access, Function.update_self, h (f x), LruStack.take_moveToFront_take,
      LruStack.filter_moveToFront_of_pos (by simp)]
  · have hne : decide (f x = b) = false := decide_eq_false fun heq => hb heq.symm
    rw [SetContents.access, Function.update_of_ne hb, h b,
      LruStack.filter_moveToFront_of_neg (p := fun y => decide (f y = b)) hne]

theorem Tops.mem_iff {stack : List α} (h : c.Tops f ways stack) (x : α) :
    x ∈ c (f x) ↔
      x ∈ stack ∧ (stack.filter (fun y => decide (f y = f x))).idxOf x < ways := by
  rw [h (f x), LruStack.mem_take_iff_idxOf, List.mem_filter]
  simp

/-! ### Ways that start with something else -/

/-- The contents of sets that began with items nobody accesses. -/
def Padded (ways : Nat) (c c' : SetContents α β) (pad : List α) : Prop :=
  ∀ b, c b = (c' b ++ pad).take ways ∧ (c' b).length ≤ ways

theorem Padded.access {c' : SetContents α β} {pad : List α} (h : c.Padded ways c' pad)
    (hx : x ∉ pad) : (c.access f ways x).Padded ways (c'.access f ways x) pad := by
  intro b
  by_cases hb : b = f x
  · subst hb
    rw [SetContents.access, SetContents.access, Function.update_self, Function.update_self,
      (h (f x)).1, LruStack.take_moveToFront_take, LruStack.moveToFront_append hx]
    refine ⟨?_, List.length_take_le _ _⟩
    rw [List.take_append, List.take_append, List.take_take, Nat.min_self, List.length_take]
    congr 2
    omega
  · rw [SetContents.access, SetContents.access, Function.update_of_ne hb, Function.update_of_ne hb]
    exact h b

omit [DecidableEq α] [DecidableEq β] in
theorem Padded.mem_iff {c' : SetContents α β} {pad : List α} (h : c.Padded ways c' pad)
    (hx : x ∉ pad) (b : β) : x ∈ c b ↔ x ∈ c' b := by
  obtain ⟨hc, hlen⟩ := h b
  rw [hc, List.take_append, List.mem_append, List.take_of_length_le hlen]
  exact or_iff_left fun hin => hx (List.mem_of_mem_take hin)

/-! ### Larger caches -/

end SetContents

end Sniper.Lib
