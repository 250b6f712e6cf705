import Mathlib.Algebra.BigOperators.Group.List.Basic
import Mathlib.Algebra.GroupWithZero.Nat
import Mathlib.Data.List.Basic
set_option autoImplicit false

/-! Pieces that follow each other, each with its first position and its length. -/

namespace Sniper.Lib.Tiling

variable {α : Type} {start length : α → Nat}

/-- The first piece starts at `lo`, each starts where the one before it ends, the last ends at `hi`. -/
def Tiles (start length : α → Nat) : Nat → List α → Nat → Prop
  | lo, [], hi => lo = hi
  | lo, p :: ps, hi => start p = lo ∧ 0 < length p ∧ Tiles start length (lo + length p) ps hi

namespace Tiles

theorem nil (lo : Nat) : Tiles start length lo [] lo := rfl

theorem singleton {p : α} {lo hi : Nat} (hstart : start p = lo) (hpos : 0 < length p)
    (hend : lo + length p = hi) : Tiles start length lo [p] hi := ⟨hstart, hpos, hend⟩

theorem sum_length {ps : List α} {lo hi : Nat} (h : Tiles start length lo ps hi) :
    lo + (ps.map length).sum = hi := by
  induction ps generalizing lo with
  | nil => simpa [Tiles] using h
  | cons p ps ih =>
    rw [List.map_cons, List.sum_cons, ← Nat.add_assoc]
    exact ih h.2.2

theorem le {ps : List α} {lo hi : Nat} (h : Tiles start length lo ps hi) : lo ≤ hi := by
  have hsum := h.sum_length
  omega

/-- The positions of the pieces are those between the two ends. -/
theorem covers {ps : List α} {lo hi : Nat} (h : Tiles start length lo ps hi) (x : Nat) :
    (∃ p ∈ ps, start p ≤ x ∧ x < start p + length p) ↔ lo ≤ x ∧ x < hi := by
  induction ps generalizing lo with
  | nil =>
    have hends : lo = hi := h
    simp only [List.not_mem_nil, false_and, exists_false, false_iff]
    omega
  | cons p ps ih =>
    obtain ⟨hstart, hpos, hrest⟩ := h
    have hle := le hrest
    rw [List.exists_mem_cons_iff, ih hrest, hstart]
    omega

theorem length_pos {ps : List α} {lo hi : Nat} (h : Tiles start length lo ps hi) {p : α}
    (hp : p ∈ ps) : 0 < length p := by
  induction ps generalizing lo with
  | nil => exact absurd hp List.not_mem_nil
  | cons q ps ih =>
    rcases List.mem_cons.mp hp with rfl | hp
    · exact h.2.1
    · exact ih h.2.2 hp

theorem append {ps qs : List α} {lo mid hi : Nat} (h : Tiles start length lo ps mid)
    (h' : Tiles start length mid qs hi) : Tiles start length lo (ps ++ qs) hi := by
  induction ps generalizing lo with
  | nil =>
    obtain rfl : lo = mid := h
    exact h'
  | cons p ps ih => exact ⟨h.1, h.2.1, ih h.2.2⟩

/-- A piece is over before any later one begins. -/
theorem pairwise {ps : List α} {lo hi : Nat} (h : Tiles start length lo ps hi) :
    ps.Pairwise fun p q => start p + length p ≤ start q := by
  induction ps generalizing lo with
  | nil => exact .nil
  | cons p ps ih =>
    obtain ⟨hstart, _, hrest⟩ := h
    refine .cons ?_ (ih hrest)
    intro q hq
    have hlen := length_pos hrest hq
    have hq := (covers hrest (start q)).mp ⟨q, hq, Nat.le_refl _, by omega⟩
    omega

/-- A piece starts after the lengths of those before it. -/
theorem start_getElem {ps : List α} {lo hi : Nat} (h : Tiles start length lo ps hi) {k : Nat}
    (hk : k < ps.length) : start ps[k] = lo + ((ps.take k).map length).sum := by
  induction ps generalizing lo k with
  | nil => exact absurd hk (Nat.not_lt_zero _)
  | cons p ps ih =>
    cases k with
    | zero => simpa using h.1
    | succ k =>
      rw [List.getElem_cons_succ, ih h.2.2 (Nat.lt_of_succ_lt_succ hk), List.take_succ_cons,
        List.map_cons, List.sum_cons, Nat.add_assoc]

end Tiles
end Sniper.Lib.Tiling
