import Mathlib.Data.List.Basic
import Mathlib.Data.List.Perm.Basic
set_option autoImplicit false

/-! A shuffle of a list that grows as it is shuffled: each new element takes a drawn place, and what
was there moves to the end. -/

namespace Sniper.Lib.Shuffle

variable {α σ : Type}

/-- The new element at the drawn place, or at the end where the place is no old one. -/
def place (l : List α) (j : Nat) (a : α) : List α := (l ++ [l.getD j a]).set j a

def step (draw : Nat → σ → Nat × σ) (s : σ × List α) (a : α) : σ × List α :=
  let r := draw s.2.length s.1
  (r.2, place s.2 r.1 a)

/-- The list after a shuffle, from the elements that are there already. -/
def shuffle (draw : Nat → σ → Nat × σ) (state : σ) (l as : List α) : List α :=
  (as.foldl (step draw) (state, l)).2

theorem place_perm (l : List α) (j : Nat) (a : α) : (place l j a).Perm (l ++ [a]) := by
  rw [place]
  rcases Nat.lt_or_ge j l.length with hj | hj
  · have hget : l.getD j a = l[j] := by simp [hj]
    rw [hget, List.set_append_left _ _ hj]
    have hset : (l.set j a).Perm (a :: l.eraseIdx j) := List.set_perm_cons_eraseIdx hj a
    have hold : (l[j] :: l.eraseIdx j).Perm l := List.getElem_cons_eraseIdx_perm hj
    calc (l.set j a ++ [l[j]]).Perm (a :: l.eraseIdx j ++ [l[j]]) := hset.append_right _
      _ |>.Perm (a :: (l[j] :: l.eraseIdx j)) := ((List.perm_append_singleton _ _).cons a)
      _ |>.Perm (a :: l) := hold.cons a
      _ |>.Perm (l ++ [a]) := (List.perm_append_singleton a l).symm
  · have hget : l.getD j a = a := by simp [hj]
    rw [hget]
    rcases Nat.eq_or_lt_of_le hj with heq | hlt
    · subst heq
      simp
    · rw [List.set_eq_of_length_le (by simp; omega)]

theorem shuffle_perm (draw : Nat → σ → Nat × σ) (state : σ) (l as : List α) :
    (shuffle draw state l as).Perm (l ++ as) := by
  rw [shuffle]
  induction as generalizing state l with
  | nil => simp
  | cons a as ih =>
    refine (ih _ (place l _ a)).trans ?_
    refine ((place_perm l _ a).append_right as).trans ?_
    rw [List.append_assoc]
    rfl

end Sniper.Lib.Shuffle
