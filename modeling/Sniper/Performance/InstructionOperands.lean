import Sniper.Performance.Renumbering
set_option autoImplicit false

/-! The loop over the operands of an instruction, and what is left of its micro-operations. -/

namespace Sniper.Performance

namespace CurrentUop

/-- What the handling of an instruction leaves as the decoder made it. -/
def shape (uop : CurrentUop) : MicroOp × Nat × Nat × Nat :=
  (uop.microOp, uop.intraInstructionDependencies, uop.microOpTypeOffset, uop.staticTypeOffset)

@[simp] theorem setSquashed_shape (uop : CurrentUop) : uop.setSquashed.shape = uop.shape := rfl

@[simp] theorem setSquashed_squashed (uop : CurrentUop) : uop.setSquashed.squashed = true := rfl

/-- At the places of a kind, all are squashed. -/
def SquashedAt (places : Nat → Prop) (uops : List CurrentUop) : Prop :=
  ∀ (j : Nat) (v : CurrentUop), places j → uops[j]? = some v → v.squashed = true

theorem SquashedAt.of_flags {places : Nat → Prop} {uops uops' : List CurrentUop}
    (h : SquashedAt places uops)
    (hflags : ∀ (j : Nat) (v : CurrentUop), uops'[j]? = some v →
      ∃ w, uops[j]? = some w ∧ (w.squashed = true → v.squashed = true)) :
    SquashedAt places uops' := by
  intro j v hj hv
  obtain ⟨w, hw, hle⟩ := hflags j v hv
  exact hle (h j w hj hw)

/-- Of those that are not squashed, the first and the last are marked, and no other. -/
structure Marked (uops : List CurrentUop) : Prop where
  first : ∀ (i : Nat) (uop : CurrentUop), uops[i]? = some uop → uop.squashed = false →
    (uop.first = true ↔ SquashedAt (· < i) uops)
  last : ∀ (i : Nat) (uop : CurrentUop), uops[i]? = some uop → uop.squashed = false →
    (uop.last = true ↔ SquashedAt (i < ·) uops)

theorem all_take_iff (l : List CurrentUop) (i : Nat) :
    ((l.take i).all fun v => v.squashed) = true ↔ SquashedAt (· < i) l := by
  rw [List.all_eq_true]
  constructor
  · intro h j v hj hv
    exact h v (List.mem_of_getElem? (by rwa [List.getElem?_take_of_lt hj]))
  · intro h v hv
    obtain ⟨j, hj, rfl⟩ := List.mem_take_iff_getElem.mp hv
    exact h j _ (lt_of_lt_of_le hj (Nat.min_le_left _ _)) (List.getElem?_eq_getElem _)

theorem all_drop_iff (l : List CurrentUop) (i : Nat) :
    ((l.drop (i + 1)).all fun v => v.squashed) = true ↔ SquashedAt (i < ·) l := by
  rw [List.all_eq_true]
  constructor
  · intro h j v hj hv
    refine h v (List.mem_of_getElem? (?_ : (l.drop (i + 1))[j - (i + 1)]? = some v))
    rw [List.getElem?_drop, Nat.add_sub_cancel' hj]
    exact hv
  · intro h v hv
    obtain ⟨j, hj, rfl⟩ := List.mem_iff_getElem.mp hv
    rw [List.getElem_drop]
    exact h (i + 1 + j) _ (by omega) (List.getElem?_eq_getElem _)

theorem markUnsquashed_length (mark : CurrentUop → CurrentUop) (l : List CurrentUop) :
    (markUnsquashed mark l).length = l.length := by
  induction l with
  | nil => rfl
  | cons uop uops ih =>
    rw [markUnsquashed]
    split <;> simp [ih]

theorem markUnsquashed_getElem? (mark : CurrentUop → CurrentUop) (l : List CurrentUop) :
    ∀ i, (markUnsquashed mark l)[i]? = l[i]?.map fun uop =>
      if !uop.squashed && (l.take i).all (fun v => v.squashed) then mark uop else uop := by
  induction l with
  | nil => exact fun i => rfl
  | cons head tail ih =>
    intro i
    rw [markUnsquashed]
    cases hs : head.squashed <;> cases i with
    | zero => simp [hs]
    | succ i => simp [hs, ih]

theorem markUnsquashed_reverse (mark : CurrentUop → CurrentUop) (l : List CurrentUop) (i : Nat) :
    (markUnsquashed mark l.reverse).reverse[i]? = l[i]?.map fun uop =>
      if !uop.squashed && (l.drop (i + 1)).all (fun v => v.squashed) then mark uop else uop := by
  rcases Nat.lt_or_ge i l.length with hlt | hge
  · have hlen : (markUnsquashed mark l.reverse).length = l.length := by
      rw [markUnsquashed_length, List.length_reverse]
    rw [List.getElem?_reverse (by rw [hlen]; exact hlt), hlen, markUnsquashed_getElem?,
      List.getElem?_reverse (by omega), List.take_reverse, List.all_reverse]
    have hindex : l.length - 1 - (l.length - 1 - i) = i := by omega
    have hdrop : l.length - (l.length - 1 - i) = i + 1 := by omega
    rw [hindex, hdrop]
  · rw [List.getElem?_eq_none, List.getElem?_eq_none hge]
    · rfl
    · rw [List.length_reverse, markUnsquashed_length, List.length_reverse]
      exact hge

def withEnds (atFirst atLast : Bool) (uop : CurrentUop) : CurrentUop :=
  let uop := if atFirst then uop.setFirst else uop
  if atLast then uop.setLast else uop

theorem withEnds_first (atFirst atLast : Bool) (uop : CurrentUop) :
    (uop.withEnds atFirst atLast).first = (uop.first || atFirst) := by
  cases atFirst <;> cases atLast <;> simp [withEnds, setFirst, setLast]

theorem withEnds_last (atFirst atLast : Bool) (uop : CurrentUop) :
    (uop.withEnds atFirst atLast).last = (uop.last || atLast) := by
  cases atFirst <;> cases atLast <;> simp [withEnds, setFirst, setLast]

@[simp] theorem withEnds_squashed (atFirst atLast : Bool) (uop : CurrentUop) :
    (uop.withEnds atFirst atLast).squashed = uop.squashed := by
  cases atFirst <;> cases atLast <;> rfl

@[simp] theorem withEnds_shape (atFirst atLast : Bool) (uop : CurrentUop) :
    (uop.withEnds atFirst atLast).shape = uop.shape := by
  cases atFirst <;> cases atLast <;> rfl

/-- What `squash` makes of each micro-operation: the marks depend on those that are left. -/
theorem squash_getElem? (uops : List CurrentUop) (k i : Nat) :
    ∃ atFirst atLast : Bool,
      (atFirst = true ↔ SquashedAt (· < i) (uops.modify k setSquashed)) ∧
      (atLast = true ↔ SquashedAt (i < ·) (uops.modify k setSquashed)) ∧
      (squash uops k)[i]? = (uops.modify k setSquashed)[i]?.map fun uop =>
        if uop.squashed then uop else uop.withEnds atFirst atLast := by
  generalize hm : uops.modify k setSquashed = m
  refine ⟨_, _, all_take_iff m i, all_drop_iff m i, ?_⟩
  have hkeeps : ∀ (j : Nat) (v : CurrentUop), (markUnsquashed setFirst m)[j]? = some v →
      ∃ w, m[j]? = some w ∧ v.squashed = w.squashed := by
    intro j v hv
    rw [markUnsquashed_getElem?, Option.map_eq_some_iff] at hv
    obtain ⟨w, hw, rfl⟩ := hv
    refine ⟨w, hw, ?_⟩
    split <;> rfl
  have hback : ∀ (j : Nat) (w : CurrentUop), m[j]? = some w →
      ∃ v, (markUnsquashed setFirst m)[j]? = some v ∧ v.squashed = w.squashed := by
    intro j w hw
    refine ⟨_, by rw [markUnsquashed_getElem?, hw, Option.map_some], ?_⟩
    split <;> rfl
  have hdrop : ((markUnsquashed setFirst m).drop (i + 1)).all (fun v => v.squashed) =
      (m.drop (i + 1)).all fun v => v.squashed := by
    rw [Bool.eq_iff_iff, all_drop_iff, all_drop_iff]
    constructor
    · intro h
      refine h.of_flags fun j w hw => ?_
      obtain ⟨v, hv, heq⟩ := hback j w hw
      exact ⟨v, hv, heq ▸ id⟩
    · intro h
      refine h.of_flags fun j v hv => ?_
      obtain ⟨w, hw, heq⟩ := hkeeps j v hv
      exact ⟨w, hw, heq ▸ id⟩
  rw [squash, hm, markUnsquashed_reverse, markUnsquashed_getElem?, Option.map_map, hdrop]
  congr 1
  funext uop
  have hfirst : (uop.setFirst).squashed = uop.squashed := rfl
  cases hs : uop.squashed <;> cases hf : (m.take i).all fun v => v.squashed <;>
    simp [Function.comp, withEnds, hs, hfirst]

/-- The shapes stay, one more is squashed, and the ends of what is left are marked. -/
theorem squash_shape (uops : List CurrentUop) (k : Nat) :
    (squash uops k).map shape = uops.map shape := by
  refine List.ext_getElem? fun i => ?_
  obtain ⟨atFirst, atLast, _, _, hget⟩ := squash_getElem? uops k i
  rw [List.getElem?_map, List.getElem?_map, hget, List.getElem?_modify, Option.map_map,
    Option.map_eq_map, Option.map_map]
  congr 1
  funext uop
  simp only [Function.comp]
  split <;> split <;> simp

theorem squash_squashed (uops : List CurrentUop) (k i : Nat) :
    (squash uops k)[i]?.map (fun uop => uop.squashed) =
      uops[i]?.map fun uop => uop.squashed || decide (k = i) := by
  obtain ⟨atFirst, atLast, _, _, hget⟩ := squash_getElem? uops k i
  rw [hget, List.getElem?_modify, Option.map_map, Option.map_eq_map, Option.map_map]
  congr 1
  funext uop
  by_cases hk : k = i
  · simp [hk]
  · simp only [Function.comp, hk, if_false, decide_false, Bool.or_false]
    split <;> simp

/-- One that is squashed was squashed before, or is the one that is squashed now. -/
theorem squash_getElem?_inv {uops : List CurrentUop} {k i : Nat} {uop : CurrentUop}
    (h : (squash uops k)[i]? = some uop) :
    ∃ orig, uops[i]? = some orig ∧ uop.squashed = (orig.squashed || decide (k = i)) := by
  have hflags := squash_squashed uops k i
  rw [h, Option.map_some, eq_comm, Option.map_eq_some_iff] at hflags
  obtain ⟨orig, horig, heq⟩ := hflags
  exact ⟨orig, horig, heq.symm⟩

theorem squash_marked {uops : List CurrentUop} (h : Marked uops) (k : Nat) :
    Marked (squash uops k) := by
  have hmodify : ∀ (j : Nat) (v : CurrentUop), (uops.modify k setSquashed)[j]? = some v →
      ∃ w, uops[j]? = some w ∧ (w.squashed = true → v.squashed = true) := by
    intro j v hv
    rw [List.getElem?_modify, Option.map_eq_map, Option.map_eq_some_iff] at hv
    obtain ⟨w, hw, rfl⟩ := hv
    refine ⟨w, hw, fun hs => ?_⟩
    split
    · rfl
    · exact hs
  have hback : ∀ (j : Nat) (v : CurrentUop), (uops.modify k setSquashed)[j]? = some v →
      ∃ w, (squash uops k)[j]? = some w ∧ (w.squashed = true → v.squashed = true) := by
    intro j v hv
    obtain ⟨_, _, _, _, hget⟩ := squash_getElem? uops k j
    refine ⟨_, by rw [hget, hv, Option.map_some], ?_⟩
    split <;> simp
  have hforth : ∀ (j : Nat) (v : CurrentUop), (squash uops k)[j]? = some v →
      ∃ w, (uops.modify k setSquashed)[j]? = some w ∧
        (w.squashed = true → v.squashed = true) := by
    intro j v hv
    obtain ⟨_, _, _, _, hget⟩ := squash_getElem? uops k j
    rw [hget, Option.map_eq_some_iff] at hv
    obtain ⟨w, hw, rfl⟩ := hv
    refine ⟨w, hw, ?_⟩
    split <;> simp
  -- one that is left is as it was, and marked where it is an end now
  have hleft : ∀ (i : Nat) (uop : CurrentUop), (squash uops k)[i]? = some uop →
      uop.squashed = false → ∃ orig atFirst atLast, uops[i]? = some orig ∧
        orig.squashed = false ∧ uop = orig.withEnds atFirst atLast ∧
        (atFirst = true ↔ SquashedAt (· < i) (uops.modify k setSquashed)) ∧
        (atLast = true ↔ SquashedAt (i < ·) (uops.modify k setSquashed)) := by
    intro i uop hi hs
    obtain ⟨atFirst, atLast, hfirst, hlast, hget⟩ := squash_getElem? uops k i
    rw [hget, Option.map_eq_some_iff] at hi
    obtain ⟨v, hv, rfl⟩ := hi
    have hvs : v.squashed = false := by
      split at hs
      · exact hs
      · simpa using hs
    rw [List.getElem?_modify, Option.map_eq_map, Option.map_eq_some_iff] at hv
    obtain ⟨orig, horig, rfl⟩ := hv
    by_cases hk : k = i
    · simp [hk] at hvs
    · simp only [hk, if_false] at hvs ⊢
      exact ⟨orig, atFirst, atLast, horig, hvs, by simp [hvs], hfirst, hlast⟩
  constructor
  · intro i uop hi hs
    obtain ⟨orig, atFirst, atLast, horig, hos, rfl, hfirst, _⟩ := hleft i uop hi hs
    rw [withEnds_first, Bool.or_eq_true, h.first i orig horig hos, hfirst]
    constructor
    · rintro (hall | hall)
      · exact (hall.of_flags hmodify).of_flags hforth
      · exact hall.of_flags hforth
    · exact fun hall => .inr (hall.of_flags hback)
  · intro i uop hi hs
    obtain ⟨orig, atFirst, atLast, horig, hos, rfl, _, hlast⟩ := hleft i uop hi hs
    rw [withEnds_last, Bool.or_eq_true, h.last i orig horig hos, hlast]
    constructor
    · rintro (hall | hall)
      · exact (hall.of_flags hmodify).of_flags hforth
      · exact hall.of_flags hforth
    · exact fun hall => .inr (hall.of_flags hback)

end CurrentUop

end Sniper.Performance
