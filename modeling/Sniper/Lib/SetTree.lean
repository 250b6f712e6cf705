import Sniper.Lib.LruStack
set_option autoImplicit false

/-! A stack of accesses seen through finer and finer classes. Of the top `n` of a class, the node of
the class keeps what the top `n` of the coarser class around it does not have; so the nodes on the way
down to an item have all that is above the item in any of its classes. -/

namespace Sniper.Lib

/-- A sequence of classifications, each splitting the classes of the one before; the first has one
class. -/
structure Classes (α κ : Type) where
  cls : Nat → α → κ
  whole : ∀ x y, cls 0 x = cls 0 y
  finer : ∀ {d x y}, cls (d + 1) x = cls (d + 1) y → cls d x = cls d y

/-! ### Lists -/

namespace SetTree

variable {α : Type}

theorem filter_take (l : List α) (q : α → Bool) (n : Nat) :
    (l.take n).filter q = (l.filter q).take ((l.take n).countP q) := by
  conv_rhs => rw [← List.take_append_drop n l, List.filter_append, List.take_append_drop]
  rw [List.countP_eq_length_filter, List.take_left]

variable [DecidableEq α] {l : List α} {x : α} {n m : Nat}

theorem erase_drop_pred (h : x ∈ l.take m) : (l.erase x).drop (m - 1) = l.drop m := by
  have hsplit : l.erase x = (l.take m).erase x ++ l.drop m := by
    conv_lhs => rw [← List.take_append_drop m l]
    exact List.erase_append_left _ h
  have hlen : ((l.take m).erase x).length ≤ m - 1 := by
    rw [List.length_erase_of_mem h, List.length_take]
    omega
  have hshort : m - 1 ≤ ((l.take m).erase x).length ∨ l.drop m = [] := by
    by_cases hm : m ≤ l.length
    · left
      rw [List.length_erase_of_mem h, List.length_take]
      omega
    · right
      exact List.drop_eq_nil_of_le (Nat.le_of_not_le hm)
  rw [hsplit]
  rcases hshort with hge | hnil
  · exact List.drop_left' (Nat.le_antisymm hlen hge)
  · rw [hnil, List.append_nil]
    exact List.drop_eq_nil_of_le hlen

/-- The top of a stack after an access to one of its items. -/
theorem take_moveToFront_of_mem (h : x ∈ l.take n) :
    (moveToFront l x).take n = x :: (l.take n).erase x := by
  have hpos : 0 < n := by
    cases n with
    | zero => simp at h
    | succ n => exact Nat.succ_pos n
  have hlen : ((l.take n).erase x).length ≤ n - 1 := by
    rw [List.length_erase_of_mem h, List.length_take]
    omega
  rw [← LruStack.take_moveToFront_take, moveToFront]
  exact List.take_of_length_le (by rw [List.length_cons]; omega)

/-- The top of a stack after an access to something else: the last item falls out. -/
theorem take_moveToFront_of_not_mem (h : x ∉ l.take n) (hpos : 0 < n) (hfull : n ≤ l.length) :
    (moveToFront l x).take n = x :: (l.take n).dropLast := by
  obtain ⟨n, rfl⟩ := Nat.exists_eq_succ_of_ne_zero (Nat.ne_of_gt hpos)
  have hlen : (l.take n.succ).length = n + 1 := by
    rw [List.length_take]
    exact Nat.min_eq_left hfull
  rw [← LruStack.take_moveToFront_take, moveToFront, List.erase_of_not_mem h, List.take_succ_cons,
    List.dropLast_eq_take, hlen, Nat.add_sub_cancel]

end SetTree

/-! ### Nodes -/

namespace Classes

variable {α κ : Type} [DecidableEq κ] (C : Classes α κ) (n : Nat)

def same (d : Nat) (x y : α) : Bool := decide (C.cls d y = C.cls d x)

/-- The part of a stack in the class of an item. -/
def part (R : List α) (d : Nat) (x : α) : List α := R.filter (C.same d x)

def top (R : List α) (d : Nat) (x : α) : List α := (C.part R d x).take n

/-- How many of the top of a class the coarser class has in its top. -/
def above (R : List α) : Nat → α → Nat
  | 0, _ => 0
  | d + 1, x => (C.top n R d x).countP (C.same (d + 1) x)

def node (R : List α) (d : Nat) (x : α) : List α := (C.top n R d x).drop (C.above n R d x)

/-- The nodes on the way down to an item, above a level. -/
def before (R : List α) : Nat → α → List α
  | 0, _ => []
  | d + 1, x => before R d x ++ C.node n R d x

/-- What an access to an item makes fall out of the levels above one. -/
def fallen (R : List α) (x : α) : Nat → α
  | 0 => x
  | d + 1 => (C.top n R d x).getLastD x

variable {C} {n} {R : List α} {d e : Nat} {x y z : α}

@[simp] theorem same_iff : C.same d x y = true ↔ C.cls d y = C.cls d x := by
  simp [same]

theorem same_congr (h : C.cls d x = C.cls d y) : C.same d x = C.same d y := by
  funext z
  simp [same, h]

omit [DecidableEq κ] in
theorem cls_mono (h : C.cls e x = C.cls e y) (hd : d ≤ e) : C.cls d x = C.cls d y := by
  induction hd with
  | refl => exact h
  | step hle ih => exact ih (C.finer h)

theorem filter_same_same (l : List α) (hd : d ≤ e) :
    (l.filter (C.same d x)).filter (C.same e x) = l.filter (C.same e x) := by
  rw [List.filter_filter]
  refine List.filter_congr fun y _ => ?_
  by_cases hy : C.same e x y = true
  · rw [hy, Bool.true_and]
    exact same_iff.mpr (cls_mono (same_iff.mp hy) hd)
  · rw [Bool.eq_false_of_not_eq_true hy, Bool.false_and]

theorem mem_top_same (h : y ∈ C.top n R d x) : C.cls d y = C.cls d x :=
  same_iff.mp (List.mem_filter.mp (List.mem_of_mem_take h)).2

theorem mem_node_same (h : y ∈ C.node n R d x) : C.cls d y = C.cls d x :=
  mem_top_same (List.mem_of_mem_drop h)

theorem top_congr (h : C.cls d x = C.cls d y) : C.top n R d x = C.top n R d y := by
  rw [top, top, part, part, same_congr h]

theorem above_congr (h : C.cls d x = C.cls d y) : C.above n R d x = C.above n R d y := by
  cases d with
  | zero => rfl
  | succ d => rw [above, above, top_congr (C.finer h), same_congr h]

theorem node_congr (h : C.cls d x = C.cls d y) : C.node n R d x = C.node n R d y := by
  rw [node, node, top_congr h, above_congr h]

theorem above_le : C.above n R d x ≤ n := by
  cases d with
  | zero => exact Nat.zero_le n
  | succ d => exact List.countP_le_length.trans (List.length_take_le n _)

theorem length_node_le : (C.node n R d x).length ≤ n :=
  (List.drop_sublist _ _).length_le.trans (List.length_take_le n _)

/-- The top of a class begins with what the coarser class has of it. -/
theorem top_take_above :
    (C.top n R (d + 1) x).take (C.above n R (d + 1) x) =
      (C.top n R d x).filter (C.same (d + 1) x) := by
  have hfine : C.part R (d + 1) x = (C.part R d x).filter (C.same (d + 1) x) :=
    (filter_same_same R (Nat.le_succ d)).symm
  rw [top, List.take_take, Nat.min_eq_left above_le, hfine, above, top, SetTree.filter_take]

/-- The nodes down to a level have exactly the top of the item's class there, in order. -/
theorem filter_before : (C.before n R (d + 1) x).filter (C.same d x) = C.top n R d x := by
  induction d with
  | zero =>
    rw [before, before, List.nil_append, node, above, List.drop_zero]
    exact List.filter_eq_self.mpr fun y _ => same_iff.mpr (C.whole y x)
  | succ d ih =>
    have hnode : (C.node n R (d + 1) x).filter (C.same (d + 1) x) = C.node n R (d + 1) x :=
      List.filter_eq_self.mpr fun y hy => same_iff.mpr (mem_node_same hy)
    rw [before, List.filter_append, hnode, ← filter_same_same _ (Nat.le_succ d), ih,
      ← top_take_above, node, List.take_append_drop]

/-- The top of a class is what the coarser class has of it, followed by its node. -/
theorem top_eq_append :
    C.top n R (d + 1) x = (C.top n R d x).filter (C.same (d + 1) x) ++ C.node n R (d + 1) x := by
  rw [← top_take_above, node, List.take_append_drop]

theorem length_filter_top :
    ((C.top n R d x).filter (C.same (d + 1) x)).length = C.above n R (d + 1) x := by
  rw [above, List.countP_eq_length_filter]

/-- What the top of a class has, the top of each finer class around it has too. -/
theorem mem_top_succ (h : x ∈ C.top n R d x) : x ∈ C.top n R (d + 1) x := by
  rw [top_eq_append]
  exact List.mem_append_left _ (List.mem_filter.mpr ⟨h, same_iff.mpr rfl⟩)

theorem mem_top_mono (h : x ∈ C.top n R d x) (hd : d ≤ e) : x ∈ C.top n R e x := by
  induction hd with
  | refl => exact h
  | step _ ih => exact mem_top_succ ih

/-- A stack deep enough for every class around an item. -/
def Full (C : Classes α κ) (n : Nat) (R : List α) (x : α) (deepest : Nat) : Prop :=
  ∀ d ≤ deepest, n ≤ (C.part R d x).length

theorem Full.length_top {deepest : Nat} (h : Full C n R x deepest) (hd : d ≤ deepest) :
    (C.top n R d x).length = n := by
  rw [top, List.length_take]
  exact Nat.min_eq_left (h d hd)

theorem Full.top_ne_nil {deepest : Nat} (h : Full C n R x deepest) (hd : d ≤ deepest)
    (hpos : 0 < n) : C.top n R d x ≠ [] := by
  rw [← List.length_pos_iff, h.length_top hd]
  exact hpos

theorem fallen_eq_getLast (hne : C.top n R d x ≠ []) :
    C.fallen n R x (d + 1) = (C.top n R d x).getLast hne := by
  rw [fallen, List.getLastD_eq_getLast?, List.getLast?_eq_some_getLast hne, Option.getD_some]

/-! ### What is above an item on the way down -/

theorem not_mem_before (h : x ∉ C.top n R d x) : x ∉ C.before n R (d + 1) x := by
  intro hx
  refine h ?_
  rw [← filter_before]
  exact List.mem_filter.mpr ⟨hx, same_iff.mpr rfl⟩

theorem before_extends (hd : d ≤ e) : C.before n R d x <+: C.before n R e x := by
  induction hd with
  | refl => exact List.prefix_refl _
  | step _ ih => exact ih.trans (List.prefix_append _ _)

variable [DecidableEq α]

/-- The items passed before an item is found in its node. -/
def passed (C : Classes α κ) (n : Nat) (R : List α) (d : Nat) (x : α) : List α :=
  C.before n R d x ++ (C.node n R d x).take ((C.node n R d x).idxOf x)

theorem countP_take_idxOf {p : α → Bool} (l : List α) (hx : p x = true) :
    (l.take (l.idxOf x)).countP p = (l.filter p).idxOf x := by
  induction l with
  | nil => simp
  | cons y l ih =>
    by_cases hy : y = x
    · subst hy
      simp [List.filter_cons_of_pos hx]
    · rw [List.idxOf_cons_ne l hy, List.take_succ_cons, List.countP_cons, ih]
      by_cases hp : p y = true
      · simp [hp, List.filter_cons_of_pos hp, List.idxOf_cons_ne _ hy]
      · simp [hp, List.filter_cons_of_neg hp]

/-- In every class that is no coarser, the items passed are those more recent. -/
theorem countP_passed (hout : x ∉ C.before n R d x) (hx : x ∈ C.node n R d x) (hd : d ≤ e) :
    (C.passed n R d x).countP (C.same e x) = (C.part R e x).idxOf x := by
  have hpassed : C.passed n R d x =
      (C.before n R (d + 1) x).take ((C.before n R (d + 1) x).idxOf x) := by
    rw [before, List.idxOf_append_of_notMem hout, List.take_length_add_append, passed]
  have hparts : (C.before n R (d + 1) x).filter (C.same e x) =
      (C.part R e x).take ((C.top n R d x).countP (C.same e x)) := by
    rw [← filter_same_same _ hd, filter_before, top, SetTree.filter_take, part,
      filter_same_same _ hd]
    rfl
  have hin : x ∈ (C.part R e x).take ((C.top n R d x).countP (C.same e x)) := by
    rw [← hparts]
    exact List.mem_filter.mpr ⟨by rw [before]; exact List.mem_append_right _ hx, same_iff.mpr rfl⟩
  rw [hpassed, countP_take_idxOf _ (same_iff.mpr rfl), hparts]
  conv_rhs => rw [← List.take_append_drop ((C.top n R d x).countP (C.same e x)) (C.part R e x)]
  rw [List.idxOf_append_of_mem hin]

/-- In a coarser class they are at least as many as a set holds. -/
theorem le_countP_passed {deepest : Nat} (h : Full C n R x deepest) (hd : d ≤ deepest)
    (he : e < d) : n ≤ (C.passed n R d x).countP (C.same e x) := by
  have hfirst : (C.before n R (e + 1) x).countP (C.same e x) = n := by
    rw [List.countP_eq_length_filter, filter_before, h.length_top (Nat.le_trans he.le hd)]
  have hpre : C.before n R (e + 1) x <+: C.passed n R d x :=
    (before_extends he).trans (List.prefix_append _ _)
  exact hfirst.ge.trans (hpre.sublist.countP_le)

/-! ### An access -/

theorem part_moveToFront (h : C.cls d y = C.cls d x) :
    C.part (moveToFront R x) d y = moveToFront (C.part R d y) x :=
  LruStack.filter_moveToFront_of_pos (same_iff.mpr h.symm)

theorem part_moveToFront_of_ne (h : C.cls d y ≠ C.cls d x) :
    C.part (moveToFront R x) d y = C.part R d y :=
  LruStack.filter_moveToFront_of_neg (Bool.eq_false_of_not_eq_true fun hs => h (same_iff.mp hs).symm)

theorem Full.moveToFront {deepest : Nat} (h : Full C n R y deepest) (x : α) :
    Full C n (moveToFront R x) y deepest := by
  intro d hd
  by_cases hy : C.cls d y = C.cls d x
  · rw [part_moveToFront hy]
    exact (h d hd).trans (LruStack.length_le_moveToFront _ _)
  · rw [part_moveToFront_of_ne hy]
    exact h d hd

theorem top_moveToFront_of_ne (h : C.cls d y ≠ C.cls d x) :
    C.top n (moveToFront R x) d y = C.top n R d y := by
  rw [top, part_moveToFront_of_ne h, top]

theorem top_moveToFront_of_mem (h : x ∈ C.top n R d x) :
    C.top n (moveToFront R x) d x = x :: (C.top n R d x).erase x := by
  rw [top, part_moveToFront rfl]
  exact SetTree.take_moveToFront_of_mem h

theorem top_moveToFront_of_not_mem {deepest : Nat} (hfull : Full C n R x deepest) (hd : d ≤ deepest)
    (hpos : 0 < n) (h : x ∉ C.top n R d x) :
    C.top n (moveToFront R x) d x = x :: (C.top n R d x).dropLast := by
  rw [top, part_moveToFront rfl]
  exact SetTree.take_moveToFront_of_not_mem h hpos (hfull d hd)

/-- Below the level where an item is found nothing changes. -/
theorem node_moveToFront_of_mem (h : x ∈ C.top n R d x) (y : α) :
    C.node n (moveToFront R x) (d + 1) y = C.node n R (d + 1) y := by
  have habove : C.above n (moveToFront R x) (d + 1) y = C.above n R (d + 1) y := by
    rw [above, above]
    by_cases hy : C.cls d y = C.cls d x
    · rw [top_congr hy, top_congr (R := R) hy, top_moveToFront_of_mem h]
      exact (List.perm_cons_erase h).symm.countP_eq _
    · rw [top_moveToFront_of_ne hy]
  by_cases hy : C.cls (d + 1) y = C.cls (d + 1) x
  · have hpre : x ∈ (C.top n R (d + 1) x).take (C.above n R (d + 1) x) := by
      rw [top_take_above]
      exact List.mem_filter.mpr ⟨h, same_iff.mpr rfl⟩
    have hpos : 0 < C.above n R (d + 1) x := by
      rw [← length_filter_top, List.length_pos_iff]
      exact List.ne_nil_of_mem (List.mem_filter.mpr ⟨h, same_iff.mpr rfl⟩)
    rw [above_congr hy, above_congr (R := R) hy] at habove
    rw [node_congr hy, node_congr (R := R) hy, node, node, habove, top_moveToFront_of_mem (List.mem_of_mem_take hpre)]
    obtain ⟨m, hm⟩ := Nat.exists_eq_succ_of_ne_zero (Nat.ne_of_gt hpos)
    have hdrop := SetTree.erase_drop_pred hpre
    rw [hm, Nat.succ_sub_one] at hdrop
    rw [hm, List.drop_succ_cons, hdrop]
  · rw [node, habove, top_moveToFront_of_ne hy, node]

/-- What of the levels above is in a class, once the item accessed came in and another fell out. -/
theorem above_moveToFront {deepest : Nat} (hfull : Full C n R x deepest) (hd : d ≤ deepest)
    (hpos : 0 < n) (h : x ∉ C.top n R d x) (y : α) :
    C.above n (moveToFront R x) (d + 1) y +
        (if C.same (d + 1) y (C.fallen n R x (d + 1)) = true then 1 else 0) =
      C.above n R (d + 1) y + (if C.same (d + 1) y x = true then 1 else 0) := by
  have hne := hfull.top_ne_nil hd hpos
  have hlast : C.fallen n R x (d + 1) = (C.top n R d x).getLast hne := fallen_eq_getLast hne
  by_cases hy : C.cls d y = C.cls d x
  · have hcount : (C.top n R d x).countP (C.same (d + 1) y) =
        (C.top n R d x).dropLast.countP (C.same (d + 1) y) +
          (if C.same (d + 1) y (C.fallen n R x (d + 1)) = true then 1 else 0) := by
      conv_lhs => rw [← List.dropLast_append_getLast hne]
      rw [List.countP_append, List.countP_singleton, hlast]
    rw [above, above, top_congr hy, top_congr (R := R) hy,
      top_moveToFront_of_not_mem hfull hd hpos h, List.countP_cons, hcount]
    omega
  · have hfar : ∀ z, C.cls d z = C.cls d x → C.same (d + 1) y z = false := by
      intro z hz
      refine Bool.eq_false_of_not_eq_true fun hs => hy ?_
      rw [← hz]
      exact (C.finer (same_iff.mp hs)).symm
    rw [hfar x rfl, hfar _ (by rw [hlast]; exact mem_top_same (List.getLast_mem hne)), above, above,
      top_moveToFront_of_ne hy]

omit [DecidableEq α] in
/-- The item that falls out is the last of its class in the levels above. -/
theorem filter_top_fallen {deepest : Nat} (hfull : Full C n R x deepest) (hd : d ≤ deepest)
    (hpos : 0 < n) (hy : C.same (d + 1) y (C.fallen n R x (d + 1)) = true) :
    ∃ front, (C.top n R d y).filter (C.same (d + 1) y) = front ++ [C.fallen n R x (d + 1)] := by
  have hne := hfull.top_ne_nil hd hpos
  have hlast : C.fallen n R x (d + 1) = (C.top n R d x).getLast hne := fallen_eq_getLast hne
  have hclass : C.cls d y = C.cls d x := by
    rw [← mem_top_same (List.getLast_mem hne), ← hlast]
    exact (C.finer (same_iff.mp hy)).symm
  rw [top_congr hclass, ← List.dropLast_append_getLast hne, ← hlast, List.filter_append]
  exact ⟨_, by rw [List.filter_singleton, hy]; rfl⟩

/-- An item accessed that the levels above do not have. -/
def Missed (C : Classes α κ) (n : Nat) (R : List α) (x : α) : Nat → Prop
  | 0 => True
  | d + 1 => x ∉ C.top n R d x

omit [DecidableEq α] in
theorem Missed.not_mem_top (h : Missed C n R x d) (he : e < d) : x ∉ C.top n R e x := by
  cases d with
  | zero => exact absurd he (Nat.not_lt_zero e)
  | succ d => exact fun hx => h (mem_top_mono hx (Nat.le_of_lt_succ he))

omit [DecidableEq α] in
theorem Missed.not_mem_before (h : Missed C n R x d) : x ∉ C.before n R d x := by
  cases d with
  | zero => exact List.not_mem_nil
  | succ d => exact Classes.not_mem_before h

omit [DecidableEq α] in
/-- On a level an item is in the top of its class just if it is in its node. -/
theorem Missed.mem_top_iff (h : Missed C n R x d) : x ∈ C.top n R d x ↔ x ∈ C.node n R d x := by
  cases d with
  | zero => rw [node, above, List.drop_zero]
  | succ d =>
    rw [top_eq_append, List.mem_append]
    exact or_iff_right fun hx => h (List.mem_filter.mp hx).1

/-- What fell out of the levels above goes on top of its own node. -/
theorem node_moveToFront_of_ne {deepest : Nat} (hfull : Full C n R x deepest) (hd : d ≤ deepest)
    (hpos : 0 < n) (hmiss : Missed C n R x d) (hy : C.cls d y ≠ C.cls d x) :
    C.node n (moveToFront R x) d y =
      if C.same d y (C.fallen n R x d) = true then C.fallen n R x d :: C.node n R d y
      else C.node n R d y := by
  cases d with
  | zero => exact absurd (C.whole y x) hy
  | succ d =>
    have hx : C.same (d + 1) y x = false :=
      Bool.eq_false_of_not_eq_true fun hs => hy (same_iff.mp hs).symm
    have habove := above_moveToFront hfull (Nat.le_of_succ_le hd) hpos hmiss y
    rw [hx, ← length_filter_top (R := R)] at habove
    rw [node, top_moveToFront_of_ne hy, top_eq_append]
    by_cases hs : C.same (d + 1) y (C.fallen n R x (d + 1)) = true
    · obtain ⟨front, hfront⟩ := filter_top_fallen hfull (Nat.le_of_succ_le hd) hpos hs
      rw [hs, hfront, List.length_append, List.length_singleton] at habove
      have hdrop : C.above n (moveToFront R x) (d + 1) y = front.length := by
        simpa using habove
      rw [if_pos hs, hfront, hdrop, List.append_assoc, List.singleton_append, List.drop_left]
    · rw [Bool.eq_false_of_not_eq_true hs] at habove
      have hdrop : C.above n (moveToFront R x) (d + 1) y =
          ((C.top n R d y).filter (C.same (d + 1) y)).length := by
        simpa using habove
      rw [if_neg hs, hdrop, List.drop_left]

/-- The node of the item itself loses the item, or its last one, and gets what fell out of the levels
above if that is of its class. -/
theorem node_moveToFront_self {deepest : Nat} (hfull : Full C n R x deepest) (hd : d ≤ deepest)
    (hpos : 0 < n) (hmiss : Missed C n R x d) (hnode : C.node n R d x ≠ []) :
    C.node n (moveToFront R x) d x =
      (if C.same d x (C.fallen n R x d) = true then [C.fallen n R x d] else []) ++
        if x ∈ C.node n R d x then (C.node n R d x).erase x else (C.node n R d x).dropLast := by
  cases d with
  | zero =>
    have htop : ∀ R : List α, C.node n R 0 x = C.top n R 0 x := fun R => List.drop_zero
    rw [htop, htop, fallen, if_pos (same_iff.mpr rfl)]
    by_cases hx : x ∈ C.top n R 0 x
    · rw [if_pos hx, top_moveToFront_of_mem hx, List.singleton_append]
    · rw [if_neg hx, top_moveToFront_of_not_mem hfull hd hpos hx, List.singleton_append]
  | succ d =>
    have hpre : x ∉ (C.top n R d x).filter (C.same (d + 1) x) :=
      fun hx => hmiss (List.mem_filter.mp hx).1
    have hrest : C.top n (moveToFront R x) (d + 1) x =
        x :: ((C.top n R d x).filter (C.same (d + 1) x) ++
          if x ∈ C.node n R (d + 1) x then (C.node n R (d + 1) x).erase x
          else (C.node n R (d + 1) x).dropLast) := by
      by_cases hx : x ∈ C.node n R (d + 1) x
      · have htop : x ∈ C.top n R (d + 1) x := List.mem_of_mem_drop hx
        rw [if_pos hx, top_moveToFront_of_mem htop, top_eq_append, List.erase_append_right _ hpre]
      · have htop : x ∉ C.top n R (d + 1) x := by
          rw [top_eq_append, List.mem_append]
          exact not_or.mpr ⟨hpre, hx⟩
        rw [if_neg hx, top_moveToFront_of_not_mem hfull hd hpos htop, top_eq_append,
          List.dropLast_append_of_ne_nil hnode]
    have habove := above_moveToFront hfull (Nat.le_of_succ_le hd) hpos hmiss x
    rw [same_iff.mpr rfl, if_pos rfl, ← length_filter_top (R := R)] at habove
    rw [node, hrest]
    by_cases hs : C.same (d + 1) x (C.fallen n R x (d + 1)) = true
    · obtain ⟨front, hfront⟩ := filter_top_fallen hfull (Nat.le_of_succ_le hd) hpos hs
      rw [hs, hfront, List.length_append, List.length_singleton] at habove
      have hdrop : C.above n (moveToFront R x) (d + 1) x = front.length + 1 := by
        simpa using habove
      rw [if_pos hs, hfront, hdrop, List.drop_succ_cons, List.append_assoc, List.drop_left]
    · rw [Bool.eq_false_of_not_eq_true hs] at habove
      have hdrop : C.above n (moveToFront R x) (d + 1) x =
          ((C.top n R d x).filter (C.same (d + 1) x)).length + 1 := by
        simpa using habove
      rw [if_neg hs, hdrop, List.drop_succ_cons, List.drop_left, List.nil_append]

omit [DecidableEq α] in
/-- What falls out of a level is the last item of its node, if it has one. -/
theorem fallen_succ {deepest : Nat} (hfull : Full C n R x deepest) (hd : d ≤ deepest)
    (hpos : 0 < n) (hnode : C.node n R d x ≠ []) :
    C.fallen n R x (d + 1) = (C.node n R d x).getLast hnode := by
  rw [fallen_eq_getLast (hfull.top_ne_nil hd hpos)]
  exact (List.getLast_drop hnode).symm

/-- An empty node on the way down stays empty: what falls out of the levels above is of its class and
falls out of it as well. -/
theorem node_eq_nil {deepest : Nat} (hfull : Full C n R x deepest) (hd : d + 1 ≤ deepest)
    (hpos : 0 < n) (hmiss : Missed C n R x (d + 1)) (hnode : C.node n R (d + 1) x = []) :
    C.node n (moveToFront R x) (d + 1) x = [] ∧
      C.same (d + 1) x (C.fallen n R x (d + 1)) = true ∧
      C.fallen n R x (d + 2) = C.fallen n R x (d + 1) ∧ Missed C n R x (d + 2) := by
  have hlen := hfull.length_top (Nat.le_of_succ_le hd)
  have hsub : (C.top n R d x).filter (C.same (d + 1) x) = C.top n R (d + 1) x := by
    rw [top_eq_append, hnode, List.append_nil]
  have hall : (C.top n R d x).filter (C.same (d + 1) x) = C.top n R d x := by
    refine List.filter_sublist.eq_of_length ?_
    rw [hsub, hfull.length_top hd, hlen]
  have htop : C.top n R (d + 1) x = C.top n R d x := hsub.symm.trans hall
  have hne := hfull.top_ne_nil (Nat.le_of_succ_le hd) hpos
  have hlast : C.fallen n R x (d + 1) ∈ C.top n R d x := by
    rw [fallen_eq_getLast hne]
    exact List.getLast_mem hne
  have hsame : C.same (d + 1) x (C.fallen n R x (d + 1)) = true := by
    rw [← hall] at hlast
    exact (List.mem_filter.mp hlast).2
  refine ⟨?_, hsame, by rw [fallen, fallen, htop], fun hx => hmiss (htop ▸ hx)⟩
  have habove := above_moveToFront hfull (Nat.le_of_succ_le hd) hpos hmiss x
  rw [hsame, same_iff.mpr rfl, if_pos rfl, ← length_filter_top (R := R), hall, hlen] at habove
  rw [node, Nat.add_right_cancel habove]
  exact List.drop_eq_nil_of_le (List.length_take_le n _)

end Classes

end Sniper.Lib
