import Mathlib.Logic.Function.Basic
set_option autoImplicit false

/-! Nodes in a heap, found by the names on the way to them from the first one. -/

namespace Sniper.Lib

structure NameTree.Node (ν α : Type) where
  children : ν → Option Nat
  parent : Nat
  payload : α

structure NameTree (ν α : Type) where
  size : Nat
  node : Nat → NameTree.Node ν α

namespace NameTree

variable {ν α β : Type}

def root (a : α) : NameTree ν α := ⟨1, fun _ => ⟨fun _ => none, 0, a⟩⟩

def child (t : NameTree ν α) (i : Nat) (n : ν) : Option Nat := (t.node i).children n

/-- The node that a list of names leads to. -/
def resolve (t : NameTree ν α) (i : Nat) : List ν → Option Nat
  | [] => some i
  | n :: ns => (t.child i n).bind fun j => t.resolve j ns

/-- What is read of the node that the names lead to from the first one, if there is one. -/
def lookup (f : α → β) (d : β) (t : NameTree ν α) (ns : List ν) : β :=
  ((t.resolve 0 ns).map fun i => f (t.node i).payload).getD d

def modify (t : NameTree ν α) (i : Nat) (g : α → α) : NameTree ν α :=
  { t with node := Function.update t.node i { t.node i with payload := g (t.node i).payload } }

section
variable [DecidableEq ν]

/-- A new node under a name. -/
def add (t : NameTree ν α) (i : Nat) (n : ν) (a : α) : NameTree ν α where
  size := t.size + 1
  node j :=
    if j = t.size then ⟨fun _ => none, i, a⟩
    else if j = i then
      { t.node i with children := Function.update (t.node i).children n (some t.size) }
    else t.node j

/-- The child of that name, which is made if there is none. -/
def enter (t : NameTree ν α) (i : Nat) (n : ν) (a : α) : Nat × NameTree ν α :=
  match t.child i n with
  | some j => (j, t)
  | none => (t.size, t.add i n a)

def descend (t : NameTree ν α) (i : Nat) : List (ν × α) → Nat × NameTree ν α
  | [] => (i, t)
  | (n, a) :: rest => (t.enter i n a).2.descend (t.enter i n a).1 rest

end

/-- Each node is where its path leads to, and a child a name further on than its parent. -/
structure Wf (path : Nat → List ν) (t : NameTree ν α) : Prop where
  size_pos : 0 < t.size
  root : path 0 = []
  child : ∀ i n j, i < t.size → t.child i n = some j →
    j < t.size ∧ path j = path i ++ [n] ∧ (t.node j).parent = i
  reach : ∀ i, i < t.size → t.resolve 0 (path i) = some i
  parent : ∀ i, i < t.size → 0 < i →
    (t.node i).parent < i ∧ ∃ n, path i = path (t.node i).parent ++ [n]

variable {t : NameTree ν α} {path : Nat → List ν} {i j k : Nat} {n : ν} {ns : List ν} {a : α}
  {f : α → β} {d : β}

theorem resolve_append (t : NameTree ν α) (i : Nat) (ns ms : List ν) :
    t.resolve i (ns ++ ms) = (t.resolve i ns).bind fun j => t.resolve j ms := by
  induction ns generalizing i with
  | nil => rfl
  | cons n ns ih =>
    simp only [List.cons_append, resolve]
    cases t.child i n with
    | none => rfl
    | some j => exact ih j

theorem Wf.root_tree (a : α) : Wf (fun _ => []) (NameTree.root a : NameTree ν α) where
  size_pos := Nat.one_pos
  root := rfl
  child _ _ _ _ h := nomatch h
  reach i hi := by rw [Nat.lt_one_iff.mp hi]; rfl
  parent i hi h := absurd (Nat.lt_one_iff.mp hi) (Nat.ne_of_gt h)

/-- Names lead to the node whose path they are. -/
theorem Wf.path_of_resolve (h : Wf path t) (hi : i < t.size) (hns : t.resolve i ns = some j) :
    j < t.size ∧ path j = path i ++ ns := by
  induction ns generalizing i with
  | nil =>
    cases hns
    exact ⟨hi, (List.append_nil _).symm⟩
  | cons n ns ih =>
    obtain ⟨k, hk, hns⟩ := Option.bind_eq_some_iff.mp hns
    obtain ⟨hksize, hkpath, -⟩ := h.child i n k hi hk
    obtain ⟨hj, hjpath⟩ := ih hksize hns
    exact ⟨hj, by rw [hjpath, hkpath, List.append_assoc]; rfl⟩

theorem Wf.resolve_eq_iff (h : Wf path t) : t.resolve 0 ns = some i ↔ i < t.size ∧ path i = ns := by
  constructor
  · intro hns
    have := h.path_of_resolve h.size_pos hns
    rwa [h.root, List.nil_append] at this
  · rintro ⟨hi, rfl⟩
    exact h.reach i hi

theorem Wf.lookup_path (h : Wf path t) (hi : i < t.size) :
    t.lookup f d (path i) = f (t.node i).payload := by
  rw [lookup, h.reach i hi]
  rfl

theorem lookup_root (hd : f a = d) : (root a : NameTree ν α).lookup f d ns = d := by
  cases ns with
  | nil => exact hd
  | cons n ns => rfl

/-! ### A payload is changed -/

theorem resolve_modify (t : NameTree ν α) (i j : Nat) (g : α → α) (ns : List ν) :
    (t.modify i g).resolve j ns = t.resolve j ns := by
  have hchild : ∀ j n, (t.modify i g).child j n = t.child j n := by
    intro j n
    by_cases hj : j = i
    · subst hj
      simp [child, modify]
    · simp [child, modify, hj]
  induction ns generalizing j with
  | nil => rfl
  | cons n ns ih => simp only [resolve, hchild, ih]

theorem Wf.modify (h : Wf path t) (i : Nat) (g : α → α) : Wf path (t.modify i g) := by
  have hnode : ∀ j, ((t.modify i g).node j).children = (t.node j).children ∧
      ((t.modify i g).node j).parent = (t.node j).parent := by
    intro j
    by_cases hj : j = i
    · subst hj
      simp [NameTree.modify]
    · simp [NameTree.modify, hj]
  refine ⟨h.size_pos, h.root, fun j n k hj hk => ?_, fun j hj => ?_, fun j hj hpos => ?_⟩
  · rw [(hnode k).2]
    refine h.child j n k hj ?_
    rwa [NameTree.child, (hnode j).1] at hk
  · rw [resolve_modify]
    exact h.reach j hj
  · rw [(hnode j).2]
    exact h.parent j hj hpos

theorem Wf.lookup_modify [DecidableEq ν] (h : Wf path t) (hi : i < t.size) (g : α → α)
    (ns : List ν) : (t.modify i g).lookup f d ns =
      if ns = path i then f (g (t.node i).payload) else t.lookup f d ns := by
  split
  next hns =>
    rw [hns, lookup, resolve_modify, h.reach i hi]
    simp [NameTree.modify]
  next hns =>
    rw [lookup, lookup, resolve_modify]
    cases hj : t.resolve 0 ns with
    | none => rfl
    | some j =>
      have hne : j ≠ i := by
        rintro rfl
        exact hns (h.resolve_eq_iff.mp hj).2.symm
      simp [NameTree.modify, hne]

/-! ### A node is added -/

section
variable [DecidableEq ν]

theorem child_add (hk : k < t.size) {m : ν} :
    (t.add i n a).child k m = if k = i ∧ m = n then some t.size else t.child k m := by
  simp only [child, add, if_neg (Nat.ne_of_lt hk)]
  by_cases hki : k = i
  · subst hki
    by_cases hmn : m = n <;> simp [hmn]
  · simp [hki]

theorem child_add_new {m : ν} : (t.add i n a).child t.size m = none := by
  simp [child, add]

theorem child_add_of_some (h : t.child i n = none) (hk : k < t.size) {m : ν}
    (hm : t.child k m = some j) : (t.add i n a).child k m = some j := by
  rw [child_add hk, if_neg, hm]
  rintro ⟨rfl, rfl⟩
  rw [h] at hm
  cases hm

theorem Wf.resolve_add_of_some (hwf : Wf path t) (h : t.child i n = none) (hk : k < t.size)
    (hj : t.resolve k ns = some j) : (t.add i n a).resolve k ns = some j := by
  induction ns generalizing k with
  | nil => exact hj
  | cons m ns ih =>
    obtain ⟨l, hl, hj⟩ := Option.bind_eq_some_iff.mp hj
    rw [resolve, child_add_of_some h hk hl]
    exact ih (hwf.child k m l hk hl).1 hj

theorem Wf.add (hwf : Wf path t) (hi : i < t.size) (h : t.child i n = none) (a : α) :
    Wf (Function.update path t.size (path i ++ [n])) (t.add i n a) := by
  have hpath : ∀ j, j < t.size → Function.update path t.size (path i ++ [n]) j = path j :=
    fun j hj => Function.update_of_ne (Nat.ne_of_lt hj) _ _
  have hchild : ∀ j m k, j < t.size + 1 → (t.add i n a).child j m = some k →
      j < t.size ∧ (t.child j m = some k ∨ j = i ∧ m = n ∧ k = t.size) := by
    intro j m k hj hk
    rcases Nat.lt_succ_iff_lt_or_eq.mp hj with hj | rfl
    · rw [child_add hj] at hk
      split at hk
      next hnew => exact ⟨hj, .inr ⟨hnew.1, hnew.2, (Option.some.inj hk).symm⟩⟩
      next => exact ⟨hj, .inl hk⟩
    · rw [child_add_new] at hk
      cases hk
  have hparent : ∀ j, ((t.add i n a).node j).parent = if j = t.size then i else (t.node j).parent := by
    intro j
    simp only [NameTree.add]
    split
    · rfl
    · split
      next hji => rw [hji]
      next => rfl
  refine ⟨Nat.succ_pos _, ?_, fun j m k hj hk => ?_, fun j hj => ?_, fun j hj hpos => ?_⟩
  · rw [hpath 0 hwf.size_pos, hwf.root]
  · obtain ⟨hj, hk | ⟨rfl, rfl, rfl⟩⟩ := hchild j m k hj hk
    · obtain ⟨hksize, hkpath, hkparent⟩ := hwf.child j m k hj hk
      refine ⟨Nat.lt_succ_of_lt hksize, by rw [hpath j hj, hpath k hksize, hkpath], ?_⟩
      rw [hparent, if_neg (Nat.ne_of_lt hksize), hkparent]
    · refine ⟨Nat.lt_succ_self _, by rw [hpath j hi, Function.update_self], ?_⟩
      rw [hparent, if_pos rfl]
  · rcases Nat.lt_succ_iff_lt_or_eq.mp hj with hj | rfl
    · rw [hpath j hj]
      exact hwf.resolve_add_of_some h hwf.size_pos (hwf.reach j hj)
    · rw [Function.update_self, resolve_append,
        hwf.resolve_add_of_some h hwf.size_pos (hwf.reach i hi)]
      simp [resolve, child_add hi]
  · rw [hparent]
    rcases Nat.lt_succ_iff_lt_or_eq.mp hj with hj | rfl
    · obtain ⟨hlt, m, hm⟩ := hwf.parent j hj hpos
      rw [if_neg (Nat.ne_of_lt hj), hpath j hj, hpath _ (Nat.lt_trans hlt hj)]
      exact ⟨hlt, m, hm⟩
    · rw [if_pos rfl, Function.update_self, hpath i hi]
      exact ⟨hi, n, rfl⟩

/-- A node of which nothing is read changes nothing. -/
theorem Wf.lookup_add (hwf : Wf path t) (hi : i < t.size) (h : t.child i n = none)
    (hd : f a = d) : (t.add i n a).lookup f d ns = t.lookup f d ns := by
  have hnode : ∀ j, j < t.size → ((t.add i n a).node j).payload = (t.node j).payload := by
    intro j hj
    simp only [NameTree.add, if_neg (Nat.ne_of_lt hj)]
    split
    next hji => rw [hji]
    next => rfl
  rw [lookup, lookup]
  cases hj : t.resolve 0 ns with
  | some j =>
    rw [hwf.resolve_add_of_some h hwf.size_pos hj]
    simp [hnode j (hwf.resolve_eq_iff.mp hj).1]
  | none =>
    cases hj' : (t.add i n a).resolve 0 ns with
    | none => rfl
    | some j =>
      obtain ⟨hsize, hpath⟩ := (hwf.add hi h a).resolve_eq_iff.mp hj'
      rcases Nat.lt_succ_iff_lt_or_eq.mp hsize with hold | rfl
      · rw [Function.update_of_ne (Nat.ne_of_lt hold)] at hpath
        rw [← hpath, hwf.reach j hold] at hj
        cases hj
      · simp [NameTree.add, hd]

theorem Wf.enter (hwf : Wf path t) (hi : i < t.size) (n : ν) (a : α) :
    ∃ path', Wf path' (t.enter i n a).2 ∧ (t.enter i n a).1 < (t.enter i n a).2.size ∧
      path' (t.enter i n a).1 = path i ++ [n] := by
  rw [NameTree.enter]
  cases h : t.child i n with
  | some j => exact ⟨path, hwf, (hwf.child i n j hi h).1, (hwf.child i n j hi h).2.1⟩
  | none => exact ⟨_, hwf.add hi h a, Nat.lt_succ_self _, Function.update_self _ _ _⟩

theorem Wf.lookup_enter (hwf : Wf path t) (hi : i < t.size) (hd : f a = d) :
    (t.enter i n a).2.lookup f d ns = t.lookup f d ns := by
  rw [NameTree.enter]
  cases h : t.child i n with
  | some j => rfl
  | none => exact hwf.lookup_add hi h hd

theorem Wf.descend (hwf : Wf path t) (hi : i < t.size) (l : List (ν × α)) :
    ∃ path', Wf path' (t.descend i l).2 ∧ (t.descend i l).1 < (t.descend i l).2.size ∧
      path' (t.descend i l).1 = path i ++ l.map Prod.fst := by
  induction l generalizing t i path with
  | nil => exact ⟨path, hwf, hi, (List.append_nil _).symm⟩
  | cons e l ih =>
    obtain ⟨n, a⟩ := e
    obtain ⟨path', hwf', hi', hpath'⟩ := hwf.enter hi n a
    obtain ⟨path'', hwf'', hi'', hpath''⟩ := ih hwf' hi'
    refine ⟨path'', hwf'', hi'', ?_⟩
    rw [NameTree.descend, hpath'', hpath', List.append_assoc]
    rfl

theorem Wf.lookup_descend (hwf : Wf path t) (hi : i < t.size) {l : List (ν × α)}
    (hd : ∀ e ∈ l, f e.2 = d) : (t.descend i l).2.lookup f d ns = t.lookup f d ns := by
  induction l generalizing t i path with
  | nil => rfl
  | cons e l ih =>
    obtain ⟨n, a⟩ := e
    obtain ⟨path', hwf', hi', -⟩ := hwf.enter hi n a
    rw [NameTree.descend, ih hwf' hi' fun e he => hd e (List.mem_cons_of_mem _ he)]
    exact hwf.lookup_enter hi (hd (n, a) List.mem_cons_self)

end

end NameTree

end Sniper.Lib
