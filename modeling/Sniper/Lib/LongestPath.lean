import Mathlib.Data.Nat.Basic
import Mathlib.Data.Set.Defs
import Mathlib.Logic.Function.Basic
import Mathlib.Order.Basic
set_option autoImplicit false

/-! The longest path through a graph whose nodes have weights, found by one sweep over the nodes in
their order. A node that no path has come to has the time zero. -/

namespace Sniper.Lib

/-- The largest number with a property, or zero if there is none. -/
structure IsLongest (P : Nat → Prop) (m : Nat) : Prop where
  reached : m = 0 ∨ P m
  bound : ∀ t, P t → t ≤ m

theorem IsLongest.congr {P Q : Nat → Prop} {m : Nat} (h : IsLongest P m) (hPQ : ∀ t, P t ↔ Q t) :
    IsLongest Q m :=
  ⟨h.reached.imp_right (hPQ m).mp, fun t ht => h.bound t ((hPQ t).mpr ht)⟩

theorem IsLongest.or {P Q : Nat → Prop} {m n : Nat} (hP : IsLongest P m) (hQ : IsLongest Q n) :
    IsLongest (fun t => P t ∨ Q t) (max m n) := by
  constructor
  · rcases le_total m n with h | h
    · rw [max_eq_right h]
      exact hQ.reached.imp_right .inr
    · rw [max_eq_left h]
      exact hP.reached.imp_right .inl
  · rintro t (ht | ht)
    · exact (hP.bound t ht).trans (le_max_left m n)
    · exact (hQ.bound t ht).trans (le_max_right m n)

structure WeightedGraph (ν : Type) where
  next : ν → List ν
  weight : ν → Nat

namespace WeightedGraph

section

variable {ν : Type} (G : WeightedGraph ν)

/-- A path from a source to a node, with the weight of all its nodes. -/
inductive Path (sources : Set ν) : ν → Nat → Prop where
  | source {s : ν} : s ∈ sources → Path sources s (G.weight s)
  | step {n d : ν} {t : Nat} : Path sources n t → d ∈ G.next n →
      Path sources d (t + G.weight d)

/-- Each node stands before those that come next. -/
def Ordered : List ν → Prop
  | [] => True
  | n :: l => (∀ d ∈ G.next n, d ∈ l) ∧ n ∉ l ∧ Ordered l

variable {G} {sources : Set ν} {l : List ν}

theorem Ordered.next_mem (h : G.Ordered l) {n d : ν} (hn : n ∈ l) (hd : d ∈ G.next n) : d ∈ l := by
  induction l with
  | nil => exact absurd hn List.not_mem_nil
  | cons m l ih =>
    obtain ⟨hnext, -, h⟩ := h
    rcases List.mem_cons.mp hn with rfl | hn
    · exact List.mem_cons_of_mem _ (hnext d hd)
    · exact List.mem_cons_of_mem _ (ih h hn)

/-- What leads to the first node does not stand behind it. -/
theorem Ordered.before {n m : ν} (h : G.Ordered (n :: l)) (hm : n ∈ G.next m) : m ∉ n :: l := by
  obtain ⟨hnext, hnew, h⟩ := h
  rintro hmem
  rcases List.mem_cons.mp hmem with rfl | hmem
  · exact hnew (hnext m hm)
  · exact hnew (h.next_mem hmem hm)

theorem Path.pos (hpos : ∀ s ∈ sources, G.weight s ≠ 0) {n : ν} {t : Nat}
    (h : G.Path sources n t) : 0 < t := by
  induction h with
  | source hs => exact Nat.pos_of_ne_zero (hpos _ hs)
  | step _ _ ih => exact Nat.add_pos_left ih _

theorem Path.mono {sources' : Set ν} (hsub : sources ⊆ sources') {n : ν} {t : Nat}
    (h : G.Path sources n t) : G.Path sources' n t := by
  induction h with
  | source hs => exact .source (hsub hs)
  | step _ hd ih => exact .step ih hd

end

variable {ν : Type} [DecidableEq ν] (G : WeightedGraph ν)

/-- The times of the sources; numbers are smaller than `width`. -/
def mark (times : ν → Nat) (s : ν) : ν → Nat := Function.update times s (G.weight s)

def relax (width : Nat) (n : ν) (times : ν → Nat) (d : ν) : ν → Nat :=
  Function.update times d (max ((G.weight d + times n) % width) (times d))

/-- The time of a node is final when the sweep comes to it. It goes on to the next nodes, and is
reset. -/
def visit (width : Nat) (state : (ν → Nat) × Nat) (n : ν) : (ν → Nat) × Nat :=
  if state.1 n = 0 then state
  else
    let times := (G.next n).foldl (G.relax width n) state.1
    (Function.update times n 0, max state.2 (times n))

variable {G} {sources : Set ν} {l : List ν} {times : ν → Nat} {width best : Nat}

/-- The next nodes, whichever come twice, take the time of the node. -/
theorem foldl_relax {n : ν} (next : List ν) (hself : n ∉ next) (times : ν → Nat) (k : ν) :
    next.foldl (G.relax width n) times k =
      if k ∈ next then max ((G.weight k + times n) % width) (times k) else times k := by
  induction next generalizing times with
  | nil => rfl
  | cons d next ih =>
    obtain ⟨hne, hself⟩ := List.ne_and_not_mem_of_not_mem_cons hself
    have hn : G.relax width n times d n = times n := Function.update_of_ne hne _ _
    rw [List.foldl_cons, ih hself, hn]
    by_cases hk : k = d
    · subst hk
      have hupdated : G.relax width n times k k =
          max ((G.weight k + times n) % width) (times k) := Function.update_self _ _ _
      rw [hupdated, if_pos List.mem_cons_self]
      split
      · rw [← max_assoc, max_self]
      · rfl
    · have hother : G.relax width n times d k = times k := Function.update_of_ne hk _ _
      rw [hother]
      simp only [List.mem_cons, hk, false_or]

/-! ### What the sweep leaves behind -/

/-- Only nodes that are still to come have a time. -/
theorem visit_clean {n : ν} (h : G.Ordered (n :: l)) (hclean : ∀ k, times k ≠ 0 → k ∈ n :: l) (k : ν)
    (hk : (G.visit width (times, best) n).1 k ≠ 0) : k ∈ l := by
  have hself : n ∉ G.next n := fun hn => h.before hn List.mem_cons_self
  by_cases hzero : times n = 0
  · rw [visit, if_pos hzero] at hk
    refine (List.mem_cons.mp (hclean k hk)).resolve_left ?_
    rintro rfl
    exact hk hzero
  · rw [visit, if_neg hzero] at hk
    change Function.update ((G.next n).foldl (G.relax width n) times) n 0 k ≠ 0 at hk
    by_cases hkn : k = n
    · rw [hkn, Function.update_self] at hk
      exact absurd rfl hk
    · rw [Function.update_of_ne hkn, foldl_relax _ hself] at hk
      split at hk
      · next hnext => exact h.1 k hnext
      · exact (List.mem_cons.mp (hclean k hk)).resolve_left hkn

/-- Behind the last node all times are zero again. -/
theorem sweep_clean (h : G.Ordered l) (hclean : ∀ k, times k ≠ 0 → k ∈ l) :
    (l.foldl (G.visit width) (times, best)).1 = fun _ => 0 := by
  induction l generalizing times best with
  | nil =>
    funext k
    by_contra hk
    exact absurd (hclean k hk) List.not_mem_nil
  | cons n l ih =>
    rw [List.foldl_cons]
    exact ih h.2.2 (visit_clean h hclean)

/-! ### What the sweep finds -/

/-- A path comes to a node from the ones before it in the order. -/
def Arrives (G : WeightedGraph ν) (sources : Set ν) (l : List ν) (k : ν) (t : Nat) : Prop :=
  (k ∈ sources ∧ t = G.weight k) ∨
    ∃ n t', n ∉ l ∧ G.Path sources n t' ∧ k ∈ G.next n ∧ t = t' + G.weight k

/-- The times of the nodes to come, and the longest path so far. -/
structure Swept (G : WeightedGraph ν) (sources : Set ν) (l : List ν) (times : ν → Nat)
    (best : Nat) : Prop where
  arrive : ∀ k ∈ l, IsLongest (G.Arrives sources l k) (times k)
  longest : IsLongest (fun t => ∃ n, n ∉ l ∧ G.Path sources n t) best

omit [DecidableEq ν] in
theorem arrives_first {n : ν} (h : G.Ordered (n :: l)) (t : Nat) :
    G.Arrives sources (n :: l) n t ↔ G.Path sources n t := by
  constructor
  · rintro (⟨hs, rfl⟩ | ⟨m, t', -, hpath, hn, rfl⟩)
    · exact .source hs
    · exact .step hpath hn
  · intro hpath
    cases hpath with
    | source hs => exact .inl ⟨hs, rfl⟩
    | step hpath hn => exact .inr ⟨_, _, h.before hn, hpath, hn, rfl⟩

/-- The paths that come by the first node are new. -/
theorem arrives_rest {n : ν} (h : G.Ordered (n :: l)) (k : ν) (t : Nat) :
    G.Arrives sources l k t ↔ G.Arrives sources (n :: l) k t ∨
      ∃ t', G.Path sources n t' ∧ k ∈ G.next n ∧ t = t' + G.weight k := by
  constructor
  · rintro (hs | ⟨m, t', hm, hpath, hk, rfl⟩)
    · exact .inl (.inl hs)
    · by_cases hmn : m = n
      · exact .inr ⟨t', hmn ▸ hpath, hmn ▸ hk, rfl⟩
      · exact .inl (.inr ⟨m, t', List.not_mem_cons_of_ne_of_not_mem hmn hm, hpath, hk, rfl⟩)
  · rintro ((hs | ⟨m, t', hm, hpath, hk, rfl⟩) | ⟨t', hpath, hk, rfl⟩)
    · exact .inl hs
    · exact .inr ⟨m, t', List.not_mem_of_not_mem_cons hm, hpath, hk, rfl⟩
    · exact .inr ⟨n, t', h.2.1, hpath, hk, rfl⟩

theorem path_rest {n : ν} (hnew : n ∉ l) (t : Nat) :
    (∃ m, m ∉ l ∧ G.Path sources m t) ↔
      (∃ m, m ∉ n :: l ∧ G.Path sources m t) ∨ G.Path sources n t := by
  constructor
  · rintro ⟨m, hm, hpath⟩
    by_cases hmn : m = n
    · exact .inr (hmn ▸ hpath)
    · exact .inl ⟨m, List.not_mem_cons_of_ne_of_not_mem hmn hm, hpath⟩
  · rintro (⟨m, hm, hpath⟩ | hpath)
    · exact ⟨m, List.not_mem_of_not_mem_cons hm, hpath⟩
    · exact ⟨n, hnew, hpath⟩

theorem Swept.visit {n : ν} (h : G.Ordered (n :: l)) (hpos : ∀ s ∈ sources, G.weight s ≠ 0)
    (hwidth : ∀ m t, G.Path sources m t → t < width)
    (hswept : G.Swept sources (n :: l) times best) :
    G.Swept sources l (G.visit width (times, best) n).1 (G.visit width (times, best) n).2 := by
  have hself : n ∉ G.next n := fun hn => h.before hn List.mem_cons_self
  have hfirst : IsLongest (G.Path sources n) (times n) :=
    (hswept.arrive n List.mem_cons_self).congr (arrives_first h)
  by_cases hzero : times n = 0
  · -- no path comes to the node
    have hnone : ∀ t, ¬G.Path sources n t := by
      intro t hpath
      have hle := hfirst.bound t hpath
      have hlt := hpath.pos hpos
      omega
    rw [WeightedGraph.visit, if_pos hzero]
    constructor
    · intro k hk
      refine (hswept.arrive k (List.mem_cons_of_mem n hk)).congr fun t => ?_
      rw [arrives_rest h]
      exact (or_iff_left fun ⟨t', hpath, _⟩ => hnone t' hpath).symm
    · refine hswept.longest.congr fun t => ?_
      rw [path_rest h.2.1]
      exact (or_iff_left (hnone t)).symm
  · have hpath := hfirst.reached.resolve_left hzero
    rw [WeightedGraph.visit, if_neg hzero]
    constructor
    · intro k hk
      have hkn : k ≠ n := by
        rintro rfl
        exact h.2.1 hk
      change IsLongest _ (Function.update ((G.next n).foldl (G.relax width n) times) n 0 k)
      rw [Function.update_of_ne hkn, foldl_relax _ hself]
      have hold := hswept.arrive k (List.mem_cons_of_mem n hk)
      by_cases hnext : k ∈ G.next n
      · have hfits : (G.weight k + times n) % width = times n + G.weight k := by
          rw [Nat.add_comm, Nat.mod_eq_of_lt (hwidth k _ (.step hpath hnext))]
        have hnew : IsLongest (fun t => ∃ t', G.Path sources n t' ∧ k ∈ G.next n ∧
            t = t' + G.weight k) (times n + G.weight k) := by
          refine ⟨.inr ⟨times n, hpath, hnext, rfl⟩, ?_⟩
          rintro t ⟨t', hpath', -, rfl⟩
          exact Nat.add_le_add_right (hfirst.bound t' hpath') _
        rw [if_pos hnext, hfits, max_comm]
        exact (hold.or hnew).congr fun t => (arrives_rest h k t).symm
      · rw [if_neg hnext]
        refine hold.congr fun t => ?_
        rw [arrives_rest h]
        exact (or_iff_left fun ⟨_, _, hk', _⟩ => hnext hk').symm
    · change IsLongest _ (max best ((G.next n).foldl (G.relax width n) times n))
      rw [foldl_relax _ hself, if_neg hself]
      exact (hswept.longest.or hfirst).congr fun t => (path_rest h.2.1 t).symm

theorem Swept.sweep (h : G.Ordered l) (hpos : ∀ s ∈ sources, G.weight s ≠ 0)
    (hwidth : ∀ m t, G.Path sources m t → t < width) (hswept : G.Swept sources l times best) :
    IsLongest (fun t => ∃ n, G.Path sources n t) (l.foldl (G.visit width) (times, best)).2 := by
  induction l generalizing times best with
  | nil => exact hswept.longest.congr fun t => by simp
  | cons n l ih =>
    rw [List.foldl_cons]
    exact ih h.2.2 (hswept.visit h hpos hwidth)

theorem foldl_mark (marked : List ν) (times : ν → Nat) (k : ν) :
    marked.foldl G.mark times k = if k ∈ marked then G.weight k else times k := by
  induction marked generalizing times with
  | nil => rfl
  | cons s marked ih =>
    rw [List.foldl_cons, ih]
    by_cases hk : k = s
    · subst hk
      have hmarked : G.mark times k k = G.weight k := Function.update_self _ _ _
      rw [hmarked, if_pos List.mem_cons_self]
      exact ite_self _
    · have hother : G.mark times s k = times k := Function.update_of_ne hk _ _
      rw [hother]
      simp only [List.mem_cons, hk, false_or]

/-- The sources without weight are as if they were not marked. -/
theorem swept_marked (h : G.Ordered l) (marked : List ν) (hmarked : ∀ s ∈ marked, s ∈ l) :
    G.Swept {s | s ∈ marked ∧ G.weight s ≠ 0} l (marked.foldl G.mark fun _ => 0) 0 := by
  have hinside : ∀ n t, G.Path {s | s ∈ marked ∧ G.weight s ≠ 0} n t → n ∈ l := by
    intro n t hpath
    induction hpath with
    | source hs => exact hmarked _ hs.1
    | step _ hd ih => exact h.next_mem ih hd
  constructor
  · intro k hk
    rw [foldl_mark]
    have harrives : ∀ t, G.Arrives {s | s ∈ marked ∧ G.weight s ≠ 0} l k t →
        k ∈ marked ∧ G.weight k ≠ 0 ∧ t = G.weight k := by
      rintro t (⟨⟨hmem, hne⟩, rfl⟩ | ⟨n, t', hn, hpath, -⟩)
      · exact ⟨hmem, hne, rfl⟩
      · exact absurd (hinside n t' hpath) hn
    constructor
    · by_cases hmem : k ∈ marked
      · rw [if_pos hmem]
        by_cases hzero : G.weight k = 0
        · exact .inl hzero
        · exact .inr (.inl ⟨⟨hmem, hzero⟩, rfl⟩)
      · exact .inl (if_neg hmem)
    · intro t ht
      obtain ⟨hmem, -, rfl⟩ := harrives t ht
      rw [if_pos hmem]
  · refine ⟨.inl rfl, ?_⟩
    rintro t ⟨n, hn, hpath⟩
    exact absurd (hinside n t hpath) hn

end WeightedGraph

end Sniper.Lib
