import Mathlib.Data.Finset.Card
import Mathlib.Data.Finset.Lattice.Fold
import Mathlib.Order.Lattice.Nat
set_option autoImplicit false

namespace Sniper.Lib

/-- An unordered set of pointers is only ever read through its first element; `first` is
that element, whatever the iteration order of the container is. -/
structure Order where
  first : Finset Nat → Nat
  first_mem : ∀ s : Finset Nat, s.Nonempty → first s ∈ s

def Order.greatest : Order where
  first s := s.sup id
  first_mem := by
    intro s hs
    obtain ⟨p, hp, h⟩ := s.exists_mem_eq_sup hs id
    rw [h]
    exact hp

/-- A table that names values by pointers out of a fixed pool. -/
structure PtrTable (α : Type) where
  dict : List (Nat × α)
  free : Finset Nat
  used : Finset Nat
  deriving DecidableEq

namespace PtrTable

variable {α : Type}

def empty : PtrTable α := ⟨[], ∅, ∅⟩

/-- Every pointer below `size` is added to the free list. -/
def fill (t : PtrTable α) (size : Nat) : PtrTable α :=
  { t with free := t.free ∪ Finset.range size }

def entry (t : PtrTable α) (p : Nat) : Option α :=
  (t.dict.find? (fun e => e.1 = p)).map Prod.snd

/-- Entries whose value is not kept go back to the free list. -/
def prune (keep : α → Bool) (t : PtrTable α) : PtrTable α :=
  let dead := ((t.dict.filter (fun e => !keep e.2)).map Prod.fst).toFinset
  { dict := t.dict.filter (fun e => keep e.2)
    free := t.free ∪ dead
    used := t.used \ dead }

/-- An entry is given up by its pointer. -/
def remove (t : PtrTable α) (p : Nat) : Option (PtrTable α) :=
  if p ∈ t.used then
    some {
      dict := t.dict.filter (fun e => e.1 ≠ p)
      free := Insert.insert p t.free
      used := t.used.erase p }
  else none

/-- Pointers and values are in bijection, and the pool is split into free and used ones. -/
structure Wf (size : Nat) (t : PtrTable α) : Prop where
  keys_nodup : (t.dict.map Prod.fst).Nodup
  vals_nodup : (t.dict.map Prod.snd).Nodup
  used_eq : t.used = (t.dict.map Prod.fst).toFinset
  disjoint : Disjoint t.free t.used
  cover : t.free ∪ t.used = Finset.range size

theorem wf_empty : Wf 0 (empty : PtrTable α) := by
  constructor <;> simp [empty]

theorem wf_fill_empty (size : Nat) : Wf size ((empty : PtrTable α).fill size) := by
  constructor <;> simp [empty, fill]

theorem entry_of_mem {size : Nat} {t : PtrTable α} (wf : t.Wf size) {p : Nat} {v : α}
    (h : (p, v) ∈ t.dict) : t.entry p = some v := by
  simp only [entry, Option.map_eq_some_iff]
  cases hf : t.dict.find? (fun e => e.1 = p) with
  | none =>
    rw [List.find?_eq_none] at hf
    exact absurd (decide_eq_true rfl) (hf _ h)
  | some e =>
    have hp := List.find?_some hf
    simp only [decide_eq_true_eq] at hp
    have he : e = (p, v) :=
      List.inj_on_of_nodup_map wf.keys_nodup (List.mem_of_find?_eq_some hf) h hp
    exact ⟨e, rfl, by rw [he]⟩

theorem prune_wf {size : Nat} {keep : α → Bool} {t : PtrTable α} (wf : t.Wf size) :
    (t.prune keep).Wf size := by
  have hsub : (t.dict.filter (fun e => keep e.2)).Sublist t.dict := List.filter_sublist
  have hinj : ∀ a ∈ t.dict, ∀ b ∈ t.dict, a.1 = b.1 → a = b := fun a ha b hb =>
    List.inj_on_of_nodup_map wf.keys_nodup ha hb
  have hdead : ((t.dict.filter (fun e => !keep e.2)).map Prod.fst).toFinset ⊆ t.used := by
    intro p hp
    rw [wf.used_eq]
    simp only [List.mem_toFinset, List.mem_map, List.mem_filter] at hp ⊢
    obtain ⟨e, ⟨he, -⟩, rfl⟩ := hp
    exact ⟨e, he, rfl⟩
  refine ⟨wf.keys_nodup.sublist (hsub.map _), wf.vals_nodup.sublist (hsub.map _), ?_, ?_, ?_⟩
  · ext p
    simp only [prune, wf.used_eq, Finset.mem_sdiff, List.mem_toFinset, List.mem_map,
      List.mem_filter, Bool.not_eq_true', not_exists, not_and, and_imp]
    constructor
    · rintro ⟨⟨e, he, rfl⟩, hkeep⟩
      refine ⟨e, ⟨he, ?_⟩, rfl⟩
      by_contra hk
      exact hkeep e he (by simpa using hk) rfl
    · rintro ⟨e, ⟨he, hk⟩, rfl⟩
      refine ⟨⟨e, he, rfl⟩, ?_⟩
      intro e' he' hk' heq
      have := hinj e' he' e he heq
      subst this
      simp [hk] at hk'
  · simp only [prune]
    rw [Finset.disjoint_union_left]
    exact ⟨wf.disjoint.mono_right Finset.sdiff_subset, Finset.disjoint_sdiff⟩
  · simp only [prune]
    rw [Finset.union_assoc, Finset.union_sdiff_of_subset hdead, wf.cover]

theorem remove_wf {size p : Nat} {t t' : PtrTable α} (wf : t.Wf size) (h : t.remove p = some t') :
    t'.Wf size := by
  simp only [remove] at h
  split at h
  · next hp =>
    cases h
    have hsub : (t.dict.filter (fun e => e.1 ≠ p)).Sublist t.dict := List.filter_sublist
    refine ⟨wf.keys_nodup.sublist (hsub.map _), wf.vals_nodup.sublist (hsub.map _), ?_, ?_, ?_⟩
    · ext q
      simp only [wf.used_eq, Finset.mem_erase, List.mem_toFinset, List.mem_map, List.mem_filter,
        decide_eq_true_eq]
      constructor
      · rintro ⟨hq, e, he, rfl⟩
        exact ⟨e, ⟨he, hq⟩, rfl⟩
      · rintro ⟨e, ⟨he, hq⟩, rfl⟩
        exact ⟨hq, e, he, rfl⟩
    · rw [Finset.disjoint_insert_left]
      exact ⟨Finset.notMem_erase p t.used, wf.disjoint.mono_right (Finset.erase_subset p t.used)⟩
    · rw [Finset.insert_union, ← Finset.union_insert, Finset.insert_erase hp, wf.cover]
  · cases h

theorem mem_prune {keep : α → Bool} {t : PtrTable α} {e : Nat × α} :
    e ∈ (t.prune keep).dict ↔ e ∈ t.dict ∧ keep e.2 := by
  simp [prune]

variable [DecidableEq α]

def lookup (t : PtrTable α) (v : α) : Option Nat :=
  (t.dict.find? (fun e => e.2 = v)).map Prod.fst

def vals (t : PtrTable α) : Finset α := (t.dict.map Prod.snd).toFinset

def insert (o : Order) (t : PtrTable α) (v : α) : Option (Nat × PtrTable α) :=
  match t.lookup v with
  | some p => some (p, t)
  | none =>
    if t.free = ∅ then none
    else
      let p := o.first t.free
      some (p, {
        dict := if p ∈ t.dict.map Prod.fst then t.dict else (p, v) :: t.dict
        free := t.free.erase p
        used := Insert.insert p t.used })

def insertAll (o : Order) : List α → PtrTable α → Option (List Nat × PtrTable α)
  | [], t => some ([], t)
  | v :: vs, t => do
    let (p, t) ← t.insert o v
    let (ps, t) ← insertAll o vs t
    return (p :: ps, t)

@[simp] theorem vals_empty : (empty : PtrTable α).vals = ∅ := by
  simp [vals, empty]

@[simp] theorem vals_fill (t : PtrTable α) (size : Nat) : (t.fill size).vals = t.vals := rfl

theorem mem_vals {t : PtrTable α} {v : α} : v ∈ t.vals ↔ ∃ p, (p, v) ∈ t.dict := by
  simp [vals]

theorem lookup_eq_none {t : PtrTable α} {v : α} : t.lookup v = none ↔ v ∉ t.vals := by
  simp only [lookup, Option.map_eq_none_iff, List.find?_eq_none, mem_vals]
  constructor
  · intro h hv
    obtain ⟨p, hp⟩ := hv
    exact h _ hp (by simp)
  · intro h e he hv
    exact h ⟨e.1, by simpa [← of_decide_eq_true hv] using he⟩

theorem lookup_isSome {t : PtrTable α} {v : α} : (t.lookup v).isSome = decide (v ∈ t.vals) := by
  by_cases hv : v ∈ t.vals
  · have h : t.lookup v ≠ none := fun h => lookup_eq_none.1 h hv
    simp [hv, Option.isSome_iff_ne_none, h]
  · simp [hv, lookup_eq_none.2 hv]

theorem lookup_mem {t : PtrTable α} {v : α} {p : Nat} (h : t.lookup v = some p) :
    (p, v) ∈ t.dict := by
  simp only [lookup, Option.map_eq_some_iff] at h
  obtain ⟨e, he, rfl⟩ := h
  have hv := List.find?_some he
  simp only [decide_eq_true_eq] at hv
  simpa [← hv] using List.mem_of_find?_eq_some he

theorem Wf.card {size : Nat} {t : PtrTable α} (wf : t.Wf size) :
    t.free.card + t.vals.card = size := by
  have hv : t.vals.card = t.used.card := by
    rw [vals, List.toFinset_card_of_nodup wf.vals_nodup, wf.used_eq,
      List.toFinset_card_of_nodup wf.keys_nodup, List.length_map, List.length_map]
  rw [hv, ← Finset.card_union_of_disjoint wf.disjoint, wf.cover, Finset.card_range]

theorem Wf.vals_card_le {size : Nat} {t : PtrTable α} (wf : t.Wf size) : t.vals.card ≤ size := by
  have h := wf.card
  omega

theorem Wf.dict_length {size : Nat} {t : PtrTable α} (wf : t.Wf size) :
    t.dict.length = t.vals.card := by
  rw [vals, List.toFinset_card_of_nodup wf.vals_nodup, List.length_map]

theorem insert_known {o : Order} {t : PtrTable α} {v : α} {p : Nat} (h : t.lookup v = some p) :
    t.insert o v = some (p, t) := by
  simp [insert, h]

theorem insert_fresh {size : Nat} {o : Order} {t : PtrTable α} (wf : t.Wf size) {v : α}
    (h : t.lookup v = none) (hf : t.free.Nonempty) :
    t.insert o v = some (o.first t.free, {
      dict := (o.first t.free, v) :: t.dict
      free := t.free.erase (o.first t.free)
      used := Insert.insert (o.first t.free) t.used }) := by
  have hne : t.free ≠ ∅ := hf.ne_empty
  have hfree := o.first_mem t.free hf
  have hused : o.first t.free ∉ t.used := Finset.disjoint_left.1 wf.disjoint hfree
  have hkey : o.first t.free ∉ t.dict.map Prod.fst := by
    rw [wf.used_eq, List.mem_toFinset] at hused
    exact hused
  simp only [insert, h, hne, if_false, hkey]

/-- What one insertion does: the table only grows, and the new pointer names the value. -/
theorem insert_spec {size : Nat} {o : Order} {t t' : PtrTable α} (wf : t.Wf size) {v : α}
    {p : Nat} (h : t.insert o v = some (p, t')) :
    t'.Wf size ∧ (∀ e ∈ t.dict, e ∈ t'.dict) ∧ (p, v) ∈ t'.dict ∧
      t'.vals = Insert.insert v t.vals := by
  cases hl : t.lookup v with
  | some q =>
    rw [insert_known hl] at h
    cases h
    have hv : v ∈ t.vals := mem_vals.2 ⟨p, lookup_mem hl⟩
    exact ⟨wf, fun e he => he, lookup_mem hl, (Finset.insert_eq_of_mem hv).symm⟩
  | none =>
    rcases t.free.eq_empty_or_nonempty with he | hf
    · simp [insert, hl, he] at h
    rw [insert_fresh wf hl hf] at h
    cases h
    have hfree := o.first_mem t.free hf
    have hused : o.first t.free ∉ t.used := Finset.disjoint_left.1 wf.disjoint hfree
    have hv := lookup_eq_none.1 hl
    refine ⟨⟨?_, ?_, ?_, ?_, ?_⟩, ?_, ?_, ?_⟩
    · rw [wf.used_eq, List.mem_toFinset] at hused
      exact List.nodup_cons.2 ⟨hused, wf.keys_nodup⟩
    · rw [vals, List.mem_toFinset] at hv
      exact List.nodup_cons.2 ⟨hv, wf.vals_nodup⟩
    · simp [wf.used_eq]
    · rw [Finset.disjoint_insert_right]
      refine ⟨Finset.notMem_erase _ _, ?_⟩
      exact wf.disjoint.mono_left (Finset.erase_subset _ _)
    · rw [Finset.union_insert, ← Finset.insert_union, Finset.insert_erase hfree, wf.cover]
    · intro e he
      exact List.mem_cons_of_mem _ he
    · exact List.mem_cons_self
    · simp [vals]

theorem insert_isSome {size : Nat} {o : Order} {t : PtrTable α} (wf : t.Wf size) (v : α) :
    (t.insert o v).isSome ↔ (Insert.insert v t.vals).card ≤ size := by
  have hc := wf.card
  cases hl : t.lookup v with
  | some p =>
    have hv : v ∈ t.vals := mem_vals.2 ⟨p, lookup_mem hl⟩
    rw [insert_known hl, Finset.insert_eq_of_mem hv]
    simp only [Option.isSome_some, true_iff]
    omega
  | none =>
    rw [Finset.card_insert_of_notMem (lookup_eq_none.1 hl)]
    rcases t.free.eq_empty_or_nonempty with he | hf
    · have : t.free.card = 0 := by simp [he]
      have hn : t.insert o v = none := by simp [insert, hl, he]
      simp only [hn, Option.isSome_none, Bool.false_eq_true, false_iff]
      omega
    · have hpos := hf.card_pos
      rw [insert_fresh wf hl hf]
      simp only [Option.isSome_some, true_iff]
      omega

theorem insertAll_cons {o : Order} {v : α} {vs : List α} {t t' : PtrTable α} {ps : List Nat}
    (h : insertAll o (v :: vs) t = some (ps, t')) :
    ∃ p qs u, t.insert o v = some (p, u) ∧ insertAll o vs u = some (qs, t') ∧ ps = p :: qs := by
  simp only [insertAll, Option.bind_eq_bind, Option.bind_eq_some_iff, Option.pure_def,
    Option.some.injEq, Prod.mk.injEq] at h
  obtain ⟨⟨p, u⟩, hu, ⟨qs, w⟩, hw, rfl, rfl⟩ := h
  exact ⟨p, qs, u, hu, hw, rfl⟩

/-- A run of insertions keeps every entry and names each value by its own pointer. -/
theorem insertAll_spec {size : Nat} {o : Order} {vs : List α} {t t' : PtrTable α} (wf : t.Wf size)
    {ps : List Nat} (h : insertAll o vs t = some (ps, t')) :
    t'.Wf size ∧ (∀ e ∈ t.dict, e ∈ t'.dict) ∧ t'.vals = t.vals ∪ vs.toFinset ∧
      List.Forall₂ (fun p v => (p, v) ∈ t'.dict) ps vs := by
  induction vs generalizing t ps with
  | nil =>
    simp only [insertAll, Option.some.injEq, Prod.mk.injEq] at h
    obtain ⟨rfl, rfl⟩ := h
    exact ⟨wf, fun e he => he, by simp, .nil⟩
  | cons v vs ih =>
    obtain ⟨p, qs, u, hu, hw, rfl⟩ := insertAll_cons h
    obtain ⟨wfu, mono, mem, hvals⟩ := insert_spec wf hu
    obtain ⟨wf', mono', hvals', hall⟩ := ih wfu hw
    refine ⟨wf', fun e he => mono' e (mono e he), ?_, .cons (mono' _ mem) hall⟩
    rw [hvals', hvals, List.toFinset_cons, Finset.insert_union, Finset.union_insert]

/-- A run of insertions succeeds exactly when all values together fit the pool. -/
theorem insertAll_isSome {size : Nat} {o : Order} {vs : List α} {t : PtrTable α} (wf : t.Wf size) :
    (insertAll o vs t).isSome ↔ (t.vals ∪ vs.toFinset).card ≤ size := by
  induction vs generalizing t with
  | nil => simpa [insertAll] using wf.vals_card_le
  | cons v vs ih =>
    have hsub : Insert.insert v t.vals ⊆ t.vals ∪ (v :: vs).toFinset := by
      rw [List.toFinset_cons, Finset.union_insert]
      exact Finset.insert_subset_insert v Finset.subset_union_left
    cases hi : t.insert o v with
    | none =>
      have hn : ¬ (Insert.insert v t.vals).card ≤ size := by
        rw [← insert_isSome (o := o) wf v, hi]
        simp
      have hle := Finset.card_le_card hsub
      simp only [insertAll, hi, Option.bind_eq_bind, Option.bind_none, Option.isSome_none,
        Bool.false_eq_true, false_iff]
      omega
    | some r =>
      obtain ⟨p, u⟩ := r
      obtain ⟨wfu, -, -, hvals⟩ := insert_spec wf hi
      have hu := ih wfu
      rw [hvals, Finset.insert_union, ← Finset.union_insert, ← List.toFinset_cons] at hu
      rw [← hu]
      cases hr : insertAll o vs u with
      | none => simp [insertAll, hi, hr]
      | some r => simp [insertAll, hi, hr]

theorem vals_prune {keep : α → Bool} {t : PtrTable α} :
    (t.prune keep).vals = t.vals.filter (fun v => keep v) := by
  ext v
  simp [mem_vals, mem_prune]

end PtrTable

end Sniper.Lib
