import Sniper.Lib.LruStack
import Mathlib.Data.Nat.Notation
import Mathlib.Data.List.Nodup
set_option autoImplicit false

/-! The caches used while fast-forwarding: tags only, with a time stamp for every way. -/

namespace Sniper.FastNehalem
open Sniper.Lib

/-- A line address. -/
abbrev Tag : Type := BitVec 64

structure CacheSet where
  tags : Nat → Tag
  lru : Nat → Nat
  lruMax : Nat

namespace CacheSet

/-- A set as it is made. -/
def fresh : CacheSet := ⟨fun _ => 0, fun _ => 0, 0⟩

def touch (s : CacheSet) (idx : Nat) : CacheSet :=
  { s with lru := Function.update s.lru idx (s.lruMax + 1), lruMax := s.lruMax + 1 }

theorem touch_lru (s : CacheSet) (idx : Nat) :
    (s.touch idx).lru = Function.update s.lru idx (s.lruMax + 1) := rfl

/-- The least stamp seen so far, and whose it is; every stamp is below the first bound. -/
def older (s : CacheSet) : Option (Nat × Nat) → Nat → Option (Nat × Nat)
  | none, idx => some (s.lru idx, idx)
  | some r, idx => if s.lru idx < r.1 then some (s.lru idx, idx) else some r

/-- The way to replace. -/
def idxMin (s : CacheSet) (assoc : Nat) : Nat :=
  (((List.range assoc).foldl s.older none).map Prod.snd).getD 0

def find (assoc : Nat) (s : CacheSet) (tag : Tag) : Bool × CacheSet :=
  match (List.range assoc).find? fun idx => s.tags idx = tag with
  | some idx => (true, s.touch idx)
  | none =>
    let idx := s.idxMin assoc
    (false, { s with tags := Function.update s.tags idx tag }.touch idx)

/-! ### The order of the ways -/

/-- The ways of a set, the most recently used first; of ways never used the first one comes last. -/
structure Order (assoc : Nat) (s : CacheSet) (ways : List Nat) : Prop where
  perm : ways.Perm (List.range assoc)
  sorted : ways.Pairwise fun a b => s.lru b < s.lru a ∨ s.lru a = s.lru b ∧ b < a
  past : ∀ a < assoc, s.lru a ≤ s.lruMax
  distinct : ∀ a < assoc, ∀ b < assoc, s.tags a = s.tags b → s.tags a ≠ 0 → a = b

variable {assoc : Nat} {s : CacheSet} {ways : List Nat} {tag : Tag}

theorem Order.fresh (assoc : Nat) : Order assoc fresh (List.range assoc).reverse where
  perm := List.reverse_perm _
  sorted := by
    rw [List.pairwise_reverse]
    exact List.pairwise_lt_range.imp fun hlt => Or.inr ⟨rfl, hlt⟩
  past _ _ := Nat.le_refl 0
  distinct _ _ _ _ _ hne := absurd rfl hne

theorem Order.mem_iff (h : Order assoc s ways) {a : Nat} : a ∈ ways ↔ a < assoc := by
  rw [h.perm.mem_iff, List.mem_range]

theorem Order.nodup (h : Order assoc s ways) : ways.Nodup :=
  h.perm.nodup_iff.mpr List.nodup_range

theorem Order.length (h : Order assoc s ways) : ways.length = assoc := by
  rw [h.perm.length_eq, List.length_range]

/-- A way that is used comes to the front. -/
theorem Order.touch (h : Order assoc s ways) {idx : Nat} (hidx : idx ∈ ways) :
    Order assoc (s.touch idx) (idx :: ways.erase idx) := by
  have hother : ∀ b ∈ ways.erase idx, (s.touch idx).lru b = s.lru b := by
    intro b hb
    exact Function.update_of_ne ((h.nodup.mem_erase_iff.mp hb).1) _ _
  constructor
  · exact (List.perm_cons_erase hidx).symm.trans h.perm
  · refine List.pairwise_cons.mpr ⟨fun b hb => Or.inl ?_, ?_⟩
    · have hpast := h.past b (h.mem_iff.mp (List.mem_of_mem_erase hb))
      rw [hother b hb, touch_lru, Function.update_self]
      exact Nat.lt_succ_of_le hpast
    · refine (h.sorted.sublist List.erase_sublist).imp_of_mem fun {a b} ha hb hab => ?_
      rw [hother a ha, hother b hb]
      exact hab
  · intro a ha
    by_cases hne : a = idx
    · rw [hne, touch_lru, Function.update_self]
      exact Nat.le_refl _
    · rw [touch_lru, Function.update_of_ne hne]
      exact Nat.le_succ_of_le (h.past a ha)
  · exact h.distinct

/-- The first way with the least stamp is found. -/
theorem foldl_older {m v : Nat} (hv : v < m) (hleast : ∀ a < m, s.lru v ≤ s.lru a)
    (hfirst : ∀ a < v, s.lru v < s.lru a) :
    (List.range m).foldl s.older none = some (s.lru v, v) := by
  have hseen : ∀ m, (List.range m).foldl s.older none = none ∨
      ∃ a < m, ∃ i, (List.range m).foldl s.older none = some (s.lru a, i) := by
    intro m
    induction m with
    | zero => exact Or.inl rfl
    | succ m ih =>
      right
      rw [List.range_succ, List.foldl_append, List.foldl_cons, List.foldl_nil]
      rcases ih with hnone | ⟨a, ha, i, hsome⟩
      · rw [hnone]
        exact ⟨m, Nat.lt_succ_self m, m, rfl⟩
      · rw [hsome, older]
        split
        · exact ⟨m, Nat.lt_succ_self m, m, rfl⟩
        · exact ⟨a, Nat.lt_succ_of_lt ha, i, rfl⟩
  induction m with
  | zero => exact absurd hv (Nat.not_lt_zero v)
  | succ m ih =>
    rw [List.range_succ, List.foldl_append, List.foldl_cons, List.foldl_nil]
    by_cases hvm : v = m
    · subst hvm
      rcases hseen v with hnone | ⟨a, ha, i, hsome⟩
      · rw [hnone, older]
      · rw [hsome, older, if_pos (hfirst a ha)]
    · rw [ih (Nat.lt_of_le_of_ne (Nat.le_of_lt_succ hv) hvm) fun a ha => hleast a (Nat.lt_succ_of_lt ha),
        older, if_neg (Nat.not_lt.mpr (hleast m (Nat.lt_succ_self m)))]

/-- The way to replace is the last in order. -/
theorem Order.idxMin_eq {front : List Nat} {v : Nat} (h : Order assoc s (front ++ [v])) :
    s.idxMin assoc = v := by
  have hv : v < assoc := h.mem_iff.mp (List.mem_append_right _ (List.mem_singleton_self v))
  have hlast : ∀ a < assoc, a ≠ v → s.lru v < s.lru a ∨ s.lru a = s.lru v ∧ v < a := by
    intro a ha hne
    have hmem := h.mem_iff.mpr ha
    rw [List.mem_append, List.mem_singleton] at hmem
    exact (List.pairwise_append.mp h.sorted).2.2 a (hmem.resolve_right hne) v
      (List.mem_singleton_self v)
  rw [idxMin, foldl_older hv, Option.map_some, Option.getD_some]
  · intro a ha
    by_cases hne : a = v
    · rw [hne]
    · rcases hlast a ha hne with hlt | ⟨heq, -⟩
      · exact hlt.le
      · exact heq.ge
  · intro a ha
    rcases hlast a (ha.trans hv) (Nat.ne_of_lt ha) with hlt | ⟨-, hlt⟩
    · exact hlt
    · omega

/-- A lookup answers whether the tag is held, and brings it to the front of the tags. -/
theorem Order.find (h : Order assoc s ways) (hpos : 0 < assoc) (htag : tag ≠ 0) :
    (s.find assoc tag).1 = decide (tag ∈ ways.map s.tags) ∧
      ∃ ways', Order assoc (s.find assoc tag).2 ways' ∧
        ways'.map (s.find assoc tag).2.tags = (moveToFront (ways.map s.tags) tag).take assoc := by
  cases hfind : (List.range assoc).find? fun idx => s.tags idx = tag with
  | some idx =>
    have hresult : s.find assoc tag = (true, s.touch idx) := by rw [CacheSet.find, hfind]
    have hidx : s.tags idx = tag :=
      of_decide_eq_true (List.find?_some (p := fun idx => decide (s.tags idx = tag)) hfind)
    have hlt := List.mem_range.mp (List.mem_of_find?_eq_some hfind)
    have hmem := h.mem_iff.mpr hlt
    have hin : tag ∈ ways.map s.tags := List.mem_map.mpr ⟨idx, hmem, hidx⟩
    rw [hresult, decide_eq_true hin]
    refine ⟨rfl, idx :: ways.erase idx, h.touch hmem, ?_⟩
    have hinj : ∀ a ∈ ways, s.tags a = s.tags idx → a = idx := fun a ha heq =>
      h.distinct a (h.mem_iff.mp ha) idx hlt heq (by rw [heq, hidx]; exact htag)
    have hmap := LruStack.map_moveToFront hinj
    rw [hidx] at hmap
    have hlen : (moveToFront (ways.map s.tags) tag).length = assoc := by
      rw [moveToFront, List.length_cons, List.length_erase_of_mem hin, List.length_map, h.length]
      omega
    rw [List.take_of_length_le hlen.le, ← hmap]
    rfl
  | none =>
    have hresult : s.find assoc tag =
        (false, { s with tags := Function.update s.tags (s.idxMin assoc) tag }.touch
          (s.idxMin assoc)) := by rw [CacheSet.find, hfind]
    have hout : ∀ a < assoc, s.tags a ≠ tag := by
      intro a ha heq
      have hno := List.find?_eq_none.mp hfind a (List.mem_range.mpr ha)
      exact hno (decide_eq_true heq)
    have hnot : tag ∉ ways.map s.tags := by
      intro hin
      obtain ⟨a, ha, heq⟩ := List.mem_map.mp hin
      exact hout a (h.mem_iff.mp ha) heq
    have hne : ways ≠ [] := by
      rw [← List.length_pos_iff, h.length]
      exact hpos
    obtain ⟨front, v, rfl⟩ : ∃ front v, ways = front ++ [v] :=
      ⟨_, _, (List.dropLast_append_getLast hne).symm⟩
    have hv : v ∈ front ++ [v] := List.mem_append_right _ (List.mem_singleton_self v)
    have hmin := h.idxMin_eq
    have hfront : v ∉ front := fun hin =>
      (List.nodup_append.mp h.nodup).2.2 v hin v (List.mem_singleton_self v) rfl
    have hplaced : Order assoc { s with tags := Function.update s.tags v tag } (front ++ [v]) := by
      refine ⟨h.perm, h.sorted, h.past, fun a ha b hb heq hnz => ?_⟩
      by_cases hav : a = v
      · by_cases hbv : b = v
        · rw [hav, hbv]
        · simp only [hav, Function.update_self, Function.update_of_ne hbv] at heq
          exact absurd heq.symm (hout b hb)
      · by_cases hbv : b = v
        · simp only [hbv, Function.update_self, Function.update_of_ne hav] at heq
          exact absurd heq (hout a ha)
        · simp only [Function.update_of_ne hav, Function.update_of_ne hbv] at heq hnz
          exact h.distinct a ha b hb heq hnz
    rw [hresult, hmin, decide_eq_false hnot]
    refine ⟨rfl, v :: (front ++ [v]).erase v, hplaced.touch hv, ?_⟩
    have hkept : front.map (Function.update s.tags v tag) = front.map s.tags := by
      refine List.map_congr_left fun a ha => Function.update_of_ne ?_ _ _
      rintro rfl
      exact hfront ha
    have hlen := h.length
    rw [List.length_append, List.length_singleton] at hlen
    rw [List.erase_append_right _ hfront, List.erase_cons_head, List.append_nil, moveToFront,
      List.erase_of_not_mem hnot, List.map_append, ← hlen, List.take_succ_cons,
      List.take_left' (by rw [List.length_map]), List.map_cons]
    exact congrArg₂ List.cons (Function.update_self _ _ _) hkept

end CacheSet

end Sniper.FastNehalem
