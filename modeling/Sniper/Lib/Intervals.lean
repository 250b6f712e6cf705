import Mathlib.Order.Basic
import Mathlib.Data.List.Basic
set_option autoImplicit false

/-! Free intervals in order, and the slots taken out of them. -/

namespace Sniper.Lib.Intervals

variable {T : Type} [Preorder T]

/-- One of the two ends before the other begins. -/
def Apart (a b : T × T) : Prop := a.2 ≤ b.1 ∨ b.2 ≤ a.1

def Inside (a b : T × T) : Prop := b.1 ≤ a.1 ∧ a.2 ≤ b.2

theorem Apart.symm {a b : T × T} (h : Apart a b) : Apart b a := Or.symm h

theorem Apart.inside {a b c : T × T} (h : Apart a b) (hc : Inside c b) : Apart a c := by
  rcases h with hbefore | hafter
  · exact .inl (hbefore.trans hc.1)
  · exact .inr (hc.2.trans hafter)

/-- Intervals from left to right, each one over before the next begins. -/
structure Ordered (l : List (T × T)) : Prop where
  valid : ∀ i ∈ l, i.1 ≤ i.2
  sorted : l.Pairwise fun i j => i.2 ≤ j.1

namespace Ordered

theorem nil : Ordered ([] : List (T × T)) := ⟨fun _ h => absurd h List.not_mem_nil, .nil⟩

theorem singleton {i : T × T} (h : i.1 ≤ i.2) : Ordered [i] :=
  ⟨fun _ hj => by rwa [List.mem_singleton.mp hj], List.pairwise_singleton _ _⟩

theorem sublist {l l' : List (T × T)} (h : Ordered l) (hl : l'.Sublist l) : Ordered l' :=
  ⟨fun i hi => h.valid i (hl.subset hi), h.sorted.sublist hl⟩

theorem append {l l' : List (T × T)} (h : Ordered l) (h' : Ordered l')
    (hl : ∀ i ∈ l, ∀ j ∈ l', i.2 ≤ j.1) : Ordered (l ++ l') := by
  refine ⟨?_, List.pairwise_append.mpr ⟨h.sorted, h'.sorted, hl⟩⟩
  intro i hi
  rcases List.mem_append.mp hi with hi | hi
  · exact h.valid i hi
  · exact h'.valid i hi

/-- An interval gives way to pieces of it. -/
theorem replace {front back pieces : List (T × T)} {i : T × T} (h : Ordered (front ++ i :: back))
    (hp : Ordered pieces) (hin : ∀ p ∈ pieces, Inside p i) : Ordered (front ++ pieces ++ back) := by
  obtain ⟨hfront, hback, hcross⟩ := List.pairwise_append.mp h.sorted
  obtain ⟨hi, hback⟩ := List.pairwise_cons.mp hback
  have hleft : Ordered front := h.sublist (List.sublist_append_left _ _)
  have hright : Ordered back :=
    h.sublist ((List.sublist_cons_self _ _).trans (List.sublist_append_right _ _))
  refine (hleft.append hp ?_).append hright ?_
  · intro f hf p hpm
    exact (hcross f hf i List.mem_cons_self).trans (hin p hpm).1
  · intro j hj b hb
    rcases List.mem_append.mp hj with hj | hj
    · exact hcross j hj b (List.mem_cons_of_mem _ hb)
    · exact (hin j hj).2.trans (hi b hb)

end Ordered

/-- Free intervals in order, and slots apart from each other and from all of them. -/
structure Allocated (free slots : List (T × T)) : Prop where
  ordered : Ordered free
  disjoint : slots.Pairwise Apart
  apart : ∀ slot ∈ slots, ∀ i ∈ free, Apart slot i

namespace Allocated

variable {free slots : List (T × T)}

theorem sublist (h : Allocated free slots) {free' : List (T × T)} (hl : free'.Sublist free) :
    Allocated free' slots :=
  ⟨h.ordered.sublist hl, h.disjoint, fun slot hs i hi => h.apart slot hs i (hl.subset hi)⟩

/-- A slot is taken inside a free interval, of which pieces apart from it are left. -/
theorem take {front back pieces : List (T × T)} {i slot : T × T}
    (h : Allocated (front ++ i :: back) slots) (hslot : Inside slot i) (hp : Ordered pieces)
    (hin : ∀ p ∈ pieces, Inside p i) (hapart : ∀ p ∈ pieces, Apart slot p) :
    Allocated (front ++ pieces ++ back) (slot :: slots) := by
  obtain ⟨-, hback, hcross⟩ := List.pairwise_append.mp h.ordered.sorted
  obtain ⟨hi, -⟩ := List.pairwise_cons.mp hback
  have himem : i ∈ front ++ i :: back := List.mem_append_right _ List.mem_cons_self
  refine ⟨h.ordered.replace hp hin, ?_, ?_⟩
  · refine List.pairwise_cons.mpr ⟨fun g hg => ?_, h.disjoint⟩
    exact ((h.apart g hg i himem).inside hslot).symm
  · intro g hg j hj
    rw [List.append_assoc, List.mem_append, List.mem_append] at hj
    rcases List.mem_cons.mp hg with rfl | hg
    · rcases hj with hj | hj | hj
      · exact .inr ((hcross j hj i List.mem_cons_self).trans hslot.1)
      · exact hapart j hj
      · exact .inl (hslot.2.trans (hi j hj))
    · rcases hj with hj | hj | hj
      · exact h.apart g hg j (List.mem_append_left _ hj)
      · exact (h.apart g hg i himem).inside (hin j hj)
      · exact h.apart g hg j (List.mem_append_right _ (List.mem_cons_of_mem _ hj))

end Allocated

end Sniper.Lib.Intervals
