import Mathlib.Data.Fintype.Card
import Mathlib.Data.Finset.Card
import Mathlib.Order.Bounds.Basic
import Mathlib.Order.Lattice
set_option autoImplicit false

/-! Requests served in order by units that each serve one request at a time. -/

namespace Sniper.Lib.Servers

variable {T : Type} [LinearOrder T]

/-- How many requests are still in service after `s`, by the times at which they end. -/
def inService (ends : List T) (s : T) : Nat := ends.countP fun e => decide (s < e)

@[simp] theorem inService_nil (s : T) : inService ([] : List T) s = 0 := rfl

theorem inService_cons (e : T) (ends : List T) (s : T) :
    inService (e :: ends) s = inService ends s + if s < e then 1 else 0 := by
  simp [inService, List.countP_cons]

variable {n : Nat}

/-- How many units are busy after `s`, by the times at which they become free. -/
def busy (units : Fin n → T) (s : T) : Nat := (Finset.univ.filter fun i => s < units i).card

theorem busy_le (units : Fin n → T) (s : T) : busy units s ≤ n := by
  have h := Finset.card_filter_le (Finset.univ : Finset (Fin n)) fun i => s < units i
  rwa [Finset.card_univ, Fintype.card_fin] at h

theorem busy_lt_iff (units : Fin n → T) (s : T) : busy units s < n ↔ ∃ i, units i ≤ s := by
  have hall : busy units s = n ↔ ∀ i, s < units i := by
    have h := Finset.card_filter_eq_iff (s := Finset.univ) (p := fun i => s < units i)
    simp only [Finset.card_univ, Fintype.card_fin, Finset.mem_univ, true_imp_iff] at h
    exact h
  constructor
  · intro hlt
    by_contra hnone
    push Not at hnone
    exact absurd (hall.mpr hnone) hlt.ne
  · rintro ⟨i, hi⟩
    exact lt_of_le_of_ne (busy_le units s) fun h => absurd (hall.mp h i) (not_lt.mpr hi)

/-- One unit is booked until `e`. -/
theorem busy_update (units : Fin n → T) (i : Fin n) (e s : T) :
    (busy (Function.update units i e) s + if s < units i then 1 else 0) =
      busy units s + if s < e then 1 else 0 := by
  have hcount : ∀ f : Fin n → T,
      busy f s = ((Finset.univ.erase i).filter fun j => s < f j).card + if s < f i then 1 else 0 := by
    intro f
    rw [busy, ← Finset.insert_erase (Finset.mem_univ i), Finset.filter_insert,
      Finset.erase_insert_eq_erase, Finset.erase_idem]
    split
    · rw [Finset.card_insert_of_notMem (by simp)]
    · simp
  have hsame : ((Finset.univ.erase i).filter fun j => s < Function.update units i e j) =
      (Finset.univ.erase i).filter fun j => s < units j := by
    apply Finset.filter_congr
    intro j hj
    rw [Function.update_of_ne (Finset.ne_of_mem_erase hj)]
  rw [hcount, hcount units, hsame, Function.update_self]
  omega

/-- A unit for a request that comes at `t`: a free one, or else the first one to become free. -/
def Takes (units : Fin n → T) (t : T) (i : Fin n) : Prop := t < units i → ∀ j, units i ≤ units j

/-- From `t` on, a unit is busy for each request in service, as far as there are units. -/
def Tracks (units : Fin n → T) (ends : List T) (t : T) : Prop :=
  ∀ s, t ≤ s → busy units s = min n (inService ends s)

namespace Tracks

variable {units : Fin n → T} {ends : List T} {t : T}

theorem mono (h : Tracks units ends t) {t' : T} (ht : t ≤ t') : Tracks units ends t' :=
  fun s hs => h s (ht.trans hs)

theorem idle (units : Fin n → T) (hu : ∀ i, units i ≤ t) : Tracks units [] t := by
  intro s hs
  have hnone : busy units s = 0 := by
    rw [busy, Finset.card_eq_zero, Finset.filter_eq_empty_iff]
    intro i _
    exact not_lt.mpr ((hu i).trans hs)
  rw [hnone, inService_nil, Nat.min_zero]

/-- The request begins at the first time, from its own on, at which fewer requests than there are
units are still in service. -/
theorem isLeast (h : Tracks units ends t) {i : Fin n} (hi : Takes units t i) :
    IsLeast {s | t ≤ s ∧ inService ends s < n} (max t (units i)) := by
  have hfree : ∀ s, t ≤ s → (inService ends s < n ↔ ∃ j, units j ≤ s) := by
    intro s hs
    rw [← busy_lt_iff, h s hs]
    omega
  refine ⟨⟨le_max_left _ _, (hfree _ (le_max_left _ _)).mpr ⟨i, le_max_right _ _⟩⟩, ?_⟩
  rintro s ⟨hs, hlt⟩
  obtain ⟨j, hj⟩ := (hfree s hs).mp hlt
  refine max_le hs ?_
  rcases lt_or_ge t (units i) with hbusy | hfree
  · exact (hi hbusy j).trans hj
  · exact hfree.trans hs

/-- The unit is booked until the request has been served. -/
theorem serve (h : Tracks units ends t) {i : Fin n} (hi : Takes units t i) {e : T}
    (he : max t (units i) ≤ e) : Tracks (Function.update units i e) (e :: ends) t := by
  intro s hs
  have hupdate := busy_update units i e s
  have hcons := inService_cons e ends s
  have hold := h s hs
  rcases lt_or_ge s (units i) with hlt | hge
  · -- every unit is busy at `s`, before and after
    have hall : ¬busy units s < n := by
      rw [busy_lt_iff]
      rintro ⟨j, hj⟩
      exact absurd ((hi (hs.trans_lt hlt) j).trans hj) (not_le.mpr hlt)
    have hse : s < e := hlt.trans_le ((le_max_right _ _).trans he)
    simp only [hlt, hse, if_true] at hupdate hcons
    omega
  · have hidle : busy units s < n := (busy_lt_iff units s).mpr ⟨i, hge⟩
    simp only [not_lt.mpr hge, if_false, Nat.add_zero] at hupdate
    split at hupdate
    case isTrue hse =>
      rw [if_pos hse] at hcons
      omega
    case isFalse hse =>
      rw [if_neg hse] at hcons
      omega

end Tracks

/-- Each request began, the last one first, when fewer than `n` of those before it were in
service. -/
inductive Served (n : Nat) : List (T × T) → Prop where
  | nil : Served n []
  | cons {b e : T} {spans : List (T × T)} (h : inService (spans.map Prod.snd) b < n)
      (hs : Served n spans) : Served n ((b, e) :: spans)

/-- At no time are more than `n` requests in service. -/
theorem Served.overlap {spans : List (T × T)} (h : Served n spans) (x : T) :
    spans.countP (fun span => decide (span.1 ≤ x) && decide (x < span.2)) ≤ n := by
  induction h with
  | nil => simp
  | @cons b e spans hb _ ih =>
    rw [List.countP_cons]
    split
    case isFalse => exact ih
    case isTrue hx =>
      obtain ⟨hbx, -⟩ : b ≤ x ∧ x < e := by simpa using hx
      have hle : spans.countP (fun span => decide (span.1 ≤ x) && decide (x < span.2)) ≤
          inService (spans.map Prod.snd) b := by
        rw [inService, List.countP_map]
        apply List.countP_mono_left
        intro span _ hspan
        simp only [Bool.and_eq_true, decide_eq_true_eq] at hspan
        simpa using hbx.trans_lt hspan.2
      omega

end Sniper.Lib.Servers
