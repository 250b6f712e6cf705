import Mathlib.Data.List.Nodup
import Mathlib.Logic.Function.Basic
set_option autoImplicit false

/-! Entries picked from a queue, and a family of queues in which every waiter stands at most
once. -/

namespace Sniper.Lib

section Picking

variable {α : Type} {p : α → Bool}

/-- The first `n` entries that match, and the rest. -/
def pick (p : α → Bool) : Nat → List α → List α × List α
  | 0, l => ([], l)
  | _ + 1, [] => ([], [])
  | n + 1, a :: l =>
    if p a then (a :: (pick p n l).1, (pick p n l).2)
    else ((pick p (n + 1) l).1, a :: (pick p (n + 1) l).2)

theorem pick_fst (p : α → Bool) (n : Nat) (l : List α) : (pick p n l).1 = (l.filter p).take n := by
  induction l generalizing n with
  | nil => cases n <;> rfl
  | cons a l ih =>
    cases n with
    | zero => rfl
    | succ n => by_cases hp : p a = true <;> simp [pick, hp, ih]

theorem pick_snd_sublist (p : α → Bool) (n : Nat) (l : List α) : (pick p n l).2.Sublist l := by
  induction l generalizing n with
  | nil => cases n <;> simp [pick]
  | cons a l ih =>
    cases n with
    | zero => exact List.Sublist.refl _
    | succ n =>
      by_cases hp : p a = true
      · simpa [pick, hp] using (ih n).cons a
      · simpa [pick, hp] using (ih (n + 1)).cons_cons a

theorem pick_perm (p : α → Bool) (n : Nat) (l : List α) :
    ((pick p n l).1 ++ (pick p n l).2).Perm l := by
  induction l generalizing n with
  | nil => cases n <;> simp [pick]
  | cons a l ih =>
    cases n with
    | zero => exact List.Perm.refl _
    | succ n =>
      by_cases hp : p a = true
      · simpa [pick, hp] using ih n
      · simpa [pick, hp] using List.perm_middle.trans ((ih (n + 1)).cons a)

/-- One entry at a time. -/
theorem pick_succ {n : Nat} {l : List α} :
    pick p (n + 1) l =
      match l.find? p with
      | none => ([], l)
      | some a => (a :: (pick p n (l.eraseP p)).1, (pick p n (l.eraseP p)).2) := by
  induction l generalizing n with
  | nil => rfl
  | cons a l ih =>
    by_cases hp : p a = true
    · simp [pick, hp]
    · rw [pick, if_neg hp, ih, List.find?_cons_of_neg hp, List.eraseP_cons_of_neg hp]
      cases hf : l.find? p with
      | none => rfl
      | some b =>
        dsimp only
        cases n with
        | zero => simp [pick]
        | succ n => rw [pick, if_neg hp]

/-- If the first entries all match, they are picked. -/
theorem pick_eq_take {n : Nat} {l : List α} (h : ∀ a ∈ l.take n, p a = true) :
    pick p n l = (l.take n, l.drop n) := by
  induction l generalizing n with
  | nil => cases n <;> simp [pick]
  | cons a l ih =>
    cases n with
    | zero => rfl
    | succ n =>
      have hp : p a = true := h a (by simp)
      have hl := ih (n := n) fun b hb => h b (by simp [hb])
      simp [pick, hp, hl]

/-- If the entries picked by a weaker test pass the stronger one, it picks them too. -/
theorem pick_congr {q : α → Bool} {n : Nat} {l : List α} (hqp : ∀ a, q a = true → p a = true)
    (h : ∀ a ∈ (pick p n l).1, q a = true) : pick q n l = pick p n l := by
  induction l generalizing n with
  | nil => cases n <;> rfl
  | cons a l ih =>
    cases n with
    | zero => rfl
    | succ n =>
      by_cases hp : p a = true
      · simp only [pick, hp, if_true] at h ⊢
        rw [if_pos (h a (by simp)), ih fun b hb => h b (by simp [hb])]
      · have hq : ¬q a = true := fun hq => hp (hqp a hq)
        simp only [pick, hp, hq, if_false, Bool.false_eq_true] at h ⊢
        rw [ih h]

/-- The first match, taken out of the list. -/
theorem find?_split {a : α} {l : List α} (h : l.find? p = some a) :
    ∃ before after, l = before ++ a :: after ∧ l.eraseP p = before ++ after := by
  obtain ⟨hp, before, after, rfl, hbefore⟩ := List.find?_eq_some_iff_append.mp h
  refine ⟨before, after, rfl, ?_⟩
  rw [List.eraseP_append_right _ (by simpa using hbefore), List.eraseP_cons_of_pos hp]

end Picking

section Ahead

variable {α : Type} [DecidableEq α] {w : α} {l l' more : List α}

/-- Those before an entry. -/
def ahead (w : α) (l : List α) : List α := l.takeWhile fun a => a ≠ w

theorem ahead_cons_self (w : α) (l : List α) : ahead w (w :: l) = [] := by
  simp [ahead]

theorem ahead_cons_of_ne {a : α} (h : a ≠ w) (l : List α) : ahead w (a :: l) = a :: ahead w l := by
  simp [ahead, h]

theorem ahead_append (hw : w ∈ l) (more : List α) : ahead w (l ++ more) = ahead w l := by
  induction l with
  | nil => cases hw
  | cons a l ih =>
    by_cases ha : a = w
    · subst ha
      rw [List.cons_append, ahead_cons_self, ahead_cons_self]
    · have hmem := (List.mem_cons.mp hw).resolve_left (Ne.symm ha)
      rw [List.cons_append, ahead_cons_of_ne ha, ahead_cons_of_ne ha, ih hmem]

/-- Entries that leave do not put others before one that stays. -/
theorem ahead_sublist (h : l'.Sublist l) (hnodup : l.Nodup) (hw : w ∈ l') :
    (ahead w l').Sublist (ahead w l) := by
  induction h with
  | slnil => cases hw
  | cons a h ih =>
    obtain ⟨hnew, hnodup⟩ := List.nodup_cons.mp hnodup
    have hne : a ≠ w := by
      rintro rfl
      exact hnew (h.subset hw)
    rw [ahead_cons_of_ne hne]
    exact (ih hnodup hw).cons a
  | cons_cons a h ih =>
    obtain ⟨-, hnodup⟩ := List.nodup_cons.mp hnodup
    by_cases ha : a = w
    · subst ha
      rw [ahead_cons_self, ahead_cons_self]
    · rw [ahead_cons_of_ne ha, ahead_cons_of_ne ha]
      exact (ih hnodup ((List.mem_cons.mp hw).resolve_left (Ne.symm ha))).cons_cons a

/-- The first match leaves, and it is not the entry: it was before it. -/
theorem countP_ahead_eraseP {p q : α → Bool} (hpq : ∀ a, p a = true → q a = true) (hp : p w = true)
    (hnodup : l.Nodup) (hw : w ∈ l.eraseP p) :
    (ahead w (l.eraseP p)).countP q + 1 = (ahead w l).countP q := by
  induction l with
  | nil => cases hw
  | cons a l ih =>
    obtain ⟨hnew, hnodup⟩ := List.nodup_cons.mp hnodup
    by_cases ha : p a = true
    · rw [List.eraseP_cons_of_pos ha] at hw ⊢
      have hne : a ≠ w := by
        rintro rfl
        exact hnew hw
      rw [ahead_cons_of_ne hne, List.countP_cons_of_pos (hpq a ha)]
    · have hne : a ≠ w := by
        rintro rfl
        exact ha hp
      rw [List.eraseP_cons_of_neg ha] at hw ⊢
      have hmem := (List.mem_cons.mp hw).resolve_left (Ne.symm hne)
      rw [ahead_cons_of_ne hne, ahead_cons_of_ne hne, List.countP_cons, List.countP_cons,
        Nat.add_right_comm, ih hnodup hmem]

theorem countP_ahead_lt {q : α → Bool} (hq : q w = true) (hw : w ∈ l) :
    (ahead w l).countP q < l.countP q := by
  induction l with
  | nil => cases hw
  | cons a l ih =>
    by_cases ha : a = w
    · subst ha
      rw [ahead_cons_self, List.countP_cons_of_pos hq]
      exact Nat.succ_pos _
    · have hmem := (List.mem_cons.mp hw).resolve_left (Ne.symm ha)
      rw [ahead_cons_of_ne ha, List.countP_cons, List.countP_cons]
      exact Nat.add_lt_add_right (ih hmem) _
end Ahead

variable {κ α τ : Type} [DecidableEq κ] {key : α → τ} {queues : κ → List α}

/-- The waiter stands in some queue. -/
def Waits (key : α → τ) (queues : κ → List α) (t : τ) : Prop := ∃ q, ∃ a ∈ queues q, key a = t

/-- No waiter stands in two queues, nor twice in one. -/
structure Apart (key : α → τ) (queues : κ → List α) : Prop where
  once : ∀ q, ((queues q).map key).Nodup
  alone : ∀ q q' a b, a ∈ queues q → b ∈ queues q' → key a = key b → q = q'

theorem waits_enqueue {q : κ} {a : α} {t : τ} :
    Waits key (Function.update queues q (queues q ++ [a])) t ↔ Waits key queues t ∨ key a = t := by
  constructor
  · rintro ⟨q', b, hb, hkey⟩
    by_cases hq : q' = q
    · subst hq
      rw [Function.update_self, List.mem_append, List.mem_singleton] at hb
      rcases hb with hb | rfl
      · exact .inl ⟨_, b, hb, hkey⟩
      · exact .inr hkey
    · rw [Function.update_of_ne hq] at hb
      exact .inl ⟨q', b, hb, hkey⟩
  · rintro (⟨q', b, hb, hkey⟩ | hkey)
    · refine ⟨q', b, ?_, hkey⟩
      by_cases hq : q' = q
      · subst hq
        simp [hb]
      · rwa [Function.update_of_ne hq]
    · exact ⟨q, a, by simp, hkey⟩

/-- A waiter that stands nowhere may join the end of a queue. -/
theorem Apart.enqueue {q : κ} {a : α} (h : Apart key queues) (hnew : ¬Waits key queues (key a)) :
    Apart key (Function.update queues q (queues q ++ [a])) := by
  constructor
  · intro q'
    by_cases hq : q' = q
    · subst hq
      rw [Function.update_self, List.map_append, List.map_singleton, List.nodup_append]
      refine ⟨h.once _, List.nodup_singleton _, ?_⟩
      rintro x hx y hy rfl
      obtain ⟨b, hb, hkey⟩ := List.mem_map.mp hx
      rw [List.mem_singleton] at hy
      exact hnew ⟨_, b, hb, hkey.trans hy⟩
    · rw [Function.update_of_ne hq]
      exact h.once q'
  · have hmem : ∀ q' b, b ∈ Function.update queues q (queues q ++ [a]) q' →
        b ∈ queues q' ∨ b = a ∧ q' = q := by
      intro q' b hb
      by_cases hq : q' = q
      · subst hq
        simpa using hb
      · rw [Function.update_of_ne hq] at hb
        exact .inl hb
    intro q₁ q₂ b c hb hc hkey
    rcases hmem _ _ hb with hb | ⟨hb, hq₁⟩
    · rcases hmem _ _ hc with hc | ⟨hc, -⟩
      · exact h.alone _ _ _ _ hb hc hkey
      · rw [hc] at hkey
        exact absurd ⟨_, b, hb, hkey⟩ hnew
    · rcases hmem _ _ hc with hc | ⟨-, hq₂⟩
      · rw [hb] at hkey
        exact absurd ⟨_, c, hc, hkey.symm⟩ hnew
      · rw [hq₁, hq₂]

/-- The waiters may leave a queue from any place. -/
theorem Apart.sublist {q : κ} {rest : List α} (h : Apart key queues) (hrest : rest.Sublist (queues q)) :
    Apart key (Function.update queues q rest) := by
  have hmem : ∀ q' b, b ∈ Function.update queues q rest q' → b ∈ queues q' := by
    intro q' b hb
    by_cases hq : q' = q
    · subst hq
      rw [Function.update_self] at hb
      exact hrest.subset hb
    · rwa [Function.update_of_ne hq] at hb
  constructor
  · intro q'
    by_cases hq : q' = q
    · subst hq
      rw [Function.update_self]
      exact (h.once _).sublist (hrest.map key)
    · rw [Function.update_of_ne hq]
      exact h.once q'
  · exact fun q₁ q₂ b c hb hc => h.alone _ _ _ _ (hmem _ _ hb) (hmem _ _ hc)

theorem Apart.dequeue {q : κ} {before after : List α} {a : α} (h : Apart key queues)
    (hq : queues q = before ++ a :: after) :
    Apart key (Function.update queues q (before ++ after)) := by
  apply h.sublist
  rw [hq]
  simp

/-- After one waiter has left, all but it wait as before. -/
theorem waits_dequeue {q : κ} {before after : List α} {a : α} {t : τ} (h : Apart key queues)
    (hq : queues q = before ++ a :: after) :
    Waits key (Function.update queues q (before ++ after)) t ↔ Waits key queues t ∧ key a ≠ t := by
  have ha : a ∈ queues q := by simp [hq]
  have hout : ∀ b ∈ before ++ after, key a ≠ key b := by
    have honce := h.once q
    rw [hq, List.map_append, List.map_cons, List.nodup_middle, List.nodup_cons,
      ← List.map_append] at honce
    intro b hb hkey
    exact honce.1 (List.mem_map.mpr ⟨b, hb, hkey.symm⟩)
  constructor
  · rintro ⟨q', b, hb, rfl⟩
    by_cases hqq : q' = q
    · subst hqq
      rw [Function.update_self] at hb
      refine ⟨⟨q', b, ?_, rfl⟩, hout b hb⟩
      rw [hq]
      simp only [List.mem_append, List.mem_cons] at hb ⊢
      tauto
    · rw [Function.update_of_ne hqq] at hb
      exact ⟨⟨q', b, hb, rfl⟩, fun hkey => hqq (h.alone _ _ _ _ hb ha hkey.symm)⟩
  · rintro ⟨⟨q', b, hb, rfl⟩, hne⟩
    refine ⟨q', b, ?_, rfl⟩
    by_cases hqq : q' = q
    · subst hqq
      rw [Function.update_self]
      rw [hq] at hb
      simp only [List.mem_append, List.mem_cons] at hb ⊢
      rcases hb with hb | rfl | hb
      · exact .inl hb
      · exact absurd rfl hne
      · exact .inr hb
    · rwa [Function.update_of_ne hqq]

end Sniper.Lib
