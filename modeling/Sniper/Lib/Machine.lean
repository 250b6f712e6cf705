import Mathlib.Algebra.GroupWithZero.Nat
set_option autoImplicit false

namespace Sniper.Lib

/-- A labelled transition system: an input is answered by an output and a next state. -/
structure Machine (σ ι ο : Type) where
  init : σ → Prop
  step : σ → ι → ο → σ → Prop

/-- Runs whose every step meets the condition `ok` on the state before it. -/
inductive Run {σ ι ο : Type} (M : Machine σ ι ο) (ok : σ → ι → Prop) : List (ι × ο) → σ → Prop where
  | start {s : σ} : M.init s → Run M ok [] s
  | next {tr : List (ι × ο)} {s s' : σ} {i : ι} {o : ο} :
      Run M ok tr s → ok s i → M.step s i o s' → Run M ok (tr ++ [(i, o)]) s'

def anyStep {σ ι : Type} : σ → ι → Prop := fun _ _ => True

def Reachable {σ ι ο : Type} (M : Machine σ ι ο) (s : σ) : Prop := ∃ tr, Run M anyStep tr s

theorem Run.weaken {σ ι ο : Type} {M : Machine σ ι ο} {ok ok' : σ → ι → Prop}
    (himp : ∀ s i, ok s i → ok' s i) {tr : List (ι × ο)} {s : σ} (h : Run M ok tr s) :
    Run M ok' tr s := by
  induction h with
  | start h => exact .start h
  | next _ hok hstep ih => exact .next ih (himp _ _ hok) hstep

theorem Run.reachable {σ ι ο : Type} {M : Machine σ ι ο} {ok : σ → ι → Prop}
    {tr : List (ι × ο)} {s : σ} (h : Run M ok tr s) : Reachable M s :=
  ⟨tr, h.weaken (fun _ _ _ => trivial)⟩

theorem Run.last {σ ι ο : Type} {M : Machine σ ι ο} {ok : σ → ι → Prop} {tr : List (ι × ο)}
    {i : ι} {o : ο} {s' : σ} (h : Run M ok (tr ++ [(i, o)]) s') :
    ∃ s, Run M ok tr s ∧ ok s i ∧ M.step s i o s' := by
  generalize htr : tr ++ [(i, o)] = tr' at h
  cases h with
  | start h => simp at htr
  | next hrun hok hstep =>
    obtain ⟨rfl, heq⟩ := List.append_inj' htr rfl
    simp only [List.cons.injEq, Prod.mk.injEq, and_true] at heq
    obtain ⟨rfl, rfl⟩ := heq
    exact ⟨_, hrun, hok, hstep⟩

/-- What holds at the start and survives every permitted step holds along the run. -/
theorem Run.invariant {σ ι ο : Type} {M : Machine σ ι ο} {ok : σ → ι → Prop} {I : σ → Prop}
    (hinit : ∀ s, M.init s → I s)
    (hstep : ∀ s i o s', I s → ok s i → M.step s i o s' → I s')
    {tr : List (ι × ο)} {s : σ} (h : Run M ok tr s) : I s := by
  induction h with
  | start h => exact hinit _ h
  | next _ hok hstep' ih => exact hstep _ _ _ _ ih hok hstep'

/-- What one step brings about holds as long as no later step ends it. -/
theorem Run.since {σ ι ο : Type} {M : Machine σ ι ο} {ok : σ → ι → Prop} {I P : σ → Prop}
    {B E : ι × ο → Prop} (hinit : ∀ s, M.init s → I s)
    (hstep : ∀ s i o s', I s → ok s i → M.step s i o s' → I s' ∧ (B (i, o) → P s') ∧
      (P s → ¬E (i, o) → P s'))
    {tr : List (ι × ο)} {s : σ} (h : Run M ok tr s) :
    I s ∧ ∀ before e after, tr = before ++ e :: after → B e → (∀ e' ∈ after, ¬E e') → P s := by
  induction h with
  | start h =>
    refine ⟨hinit _ h, fun before e after htr => ?_⟩
    simp at htr
  | next _ hok hstep' ih =>
    obtain ⟨hI, hlater⟩ := ih
    obtain ⟨hI', hbrings, hkeeps⟩ := hstep _ _ _ _ hI hok hstep'
    refine ⟨hI', fun before e after htr he hends => ?_⟩
    rcases List.eq_nil_or_concat after with rfl | ⟨after, e', rfl⟩
    · obtain ⟨-, heq⟩ := List.append_inj' htr rfl
      rw [List.cons.injEq] at heq
      rw [heq.1] at hbrings
      exact hbrings he
    · rw [List.concat_eq_append, ← List.cons_append, ← List.append_assoc] at htr
      obtain ⟨htr, heq⟩ := List.append_inj' htr rfl
      rw [List.cons.injEq] at heq
      rw [heq.1] at hkeeps
      refine hkeeps (hlater before e after htr he fun e'' he'' => ?_) ?_
      · exact hends e'' (by simp [he''])
      · exact hends e' (by simp)

theorem Reachable.invariant {σ ι ο : Type} {M : Machine σ ι ο} {I : σ → Prop}
    (hinit : ∀ s, M.init s → I s) (hstep : ∀ s i o s', I s → M.step s i o s' → I s')
    {s : σ} (h : Reachable M s) : I s := by
  obtain ⟨tr, h⟩ := h
  exact h.invariant hinit (fun s i o s' hI _ => hstep s i o s' hI)

/-- Forward simulation along an abstraction function: every permitted run is a run, with
the same inputs and outputs, of the abstract machine. -/
theorem Run.refines {σ τ ι ο : Type} {M : Machine σ ι ο} {A : Machine τ ι ο}
    {ok : σ → ι → Prop} {I : σ → Prop} (abs : σ → τ)
    (hinit : ∀ s, M.init s → I s ∧ A.init (abs s))
    (hstep : ∀ s i o s', I s → ok s i → M.step s i o s' → I s' ∧ A.step (abs s) i o (abs s'))
    {tr : List (ι × ο)} {s : σ} (h : Run M ok tr s) : I s ∧ Run A anyStep tr (abs s) := by
  induction h with
  | start h => exact ⟨(hinit _ h).1, .start (hinit _ h).2⟩
  | next _ hok hstep' ih =>
    obtain ⟨hI, hrun⟩ := ih
    obtain ⟨hI', hA⟩ := hstep _ _ _ _ hI hok hstep'
    exact ⟨hI', .next hrun trivial hA⟩

theorem except_bind_eq_ok {ε α β : Type} {x : Except ε α} {f : α → Except ε β} {y : β} :
    x >>= f = .ok y ↔ ∃ a, x = .ok a ∧ f a = .ok y := by
  cases x with
  | error e => simp [bind, Except.bind]
  | ok a => simp [bind, Except.bind]

theorem except_bind_eq_error {ε α β : Type} {x : Except ε α} {f : α → Except ε β} {e : ε} :
    x >>= f = .error e ↔ x = .error e ∨ ∃ a, x = .ok a ∧ f a = .error e := by
  cases x with
  | error e => simp [bind, Except.bind]
  | ok a => simp [bind, Except.bind]

theorem mapM_ok_iff {ε α β : Type} {f : α → Except ε β} {l : List α} :
    (∃ results, l.mapM f = .ok results) ↔ ∀ a ∈ l, ∃ b, f a = .ok b := by
  induction l with
  | nil => exact ⟨fun _ a ha => absurd ha List.not_mem_nil, fun _ => ⟨[], List.mapM_nil⟩⟩
  | cons a l ih =>
    rw [List.mapM_cons, List.forall_mem_cons, ← ih]
    constructor
    · rintro ⟨results, h⟩
      obtain ⟨b, hb, h⟩ := except_bind_eq_ok.mp h
      obtain ⟨rest, hrest, -⟩ := except_bind_eq_ok.mp h
      exact ⟨⟨b, hb⟩, rest, hrest⟩
    · rintro ⟨⟨b, hb⟩, rest, hrest⟩
      exact ⟨b :: rest,
        except_bind_eq_ok.mpr ⟨b, hb, except_bind_eq_ok.mpr ⟨rest, hrest, rfl⟩⟩⟩

theorem mapM_ok_map {ε α β : Type} {f : α → Except ε β} {g : α → β} {l : List α}
    (h : ∀ a ∈ l, f a = .ok (g a)) : l.mapM f = .ok (l.map g) := by
  induction l with
  | nil => rfl
  | cons a l ih =>
    rw [List.mapM_cons, h a List.mem_cons_self, ih fun b hb => h b (List.mem_cons_of_mem a hb)]
    rfl

/-- What each step of a loop keeps, the loop keeps. -/
theorem foldlM_keeps {ε α σ : Type} {f : σ → α → Except ε σ} {I : σ → Prop}
    (hf : ∀ s a s', I s → f s a = .ok s' → I s') {l : List α} {s s' : σ} (hs : I s)
    (h : l.foldlM f s = .ok s') : I s' := by
  induction l generalizing s with
  | nil =>
    cases h
    exact hs
  | cons a l ih =>
    obtain ⟨u, hu, h⟩ := except_bind_eq_ok.mp h
    exact ih (hf s a u hs hu) h

/-- A loop fails in one of its steps. -/
theorem foldlM_error {ε α σ : Type} {f : σ → α → Except ε σ} {I : σ → Prop}
    (hf : ∀ s a s', I s → f s a = .ok s' → I s') {l : List α} {s : σ} {e : ε} (hs : I s)
    (h : l.foldlM f s = .error e) : ∃ u a, I u ∧ f u a = .error e := by
  induction l generalizing s with
  | nil => cases h
  | cons a l ih =>
    rcases except_bind_eq_error.mp h with herror | ⟨u, hu, h⟩
    · exact ⟨s, a, hs, herror⟩
    · exact ih (hf s a u hs hu) h

/-! Named instances for the literals of sample inputs. -/

namespace Literals

scoped instance neZero_one : NeZero 1 := ⟨by decide⟩
scoped instance neZero_two : NeZero 2 := ⟨by decide⟩
scoped instance neZero_three : NeZero 3 := ⟨by decide⟩
scoped instance neZero_four : NeZero 4 := ⟨by decide⟩

end Literals

/-- Perform inputs one after the other, as far as each is permitted and succeeds. -/
def performEach {σ ι ο ε : Type} (f : σ → ι → Except ε (ο × σ)) (ok : σ → ι → Bool) :
    σ → List ι → Option σ
  | s, [] => some s
  | s, i :: is =>
    if ok s i then
      match f s i with
      | .ok (_, s') => performEach f ok s' is
      | .error _ => none
    else none

/-- What has been performed is a run. -/
theorem Run.performEach {σ ι ο ε : Type} {M : Machine σ ι ο} {ok : σ → ι → Prop}
    {f : σ → ι → Except ε (ο × σ)} {okb : σ → ι → Bool}
    (hstep : ∀ s i o s', f s i = .ok (o, s') → M.step s i o s')
    (hok : ∀ s i, okb s i = true → ok s i) {tr : List (ι × ο)} {s s' : σ} {is : List ι}
    (h : Run M ok tr s) (hall : performEach f okb s is = some s') : ∃ tr', Run M ok tr' s' := by
  induction is generalizing s tr with
  | nil =>
    cases hall
    exact ⟨tr, h⟩
  | cons i is ih =>
    rw [Lib.performEach] at hall
    split at hall
    · rename_i hi
      split at hall
      · rename_i o u hu
        exact ih (.next h (hok s i hi) (hstep s i o u hu)) hall
      · cases hall
    · cases hall

end Sniper.Lib
