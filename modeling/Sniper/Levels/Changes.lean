import Sniper.Levels.Copies
import Mathlib.Logic.Relation
set_option autoImplicit false

/-! The levels above a cache, and the changes to the copies of a line outside the calls of one
controller by another. -/

namespace Sniper.Levels
open Sniper.Coherence (MsgType ShmemMsg)

variable {ι Addr D : Type}

namespace Hierarchy

variable (H : Hierarchy ι Addr)

/-- `j` is `i` or a level above it. -/
def Above (i j : ι) : Prop := Relation.ReflTransGen (fun i j => H.next i = some j) i j

variable {H} {i j k m : ι}

theorem above_last (i : ι) : H.Above i H.last := by
  induction hn : H.level H.last - H.level i using Nat.strong_induction_on generalizing i with
  | _ n ih =>
    cases hup : H.next i with
    | none => exact H.next_eq_none.mp hup ▸ .refl
    | some j =>
      have hlt := H.level_lt hup
      have hle := H.level_le j
      exact .head hup (ih (H.level H.last - H.level j) (by omega) j rfl)

/-- A level above a cache has a previous level that is above it too. -/
theorem Above.prev (h : H.Above k i) (hne : i ≠ k) : ∃ m, H.Above k m ∧ H.next m = some i := by
  rcases Relation.ReflTransGen.cases_tail h with heq | hm
  · exact absurd heq hne
  · exact hm

theorem Above.level_le (h : H.Above k i) : H.level k ≤ H.level i := by
  induction h with
  | refl => exact le_rfl
  | tail _ hn ih => exact ih.trans (H.level_lt hn).le

theorem Above.eq_of_first (h : H.Above k i) (hi : H.prevs i = []) : i = k := by
  by_contra hne
  obtain ⟨m, -, hn⟩ := h.prev hne
  have hmem := H.mem_prevs.mpr hn
  rw [hi] at hmem
  cases hmem

/-- Every other cache is above a first-level cache or has the same next level. -/
theorem above_or_sibling (hk : H.prevs k = []) (i : ι) :
    H.Above k i ∨ ∃ j, H.next k = some j ∧ H.next i = some j := by
  have h := above_last (H := H) i
  induction h using Relation.ReflTransGen.head_induction_on with
  | refl => exact .inl (above_last k)
  | head hn h ih =>
    rename_i i p
    rcases ih with habove | ⟨j, hj, hp⟩
    · have hne : p ≠ k := by
        rintro rfl
        have hmem := H.mem_prevs.mpr hn
        rw [hk] at hmem
        cases hmem
      obtain ⟨m, hm, hnm⟩ := habove.prev hne
      by_cases hmi : m = i
      · exact .inl (hmi ▸ hm)
      · have hfirst : H.prevs m = [] := H.prevs_of_sibling hnm hn hmi
        exact .inr ⟨p, hm.eq_of_first hfirst ▸ hnm, hn⟩
    · by_cases hpk : p = k
      · have hmem := H.mem_prevs.mpr (hpk ▸ hn)
        rw [hk] at hmem
        cases hmem
      · have hmem := H.mem_prevs.mpr hn
        rw [H.prevs_of_sibling hp hj hpk] at hmem
        cases hmem

end Hierarchy

namespace Copies

open Hierarchy

variable {H : Hierarchy ι Addr} {e : Expected ι D} {c c' : Copies ι D} {i j k : ι} {l l' : Line D}

theorem copy_idle (hidle : c.held = fun _ => none) (i : ι) : c.copy i = c.line i := by
  cases h : c.line i <;> simp [copy, h, hidle]

theorem Current.line_above (h : c.Current H e) (hidle : c.held = fun _ => none)
    (hhome : e.away = none) (hab : H.Above i j) (hi : c.line i ≠ none) : c.line j ≠ none := by
  induction hab with
  | refl => exact hi
  | tail _ hn ih =>
    obtain ⟨l, hl⟩ := Option.ne_none_iff_exists'.mp ih
    rcases h.below _ _ l hl hn with ⟨l', hl', -⟩ | ⟨haway, -⟩
    · rw [copy_idle hidle] at hl'
      simp [hl']
    · rw [hhome] at haway
      cases haway

theorem Current.none_below (h : c.Current H e) (hidle : c.held = fun _ => none)
    (hhome : e.away = none) (hlast : c.line H.last = none) (i : ι) : c.line i = none := by
  by_contra hne
  exact h.line_above hidle hhome (above_last i) hne hlast

theorem Current.dirty_above (h : c.Current H e) (hd : c.Dirty k) (hab : H.Above k i) :
    c.Dirty i := by
  induction hab with
  | refl => exact hd
  | tail _ hn ih => exact h.dirty_next ih hn

theorem Good.weaken (strict : Prop) (h : c.Good H e) (hs : strict → e.strict) :
    c.Good H { e with strict := strict } := by
  refine ⟨h.placed, h.current.imp id fun hc =>
    ⟨hc.legal, hc.below, hc.owed, fun i l hl => ?_, hc.settled, hc.flushed⟩⟩
  rcases hc.fresh i l hl with hf | hf | ⟨hns, hf⟩
  · exact .inl hf
  · exact .inr (.inl hf)
  · exact .inr (.inr ⟨fun hst => hns (hs hst), hf⟩)

/-- When the copies in the first level agree with the contents none of them is out of date. -/
theorem Good.strengthen (h : c.Good H e)
    (hloose : ∀ i l, H.Loose i → c.copy i = some l → l.data = e.contents) :
    c.Good H { e with strict := True } := by
  refine ⟨h.placed, h.current.imp id fun hc =>
    ⟨hc.legal, hc.below, hc.owed, fun i l hl => ?_, hc.settled, hc.flushed⟩⟩
  rcases hc.fresh i l hl with hf | hf | ⟨-, hi, -⟩
  · exact .inl hf
  · exact .inr (.inl hf)
  · exact .inl (hloose i l hi hl)

/-- The line of the last level, not MODIFIED yet, is allowed more. -/
theorem Good.raiseLast (st : CacheState) (h : c.Good H e) (hidle : c.held = fun _ => none)
    (hoff : AgreeOff H.last c c') (hl : c.line H.last = some l) (hm : l.cstate ≠ .modified)
    (hl' : c'.line H.last = some { l with cstate := st }) (hheld : c'.held H.last = none)
    (hbuf : c'.buf H.last = c.buf H.last) (hlegal : H.Legal H.last st)
    (hrank : rank l.cstate ≤ rank st) : c'.Good H e := by
  have hc := h.of_idle hidle
  have hcopy := copy_of_line hl
  have hcopy' := copy_of_line hl'
  have hnext : H.next H.last = none := H.next_eq_none.mpr rfl
  have hclean : ¬c.Dirty H.last := by
    rintro ⟨l', hl'', hm'⟩
    rw [hcopy, Option.some.injEq] at hl''
    exact hm (hl'' ▸ hm')
  refine ⟨h.placed.off hoff (fun _ _ => hheld) ?_,
    .inr (hc.change hoff ?_ ?_ ?_ ?_ ?_ ?_ ?_ ?_ ?_ ?_)⟩
  · intro d hd
    rw [hbuf] at hd
    obtain ⟨l', hl'⟩ := h.placed.buffered _ d hd
    rw [hidle] at hl'
    cases hl'
  · intro l' hl''
    rw [hcopy', Option.some.injEq] at hl''
    subst hl''
    exact hlegal
  · intro j l' _ hn
    rw [hnext] at hn
    cases hn
  · intro m lm hn hlm
    rcases hc.below m _ lm hlm hn with ⟨l', hl'', hle⟩ | haway
    · rw [hcopy, Option.some.injEq] at hl''
      subst hl''
      exact .inl ⟨_, hcopy', hle.trans hrank⟩
    · exact .inr haway
  · intro j l' hl''
    rw [hheld] at hl''
    cases hl''
  · intro m lm _ hlm
    rw [hidle] at hlm
    cases hlm
  · intro l' hl''
    rw [hcopy', Option.some.injEq] at hl''
    subst hl''
    rcases hc.fresh _ l hcopy with hf | ⟨hm', -⟩ | ⟨-, ⟨-, hn⟩, -⟩
    · exact .inl hf
    · exact absurd hm' hm
    · exact absurd hnext hn
  · intro j _ hn
    rw [hnext] at hn
    cases hn
  · intro j hn
    rw [hnext] at hn
    cases hn
  · intro _ hgone
    rw [hcopy] at hgone
    cases hgone
  · intro _ _ hd
    exact absurd hd hclean

/-- Every copy becomes MODIFIED. -/
theorem Good.raise (h : c.Good H e) (hidle : c.held = fun _ => none)
    (hidle' : c'.held = fun _ => none)
    (hline : ∀ i, c'.line i = (c.line i).map fun l => { l with cstate := .modified })
    (hbuf : c'.buf = c.buf) (hsent : c'.sent = c.sent) (hstrict : e.strict)
    (hclean : ∀ i l, c.line i = some l → l.cstate ≠ .modified) (hhome : e.away = none)
    (hpaid : ∀ i, ¬e.paid i) : c'.Good H e := by
  have hc := h.of_idle hidle
  have hcopy : ∀ i, c'.copy i = (c.copy i).map fun l => { l with cstate := .modified } := by
    intro i
    rw [copy_idle hidle, copy_idle hidle', hline]
  have hwas : ∀ i l, c'.copy i = some l →
      ∃ l', c.copy i = some l' ∧ l = { l' with cstate := .modified } := by
    intro i l hl
    rw [hcopy, Option.map_eq_some_iff] at hl
    obtain ⟨l', hl', rfl⟩ := hl
    exact ⟨l', hl', rfl⟩
  refine ⟨⟨fun i _ _ => by rw [hidle'], fun i d hd => ?_⟩, .inr ⟨?_, ?_, ?_, ?_, ?_, ?_⟩⟩
  · rw [hbuf] at hd
    obtain ⟨l', hl'⟩ := h.placed.buffered i d hd
    rw [hidle] at hl'
    cases hl'
  · intro i l hl
    obtain ⟨l', -, rfl⟩ := hwas i l hl
    exact .inr (.inr (.inl rfl))
  · intro i j l hl hn
    obtain ⟨l', hl', rfl⟩ := hwas i l (copy_of_line hl)
    rw [copy_idle hidle] at hl'
    rcases hc.below i j l' hl' hn with ⟨lj, hlj, -⟩ | ⟨haway, -⟩
    · exact .inl ⟨{ lj with cstate := .modified }, by rw [hcopy, hlj]; rfl, le_rfl⟩
    · rw [hhome] at haway
      cases haway
  · intro i j l hl
    rw [hidle'] at hl
    cases hl
  · intro i l hl
    obtain ⟨l', hl', rfl⟩ := hwas i l hl
    rcases hc.fresh i l' hl' with hf | ⟨hm, -⟩ | ⟨hns, -⟩
    · exact .inl hf
    · exact absurd hm (hclean i l' (by rwa [copy_idle hidle] at hl'))
    · exact absurd hstrict hns
  · exact fun k m hk => absurd hk (hpaid k)
  · obtain ⟨more, hmore, hall, hback⟩ := hc.flushed
    refine ⟨more, hsent.trans hmore, fun msg hmem ht => ?_, fun he => (hback he).imp ?_ id⟩
    · obtain ⟨hdata, hgone⟩ := hall msg hmem ht
      exact ⟨hdata, by rw [hcopy, hgone]; rfl⟩
    · rintro ⟨l, hl, hm⟩
      exact absurd hm (hclean _ l (by rwa [copy_idle hidle] at hl))

/-- The line arrives at the last level. -/
theorem Good.arrive (h : c.Good H e) (hidle : c.held = fun _ => none) (hhome : e.away = none)
    (hoff : AgreeOff H.last c c') (hnone : c.line H.last = none) (hl' : c'.line H.last = some l)
    (hheld : c'.held H.last = none) (hbuf : c'.buf H.last = c.buf H.last)
    (hlegal : H.Legal H.last l.cstate) :
    c'.Good H ⟨l.data, True, none, fun _ => False, c.sent, False⟩ := by
  have hc := h.of_idle hidle
  have honly : ∀ i l', c'.copy i = some l' → i = H.last ∧ l' = l := by
    intro i l' hl''
    by_cases hi : i = H.last
    · subst hi
      rw [copy_of_line hl', Option.some.injEq] at hl''
      exact ⟨rfl, hl''.symm⟩
    · rw [hoff.copy hi, copy_idle hidle, hc.none_below hidle hhome hnone i] at hl''
      cases hl''
  have hidle' : c'.held = fun _ => none := by
    funext i
    by_cases hi : i = H.last
    · rw [hi, hheld]
    · rw [hoff.held i hi, hidle]
  refine ⟨h.placed.off hoff (fun _ _ => hheld) ?_, .inr ⟨?_, ?_, ?_, ?_, ?_, ?_⟩⟩
  · intro d hd
    rw [hbuf] at hd
    obtain ⟨l', hl'⟩ := h.placed.buffered _ d hd
    rw [hidle] at hl'
    cases hl'
  · intro i l' hl''
    obtain ⟨rfl, rfl⟩ := honly i l' hl''
    exact hlegal
  · intro i j l' hl'' hn
    obtain ⟨rfl, -⟩ := honly i l' (copy_of_line hl'')
    rw [H.next_eq_none.mpr rfl] at hn
    cases hn
  · intro i j l' hl''
    rw [hidle'] at hl''
    cases hl''
  · intro i l' hl''
    obtain ⟨rfl, rfl⟩ := honly i l' hl''
    exact .inl rfl
  · exact fun _ _ hp => hp.elim
  · exact ⟨[], by rw [hoff.sent, List.append_nil], by simp, False.elim⟩

/-- A first-level cache stores to its MODIFIED line. -/
theorem Good.store [DecidableEq ι] {d : D} {strict : Prop} (h : c.Good H e)
    (hidle : c.held = fun _ => none) (hhome : e.away = none) (hpaid : ∀ i, ¬e.paid i)
    (hk : H.prevs k = []) (hl : c.line k = some l) (hm : l.cstate = .modified)
    (hsiblings : ∀ i j li, i ≠ k → H.next k = some j → H.next i = some j → c.line i = some li →
      li.cstate ≠ .modified ∧ ¬strict) :
    (c.put k d).Good H { e with contents := d, strict := strict } := by
  have hc := h.of_idle hidle
  have hoff := put_off c k d
  have hheld : (c.put k d).held = fun _ => none := by rw [put_held, hidle]
  have hdirty : c.Dirty k := ⟨l, copy_of_line hl, hm⟩
  have hcopy : (c.put k d).copy k = some { l with data := d } := by
    rw [put_copy, copy_of_line hl]
    rfl
  have hdirty' : ∀ i, c.Dirty i → (c.put k d).Dirty i := by
    intro i hi
    by_cases hik : i = k
    · subst hik
      exact ⟨_, hcopy, hm⟩
    · exact (hoff.dirty hik).mpr hi
  have hlast := hdirty' _ (hc.dirty_above hdirty (above_last k))
  -- nothing but the data of one copy is new
  have hwas : ∀ i l', (c.put k d).copy i = some l' →
      ∃ l₀, c.copy i = some l₀ ∧ l'.cstate = l₀.cstate := by
    intro i l' hl'
    by_cases hik : i = k
    · subst hik
      rw [hcopy, Option.some.injEq] at hl'
      exact ⟨l, copy_of_line hl, by rw [← hl']⟩
    · exact ⟨l', (hoff.copy hik).symm.trans hl', rfl⟩
  refine ⟨h.placed.put d (.inl (by simp [hl])), .inr ⟨?_, ?_, ?_, ?_, ?_, ?_⟩⟩
  · intro i l' hl'
    obtain ⟨l₀, hl₀, hst⟩ := hwas i l' hl'
    rw [hst]
    exact hc.legal i l₀ hl₀
  · intro i j l' hl' hn
    obtain ⟨l₀, hl₀, hst⟩ := hwas i l' (copy_of_line hl')
    rw [copy_idle hidle] at hl₀
    rcases hc.below i j l₀ hl₀ hn with ⟨lj, hlj, hle⟩ | ⟨haway, -⟩
    · have hjk : j ≠ k := by
        rintro rfl
        have hmem := H.mem_prevs.mpr hn
        rw [hk] at hmem
        cases hmem
      exact .inl ⟨lj, (hoff.copy hjk).trans hlj, by rw [hst]; exact hle⟩
    · rw [hhome] at haway
      cases haway
  · intro i j l' hl'
    rw [hheld] at hl'
    cases hl'
  · intro i l' hl'
    by_cases hik : i = k
    · subst hik
      rw [hcopy, Option.some.injEq] at hl'
      exact .inl (by rw [← hl'])
    rcases above_or_sibling hk i with hab | ⟨j, hj, hi⟩
    · obtain ⟨m, hkm, hn⟩ := hab.prev hik
      have hdi := hdirty' i (hc.dirty_above hdirty hab)
      obtain ⟨l'', hl'', hm'⟩ := hdi
      rw [hl', Option.some.injEq] at hl''
      exact .inr (.inl ⟨hl'' ▸ hm', m, hn, hdirty' m (hc.dirty_above hdirty hkm), hpaid m⟩)
    · rw [hoff.copy hik, copy_idle hidle] at hl'
      obtain ⟨hnm, hns⟩ := hsiblings i j l' hik hj hi hl'
      exact .inr (.inr ⟨hns, ⟨H.prevs_of_sibling hi hj hik, by simp [hi]⟩, hnm⟩)
  · exact fun k m hp => absurd hp (hpaid k)
  · obtain ⟨more, hsent, hall, -⟩ := hc.flushed
    refine ⟨more, hoff.sent.trans hsent, fun msg hmem ht => ?_, fun _ => .inl hlast⟩
    obtain ⟨l', hl', -⟩ := hc.dirty_above hdirty (above_last k)
    rw [(hall msg hmem ht).2] at hl'
    cases hl'

end Copies

end Sniper.Levels
