import Sniper.Levels.Controllers
set_option autoImplicit false

/-! The copies of one line in the caches of a core, and what they have to do with its
contents. -/

namespace Sniper.Levels
open Sniper.Coherence (MsgType ShmemMsg)

variable {ι Addr D : Type}

/-- How much a state allows. -/
def rank : CacheState → Nat
  | .invalid => 0
  | .shared | .sharedUpgrading | .owned => 1
  | .exclusive => 2
  | .modified => 3

theorem rank_modified_le {st : CacheState} (h : rank .modified ≤ rank st) : st = .modified := by
  cases st with
  | modified => rfl
  | _ => simp [rank] at h

theorem rank_le_two {st : CacheState} (h : st ≠ .modified) : rank st ≤ 2 := by
  cases st with
  | modified => exact absurd rfl h
  | _ => simp [rank]

/-- The copies of one line: those in the caches, those that are held by a controller which
evicts them, the contents of the evicting buffers, and the messages sent about the line. -/
structure Copies (ι D : Type) where
  line : ι → Option (Line D)
  held : ι → Option (Line D)
  buf : ι → Option D
  sent : List (ShmemMsg D)

namespace Copies

/-- The copy of a controller; the evicting buffer has the contents of a line that leaves. -/
def copy (c : Copies ι D) (i : ι) : Option (Line D) :=
  match c.line i with
  | some l => some l
  | none => (c.held i).map fun l => { l with data := (c.buf i).getD l.data }

def Dirty (c : Copies ι D) (i : ι) : Prop := ∃ l, c.copy i = some l ∧ l.cstate = .modified

theorem copy_of_line {c : Copies ι D} {i : ι} {l : Line D} (h : c.line i = some l) :
    c.copy i = some l := by
  simp [copy, h]

theorem copy_of_held {c : Copies ι D} {i : ι} {l : Line D} (h : c.line i = none)
    (hh : c.held i = some l) : c.copy i = some { l with data := (c.buf i).getD l.data } := by
  simp [copy, h, hh]

theorem copy_eq_none {c : Copies ι D} {i : ι} :
    c.copy i = none ↔ c.line i = none ∧ c.held i = none := by
  cases h : c.line i <;> simp [copy, h]

/-- Two pictures of the line that differ at one controller only. -/
structure AgreeOff (i : ι) (c c' : Copies ι D) : Prop where
  line : ∀ j, j ≠ i → c'.line j = c.line j
  held : ∀ j, j ≠ i → c'.held j = c.held j
  buf : ∀ j, j ≠ i → c'.buf j = c.buf j
  sent : c'.sent = c.sent

theorem AgreeOff.copy {i : ι} {c c' : Copies ι D} (h : AgreeOff i c c') {j : ι} (hj : j ≠ i) :
    c'.copy j = c.copy j := by
  simp only [Copies.copy, h.line j hj, h.held j hj, h.buf j hj]

theorem AgreeOff.dirty {i : ι} {c c' : Copies ι D} (h : AgreeOff i c c') {j : ι} (hj : j ≠ i) :
    c'.Dirty j ↔ c.Dirty j := by
  simp only [Dirty, h.copy hj]

end Copies

/-- What is expected of the copies: the contents of the line, whether a first-level cache must
agree with it too after a sibling was written, the controller that gave up its line for a
request to the next level, the controllers that have written their contents to the next
level, the messages sent before, and whether the last level had the line MODIFIED then. -/
structure Expected (ι D : Type) where
  contents : D
  strict : Prop
  away : Option ι
  paid : ι → Prop
  before : List (ShmemMsg D)
  dirty : Prop

/-- The message gives the contents back to the directory. -/
def Expected.Returns (e : Expected ι D) (msg : ShmemMsg D) : Prop :=
  (msg.msgType = .flushRep ∨ msg.msgType = .wbRep) ∧ msg.dataBuf = some e.contents

/-- `k` has written its contents to the next level. -/
def Expected.pay (e : Expected ι D) (k : ι) : Expected ι D :=
  { e with paid := fun i => e.paid i ∨ i = k }

namespace Hierarchy

variable (H : Hierarchy ι Addr)

/-- The states of a line; an upgrade is asked for by the last level. -/
def Legal (i : ι) (st : CacheState) : Prop :=
  st = .shared ∨ st = .exclusive ∨ st = .modified ∨ st = .sharedUpgrading ∧ i = H.last

theorem next_ne {i j : ι} (h : H.next i = some j) : j ≠ i := by
  rintro rfl
  exact absurd (H.level_lt h) (lt_irrefl _)

/-- A first-level cache. Its copy may be out of date once a sibling was written. -/
def Loose (i : ι) : Prop := H.prevs i = [] ∧ H.next i ≠ none

/-- A copy agrees with the contents, or a previous level has newer ones. -/
def Fresh (e : Expected ι D) (c : Copies ι D) (i : ι) (l : Line D) : Prop :=
  l.data = e.contents ∨
    (l.cstate = .modified ∧ ∃ k, H.next k = some i ∧ c.Dirty k ∧ ¬e.paid k) ∨
    (¬e.strict ∧ H.Loose i ∧ l.cstate ≠ .modified)

end Hierarchy

namespace Copies

variable {H : Hierarchy ι Addr} {e : Expected ι D} {c c' : Copies ι D} {i j k : ι} {l l' : Line D}

/-- A line is in a cache or on its way out, and an evicting buffer belongs to the latter. -/
structure Placed (c : Copies ι D) : Prop where
  apart : ∀ i l, c.line i = some l → c.held i = none
  buffered : ∀ i d, c.buf i = some d → ∃ l, c.held i = some l

/-- A MODIFIED line is on its way to a next level that no longer has it: the controller that
holds it is going to fail. -/
def Doomed (H : Hierarchy ι Addr) (c : Copies ι D) : Prop :=
  ∃ i j l, c.held i = some l ∧ l.cstate = .modified ∧ H.next i = some j ∧ c.copy j = none

/-- What is sent to the directory when a line leaves the last level: it is not lost. -/
def Flushed (H : Hierarchy ι Addr) (e : Expected ι D) (c : Copies ι D) : Prop :=
  ∃ more, c.sent = e.before ++ more ∧
    (∀ msg ∈ more, msg.msgType = .flushRep →
      msg.dataBuf = some e.contents ∧ c.copy H.last = none) ∧
    (e.dirty → c.Dirty H.last ∨ ∃ msg ∈ more, e.Returns msg)

structure Current (H : Hierarchy ι Addr) (e : Expected ι D) (c : Copies ι D) : Prop where
  legal : ∀ i l, c.copy i = some l → H.Legal i l.cstate
  /-- inclusion -/
  below : ∀ i j l, c.line i = some l → H.next i = some j →
    (∃ l', c.copy j = some l' ∧ rank l.cstate ≤ rank l'.cstate) ∨
      (e.away = some j ∧ rank l.cstate ≤ 2)
  owed : ∀ i j l, c.held i = some l → l.cstate = .modified → H.next i = some j → c.Dirty j
  fresh : ∀ i l, c.copy i = some l → H.Fresh e c i l
  settled : ∀ k m, e.paid k → H.next m = some k → ¬c.Dirty m
  flushed : c.Flushed H e

/-- The invariant of the controllers, in the middle of a call too. -/
structure Good (H : Hierarchy ι Addr) (e : Expected ι D) (c : Copies ι D) : Prop where
  placed : c.Placed
  current : c.Doomed H ∨ c.Current H e

theorem Doomed.mono (h : c.Doomed H) (hheld : c'.held = c.held)
    (hline : ∀ i, c.line i = none → c'.line i = none) : c'.Doomed H := by
  obtain ⟨i, j, l, hi, hl, hn, hj⟩ := h
  rw [copy_eq_none] at hj
  exact ⟨i, j, l, hheld ▸ hi, hl, hn, copy_eq_none.mpr ⟨hline j hj.1, hheld ▸ hj.2⟩⟩

/-- With nothing held there is no line to fail on. -/
theorem Good.of_idle (h : c.Good H e) (hheld : c.held = fun _ => none) : c.Current H e := by
  rcases h.current with hd | hc
  · obtain ⟨i, -, l, hi, -⟩ := hd
    rw [hheld] at hi
    cases hi
  · exact hc

/-- Above a MODIFIED copy the next level is MODIFIED too. -/
theorem Current.dirty_next (h : c.Current H e) (hd : c.Dirty k) (hn : H.next k = some j) :
    c.Dirty j := by
  obtain ⟨l, hl, hm⟩ := hd
  cases hline : c.line k with
  | some lk =>
    rw [copy_of_line hline, Option.some.injEq] at hl
    subst hl
    rcases h.below k j _ hline hn with ⟨lj, hlj, hle⟩ | ⟨-, hle⟩
    · rw [hm] at hle
      exact ⟨lj, hlj, rank_modified_le hle⟩
    · rw [hm] at hle
      simp [rank] at hle
  | none =>
    cases hheld : c.held k with
    | none =>
      rw [copy_eq_none.mpr ⟨hline, hheld⟩] at hl
      cases hl
    | some lk =>
      rw [copy_of_held hline hheld, Option.some.injEq] at hl
      exact h.owed k j lk hheld (by rw [← hm, ← hl]) hn

/-- One controller's copy changes. -/
theorem Current.change (h : c.Current H e) (hoff : AgreeOff i c c')
    (legal : ∀ l, c'.copy i = some l → H.Legal i l.cstate)
    (below : ∀ j l, c'.line i = some l → H.next i = some j →
      (∃ l', c.copy j = some l' ∧ rank l.cstate ≤ rank l'.cstate) ∨
        (e.away = some j ∧ rank l.cstate ≤ 2))
    (above : ∀ k l, H.next k = some i → c.line k = some l →
      (∃ l', c'.copy i = some l' ∧ rank l.cstate ≤ rank l'.cstate) ∨
        (e.away = some i ∧ rank l.cstate ≤ 2))
    (owes : ∀ j l, c'.held i = some l → l.cstate = .modified → H.next i = some j → c.Dirty j)
    (owed : ∀ k l, H.next k = some i → c.held k = some l → l.cstate = .modified → c'.Dirty i)
    (fresh : ∀ l, c'.copy i = some l → H.Fresh e c i l)
    (next : ∀ j l, H.next i = some j → c.copy j = some l → c.Dirty i → ¬e.paid i →
      ¬c'.Dirty i → l.data = e.contents)
    (clean : ∀ j, H.next i = some j → e.paid j → c'.Dirty i → c.Dirty i)
    (gone : i = H.last → c.copy i = none → c'.copy i = none)
    (kept : i = H.last → e.dirty → c.Dirty i → c'.Dirty i) : c'.Current H e where
  legal m l hm := by
    by_cases hmi : m = i
    · exact hmi ▸ legal l (hmi ▸ hm)
    · exact h.legal m l (hoff.copy hmi ▸ hm)
  below m j l hm hn := by
    by_cases hmi : m = i
    · subst hmi
      rw [hoff.copy (H.next_ne hn)]
      exact below j l hm hn
    · rw [hoff.line m hmi] at hm
      by_cases hji : j = i
      · exact hji ▸ above m l (hji ▸ hn) hm
      · rw [hoff.copy hji]
        exact h.below m j l hm hn
  owed m j l hm hl hn := by
    by_cases hmi : m = i
    · subst hmi
      exact (hoff.dirty (H.next_ne hn)).mpr (owes j l hm hl hn)
    · rw [hoff.held m hmi] at hm
      by_cases hji : j = i
      · exact hji ▸ owed m l (hji ▸ hn) hm hl
      · exact (hoff.dirty hji).mpr (h.owed m j l hm hl hn)
  fresh m l hm := by
    have hkeep : ∀ m, m ≠ i → ∀ l, c.copy m = some l → H.Fresh e c m l → H.Fresh e c' m l := by
      intro m hmi l hm hf
      rcases hf with hf | ⟨hl, k, hk, hd, hp⟩ | hf
      · exact .inl hf
      · by_cases hki : k = i
        · subst hki
          by_cases hd' : c'.Dirty k
          · exact .inr (.inl ⟨hl, k, hk, hd', hp⟩)
          · exact .inl (next m l hk hm hd hp hd')
        · exact .inr (.inl ⟨hl, k, hk, (hoff.dirty hki).mpr hd, hp⟩)
      · exact .inr (.inr hf)
    by_cases hmi : m = i
    · subst hmi
      rcases fresh l hm with hf | ⟨hl, k, hk, hd, hp⟩ | hf
      · exact .inl hf
      · have hki : k ≠ m := fun hkm => H.next_ne hk hkm.symm
        exact .inr (.inl ⟨hl, k, hk, (hoff.dirty hki).mpr hd, hp⟩)
      · exact .inr (.inr hf)
    · rw [hoff.copy hmi] at hm
      exact hkeep m hmi l hm (h.fresh m l hm)
  settled k m hk hn hd := by
    refine h.settled k m hk hn ?_
    by_cases hmi : m = i
    · exact hmi ▸ clean k (hmi ▸ hn) hk (hmi ▸ hd)
    · exact (hoff.dirty hmi).mp hd
  flushed := by
    obtain ⟨more, hsent, hmore, hback⟩ := h.flushed
    refine ⟨more, hoff.sent.trans hsent, fun msg hmem ht => ?_, fun he => (hback he).imp ?_ id⟩
    · obtain ⟨hdata, hlast⟩ := hmore msg hmem ht
      refine ⟨hdata, ?_⟩
      by_cases hli : i = H.last
      · rw [← hli] at hlast ⊢
        exact gone hli hlast
      · rw [hoff.copy (Ne.symm hli)]
        exact hlast
    · by_cases hli : i = H.last
      · rw [← hli]
        exact kept hli he
      · exact (hoff.dirty (Ne.symm hli)).mpr

theorem Placed.off (h : c.Placed) (hoff : AgreeOff i c c')
    (apart : ∀ l, c'.line i = some l → c'.held i = none)
    (buffered : ∀ d, c'.buf i = some d → ∃ l, c'.held i = some l) : c'.Placed where
  apart j l hj := by
    by_cases hji : j = i
    · exact hji ▸ apart l (hji ▸ hj)
    · rw [hoff.held j hji]
      exact h.apart j l (hoff.line j hji ▸ hj)
  buffered j d hj := by
    by_cases hji : j = i
    · exact hji ▸ buffered d (hji ▸ hj)
    · rw [hoff.held j hji]
      exact h.buffered j d (hoff.buf j hji ▸ hj)

/-- The copies are where they were, with the states and contents they had. -/
theorem Good.same (h : c.Good H e) (hplaced : c'.Placed) (hline : c'.line = c.line)
    (hcopy : ∀ i, c'.copy i = c.copy i)
    (hheld : ∀ i, (c'.held i).map Line.cstate = (c.held i).map Line.cstate)
    (hsent : c'.sent = c.sent) : c'.Good H e := by
  have hdirty : ∀ i, c'.Dirty i ↔ c.Dirty i := fun i => by simp only [Dirty, hcopy]
  have hmodified : ∀ (c c' : Copies ι D) i l,
      (c'.held i).map Line.cstate = (c.held i).map Line.cstate → c'.held i = some l →
        ∃ l', c.held i = some l' ∧ l'.cstate = l.cstate := by
    intro c c' i l heq hl
    rw [hl, Option.map_some, eq_comm, Option.map_eq_some_iff] at heq
    exact heq
  refine ⟨hplaced, h.current.imp ?_ fun hc => ?_⟩
  · rintro ⟨i, j, l, hi, hl, hn, hj⟩
    obtain ⟨l', hl', hst⟩ := hmodified c' c i l (hheld i).symm hi
    exact ⟨i, j, l', hl', hst.trans hl, hn, (hcopy j).trans hj⟩
  · refine ⟨fun i l hi => hc.legal i l (hcopy i ▸ hi), ?_, ?_, ?_, ?_, ?_⟩
    · intro i j l hi hn
      rw [hline] at hi
      rw [hcopy]
      exact hc.below i j l hi hn
    · intro i j l hi hl hn
      obtain ⟨l', hl', hst⟩ := hmodified c c' i l (hheld i) hi
      exact (hdirty j).mpr (hc.owed i j l' hl' (hst.trans hl) hn)
    · intro i l hi
      rcases hc.fresh i l (hcopy i ▸ hi) with hf | ⟨hl, k, hk, hd, hp⟩ | hf
      · exact .inl hf
      · exact .inr (.inl ⟨hl, k, hk, (hdirty k).mpr hd, hp⟩)
      · exact .inr (.inr hf)
    · intro k m hk hn hd
      exact hc.settled k m hk hn ((hdirty m).mp hd)
    · obtain ⟨more, hmore, hall, hback⟩ := hc.flushed
      refine ⟨more, hsent.trans hmore, fun msg hmem ht => ?_,
        fun he => (hback he).imp (hdirty _).mpr id⟩
      rw [hcopy]
      exact hall msg hmem ht

/-- A line is taken out of its place. -/
theorem Good.displace (h : c.Good H e) (hoff : AgreeOff i c c') (hl : c.line i = some l)
    (hline : c'.line i = none) (hheld : c'.held i = some l) (hbuf : c'.buf i = c.buf i) :
    c'.Good H e := by
  have hnone := h.placed.apart i l hl
  have hnobuf : c.buf i = none := by
    cases hb : c.buf i with
    | none => rfl
    | some d =>
      obtain ⟨l', hl'⟩ := h.placed.buffered i d hb
      rw [hnone] at hl'
      cases hl'
  have hcopy : c'.copy i = c.copy i := by
    rw [copy_of_line hl, copy_of_held hline hheld, hbuf, hnobuf]
    rfl
  have hdirty : c'.Dirty i ↔ c.Dirty i := by simp only [Dirty, hcopy]
  refine ⟨h.placed.off hoff ?_ ?_, h.current.imp ?_ fun hc =>
    hc.change hoff ?_ ?_ ?_ ?_ ?_ ?_ ?_ ?_ ?_ ?_⟩
  · intro l' hl'
    rw [hline] at hl'
    cases hl'
  · intro d _
    exact ⟨l, hheld⟩
  · rintro ⟨m, j, lm, hm, hlm, hn, hj⟩
    have hmi : m ≠ i := by
      rintro rfl
      rw [hnone] at hm
      cases hm
    refine ⟨m, j, lm, (hoff.held m hmi).trans hm, hlm, hn, ?_⟩
    by_cases hji : j = i
    · rw [hji, hcopy, ← hji]
      exact hj
    · exact (hoff.copy hji).trans hj
  · intro l' hl'
    exact hc.legal i l' (hcopy ▸ hl')
  · intro j l' hl'
    rw [hline] at hl'
    cases hl'
  · intro k l' hk hl'
    rw [hcopy]
    exact hc.below k i l' hl' hk
  · intro j l' hl' hm hn
    rw [hheld, Option.some.injEq] at hl'
    subst hl'
    rcases hc.below i j l hl hn with ⟨l', hl', hle⟩ | ⟨-, hle⟩
    · rw [hm] at hle
      exact ⟨l', hl', rank_modified_le hle⟩
    · rw [hm] at hle
      simp [rank] at hle
  · intro k l' hk hl' hm
    exact hdirty.mpr (hc.owed k i l' hl' hm hk)
  · intro l' hl'
    exact hc.fresh i l' (hcopy ▸ hl')
  · intro j l' hn hl' hd _ hd'
    exact absurd (hdirty.mpr hd) hd'
  · exact fun _ _ _ => hdirty.mp
  · intro _ hgone
    exact hcopy.trans hgone
  · exact fun _ _ => hdirty.mpr

theorem Doomed.off (h : c.Doomed H) (hoff : AgreeOff j c c')
    (hline : ∀ l, c'.line j = some l → ∃ l', c.line j = some l' ∧ l.cstate = l'.cstate)
    (hheld : c'.held j = c.held j) : c'.Doomed H := by
  have hsame : c'.held = c.held := by
    funext i
    by_cases hij : i = j
    · rw [hij, hheld]
    · exact hoff.held i hij
  refine h.mono hsame fun i hi => ?_
  by_cases hij : i = j
  · subst hij
    cases hl : c'.line i with
    | none => rfl
    | some l =>
      obtain ⟨l', hl', -⟩ := hline l hl
      rw [hi] at hl'
      cases hl'
  · exact (hoff.line i hij).trans hi

/-- A MODIFIED copy with nothing MODIFIED below it has the contents. -/
theorem Current.contents_of_dirty (h : c.Current H e) (hl : c.copy k = some l)
    (hm : l.cstate = .modified) (hprevs : ∀ m, H.next m = some k → ¬c.Dirty m) :
    l.data = e.contents := by
  rcases h.fresh k l hl with hf | ⟨-, m, hm, hd, -⟩ | ⟨-, -, hne⟩
  · exact hf
  · exact absurd hd (hprevs m hm)
  · exact absurd hm hne

/-- A MODIFIED line of a previous level is on its way to `k`. -/
def Pending (H : Hierarchy ι Addr) (c : Copies ι D) (k : ι) : Prop :=
  ∃ m l, H.next m = some k ∧ c.held m = some l ∧ l.cstate = .modified

theorem not_dirty_of_not_pending (hp : ¬c.Pending H k)
    (hprevs : ∀ m l, H.next m = some k → c.line m = some l → rank l.cstate ≤ 2) :
    ∀ m, H.next m = some k → ¬c.Dirty m := by
  rintro m hn ⟨l, hl, hm⟩
  cases hline : c.line m with
  | some l' =>
    rw [copy_of_line hline, Option.some.injEq] at hl
    subst hl
    have hle := hprevs m _ hn hline
    rw [hm] at hle
    simp [rank] at hle
  | none =>
    cases hheld : c.held m with
    | none =>
      rw [copy_eq_none.mpr ⟨hline, hheld⟩] at hl
      cases hl
    | some l' =>
      rw [copy_of_held hline hheld, Option.some.injEq] at hl
      exact hp ⟨m, l', hn, hheld, by rw [← hm, ← hl]⟩

/-- A copy goes, after the previous levels have given up theirs and the next level has its
contents. -/
theorem Good.vanish (h : c.Good H e) (hoff : AgreeOff k c c') (hl : c.copy k = some l)
    (hnone : c'.copy k = none) (hbuf : c'.buf k = none)
    (hprevs : ∀ m, H.next m = some k → c.line m = none)
    (hpaid : l.cstate = .modified → H.next k ≠ none → e.paid k ∨ c.Pending H k)
    (hpass : ∀ lk j, c.held k = some lk → lk.cstate = .modified → H.next k = some j →
      c.copy j ≠ none)
    (hkept : k = H.last → e.dirty → l.cstate ≠ .modified) :
    c'.Good H e ∧ (c'.Doomed H ∨ (l.cstate = .modified → l.data = e.contents)) := by
  obtain ⟨hline', hheld'⟩ := copy_eq_none.mp hnone
  have hplaced : c'.Placed := by
    refine h.placed.off hoff ?_ ?_
    · intro l' hl'
      rw [hline'] at hl'
      cases hl'
    · intro d hd
      rw [hbuf] at hd
      cases hd
  rcases h.current with ⟨i, j, li, hi, hmod, hn, hj⟩ | hc
  · have hik : i ≠ k := by
      rintro rfl
      exact hpass li j hi hmod hn hj
    have hd : c'.Doomed H := by
      refine ⟨i, j, li, (hoff.held i hik).trans hi, hmod, hn, ?_⟩
      by_cases hjk : j = k
      · exact hjk ▸ hnone
      · exact (hoff.copy hjk).trans hj
    exact ⟨⟨hplaced, .inl hd⟩, .inl hd⟩
  by_cases hpending : c.Pending H k
  · -- the line below finds nothing when it comes here
    obtain ⟨m, lm, hn, hm, hmod⟩ := hpending
    have hmk : m ≠ k := (H.next_ne hn).symm
    have hd : c'.Doomed H := ⟨m, k, lm, (hoff.held m hmk).trans hm, hmod, hn, hnone⟩
    exact ⟨⟨hplaced, .inl hd⟩, .inl hd⟩
  have hdata : l.cstate = .modified → l.data = e.contents := fun hm =>
    hc.contents_of_dirty hl hm <| not_dirty_of_not_pending hpending fun m lm hn hlm => by
      rw [hprevs m hn] at hlm
      cases hlm
  refine ⟨⟨hplaced, .inr (hc.change hoff ?_ ?_ ?_ ?_ ?_ ?_ ?_ ?_ ?_ ?_)⟩, .inr hdata⟩
  · intro l' hl'
    rw [hnone] at hl'
    cases hl'
  · intro j l' hl'
    rw [hline'] at hl'
    cases hl'
  · intro m l' hn hl'
    rw [hprevs m hn] at hl'
    cases hl'
  · intro j l' hl'
    rw [hheld'] at hl'
    cases hl'
  · intro m lm hn hm hmod
    exact absurd ⟨m, lm, hn, hm, hmod⟩ hpending
  · intro l' hl'
    rw [hnone] at hl'
    cases hl'
  · rintro j lj hn - ⟨l', hl', hm⟩ hnot -
    rw [hl, Option.some.injEq] at hl'
    subst hl'
    rcases hpaid hm (by simp [hn]) with hp | hp
    · exact absurd hp hnot
    · exact absurd hp hpending
  · rintro j - - ⟨l', hl', -⟩
    rw [hnone] at hl'
    cases hl'
  · intro _ _
    exact hnone
  · rintro hlast he ⟨l', hl', hm⟩
    rw [hl, Option.some.injEq] at hl'
    exact absurd (hl' ▸ hm) (hkept hlast he)

/-- A message about the line is sent. -/
theorem Good.send (h : c.Good H e) (hline : c'.line = c.line) (hheld : c'.held = c.held)
    (hbuf : c'.buf = c.buf) {more : List (ShmemMsg D)} (hsent : c'.sent = c.sent ++ more)
    (hmore : c.Doomed H ∨ ∀ msg ∈ more, msg.msgType = .flushRep →
      msg.dataBuf = some e.contents ∧ c.copy H.last = none) : c'.Good H e := by
  obtain ⟨line, held, buf, sent⟩ := c
  obtain ⟨line', held', buf', sent'⟩ := c'
  cases hline
  cases hheld
  cases hbuf
  refine ⟨⟨h.placed.apart, h.placed.buffered⟩, ?_⟩
  rcases h.current with hd | hc
  · exact .inl hd
  rcases hmore with hd | hmore
  · exact .inl hd
  refine .inr ⟨hc.legal, hc.below, hc.owed, hc.fresh, hc.settled, ?_⟩
  obtain ⟨old, hold, hall, hback⟩ := hc.flushed
  refine ⟨old ++ more, ?_, fun msg hmem ht => ?_, fun he => (hback he).imp id ?_⟩
  · rw [show sent' = sent ++ more from hsent, show sent = e.before ++ old from hold,
      List.append_assoc]
  · rcases List.mem_append.mp hmem with hmem | hmem
    · exact hall msg hmem ht
    · exact hmore msg hmem ht
  · rintro ⟨msg, hmem, hret⟩
    exact ⟨msg, List.mem_append_left _ hmem, hret⟩

/-- Nothing is expected of the messages. -/
theorem Good.forget (h : c.Good H e) : c.Good H { e with dirty := False } := by
  refine ⟨h.placed, h.current.imp id fun hc =>
    ⟨hc.legal, hc.below, hc.owed, hc.fresh, hc.settled, ?_⟩⟩
  obtain ⟨more, hsent, hall, -⟩ := hc.flushed
  exact ⟨more, hsent, hall, False.elim⟩

/-- The contents are given back to the directory. -/
theorem Good.sendBack (h : c.Good H { e with dirty := False }) (hline : c'.line = c.line)
    (hheld : c'.held = c.held) (hbuf : c'.buf = c.buf) {msg : ShmemMsg D}
    (hsent : c'.sent = c.sent ++ [msg])
    (hmsg : c.Doomed H ∨ e.Returns msg ∧ (msg.msgType = .flushRep → c.copy H.last = none)) :
    c'.Good H e := by
  have h₁ : c'.Good H { e with dirty := False } := by
    refine h.send hline hheld hbuf hsent (hmsg.imp id ?_)
    rintro ⟨hret, hgone⟩ msg' hmem ht
    obtain rfl := List.mem_singleton.mp hmem
    exact ⟨hret.2, hgone ht⟩
  refine ⟨h₁.placed, ?_⟩
  rcases h.current with hd | hc
  · exact .inl (hd.mono hheld fun i hi => by rw [hline]; exact hi)
  rcases hmsg with hd | ⟨hret, -⟩
  · exact .inl (hd.mono hheld fun i hi => by rw [hline]; exact hi)
  refine h₁.current.imp id fun hc' => ⟨hc'.legal, hc'.below, hc'.owed, hc'.fresh, hc'.settled, ?_⟩
  obtain ⟨old, hold, -⟩ := hc.flushed
  obtain ⟨more, hmore, hall, -⟩ := hc'.flushed
  refine ⟨more, hmore, hall, fun _ => .inr ⟨msg, ?_, hret⟩⟩
  have heq : e.before ++ more = e.before ++ (old ++ [msg]) := by
    rw [← List.append_assoc, ← hold, ← hsent, ← hmore]
  rw [List.append_cancel_left heq]
  exact List.mem_append_right _ List.mem_cons_self

theorem Current.not_dirty_of_rank (h : ∀ l, c.line k = some l → rank l.cstate ≤ 2)
    (hheld : c.held k = none) : ¬c.Dirty k := by
  rintro ⟨l, hl, hm⟩
  cases hline : c.line k with
  | none =>
    rw [copy_eq_none.mpr ⟨hline, hheld⟩] at hl
    cases hl
  | some l' =>
    rw [copy_of_line hline, Option.some.injEq] at hl
    subst hl
    have hle := h _ hline
    rw [hm] at hle
    simp [rank] at hle

theorem Current.one_le_rank (h : c.Current H e) (hl : c.copy k = some l) : 1 ≤ rank l.cstate := by
  rcases h.legal k l hl with hst | hst | hst | ⟨hst, -⟩ <;> simp [hst, rank]

/-- A line becomes SHARED, after those of the previous levels, when the next level has its
contents. -/
theorem Good.share (h : c.Good H e) (hidle : c.held = fun _ => none) (hoff : AgreeOff k c c')
    (hl : c.line k = some l) (hl' : c'.line k = some { l with cstate := .shared })
    (hheld : c'.held k = none) (hbuf : c'.buf k = c.buf k)
    (hprevs : ∀ m lm, H.next m = some k → c.line m = some lm → rank lm.cstate ≤ 1)
    (hpaid : l.cstate = .modified → H.next k ≠ none → e.paid k)
    (hkept : k = H.last → e.dirty → l.cstate ≠ .modified) : c'.Good H e := by
  have hc := h.of_idle hidle
  have hcopy := copy_of_line hl
  have hcopy' := copy_of_line hl'
  have hclean : ∀ m, H.next m = some k → ¬c.Dirty m := by
    intro m hn
    refine Current.not_dirty_of_rank (fun lm hlm => ?_) (by rw [hidle])
    have := hprevs m lm hn hlm
    omega
  have hrank := hc.one_le_rank hcopy
  refine ⟨h.placed.off hoff ?_ ?_, .inr (hc.change hoff ?_ ?_ ?_ ?_ ?_ ?_ ?_ ?_ ?_ ?_)⟩
  · intro _ _
    exact hheld
  · intro d hd
    rw [hbuf] at hd
    obtain ⟨l', hl'⟩ := h.placed.buffered k d hd
    rw [hidle] at hl'
    cases hl'
  · intro l' hl''
    rw [hcopy', Option.some.injEq] at hl''
    rw [← hl'']
    exact .inl rfl
  · intro j l' hl'' hn
    rw [hl', Option.some.injEq] at hl''
    subst hl''
    have hone : rank CacheState.shared = 1 := rfl
    rcases hc.below k j l hl hn with ⟨lj, hlj, hle⟩ | ⟨haway, -⟩
    · exact .inl ⟨lj, hlj, by rw [hone]; omega⟩
    · exact .inr ⟨haway, by rw [hone]; omega⟩
  · intro m lm hn hlm
    exact .inl ⟨_, hcopy', hprevs m lm hn hlm⟩
  · intro j l' hl''
    rw [hheld] at hl''
    cases hl''
  · intro m lm _ hm
    rw [hidle] at hm
    cases hm
  · intro l' hl''
    rw [hcopy', Option.some.injEq] at hl''
    subst hl''
    by_cases hm : l.cstate = .modified
    · exact .inl (show l.data = e.contents from hc.contents_of_dirty hcopy hm hclean)
    · rcases hc.fresh k l hcopy with hf | ⟨hm', -⟩ | ⟨hs, hloose, -⟩
      · exact .inl hf
      · exact absurd hm' hm
      · exact .inr (.inr ⟨hs, hloose, by simp⟩)
  · rintro j lj hn - ⟨l', hl'', hm⟩ hnot -
    rw [hcopy, Option.some.injEq] at hl''
    subst hl''
    exact absurd (hpaid hm (by simp [hn])) hnot
  · rintro j - - ⟨l', hl'', hm⟩
    rw [hcopy', Option.some.injEq] at hl''
    subst hl''
    cases hm
  · intro _ hgone
    rw [hcopy] at hgone
    cases hgone
  · rintro hlast he ⟨l', hl'', hm⟩
    rw [hcopy, Option.some.injEq] at hl''
    exact absurd (hl'' ▸ hm) (hkept hlast he)

/-- A controller gives up its line to ask the next level for a better one. -/
theorem Good.giveUp (h : c.Good H e) (hidle : c.held = fun _ => none) (hoff : AgreeOff k c c')
    (hl : c.line k = some l) (hm : l.cstate ≠ .modified) (hl' : c'.line k = none)
    (hheld : c'.held k = none) (hbuf : c'.buf k = c.buf k) (hhome : e.away = none)
    (hlast : H.next k ≠ none) : c'.Good H { e with away := some k } := by
  have hc := h.of_idle hidle
  have hcopy := copy_of_line hl
  have hcopy' := copy_eq_none.mpr ⟨hl', hheld⟩
  have hc₁ : c.Current H { e with away := some k } := by
    refine ⟨hc.legal, fun i j l hi hn => ?_, hc.owed, hc.fresh, hc.settled, hc.flushed⟩
    rcases hc.below i j l hi hn with hb | ⟨haway, -⟩
    · exact .inl hb
    · rw [hhome] at haway
      cases haway
  have hclean : ¬c.Dirty k := by
    rintro ⟨l', hl'', hm'⟩
    rw [hcopy, Option.some.injEq] at hl''
    exact hm (hl'' ▸ hm')
  refine ⟨h.placed.off hoff ?_ ?_, .inr (hc₁.change hoff ?_ ?_ ?_ ?_ ?_ ?_ ?_ ?_ ?_ ?_)⟩
  · intro _ _
    exact hheld
  · intro d hd
    rw [hbuf] at hd
    obtain ⟨l', hl'⟩ := h.placed.buffered k d hd
    rw [hidle] at hl'
    cases hl'
  · intro l' hl''
    rw [hcopy'] at hl''
    cases hl''
  · intro j l' hl''
    rw [hl'] at hl''
    cases hl''
  · intro m lm hn hlm
    refine .inr ⟨rfl, ?_⟩
    rcases hc.below m k lm hlm hn with ⟨l', hl'', hle⟩ | ⟨haway, -⟩
    · rw [hcopy, Option.some.injEq] at hl''
      subst hl''
      exact hle.trans (rank_le_two hm)
    · rw [hhome] at haway
      cases haway
  · intro j l' hl''
    rw [hheld] at hl''
    cases hl''
  · intro m lm _ hm
    rw [hidle] at hm
    cases hm
  · intro l' hl''
    rw [hcopy'] at hl''
    cases hl''
  · intro j lj hn hlj hd
    exact absurd hd hclean
  · rintro j - - ⟨l', hl'', -⟩
    rw [hcopy'] at hl''
    cases hl''
  · intro hk
    exact absurd (hk ▸ H.next_eq_none.mpr rfl) hlast
  · intro hk
    exact absurd (hk ▸ H.next_eq_none.mpr rfl) hlast

/-- A controller takes the line of the next level, with no MODIFIED line in a previous level
and none at all unless it gave up its own. -/
theorem Good.fill (h : c.Good H e) (hidle : c.held = fun _ => none) (hoff : AgreeOff k c c')
    (hnone : c.line k = none) (hl' : c'.line k = some l) (hheld : c'.held k = none)
    (hbuf : c'.buf k = c.buf k) (hn : H.next k = some j) (hlj : c.line j = some l)
    (hst : l.cstate ≠ .sharedUpgrading) (hfirst : H.prevs j ≠ [])
    (hclean : ∀ m, H.next m = some j → ¬c.Dirty m)
    (hpaid : ∀ i, ¬e.paid i) (haway : e.away = some k → l.cstate = .modified) {away : Option ι}
    (hback : ∀ a, e.away = some a → a ≠ k → away = some a) :
    c'.Good H { e with away := away } := by
  have hc := h.of_idle hidle
  have hcopy := copy_of_line hl'
  have hkj := H.next_ne hn
  have hcopyj := copy_of_line hlj
  -- no line of a previous level is above the new one
  have hprevs : ∀ m lm, H.next m = some k → c.line m = some lm →
      rank lm.cstate ≤ rank l.cstate := by
    intro m lm hm hlm
    rcases hc.below m k lm hlm hm with ⟨l', hl'', -⟩ | ⟨hk, hle⟩
    · rw [copy_eq_none.mpr ⟨hnone, by rw [hidle]⟩] at hl''
      cases hl''
    · rw [haway hk]
      exact hle.trans (by decide)
  have hdata : l.data = e.contents := by
    rcases hc.fresh j l hcopyj with hf | ⟨-, m, hm, hd⟩ | ⟨-, ⟨hp, -⟩, -⟩
    · exact hf
    · exact absurd hd.1 (hclean m hm)
    · exact absurd hp hfirst
  have hplaced : c'.Placed := by
    refine h.placed.off hoff ?_ ?_
    · intro _ _
      exact hheld
    · intro d hd
      rw [hbuf] at hd
      obtain ⟨l', hl'⟩ := h.placed.buffered k d hd
      rw [hidle] at hl'
      cases hl'
  have hnew : c'.Current H e := by
    refine hc.change hoff ?_ ?_ ?_ ?_ ?_ ?_ ?_ ?_ ?_ ?_
    · intro l' hl''
      rw [hcopy, Option.some.injEq] at hl''
      subst hl''
      rcases hc.legal j l hcopyj with hs | hs | hs | ⟨hs, -⟩
      · exact .inl hs
      · exact .inr (.inl hs)
      · exact .inr (.inr (.inl hs))
      · exact absurd hs hst
    · intro i l' hl'' hi
      rw [hl', Option.some.injEq] at hl''
      rw [hn, Option.some.injEq] at hi
      subst hl'' hi
      exact .inl ⟨l, hcopyj, le_rfl⟩
    · intro m lm hm hlm
      exact .inl ⟨l, hcopy, hprevs m lm hm hlm⟩
    · intro i l' hl''
      rw [hheld] at hl''
      cases hl''
    · intro m lm _ hm
      rw [hidle] at hm
      cases hm
    · intro l' hl''
      rw [hcopy, Option.some.injEq] at hl''
      subst hl''
      exact .inl hdata
    · intro i li _ _ ⟨l', hl'', _⟩
      rw [copy_eq_none.mpr ⟨hnone, by rw [hidle]⟩] at hl''
      cases hl''
    · exact fun i _ hi => absurd hi (hpaid i)
    · intro hk
      rw [hk, H.next_eq_none.mpr rfl] at hn
      cases hn
    · intro hk
      rw [hk, H.next_eq_none.mpr rfl] at hn
      cases hn
  refine ⟨hplaced, .inr ⟨hnew.legal, fun i i' li hi hni => ?_, hnew.owed, hnew.fresh, hnew.settled,
    hnew.flushed⟩⟩
  rcases hnew.below i i' li hi hni with hb | ⟨ha, hle⟩
  · exact .inl hb
  · by_cases hik : i' = k
    · subst hik
      have hi' : c.line i = some li := (hoff.line i (H.next_ne hni).symm).symm.trans hi
      exact .inl ⟨l, hcopy, hprevs i li hni hi'⟩
    · exact .inr ⟨hback i' ha hik, hle⟩

/-- What was written to the next level may be forgotten. -/
theorem Good.unpay (h : c.Good H (e.pay k)) : c.Good H e := by
  refine ⟨h.placed, h.current.imp id fun hc => ⟨hc.legal, hc.below, hc.owed, ?_, ?_, hc.flushed⟩⟩
  · intro i l hl
    rcases hc.fresh i l hl with hf | ⟨hm, m, hn, hd, hp⟩ | hf
    · exact .inl hf
    · exact .inr (.inl ⟨hm, m, hn, hd, fun hpm => hp (.inl hpm)⟩)
    · exact .inr (.inr hf)
  · exact fun k' m hp => hc.settled k' m (.inl hp)

section Put

variable [DecidableEq ι]

/-- New contents for the line of a cache, or else for its evicting buffer. -/
def put (c : Copies ι D) (j : ι) (d : D) : Copies ι D :=
  match c.line j with
  | some l => { c with line := Function.update c.line j (some { l with data := d }) }
  | none => { c with buf := Function.update c.buf j (some d) }

/-- There is something to write to: a line, or a buffer. -/
def Takes (c : Copies ι D) (j : ι) : Prop := c.line j ≠ none ∨ c.buf j ≠ none

theorem put_off (c : Copies ι D) (j : ι) (d : D) : AgreeOff j c (c.put j d) := by
  unfold put
  split
  · exact ⟨fun i hi => Function.update_of_ne hi _ _, fun _ _ => rfl, fun _ _ => rfl, rfl⟩
  · exact ⟨fun _ _ => rfl, fun _ _ => rfl, fun i hi => Function.update_of_ne hi _ _, rfl⟩

theorem AgreeOff.put (h : AgreeOff i c c') (hij : i ≠ j) (d : D) :
    AgreeOff i (c.put j d) (c'.put j d) := by
  have hline := h.line j hij.symm
  unfold Copies.put
  rw [hline]
  split
  · refine ⟨fun m hm => ?_, h.held, h.buf, h.sent⟩
    by_cases hmj : m = j
    · simp [hmj]
    · simp [hmj, h.line m hm]
  · refine ⟨h.line, h.held, fun m hm => ?_, h.sent⟩
    by_cases hmj : m = j
    · simp [hmj]
    · simp [hmj, h.buf m hm]

@[simp] theorem put_held (c : Copies ι D) (j : ι) (d : D) : (c.put j d).held = c.held := by
  unfold put
  split <;> rfl

theorem put_line {d : D} (h : (c.put j d).line j = some l) :
    ∃ l', c.line j = some l' ∧ l.cstate = l'.cstate := by
  unfold put at h
  split at h
  · rename_i l' hl'
    simp only [Function.update_self, Option.some.injEq] at h
    exact ⟨l', hl', by rw [← h]⟩
  · rename_i hnone
    rw [hnone] at h
    cases h

theorem put_copy (c : Copies ι D) (j : ι) (d : D) :
    (c.put j d).copy j = (c.copy j).map fun l => { l with data := d } := by
  unfold put
  split
  · rename_i l hl
    simp [copy, hl]
  · rename_i hnone
    cases hheld : c.held j <;> simp [copy, hnone, hheld]

theorem Placed.put (h : c.Placed) (d : D) (htakes : c.Takes j) : (c.put j d).Placed := by
  refine h.off (put_off c j d) ?_ ?_
  · intro l hl
    obtain ⟨l', hl', -⟩ := put_line hl
    rw [put_held]
    exact h.apart j l' hl'
  · intro d' hd'
    rw [put_held]
    unfold Copies.put at hd'
    split at hd'
    · exact h.buffered j d' hd'
    · rename_i hnone
      rcases htakes with hline | hbuf
      · exact absurd hnone hline
      · obtain ⟨d₀, hd₀⟩ := Option.ne_none_iff_exists'.mp hbuf
        exact h.buffered j d₀ hd₀

omit [DecidableEq ι] in
theorem Takes.copy_ne_none (htakes : c.Takes j) (h : c.Placed) : c.copy j ≠ none := by
  intro hnone
  obtain ⟨hline, hheld⟩ := copy_eq_none.mp hnone
  rcases htakes with htakes | htakes
  · exact htakes hline
  · obtain ⟨d, hd⟩ := Option.ne_none_iff_exists'.mp htakes
    obtain ⟨l, hl⟩ := h.buffered j d hd
    rw [hheld] at hl
    cases hl

/-- New contents for a copy: those of the line, or those of a copy that is MODIFIED in a
previous level. -/
theorem Good.put {d : D} (h : c.Good H e) (htakes : c.Takes j)
    (hd : c.Current H e → d = e.contents ∨ ∃ k, H.next k = some j ∧ c.Dirty k ∧ ¬e.paid k) :
    (c.put j d).Good H e := by
  have hoff := put_off c j d
  have hcopy := put_copy c j d
  have hheld : (c.put j d).held j = c.held j := by rw [put_held]
  have hdirty : (c.put j d).Dirty j ↔ c.Dirty j := by
    simp only [Dirty, hcopy, Option.map_eq_some_iff]
    constructor
    · rintro ⟨-, ⟨l, hl, rfl⟩, hm⟩
      exact ⟨l, hl, hm⟩
    · rintro ⟨l, hl, hm⟩
      exact ⟨_, ⟨l, hl, rfl⟩, hm⟩
  refine ⟨h.placed.put d htakes,
    h.current.imp (fun hdoom => hdoom.off hoff (fun _ => put_line) hheld)
    fun hc => hc.change hoff ?_ ?_ ?_ ?_ ?_ ?_ ?_ ?_ ?_ ?_⟩
  · intro l hl
    rw [hcopy, Option.map_eq_some_iff] at hl
    obtain ⟨l', hl', rfl⟩ := hl
    exact hc.legal j l' hl'
  · intro i l hl hn
    obtain ⟨l', hl', hst⟩ := put_line hl
    rw [hst]
    exact hc.below j i l' hl' hn
  · intro k l hk hl
    rcases hc.below k j l hl hk with ⟨l', hl', hle⟩ | haway
    · exact .inl ⟨{ l' with data := d }, by rw [hcopy, hl']; rfl, hle⟩
    · exact .inr haway
  · intro i l hl hm hn
    exact hc.owed j i l (hheld ▸ hl) hm hn
  · intro k l hk hl hm
    exact hdirty.mpr (hc.owed k j l hl hm hk)
  · intro l hl
    rw [hcopy, Option.map_eq_some_iff] at hl
    obtain ⟨l', hl', rfl⟩ := hl
    rcases hd hc with hd | ⟨k, hk, hdk, hp⟩
    · exact .inl hd
    · refine .inr (.inl ⟨?_, k, hk, hdk, hp⟩)
      obtain ⟨lj, hlj, hm⟩ := hc.dirty_next hdk hk
      rw [hl', Option.some.injEq] at hlj
      exact hlj ▸ hm
  · intro i l hn hl hdj _ hdj'
    exact absurd (hdirty.mpr hdj) hdj'
  · exact fun _ _ _ => hdirty.mp
  · intro _ hgone
    rw [hcopy, hgone]
    rfl
  · exact fun _ _ => hdirty.mpr

/-- A controller writes the contents of its MODIFIED copy to the next level: it may give up the
copy then, unless newer contents are on their way to it. -/
theorem Good.writeUp (h : c.Good H e) (htakes : c.Takes j) (hn : H.next k = some j)
    (hl : c.copy k = some l) (hm : l.cstate = .modified)
    (hprevs : ∀ m lm, H.next m = some k → c.line m = some lm → rank lm.cstate ≤ 2) :
    (c.put j l.data).Good H e ∧ (c.Pending H k ∨ (c.put j l.data).Good H (e.pay k)) := by
  have hdirty : c.Dirty k := ⟨l, hl, hm⟩
  have hdata : c.Current H e → ¬c.Pending H k → l.data = e.contents := fun hc hp =>
    hc.contents_of_dirty hl hm (not_dirty_of_not_pending hp hprevs)
  have hoff := put_off c j l.data
  have hput : (c.put j l.data).Good H e := by
    refine h.put htakes fun hc => ?_
    by_cases hp : c.Pending H k
    · refine .inr ⟨k, hn, hdirty, fun hpaid => ?_⟩
      obtain ⟨m, lm, hnm, hheldm, hmod⟩ := hp
      have hline : c.line m = none := by
        cases hlm : c.line m with
        | none => rfl
        | some lm' =>
          rw [h.placed.apart m lm' hlm] at hheldm
          cases hheldm
      exact hc.settled k m hpaid hnm ⟨_, copy_of_held hline hheldm, hmod⟩
    · exact .inl (hdata hc hp)
  refine ⟨hput, ?_⟩
  by_cases hp : c.Pending H k
  · exact .inl hp
  have hclean := not_dirty_of_not_pending hp hprevs
  refine .inr ⟨hput.placed, ?_⟩
  rcases h.current with hd | hc
  · exact .inl (hd.off hoff (fun _ => put_line) (by rw [put_held]))
  rcases hput.current with hd | hc'
  · exact .inl hd
  refine .inr ⟨hc'.legal, hc'.below, hc'.owed, ?_, ?_, hc'.flushed⟩
  · intro i li hi
    by_cases hij : i = j
    · subst hij
      rw [put_copy, Option.map_eq_some_iff] at hi
      obtain ⟨li', -, rfl⟩ := hi
      exact .inl (hdata hc hp)
    · rcases hc'.fresh i li hi with hf | ⟨hmi, m, hnm, hd, hpaid⟩ | hf
      · exact .inl hf
      · refine .inr (.inl ⟨hmi, m, hnm, hd, ?_⟩)
        rintro (hpm | rfl)
        · exact hpaid hpm
        · rw [hn, Option.some.injEq] at hnm
          exact hij hnm.symm
      · exact .inr (.inr hf)
  · rintro k' m (hpaid | rfl) hnm hd
    · exact hc'.settled k' m hpaid hnm hd
    · have hmj : m ≠ j := by
        rintro rfl
        have h₁ := H.level_lt hn
        have h₂ := H.level_lt hnm
        omega
      exact hclean m hnm ((hoff.dirty hmj).mp hd)

/-- A copy whose contents the next level has taken may leave its controller. -/
theorem Good.leave {d : D} (hput : (c.put j d).Good H e) (htakes : (c.put j d).copy j ≠ none)
    (hn : H.next k = some j) (hoff : AgreeOff k c c') (hl : c.copy k = some l)
    (hnone : c'.copy k = none) (hbuf : c'.buf k = none)
    (hprevs : ∀ m, H.next m = some k → c.line m = none) (hpaid : e.paid k ∨ c.Pending H k) :
    (c'.put j d).Good H e := by
  have hkj : k ≠ j := (H.next_ne hn).symm
  have hputoff := put_off c j d
  have hputoff' := put_off c' j d
  refine (hput.vanish (hoff.put hkj d) ((hputoff.copy hkj).trans hl)
    ((hputoff'.copy hkj).trans hnone) ((hputoff'.buf k hkj).trans hbuf) ?_ ?_ ?_ ?_).1
  · intro m hm
    have hmj : m ≠ j := by
      rintro rfl
      exact absurd (H.level_lt hm) (not_lt.mpr (H.level_lt hn).le)
    exact (hputoff.line m hmj).trans (hprevs m hm)
  · intro _ _
    refine hpaid.imp id ?_
    rintro ⟨m, lm, hm, hheld, hmod⟩
    exact ⟨m, lm, hm, by rwa [put_held], hmod⟩
  · intro lk j' _ _ hj'
    rw [hn, Option.some.injEq] at hj'
    exact hj' ▸ htakes
  · rintro rfl
    rw [H.next_eq_none.mpr rfl] at hn
    cases hn

end Put

end Copies

end Sniper.Levels
