import Sniper.Levels.Answers
set_option autoImplicit false

/-! Every event keeps the copies of its line good, and leaves the waiters in order. -/

namespace Sniper.Levels
open Sniper.Coherence (MsgType ShmemMsg)
open Sniper.Lib (except_bind_eq_ok)
open Levels.Core

variable {ι Addr D : Type}

namespace Accesses

variable [DecidableEq Addr] {H : Hierarchy ι Addr} {acc acc' : Accesses ι Addr D} {X : Addr}

/-- The waiters of a line that the network thread has not woken yet. -/
def waiting (acc : Accesses ι Addr D) (a : Addr) : List (Waiter ι D) :=
  if acc.serving = some a then (acc.waiters a).tail else acc.waiters a

/-- Every user thread that waits is in one queue. -/
structure Queued (H : Hierarchy ι Addr) (acc : Accesses ι Addr D) : Prop where
  blocked : ∀ a, ∀ w ∈ acc.waiting a, acc.blocked w.cache = some a
  nodup : ∀ a, ((acc.waiting a).map Waiter.cache).Nodup
  served : ∀ a, acc.serving = some a → acc.waiters a ≠ []
  loose : ∀ i a, acc.blocked i = some a → H.Loose i

/-- With nobody served, all of them wait. -/
theorem Queued.of_idle (h : Queued H acc) (hidle : acc.serving = none) {a : Addr} :
    (∀ w ∈ acc.waiters a, acc.blocked w.cache = some a) ∧
      ((acc.waiters a).map Waiter.cache).Nodup := by
  have hwaiting : acc.waiting a = acc.waiters a := by simp [waiting, hidle]
  exact ⟨hwaiting ▸ h.blocked a, hwaiting ▸ h.nodup a⟩

theorem Queued.written {written : Addr → D} (h : Queued H acc) :
    Queued H { acc with written := written } :=
  ⟨h.blocked, h.nodup, h.served, h.loose⟩

variable [DecidableEq ι]

/-- One more user thread waits. -/
theorem Queued.wait {k : ι} {op : MemOp D} (h : Queued H acc) (hk : H.Loose k)
    (hfree : acc.blocked k = none) :
    Queued H { acc with
      waiters := Function.update acc.waiters X (acc.waiters X ++ [⟨k, op⟩])
      blocked := Function.update acc.blocked k (some X) } := by
  set acc' : Accesses ι Addr D := { acc with
    waiters := Function.update acc.waiters X (acc.waiters X ++ [⟨k, op⟩])
    blocked := Function.update acc.blocked k (some X) } with hacc'
  have hwaiting : ∀ a, acc'.waiting a = acc.waiting a ++ if a = X then [⟨k, op⟩] else [] := by
    intro a
    by_cases ha : a = X
    · subst ha
      simp only [waiting, hacc', Function.update_self, if_true]
      split
      · rename_i hs
        obtain ⟨w, rest, hcons⟩ := List.exists_cons_of_ne_nil (h.served a hs)
        simp [hcons]
      · rfl
    · simp [waiting, hacc', ha]
  have hother : ∀ a, ∀ w ∈ acc.waiting a, w.cache ≠ k := by
    rintro a w hmem rfl
    rw [h.blocked a w hmem] at hfree
    cases hfree
  refine ⟨fun a w hmem => ?_, fun a => ?_, fun a ha => ?_, fun i a hi => ?_⟩
  · change Function.update acc.blocked k (some X) w.cache = some a
    rw [hwaiting, List.mem_append] at hmem
    rcases hmem with hmem | hmem
    · rw [Function.update_of_ne (hother a w hmem)]
      exact h.blocked a w hmem
    · split at hmem
      · rename_i ha
        obtain rfl := List.mem_singleton.mp hmem
        rw [Function.update_self, ha]
      · cases hmem
  · rw [hwaiting]
    split
    · rw [List.map_append]
      refine List.nodup_append.mpr ⟨h.nodup a, by simp, ?_⟩
      intro i hi j hj
      obtain ⟨w, hmem, rfl⟩ := List.mem_map.mp hi
      obtain rfl : j = k := by simpa using hj
      exact hother a w hmem
    · rw [List.append_nil]
      exact h.nodup a
  · by_cases haX : a = X
    · simp [hacc', haX]
    · simpa [hacc', haX] using h.served a ha
  · change Function.update acc.blocked k (some X) i = some a at hi
    by_cases hik : i = k
    · exact hik ▸ hk
    · rw [Function.update_of_ne hik] at hi
      exact h.loose i a hi

/-- The first waiter is woken. -/
theorem Queued.wake {w : Waiter ι D} {rest : List (Waiter ι D)} (h : Queued H acc)
    (hidle : acc.serving = none) (hcons : acc.waiters X = w :: rest) :
    Queued H { acc with
      serving := some X
      blocked := Function.update acc.blocked w.cache none } := by
  have hfirst := (h.of_idle hidle).1 w (by rw [hcons]; exact List.mem_cons_self)
  refine ⟨fun a w' hw' => ?_, fun a => ?_, fun a ha => ?_, fun i a hi => ?_⟩
  · simp only [waiting, Option.some.injEq] at hw'
    have hne : w'.cache ≠ w.cache := by
      intro heq
      split at hw'
      · rename_i ha
        subst ha
        rw [hcons, List.tail_cons] at hw'
        have hnodup := (h.of_idle hidle (a := X)).2
        rw [hcons, List.map_cons, List.nodup_cons] at hnodup
        exact hnodup.1 (heq ▸ List.mem_map_of_mem hw')
      · rename_i ha
        have hblocked := (h.of_idle hidle).1 w' hw'
        rw [heq, hfirst, Option.some.injEq] at hblocked
        exact ha hblocked
    refine (Function.update_of_ne hne _ _).trans ((h.of_idle hidle).1 w' ?_)
    split at hw'
    · exact List.mem_of_mem_tail hw'
    · exact hw'
  · simp only [waiting]
    split
    · rw [List.map_tail]
      exact (h.of_idle hidle).2.tail
    · exact (h.of_idle hidle).2
  · obtain rfl := Option.some.inj ha
    rw [hcons]
    simp
  · change Function.update acc.blocked w.cache none i = some a at hi
    by_cases hik : i = w.cache
    · subst hik
      rw [Function.update_self] at hi
      cases hi
    · rw [Function.update_of_ne hik] at hi
      exact h.loose i a hi

omit [DecidableEq ι] in
/-- The waiter that was served leaves its queue. -/
theorem Queued.finish (h : Queued H acc) (hserving : acc.serving = some X) :
    Queued H { acc with
      waiters := Function.update acc.waiters X (acc.waiters X).tail
      serving := none } := by
  have hwaiting : ∀ a, Function.update acc.waiters X (acc.waiters X).tail a = acc.waiting a := by
    intro a
    by_cases ha : a = X
    · subst ha
      simp [waiting, hserving]
    · simp [waiting, hserving, ha, Ne.symm ha]
  refine ⟨fun a w hw => ?_, fun a => ?_, fun a ha => by simp at ha, h.loose⟩
  · refine h.blocked a w ?_
    rw [← hwaiting]
    simpa [waiting] using hw
  · simp only [waiting, if_false, hwaiting, reduceCtorEq]
    exact h.nodup a

end Accesses

namespace Hierarchy

variable [DecidableEq ι] [DecidableEq Addr]
variable {H : Hierarchy ι Addr} {X : Addr} {strict dirty : Prop} {before : List (ShmemMsg D)}
variable {s s' u : Core ι Addr D} {out : Option D} {k : ι} {op : MemOp D}

/-- A cache whose user thread waits for a line does not have it. -/
def Absent (X : Addr) (s : Core ι Addr D) : Prop :=
  ∀ i, s.accesses.blocked i = some X → s.lines i X = none

/-- What an event makes of the line it is about, and of the waiters. -/
structure Handled (H : Hierarchy ι Addr) (X : Addr) (strict : Prop) (before : List (ShmemMsg D))
    (dirty : Prop) (out : Option D) (s s' : Core ι Addr D) : Prop where
  fine : H.Fine X strict before dirty s'
  queued : s'.accesses.Queued H
  absent : Absent X s'
  blocked : ∀ i a, a ≠ X → s'.accesses.blocked i = some a → s.accesses.blocked i = some a
  returns : Returns X strict out s'
  written : ∀ a, a ≠ X → s'.accesses.written a = s.accesses.written a

omit [DecidableEq ι] in
/-- An access that went through, of a cache that did not wait. -/
theorem Contained.handled (hc : H.Contained X k s s') (hq : s.accesses.Queued H)
    (habsent : Absent X s) (hfree : s.accesses.blocked k = none)
    (hs' : H.Fine X strict before dirty s') (hret : Returns X strict out s') :
    H.Handled X strict before dirty out s s' where
  fine := hs'
  queued := by
    rw [hc.accesses]
    exact hq.written
  absent i hi := by
    rw [hc.accesses] at hi
    refine hc.first i (hq.loose i X hi).1 ?_ (habsent i hi)
    rintro rfl
    rw [hfree] at hi
    cases hi
  blocked i a _ hi := by
    rw [hc.accesses] at hi
    exact hi
  returns := hret
  written := hc.written

theorem Waiting.handled (hw : H.Waiting X k op s s') (hq : s.accesses.Queued H)
    (habsent : Absent X s) (hk : H.prevs k = []) (hfree : s.accesses.blocked k = none)
    (hs' : H.Fine X strict before dirty s') (hret : Returns X strict out s') :
    H.Handled X strict before dirty out s s' where
  fine := hs'
  queued := by
    rw [hw.accesses]
    exact hq.wait ⟨hk, hw.next⟩ hfree
  absent i hi := by
    rw [hw.accesses] at hi
    change Function.update s.accesses.blocked k (some X) i = some X at hi
    by_cases hik : i = k
    · exact hik ▸ hw.line
    · rw [Function.update_of_ne hik] at hi
      exact hw.first i (hq.loose i X hi).1 (habsent i hi)
  blocked i a ha hi := by
    rw [hw.accesses] at hi
    change Function.update s.accesses.blocked k (some X) i = some a at hi
    by_cases hik : i = k
    · subst hik
      rw [Function.update_self, Option.some.injEq] at hi
      exact absurd hi.symm ha
    · rwa [Function.update_of_ne hik] at hi
  returns := hret
  written a _ := by rw [hw.accesses]

/-- A store of the user thread that is woken next meets no other copy. -/
def NextAlone (H : Hierarchy ι Addr) (X : Addr) (strict : Prop)
    (waiters : List (Waiter ι D)) (s : Core ι Addr D) : Prop :=
  ∀ w ∈ waiters.head?, w.op.stores = true → strict → H.ExclusiveAbove X w.cache s →
    H.Alone X w.cache s

/-- The network thread wakes a waiter, or asks for an upgrade, or there is none left. -/
theorem serveWaiters_keeps
    (hq : Accesses.Queued H { s.accesses with serving := none }) (habsent : Absent X s)
    (halone : H.NextAlone X strict (s.accesses.waiters X) s)
    (h : H.serveWaiters X s = .ok (out, s')) (hs : H.Fine X strict before dirty s) :
    H.Handled X strict before dirty out s s' := by
  unfold serveWaiters at h
  split at h
  · cases h
    exact ⟨hs.accesses rfl, hq, habsent, fun _ _ _ => id, returns_none, fun _ _ => rfl⟩
  rename_i w rest hcons
  split at h
  · rename_i hst
    cases h
    exact ⟨processUpgradeReqToDirectory_keeps hst.2 (hs.accesses rfl), hq,
      fun i hi => processUpgradeReqToDirectory_gone (habsent i hi), fun _ _ _ => id, returns_none,
      fun _ _ => rfl⟩
  · have hblocked := (hq.of_idle rfl).1 w (by rw [hcons]; exact List.mem_cons_self)
    set v : Core ι Addr D := { s with accesses := { s.accesses with
      serving := some X
      blocked := Function.update s.accesses.blocked w.cache none } } with hv
    have hwoken : ∀ i a, v.accesses.blocked i = some a → s.accesses.blocked i = some a := by
      intro i a hi
      change Function.update s.accesses.blocked w.cache none i = some a at hi
      by_cases hik : i = w.cache
      · subst hik
        rw [Function.update_self] at hi
        cases hi
      · rwa [Function.update_of_ne hik] at hi
    obtain ⟨hs', hcont, hret⟩ := resume_keeps (s := v) (hq.loose w.cache X hblocked).1
      (habsent w.cache hblocked) (halone w (by simp [hcons])) h (hs.accesses rfl)
    have hhandled := hcont.handled (hq.wake rfl hcons) (fun i hi => habsent i (hwoken i X hi))
      (Function.update_self _ _ _) hs' hret
    exact ⟨hhandled.fine, hhandled.queued, hhandled.absent,
      fun i a ha hi => hwoken i a (hhandled.blocked i a ha hi), hret, hhandled.written⟩

/-- The copies in the first level agree with the line of the last one. -/
def Agree (H : Hierarchy ι Addr) (X : Addr) (s : Core ι Addr D) : Prop :=
  ∀ i l L, H.Loose i → s.lines i X = some l → s.lines H.last X = some L → l.data = L.data

/-- The events that keep the copies of every line good: a store meets no sibling's copy that it would
leave out of date, and an upgrade raises none that is. -/
def Careful (H : Hierarchy ι Addr) (strict : Prop) (s : Core ι Addr D) : Event ι Addr D → Prop
  | .memOp k op a => op.stores = true →
      (permissible op (s.lines k a) = true → H.Lets a strict k s) ∧
        (strict → H.ExclusiveAbove a k s → H.Alone a k s)
  | .message a msg _ _ => msg.msgType = .upgradeRep → ¬strict → H.Agree a s
  | .finishWaiter => ∀ a ∈ s.accesses.serving,
      H.NextAlone a strict (s.accesses.waiters a).tail s

/-- A reply, and then the waiters. -/
theorem processReply_keeps {reply : Core ι Addr D → Outcome (Core ι Addr D)}
    (hq : s.accesses.Queued H) (hidle : s.accesses.serving = none)
    (hreply : ∀ {u}, reply s = .ok u → H.Fine X strict before dirty u ∧
      u.accesses = { s.accesses with written := u.accesses.written } ∧
      (∀ a, a ≠ X → u.accesses.written a = s.accesses.written a) ∧ Absent X u ∧
      ∀ k, H.Loose k → ¬H.ExclusiveAbove X k u)
    (h : H.processReply X reply s = .ok (out, s')) :
    H.Handled X strict before dirty out s s' := by
  unfold processReply at h
  split at h
  · cases h
  simp only [except_bind_eq_ok] at h
  obtain ⟨u, hu, h⟩ := h
  obtain ⟨hfine, hacc, hwritten, habsent', hex⟩ := hreply hu
  have hserving : u.accesses.serving = none := by rw [hacc, hidle]
  have hq' : u.accesses.Queued H := by
    rw [hacc]
    exact hq.written
  have hsame : { u.accesses with serving := none } = u.accesses := by rw [← hserving]
  have hhandled := serveWaiters_keeps (hsame ▸ hq') habsent' (fun w hw _ _ hk => absurd hk ?_) h
    hfine
  · refine ⟨hhandled.fine, hhandled.queued, hhandled.absent, fun i a ha hi => ?_,
      hhandled.returns, fun a ha => (hhandled.written a ha).trans (hwritten a ha)⟩
    have hblocked := hhandled.blocked i a ha hi
    rw [hacc] at hblocked
    exact hblocked
  · have hblocked := (hq'.of_idle hserving).1 w (List.mem_of_mem_head? hw)
    exact hex _ (hq'.loose _ _ hblocked)

/-- The network thread handles a message of the directory. -/
theorem handleMsgFromDramDirectory_keeps {msg : ShmemMsg D} {memory unwritten : D}
    (hq : s.accesses.Queued H) (habsent : Absent X s)
    (hagree : msg.msgType = .upgradeRep → ¬strict → H.Agree X s)
    (h : H.handleMsgFromDramDirectory X msg memory unwritten s = .ok (out, s'))
    (hs : H.Fine X strict before dirty s) (hbefore : (s.copies X fun _ => none).sent = before) :
    H.Handled X strict before dirty out s s' := by
  have hlessens : ∀ {u : Core ι Addr D}, H.Fine X strict before dirty u → Lessens X s u →
      H.Handled X strict before dirty none s u := fun hu hless =>
    ⟨hu, hless.accesses ▸ hq, fun i hi => hless.gone i (habsent i (hless.accesses ▸ hi)),
      fun i a _ hi => hless.accesses ▸ hi, returns_none, fun a _ => by rw [hless.accesses]⟩
  unfold handleMsgFromDramDirectory at h
  split at h
  · cases h
  rename_i hidle
  have hidle : s.accesses.serving = none := by simpa using hidle
  have hrep : ∀ {cstate : CacheState} {u : Core ι Addr D},
      (cstate = .shared ∨ cstate = .exclusive) →
      H.processRepFromDramDirectory X cstate memory s = .ok u →
      H.Fine X strict before dirty u ∧
      u.accesses = { s.accesses with written := u.accesses.written } ∧
      (∀ a, a ≠ X → u.accesses.written a = s.accesses.written a) ∧ Absent X u ∧
      ∀ k, H.Loose k → ¬H.ExclusiveAbove X k u := by
    intro cstate u hst hu
    obtain ⟨hfine, hlines, hacc⟩ := processRepFromDramDirectory_keeps hst hu hs hbefore
    refine ⟨hfine, by rw [hacc], fun a ha => ?_, fun i hi => ?_, ?_⟩
    · rw [hacc]
      exact Function.update_of_ne ha _ _
    · rw [hacc] at hi
      refine hlines i ?_
      rintro rfl
      exact (hq.loose _ X hi).2 (H.next_eq_none.mpr rfl)
    · rintro k - ⟨j, -, hlast, hex⟩
      rw [hlines j hlast] at hex
      cases hex
  split at h
  · exact processReply_keeps hq hidle (hrep (.inr rfl)) h
  · exact processReply_keeps hq hidle (hrep (.inl rfl)) h
  · rename_i htype
    refine processReply_keeps hq hidle (fun {u} hu => ?_) h
    obtain ⟨hfine, hless, hall⟩ := processUpgradeRepFromDramDirectory_keeps (hagree htype) hu hs
    refine ⟨hfine, by rw [hless.accesses], fun a _ => by rw [hless.accesses], fun i hi => ?_, ?_⟩
    · exact hless.gone i (habsent i (hless.accesses ▸ hi))
    · rintro k - ⟨j, -, -, hex⟩
      obtain ⟨l, hl, hst⟩ := Option.map_eq_some_iff.mp hex
      rw [hall j l hl] at hst
      cases hst
  · simp only [except_bind_eq_ok] at h
    obtain ⟨u, hu, h⟩ := h
    cases h
    obtain ⟨hfine, hshrinks⟩ := processInvReqFromDramDirectory_keeps hu hs
    exact hlessens hfine (lessens_of_shrinks hshrinks)
  · simp only [except_bind_eq_ok] at h
    obtain ⟨u, hu, h⟩ := h
    cases h
    obtain ⟨hfine, hshrinks, -⟩ := processFlushReqFromDramDirectory_keeps hu hs
    exact hlessens hfine (lessens_of_shrinks hshrinks)
  · simp only [except_bind_eq_ok] at h
    obtain ⟨u, hu, h⟩ := h
    cases h
    obtain ⟨hfine, hless, -⟩ := processWbReqFromDramDirectory_keeps hu hs
    exact hlessens hfine hless
  · cases h

/-- A careful event keeps the copies of its line good. -/
theorem step_handled {ev : Event ι Addr D} (hev : ev.addr s = some X)
    (hcareful : H.Careful strict s ev) (hq : s.accesses.Queued H) (habsent : Absent X s) (h : H.step s ev = .ok (out, s'))
    (hs : H.Fine X strict before dirty s) (hbefore : (s.copies X fun _ => none).sent = before) :
    H.Handled X strict before dirty out s s' := by
  cases ev with
  | memOp k op a =>
    obtain rfl : a = X := by simpa [Event.addr] using hev
    obtain ⟨hk, hfree, hs', hret, hcont | hwaiting⟩ := processMemOpFromCore_keeps
      (fun hop => (hcareful hop).1) (fun hop => (hcareful hop).2) h hs
    · exact hcont.handled hq habsent hfree hs' hret
    · exact hwaiting.handled hq habsent hk hfree hs' hret
  | message a msg memory unwritten =>
    obtain rfl : a = X := by simpa [Event.addr] using hev
    exact handleMsgFromDramDirectory_keeps hq habsent hcareful h hs hbefore
  | finishWaiter =>
    have hserving : s.accesses.serving = some X := hev
    simp only [step, finishWaiter, hserving] at h
    set v : Core ι Addr D := { s with accesses := { s.accesses with
      waiters := Function.update s.accesses.waiters X (s.accesses.waiters X).tail } } with hv
    have halone : H.NextAlone X strict (v.accesses.waiters X) v := by
      have hwaiters : v.accesses.waiters X = (s.accesses.waiters X).tail :=
        Function.update_self _ _ _
      rw [hwaiters]
      exact hcareful X hserving
    have hhandled := serveWaiters_keeps (s := v) (hq.finish hserving) habsent halone h
      (hs.accesses rfl)
    exact ⟨hhandled.fine, hhandled.queued, hhandled.absent, hhandled.blocked, hhandled.returns,
      hhandled.written⟩

end Hierarchy

end Sniper.Levels
