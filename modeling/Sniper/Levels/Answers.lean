import Sniper.Levels.Accesses
set_option autoImplicit false

/-! The answers to the directory, and what the network thread does with its replies. -/

namespace Sniper.Levels
open Sniper.Coherence (MsgType ShmemMsg)
open Sniper.Lib (except_bind_eq_ok)
open Levels.Core

variable {ι Addr D : Type} [DecidableEq ι] [DecidableEq Addr]

namespace Hierarchy

variable {H : Hierarchy ι Addr} {X : Addr} {strict dirty : Prop} {before : List (ShmemMsg D)}
variable {s s' u : Core ι Addr D} {out : Option D} {outBuf : Bool} {l : Line D}

omit [DecidableEq ι] in
theorem Fine.of_shrinks (h : H.Fine X strict before dirty s) (hs : Shrinks H X s s')
    (hg : (s'.copies X fun _ => none).Good H (s.expected X strict before dirty)) :
    H.Fine X strict before dirty s' :=
  h.of_confined (k := H.last) (confined_of_shrinks hs) hg

omit [DecidableEq ι] in
theorem Fine.forget (h : H.Fine X strict before dirty s) : H.Fine X strict before False s :=
  ⟨h.good.forget, h.idle⟩

/-- The line leaves the last level and those below it, with its contents for the `out_buf`. -/
theorem call_invalidate {n : ℕ}
    (h : H.call n (.update H.last X .invalid outBuf) s = .ok (out, s'))
    (hs : H.Fine X strict before dirty s) (hdirty : outBuf = true → ¬dirty) :
    H.Fine X strict before dirty s' ∧ Shrinks H X s s' ∧ s'.lines H.last X = none ∧
      (outBuf = true → out = some (s.accesses.written X)) := by
  cases n with
  | zero => cases h
  | succ n =>
    obtain ⟨hg, hshrinks, hnone, hout⟩ := updateCacheBlock_invalidate (call_keeps H X n)
      (fun ho => ⟨rfl, rfl, hdirty ho⟩) h hs.good
    exact ⟨hs.of_shrinks hshrinks hg, hshrinks, hnone, hout⟩

theorem processInvReqFromDramDirectory_keeps
    (h : H.processInvReqFromDramDirectory X s = .ok s') (hs : H.Fine X strict before dirty s) :
    H.Fine X strict before dirty s' ∧ Shrinks H X s s' := by
  unfold processInvReqFromDramDirectory at h
  split at h
  · cases h
    exact ⟨hs, .refl H X s⟩
  · simp only [except_bind_eq_ok] at h
    obtain ⟨⟨o, u⟩, hcall, h⟩ := h
    cases h
    obtain ⟨hu, hshrinks, -⟩ := call_invalidate hcall hs fun ho => by cases ho
    exact ⟨hu.send (by simp), hshrinks.trans (shrinks_send X _ _)⟩

omit [DecidableEq ι] in
/-- The reply gives the contents back. -/
theorem Fine.sendBack {t : MsgType} (h : H.Fine X strict before False s)
    (ht : t = .flushRep ∨ t = .wbRep) (hgone : t = .flushRep → s.lines H.last X = none) :
    H.Fine X strict before dirty (s.send X t (some (s.accesses.written X))) := by
  refine ⟨?_, h.idle⟩
  refine Copies.Good.sendBack (e := (s.send X t _).expected X strict before dirty) h.good rfl rfl
    rfl (copies_send t _) (.inr ⟨⟨ht, rfl⟩, fun hflush => ?_⟩)
  exact Copies.copy_eq_none.mpr ⟨hgone hflush, rfl⟩

omit [DecidableEq ι] [DecidableEq Addr] in
/-- The last message that was sent. -/
theorem send_getLast (a : Addr) (t : MsgType) (buf : Option D) :
    (s.send a t buf).sent.getLast? = some (a, ⟨t, buf⟩) := List.getLast?_concat

/-- A line that is held is given back with its contents. -/
theorem processFlushReqFromDramDirectory_keeps
    (h : H.processFlushReqFromDramDirectory X s = .ok s') (hs : H.Fine X strict before dirty s) :
    H.Fine X strict before dirty s' ∧ Shrinks H X s s' ∧ (s.lines H.last X ≠ none →
      s'.sent.getLast? = some (X, ⟨.flushRep, some (s.accesses.written X)⟩)) := by
  unfold processFlushReqFromDramDirectory at h
  split at h
  · rename_i hnone
    cases h
    exact ⟨hs, .refl H X s, fun hne => absurd hnone hne⟩
  · simp only [except_bind_eq_ok] at h
    obtain ⟨⟨o, u⟩, hcall, h⟩ := h
    cases h
    obtain ⟨hu, hshrinks, hnone, hout⟩ := call_invalidate hcall hs.forget fun _ => id
    obtain rfl : o = some (u.accesses.written X) := by rw [hshrinks.accesses, hout rfl]
    refine ⟨hu.sendBack (.inl rfl) fun _ => hnone, hshrinks.trans (shrinks_send X _ _), fun _ => ?_⟩
    rw [send_getLast, hshrinks.accesses]

/-- No line appears, and nothing else is under way. -/
structure Lessens (X : Addr) (s s' : Core ι Addr D) : Prop where
  gone : ∀ i, s.lines i X = none → s'.lines i X = none
  accesses : s'.accesses = s.accesses

omit [DecidableEq ι] [DecidableEq Addr] in
theorem lessens_of_shrinks (h : Shrinks H X s s') : Lessens X s s' :=
  ⟨fun _ => h.gone, h.accesses⟩

/-- The lines become SHARED, with the contents of the last one for the `out_buf`. -/
theorem call_share {n : ℕ} (h : H.call n (.update H.last X .shared true) s = .ok (out, s'))
    (hs : H.Fine X strict before False s) :
    H.Fine X strict before False s' ∧ Lessens X s s' ∧ out = some (s.accesses.written X) := by
  cases n with
  | zero => cases h
  | succ n =>
    obtain ⟨hg, ⟨u, -, hshrinks, hshares⟩, hout⟩ := updateCacheBlock_share (call_keeps H X n)
      (fun _ => ⟨rfl, id⟩) h hs.good
    have hacc : s'.accesses = s.accesses := hshares.accesses.trans hshrinks.accesses
    refine ⟨⟨by rw [expected, hacc]; exact hg, fun i => ?_⟩, ⟨fun i hi => ?_, hacc⟩, hout rfl⟩
    · rw [hshares.evicting]
      exact hshrinks.idle hs.idle i
    · by_cases hlast : i = H.last
      · rw [hlast, hshares.line, ← hlast, hshrinks.gone hi]
        rfl
      · rw [hshares.off i hlast, hshrinks.gone hi]

/-- A line that is held is written back with its contents, unless it is SHARED_UPGRADING. -/
theorem processWbReqFromDramDirectory_keeps {unwritten : D}
    (h : H.processWbReqFromDramDirectory X unwritten s = .ok s')
    (hs : H.Fine X strict before dirty s) :
    H.Fine X strict before dirty s' ∧ Lessens X s s' ∧ (s.lines H.last X ≠ none →
      s'.sent.getLast? = some (X, ⟨.wbRep, some (
        if (s.lines H.last X).map Line.cstate = some .sharedUpgrading then unwritten
        else s.accesses.written X)⟩)) := by
  unfold processWbReqFromDramDirectory at h
  split at h
  · rename_i hnone
    cases h
    exact ⟨hs, ⟨fun _ => id, rfl⟩, fun hne => absurd hnone hne⟩
  rename_i l hl
  split at h
  · rename_i hst
    cases h
    refine ⟨hs.send (by simp), ⟨fun _ => id, rfl⟩, fun _ => ?_⟩
    rw [send_getLast, if_pos (by rw [hl, Option.map_some, hst])]
  · rename_i hst
    simp only [except_bind_eq_ok] at h
    obtain ⟨⟨o, u⟩, hcall, h⟩ := h
    cases h
    obtain ⟨hu, hless, hout⟩ := call_share hcall hs.forget
    obtain rfl : o = some (u.accesses.written X) := by rw [hless.accesses, hout]
    refine ⟨hu.sendBack (.inr rfl) (by simp), ⟨hless.gone, hless.accesses⟩, fun _ => ?_⟩
    rw [send_getLast, hless.accesses, if_neg (by rw [hl]; simpa using hst)]

theorem insertCacheBlock_absent {self : ι} {cstate : CacheState} {data : D}
    (h : H.insertCacheBlock self X cstate data s = .ok s') : s.lines self X = none := by
  unfold insertCacheBlock at h
  split at h
  · cases h
  · rename_i hnone
    simpa using hnone

/-- The line the directory sent is in the last level, and in no other. -/
theorem processRepFromDramDirectory_keeps {cstate : CacheState} {memory : D}
    (hst : cstate = .shared ∨ cstate = .exclusive)
    (h : H.processRepFromDramDirectory X cstate memory s = .ok s')
    (hs : H.Fine X strict before dirty s) (hbefore : (s.copies X fun _ => none).sent = before) :
    H.Fine X strict before dirty s' ∧ (∀ i, i ≠ H.last → s'.lines i X = none) ∧
      s'.accesses = { s.accesses with
        written := Function.update s.accesses.written X memory } := by
  unfold processRepFromDramDirectory at h
  have hnone : s.lines H.last X = none := by
    have habsent := insertCacheBlock_absent h
    exact habsent
  have hlegal : H.Legal H.last cstate := by
    rcases hst with rfl | rfl
    · exact .inl rfl
    · exact .inr (.inl rfl)
  -- nothing was MODIFIED before
  have hclean : ¬dirty := by
    intro hdirty
    obtain ⟨more, hsent, -, hback⟩ := hs.current.flushed
    have hmore : more = [] := by
      rw [hbefore] at hsent
      simpa [expected] using hsent
    rcases hback hdirty with ⟨l, hl, -⟩ | ⟨msg, hmem, -⟩
    · rw [Copies.copy_idle rfl, copies_line, hnone] at hl
      cases hl
    · rw [hmore] at hmem
      cases hmem
  have harrive := hs.good.arrive (l := ⟨cstate, memory⟩) rfl rfl
    (agreeOff_setLine _ fun _ _ => rfl) hnone setLine_lines_self rfl rfl hlegal
  obtain ⟨hg, hshrinks⟩ := insertCacheBlock_keeps h (harrive.weaken strict fun _ => trivial)
  refine ⟨⟨?_, hshrinks.idle hs.idle⟩, fun i hi => ?_, hshrinks.accesses⟩
  · have hdirty : dirty = False := eq_false hclean
    have hcontents : s'.accesses.written X = memory := by
      rw [hshrinks.accesses]
      exact Function.update_self X memory s.accesses.written
    rw [expected, hcontents, hdirty, ← hbefore]
    exact hg
  · refine hshrinks.gone ((setLine_lines_off hi).trans ?_)
    exact hs.current.none_below rfl rfl hnone i

/-- The line becomes MODIFIED in every cache that has it. -/
theorem call_upgrade {n : ℕ}
    (hagree : ¬strict → ∀ i l L, H.Loose i → s.lines i X = some l → s.lines H.last X = some L →
      l.data = L.data)
    (hlast : ∀ l, s.lines H.last X = some l → l.cstate = .sharedUpgrading)
    (h : H.call n (.update H.last X .modified outBuf) s = .ok (out, s'))
    (hs : H.Fine X strict before dirty s) :
    H.Fine X strict before dirty s' ∧ Lessens X s s' ∧
      (∀ i l, s'.lines i X = some l → l.cstate = .modified) ∧
        (outBuf = true → s.lines H.last X ≠ none) := by
  have hc := hs.current
  have hclean : ∀ i l, s.lines i X = some l → l.cstate ≠ .modified := by
    intro i l hl hm
    obtain ⟨L, hL, hmL⟩ := hc.dirty_above ⟨l, Copies.copy_of_line hl, hm⟩ (above_last i)
    rw [Copies.copy_idle rfl] at hL
    rw [hlast L hL] at hmL
    cases hmL
  obtain ⟨hraised, hsome⟩ := call_raise h hs.idle fun i l _ hl => hclean i l hl
  have hlines : ∀ i, s'.lines i X = (s.lines i X).map fun l => { l with cstate := .modified } :=
    fun i => hraised.raised i (above_last i)
  -- the copies agree with the last level, so they are up to date
  have hgood : (s.copies X fun _ => none).Good H (s.expected X True before dirty) := by
    by_cases hst : strict
    · exact hs.good.weaken True fun _ => hst
    · refine hs.good.strengthen fun i l hi hl => ?_
      rw [Copies.copy_idle rfl, copies_line] at hl
      obtain ⟨L, hL⟩ := Option.ne_none_iff_exists'.mp
        (hc.line_above rfl rfl (above_last i) (Option.ne_none_iff_exists'.mpr ⟨l, hl⟩))
      rw [hagree hst i l L hi hl hL]
      exact data_of_last hs.good hL fun m lm _ hlm => rank_le_two (hclean m lm hlm)
  have hg := (hraised.good hgood trivial hclean rfl fun _ => id).weaken strict fun _ => trivial
  refine ⟨⟨?_, fun i => by rw [hraised.evicting, hs.idle]⟩, ⟨fun i hi => ?_, hraised.accesses⟩,
    fun i l hl => ?_, hsome⟩
  · rw [expected, hraised.accesses]
    exact hg
  · rw [hlines, hi]
    rfl
  · rw [hlines, Option.map_eq_some_iff] at hl
    obtain ⟨l', -, rfl⟩ := hl
    rfl

omit [DecidableEq ι] [DecidableEq Addr] in
theorem map_snd_ok {α β : Type} {x : Outcome (α × β)} {b : β} (h : Prod.snd <$> x = .ok b) :
    ∃ a, x = .ok (a, b) := by
  cases x with
  | error f => cases h
  | ok r =>
    cases h
    exact ⟨r.1, rfl⟩

/-- The last level may store to the line, and so may every cache below that has it. -/
theorem processUpgradeRepFromDramDirectory_keeps {dataBuf : Option D}
    (hagree : ¬strict → ∀ i l L, H.Loose i → s.lines i X = some l → s.lines H.last X = some L →
      l.data = L.data)
    (h : H.processUpgradeRepFromDramDirectory X dataBuf s = .ok s')
    (hs : H.Fine X strict before dirty s) :
    H.Fine X strict before dirty s' ∧ Lessens X s s' ∧
      ∀ i l, s'.lines i X = some l → l.cstate = .modified := by
  unfold processUpgradeRepFromDramDirectory at h
  split at h
  · rename_i hnone
    split at h
    · cases h
    · obtain ⟨out, hcall⟩ := map_snd_ok h
      obtain ⟨-, -, -, hsome⟩ := call_upgrade hagree (fun l hl => by rw [hnone] at hl; cases hl)
        hcall hs
      exact absurd hnone (hsome rfl)
  · rename_i l hl
    split at h
    · rename_i hst
      obtain ⟨out, hcall⟩ := map_snd_ok h
      obtain ⟨hs', hless, hall, -⟩ := call_upgrade hagree
        (fun l' hl' => by rw [hl, Option.some.injEq] at hl'; exact hl' ▸ hst) hcall hs
      exact ⟨hs', hless, hall⟩
    · cases h

end Hierarchy

end Sniper.Levels
