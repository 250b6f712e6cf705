import Mathlib.Order.Lattice.Nat
import Sniper.Performance.RobTimer
import Sniper.Lib.Machine
set_option autoImplicit false

/-! Skipping cycles changes nothing in what happens to a micro-operation. -/

namespace Sniper.Performance
open Sniper.Lib

/-- All that the search for something to do in a cycle without events looks at. -/
def RobEntry.times (e : RobEntry) : Time × Time := (e.done, e.ready)

namespace RobTimer

variable {σ μ : Type} {cfg : RobConfig σ μ}

/-! ### Micro-operations enter behind the window -/

/-- New entries behind the old ones, whose times stay. -/
structure Extends (s s' : RobTimer μ) : Prop where
  numInRob : s'.numInRob = s.numInRob
  frontend : s'.frontendStalledUntil = s.frontendStalledUntil
  length : s.rob.length ≤ s'.rob.length
  old : ∀ j, j < s.rob.length → s'.rob[j]?.map RobEntry.times = s.rob[j]?.map RobEntry.times
  new : ∀ j e, s.rob.length ≤ j → s'.rob[j]? = some e → e.done = ⊤

theorem Extends.refl (s : RobTimer μ) : Extends s s :=
  ⟨rfl, rfl, Nat.le_refl _, fun _ _ => rfl, fun j e hj he => by
    rw [List.getElem?_eq_none hj] at he
    cases he⟩

theorem Extends.trans {s t u : RobTimer μ} (h : Extends s t) (h' : Extends t u) : Extends s u where
  numInRob := h'.numInRob.trans h.numInRob
  frontend := h'.frontend.trans h.frontend
  length := h.length.trans h'.length
  old j hj := (h'.old j (hj.trans_le h.length)).trans (h.old j hj)
  new j e hj he := by
    by_cases hlt : j < t.rob.length
    · have hold := h'.old j hlt
      rw [he, List.getElem?_eq_getElem hlt] at hold
      have hdone : e.done = t.rob[j].done := congrArg Prod.fst (Option.some.inj hold)
      rw [hdone]
      exact h.new j _ hj (List.getElem?_eq_getElem hlt)
    · exact h'.new j e (Nat.le_of_not_lt hlt) he

/-- An entry changes, but not its times. -/
theorem extends_modifyEntry (s : RobTimer μ) (i : Nat) {f : RobEntry → RobEntry}
    (hf : ∀ e, (f e).times = e.times) : Extends s (s.modifyEntry i f) := by
  refine ⟨rfl, rfl, by simp [modifyEntry], fun j _ => ?_, fun j e hj he => ?_⟩
  · simp only [modifyEntry, List.getElem?_modify]
    cases s.rob[j]? with
    | none => rfl
    | some e =>
      by_cases hij : i = j <;> simp [hij, hf]
  · rw [List.getElem?_eq_none (by simpa [modifyEntry] using hj)] at he
    cases he

theorem extends_dependOn {sequenceNumber dependency : Nat}
    {state state' : RobTimer μ × Time × List Nat}
    (h : dependOn sequenceNumber state dependency = .ok state') : Extends state.1 state'.1 := by
  obtain ⟨s, readyMax, done⟩ := state
  obtain ⟨i, -, h⟩ := except_bind_eq_ok.mp h
  obtain ⟨prodEntry, -, h⟩ := except_bind_eq_ok.mp h
  split at h
  · cases h
    exact Extends.refl s
  · cases h
    exact extends_modifyEntry s i fun _ => rfl

theorem extends_append (s : RobTimer μ) (entry : RobEntry) (hdone : entry.done = ⊤)
    (nextSequenceNumber : Nat) :
    Extends s { s with rob := s.rob ++ [entry], nextSequenceNumber := nextSequenceNumber } := by
  refine ⟨rfl, rfl, by simp, fun j hj => ?_, fun j e hj he => ?_⟩
  · simp [List.getElem?_append_left hj]
  · rw [List.getElem?_append_right hj] at he
    rcases Nat.eq_zero_or_pos (j - s.rob.length) with hzero | hpos
    · simp [hzero] at he
      exact he ▸ hdone
    · rw [List.getElem?_eq_none (by simp only [List.length_singleton]; omega)] at he
      cases he

/-- The entry at the end learns when it is ready. -/
theorem extends_last {s t : RobTimer μ} (h : Extends s t) {f : RobEntry → RobEntry}
    (hf : ∀ e, (f e).done = e.done) : Extends s (t.modifyEntry s.rob.length f) := by
  refine ⟨h.numInRob, h.frontend, by simpa [modifyEntry] using h.length, fun j hj => ?_,
    fun j e hj he => ?_⟩
  · have hne : s.rob.length ≠ j := by omega
    simpa [modifyEntry, List.getElem?_modify, hne] using h.old j hj
  · simp only [modifyEntry, List.getElem?_modify] at he
    cases ht : t.rob[j]? with
    | none => simp [ht] at he
    | some e' =>
      have hdone := h.new j e' hj ht
      by_cases hij : s.rob.length = j
      · simp only [ht, hij, if_true, Option.map_some, Option.some.injEq, Functor.map] at he
        rw [← he, hf, hdone]
      · simp [ht, hij] at he
        rw [← he, hdone]

/-- The registers and the stores are kept apart from the entries. -/
theorem dependencies_rob {s t : RobTimer μ} {lowest : Nat} {entry : RobEntry}
    {uop : DynamicMicroOp} (h : dependencies cfg s lowest entry = .ok (t, uop)) :
    ∃ registers memory,
      t = { s with registerDependencies := registers, memoryDependencies := memory } := by
  obtain ⟨⟨registers, uop1⟩, -, h⟩ := except_bind_eq_ok.mp h
  obtain ⟨⟨memory, uop2⟩, -, h⟩ := except_bind_eq_ok.mp h
  obtain ⟨uop3, -, h⟩ := except_bind_eq_ok.mp h
  cases h
  exact ⟨registers, memory, rfl⟩

theorem enqueue_extends {s s' : RobTimer μ} {uop : DynamicMicroOp}
    (h : enqueue cfg s uop = .ok s') : Extends s s' := by
  rw [enqueue] at h
  split at h
  · cases h
    exact Extends.refl s
  · split at h
    · cases h
    · dsimp only at h
      obtain ⟨entry, -, h⟩ := except_bind_eq_ok.mp h
      obtain ⟨⟨t, uop'⟩, hdeps, h⟩ := except_bind_eq_ok.mp h
      obtain ⟨⟨u, readyMax, done⟩, hfold, h⟩ := except_bind_eq_ok.mp h
      dsimp only at h
      have happend := extends_append s (RobEntry.init uop s.nextSequenceNumber) rfl
        (s.nextSequenceNumber + 1)
      have htrackers : Extends s t := by
        obtain ⟨registers, memory, rfl⟩ := dependencies_rob hdeps
        exact ⟨happend.numInRob, happend.frontend, happend.length, happend.old, happend.new⟩
      have hu : Extends s u :=
        foldlM_keeps (I := fun state => Extends s state.1)
          (fun state _ _ hstate hstep => hstate.trans (extends_dependOn hstep)) htrackers hfold
      split at h
      · cases h
      · obtain ⟨uop'', -, h⟩ := except_bind_eq_ok.mp h
        cases h
        exact extends_last hu fun _ => rfl

theorem enqueueAll_extends {s s' : RobTimer μ} {insts : List DynamicMicroOp}
    (h : insts.foldlM (enqueue cfg) s = .ok s') : Extends s s' :=
  foldlM_keeps (I := Extends s) (fun _ _ _ hs hstep => hs.trans (enqueue_extends hstep))
    (Extends.refl s) h

/-! ### Behind the window nothing is done -/

/-- What waits for dispatch is not done. -/
def Waiting (s : RobTimer μ) : Prop :=
  ∀ j e, s.numInRob ≤ j → s.rob[j]? = some e → e.done = ⊤

theorem Waiting.extends {s s' : RobTimer μ} (hw : Waiting s) (h : Extends s s') : Waiting s' := by
  intro j e hj he
  rw [h.numInRob] at hj
  by_cases hlt : j < s.rob.length
  · have hold := h.old j hlt
    rw [he, List.getElem?_eq_getElem hlt] at hold
    have hdone : e.done = s.rob[j].done := congrArg Prod.fst (Option.some.inj hold)
    rw [hdone]
    exact hw j _ hj (List.getElem?_eq_getElem hlt)
  · exact h.new j e (Nat.le_of_not_lt hlt) he

/-- An entry changes in the window, or it does not become done. -/
theorem Waiting.modifyEntry {s : RobTimer μ} (hw : Waiting s) {i : Nat} {f : RobEntry → RobEntry}
    (hf : i < s.numInRob ∨ ∀ e, (f e).done = e.done) : Waiting (s.modifyEntry i f) := by
  intro j e hj he
  have hj' : s.numInRob ≤ j := hj
  simp only [RobTimer.modifyEntry, List.getElem?_modify] at he
  cases hold : s.rob[j]? with
  | none => simp [hold] at he
  | some e' =>
    have hdone := hw j e' hj' hold
    by_cases hij : i = j
    · have hkeep : (f e').done = e'.done := by
        rcases hf with hlt | hf
        · omega
        · exact hf e'
      simp [hold, hij] at he
      rw [← he, hkeep, hdone]
    · simp [hold, hij] at he
      rw [← he, hdone]

theorem Waiting.fetched {s : RobTimer μ} (hw : Waiting s) (entry : RobEntry) :
    Waiting (s.fetched entry) := by
  rw [RobTimer.fetched]
  split
  · exact hw
  · exact hw

theorem Waiting.dispatchNext {s : RobTimer μ} (hw : Waiting s) (now : Nat) :
    Waiting (s.dispatchNext now) := by
  intro j e hj he
  have hmod : Waiting (s.modifyEntry s.numInRob (dispatchEntry now)) :=
    hw.modifyEntry (.inr fun _ => rfl)
  exact hmod j e (Nat.le_of_succ_le hj) he

theorem Waiting.dispatchLoop {now left : Nat} {s s' : RobTimer μ} {nextEvent e : Time}
    (hw : Waiting s) (h : dispatchLoop cfg now left s nextEvent = .ok (s', e)) : Waiting s' := by
  induction left generalizing s nextEvent with
  | zero =>
    rw [RobTimer.dispatchLoop] at h
    split at h
    · split at h
      · cases h
      · cases h
        exact hw
    · cases h
      exact hw
  | succ left ih =>
    rw [RobTimer.dispatchLoop] at h
    split at h
    · cases hentry : s.rob[s.numInRob]? with
      | none => simp [hentry] at h
      | some entry =>
        simp only [hentry] at h
        have hf := hw.fetched entry
        split at h
        · cases h
          exact hw
        · split at h
          · cases h
            exact hf
          · split at h
            · cases h
              exact hf.dispatchNext now
            · exact ih (hf.dispatchNext now) h
    · cases h
      exact hw

theorem Waiting.doDispatch {now : Nat} {s s' : RobTimer μ} {e : Time} (hw : Waiting s)
    (h : doDispatch cfg now s = .ok (s', e)) : Waiting s' := by
  obtain ⟨⟨t, nextEvent⟩, hloop, h⟩ := except_bind_eq_ok.mp h
  cases h
  split at hloop
  · exact hw.dispatchLoop hloop
  · cases hloop
    exact hw

/-- What issuing an instruction does to what is not its own entry. -/
theorem Waiting.wakeDependant {producer cycleDepend dependant : Nat} {s s' : RobTimer μ}
    (hw : Waiting s) (h : wakeDependant producer cycleDepend s dependant = .ok s') :
    Waiting s' ∧ s'.numInRob = s.numInRob := by
  obtain ⟨i, -, h⟩ := except_bind_eq_ok.mp h
  obtain ⟨entry, -, h⟩ := except_bind_eq_ok.mp h
  split at h
  · cases h
  · obtain ⟨uop, -, h⟩ := except_bind_eq_ok.mp h
    obtain ⟨resolved, -, h⟩ := except_bind_eq_ok.mp h
    cases h
    exact ⟨hw.modifyEntry (.inr fun _ => rfl), rfl⟩

theorem Waiting.access {s : RobTimer μ} (hw : Waiting s) (uop : DynamicMicroOp) :
    Waiting (s.access cfg uop).1 ∧ (s.access cfg uop).1.numInRob = s.numInRob := by
  rw [RobTimer.access]
  split
  · exact ⟨hw, rfl⟩
  · exact ⟨hw, rfl⟩

theorem Waiting.enterQueues {s : RobTimer μ} (hw : Waiting s) (now : Nat) (uop : DynamicMicroOp) :
    Waiting ((s.enterQueue now uop).storeIssued now uop) ∧
      ((s.enterQueue now uop).storeIssued now uop).numInRob = s.numInRob := by
  rw [enterQueue, storeIssued]
  cases uop.microOp.isLoad <;> cases uop.microOp.isStore <;> exact ⟨hw, rfl⟩

theorem Waiting.issueInstruction {now i done : Nat} {s s' : RobTimer μ} {c c' : σ}
    {entry : RobEntry} (hw : Waiting s) (hi : i < s.numInRob)
    (h : issueInstruction cfg now s c i entry = .ok (s', c', done)) :
    Waiting s' ∧ s'.numInRob = s.numInRob := by
  rw [RobTimer.issueInstruction] at h
  obtain ⟨hw1, hn1⟩ := hw.access entry.uop
  generalize s.access cfg entry.uop = accessed at h hw1 hn1
  obtain ⟨s1, uop⟩ := accessed
  obtain ⟨hw2, hn2⟩ := hw1.enterQueues now uop
  dsimp only at h hn1 hn2
  split at h
  · cases h
  · obtain ⟨s3, hfold, h⟩ := except_bind_eq_ok.mp h
    have hmod : Waiting (((s1.enterQueue now uop).storeIssued now uop).markIssued now i uop
        (completion now uop).2) := hw2.modifyEntry (.inl (by rw [hn2, hn1]; exact hi))
    have hwoken := foldlM_keeps
      (I := fun t : RobTimer μ => Waiting t ∧ t.numInRob = s.numInRob)
      (fun t _ t' ht hstep => ⟨(ht.1.wakeDependant hstep).1,
        (ht.1.wakeDependant hstep).2.trans ht.2⟩) ⟨hmod, hn2.trans hn1⟩ hfold
    cases h
    split
    · exact hwoken
    · exact hwoken

theorem Waiting.issueLoop {now left i : Nat} {scan : Scan} {s s' : RobTimer μ} {c c' : σ}
    {e : Time} (hw : Waiting s) (hi : i + left ≤ s.numInRob)
    (h : issueLoop cfg now left i scan s c = .ok (s', c', e)) : Waiting s' := by
  induction left generalizing i scan s c with
  | zero =>
    cases h
    exact hw
  | succ left ih =>
    rw [RobTimer.issueLoop] at h
    cases hentry : s.rob[i]? with
    | none => simp [hentry] at h
    | some entry =>
      simp only [hentry] at h
      split at h
      · exact ih hw (by omega) h
      · split at h
        · cases h
          exact hw
        · split at h
          · obtain ⟨⟨s1, c1, done⟩, hissue, h⟩ := except_bind_eq_ok.mp h
            obtain ⟨hw1, hn1⟩ := hw.issueInstruction (by omega) hissue
            dsimp only at h
            split at h
            · cases h
              exact hw1
            · exact ih hw1 (by omega) h
          · split at h
            · cases h
              exact hw
            · exact ih hw (by omega) h

theorem Waiting.commitEntry {now : Nat} {s : RobTimer μ} {entry : RobEntry}
    {rest : List RobEntry} (hw : Waiting s) (hrob : s.rob = entry :: rest)
    (hdone : entry.done ≠ ⊤) : Waiting (commitEntry now s entry rest) := by
  intro j e hj he
  have hpos : 0 < s.numInRob := by
    by_contra hzero
    exact hdone (hw 0 entry (by omega) (by simp [hrob]))
  have hj' : s.numInRob - 1 ≤ j := hj
  exact hw (j + 1) e (by omega) (by rw [hrob]; exact he)

theorem Waiting.commitLoop {now committed : Nat} {rob : List RobEntry} {s : RobTimer μ}
    (hw : Waiting s) (hrob : s.rob = rob) : Waiting (commitLoop cfg now rob committed s) := by
  induction rob generalizing committed s with
  | nil => exact hw
  | cons entry rest ih =>
    rw [RobTimer.commitLoop]
    split
    · next hle =>
      have hnext : Waiting (RobTimer.commitEntry now s entry rest) :=
        hw.commitEntry hrob (ne_top_of_le_ne_top WithTop.coe_ne_top hle)
      split
      · exact hnext
      · exact ih hnext rfl
    · exact hw

theorem Waiting.cycle {now : Nat} {s s' : RobTimer μ} {c c' : σ} {e : Time} (hw : Waiting s)
    (h : cycle cfg now s c = .ok (s', c', e)) : Waiting s' := by
  obtain ⟨⟨s1, e1⟩, hdispatch, h⟩ := except_bind_eq_ok.mp h
  obtain ⟨⟨s2, c2, e2⟩, hissue, h⟩ := except_bind_eq_ok.mp h
  cases h
  exact ((hw.doDispatch hdispatch).issueLoop (by omega) hissue).commitLoop rfl

/-! ### Cycles in which nothing can be issued -/

/-- Whether the search for something to issue ends at the first entry that must wait. -/
def stops (cfg : RobConfig σ μ) (c : σ) : Bool := cfg.inorder || exhausted cfg .start c

/-- From a position on, what the search comes to is done or not ready yet. -/
def IdleFrom (ends : Bool) (now : Nat) (rob : List RobEntry) : Nat → Nat → Prop
  | 0, _ => True
  | left + 1, i => ∃ entry, rob[i]? = some entry ∧
    if entry.done ≠ ⊤ then IdleFrom ends now rob left (i + 1)
    else (now : Time) < entry.ready ∧ (ends = false → IdleFrom ends now rob left (i + 1))

/-- Only the times of the entries matter. -/
theorem IdleFrom.congr {ends : Bool} {now left i : Nat} {rob rob' : List RobEntry}
    (h : IdleFrom ends now rob left i)
    (hold : ∀ j, j < rob.length → rob'[j]?.map RobEntry.times = rob[j]?.map RobEntry.times) :
    IdleFrom ends now rob' left i := by
  induction left generalizing i with
  | zero => trivial
  | succ left ih =>
    obtain ⟨entry, hentry, hidle⟩ := h
    have hlt : i < rob.length := (List.getElem?_eq_some_iff.mp hentry).1
    have htimes := hold i hlt
    rw [hentry] at htimes
    obtain ⟨entry', hentry', htimes⟩ := Option.map_eq_some_iff.mp htimes
    have hdone : entry'.done = entry.done := congrArg Prod.fst htimes
    have hready : entry'.ready = entry.ready := congrArg Prod.snd htimes
    refine ⟨entry', hentry', ?_⟩
    rw [hdone, hready]
    split at hidle
    · next hne =>
      rw [if_pos hne]
      exact ih hidle
    · next heq =>
      rw [if_neg heq]
      exact ⟨hidle.1, fun hends => ih (hidle.2 hends)⟩

theorem verdict_wait {now : Nat} {s : RobTimer μ} {scan : Scan} {entry : RobEntry}
    (h : (now : Time) < entry.ready) : verdict cfg now s scan entry = .wait := by
  rw [verdict]
  exact if_pos h

theorem tryIssue_wait (c : σ) (uop : DynamicMicroOp) :
    tryIssue cfg c .wait uop = (false, c) := by
  rw [tryIssue]
  exact if_neg (by decide)

@[simp] theorem Scan.blocked_nextEvent (scan : Scan) (v : Verdict) (now : Nat) (entry : RobEntry) :
    ((scan.fence v).blocked now entry).nextEvent = scan.nextEvent := by
  rw [Scan.fence]
  split <;> rfl

@[simp] theorem Scan.blocked_numIssued (scan : Scan) (v : Verdict) (now : Nat) (entry : RobEntry) :
    ((scan.fence v).blocked now entry).numIssued = scan.numIssued := by
  rw [Scan.fence]
  split <;> rfl

theorem exhausted_start {scan : Scan} (h : scan.numIssued = 0) (v : Verdict) (now : Nat)
    (entry : RobEntry) (c : σ) :
    exhausted cfg ((scan.fence v).blocked now entry) c = exhausted cfg .start c := by
  rw [exhausted, exhausted, Scan.blocked_numIssued, h]
  rfl

/-- The search in an idle cycle finds nothing. -/
theorem issueLoop_idle {now left i : Nat} (scan : Scan) {s : RobTimer μ} {c : σ}
    (h : IdleFrom (stops cfg c) now s.rob left i) (hnone : scan.numIssued = 0) :
    ∃ e, issueLoop cfg now left i scan s c = .ok (s, c, e) := by
  induction left generalizing i scan with
  | zero => exact ⟨scan.nextEvent, rfl⟩
  | succ left ih =>
    obtain ⟨entry, hentry, hidle⟩ := h
    rw [issueLoop]
    simp only [hentry]
    split at hidle
    · next hne =>
      rw [if_pos hne]
      exact ih _ hidle hnone
    · next heq =>
      simp only [if_neg heq, verdict_wait hidle.1, tryIssue_wait, if_neg Bool.false_ne_true]
      rw [if_neg (by decide), exhausted_start (by exact hnone)]
      split
      · exact ⟨_, rfl⟩
      · next hends => exact ih _ (hidle.2 (by rw [stops]; exact eq_false_of_ne_true hends)) hnone

/-- The next event is not later than what the first entry looked at waits for. -/
theorem issueLoop_front {now left i : Nat} {scan : Scan} {s s' : RobTimer μ} {c c' : σ} {e : Time}
    {entry : RobEntry}
    (hrest : ∀ scan (s : RobTimer μ) c, issueLoop cfg now left (i + 1) scan s c = .ok (s', c', e) →
      e ≤ scan.nextEvent)
    (h : issueLoop cfg now (left + 1) i scan s c = .ok (s', c', e))
    (hentry : s.rob[i]? = some entry) :
    e ≤ min scan.nextEvent (if entry.done ≠ ⊤ then entry.done else entry.ready) := by
  rw [issueLoop] at h
  simp only [hentry] at h
  split at h
  · next hne =>
    rw [if_pos hne]
    exact hrest _ _ _ h
  · next heq =>
    rw [if_neg heq]
    split at h
    · cases h
      exact le_rfl
    · split at h
      · obtain ⟨⟨s1, c1, done⟩, -, h⟩ := except_bind_eq_ok.mp h
        dsimp only at h
        split at h
        · cases h
          exact min_le_left _ _
        · exact (hrest _ _ _ h).trans (min_le_left _ _)
      · split at h
        · cases h
          exact (Scan.blocked_nextEvent _ _ _ _).le
        · exact (hrest _ _ _ h).trans (Scan.blocked_nextEvent _ _ _ _).le

theorem issueLoop_nextEvent {now left i : Nat} {scan : Scan} {s s' : RobTimer μ} {c c' : σ}
    {e : Time} (h : issueLoop cfg now left i scan s c = .ok (s', c', e)) : e ≤ scan.nextEvent := by
  induction left generalizing i scan s c with
  | zero =>
    cases h
    exact le_rfl
  | succ left ih =>
    cases hentry : s.rob[i]? with
    | none => simp [issueLoop, hentry] at h
    | some entry =>
      exact (issueLoop_front (fun _ _ _ h => ih h) h hentry).trans (min_le_left _ _)

/-- When the next event is later, nothing was issued, and nothing can be until then. -/
theorem issueLoop_later {now left i : Nat} {scan : Scan} {s s' : RobTimer μ} {c c' : σ} {e : Time}
    (h : issueLoop cfg now left i scan s c = .ok (s', c', e)) (hlt : (now : Time) < e)
    (hnone : scan.numIssued = 0) :
    s' = s ∧ c' = c ∧ ∀ t : Nat, (t : Time) < e → IdleFrom (stops cfg c) t s.rob left i := by
  induction left generalizing i scan with
  | zero =>
    cases h
    exact ⟨rfl, rfl, fun _ _ => trivial⟩
  | succ left ih =>
    cases hentry : s.rob[i]? with
    | none => simp [issueLoop, hentry] at h
    | some entry =>
      have hfront := (issueLoop_front (fun _ _ _ h => issueLoop_nextEvent h) h hentry).trans
        (min_le_right _ _)
      rw [issueLoop] at h
      simp only [hentry] at h
      split at h
      · next hne =>
        obtain ⟨hs, hc, hidle⟩ := ih h hnone
        refine ⟨hs, hc, fun t ht => ⟨entry, hentry, ?_⟩⟩
        rw [if_pos hne]
        exact hidle t ht
      · next heq =>
        rw [if_neg heq] at hfront
        simp only [verdict_wait (hlt.trans_le hfront), tryIssue_wait,
          if_neg Bool.false_ne_true] at h
        rw [if_neg (by decide), exhausted_start (by exact hnone)] at h
        split at h
        · next hends =>
          cases h
          refine ⟨rfl, rfl, fun t ht => ⟨entry, hentry, ?_⟩⟩
          rw [if_neg heq]
          exact ⟨ht.trans_le hfront, fun hgo => absurd (hends.symm.trans hgo) (by decide)⟩
        · next hends =>
          obtain ⟨hs, hc, hidle⟩ := ih h ((Scan.blocked_numIssued _ _ _ _).trans hnone)
          refine ⟨hs, hc, fun t ht => ⟨entry, hentry, ?_⟩⟩
          rw [if_neg heq]
          exact ⟨ht.trans_le hfront, fun _ => hidle t ht⟩

/-! ### Cycles in which nothing happens -/

/-- Nothing can be dispatched, issued or committed at this time. -/
structure Quiet (cfg : RobConfig σ μ) (ends : Bool) (now : Nat) (s : RobTimer μ) : Prop where
  front : s.numInRob = cfg.windowSize ∨ (now : Time) < s.frontendStalledUntil
  idle : IdleFrom ends now s.rob s.numInRob 0
  head : ∀ entry, s.rob[0]? = some entry → (now : Time) < entry.done

theorem Quiet.extends {ends : Bool} {now : Nat} {s s' : RobTimer μ} (hq : Quiet cfg ends now s)
    (h : Extends s s') : Quiet cfg ends now s' where
  front := by rw [h.numInRob, h.frontend]; exact hq.front
  idle := by rw [h.numInRob]; exact hq.idle.congr h.old
  head entry hentry := by
    by_cases hlt : 0 < s.rob.length
    · have hold := h.old 0 hlt
      rw [hentry, List.getElem?_eq_getElem hlt] at hold
      have hdone : entry.done = s.rob[0].done := congrArg Prod.fst (Option.some.inj hold)
      rw [hdone]
      exact hq.head _ (List.getElem?_eq_getElem hlt)
    · rw [h.new 0 entry (Nat.le_of_not_lt hlt) hentry]
      exact WithTop.coe_lt_top now

theorem dispatchLoop_full {now left : Nat} {s : RobTimer μ} {nextEvent : Time}
    (h : s.numInRob = cfg.windowSize) :
    dispatchLoop cfg now left s nextEvent = .ok (s, nextEvent) := by
  rw [dispatchLoop]
  exact if_neg (by omega)

theorem doDispatch_quiet {ends : Bool} {now : Nat} {s : RobTimer μ} (h : Quiet cfg ends now s) :
    ∃ e, doDispatch cfg now s = .ok (s, e) := by
  have hstart : (if s.frontendStalledUntil ≤ (now : Time) then
      dispatchLoop cfg now cfg.dispatchWidth s ⊤ else .ok (s, ⊤)) = .ok (s, ⊤) := by
    split
    · next hle =>
      rcases h.front with hfull | hlt
      · exact dispatchLoop_full hfull
      · exact absurd hle (not_le_of_gt hlt)
    · rfl
  rw [doDispatch, hstart]
  exact ⟨_, rfl⟩

theorem commitLoop_quiet (cfg : RobConfig σ μ) {now : Nat} (committed : Nat) {s : RobTimer μ}
    (h : ∀ entry, s.rob[0]? = some entry → (now : Time) < entry.done) :
    commitLoop cfg now s.rob committed s = s := by
  cases hrob : s.rob with
  | nil => rfl
  | cons entry rest =>
    rw [commitLoop]
    exact if_neg (not_le_of_gt (h entry (by rw [hrob]; rfl)))

/-- Such a cycle changes nothing, but it resets the issue contention. -/
theorem cycle_quiet {now : Nat} {s : RobTimer μ} {c : σ}
    (h : Quiet cfg (stops cfg (initCycle cfg now c)) now s) :
    ∃ e, cycle cfg now s c = .ok (s, initCycle cfg now c, e) := by
  obtain ⟨e1, hdispatch⟩ := doDispatch_quiet h
  obtain ⟨e2, hissue⟩ := issueLoop_idle .start h.idle rfl
  have hcommit := commitLoop_quiet cfg 0 h.head
  rw [cycle, hdispatch]
  simp only [bind, Except.bind]
  rw [doIssue, hissue]
  simp only
  rw [doCommit, hcommit]
  exact ⟨_, rfl⟩

theorem doDispatch_next {now : Nat} {s s' : RobTimer μ} {e : Time}
    (h : doDispatch cfg now s = .ok (s', e)) {t : Nat} (ht : (t : Time) < e) :
    s'.numInRob = cfg.windowSize ∨ (t : Time) < s'.frontendStalledUntil := by
  obtain ⟨⟨s1, e1⟩, -, h⟩ := except_bind_eq_ok.mp h
  cases h
  by_cases hfull : s'.numInRob = cfg.windowSize
  · exact .inl hfull
  · rw [if_neg hfull] at ht
    exact .inr (ht.trans_le (min_le_left _ _))

/-- Up to the next event of a cycle, when it is a later one, nothing happens. -/
theorem quiet_of_cycle {now : Nat} {s s' : RobTimer μ} {c c' : σ} {e : Time} (hw : Waiting s)
    (h : cycle cfg now s c = .ok (s', c', e)) (hlt : (now : Time) < e) :
    c' = initCycle cfg now c ∧ ∀ t : Nat, (t : Time) < e → Quiet cfg (stops cfg c') t s' := by
  obtain ⟨⟨s1, e1⟩, hdispatch, h⟩ := except_bind_eq_ok.mp h
  obtain ⟨⟨s2, c2, e2⟩, hissue, h⟩ := except_bind_eq_ok.mp h
  cases h
  have hle1 := min_le_left e1 (min e2 (doCommit cfg now s2).2)
  have hle2 := (min_le_right e1 (min e2 (doCommit cfg now s2).2)).trans (min_le_left _ _)
  have hw1 := hw.doDispatch hdispatch
  obtain ⟨rfl, rfl, hidle⟩ := issueLoop_later hissue (hlt.trans_le hle2) rfl
  have hhead : ∀ entry, s2.rob[0]? = some entry → (now : Time) < entry.done := by
    intro entry hentry
    by_cases hdone : entry.done = ⊤
    · rw [hdone]
      exact WithTop.coe_lt_top now
    · -- it is in the window, so the search came to it
      have hpos : 0 < s2.numInRob := by
        by_contra hzero
        exact hdone (hw1 0 entry (by omega) hentry)
      rw [doIssue, show s2.numInRob = s2.numInRob - 1 + 1 by omega] at hissue
      have hfront := (issueLoop_front (fun _ _ _ h => issueLoop_nextEvent h) hissue hentry).trans
        (min_le_right _ _)
      rw [if_pos hdone] at hfront
      exact hlt.trans_le (hle2.trans hfront)
  have hcommit := commitLoop_quiet cfg 0 hhead
  refine ⟨rfl, fun t ht => ?_⟩
  rw [hcommit]
  refine ⟨doDispatch_next hdispatch (ht.trans_le hle1), hidle t (ht.trans_le hle2), ?_⟩
  intro entry hentry
  rw [hcommit] at ht
  cases hrob : s2.rob with
  | nil => simp [hrob] at hentry
  | cons front rest =>
    rw [hrob] at hentry ht
    cases hentry
    exact ht.trans_le ((min_le_right _ _).trans (min_le_right _ _))

end RobTimer

end Sniper.Performance
