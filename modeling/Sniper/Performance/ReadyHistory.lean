import Sniper.Performance.ReadyTimes
set_option autoImplicit false

/-! The ready times over whole runs of the reorder buffer. -/

namespace Sniper.Performance
open Sniper.Lib DynamicMicroOp

namespace RobTimer

variable {σ μ : Type} {cfg : RobConfig σ μ}

theorem wakeDependant_next {s s' : RobTimer μ} {producer cycleDepend d : Nat}
    (h : wakeDependant producer cycleDepend s d = .ok s') :
    s'.nextSequenceNumber = s.nextSequenceNumber := by
  obtain ⟨i, -, h⟩ := except_bind_eq_ok.mp h
  obtain ⟨e, -, h⟩ := except_bind_eq_ok.mp h
  split at h
  · cases h
  · obtain ⟨uop, -, h⟩ := except_bind_eq_ok.mp h
    obtain ⟨resolved, -, h⟩ := except_bind_eq_ok.mp h
    cases h
    rfl

theorem wakeAll_next {s s' : RobTimer μ} {producer cycleDepend : Nat} {woken : List Nat}
    (h : woken.foldlM (wakeDependant producer cycleDepend) s = .ok s') :
    s'.nextSequenceNumber = s.nextSequenceNumber :=
  foldlM_keeps (I := fun t : RobTimer μ => t.nextSequenceNumber = s.nextSequenceNumber)
    (fun _ _ _ ht hstep => (wakeDependant_next hstep).trans ht) rfl h

theorem issueInstruction_next {s s' : RobTimer μ} {now i done : Nat} {c c' : σ} {e : RobEntry}
    (h : issueInstruction cfg now s c i e = .ok (s', c', done)) :
    s'.nextSequenceNumber = s.nextSequenceNumber := by
  rw [RobTimer.issueInstruction] at h
  obtain ⟨-, hnext, -⟩ := access_spec cfg s e.uop
  generalize s.access cfg e.uop = accessed at h hnext
  obtain ⟨s1, uop⟩ := accessed
  obtain ⟨-, hnext'⟩ := enterQueues_spec s1 now uop
  dsimp only at h hnext
  split at h
  · cases h
  · obtain ⟨u, hfold, h⟩ := except_bind_eq_ok.mp h
    have hu := wakeAll_next hfold
    cases h
    split
    · exact hu.trans (hnext'.trans hnext)
    · exact hu.trans (hnext'.trans hnext)

theorem issuedEntry_done (cfg : RobConfig σ μ) (now : Nat) (s : RobTimer μ) (e : RobEntry) :
    (issuedEntry cfg now s e).done =
      if e.uop.microOp.isStore then (issuedResult cfg now s e : Time)
      else (issuedResult cfg now s e : Time) + 1 := by
  have hop := access_microOp cfg s e.uop
  simp only [issuedEntry, issuedResult, completion, hop]
  split
  · rfl
  · rfl

/-- Before the dependants are told, an issue changes nothing that they could be told of. -/
theorem issued_same (cfg : RobConfig σ μ) (now : Nat) {s : RobTimer μ} {i j : Nat} {e x : RobEntry}
    (he : s.rob[i]? = some e) (hx : s.rob[j]? = some x) :
    (if i = j then issuedEntry cfg now s e else x).uop.sequenceNumber = x.uop.sequenceNumber ∧
      (if i = j then issuedEntry cfg now s e else x).uop.allDependencies = x.uop.allDependencies ∧
      (if i = j then issuedEntry cfg now s e else x).readyMax = x.readyMax ∧
      (if i = j then issuedEntry cfg now s e else x).ready = x.ready := by
  by_cases hij : i = j
  · subst hij
    rw [he] at hx
    obtain rfl := Option.some.inj hx
    rw [if_pos rfl]
    obtain ⟨-, -, hsame⟩ := access_spec cfg s e.uop
    exact ⟨hsame.number, hsame.all, rfl, rfl⟩
  · rw [if_neg hij]
    exact ⟨rfl, rfl, rfl, rfl⟩

namespace History.Describes

variable {h : History} {x y x' : RobEntry} {n result : Nat}

/-! An entry that waits for a micro-operation is told its result: `y` is the entry before, which
only differs from `x` if it is the one that is issued. -/

theorem issue_remaining (hd : h.Describes x)
    (htold : Told n result (x.uop.allDependencies.count n) y x')
    (hnumber : x'.uop.sequenceNumber = x.uop.sequenceNumber)
    (hall : y.uop.allDependencies = x.uop.allDependencies) (m : Nat) :
    m ∈ x'.uop.allDependencies ↔
      m ∈ h.pending x'.uop.sequenceNumber ∧ (h.issue n result).result m = ⊤ := by
  have hcount := htold.count m
  rw [hall] at hcount
  rw [hnumber, ← List.count_pos_iff, hcount]
  by_cases hm : m = n
  · subst hm
    rw [if_pos rfl, Nat.sub_self, h.issue_result_self]
    exact ⟨fun hlt => absurd hlt (Nat.lt_irrefl 0), fun hand => absurd hand.2 WithTop.coe_ne_top⟩
  · rw [if_neg hm, Nat.sub_zero, h.issue_result_of_ne _ hm, List.count_pos_iff]
    exact hd.remaining m

/-- Who is told is who waits. -/
theorem told_iff (hd : h.Describes x) (hunknown : h.result n = ⊤) :
    x.uop.allDependencies.count n = 0 ↔ n ∉ h.pending x.uop.sequenceNumber := by
  rw [List.count_eq_zero, hd.remaining]
  simp [hunknown]

theorem issue_known (hd : h.Describes x) (hunknown : h.result n = ⊤)
    (htold : Told n result (x.uop.allDependencies.count n) y x')
    (hnumber : x'.uop.sequenceNumber = x.uop.sequenceNumber) (hmax : y.readyMax = x.readyMax) :
    x'.readyMax = (h.issue n result).known x'.uop.sequenceNumber := by
  rw [htold.readyMax, hnumber, History.known_issue hunknown, hmax, ← hd.known]
  by_cases hpending : n ∈ h.pending x.uop.sequenceNumber
  · rw [if_pos hpending, if_neg fun hzero => (hd.told_iff hunknown).mp hzero hpending]
  · rw [if_neg hpending, if_pos ((hd.told_iff hunknown).mpr hpending)]

/-- Who waited for nothing else is ready. -/
theorem issue_ready (hd : h.Describes x) (hunknown : h.result n = ⊤)
    (htold : Told n result (x.uop.allDependencies.count n) y x')
    (hnumber : x'.uop.sequenceNumber = x.uop.sequenceNumber)
    (hall : y.uop.allDependencies = x.uop.allDependencies) (hmax : y.readyMax = x.readyMax)
    (hready : y.ready = x.ready) : x'.ready = (h.issue n result).ready x'.uop.sequenceNumber := by
  have hremaining := hd.issue_remaining htold hnumber hall
  rw [htold.ready, hready]
  by_cases hpending : n ∈ h.pending x.uop.sequenceNumber
  · have htimes : x.uop.allDependencies.count n ≠ 0 :=
      fun hzero => (hd.told_iff hunknown).mp hzero hpending
    have hwaits : x.uop.allDependencies ≠ [] :=
      List.ne_nil_of_mem (List.count_pos_iff.mp (Nat.pos_of_ne_zero htimes))
    by_cases hlast : x'.uop.allDependencies = []
    · have hknow : ∀ m ∈ h.pending x'.uop.sequenceNumber,
          (h.issue n result).result m ≠ ⊤ := by
        intro m hm htop
        have hin := (hremaining m).mpr ⟨hm, htop⟩
        rw [hlast] at hin
        cases hin
      rw [if_pos ⟨htimes, hlast⟩, hd.issue_known hunknown htold hnumber hmax,
        History.ready_eq hknow, h.issue_bound, hnumber, hd.bound hwaits]
      exact (max_eq_right bot_le).symm
    · obtain ⟨m, hm⟩ := List.exists_mem_of_ne_nil _ hlast
      obtain ⟨hmPending, hmTop⟩ := (hremaining m).mp hm
      rw [if_neg fun hand => hlast hand.2, hd.ready_of_waiting hwaits]
      exact (@History.ready_eq_top (h.issue n result) _ m hmPending hmTop).symm
  · rw [if_neg fun hand => hand.1 ((hd.told_iff hunknown).mpr hpending), hnumber,
      History.ready_issue_of_notMem hpending]
    exact hd.ready

theorem issue (hd : h.Describes x) (hunknown : h.result n = ⊤)
    (htold : Told n result (x.uop.allDependencies.count n) y x')
    (hnumber : y.uop.sequenceNumber = x.uop.sequenceNumber)
    (hall : y.uop.allDependencies = x.uop.allDependencies) (hmax : y.readyMax = x.readyMax)
    (hready : y.ready = x.ready)
    (hdone : x'.done = if x'.uop.microOp.isStore then (h.issue n result).result x.uop.sequenceNumber
      else (h.issue n result).result x.uop.sequenceNumber + 1) :
    (h.issue n result).Describes x' := by
  have hnumber' := htold.number.trans hnumber
  refine ⟨hd.issue_remaining htold hnumber' hall, hd.issue_known hunknown htold hnumber' hmax,
    hd.issue_ready hunknown htold hnumber' hall hmax hready, fun hwaits => ?_, hnumber' ▸ hdone⟩
  rw [h.issue_bound, hnumber']
  refine hd.bound fun hnil => hwaits (nil_of_count_le (fun m => ?_) hnil)
  rw [htold.count m, hall]
  exact Nat.sub_le _ _

end History.Describes

namespace Exact

variable {h : History} {s s' : RobTimer μ}

/-- The result is told to all that wait for it. -/
theorem issue (hx : Exact h s) (hl : Links none s) {now i done : Nat} {c c' : σ} {e : RobEntry}
    (he : s.rob[i]? = some e) (hdone : e.done = ⊤) (hready : e.ready ≠ ⊤)
    (hissue : issueInstruction cfg now s c i e = .ok (s', c', done)) :
    Exact (h.issue e.uop.sequenceNumber (issuedResult cfg now s e)) s' := by
  have hunknown : h.result e.uop.sequenceNumber = ⊤ :=
    (hx.result_eq_top (List.mem_of_getElem? he)).mpr hdone
  refine of_describes (fun x' hx' => ?_) fun n hle => ?_
  · obtain ⟨j, hj⟩ := List.mem_iff_getElem?.mp hx'
    obtain ⟨x, hxj, htold⟩ := issueInstruction_told hl he hdone hready hissue hj
    obtain ⟨hnumber, hall, hmax, hsame⟩ := issued_same cfg now he hxj
    have hd := hx.describes (List.mem_of_getElem? hxj)
    refine hd.issue hunknown htold hnumber hall hmax hsame ?_
    rw [htold.done, htold.microOp]
    by_cases hij : i = j
    · subst hij
      rw [he] at hxj
      obtain rfl := Option.some.inj hxj
      have hop : (issuedEntry cfg now s e).uop.microOp = e.uop.microOp := access_microOp cfg s e.uop
      rw [if_pos rfl, issuedEntry_done, hop, h.issue_result_self]
    · have hne : x.uop.sequenceNumber ≠ e.uop.sequenceNumber :=
        fun hsame => hij (hl.numbered.unique he hxj hsame.symm)
      rw [if_neg hij, h.issue_result_of_ne _ hne]
      exact hd.done
  · rw [issueInstruction_next hissue] at hle
    have hne : n ≠ e.uop.sequenceNumber := by
      rintro rfl
      exact absurd (hl.numbered.lt ⟨i, e, he, rfl⟩) (Nat.not_lt.mpr hle)
    rw [h.issue_result_of_ne _ hne, h.issue_bound]
    exact hx.unknown n hle

/-- What a new entry depends on and is not done has no result yet. -/
theorem result_of_undone (hx : Exact h s) (hl : Links none s) {uop : DynamicMicroOp}
    {deps : List Nat} {final : RobEntry} (he : Entered s s' uop deps final) {d : Nat}
    (hd : d ∈ deps) (hdone : s.isDone d = false) : h.result d = ⊤ := by
  rcases he.found d hd with ⟨i, p, hp, rfl⟩ | rfl
  · rw [hl.numbered.isDone hp, decide_eq_false_iff_not, not_not] at hdone
    exact (hx.result_eq_top (List.mem_of_getElem? hp)).mpr hdone
  · exact (hx.unknown s.nextSequenceNumber (Nat.le_refl _)).1

/-- The new entry waits for what is not done of its dependencies, the latest of the others is known. -/
theorem describes_entered (hx : Exact h s) (hl : Links none s) {uop : DynamicMicroOp}
    {deps : List Nat} {final : RobEntry} (he : Entered s s' uop deps final) :
    (h.enter s.nextSequenceNumber (s.latestDone deps)
      (deps.toFinset.filter fun d => s.isDone d = false)).Describes final := by
  have hnew := hx.unknown s.nextSequenceNumber (Nat.le_refl _)
  have hremains : ∀ m, m ∈ final.uop.allDependencies ↔
      m ∈ deps.toFinset.filter fun d => s.isDone d = false := by
    intro m
    rw [← List.count_pos_iff, he.count, Finset.mem_filter, List.mem_toFinset, ← List.count_pos_iff]
    cases s.isDone m with
    | true => simp
    | false => simp
  have hunknown : ∀ m ∈ deps.toFinset.filter (fun d => s.isDone d = false), h.result m = ⊤ := by
    intro m hm
    obtain ⟨hmem, hdone⟩ := Finset.mem_filter.mp hm
    exact hx.result_of_undone hl he (List.mem_toFinset.mp hmem) hdone
  have hmax : final.readyMax = (h.enter s.nextSequenceNumber (s.latestDone deps)
      (deps.toFinset.filter fun d => s.isDone d = false)).known s.nextSequenceNumber := by
    rw [History.enter_known_self hunknown, he.readyMax]
  refine ⟨fun m => ?_, he.number ▸ hmax, ?_, fun _ => ?_, ?_⟩
  · rw [he.number, History.enter_pending_self, hremains]
    exact ⟨fun hm => ⟨hm, hunknown m hm⟩, fun hand => hand.1⟩
  · rw [he.number, he.ready]
    split
    · next hlength =>
      have hnil := allDependencies_eq_nil.mpr hlength
      rw [History.ready_eq, ← hmax, History.enter_bound, hnew.2]
      · exact (max_eq_right bot_le).symm
      · intro p hp
        rw [History.enter_pending_self, ← hremains, hnil] at hp
        cases hp
    · next hlength =>
      have hwaits : final.uop.allDependencies ≠ [] := fun hnil =>
        hlength (allDependencies_eq_nil.mp hnil)
      obtain ⟨p, hp⟩ := List.exists_mem_of_ne_nil _ hwaits
      rw [hremains] at hp
      symm
      refine History.ready_eq_top (p := p) ?_ ?_
      · rwa [History.enter_pending_self]
      · rw [History.enter_result]
        exact hunknown p hp
  · rw [he.number]
    exact hnew.2
  · rw [he.number, History.enter_result, hnew.1, he.done]
    split
    · rfl
    · rfl

/-- What is not done of the dependencies are producers whose result is not known. -/
theorem enter (hx : Exact h s) (hl : Links none s) {uop : DynamicMicroOp} {deps : List Nat}
    {final : RobEntry} (he : Entered s s' uop deps final) :
    Exact (h.enter s.nextSequenceNumber (s.latestDone deps)
      (deps.toFinset.filter fun d => s.isDone d = false)) s' := by
  refine of_describes (fun x' hx' => ?_) fun n hle => ?_
  · rcases he.mem hx' with ⟨x, hxmem, rfl⟩ | rfl
    · have hne : x.uop.sequenceNumber ≠ s.nextSequenceNumber := by
        obtain ⟨i, hi⟩ := List.mem_iff_getElem?.mp hxmem
        exact (hl.numbered.lt ⟨i, x, hi, rfl⟩).ne
      have hd := (hx.describes hxmem).off (h.enter_result s.nextSequenceNumber (s.latestDone deps)
        (deps.toFinset.filter fun d => s.isDone d = false)) (h.enter_pending_of_ne _ _ hne)
        (h.enter_finished_of_ne _ _ hne) rfl
      exact ⟨hd.remaining, hd.known, hd.ready, hd.bound, hd.done⟩
    · exact hx.describes_entered hl he
  · rw [he.next] at hle
    exact hx.unknown n (Nat.le_of_succ_le hle)

end Exact

/-- The history of a timer that was empty at the start: what entered, what was dispatched and what
was issued, in the order in which it was. -/
inductive Recorded (cfg : RobConfig σ μ) (start : RobTimer μ) : RobTimer μ → History → Prop where
  | start : Recorded cfg start start .start
  | core {s t : RobTimer μ} {h : History} : Recorded cfg start s h → SameCore s t →
      Recorded cfg start t h
  | enter {s s' t : RobTimer μ} {h : History} {uop uop' : DynamicMicroOp} {entry : RobEntry} :
      Recorded cfg start s h → enqueue cfg s uop = .ok s' →
      s'.nextSequenceNumber = s.nextSequenceNumber + 1 →
      prepare cfg s uop = .ok (t, entry, uop') →
      Recorded cfg start s' (h.enter s.nextSequenceNumber (s.latestDone uop'.allDependencies)
        (uop'.allDependencies.toFinset.filter fun d => s.isDone d = false))
  | dispatch {s : RobTimer μ} {h : History} {now : Nat} {e : RobEntry} : Recorded cfg start s h →
      s.rob[s.numInRob]? = some e →
      Recorded cfg start (s.modifyEntry s.numInRob (dispatchEntry now)) (h.dispatch now e)
  | issue {s s' : RobTimer μ} {h : History} {now i done : Nat} {c c' : σ} {e : RobEntry} :
      Recorded cfg start s h → s.rob[i]? = some e → e.done = ⊤ → e.ready ≤ (now : Time) →
      issueInstruction cfg now s c i e = .ok (s', c', done) →
      Recorded cfg start s' (h.issue e.uop.sequenceNumber (issuedResult cfg now s e))
  | commit {s : RobTimer μ} {h : History} {e : RobEntry} {rest : List RobEntry} :
      Recorded cfg start s h → s.rob = e :: rest → e.done ≠ ⊤ →
      Recorded cfg start { s with rob := rest } h

/-- There is a history that agrees with the buffer. -/
structure HasHistory (cfg : RobConfig σ μ) (start s : RobTimer μ) : Prop where
  links : Links none s
  history : ∃ h, Recorded cfg start s h ∧ Exact h s

theorem HasHistory.start {start : RobTimer μ} (h : Links none start) (hempty : start.rob = []) :
    HasHistory cfg start start := by
  have hnone : ∀ e : RobEntry, e ∉ start.rob := by
    rw [hempty]
    exact fun _ => List.not_mem_nil
  exact ⟨h, .start, .start, fun e he => absurd he (hnone e), fun e he => absurd he (hnone e),
    fun e he => absurd he (hnone e), fun e he => absurd he (hnone e),
    fun e he => absurd he (hnone e), fun _ _ => ⟨rfl, rfl⟩⟩

theorem hasHistory_survives (cfg : RobConfig σ μ) (start : RobTimer μ) :
    Survives cfg (HasHistory cfg start) where
  core := by
    rintro s t ⟨hl, h, hrecorded, hx⟩ hcore
    exact ⟨hl.congr hcore.rob hcore.next, h, hrecorded.core hcore, hx.congr hcore.rob hcore.next⟩
  dispatch := by
    rintro s now ⟨hl, h, hrecorded, hx⟩
    cases he : s.rob[s.numInRob]? with
    | some e =>
      exact ⟨hl.dispatch now _, _, hrecorded.dispatch he, hx.dispatch hl.numbered he⟩
    | none =>
      have hsame : s.rob.modify s.numInRob (dispatchEntry now) = s.rob := by
        refine List.ext_getElem? fun j => ?_
        rw [List.getElem?_modify]
        by_cases hj : s.numInRob = j
        · rw [← hj, he]
          rfl
        · simp [hj]
      exact ⟨hl.dispatch now _, h, hrecorded.core ⟨hsame, rfl, rfl, rfl⟩, hx.congr hsame rfl⟩
  issue := by
    rintro s s' now i done c c' e ⟨hl, h, hrecorded, hx⟩ he hdone hready hissue
    have hsoon : e.ready ≠ ⊤ := ne_top_of_le_ne_top WithTop.coe_ne_top hready
    exact ⟨hl.issueInstruction he hdone hsoon hissue, _,
      hrecorded.issue he hdone hready hissue, hx.issue hl he hdone hsoon hissue⟩
  commit := by
    rintro s e rest ⟨hl, h, hrecorded, hx⟩ hrob hdone
    exact ⟨hl.commit hrob hdone, h, hrecorded.commit hrob hdone, hx.commit hrob⟩

theorem HasHistory.enqueue {start s s' : RobTimer μ} (h : HasHistory cfg start s)
    {uop : DynamicMicroOp} (hs : uop.Small) (henqueue : enqueue cfg s uop = .ok s') :
    HasHistory cfg start s' := by
  obtain ⟨hl, history, hrecorded, hx⟩ := h
  rcases enqueue_entered hl.numbered hs henqueue with rfl | ⟨t, entry, uop', final, hprepare, he, -⟩
  · exact ⟨hl, history, hrecorded, hx⟩
  · exact ⟨hl.enqueue hs henqueue, _, hrecorded.enter henqueue he.next hprepare, hx.enter hl he⟩

/-- What was ready in `s` waits for nothing in `t`, has not been told anything and is not ready
before. -/
structure Kept (s t : RobTimer μ) : Prop where
  next : s.nextSequenceNumber ≤ t.nextSequenceNumber
  ready : ∀ e ∈ s.rob, e.ready ≠ ⊤ → ∀ e' ∈ t.rob, e'.uop.sequenceNumber = e.uop.sequenceNumber →
    e'.uop.allDependencies = [] ∧ e'.readyMax = e.readyMax ∧ e.ready ≤ e'.ready

theorem Kept.refl {s : RobTimer μ} (h : Links none s) : Kept s s := by
  refine ⟨Nat.le_refl _, fun e he hready e' he' hsame => ?_⟩
  obtain ⟨i, hi⟩ := List.mem_iff_getElem?.mp he
  obtain ⟨j, hj⟩ := List.mem_iff_getElem?.mp he'
  obtain rfl := h.numbered.unique hj hi hsame
  obtain rfl := Option.some.inj (hi.symm.trans hj)
  exact ⟨allDependencies_eq_nil.mpr (h.ready e he (.inl hready)), rfl, le_rfl⟩

/-- The entries of `t'` come from those of `t`, and those that wait for nothing are kept. -/
theorem Kept.step {s t t' : RobTimer μ} (h : Kept s t)
    (hnext : t.nextSequenceNumber ≤ t'.nextSequenceNumber)
    (hold : ∀ e' ∈ t'.rob, e'.uop.sequenceNumber < s.nextSequenceNumber → ∃ e ∈ t.rob,
      e.uop.sequenceNumber = e'.uop.sequenceNumber ∧ (e.uop.allDependencies = [] →
        e'.uop.allDependencies = [] ∧ e'.readyMax = e.readyMax ∧ e.ready ≤ e'.ready))
    (hs : Links none s) : Kept s t' := by
  refine ⟨h.next.trans hnext, fun e he hready e' he' hsame => ?_⟩
  obtain ⟨i, hi⟩ := List.mem_iff_getElem?.mp he
  obtain ⟨x, hx, hnumber, hkeep⟩ := hold e' he' (hsame ▸ hs.numbered.lt ⟨i, e, hi, rfl⟩)
  obtain ⟨hnil, hmax, hle⟩ := h.ready e he hready x hx (hnumber.trans hsame)
  obtain ⟨hnil', hmax', hle'⟩ := hkeep hnil
  exact ⟨hnil', hmax'.trans hmax, hle.trans hle'⟩

theorem kept_survives (cfg : RobConfig σ μ) {s : RobTimer μ} (hs : Links none s) :
    Survives cfg fun t => Links none t ∧ Kept s t where
  core := by
    rintro t u ⟨hl, h⟩ hcore
    refine ⟨hl.congr hcore.rob hcore.next, h.step hcore.next.ge (fun e he _ => ?_) hs⟩
    exact ⟨e, hcore.rob ▸ he, rfl, fun hnil => ⟨hnil, rfl, le_rfl⟩⟩
  dispatch := by
    rintro t now ⟨hl, h⟩
    refine ⟨hl.dispatch now _, h.step (Nat.le_refl _) (fun e' he' _ => ?_) hs⟩
    obtain ⟨j, e, he, rfl⟩ := mem_modifyEntry he'
    refine ⟨e, List.mem_of_getElem? he, ?_⟩
    split
    · exact ⟨rfl, fun hnil => ⟨hnil, rfl, le_max_left _ _⟩⟩
    · exact ⟨rfl, fun hnil => ⟨hnil, rfl, le_rfl⟩⟩
  issue := by
    rintro t u now i done c c' e ⟨hl, h⟩ he hdone hready hissue
    have hsoon : e.ready ≠ ⊤ := ne_top_of_le_ne_top WithTop.coe_ne_top hready
    refine ⟨hl.issueInstruction he hdone hsoon hissue,
      h.step (issueInstruction_next hissue).ge (fun x' hx' _ => ?_) hs⟩
    obtain ⟨j, hj⟩ := List.mem_iff_getElem?.mp hx'
    obtain ⟨x, hx, htold⟩ := issueInstruction_told hl he hdone hsoon hissue hj
    obtain ⟨hnumber, hall, hmax, hsame⟩ := issued_same cfg now he hx
    refine ⟨x, List.mem_of_getElem? hx, (htold.number.trans hnumber).symm, fun hnil => ?_⟩
    -- what waits for nothing is told nothing
    rw [hnil, List.count_nil] at htold
    refine ⟨nil_of_count_le (fun n => ?_) (hall.trans hnil), ?_, ?_⟩
    · rw [htold.count]
      exact Nat.sub_le _ _
    · rw [htold.readyMax, if_pos rfl, hmax]
    · rw [htold.ready, if_neg fun hand => hand.1 rfl, hsame]
  commit := by
    rintro t e rest ⟨hl, h⟩ hrob hdone
    refine ⟨hl.commit hrob hdone, h.step (Nat.le_refl _) (fun x hx _ => ?_) hs⟩
    exact ⟨x, hrob ▸ List.mem_cons_of_mem e hx, rfl, fun hnil => ⟨hnil, rfl, le_rfl⟩⟩

theorem Kept.enqueue {s t t' : RobTimer μ} (h : Kept s t) (hs : Links none s) (hl : Links none t)
    {uop : DynamicMicroOp} (hsmall : uop.Small) (henqueue : enqueue cfg t uop = .ok t') :
    Kept s t' := by
  rcases enqueue_entered hl.numbered hsmall henqueue with rfl | ⟨_, _, uop', final, -, he, -⟩
  · exact h
  · refine h.step (he.next ▸ Nat.le_succ _) (fun e' he' hlt => ?_) hs
    rcases he.mem he' with ⟨x, hx, rfl⟩ | rfl
    · exact ⟨x, hx, rfl, fun hnil => ⟨hnil, rfl, le_rfl⟩⟩
    · rw [he.number] at hlt
      exact absurd h.next (Nat.not_le_of_lt hlt)

end RobTimer

namespace RobState

variable {σ μ : Type} {cfg : RobConfig σ μ} {mode : Mode}

theorem Reachable.hasHistory {loads stores : Nat} {memory : μ} {contention : σ} {s : RobState σ μ}
    (h : Reachable cfg mode (new loads stores memory contention) s) :
    RobTimer.HasHistory cfg (new loads stores memory contention).timer s.timer :=
  h.invariant (RobTimer.hasHistory_survives cfg _)
    (fun hs hfresh hstep => hs.enqueue hfresh.small hstep)
    (RobTimer.HasHistory.start (links_new loads stores memory contention) rfl)

/-- From one state of a run to a later one, what is ready stays ready, and nothing but its dispatch
makes it ready later. -/
theorem Reachable.kept {s t : RobState σ μ} (hs : RobTimer.Links none s.timer)
    (h : Reachable cfg mode s t) : RobTimer.Kept s.timer t.timer :=
  (h.invariant (RobTimer.kept_survives cfg hs)
    (fun hkept hfresh hstep => ⟨hkept.1.enqueue hfresh.small hstep,
      hkept.2.enqueue hs hkept.1 hfresh.small hstep⟩) ⟨hs, .refl hs⟩).2

end RobState

end Sniper.Performance
