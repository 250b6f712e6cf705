import Sniper.System.SchedulerPinnedBase
import Mathlib.Data.Fintype.Card
set_option autoImplicit false

/-! The tables of the pinned scheduler agree, also when its hooks are called again. -/

namespace Sniper.System.Scheduling
open Sniper.Lib

variable {n : Nat}

/-- A core runs a thread exactly if the thread is recorded to run there. -/
def Tables.Inverse (tables : Tables n) : Prop :=
  ∀ c t, tables.coreThread c = some t ↔ tables.threadCore t = some c

/-- The thread was runnable, ran nowhere, and is allowed on the core. -/
structure Placement.Proper (p : Placement n) : Prop where
  runnable : p.runnable = true
  wasOn : p.wasOn = none
  allowed : p.allowed = true

namespace SchedulerPinnedBase

structure Inv (s : SchedulerPinnedBase n) : Prop where
  inverse : s.tables.Inverse
  calls : ∀ tables ∈ s.calls, tables.Inverse
  placements : ∀ p ∈ s.placements, p.Proper
  created : ∀ t c, (s.threadInfo t).coreRunning = some c → t < s.numThreads

variable {s s' : SchedulerPinnedBase n}

theorem Inv.running (h : Inv s) {c : Fin n} {t : ThreadId} (hc : s.coreThreadRunning c = some t) :
    (s.threadInfo t).coreRunning = some c :=
  (h.inverse c t).mp hc

theorem Inv.coreOf (h : Inv s) {c : Fin n} {t : ThreadId}
    (ht : (s.threadInfo t).coreRunning = some c) : s.coreThreadRunning c = some t :=
  (h.inverse c t).mpr ht

theorem Inv.fresh (h : Fresh s) : Inv s where
  inverse c t := by simp [tables, h.coreThreadRunning, h.threadInfo, ThreadInfo.new]
  calls := by simp [h.calls]
  placements := by simp [h.placements]
  created t c ht := by simp [h.threadInfo, ThreadInfo.new] at ht

theorem Inv.called (h : Inv s) : Inv s.called where
  inverse := h.inverse
  calls tables hmem := by
    rcases List.mem_append.mp hmem with hold | hnew
    · exact h.calls tables hold
    · rw [List.mem_singleton.mp hnew]
      exact h.inverse
  placements := h.placements
  created := h.created

/-- An entry changes, but not the core it records. -/
theorem Inv.setInfo (h : Inv s) {thread : ThreadId} {info : ThreadInfo n}
    (hcore : info.coreRunning = (s.threadInfo thread).coreRunning) : Inv (s.setInfo thread info) := by
  have hkept : ∀ t, ((s.setInfo thread info).threadInfo t).coreRunning =
      (s.threadInfo t).coreRunning := by
    intro t
    by_cases ht : t = thread
    · subst ht
      simp [SchedulerPinnedBase.setInfo, hcore]
    · simp [SchedulerPinnedBase.setInfo, ht]
  refine ⟨fun c t => ?_, h.calls, h.placements, fun t c ht => h.created t c (hkept t ▸ ht)⟩
  refine Iff.trans (h.inverse c t) ?_
  simp only [tables, hkept]

/-- The loop of `reschedule` finds only eligible threads. -/
theorem choose_eligible {time : SubsecondTime} {core : Fin n} {t : ThreadId}
    (h : (s.choose time core).1 = some t) : s.eligible core t = true := by
  have hfold : ∀ (l : List ThreadId) (best : Option ThreadId × Int),
      (∀ t, best.1 = some t → s.eligible core t = true) →
      ∀ t, (l.foldl (fun best thread =>
        if s.eligible core thread && decide (s.score time thread > best.2) then
          (some thread, s.score time thread)
        else best) best).1 = some t → s.eligible core t = true := by
    intro l
    induction l with
    | nil => exact fun _ hbest => hbest
    | cons thread l ih =>
      intro best hbest
      refine ih _ fun t ht => ?_
      dsimp only at ht
      split at ht
      · rename_i hthread
        cases ht
        exact (Bool.and_eq_true_iff.mp hthread).1
      · exact hbest t ht
  exact hfold _ _ (fun _ h => by cases h) t h

/-- A hook that keeps the invariant. -/
def Keeps (hook : Hook n) : Prop :=
  ∀ s t time s', Inv s → hook s t time = .ok s' → Inv s'

/-- What the thread manager records of threads and cores does not matter. -/
theorem Inv.manager (h : Inv s) (threads : ThreadManager) (core : ThreadId → Option (Fin n))
    (coreState : Fin n → CoreState) :
    Inv { s with threads := threads, core := core, coreState := coreState } :=
  ⟨h.inverse, h.calls, h.placements, h.created⟩

theorem Inv.leaveCore (h : Inv s) (thread : ThreadId) : Inv (s.leaveCore thread) := by
  unfold SchedulerPinnedBase.leaveCore
  split
  · exact h.manager _ _ _
  · exact h

theorem Inv.enterCore (h : Inv s) (thread : ThreadId) (core : Fin n) :
    Inv (s.enterCore thread core) := by
  unfold SchedulerPinnedBase.enterCore
  split
  · exact h.manager _ _ _
  · exact h.manager _ _ _

theorem Inv.moveThread {hook : Hook n} (hhook : Keeps hook) (h : Inv s) {thread : ThreadId}
    {core : Option (Fin n)} {time : SubsecondTime}
    (hs : moveThread hook s thread core time = .ok s') : Inv s' := by
  have hleft := h.leaveCore thread
  unfold SchedulerPinnedBase.moveThread at hs
  split at hs
  · cases hs
  · split at hs
    · cases hs
      exact hleft.manager _ _ _
    · obtain ⟨v, hv, hs⟩ := except_bind_eq_ok.mp hs
      cases hs
      refine Inv.enterCore ?_ thread _
      rw [wake] at hv
      split at hv
      · exact hhook _ _ _ _ (hleft.manager _ _ _) hv
      · cases hv
        exact hleft

/-- The state in which the thread of a core has been unscheduled, and the core still claims it. -/
structure Vacated (core : Fin n) (s v : SchedulerPinnedBase n) : Prop where
  coreThread : v.coreThreadRunning = s.coreThreadRunning
  threadCore : ∀ t, (v.threadInfo t).coreRunning =
    if s.coreThreadRunning core = some t then none else (s.threadInfo t).coreRunning
  affinity : ∀ t, (v.threadInfo t).coreAffinity = (s.threadInfo t).coreAffinity
  runnable : v.threadsRunnable = s.threadsRunnable
  numThreads : v.numThreads = s.numThreads
  calls : v.calls = s.calls
  placements : v.placements = s.placements

theorem vacated_leaveCore {core : Fin n} {v : SchedulerPinnedBase n} (h : Vacated core s v)
    (thread : ThreadId) : Vacated core s ((v.leaveCore thread).setCore thread none) := by
  unfold SchedulerPinnedBase.leaveCore
  split
  · exact ⟨h.coreThread, h.threadCore, h.affinity, h.runnable, h.numThreads, h.calls, h.placements⟩
  · exact ⟨h.coreThread, h.threadCore, h.affinity, h.runnable, h.numThreads, h.calls, h.placements⟩

theorem vacated_unscheduleCurrent {hook : Hook n} {time : SubsecondTime} {core : Fin n}
    {v : SchedulerPinnedBase n} (hv : unscheduleCurrent hook s time core = .ok v) :
    Vacated core s v := by
  unfold unscheduleCurrent at hv
  split at hv
  · rename_i current hcurrent
    unfold SchedulerPinnedBase.moveThread at hv
    split at hv
    · cases hv
    · cases hv
      have hunscheduled : Vacated core s (s.unscheduled current core time) := by
        refine ⟨rfl, fun t => ?_, fun t => ?_, rfl, rfl, rfl, rfl⟩
        · by_cases ht : t = current
          · subst ht
            simp [unscheduled, SchedulerPinnedBase.setInfo, hcurrent]
          · have hne : ¬ current = t := fun heq => ht heq.symm
            simp [unscheduled, SchedulerPinnedBase.setInfo, hcurrent, ht, hne]
        · by_cases ht : t = current
          · subst ht
            simp [unscheduled, SchedulerPinnedBase.setInfo]
          · simp [unscheduled, SchedulerPinnedBase.setInfo, ht]
      exact vacated_leaveCore hunscheduled current
  · rename_i hfree
    cases hv
    exact ⟨rfl, fun t => by simp [hfree], fun _ => rfl, rfl, rfl, rfl, rfl⟩

/-- One core has exchanged its thread for another, which ran nowhere, or for none. -/
theorem Inv.exchanged (h : Inv s) (core : Fin n) (new : Option ThreadId)
    {w : SchedulerPinnedBase n}
    (hcoreThread : w.coreThreadRunning = Function.update s.coreThreadRunning core new)
    (hthreadCore : ∀ t, (w.threadInfo t).coreRunning = if new = some t then some core
      else if s.coreThreadRunning core = some t then none else (s.threadInfo t).coreRunning)
    (hidle : ∀ t, new = some t → (s.threadInfo t).coreRunning = none)
    (hthread : ∀ t, new = some t → t < w.numThreads) (hnum : w.numThreads = s.numThreads)
    (hcalls : w.calls = s.calls) (hplacements : ∀ p ∈ w.placements, p.Proper) : Inv w := by
  refine ⟨fun c t => ?_, by rw [hcalls]; exact h.calls, hplacements, fun t c ht => ?_⟩
  · simp only [tables, hcoreThread, hthreadCore]
    by_cases hc : c = core
    · subst hc
      rw [Function.update_self]
      by_cases hnew : new = some t
      · simp [hnew]
      · simp only [hnew, if_false, false_iff]
        by_cases hcur : s.coreThreadRunning c = some t
        · simp [hcur]
        · simp only [hcur, if_false]
          exact fun hrun => hcur (h.coreOf hrun)
    · rw [Function.update_of_ne hc]
      by_cases hnew : new = some t
      · simp only [hnew, if_true, Option.some.injEq, Ne.symm (Ne.intro hc), iff_false]
        intro hrun
        have hnone := hidle t hnew
        rw [h.running hrun] at hnone
        cases hnone
      · simp only [hnew, if_false]
        by_cases hcur : s.coreThreadRunning core = some t
        · simp only [hcur, if_true, reduceCtorEq, iff_false]
          intro hrun
          have hsame := (h.running hrun).symm.trans (h.running hcur)
          exact hc (Option.some.inj hsame)
        · simp only [hcur, if_false]
          exact h.inverse c t
  · rw [hthreadCore] at ht
    split at ht
    · rename_i hnew
      exact hthread t hnew
    · split at ht
      · cases ht
      · rw [hnum]
        exact h.created t c ht

/-- An eligible thread that the core does not run already runs nowhere. -/
theorem Inv.eligible_idle (h : Inv s) {core : Fin n} {t : ThreadId}
    (hel : s.eligible core t = true) (hne : s.coreThreadRunning core ≠ some t) :
    (s.threadInfo t).coreRunning = none := by
  simp only [eligible, Bool.and_eq_true, Bool.or_eq_true, decide_eq_true_eq, Bool.not_eq_true',
    ThreadInfo.isRunning] at hel
  rcases hel.2 with hidle | hhere
  · simpa using hidle
  · exact absurd (h.coreOf hhere) hne

/-- The state in which the new thread is moved: the tables agree again. -/
theorem Inv.scheduled (h : Inv s) {core : Fin n} {t : ThreadId} {v : SchedulerPinnedBase n}
    (hv : Vacated core s v) (hel : s.eligible core t = true)
    (hne : s.coreThreadRunning core ≠ some t) (ht : t < s.numThreads) (time : SubsecondTime) :
    Inv ((v.setCoreThread core (some t)).scheduled t core time) ∧
      ((v.setCoreThread core (some t)).scheduled t core time).coreThreadRunning =
        Function.update s.coreThreadRunning core (some t) := by
  have hidle := h.eligible_idle hel hne
  have hvidle : (v.threadInfo t).coreRunning = none := by
    rw [hv.threadCore, hidle]
    simp
  have hcoreThread : ((v.setCoreThread core (some t)).scheduled t core time).coreThreadRunning =
      Function.update s.coreThreadRunning core (some t) := by
    simp [SchedulerPinnedBase.scheduled, setCoreThread, hvidle, hv.coreThread]
  refine ⟨h.exchanged _ _ hcoreThread (fun t' => ?_) (fun t' heq => ?_) (fun t' heq => ?_)
    hv.numThreads hv.calls (fun p hp => ?_), hcoreThread⟩
  · by_cases hsame : t' = t
    · subst hsame
      simp [SchedulerPinnedBase.scheduled, SchedulerPinnedBase.setInfo]
    · have hne' : ¬ t = t' := fun heq => hsame heq.symm
      simp [SchedulerPinnedBase.scheduled, SchedulerPinnedBase.setInfo, setCoreThread, hsame, hne',
        hv.threadCore]
  · cases heq
    exact hidle
  · cases heq
    exact hv.numThreads ▸ ht
  · have hp' : p ∈ v.placements ++ [⟨t, core, v.threadsRunnable t, (v.threadInfo t).coreRunning,
        (v.threadInfo t).coreAffinity core⟩] := hp
    rcases List.mem_append.mp hp' with hold | hnew
    · exact h.placements p (hv.placements ▸ hold)
    · rw [List.mem_singleton.mp hnew]
      simp only [eligible, Bool.and_eq_true] at hel
      exact ⟨by rw [hv.runnable]; exact hel.1.2, hvidle, by rw [hv.affinity]; exact hel.1.1⟩

theorem Inv.emptied (h : Inv s) {core : Fin n} {v : SchedulerPinnedBase n}
    (hv : Vacated core s v) : Inv (v.setCoreThread core none) := by
  refine h.exchanged core none ?_ (fun t => ?_) (fun t ht => ?_) (fun t ht => ?_)
    hv.numThreads hv.calls (fun p hp => ?_)
  · simp only [setCoreThread, hv.coreThread]
  · simp [setCoreThread, hv.threadCore]
  · cases ht
  · cases ht
  · exact h.placements p (hv.placements ▸ hp)

theorem isThread_scheduled {v : SchedulerPinnedBase n} (core : Fin n) (t : ThreadId)
    (time : SubsecondTime) : ((v.setCoreThread core (some t)).scheduled t core time).isThread t =
      decide (t < v.numThreads) := rfl

theorem Inv.exchange {hook : Hook n} (hhook : Keeps hook) (h : Inv s) {time : SubsecondTime}
    {core : Fin n} {new : Option ThreadId} (hnew : ∀ t, new = some t → s.eligible core t = true)
    (hs : exchange hook s time core new = .ok s') : Inv s' := by
  unfold SchedulerPinnedBase.exchange at hs
  split at hs
  · cases hs
    exact h
  · rename_i hne
    obtain ⟨v, hv, hs⟩ := except_bind_eq_ok.mp hs
    have hvacated := vacated_unscheduleCurrent hv
    cases new with
    | none =>
      cases hs
      exact h.emptied hvacated
    | some t =>
      unfold scheduleNew at hs
      by_cases ht : t < s.numThreads
      · exact (h.scheduled hvacated (hnew t rfl) hne ht time).1.moveThread hhook hs
      · have hnone := isThread_scheduled (v := v) core t time
        rw [hvacated.numThreads, decide_eq_false ht] at hnone
        simp [SchedulerPinnedBase.moveThread, hnone] at hs

theorem Inv.reschedule {hook : Hook n} (hhook : Keeps hook) (h : Inv s) {time : SubsecondTime}
    {core : Fin n} (hs : reschedule hook s time core = .ok s') : Inv s' := by
  unfold SchedulerPinnedBase.reschedule at hs
  split at hs
  · cases hs
    exact h
  · split at hs
    · cases hs
    · obtain ⟨v, hv, hs⟩ := except_bind_eq_ok.mp hs
      cases hs
      have hinv := h.exchange hhook (fun t ht => choose_eligible ht) hv
      exact ⟨hinv.inverse, hinv.calls, hinv.placements, hinv.created⟩

theorem Inv.runnable (h : Inv s) (thread : ThreadId) (runnable : Bool) :
    Inv (s.setRunnable thread runnable) :=
  ⟨h.inverse, h.calls, h.placements, h.created⟩

theorem Inv.scheduleFree {hook : Hook n} (hhook : Keeps hook) (h : Inv s) {thread : ThreadId}
    {time : SubsecondTime} (hs : scheduleFree hook s thread time = .ok s') : Inv s' := by
  unfold SchedulerPinnedBase.scheduleFree at hs
  split at hs
  · cases hs
  · split at hs
    · exact h.reschedule hhook hs
    · cases hs
      exact h

theorem Inv.scheduleNext {hook : Hook n} (hhook : Keeps hook) (h : Inv s) {thread : ThreadId}
    {time : SubsecondTime} (hs : scheduleNext hook s thread time = .ok s') : Inv s' := by
  unfold SchedulerPinnedBase.scheduleNext at hs
  split at hs
  · cases hs
  · split at hs
    · exact h.reschedule hhook hs
    · cases hs
      exact h

/-- The invariant holds across the re-entrance. -/
theorem keeps_hookThreadResume (fuel : Nat) : Keeps (n := n) (hookThreadResume fuel) := by
  induction fuel with
  | zero =>
    intro s t time s' _ hs
    cases hs
  | succ fuel ih =>
    intro s t time s' h hs
    rw [hookThreadResume] at hs
    split at hs
    · cases hs
    · exact (h.called.runnable t true).scheduleFree ih hs

/-! ### The re-entrance ends -/

def freeCores (s : SchedulerPinnedBase n) : Finset (Fin n) :=
  Finset.univ.filter fun c => s.coreThreadRunning c = none

theorem card_freeCores_le (s : SchedulerPinnedBase n) : s.freeCores.card ≤ n :=
  (Finset.card_le_univ _).trans (Nat.le_of_eq (Fintype.card_fin n))

theorem coreThreadRunning_leaveCore (thread : ThreadId) :
    (s.leaveCore thread).coreThreadRunning = s.coreThreadRunning := by
  unfold SchedulerPinnedBase.leaveCore
  split <;> rfl

/-- Moving a thread fails in the hook at most, which finds the tables as they were. -/
theorem moveThread_outOfFuel {hook : Hook n} (h : Inv s) {thread : ThreadId}
    {core : Option (Fin n)} {time : SubsecondTime}
    (hs : moveThread hook s thread core time = .error .outOfFuel) :
    ∃ u, Inv u ∧ u.coreThreadRunning = s.coreThreadRunning ∧
      hook u thread time = .error .outOfFuel := by
  unfold SchedulerPinnedBase.moveThread at hs
  split at hs
  · cases hs
  · split at hs
    · cases hs
    · rcases except_bind_eq_error.mp hs with hwake | ⟨v, -, hs⟩
      · rw [wake] at hwake
        split at hwake
        · refine ⟨_, ?_, ?_, hwake⟩
          · exact (h.leaveCore thread).manager _ _ _
          · exact coreThreadRunning_leaveCore thread
        · cases hwake
      · cases hs

/-- The hook is called again with one free core less. -/
theorem exchange_outOfFuel {hook : Hook n} (h : Inv s) {time : SubsecondTime} {core : Fin n}
    {new : Option ThreadId} (hnew : ∀ t, new = some t → s.eligible core t = true)
    (hs : exchange hook s time core new = .error .outOfFuel) :
    ∃ u t, Inv u ∧ u.freeCores ⊆ s.freeCores.erase core ∧ hook u t time = .error .outOfFuel := by
  unfold SchedulerPinnedBase.exchange at hs
  split at hs
  · cases hs
  · rename_i hne
    rcases except_bind_eq_error.mp hs with hv | ⟨v, hv, hs⟩
    · unfold unscheduleCurrent at hv
      split at hv
      · unfold SchedulerPinnedBase.moveThread at hv
        split at hv
        · cases hv
        · cases hv
      · cases hv
    · have hvacated := vacated_unscheduleCurrent hv
      cases new with
      | none => cases hs
      | some t =>
        unfold scheduleNew at hs
        by_cases ht : t < s.numThreads
        · obtain ⟨hinv, htables⟩ := h.scheduled hvacated (hnew t rfl) hne ht time
          obtain ⟨u, hu, hcoreThread, herror⟩ := moveThread_outOfFuel hinv hs
          refine ⟨u, t, hu, fun c hc => ?_, herror⟩
          simp only [freeCores, Finset.mem_filter, Finset.mem_univ, true_and, Finset.mem_erase,
            hcoreThread, htables] at hc ⊢
          by_cases hcore : c = core
          · subst hcore
            simp at hc
          · exact ⟨hcore, by simpa [hcore] using hc⟩
        · have hnone := isThread_scheduled (v := v) core t time
          rw [hvacated.numThreads, decide_eq_false ht] at hnone
          simp [SchedulerPinnedBase.moveThread, hnone] at hs

theorem reschedule_outOfFuel {hook : Hook n} (h : Inv s) {time : SubsecondTime} {core : Fin n}
    (hs : reschedule hook s time core = .error .outOfFuel) :
    ∃ u t, Inv u ∧ u.freeCores ⊆ s.freeCores.erase core ∧ hook u t time = .error .outOfFuel := by
  unfold SchedulerPinnedBase.reschedule at hs
  split at hs
  · cases hs
  · split at hs
    · cases hs
    · rcases except_bind_eq_error.mp hs with hexchange | ⟨v, -, hs⟩
      · exact exchange_outOfFuel h (fun t ht => choose_eligible ht) hexchange
      · cases hs

theorem findFreeCoreForThread_free {thread : ThreadId} {c : Fin n}
    (h : s.findFreeCoreForThread thread = some c) : c ∈ s.freeCores := by
  have hfound := List.find?_some h
  simp only [Bool.and_eq_true, decide_eq_true_eq] at hfound
  simpa [freeCores] using hfound.2

theorem scheduleFree_outOfFuel {hook : Hook n} (h : Inv s) {thread : ThreadId}
    {time : SubsecondTime} (hs : scheduleFree hook s thread time = .error .outOfFuel) :
    ∃ u t, Inv u ∧ u.freeCores.card < s.freeCores.card ∧ hook u t time = .error .outOfFuel := by
  unfold SchedulerPinnedBase.scheduleFree at hs
  split at hs
  · cases hs
  · split at hs
    · rename_i c hc
      obtain ⟨u, t, hu, hsub, herror⟩ := reschedule_outOfFuel h hs
      have hlt := Finset.card_erase_lt_of_mem (findFreeCoreForThread_free hc)
      exact ⟨u, t, hu, (Finset.card_le_card hsub).trans_lt hlt, herror⟩
    · cases hs

/-- Each re-entrance needs another free core. -/
theorem hookThreadResume_ends (fuel : Nat) (s : SchedulerPinnedBase n) (t : ThreadId)
    (time : SubsecondTime) (h : Inv s) (hfuel : s.freeCores.card < fuel) :
    hookThreadResume fuel s t time ≠ .error .outOfFuel := by
  induction fuel generalizing s t with
  | zero => cases hfuel
  | succ fuel ih =>
    intro hs
    rw [hookThreadResume] at hs
    split at hs
    · cases hs
    · obtain ⟨u, t', hu, hlt, herror⟩ := scheduleFree_outOfFuel (h.called.runnable t true) hs
      have hsame : ((s.called).setRunnable t true).freeCores = s.freeCores := rfl
      rw [hsame] at hlt
      exact ih u t' hu (by omega) herror

/-! ### The events -/

theorem Inv.resumeThread {fuel : Nat} (h : Inv s) {thread : ThreadId} {time : SubsecondTime}
    (hs : s.resumeThread fuel thread time = .ok s') : Inv s' := by
  unfold SchedulerPinnedBase.resumeThread at hs
  split at hs
  · cases hs
  · exact keeps_hookThreadResume fuel _ _ _ _ (h.manager _ _ _) hs

theorem foldl_addAffinity_coreRunning (l : List (Fin n)) (info : ThreadInfo n) :
    (l.foldl ThreadInfo.addAffinity info).coreRunning = info.coreRunning := by
  induction l generalizing info with
  | nil => rfl
  | cons c l ih => exact ih (info.addAffinity c)

theorem Inv.newThread (h : Inv s) : Inv s.newThread := by
  have hcalled := h.called
  exact ⟨h.inverse, hcalled.calls, h.placements, fun t c ht => Nat.lt_succ_of_lt (h.created t c ht)⟩

theorem Inv.threadSetInitialAffinity (h : Inv s) (thread : ThreadId) (initial : List (Fin n)) :
    Inv (s.threadSetInitialAffinity thread initial) ∧
      ((s.threadSetInitialAffinity thread initial).threadInfo thread).coreRunning =
        (s.threadInfo thread).coreRunning ∧
      (s.threadSetInitialAffinity thread initial).numThreads = s.numThreads := by
  unfold SchedulerPinnedBase.threadSetInitialAffinity
  dsimp only
  split
  · exact ⟨h, rfl, rfl⟩
  · refine ⟨h.setInfo (foldl_addAffinity_coreRunning _ _), ?_, rfl⟩
    simp [SchedulerPinnedBase.setInfo, foldl_addAffinity_coreRunning, ThreadInfo.clearAffinity]

theorem Inv.createOn (h : Inv s) {thread : ThreadId} {c : Fin n} (hfree : c ∈ s.freeCores)
    (hidle : (s.threadInfo thread).coreRunning = none) (hthread : thread < s.numThreads) :
    Inv (s.createOn thread c) := by
  have hnone : s.coreThreadRunning c = none := by simpa [freeCores] using hfree
  refine h.exchanged c (some thread) rfl (fun t => ?_) (fun t ht => ?_)
    (fun t ht => ?_) rfl rfl h.placements
  · by_cases hsame : t = thread
    · subst hsame
      simp [SchedulerPinnedBase.createOn, SchedulerPinnedBase.setInfo, setCoreThread,
        setQuantumLeft, setCore, setCoreState]
    · have hne : ¬ thread = t := fun heq => hsame heq.symm
      simp [SchedulerPinnedBase.createOn, SchedulerPinnedBase.setInfo, setCoreThread,
        setQuantumLeft, setCore, setCoreState, hsame, hne, hnone]
  · cases ht
    exact hidle
  · cases ht
    exact hthread

theorem Inv.threadCreate (h : Inv s) {initial : List (Fin n)}
    (hs : s.threadCreate initial = .ok s') : Inv s' := by
  have hidle : (s.threadInfo s.numThreads).coreRunning = none := by
    by_contra hne
    obtain ⟨c, hc⟩ := Option.ne_none_iff_exists'.mp hne
    exact Nat.lt_irrefl _ (h.created _ _ hc)
  obtain ⟨hinv, hcore, hnum⟩ := h.newThread.threadSetInitialAffinity s.numThreads initial
  have hidle' := hcore.trans hidle
  unfold SchedulerPinnedBase.threadCreate at hs
  dsimp only at hs
  split at hs
  · cases hs
  · split at hs
    · rename_i c hc
      cases hs
      refine hinv.createOn (findFreeCoreForThread_free hc) hidle' ?_
      rw [hnum]
      exact Nat.lt_succ_self _
    · cases hs
      exact hinv.setInfo hidle'.symm

theorem Inv.started (h : Inv s) (thread : ThreadId) : Inv (s.started thread) := by
  unfold SchedulerPinnedBase.started
  split
  · exact h.manager _ _ _
  · exact h.manager _ _ _

theorem Inv.startThread (h : Inv s) (thread : ThreadId) : Inv (s.startThread thread) :=
  ⟨h.inverse, h.called.calls, h.placements, h.created⟩

theorem Inv.threadStart {fuel : Nat} (h : Inv s) {thread : ThreadId} {time : SubsecondTime}
    (hs : threadStart fuel s thread time = .ok s') : Inv s' := by
  unfold SchedulerPinnedBase.threadStart at hs
  split at hs
  · cases hs
  · split at hs
    · cases hs
    · obtain ⟨v, hv, hs⟩ := except_bind_eq_ok.mp hs
      cases hs
      have hinv := (h.startThread thread).runnable thread true
      exact (hinv.scheduleFree (keeps_hookThreadResume fuel) hv).started thread

theorem Inv.threadStall {fuel : Nat} (h : Inv s) {thread : ThreadId} {reason : StallType}
    {time : SubsecondTime} (hs : threadStall fuel s thread reason time = .ok s') : Inv s' := by
  have hstalled : Inv { s with threads := s.threads.stallThread thread reason }.called :=
    (h.manager _ _ _).called
  unfold SchedulerPinnedBase.threadStall at hs
  dsimp only at hs
  split at hs
  · cases hs
    exact hstalled
  · split at hs
    · cases hs
    · exact (hstalled.runnable thread false).scheduleNext (keeps_hookThreadResume fuel) hs

theorem Inv.threadExit {fuel : Nat} (h : Inv s) {thread : ThreadId} {waiters : List ThreadId}
    {time : SubsecondTime} (hs : threadExit fuel s thread waiters time = .ok s') : Inv s' := by
  unfold SchedulerPinnedBase.threadExit at hs
  split at hs
  · cases hs
  · rename_i c _
    obtain ⟨v, hv, hs⟩ := except_bind_eq_ok.mp hs
    have hidle : Inv (s.setStatus thread .idle) := h.manager _ _ _
    have hinv : Inv v := foldlM_keeps (fun _ _ _ hu hstep => hu.resumeThread hstep) hidle hv
    dsimp only at hs
    split at hs
    · cases hs
    · have hleft : Inv ((v.setCoreState c .idle).setCore thread none).called :=
        (hinv.manager _ _ _).called
      exact (hleft.runnable thread false).scheduleNext (keeps_hookThreadResume fuel) hs

theorem Inv.quantum (h : Inv s) (core : Fin n) (time : SubsecondTime) :
    Inv (s.setQuantumLeft core time) :=
  ⟨h.inverse, h.calls, h.placements, h.created⟩

theorem Inv.threadYield {fuel : Nat} (h : Inv s) {thread : ThreadId} {time : SubsecondTime}
    (hs : threadYield fuel s thread time = .ok s') : Inv s' := by
  unfold SchedulerPinnedBase.threadYield at hs
  split at hs
  · cases hs
  · split at hs
    · cases hs
      exact h
    · obtain ⟨v, hv, hs⟩ := except_bind_eq_ok.mp hs
      have hinv := (h.quantum _ 0).reschedule (keeps_hookThreadResume fuel) hv
      split at hs
      · cases hs
        exact hinv
      · exact hinv.scheduleFree (keeps_hookThreadResume fuel) hs

theorem Inv.setMask (h : Inv s) {thread : ThreadId} {mask : Option (List Nat)}
    (hs : s.setMask thread mask = .ok s') : Inv s' := by
  unfold SchedulerPinnedBase.setMask at hs
  cases mask with
  | none =>
    cases hs
    exact h.setInfo (foldl_addAffinity_coreRunning _ _)
  | some cpus =>
    obtain ⟨info, hinfo, hs⟩ := except_bind_eq_ok.mp hs
    cases hs
    refine h.setInfo (foldlM_keeps (I := fun info =>
      info.coreRunning = (s.threadInfo thread).coreRunning) (fun info cpu info' hold hcpu => ?_)
      rfl hinfo)
    unfold addCpu at hcpu
    split at hcpu
    · cases hcpu
      exact hold
    · cases hcpu

theorem Inv.applyAffinity {fuel : Nat} (h : Inv s) {caller : Option ThreadId}
    {thread : ThreadId} {time : SubsecondTime}
    (hs : s.applyAffinity fuel caller thread time = .ok s') : Inv s' := by
  unfold SchedulerPinnedBase.applyAffinity at hs
  dsimp only at hs
  split at hs
  · cases hs
    exact h
  · split at hs
    · exact h.threadYield hs
    · split at hs
      · split at hs
        · cases hs
          exact h.quantum _ _
        · split at hs
          · cases hs
          · cases hs
            exact h
      · split at hs
        · cases hs
        · split at hs
          · exact h.scheduleFree (keeps_hookThreadResume fuel) hs
          · cases hs
            exact h

theorem Inv.resized (h : Inv s) (size : Nat) : Inv { s.called with threadInfoSize := size } :=
  ⟨h.inverse, h.called.calls, h.placements, h.created⟩

theorem Inv.periodicCore {fuel : Nat} {time delta : SubsecondTime} (h : Inv s) {core : Fin n}
    (hs : periodicCore fuel time delta s core = .ok s') : Inv s' := by
  unfold SchedulerPinnedBase.periodicCore at hs
  split at hs
  · exact h.reschedule (keeps_hookThreadResume fuel) hs
  · cases hs
    exact h.quantum _ _

theorem Inv.periodic {fuel : Nat} (h : Inv s) {time : SubsecondTime}
    (hs : periodic fuel s time = .ok s') : Inv s' := by
  obtain ⟨v, hv, hs⟩ := except_bind_eq_ok.mp hs
  cases hs
  have hinv : Inv v := foldlM_keeps (fun _ _ _ hu hstep => hu.periodicCore hstep) h.called hv
  exact ⟨hinv.inverse, hinv.calls, hinv.placements, hinv.created⟩

/-- Every event keeps the tables mutually inverse. -/
theorem Inv.perform {fuel : Nat} (h : Inv s) {i : SchedulerStep n}
    (hs : s.perform fuel i = .ok s') : Inv s' := by
  cases i with
  | threadCreate initial => exact h.threadCreate hs
  | threadStart thread time => exact h.threadStart hs
  | threadStall thread reason time => exact h.threadStall hs
  | threadResume thread time => exact h.resumeThread hs
  | threadExit thread waiters time => exact h.threadExit hs
  | threadYield thread time => exact h.called.threadYield hs
  | threadSetAffinity caller thread mask time =>
    obtain ⟨v, hv, hs⟩ := except_bind_eq_ok.mp hs
    exact ((h.resized _).setMask hv).applyAffinity hs
  | periodic time => exact h.periodic hs

/-! ### The events end -/

theorem hook_ends {fuel : Nat} (hfuel : n < fuel) (h : Inv s) (thread : ThreadId)
    (time : SubsecondTime) : hookThreadResume fuel s thread time ≠ .error .outOfFuel :=
  hookThreadResume_ends fuel s thread time h ((card_freeCores_le s).trans_lt hfuel)

theorem reschedule_ends {fuel : Nat} (hfuel : n < fuel) (h : Inv s) (time : SubsecondTime)
    (core : Fin n) : reschedule (hookThreadResume fuel) s time core ≠ .error .outOfFuel := by
  intro hs
  obtain ⟨u, t, hu, -, herror⟩ := reschedule_outOfFuel h hs
  exact hook_ends hfuel hu t time herror

theorem scheduleFree_ends {fuel : Nat} (hfuel : n < fuel) (h : Inv s) (thread : ThreadId)
    (time : SubsecondTime) : scheduleFree (hookThreadResume fuel) s thread time ≠
      .error .outOfFuel := by
  intro hs
  obtain ⟨u, t, hu, -, herror⟩ := scheduleFree_outOfFuel h hs
  exact hook_ends hfuel hu t time herror

theorem scheduleNext_ends {fuel : Nat} (hfuel : n < fuel) (h : Inv s) (thread : ThreadId)
    (time : SubsecondTime) : scheduleNext (hookThreadResume fuel) s thread time ≠
      .error .outOfFuel := by
  intro hs
  unfold SchedulerPinnedBase.scheduleNext at hs
  split at hs
  · cases hs
  · split at hs
    · exact reschedule_ends hfuel h time _ hs
    · cases hs

theorem resumeThread_ends {fuel : Nat} (hfuel : n < fuel) (h : Inv s) (thread : ThreadId)
    (time : SubsecondTime) : s.resumeThread fuel thread time ≠ .error .outOfFuel := by
  intro hs
  unfold SchedulerPinnedBase.resumeThread at hs
  split at hs
  · cases hs
  · exact hook_ends hfuel (h.manager _ _ _) thread time hs

theorem threadYield_ends {fuel : Nat} (hfuel : n < fuel) (h : Inv s) (thread : ThreadId)
    (time : SubsecondTime) : threadYield fuel s thread time ≠ .error .outOfFuel := by
  intro hs
  unfold SchedulerPinnedBase.threadYield at hs
  split at hs
  · cases hs
  · split at hs
    · cases hs
    · rename_i c _
      rcases except_bind_eq_error.mp hs with herror | ⟨v, hv, hs⟩
      · exact reschedule_ends hfuel (h.quantum c 0) time c herror
      · have hinv := (h.quantum c 0).reschedule (keeps_hookThreadResume fuel) hv
        split at hs
        · cases hs
        · exact scheduleFree_ends hfuel hinv thread time hs

theorem setMask_ends {thread : ThreadId} {mask : Option (List Nat)} :
    s.setMask thread mask ≠ .error .outOfFuel := by
  intro hs
  unfold SchedulerPinnedBase.setMask at hs
  cases mask with
  | none => cases hs
  | some cpus =>
    rcases except_bind_eq_error.mp hs with herror | ⟨v, hv, hs⟩
    · obtain ⟨info, cpu, -, hcpu⟩ := foldlM_error (I := fun _ => True)
        (fun _ _ _ _ _ => trivial) trivial herror
      unfold addCpu at hcpu
      split at hcpu
      · cases hcpu
      · cases hcpu
    · cases hs

theorem applyAffinity_ends {fuel : Nat} (hfuel : n < fuel) (h : Inv s) (caller : Option ThreadId)
    (thread : ThreadId) (time : SubsecondTime) :
    s.applyAffinity fuel caller thread time ≠ .error .outOfFuel := by
  intro hs
  unfold SchedulerPinnedBase.applyAffinity at hs
  dsimp only at hs
  split at hs
  · cases hs
  · split at hs
    · exact threadYield_ends hfuel h thread time hs
    · split at hs
      · split at hs
        · cases hs
        · split at hs
          · cases hs
          · cases hs
      · split at hs
        · cases hs
        · split at hs
          · exact scheduleFree_ends hfuel h thread time hs
          · cases hs

/-- No event calls itself again without end. -/
theorem perform_ends {fuel : Nat} (hfuel : n < fuel) (h : Inv s) (i : SchedulerStep n) :
    s.perform fuel i ≠ .error .outOfFuel := by
  intro hs
  cases i with
  | threadCreate initial =>
    have hs' : s.threadCreate initial = .error .outOfFuel := hs
    unfold SchedulerPinnedBase.threadCreate at hs'
    dsimp only at hs'
    split at hs'
    · cases hs'
    · split at hs'
      · cases hs'
      · cases hs'
  | threadStart thread time =>
    have hs' : threadStart fuel s thread time = .error .outOfFuel := hs
    unfold SchedulerPinnedBase.threadStart at hs'
    split at hs'
    · cases hs'
    · split at hs'
      · cases hs'
      · rcases except_bind_eq_error.mp hs' with herror | ⟨v, -, hv⟩
        · exact scheduleFree_ends hfuel ((h.startThread thread).runnable thread true) thread time
            herror
        · cases hv
  | threadStall thread reason time =>
    have hs' : threadStall fuel s thread reason time = .error .outOfFuel := hs
    unfold SchedulerPinnedBase.threadStall at hs'
    dsimp only at hs'
    split at hs'
    · cases hs'
    · split at hs'
      · cases hs'
      · have hstalled : Inv { s with threads := s.threads.stallThread thread reason }.called :=
          (h.manager _ _ _).called
        exact scheduleNext_ends hfuel (hstalled.runnable thread false) thread time hs'
  | threadResume thread time => exact resumeThread_ends hfuel h thread time hs
  | threadExit thread waiters time =>
    have hs' : threadExit fuel s thread waiters time = .error .outOfFuel := hs
    unfold SchedulerPinnedBase.threadExit at hs'
    split at hs'
    · cases hs'
    · rename_i c _
      have hidle : Inv (s.setStatus thread .idle) := h.manager _ _ _
      rcases except_bind_eq_error.mp hs' with herror | ⟨v, hv, hs'⟩
      · obtain ⟨u, waiter, hu, hresume⟩ :=
          foldlM_error (fun _ _ _ hu hstep => Inv.resumeThread hu hstep) hidle herror
        exact resumeThread_ends hfuel hu waiter time hresume
      · have hinv : Inv v := foldlM_keeps (fun _ _ _ hu hstep => hu.resumeThread hstep) hidle hv
        dsimp only at hs'
        split at hs'
        · cases hs'
        · have hleft : Inv ((v.setCoreState c .idle).setCore thread none).called :=
            (hinv.manager _ _ _).called
          exact scheduleNext_ends hfuel (hleft.runnable thread false) thread time hs'
  | threadYield thread time => exact threadYield_ends hfuel h.called thread time hs
  | threadSetAffinity caller thread mask time =>
    rcases except_bind_eq_error.mp hs with herror | ⟨v, hv, hs⟩
    · exact setMask_ends herror
    · exact applyAffinity_ends hfuel ((h.resized _).setMask hv) caller thread time hs
  | periodic time =>
    rcases except_bind_eq_error.mp hs with herror | ⟨v, hv, hs⟩
    · obtain ⟨u, core, hu, hcore⟩ :=
        foldlM_error (fun _ _ _ hu hstep => Inv.periodicCore hu hstep) h.called herror
      unfold SchedulerPinnedBase.periodicCore at hcore
      split at hcore
      · exact reschedule_ends hfuel hu time core hcore
      · cases hcore
    · cases hs

/-- One core, and no thread yet. -/
def oneCore : SchedulerPinnedBase 1 where
  quantum := 1000
  lastPeriodic := 0
  threadInfo := fun _ => .new
  threadInfoSize := 0
  coreThreadRunning := fun _ => none
  quantumLeft := fun _ => 0
  threadsRunnable := fun _ => false
  threadsRunnableSize := 16
  threads := ⟨fun _ => ⟨.idle, .unscheduled, 0, false⟩⟩
  numThreads := 0
  core := fun _ => none
  coreState := fun _ => .idle
  placements := []
  calls := []

open scoped Lib.Literals in
/-- Two threads share the core; when the first stalls, the second is placed there and resumed. -/
def takeTurns : List (SchedulerStep 1) :=
  [.threadCreate [0], .threadStart 0 0, .threadCreate [0], .threadStart 1 0,
    .threadStall 0 .futex 5000]

end SchedulerPinnedBase

end Sniper.System.Scheduling
