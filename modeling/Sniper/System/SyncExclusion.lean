import Sniper.System.SyncQueues
set_option autoImplicit false

/-! What the program sees of its mutexes and condition variables. -/

namespace Sniper.System
open Sniper.Lib

/-- Threads that come to a mutex one after the other: the first takes it if it is free. -/
def SimMutex.join (mutex : SimMutex) (arriving : List ThreadId) : SimMutex :=
  match mutex.owner, arriving with
  | none, first :: rest => ⟨some first, mutex.waiting ++ rest⟩
  | owner, arriving => ⟨owner, mutex.waiting ++ arriving⟩

/-- The threads among waiters of a condition that are bound for a mutex. -/
def bound (mux : Addr) (woken : List CondWaiter) : List ThreadId :=
  (woken.filter fun w => w.mutex = mux).map CondWaiter.thread

theorem SimMutex.join_nil (mutex : SimMutex) : mutex.join [] = mutex := by
  unfold SimMutex.join
  split
  · contradiction
  · simp

theorem SimMutex.join_cons (mutex : SimMutex) (first : ThreadId) (rest : List ThreadId) :
    (mutex.join [first]).join rest = mutex.join (first :: rest) := by
  cases ho : mutex.owner <;> simp [SimMutex.join, ho]

theorem SimMutex.owner_join {mutex : SimMutex} {arriving : List ThreadId} {t : ThreadId}
    (h : mutex.owner = some t) : (mutex.join arriving).owner = some t := by
  cases arriving <;> simp [SimMutex.join, h]

namespace SyncServer

variable {s s' : SyncServer} {mux c : Addr} {thread : ThreadId} {time : SubsecondTime}

/-- The waiters leave the condition, each for its mutex, in order; those who get it run. -/
structure Woken (s s' : SyncServer) (c : Addr) (woken : List CondWaiter) : Prop where
  leave : s'.cond = Function.update s.cond c ⟨(s.cond c).waiting.drop woken.length⟩
  arrive : ∀ m, s'.mutex m = (s.mutex m).join (bound m woken)
  served : ∀ w ∈ woken, s'.threads.isThreadRunning w.thread = true ∧
      (s'.mutex w.mutex).owner = some w.thread ∨
    s'.threads.isThreadStalled w.thread = true ∧ w.thread ∈ (s'.mutex w.mutex).waiting

theorem mutex_wakeFirst {w : CondWaiter} {rest : List CondWaiter} (m : Addr) :
    (s.wakeFirst c w rest time).2.mutex m = (s.mutex m).join (bound m [w]) := by
  unfold SyncServer.wakeFirst lockAsync
  split
  · rename_i ho
    rw [mutex_setCond] at ho
    by_cases hm : m = w.mutex
    · subst hm
      simp [bound, SimMutex.join, ho]
    · simp [bound, hm, Ne.symm hm, SimMutex.join_nil]
  · rename_i o ho
    rw [mutex_setCond] at ho
    by_cases hm : m = w.mutex
    · subst hm
      simp [bound, SimMutex.join, ho]
    · simp [bound, hm, Ne.symm hm, SimMutex.join_nil]

theorem cond_wakeFirst {w : CondWaiter} {rest : List CondWaiter} :
    (s.wakeFirst c w rest time).2.cond = Function.update s.cond c ⟨rest⟩ := by
  unfold SyncServer.wakeFirst lockAsync
  split <;> simp

theorem inCall_wakeFirst {w : CondWaiter} {rest : List CondWaiter} :
    (s.wakeFirst c w rest time).2.inCall = s.inCall := by
  unfold SyncServer.wakeFirst lockAsync
  split <;> simp

theorem wakeAll_effect {woken : List CondWaiter} (hw : (s.cond c).waiting = woken) :
    (s.wakeAll c time woken).cond = Function.update s.cond c ⟨[]⟩ ∧
    (s.wakeAll c time woken).inCall = s.inCall ∧
    ∀ m, (s.wakeAll c time woken).mutex m = (s.mutex m).join (bound m woken) := by
  induction woken generalizing s with
  | nil =>
    refine ⟨?_, rfl, fun m => (SimMutex.join_nil _).symm⟩
    have hempty : s.cond c = ⟨[]⟩ := congrArg SimCond.mk hw
    rw [← hempty]
    exact (Function.update_eq_self c s.cond).symm
  | cons w rest ih =>
    obtain ⟨hcond, hcall, hmutex⟩ := ih (s := (s.wakeFirst c w rest time).2)
      (by simp [cond_wakeFirst])
    simp only [wakeAll]
    refine ⟨?_, ?_, ?_⟩
    · rw [hcond, cond_wakeFirst, Function.update_idem]
    · rw [hcall, inCall_wakeFirst]
    · intro m
      rw [hmutex m, mutex_wakeFirst]
      by_cases hm : w.mutex = m
      · simp [bound, hm, SimMutex.join_cons]
      · simp [bound, hm, SimMutex.join_nil]

/-- A woken thread has its mutex or stands in its queue. -/
theorem Inv.served {woken rest : List CondWaiter} (h : s.Inv) (h' : s'.Inv)
    (hw : (s.cond c).waiting = woken ++ rest) (hcall : s'.inCall = s.inCall)
    (hcond : s'.cond = Function.update s.cond c ⟨rest⟩) {w : CondWaiter} (hmem : w ∈ woken) :
    s'.threads.isThreadRunning w.thread = true ∧ (s'.mutex w.mutex).owner = some w.thread ∨
      s'.threads.isThreadStalled w.thread = true ∧ w.thread ∈ (s'.mutex w.mutex).waiting := by
  have hwc : w ∈ (s.cond c).waiting := by simp [hw, hmem]
  have haw : s'.awaits w.thread = some w.mutex := by
    simpa [awaits, hcall] using h.awaitsCond c w hwc
  rcases Bool.eq_false_or_eq_true (s'.threads.isThreadStalled w.thread) with hst | hst
  · refine .inr ⟨hst, ?_⟩
    obtain ⟨q, t, ht, rfl⟩ := (h'.stalled _).mp hst
    cases q with
    | mutex m =>
      have hm := h'.awaitsMutex m _ ht
      have hm' : w.mutex = m := Option.some.inj (haw.symm.trans hm)
      exact hm' ▸ ht
    | cond d =>
      have hold : w.thread ∈ s.queue (.cond c) := List.mem_map_of_mem hwc
      by_cases hd : d = c
      · subst hd
        have hrest : w.thread ∈ rest.map CondWaiter.thread := by
          simpa [queue, hcond] using ht
        have honce : (s.queue (.cond d)).Nodup := by simpa using h.apart.once (.cond d)
        simp only [queue, hw, List.map_append, List.nodup_append] at honce
        exact absurd rfl (honce.2.2 _ (List.mem_map_of_mem hmem) _ hrest)
      · have ht' : w.thread ∈ s.queue (.cond d) := by simpa [queue, hcond, hd] using ht
        have := h.apart.alone _ _ _ _ ht' hold rfl
        simp only [WaitQueue.cond.injEq] at this
        exact absurd this hd
  · exact .inl (h'.granted _ _ haw hst)

end SyncServer

/-- Who has which mutex, as the threads see it: from the return of the call that obtains it to
the call that gives it up. -/
def Held.set (held : Addr → ThreadId → Bool) (mux : Addr) (thread : ThreadId) (b : Bool) :
    Addr → ThreadId → Bool :=
  fun m t => if m = mux ∧ t = thread then b else held m t

def Held.next (held : Addr → ThreadId → Bool) : SyncCall × SyncAnswer → Addr → ThreadId → Bool
  | (.mutexLock thread mux _ _, .locked _ true) => Held.set held mux thread true
  | (.returns thread, .returned call _) => Held.set held call.mutex thread true
  | (.mutexUnlock thread mux _, _) => Held.set held mux thread false
  | (.condWait thread _ mux _, _) => Held.set held mux thread false
  | _ => held

def holds (tr : List (SyncCall × SyncAnswer)) : Addr → ThreadId → Bool :=
  tr.foldl Held.next fun _ _ => false

namespace SyncServer

variable {s s' : SyncServer} {mux c : Addr} {thread : ThreadId} {time : SubsecondTime}

theorem owner_lock {m : Addr} {t : ThreadId} (h : (s.mutex m).owner = some t) :
    ((s.lock mux thread time).2.mutex m).owner = some t := by
  unfold SyncServer.lock
  split
  · rename_i ho
    by_cases hm : m = mux
    · rw [hm, ho] at h
      cases h
    · simpa [hm] using h
  · by_cases hm : m = mux
    · subst hm
      simpa using h
    · simpa [hm] using h

theorem owner_wakeFirst {m : Addr} {t : ThreadId} {woken : CondWaiter} {rest : List CondWaiter}
    (h : (s.mutex m).owner = some t) :
    ((s.wakeFirst c woken rest time).2.mutex m).owner = some t := by
  rw [mutex_wakeFirst]
  exact SimMutex.owner_join h

theorem owner_wakeAll {m : Addr} {t : ThreadId} {woken : List CondWaiter}
    (h : (s.mutex m).owner = some t) : ((s.wakeAll c time woken).mutex m).owner = some t := by
  induction woken generalizing s with
  | nil => exact h
  | cons w rest ih => exact ih (owner_wakeFirst h)

theorem signal_eq {w : CondWaiter} {rest : List CondWaiter} (hw : (s.cond c).waiting = w :: rest) :
    (s.signal c time).2 = (s.wakeFirst c w rest time).2 := by
  unfold SyncServer.signal
  rw [hw]
  dsimp only
  split <;> simp_all

theorem owner_signal {m : Addr} {t : ThreadId} (h : (s.mutex m).owner = some t) :
    ((s.signal c time).2.mutex m).owner = some t := by
  cases hw : (s.cond c).waiting with
  | nil => simpa [SyncServer.signal, hw] using h
  | cons w rest =>
    rw [signal_eq hw]
    exact owner_wakeFirst h

theorem unlock_other {m : Addr} {owner : Option ThreadId}
    (hu : s.unlock mux thread time = .ok (owner, s')) (hm : m ≠ mux) :
    s'.mutex m = s.mutex m := by
  unfold SyncServer.unlock at hu
  split at hu
  · split at hu <;> cases hu <;> simp [hm]
  · cases hu

theorem finish_eq {answer : SyncAnswer} (h : s.finish thread = .ok (answer, s')) :
    ∃ call τ, s.inCall thread = some call ∧ answer = .returned call τ ∧
      s' = { s with inCall := Function.update s.inCall thread none } := by
  unfold SyncServer.finish at h
  dsimp only at h
  split at h
  · cases h
  · rename_i mux hcall
    cases h
    exact ⟨_, _, hcall, rfl, rfl⟩
  · rename_i c mux hcall
    cases h
    exact ⟨_, _, hcall, rfl, rfl⟩

/-- What the threads hold they own. -/
theorem holds_step {held : Addr → ThreadId → Bool} {call : SyncCall} {answer : SyncAnswer}
    (hinv : s.Inv) (hheld : ∀ m t, held m t = true → (s.mutex m).owner = some t)
    (hok : s.permitted call = true) (hs : s.perform call = .ok (answer, s')) :
    ∀ m t, Held.next held (call, answer) m t = true → (s'.mutex m).owner = some t := by
  intro m t hmt
  cases call with
  | mutexInit u mux =>
    obtain ⟨s₁, hs₁⟩ := getMutex_create s mux
    simp only [SyncServer.perform, SyncServer.mutexInit, hs₁] at hs
    cases hs
    rw [(getMutex_same hs₁).mutex]
    exact hheld m t hmt
  | mutexLock u mux tryLock time =>
    obtain ⟨s₁, hsame, ⟨rfl, rfl⟩ | ⟨rfl, hans⟩⟩ := mutexLock_eq hs
    · rw [hsame.mutex]
      exact hheld m t hmt
    · have hkept : held m t = true →
          ((s₁.lock mux u time).2.mutex m).owner = some t := by
        intro hh
        apply owner_lock
        rw [hsame.mutex]
        exact hheld m t hh
      rcases hans with ⟨rfl, ho⟩ | rfl
      · simp only [Held.next, Held.set] at hmt
        split at hmt
        · rename_i heq
          obtain ⟨rfl, rfl⟩ := heq
          rw [← hsame.mutex] at ho
          simp [SyncServer.lock, ho]
        · exact hkept hmt
      · exact hkept hmt
  | mutexUnlock u mux time =>
    obtain ⟨s₁, owner, hsame, hu⟩ := mutexUnlock_eq hs
    have ho : (s.mutex mux).owner = some u := by
      simpa [permitted, respectsOwnership] using (Bool.and_eq_true_iff.mp hok).2
    simp only [Held.next, Held.set] at hmt
    split at hmt
    · cases hmt
    · rename_i hne
      have hown := hheld m t hmt
      have hm : m ≠ mux := by
        rintro rfl
        exact hne ⟨rfl, Option.some.inj (hown.symm.trans ho)⟩
      rw [unlock_other hu hm, hsame.mutex, hown]
  | condInit u c =>
    cases hs
    rw [getCond_same.mutex]
    exact hheld m t hmt
  | condWait u c mux time =>
    obtain ⟨s₁, owner, s₂, hsame, hu, rfl⟩ := condWait_eq hs
    have ho : (s.mutex mux).owner = some u := by
      simpa [permitted, respectsOwnership] using (Bool.and_eq_true_iff.mp hok).2
    simp only [Held.next, Held.set] at hmt
    split at hmt
    · cases hmt
    · rename_i hne
      have hown := hheld m t hmt
      have hm : m ≠ mux := by
        rintro rfl
        exact hne ⟨rfl, Option.some.inj (hown.symm.trans ho)⟩
      rw [mutex_stallThread, mutex_setCond, unlock_other hu hm, hsame.mutex, hown]
  | condSignal u c time =>
    cases hs
    apply owner_signal
    rw [getCond_same.mutex]
    exact hheld m t hmt
  | condBroadcast u c time =>
    cases hs
    apply owner_wakeAll
    rw [getCond_same.mutex]
    exact hheld m t hmt
  | returns u =>
    obtain ⟨stall, τ, hcall, rfl, rfl⟩ := finish_eq hs
    simp only [permitted, ready, Bool.and_eq_true] at hok
    simp only [Held.next, Held.set] at hmt
    split at hmt
    · rename_i heq
      obtain ⟨rfl, rfl⟩ := heq
      exact (hinv.granted t stall.mutex (by simp [awaits, hcall])
        (ThreadManager.not_stalled_of_running hok.1.1)).2
    · exact hheld m t hmt

/-- What a signal does to the waiters of its condition: the first of them is woken. -/
theorem condSignal_woken {t : ThreadId} {answer : SyncAnswer} (h : s.Inv)
    (hok : s.permitted (.condSignal t c time) = true)
    (hs : s.perform (.condSignal t c time) = .ok (answer, s')) :
    Woken s s' c ((s.cond c).waiting.take 1) := by
  have hinv := h.perform hok hs
  have hsame : SameObjects s (s.getCond c) := getCond_same
  cases hs
  cases hw : (s.cond c).waiting with
  | nil =>
    have hw' : ((s.getCond c).cond c).waiting = [] := by rw [hsame.cond, hw]
    have hs' : ((s.getCond c).signal c time).2 = s.getCond c := by
      simp [SyncServer.signal, hw']
    constructor
    case leave =>
      have hempty : s.cond c = ⟨[]⟩ := congrArg SimCond.mk hw
      rw [hs', hsame.cond, hw, List.drop_nil, ← hempty]
      exact (Function.update_eq_self c s.cond).symm
    case arrive =>
      intro m
      rw [hs', hsame.mutex]
      exact (SimMutex.join_nil _).symm
    case served => simp
  | cons w rest =>
    have hw' : ((s.getCond c).cond c).waiting = w :: rest := by rw [hsame.cond, hw]
    have hs' : ((s.getCond c).signal c time).2 = ((s.getCond c).wakeFirst c w rest time).2 :=
      signal_eq hw'
    have hcond : ((s.getCond c).signal c time).2.cond = Function.update s.cond c ⟨rest⟩ := by
      rw [hs', cond_wakeFirst, hsame.cond]
    have hcall : ((s.getCond c).signal c time).2.inCall = s.inCall := by
      rw [hs', inCall_wakeFirst, hsame.inCall]
    constructor
    case leave => simpa [hw] using hcond
    case arrive =>
      intro m
      rw [hs', mutex_wakeFirst, hsame.mutex]
      rfl
    case served =>
      intro v hv
      exact h.served hinv (show _ = [w] ++ rest from hw) hcall hcond hv

/-- What a broadcast does: all waiters are woken. -/
theorem condBroadcast_woken {t : ThreadId} {answer : SyncAnswer} (h : s.Inv)
    (hok : s.permitted (.condBroadcast t c time) = true)
    (hs : s.perform (.condBroadcast t c time) = .ok (answer, s')) :
    Woken s s' c (s.cond c).waiting := by
  have hinv := h.perform hok hs
  have hsame : SameObjects s (s.getCond c) := getCond_same
  cases hs
  obtain ⟨hcond', hcall, hmutex⟩ := wakeAll_effect (s := s.getCond c) (c := c) rfl
  have hcond : ((s.getCond c).broadcast c time).cond = Function.update s.cond c ⟨[]⟩ := by
    rw [← hsame.cond]
    exact hcond'
  have hwaiting : ((s.getCond c).cond c).waiting = (s.cond c).waiting := by rw [hsame.cond]
  constructor
  case leave =>
    rw [List.drop_length]
    exact hcond
  case arrive =>
    intro m
    exact (hmutex m).trans (by rw [hsame.mutex, hwaiting])
  case served =>
    intro w hw
    exact h.served hinv (List.append_nil _).symm (hcall.trans hsame.inCall) hcond hw

/-- After a run of calls that respects ownership. -/
structure Synchronised (tr : List (SyncCall × SyncAnswer)) (s : SyncServer) : Prop where
  /-- No two threads hold a mutex, and who holds it is its owner. -/
  exclusive : ∀ m t u, holds tr m t = true → holds tr m u = true → t = u
  owner : ∀ m t, holds tr m t = true → (s.mutex m).owner = some t
  /-- The mutex was passed to its waiters in the order of their arrival, and is not free
  while there are any. -/
  fifo : ∀ m, arrivals m s.log = passes m s.log ++ (s.mutex m).waiting
  owned : ∀ m, (s.mutex m).waiting ≠ [] → (s.mutex m).owner ≠ none
  /-- The stalled threads are those that stand in a queue, in one of them, once. -/
  placed : ∀ t, s.threads.isThreadStalled t = true ↔ ∃ q, t ∈ s.queue q
  onePlace : ∀ t q q', t ∈ s.queue q → t ∈ s.queue q' → q = q'
  once : ∀ q, (s.queue q).Nodup
  /-- A stalled thread is resumed when it has just obtained the mutex it waits for, and each
  stall but a pending one was ended by one resumption. -/
  inOrder : ∀ t, rounds t s.log = some (s.round t)
  resumedOnce : ∀ t, s.log.countP (SyncEvent.isStall t) =
    s.log.count (.resumed t) + if s.threads.isThreadStalled t then 1 else 0
  /-- No wakeup is lost. -/
  signal : ∀ t c time answer s', s.permitted (.condSignal t c time) = true →
    s.perform (.condSignal t c time) = .ok (answer, s') → Woken s s' c ((s.cond c).waiting.take 1)
  broadcast : ∀ t c time answer s', s.permitted (.condBroadcast t c time) = true →
    s.perform (.condBroadcast t c time) = .ok (answer, s') → Woken s s' c (s.cond c).waiting
  /-- No assertion fails. -/
  proceeds : ∀ call, s.permitted call = true → ∃ answer s', s.perform call = .ok (answer, s')

theorem Inv.synchronised {tr : List (SyncCall × SyncAnswer)} (h : s.Inv)
    (hheld : ∀ m t, holds tr m t = true → (s.mutex m).owner = some t) : Synchronised tr s := by
  have hplaced : ∀ t, s.threads.isThreadStalled t = true ↔ ∃ q, t ∈ s.queue q := by
    intro t
    rw [h.stalled]
    simp [Waits]
  constructor
  case exclusive =>
    intro m t u ht hu
    exact Option.some.inj ((hheld m t ht).symm.trans (hheld m u hu))
  case owner => exact hheld
  case fifo => exact h.fifo
  case owned => exact h.owned
  case placed => exact hplaced
  case onePlace => exact fun t q q' ht ht' => h.apart.alone q q' t t ht ht' rfl
  case once =>
    intro q
    simpa using h.apart.once q
  case inOrder => exact h.inOrder
  case resumedOnce =>
    intro t
    have hcount := Round.pending_foldlM (h.inOrder t)
    have hround : (s.round t).pending = if s.threads.isThreadStalled t then 1 else 0 := by
      by_cases hst : s.threads.isThreadStalled t = true
      · obtain ⟨q, hq⟩ := (hplaced t).mp hst
        have haw : ∃ m, s.awaits t = some m := by
          cases q with
          | mutex m => exact ⟨m, h.awaitsMutex m t hq⟩
          | cond c =>
            obtain ⟨w, hw, rfl⟩ := List.mem_map.mp hq
            exact ⟨w.mutex, h.awaitsCond c w hw⟩
        obtain ⟨m, hm⟩ := haw
        simp [round, hst, hm, Round.pending]
      · simp [round, hst, Round.pending]
    rw [hround] at hcount
    exact (Nat.zero_add _).symm.trans hcount
  case signal => exact fun t c time answer s' hok hs => condSignal_woken h hok hs
  case broadcast => exact fun t c time answer s' hok hs => condBroadcast_woken h hok hs
  case proceeds => exact fun call hok => proceeds hok

/-- For any threads and any order of their calls in which a mutex is unlocked, and waited
with, by its owner only: mutexes exclude, and no wakeup is lost. -/
theorem run_synchronised {tr : List (SyncCall × SyncAnswer)} {s : SyncServer}
    (h : Run machine (fun s call => s.permitted call = true) tr s) : Synchronised tr s := by
  have hinv : s.Inv ∧ ∀ m t, holds tr m t = true → (s.mutex m).owner = some t := by
    induction h with
    | start hfresh => exact ⟨Inv.fresh hfresh, by simp [holds]⟩
    | next _ hok hstep ih =>
      refine ⟨ih.1.perform hok hstep, ?_⟩
      simp only [holds, List.foldl_append, List.foldl_cons, List.foldl_nil]
      exact holds_step ih.1 ih.2 hok hstep
  exact hinv.1.synchronised hinv.2

/-- All threads running. -/
def start (rescheduleCost : SubsecondTime) : SyncServer :=
  ⟨fun _ => none, fun _ => none, rescheduleCost, ⟨fun _ => ⟨.running, .unscheduled, 0, false⟩⟩,
    fun _ => none, []⟩

theorem start_fresh (rescheduleCost : SubsecondTime) : Fresh (start rescheduleCost) :=
  ⟨rfl, rfl, fun _ => rfl, rfl, rfl⟩

/-- Thread 1 waits for a mutex that thread 0 has; thread 0 waits on a condition; thread 1
signals it before it unlocks. -/
def handOff : List SyncCall :=
  [.mutexLock 0 7 false 10, .mutexLock 1 7 false 20, .condWait 0 8 7 30, .returns 1,
    .condSignal 1 8 40, .mutexUnlock 1 7 50, .returns 0]

theorem run_synchronised_handOff : ∃ tr s,
    performEach perform permitted (start 1000) handOff = some s ∧ Synchronised tr s ∧
      (s.mutex 7).owner = some 0 := by
  have hrun : ((performEach perform permitted (start 1000) handOff).map
      fun s => (s.mutex 7).owner) = some (some 0) := by rfl
  obtain ⟨s, hs, howner⟩ := Option.map_eq_some_iff.mp hrun
  obtain ⟨tr, h⟩ := Run.performEach (M := machine) (fun _ _ _ _ h => h) (fun _ _ h => h)
    (.start (start_fresh 1000)) hs
  exact ⟨tr, s, hs, run_synchronised h, howner⟩

end SyncServer

end Sniper.System
