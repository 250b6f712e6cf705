import Sniper.System.SyncServer
import Sniper.Lib.WaitQueues
set_option autoImplicit false

/-! Mutual exclusion, and wakeups that are never lost. -/

namespace Sniper.System
open Sniper.Lib

inductive WaitQueue where
  | mutex (mux : Addr)
  | cond (c : Addr)
  deriving DecidableEq

namespace SyncServer

/-- The threads in a queue, in order. -/
def queue (s : SyncServer) : WaitQueue → List ThreadId
  | .mutex mux => (s.mutex mux).waiting
  | .cond c => (s.cond c).waiting.map CondWaiter.thread

/-- The mutex that the call a thread is in will obtain. -/
def awaits (s : SyncServer) (thread : ThreadId) : Option Addr := (s.inCall thread).map Stalled.mutex

section Views

variable (s : SyncServer) (mux c : Addr) (mutex : SimMutex) (cond : SimCond)
variable (thread : ThreadId) (reason : StallType) (call : Stalled) (time : SubsecondTime)
variable (event : SyncEvent)

@[simp] theorem mutex_setMutex :
    (s.setMutex mux mutex).mutex = Function.update s.mutex mux mutex := by
  funext m
  by_cases h : m = mux <;> simp [SyncServer.mutex, setMutex, h]

@[simp] theorem cond_setMutex : (s.setMutex mux mutex).cond = s.cond := rfl

@[simp] theorem cond_setCond : (s.setCond c cond).cond = Function.update s.cond c cond := by
  funext d
  by_cases h : d = c <;> simp [SyncServer.cond, setCond, h]

@[simp] theorem mutex_setCond : (s.setCond c cond).mutex = s.mutex := rfl

@[simp] theorem threads_setMutex : (s.setMutex mux mutex).threads = s.threads := rfl
@[simp] theorem threads_setCond : (s.setCond c cond).threads = s.threads := rfl
@[simp] theorem inCall_setMutex : (s.setMutex mux mutex).inCall = s.inCall := rfl
@[simp] theorem inCall_setCond : (s.setCond c cond).inCall = s.inCall := rfl
@[simp] theorem log_setMutex : (s.setMutex mux mutex).log = s.log := rfl
@[simp] theorem log_setCond : (s.setCond c cond).log = s.log := rfl

@[simp] theorem mutex_note : (s.note event).mutex = s.mutex := rfl
@[simp] theorem cond_note : (s.note event).cond = s.cond := rfl
@[simp] theorem threads_note : (s.note event).threads = s.threads := rfl
@[simp] theorem inCall_note : (s.note event).inCall = s.inCall := rfl
@[simp] theorem log_note : (s.note event).log = s.log ++ [event] := rfl

@[simp] theorem mutex_stallThread : (s.stallThread thread reason call).mutex = s.mutex := rfl
@[simp] theorem cond_stallThread : (s.stallThread thread reason call).cond = s.cond := rfl
@[simp] theorem threads_stallThread :
    (s.stallThread thread reason call).threads = s.threads.stallThread thread reason := rfl
@[simp] theorem inCall_stallThread : (s.stallThread thread reason call).inCall =
    Function.update s.inCall thread (some call) := rfl
@[simp] theorem log_stallThread :
    (s.stallThread thread reason call).log = s.log ++ [.stalled thread call.mutex] := rfl

@[simp] theorem mutex_resumeThread : (s.resumeThread thread time).mutex = s.mutex := rfl
@[simp] theorem cond_resumeThread : (s.resumeThread thread time).cond = s.cond := rfl
@[simp] theorem threads_resumeThread :
    (s.resumeThread thread time).threads = s.threads.resumeThread thread time false := rfl
@[simp] theorem inCall_resumeThread : (s.resumeThread thread time).inCall = s.inCall := rfl
@[simp] theorem log_resumeThread :
    (s.resumeThread thread time).log = s.log ++ [.resumed thread] := rfl

end Views

end SyncServer

/-- Arrivals in the queue of a mutex. -/
def arrivals (mux : Addr) (log : List SyncEvent) : List ThreadId :=
  log.filterMap fun
    | .queued m thread => if m = mux then some thread else none
    | _ => none

/-- Those to whom a mutex was passed by its owner. -/
def passes (mux : Addr) (log : List SyncEvent) : List ThreadId :=
  log.filterMap fun
    | .passed m thread => if m = mux then some thread else none
    | _ => none

namespace SyncEvent

def thread : SyncEvent → ThreadId
  | .stalled t _ | .queued _ t | .taken _ t | .passed _ t | .resumed t => t

end SyncEvent

/-- How far a thread has come from its stall to its resumption. -/
inductive Round where
  | free
  | waiting (mux : Addr)
  | granted (mux : Addr)
  deriving DecidableEq

/-- A thread stalls, obtains the mutex it waits for, and is resumed at once; it takes a mutex
on its own only when it is not stalled. -/
def Round.next (thread : ThreadId) (round : Round) (event : SyncEvent) : Option Round :=
  if event.thread = thread then
    match round, event with
    | round, .queued _ _ => some round
    | .free, .taken _ _ => some .free
    | .free, .stalled _ mux => some (.waiting mux)
    | .waiting mux, .taken m _ => if m = mux then some (.granted mux) else none
    | .waiting mux, .passed m _ => if m = mux then some (.granted mux) else none
    | .granted _, .resumed _ => some .free
    | _, _ => none
  else some round

/-- The round a thread is in after a history, if all its rounds were in order. -/
def rounds (thread : ThreadId) (log : List SyncEvent) : Option Round :=
  log.foldlM (Round.next thread) .free

theorem rounds_append (thread : ThreadId) (log more : List SyncEvent) :
    rounds thread (log ++ more) =
      (rounds thread log).bind fun round => more.foldlM (Round.next thread) round := by
  simp [rounds, List.foldlM_append]

/-- Whether a round has begun and not ended. -/
def Round.pending : Round → Nat
  | .free => 0
  | .waiting _ => 1
  | .granted _ => 1

def SyncEvent.isStall (thread : ThreadId) : SyncEvent → Bool
  | .stalled t _ => t = thread
  | _ => false

/-- In a history whose rounds are in order every stall but a pending one was ended by its
own resumption. -/
theorem Round.pending_foldlM {thread : ThreadId} {log : List SyncEvent} {round round' : Round}
    (h : log.foldlM (Round.next thread) round = some round') :
    round.pending + log.countP (SyncEvent.isStall thread) =
      log.count (.resumed thread) + round'.pending := by
  induction log generalizing round with
  | nil =>
    cases h
    simp
  | cons event log ih =>
    rw [List.foldlM_cons] at h
    obtain ⟨mid, hmid, hrest⟩ := Option.bind_eq_some_iff.mp h
    have hih := ih hrest
    rw [List.countP_cons, List.count_cons]
    simp only [Round.next] at hmid
    split at hmid
    · rename_i ht
      split at hmid <;> (try split at hmid) <;> cases hmid <;>
        simp_all [SyncEvent.isStall, Round.pending, SyncEvent.thread] <;> omega
    · rename_i ht
      cases hmid
      cases event <;> simp_all [SyncEvent.isStall, SyncEvent.thread]

namespace SyncServer

/-- The round of a thread, as its state tells it. -/
def round (s : SyncServer) (thread : ThreadId) : Round :=
  match s.threads.isThreadStalled thread, s.awaits thread with
  | true, some mux => .waiting mux
  | _, _ => .free

/-- Between calls. -/
structure Inv (s : SyncServer) : Prop where
  apart : Apart id s.queue
  stalled : ∀ t, s.threads.isThreadStalled t = true ↔ Waits id s.queue t
  owned : ∀ m, (s.mutex m).waiting ≠ [] → (s.mutex m).owner ≠ none
  fifo : ∀ m, arrivals m s.log = passes m s.log ++ (s.mutex m).waiting
  awaitsMutex : ∀ m, ∀ t ∈ (s.mutex m).waiting, s.awaits t = some m
  awaitsCond : ∀ c, ∀ w ∈ (s.cond c).waiting, s.awaits w.thread = some w.mutex
  granted : ∀ t m, s.awaits t = some m → s.threads.isThreadStalled t = false →
    s.threads.isThreadRunning t = true ∧ (s.mutex m).owner = some t
  inOrder : ∀ t, rounds t s.log = some (s.round t)

variable {s s' : SyncServer} {mux c : Addr} {thread : ThreadId} {time : SubsecondTime}

theorem queue_setMutex (s : SyncServer) (mux : Addr) (mutex : SimMutex) :
    (s.setMutex mux mutex).queue = Function.update s.queue (.mutex mux) mutex.waiting := by
  funext q
  cases q with
  | mutex m => by_cases h : m = mux <;> simp [queue, h]
  | cond d => simp [queue]

theorem queue_setCond (s : SyncServer) (c : Addr) (cond : SimCond) :
    (s.setCond c cond).queue =
      Function.update s.queue (.cond c) (cond.waiting.map CondWaiter.thread) := by
  funext q
  cases q with
  | mutex m => simp [queue]
  | cond d => by_cases h : d = c <;> simp [queue, h]

@[simp] theorem queue_note (event : SyncEvent) : (s.note event).queue = s.queue := rfl

@[simp] theorem queue_stallThread (reason : StallType) (call : Stalled) :
    (s.stallThread thread reason call).queue = s.queue := rfl

@[simp] theorem queue_resumeThread : (s.resumeThread thread time).queue = s.queue := rfl

theorem Inv.fresh (h : Fresh s) : s.Inv := by
  have hm : ∀ m, s.mutex m = .new := by simp [SyncServer.mutex, h.mutexes]
  have hc : ∀ c, s.cond c = ⟨[]⟩ := by simp [SyncServer.cond, h.conds]
  have hq : ∀ q, s.queue q = [] := by
    intro q
    cases q <;> simp [queue, hm, hc, SimMutex.new]
  have ha : ∀ t, s.awaits t = none := by simp [awaits, h.inCall]
  constructor
  case apart => exact ⟨by simp [hq], by simp [hq]⟩
  case stalled => simp [Waits, hq, h.awake]
  case owned => simp [hm, SimMutex.new]
  case fifo => simp [hm, SimMutex.new, h.log, arrivals, passes]
  case awaitsMutex => simp [hm, SimMutex.new]
  case awaitsCond => simp [hc]
  case granted => simp [ha]
  case inOrder => simp [h.log, rounds, round, h.awake]

/-- The invariant reads the objects only through their contents. -/
theorem Inv.congr (h : s.Inv) (hm : s'.mutex = s.mutex) (hc : s'.cond = s.cond)
    (ht : s'.threads = s.threads) (hi : s'.inCall = s.inCall) (hl : s'.log = s.log) : s'.Inv := by
  have hq : s'.queue = s.queue := by
    funext q
    cases q <;> simp [queue, hm, hc]
  have ha : s'.awaits = s.awaits := by
    funext t
    simp [awaits, hi]
  have hr : s'.round = s.round := by
    funext t
    simp [round, ht, ha]
  obtain ⟨h₁, h₂, h₃, h₄, h₅, h₆, h₇, h₈⟩ := h
  constructor <;> simpa only [hq, hm, hc, ht, hl, ha, hr]

/-- A thread whose next step is a call. -/
structure Free (s : SyncServer) (thread : ThreadId) : Prop where
  running : s.threads.isThreadRunning thread = true
  inCall : s.inCall thread = none

theorem Free.not_stalled (h : s.Free thread) : s.threads.isThreadStalled thread = false :=
  ThreadManager.not_stalled_of_running h.running

theorem Free.round (h : s.Free thread) : s.round thread = .free := by
  simp [SyncServer.round, h.not_stalled]

theorem Free.not_waits (h : s.Free thread) (hinv : s.Inv) : ¬Waits id s.queue thread := by
  rw [← hinv.stalled, h.not_stalled]
  simp

theorem Inv.round_of_waiting (h : s.Inv) (ht : thread ∈ (s.mutex mux).waiting) :
    s.round thread = .waiting mux := by
  have hst := (h.stalled thread).mpr ⟨.mutex mux, thread, ht, rfl⟩
  simp [SyncServer.round, hst, h.awaitsMutex mux thread ht]

theorem Inv.round_of_cond (h : s.Inv) {w : CondWaiter} (hw : w ∈ (s.cond c).waiting) :
    s.round w.thread = .waiting w.mutex := by
  have hst := (h.stalled w.thread).mpr ⟨.cond c, w.thread, List.mem_map_of_mem hw, rfl⟩
  simp [SyncServer.round, hst, h.awaitsCond c w hw]

/-- A mutex without owner is taken by a running thread. -/
theorem Inv.take (h : s.Inv) (hfree : s.Free thread) (ho : (s.mutex mux).owner = none) :
    ((s.setMutex mux { s.mutex mux with owner := some thread }).note (.taken mux thread)).Inv := by
  have hq : ((s.setMutex mux { s.mutex mux with owner := some thread }).note
      (.taken mux thread)).queue = s.queue := by
    rw [queue_note, queue_setMutex]
    exact Function.update_eq_self _ _
  constructor
  case apart => rw [hq]; exact h.apart
  case stalled => rw [hq]; exact h.stalled
  case owned =>
    intro m
    by_cases hm : m = mux
    · simp [hm]
    · simpa [hm] using h.owned m
  case fifo =>
    intro m
    have hf := h.fifo m
    by_cases hm : m = mux
    · subst hm
      simpa [arrivals, passes] using hf
    · simpa [hm, arrivals, passes] using hf
  case awaitsMutex =>
    intro m t ht
    by_cases hm : m = mux
    · subst hm
      simp only [mutex_note, mutex_setMutex, Function.update_self] at ht
      exact h.awaitsMutex m t ht
    · simp only [mutex_note, mutex_setMutex, Function.update_of_ne hm] at ht
      exact h.awaitsMutex m t ht
  case awaitsCond => exact h.awaitsCond
  case granted =>
    intro t m ha hst
    obtain ⟨hr, hown⟩ := h.granted t m ha hst
    refine ⟨hr, ?_⟩
    by_cases hm : m = mux
    · subst hm
      rw [ho] at hown
      cases hown
    · simpa [hm] using hown
  case inOrder =>
    intro t
    have ho' : rounds t (s.log ++ [.taken mux thread]) = some (s.round t) := by
      rw [rounds_append, h.inOrder t]
      by_cases ht : thread = t
      · subst ht
        simp [Round.next, SyncEvent.thread, hfree.round]
      · simp [Round.next, SyncEvent.thread, ht]
    exact ho'

@[simp] theorem awaits_stallThread (reason : StallType) (call : Stalled) :
    (s.stallThread thread reason call).awaits =
      Function.update s.awaits thread (some call.mutex) := by
  funext t
  by_cases ht : t = thread <;> simp [awaits, ht]

/-- A stalled thread is in the round of its call; the others are where they were. -/
theorem round_stallThread (reason : StallType) (call : Stalled) :
    (s.stallThread thread reason call).round =
      Function.update s.round thread (.waiting call.mutex) := by
  funext t
  by_cases ht : t = thread
  · subst ht
    simp [SyncServer.round]
  · simp [SyncServer.round, ht]

/-- A thread goes to the end of the queue of a mutex that has an owner. -/
theorem Inv.block (h : s.Inv) (hfree : s.Free thread) (ho : (s.mutex mux).owner ≠ none) :
    (((s.setMutex mux { s.mutex mux with waiting := (s.mutex mux).waiting ++ [thread] }).note
      (.queued mux thread)).stallThread thread .mutex (.mutexLock mux)).Inv := by
  have hq : (((s.setMutex mux { s.mutex mux with waiting := (s.mutex mux).waiting ++ [thread] }).note
      (.queued mux thread)).stallThread thread .mutex (.mutexLock mux)).queue =
      Function.update s.queue (.mutex mux) (s.queue (.mutex mux) ++ [thread]) := by
    rw [queue_stallThread, queue_note, queue_setMutex]
    rfl
  have hnew := hfree.not_waits h
  have hne : ∀ t q, t ∈ s.queue q → t ≠ thread := by
    rintro t q ht rfl
    exact hnew ⟨q, t, ht, rfl⟩
  constructor
  case apart =>
    rw [hq]
    exact h.apart.enqueue hnew
  case stalled =>
    intro t
    rw [hq, waits_enqueue, ← h.stalled]
    by_cases ht : t = thread
    · simp [ht]
    · simp [ht, Ne.symm ht]
  case owned =>
    intro m
    by_cases hm : m = mux
    · subst hm
      simpa using ho
    · simpa [hm] using h.owned m
  case fifo =>
    intro m
    have hf := h.fifo m
    by_cases hm : m = mux
    · subst hm
      simp only [arrivals, passes] at hf
      simp [arrivals, passes, hf]
    · simpa [hm, Ne.symm hm, arrivals, passes] using hf
  case awaitsMutex =>
    intro m t ht
    simp only [mutex_stallThread, mutex_note, mutex_setMutex] at ht
    rw [awaits_stallThread]
    by_cases hm : m = mux
    · subst hm
      rw [Function.update_self] at ht
      rcases List.mem_append.mp ht with ht | ht
      · rw [Function.update_of_ne (hne t (.mutex m) ht)]
        exact h.awaitsMutex m t ht
      · rw [List.mem_singleton.mp ht, Function.update_self]
        rfl
    · rw [Function.update_of_ne hm] at ht
      rw [Function.update_of_ne (hne t (.mutex m) ht)]
      exact h.awaitsMutex m t ht
  case awaitsCond =>
    intro d w hw
    rw [awaits_stallThread, Function.update_of_ne (hne _ (.cond d) (List.mem_map_of_mem hw))]
    exact h.awaitsCond d w hw
  case granted =>
    intro t m ha hst
    by_cases ht : t = thread
    · simp [ht] at hst
    · simp only [awaits_stallThread, Function.update_of_ne ht] at ha
      obtain ⟨hr, hown⟩ := h.granted t m ha (by simpa [ht] using hst)
      refine ⟨by simpa [ht] using hr, ?_⟩
      by_cases hm : m = mux
      · subst hm
        simpa using hown
      · simpa [hm] using hown
  case inOrder =>
    intro t
    rw [round_stallThread, log_stallThread, log_note, log_setMutex, List.append_assoc,
      rounds_append, h.inOrder t]
    by_cases ht : t = thread
    · subst ht
      simp [Round.next, SyncEvent.thread, hfree.round, Stalled.mutex]
    · simp only [Function.update_of_ne ht]
      simp [Round.next, SyncEvent.thread, Ne.symm ht]
      rfl

/-- A thread goes to the end of the queue of a condition. -/
theorem Inv.waitOn (h : s.Inv) (hfree : s.Free thread) :
    ((s.setCond c ⟨(s.cond c).waiting ++ [⟨thread, mux⟩]⟩).stallThread thread .cond
      (.condWait c mux)).Inv := by
  have hq : ((s.setCond c ⟨(s.cond c).waiting ++ [⟨thread, mux⟩]⟩).stallThread thread .cond
      (.condWait c mux)).queue =
      Function.update s.queue (.cond c) (s.queue (.cond c) ++ [thread]) := by
    rw [queue_stallThread, queue_setCond]
    simp [queue]
  have hnew := hfree.not_waits h
  have hne : ∀ t q, t ∈ s.queue q → t ≠ thread := by
    rintro t q ht rfl
    exact hnew ⟨q, t, ht, rfl⟩
  constructor
  case apart =>
    rw [hq]
    exact h.apart.enqueue hnew
  case stalled =>
    intro t
    rw [hq, waits_enqueue, ← h.stalled]
    by_cases ht : t = thread
    · simp [ht]
    · simp [ht, Ne.symm ht]
  case owned => exact h.owned
  case fifo =>
    intro m
    simpa [arrivals, passes] using h.fifo m
  case awaitsMutex =>
    intro m t ht
    rw [awaits_stallThread, Function.update_of_ne (hne t (.mutex m) ht)]
    exact h.awaitsMutex m t ht
  case awaitsCond =>
    intro d w hw
    simp only [cond_stallThread, cond_setCond] at hw
    rw [awaits_stallThread]
    by_cases hd : d = c
    · subst hd
      rw [Function.update_self] at hw
      rcases List.mem_append.mp hw with hw | hw
      · rw [Function.update_of_ne (hne _ (.cond d) (List.mem_map_of_mem hw))]
        exact h.awaitsCond d w hw
      · rw [List.mem_singleton.mp hw, Function.update_self]
        rfl
    · rw [Function.update_of_ne hd] at hw
      rw [Function.update_of_ne (hne _ (.cond d) (List.mem_map_of_mem hw))]
      exact h.awaitsCond d w hw
  case granted =>
    intro t m ha hst
    by_cases ht : t = thread
    · simp [ht] at hst
    · simp only [awaits_stallThread, Function.update_of_ne ht] at ha
      obtain ⟨hr, hown⟩ := h.granted t m ha (by simpa [ht] using hst)
      exact ⟨by simpa [ht] using hr, hown⟩
  case inOrder =>
    intro t
    rw [round_stallThread, log_stallThread, log_setCond, rounds_append, h.inOrder t]
    by_cases ht : t = thread
    · subst ht
      simp [Round.next, SyncEvent.thread, hfree.round, Stalled.mutex]
    · simp only [Function.update_of_ne ht]
      simp [Round.next, SyncEvent.thread, Ne.symm ht]
      rfl

@[simp] theorem awaits_resumeThread : (s.resumeThread thread time).awaits = s.awaits := rfl

/-- A resumed thread has ended its round. -/
theorem round_resumeThread :
    (s.resumeThread thread time).round = Function.update s.round thread .free := by
  funext t
  by_cases ht : t = thread
  · subst ht
    simp [SyncServer.round]
  · simp [SyncServer.round, ht]

theorem Inv.owner_eq (h : s.Inv) (hfree : s.Free thread) (ho : (s.mutex mux).owner = some thread)
    {t : ThreadId} (ha : s.awaits t = some mux) : s.threads.isThreadStalled t = true := by
  rcases Bool.eq_false_or_eq_true (s.threads.isThreadStalled t) with hst | hst
  · exact hst
  · have hown := (h.granted t mux ha hst).2
    rw [ho, Option.some.injEq] at hown
    subst hown
    simp [awaits, hfree.inCall] at ha

/-- The owner passes the mutex to the first thread in its queue. -/
theorem Inv.handOver {waiter : ThreadId} {rest : List ThreadId} (h : s.Inv)
    (hfree : s.Free thread) (ho : (s.mutex mux).owner = some thread)
    (hw : (s.mutex mux).waiting = waiter :: rest) :
    (((s.setMutex mux ⟨some waiter, rest⟩).note (.passed mux waiter)).resumeThread waiter time).Inv := by
  have hq : (((s.setMutex mux ⟨some waiter, rest⟩).note (.passed mux waiter)).resumeThread
      waiter time).queue = Function.update s.queue (.mutex mux) ([] ++ rest) := by
    rw [queue_resumeThread, queue_note, queue_setMutex]
    rfl
  have hqueue : s.queue (.mutex mux) = [] ++ waiter :: rest := hw
  have hmem : waiter ∈ (s.mutex mux).waiting := by simp [hw]
  constructor
  case apart =>
    rw [hq]
    exact h.apart.dequeue hqueue
  case stalled =>
    intro t
    rw [hq, waits_dequeue h.apart hqueue, ← h.stalled]
    by_cases ht : t = waiter
    · simp [ht]
    · simp [ht, Ne.symm ht]
  case owned =>
    intro m
    by_cases hm : m = mux
    · simp [hm]
    · simpa [hm] using h.owned m
  case fifo =>
    intro m
    have hf := h.fifo m
    by_cases hm : m = mux
    · subst hm
      simp only [arrivals, passes, hw] at hf
      simp [arrivals, passes, hf]
    · simpa [hm, Ne.symm hm, arrivals, passes] using hf
  case awaitsMutex =>
    intro m t ht
    simp only [mutex_resumeThread, mutex_note, mutex_setMutex] at ht
    by_cases hm : m = mux
    · subst hm
      rw [Function.update_self] at ht
      exact h.awaitsMutex m t (hw ▸ List.mem_cons_of_mem _ ht)
    · rw [Function.update_of_ne hm] at ht
      exact h.awaitsMutex m t ht
  case awaitsCond => exact h.awaitsCond
  case granted =>
    intro t m ha hst
    by_cases ht : t = waiter
    · subst ht
      have hm : m = mux := Option.some.inj (ha.symm.trans (h.awaitsMutex mux t hmem))
      simp [hm]
    · have hst' : s.threads.isThreadStalled t = false := by simpa [ht] using hst
      obtain ⟨hr, hown⟩ := h.granted t m ha hst'
      refine ⟨by simpa [ht] using hr, ?_⟩
      by_cases hm : m = mux
      · subst hm
        rw [h.owner_eq hfree ho ha] at hst'
        cases hst'
      · simpa [hm] using hown
  case inOrder =>
    intro t
    rw [round_resumeThread, log_resumeThread, log_note, log_setMutex, List.append_assoc,
      rounds_append, h.inOrder t]
    by_cases ht : t = waiter
    · subst ht
      simp [Round.next, SyncEvent.thread, h.round_of_waiting hmem]
    · simp only [Function.update_of_ne ht]
      simp [Round.next, SyncEvent.thread, Ne.symm ht]
      rfl

/-- The owner gives up a mutex for which nobody waits. -/
theorem Inv.release (h : s.Inv) (hfree : s.Free thread) (ho : (s.mutex mux).owner = some thread)
    (hw : (s.mutex mux).waiting = []) : (s.setMutex mux ⟨none, []⟩).Inv := by
  have hq : (s.setMutex mux ⟨none, []⟩).queue = s.queue := by
    rw [queue_setMutex, ← hw]
    exact Function.update_eq_self _ _
  constructor
  case apart => rw [hq]; exact h.apart
  case stalled => rw [hq]; exact h.stalled
  case owned =>
    intro m
    by_cases hm : m = mux
    · simp [hm]
    · simpa [hm] using h.owned m
  case fifo =>
    intro m
    have hf := h.fifo m
    by_cases hm : m = mux
    · subst hm
      simpa [hw] using hf
    · simpa [hm] using hf
  case awaitsMutex =>
    intro m t ht
    by_cases hm : m = mux
    · simp [hm] at ht
    · simp only [mutex_setMutex, Function.update_of_ne hm] at ht
      exact h.awaitsMutex m t ht
  case awaitsCond => exact h.awaitsCond
  case granted =>
    intro t m ha hst
    have hst' : s.threads.isThreadStalled t = false := hst
    obtain ⟨hr, hown⟩ := h.granted t m ha hst'
    refine ⟨hr, ?_⟩
    by_cases hm : m = mux
    · subst hm
      rw [h.owner_eq hfree ho ha] at hst'
      cases hst'
    · simpa [hm] using hown
  case inOrder => exact h.inOrder

theorem Inv.unlock {owner : Option ThreadId} (h : s.Inv) (hfree : s.Free thread)
    (hu : s.unlock mux thread time = .ok (owner, s')) : s'.Inv ∧ s'.Free thread := by
  unfold SyncServer.unlock at hu
  split at hu
  · rename_i ho
    split at hu
    · rename_i hw
      cases hu
      exact ⟨h.release hfree ho hw, hfree.running, hfree.inCall⟩
    · rename_i waiter rest hw
      cases hu
      refine ⟨h.handOver hfree ho hw, ?_, hfree.inCall⟩
      simp [hfree.running]
  · cases hu

section Wake

variable {woken : CondWaiter} {rest : List CondWaiter}

theorem waiting_setCond (hw : (s.cond c).waiting = woken :: rest) (d : Addr) :
    ∀ w ∈ ((s.setCond c ⟨rest⟩).cond d).waiting, w ∈ (s.cond d).waiting := by
  intro w hwd
  by_cases hd : d = c
  · subst hd
    simp only [cond_setCond, Function.update_self] at hwd
    exact hw ▸ List.mem_cons_of_mem _ hwd
  · simpa [hd] using hwd

theorem queue_cond (hw : (s.cond c).waiting = woken :: rest) :
    s.queue (.cond c) = [] ++ woken.thread :: rest.map CondWaiter.thread := by
  simp [queue, hw]

theorem queue_dequeueCond :
    (s.setCond c ⟨rest⟩).queue =
      Function.update s.queue (.cond c) ([] ++ rest.map CondWaiter.thread) := queue_setCond s c _

/-- The first waiter of a condition takes its mutex, which is free. -/
theorem Inv.wakeTakes (h : s.Inv) (hw : (s.cond c).waiting = woken :: rest)
    (ho : (s.mutex woken.mutex).owner = none) :
    ((((s.setCond c ⟨rest⟩).setMutex woken.mutex
      { (s.setCond c ⟨rest⟩).mutex woken.mutex with owner := some woken.thread }).note
      (.taken woken.mutex woken.thread)).resumeThread woken.thread time).Inv := by
  have hmem : woken ∈ (s.cond c).waiting := by simp [hw]
  have haw := h.awaitsCond c woken hmem
  have hround := h.round_of_cond hmem
  have hq : ((((s.setCond c ⟨rest⟩).setMutex woken.mutex
      { (s.setCond c ⟨rest⟩).mutex woken.mutex with owner := some woken.thread }).note
      (.taken woken.mutex woken.thread)).resumeThread woken.thread time).queue =
      Function.update s.queue (.cond c) ([] ++ rest.map CondWaiter.thread) := by
    rw [queue_resumeThread, queue_note, queue_setMutex, ← queue_dequeueCond]
    exact Function.update_eq_self _ _
  constructor
  case apart =>
    rw [hq]
    exact h.apart.dequeue (queue_cond hw)
  case stalled =>
    intro t
    rw [hq, waits_dequeue h.apart (queue_cond hw), ← h.stalled]
    by_cases ht : t = woken.thread
    · simp [ht]
    · simp [ht, Ne.symm ht]
  case owned =>
    intro m
    by_cases hm : m = woken.mutex
    · simp [hm]
    · simpa [hm] using h.owned m
  case fifo =>
    intro m
    have hf := h.fifo m
    by_cases hm : m = woken.mutex
    · simp only [hm] at hf ⊢
      simpa [arrivals, passes] using hf
    · simpa [hm, arrivals, passes] using hf
  case awaitsMutex =>
    intro m t ht
    by_cases hm : m = woken.mutex
    · subst hm
      exact h.awaitsMutex _ t (by simpa using ht)
    · exact h.awaitsMutex m t (by simpa [hm] using ht)
  case awaitsCond => exact fun d w hwd => h.awaitsCond d w (waiting_setCond hw d w hwd)
  case granted =>
    intro t m ha hst
    by_cases ht : t = woken.thread
    · subst ht
      have hm : m = woken.mutex := Option.some.inj (ha.symm.trans haw)
      simp [hm]
    · obtain ⟨hr, hown⟩ := h.granted t m ha (by simpa [ht] using hst)
      refine ⟨by simpa [ht] using hr, ?_⟩
      by_cases hm : m = woken.mutex
      · rw [hm, ho] at hown
        cases hown
      · simpa [hm] using hown
  case inOrder =>
    intro t
    rw [round_resumeThread, log_resumeThread, log_note, log_setMutex, log_setCond,
      List.append_assoc, rounds_append, h.inOrder t]
    by_cases ht : t = woken.thread
    · simp [ht, Round.next, SyncEvent.thread, hround]
    · simp only [Function.update_of_ne ht]
      simp [Round.next, SyncEvent.thread, Ne.symm ht]
      rfl

/-- The first waiter of a condition queues for its mutex, which is held. -/
theorem Inv.wakeQueues {o : ThreadId} (h : s.Inv) (hw : (s.cond c).waiting = woken :: rest)
    (ho : (s.mutex woken.mutex).owner = some o) :
    (((s.setCond c ⟨rest⟩).setMutex woken.mutex
      { (s.setCond c ⟨rest⟩).mutex woken.mutex with
        waiting := ((s.setCond c ⟨rest⟩).mutex woken.mutex).waiting ++ [woken.thread] }).note
      (.queued woken.mutex woken.thread)).Inv := by
  have hmem : woken ∈ (s.cond c).waiting := by simp [hw]
  have haw := h.awaitsCond c woken hmem
  have hround := h.round_of_cond hmem
  have hq : (((s.setCond c ⟨rest⟩).setMutex woken.mutex
      { (s.setCond c ⟨rest⟩).mutex woken.mutex with
        waiting := ((s.setCond c ⟨rest⟩).mutex woken.mutex).waiting ++ [woken.thread] }).note
      (.queued woken.mutex woken.thread)).queue =
      Function.update (s.setCond c ⟨rest⟩).queue (.mutex woken.mutex)
        ((s.setCond c ⟨rest⟩).queue (.mutex woken.mutex) ++ [woken.thread]) := by
    rw [queue_note, queue_setMutex]
    rfl
  have hout : ¬Waits id (s.setCond c ⟨rest⟩).queue woken.thread := by
    rw [queue_dequeueCond, waits_dequeue h.apart (queue_cond hw)]
    simp
  constructor
  case apart =>
    rw [hq]
    refine Apart.enqueue ?_ hout
    rw [queue_dequeueCond]
    exact h.apart.dequeue (queue_cond hw)
  case stalled =>
    intro t
    rw [hq, waits_enqueue, queue_dequeueCond, waits_dequeue h.apart (queue_cond hw), ← h.stalled]
    by_cases ht : t = woken.thread
    · have hst := (h.stalled woken.thread).mpr
        ⟨.cond c, woken.thread, List.mem_map_of_mem hmem, rfl⟩
      simp [ht, hst]
    · simp [Ne.symm ht]
  case owned =>
    intro m
    by_cases hm : m = woken.mutex
    · simp [hm, ho]
    · simpa [hm] using h.owned m
  case fifo =>
    intro m
    have hf := h.fifo m
    by_cases hm : m = woken.mutex
    · subst hm
      simp only [arrivals, passes] at hf
      simp [arrivals, passes, hf]
    · simpa [hm, Ne.symm hm, arrivals, passes] using hf
  case awaitsMutex =>
    intro m t ht
    by_cases hm : m = woken.mutex
    · subst hm
      simp only [mutex_note, mutex_setMutex, mutex_setCond, Function.update_self] at ht
      rcases List.mem_append.mp ht with ht | ht
      · exact h.awaitsMutex _ t ht
      · rw [List.mem_singleton.mp ht]
        exact haw
    · exact h.awaitsMutex m t (by simpa [hm] using ht)
  case awaitsCond => exact fun d w hwd => h.awaitsCond d w (waiting_setCond hw d w hwd)
  case granted =>
    intro t m ha hst
    obtain ⟨hr, hown⟩ := h.granted t m ha hst
    refine ⟨hr, ?_⟩
    by_cases hm : m = woken.mutex
    · subst hm
      simpa using hown
    · simpa [hm] using hown
  case inOrder =>
    intro t
    rw [log_note, log_setMutex, log_setCond, rounds_append, h.inOrder t]
    by_cases ht : t = woken.thread
    · simp only [ht, Option.bind_some, List.foldlM_cons, List.foldlM_nil, Round.next,
        SyncEvent.thread, hround]
      simp [← hround]
      rfl
    · simp [Round.next, SyncEvent.thread, Ne.symm ht]
      rfl

/-- The first waiter of a condition takes its mutex, or queues for it. -/
theorem Inv.wakeFirst (h : s.Inv) (hw : (s.cond c).waiting = woken :: rest) :
    (s.wakeFirst c woken rest time).2.Inv := by
  unfold SyncServer.wakeFirst lockAsync
  split
  · rename_i ho
    exact h.wakeTakes hw (by rwa [mutex_setCond] at ho)
  · rename_i o ho
    exact h.wakeQueues hw (by rwa [mutex_setCond] at ho)

end Wake

/-- A resumed thread returns from its call. -/
theorem Inv.finish {answer : SyncAnswer} (h : s.Inv)
    (hrun : s.threads.isThreadRunning thread = true)
    (hf : s.finish thread = .ok (answer, s')) : s'.Inv := by
  have hs' : s' = { s with inCall := Function.update s.inCall thread none } := by
    unfold SyncServer.finish at hf
    dsimp only at hf
    split at hf <;> cases hf <;> rfl
  have hst := ThreadManager.not_stalled_of_running hrun
  have hne : ∀ t q, t ∈ s.queue q → t ≠ thread := by
    rintro t q ht rfl
    rw [(h.stalled t).mpr ⟨q, t, ht, rfl⟩] at hst
    cases hst
  have haw : s'.awaits = Function.update s.awaits thread none := by
    funext t
    subst hs'
    by_cases ht : t = thread <;> simp [awaits, ht]
  have hround : s'.round = s.round := by
    funext t
    have hth : s'.threads = s.threads := by rw [hs']
    by_cases ht : t = thread
    · simp [round, hth, ht, hst]
    · simp [round, hth, haw, ht]
  subst hs'
  obtain ⟨h₁, h₂, h₃, h₄, h₅, h₆, h₇, h₈⟩ := h
  constructor
  case apart => exact h₁
  case stalled => exact h₂
  case owned => exact h₃
  case fifo => exact h₄
  case awaitsMutex =>
    intro m t ht
    rw [haw, Function.update_of_ne (hne t (.mutex m) ht)]
    exact h₅ m t ht
  case awaitsCond =>
    intro d w hw
    rw [haw, Function.update_of_ne (hne _ (.cond d) (List.mem_map_of_mem hw))]
    exact h₆ d w hw
  case granted =>
    intro t m ha
    rw [haw] at ha
    by_cases ht : t = thread
    · simp [ht] at ha
    · rw [Function.update_of_ne ht] at ha
      exact h₇ t m ha
  case inOrder => rwa [hround]

/-- `getMutex` finds or makes an object, and changes none. -/
structure SameObjects (s s' : SyncServer) : Prop where
  mutex : s'.mutex = s.mutex
  cond : s'.cond = s.cond
  threads : s'.threads = s.threads
  inCall : s'.inCall = s.inCall
  log : s'.log = s.log

theorem SameObjects.inv (h : SameObjects s s') (hinv : s.Inv) : s'.Inv :=
  hinv.congr h.mutex h.cond h.threads h.inCall h.log

theorem SameObjects.free (h : SameObjects s s') (hf : s.Free thread) : s'.Free thread :=
  ⟨h.threads ▸ hf.running, h.inCall ▸ hf.inCall⟩

theorem getMutex_same {canCreate : Bool} (h : s.getMutex mux canCreate = .ok s') :
    SameObjects s s' := by
  unfold getMutex at h
  split at h
  · cases h
    exact ⟨rfl, rfl, rfl, rfl, rfl⟩
  · rename_i hnone
    split at h
    · cases h
      refine ⟨?_, rfl, rfl, rfl, rfl⟩
      rw [mutex_setMutex]
      apply Function.update_eq_self_iff.mpr
      simp only [Bool.not_eq_true, Option.isSome_eq_false_iff, Option.isNone_iff_eq_none] at hnone
      simp [SyncServer.mutex, hnone]
    · cases h

theorem getCond_same : SameObjects s (s.getCond c) := by
  unfold getCond
  split
  · exact ⟨rfl, rfl, rfl, rfl, rfl⟩
  · rename_i hnone
    refine ⟨rfl, ?_, rfl, rfl, rfl⟩
    rw [cond_setCond]
    apply Function.update_eq_self_iff.mpr
    simp only [Bool.not_eq_true, Option.isSome_eq_false_iff, Option.isNone_iff_eq_none] at hnone
    simp [SyncServer.cond, hnone]

theorem getMutex_create (s : SyncServer) (mux : Addr) : ∃ s', s.getMutex mux true = .ok s' := by
  unfold getMutex
  split <;> simp

theorem Inv.lock (h : s.Inv) (hfree : s.Free thread) : (s.lock mux thread time).2.Inv := by
  unfold SyncServer.lock
  split
  · rename_i ho
    exact h.take hfree ho
  · rename_i o ho
    exact h.block hfree (by simp [ho])

theorem Inv.wakeAll {woken : List CondWaiter} (h : s.Inv) (hw : (s.cond c).waiting = woken) :
    (s.wakeAll c time woken).Inv := by
  induction woken generalizing s with
  | nil => exact h
  | cons w rest ih =>
    refine ih (h.wakeFirst hw) ?_
    unfold SyncServer.wakeFirst lockAsync
    split <;> simp

theorem Inv.signal (h : s.Inv) : (s.signal c time).2.Inv := by
  unfold SyncServer.signal
  split
  · exact h
  · rename_i w rest hw
    have hinv : (s.wakeFirst c w rest time).2.Inv := h.wakeFirst hw
    split <;> simp_all

theorem free_of_permitted {call : SyncCall} (h : s.permitted call = true)
    (hcall : ∀ t, call ≠ .returns t) : s.Free call.thread := by
  simp only [permitted, ready, Bool.and_eq_true] at h
  refine ⟨h.1.1, ?_⟩
  cases call with
  | returns t => exact absurd rfl (hcall t)
  | _ => exact Option.isNone_iff_eq_none.mp h.1.2

theorem mutexLock_eq {tryLock : Bool} {answer : SyncAnswer}
    (h : s.mutexLock thread mux tryLock time = .ok (answer, s')) :
    ∃ s₁, SameObjects s s₁ ∧ (s' = s₁ ∧ answer = .locked time false ∨
      s' = (s₁.lock mux thread time).2 ∧
        (answer = .locked (time + s₁.rescheduleCost) true ∧ (s.mutex mux).owner = none ∨
          answer = .stalls)) := by
  obtain ⟨s₁, hs₁⟩ := getMutex_create s mux
  have hsame := getMutex_same hs₁
  refine ⟨s₁, hsame, ?_⟩
  simp only [mutexLock, hs₁] at h
  change (if tryLock && (s₁.mutex mux).isLocked thread then _ else _) = _ at h
  split at h
  · cases h
    exact .inl ⟨rfl, rfl⟩
  · unfold SyncServer.lock at h ⊢
    split at h
    · rename_i ho
      split at ho
      · cases ho
        cases h
        rename_i howner
        exact .inr ⟨by simp, .inl ⟨rfl, by rw [← hsame.mutex]; exact howner⟩⟩
      · cases ho
    · rename_i ho
      split at ho
      · cases ho
      · cases ho
        cases h
        rename_i howner
        exact .inr ⟨by simp [howner], .inr rfl⟩

theorem mutexUnlock_eq {answer : SyncAnswer}
    (h : s.mutexUnlock thread mux time = .ok (answer, s')) :
    ∃ s₁ owner, SameObjects s s₁ ∧
      s₁.unlock mux thread (time + s₁.rescheduleCost) = .ok (owner, s') := by
  unfold mutexUnlock at h
  cases hs₁ : s.getMutex mux false with
  | error e => rw [hs₁] at h; cases h
  | ok s₁ =>
    rw [hs₁] at h
    change (s₁.unlock mux thread (time + s₁.rescheduleCost)).bind _ = _ at h
    cases hu : s₁.unlock mux thread (time + s₁.rescheduleCost) with
    | error e => rw [hu] at h; cases h
    | ok r =>
      rw [hu] at h
      cases h
      exact ⟨s₁, r.1, getMutex_same hs₁, hu⟩

theorem condWait_eq {answer : SyncAnswer} (h : s.condWait thread c mux time = .ok (answer, s')) :
    ∃ s₁ owner s₂, SameObjects s s₁ ∧ s₁.unlock mux thread time = .ok (owner, s₂) ∧
      s' = (s₂.setCond c ⟨(s₂.cond c).waiting ++ [⟨thread, mux⟩]⟩).stallThread thread .cond
        (.condWait c mux) := by
  obtain ⟨s₀, hs₀⟩ := getMutex_create s mux
  have hsame := getMutex_same hs₀
  have hcond : SameObjects s₀ (s₀.getCond c) := getCond_same
  refine ⟨s₀.getCond c, ?_⟩
  simp only [condWait, hs₀] at h
  change (((s₀.getCond c).unlock mux thread time).bind _ : Except _ _).bind _ = _ at h
  cases hu : (s₀.getCond c).unlock mux thread time with
  | error e => rw [hu] at h; cases h
  | ok r =>
    rw [hu] at h
    cases h
    exact ⟨r.1, r.2, ⟨hcond.mutex.trans hsame.mutex, hcond.cond.trans hsame.cond,
      hcond.threads.trans hsame.threads, hcond.inCall.trans hsame.inCall,
      hcond.log.trans hsame.log⟩, rfl, rfl⟩

/-- Every permitted call keeps the invariant. -/
theorem Inv.perform {call : SyncCall} {answer : SyncAnswer} (h : s.Inv)
    (hok : s.permitted call = true) (hs : s.perform call = .ok (answer, s')) : s'.Inv := by
  cases call with
  | mutexInit t mux =>
    obtain ⟨s₁, hs₁⟩ := getMutex_create s mux
    simp only [SyncServer.perform, mutexInit, hs₁] at hs
    cases hs
    exact (getMutex_same hs₁).inv h
  | mutexLock t mux tryLock time =>
    have hfree := free_of_permitted hok (by simp)
    obtain ⟨s₁, hsame, ⟨rfl, -⟩ | ⟨rfl, -⟩⟩ := mutexLock_eq hs
    · exact hsame.inv h
    · exact (hsame.inv h).lock (hsame.free hfree)
  | mutexUnlock t mux time =>
    have hfree := free_of_permitted hok (by simp)
    obtain ⟨s₁, owner, hsame, hu⟩ := mutexUnlock_eq hs
    exact ((hsame.inv h).unlock (hsame.free hfree) hu).1
  | condInit t c =>
    cases hs
    exact getCond_same.inv h
  | condWait t c mux time =>
    have hfree := free_of_permitted hok (by simp)
    obtain ⟨s₁, owner, s₂, hsame, hu, rfl⟩ := condWait_eq hs
    obtain ⟨hinv, hfree'⟩ := (hsame.inv h).unlock (hsame.free hfree) hu
    exact hinv.waitOn hfree'
  | condSignal t c time =>
    cases hs
    exact (getCond_same.inv h).signal
  | condBroadcast t c time =>
    cases hs
    exact (getCond_same.inv h).wakeAll rfl
  | returns t =>
    simp only [permitted, ready, Bool.and_eq_true] at hok
    exact h.finish hok.1.1 hs

/-- No assertion fails in a permitted call. -/
theorem proceeds {call : SyncCall} (hok : s.permitted call = true) :
    ∃ answer s', s.perform call = .ok (answer, s') := by
  simp only [permitted, ready, Bool.and_eq_true] at hok
  have hunlock : ∀ (s₁ : SyncServer) t m τ, (s₁.mutex m).owner = some t →
      ∃ r, s₁.unlock m t τ = .ok r := by
    intro s₁ t m τ ho
    unfold SyncServer.unlock
    split
    · split <;> simp
    · contradiction
  cases call with
  | mutexInit t mux =>
    obtain ⟨s₁, hs₁⟩ := getMutex_create s mux
    exact ⟨.inited, s₁, by simp only [SyncServer.perform, mutexInit, hs₁]; rfl⟩
  | mutexLock t mux tryLock time =>
    obtain ⟨s₁, hs₁⟩ := getMutex_create s mux
    simp only [SyncServer.perform, SyncServer.mutexLock, hs₁]
    change ∃ answer s', (if tryLock && (s₁.mutex mux).isLocked t then _ else _) = _
    split
    · exact ⟨_, _, rfl⟩
    · split <;> exact ⟨_, _, rfl⟩
  | mutexUnlock t mux time =>
    have ho : (s.mutex mux).owner = some t := by simpa [respectsOwnership] using hok.2
    have hsome : (s.mutexes mux).isSome = true := by
      cases hm : s.mutexes mux with
      | none => simp [SyncServer.mutex, hm, SimMutex.new] at ho
      | some x => rfl
    obtain ⟨r, hr⟩ := hunlock s t mux (time + s.rescheduleCost) ho
    simp only [SyncServer.perform, SyncServer.mutexUnlock, getMutex, hsome, if_true]
    change ∃ answer s', (s.unlock mux t (time + s.rescheduleCost)).bind _ = _
    rw [hr]
    exact ⟨_, _, rfl⟩
  | condInit t c => exact ⟨_, _, rfl⟩
  | condWait t c mux time =>
    have ho : (s.mutex mux).owner = some t := by simpa [respectsOwnership] using hok.2
    obtain ⟨s₁, hs₁⟩ := getMutex_create s mux
    have hsame := getMutex_same hs₁
    have hcond : SameObjects s₁ (s₁.getCond c) := getCond_same
    obtain ⟨r, hr⟩ := hunlock (s₁.getCond c) t mux time (by rw [hcond.mutex, hsame.mutex, ho])
    simp only [SyncServer.perform, SyncServer.condWait, hs₁]
    change ∃ answer s', (((s₁.getCond c).unlock mux t time).bind _ : Except _ _).bind _ = _
    rw [hr]
    exact ⟨_, _, rfl⟩
  | condSignal t c time => exact ⟨_, _, rfl⟩
  | condBroadcast t c time => exact ⟨_, _, rfl⟩
  | returns t =>
    obtain ⟨call, hcall⟩ := Option.isSome_iff_exists.mp hok.1.2
    simp only [SyncServer.perform, SyncServer.finish, hcall]
    cases call <;> exact ⟨_, _, rfl⟩

end SyncServer

end Sniper.System
