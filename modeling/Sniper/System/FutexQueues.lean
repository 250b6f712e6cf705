import Sniper.System.SyscallServer
import Sniper.Lib.WaitQueues
import Sniper.Lib.Alternation
set_option autoImplicit false

/-! Where the threads wait, between the steps of the server. -/

namespace Sniper.System.Syscall
open Sniper.Lib

def WaitEvent.isStall (thread : ThreadId) : WaitEvent → Bool
  | .stalled t => t = thread
  | _ => false

def WaitEvent.isResume (thread : ThreadId) : WaitEvent → Bool
  | .resumed _ t _ => t = thread
  | _ => false

def Place.isFutex : Place → Bool
  | .sleeping => false
  | .futex _ => true

namespace SyscallServer

variable {s s' : SyscallServer} {thread : ThreadId} {time : SubsecondTime} {p : Place} {addr : Addr}

def queue (s : SyscallServer) : Place → List Waiter
  | .sleeping => s.sleeping
  | .futex addr => s.futexes addr

def setQueue (s : SyscallServer) (p : Place) (waiting : List Waiter) : SyscallServer :=
  match p with
  | .sleeping => { s with sleeping := waiting }
  | .futex addr => s.setFutex addr waiting

@[simp] theorem queue_setQueue (s : SyscallServer) (p : Place) (waiting : List Waiter) :
    (s.setQueue p waiting).queue = Function.update s.queue p waiting := by
  funext q
  cases p with
  | sleeping =>
    cases q with
    | sleeping => rw [Function.update_self]; rfl
    | futex a => rw [Function.update_of_ne (by simp)]; rfl
  | futex addr =>
    cases q with
    | sleeping => rw [Function.update_of_ne (by simp)]; rfl
    | futex a =>
      by_cases h : a = addr
      · subst h
        simp [setQueue, setFutex, queue]
      · rw [Function.update_of_ne (by simpa using h)]
        simp [setQueue, setFutex, queue, h]

@[simp] theorem threads_setQueue (waiting : List Waiter) :
    (s.setQueue p waiting).threads = s.threads := by cases p <;> rfl

@[simp] theorem inCall_setQueue (waiting : List Waiter) :
    (s.setQueue p waiting).inCall = s.inCall := by cases p <;> rfl

@[simp] theorem log_setQueue (waiting : List Waiter) : (s.setQueue p waiting).log = s.log := by
  cases p <;> rfl

@[simp] theorem keys_setQueue (waiting : List Waiter) : (s.setQueue p waiting).keys = s.keys := by
  cases p <;> rfl

@[simp] theorem queue_resumeThread {msg : Bool} :
    (s.resumeThread p thread time msg).queue = s.queue := rfl

@[simp] theorem queue_stallThread {reason : StallType} :
    (s.stallThread thread reason p).queue = s.queue := rfl

/-- The stalled threads are those that wait, each once, for a futex when it is in a futex call;
stalls and resumptions of a thread alternate. -/
structure Inv (s : SyscallServer) : Prop where
  apart : Apart Waiter.thread s.queue
  stalled : ∀ t, s.threads.isThreadStalled t = true ↔ Waits Waiter.thread s.queue t
  called : ∀ p, ∀ w ∈ s.queue p, (s.inCall w.thread).map Place.isFutex = some p.isFutex
  known : ∀ addr, s.futexes addr ≠ [] → addr ∈ s.keys
  keysOnce : s.keys.Nodup
  inOrder : ∀ t, alternate (WaitEvent.isStall t) (WaitEvent.isResume t) false s.log =
    some (s.threads.isThreadStalled t)

theorem Inv.fresh (h : Fresh s) : s.Inv := by
  have hq : ∀ p, s.queue p = [] := by
    intro p
    cases p <;> simp [queue, h.sleeping, h.futexes]
  constructor
  case apart => exact ⟨by simp [hq], by simp [hq]⟩
  case stalled => simp [Waits, hq, h.awake]
  case called => simp [hq]
  case known => simp [h.futexes]
  case keysOnce => simp [h.keys]
  case inOrder => simp [h.log, alternate, h.awake]

/-- A thread whose next step is a call. -/
structure Free (s : SyscallServer) (thread : ThreadId) : Prop where
  running : s.threads.isThreadRunning thread = true
  inCall : s.inCall thread = none

theorem Free.not_stalled (h : s.Free thread) : s.threads.isThreadStalled thread = false :=
  ThreadManager.not_stalled_of_running h.running

theorem Free.not_waits (h : s.Free thread) (hinv : s.Inv) :
    ¬Waits Waiter.thread s.queue thread := by
  rw [← hinv.stalled, h.not_stalled]
  simp

/-- A thread goes to the end of a queue. -/
theorem Inv.enqueue {w : Waiter} {reason : StallType} (h : s.Inv) (hfree : s.Free w.thread)
    (hkey : ∀ addr, p = .futex addr → addr ∈ s.keys) :
    ((s.setQueue p (s.queue p ++ [w])).stallThread w.thread reason p).Inv := by
  have hnew := hfree.not_waits h
  constructor
  case apart =>
    rw [queue_stallThread, queue_setQueue]
    exact h.apart.enqueue hnew
  case stalled =>
    intro t
    rw [queue_stallThread, queue_setQueue, waits_enqueue, ← h.stalled]
    by_cases ht : t = w.thread
    · simp [stallThread, ht]
    · simp [stallThread, ht, Ne.symm ht]
  case called =>
    intro q v hv
    rw [queue_stallThread, queue_setQueue] at hv
    have hold : v ∈ s.queue q → v.thread ≠ w.thread := by
      intro hmem heq
      exact hnew ⟨q, v, hmem, heq⟩
    by_cases hq : q = p
    · subst hq
      rw [Function.update_self] at hv
      rcases List.mem_append.mp hv with hv | hv
      · simpa [stallThread, hold hv] using h.called q v hv
      · simp [stallThread, List.mem_singleton.mp hv]
    · rw [Function.update_of_ne hq] at hv
      simpa [stallThread, hold hv] using h.called q v hv
  case known =>
    intro addr hne
    have hk : addr ∈ s.keys := by
      by_cases hp : p = .futex addr
      · exact hkey addr hp
      · refine h.known addr ?_
        have hq : (s.setQueue p (s.queue p ++ [w])).queue (.futex addr) = s.queue (.futex addr) := by
          rw [queue_setQueue, Function.update_of_ne (Ne.symm hp)]
        exact fun hnil => hne (hq.trans hnil)
    simpa [stallThread] using hk
  case keysOnce => simpa [stallThread] using h.keysOnce
  case inOrder =>
    intro t
    simp only [stallThread, log_setQueue, alternate_append, h.inOrder t, Option.bind_some]
    by_cases ht : w.thread = t
    · subst ht
      simp [alternate, WaitEvent.isStall, hfree.not_stalled]
    · simp [alternate, WaitEvent.isStall, WaitEvent.isResume, ht, Ne.symm ht]

/-- A waiter leaves its queue, wherever it stands in it, and is resumed. -/
theorem Inv.dequeue {w : Waiter} {before after : List Waiter} {msg : Bool} (h : s.Inv)
    (hq : s.queue p = before ++ w :: after) :
    ((s.setQueue p (before ++ after)).resumeThread p w.thread time msg).Inv := by
  have hmem : w ∈ s.queue p := by simp [hq]
  have hst := (h.stalled w.thread).mpr ⟨p, w, hmem, rfl⟩
  have hsub : ∀ q, ∀ v ∈ Function.update s.queue p (before ++ after) q, v ∈ s.queue q := by
    intro q v hv
    by_cases hqp : q = p
    · subst hqp
      rw [Function.update_self] at hv
      rw [hq]
      simp only [List.mem_append, List.mem_cons] at hv ⊢
      tauto
    · rwa [Function.update_of_ne hqp] at hv
  constructor
  case apart =>
    rw [queue_resumeThread, queue_setQueue]
    exact h.apart.dequeue hq
  case stalled =>
    intro t
    rw [queue_resumeThread, queue_setQueue, waits_dequeue h.apart hq, ← h.stalled]
    by_cases ht : t = w.thread
    · simp [resumeThread, ht]
    · simp [resumeThread, ht, Ne.symm ht]
  case called =>
    intro q v hv
    rw [queue_resumeThread, queue_setQueue] at hv
    simpa [resumeThread] using h.called q v (hsub q v hv)
  case known =>
    intro addr hne
    have hk : addr ∈ s.keys := by
      obtain ⟨v, hv⟩ := List.exists_mem_of_ne_nil _ hne
      have hv' : v ∈ (s.setQueue p (before ++ after)).queue (.futex addr) := hv
      rw [queue_setQueue] at hv'
      exact h.known addr (List.ne_nil_of_mem (hsub (.futex addr) v hv'))
    simpa [resumeThread] using hk
  case keysOnce => simpa [resumeThread] using h.keysOnce
  case inOrder =>
    intro t
    simp only [resumeThread, log_setQueue, alternate_append, h.inOrder t, Option.bind_some]
    by_cases ht : w.thread = t
    · subst ht
      simp [alternate, WaitEvent.isStall, WaitEvent.isResume, hst]
    · simp [alternate, WaitEvent.isStall, WaitEvent.isResume, ht, Ne.symm ht]

/-- The first waiter of one futex goes to the end of another, or of the same. -/
theorem Inv.move {a b : Addr} {w : Waiter} {rest : List Waiter} (h : s.Inv)
    (hq : s.futexes a = w :: rest) (hb : b ∈ s.keys) :
    ((s.setFutex a rest).setFutex b ((s.setFutex a rest).futexes b ++ [w])).Inv := by
  have hq' : s.queue (.futex a) = [] ++ w :: rest := hq
  have hmem : w ∈ s.queue (.futex a) := by simp [hq']
  have h₁ : (s.setFutex a rest).queue = Function.update s.queue (.futex a) ([] ++ rest) :=
    queue_setQueue s (.futex a) rest
  have hqueue : ((s.setFutex a rest).setFutex b ((s.setFutex a rest).futexes b ++ [w])).queue =
      Function.update (s.setFutex a rest).queue (.futex b)
        ((s.setFutex a rest).queue (.futex b) ++ [w]) :=
    queue_setQueue (s.setFutex a rest) (.futex b) _
  have hout : ¬Waits Waiter.thread (s.setFutex a rest).queue w.thread := by
    rw [h₁, waits_dequeue h.apart hq']
    simp
  have hsub : ∀ q, ∀ v ∈ (s.setFutex a rest).queue q, v ∈ s.queue q := by
    intro q v hv
    rw [h₁] at hv
    by_cases hqa : q = .futex a
    · subst hqa
      rw [Function.update_self] at hv
      rw [hq']
      exact List.mem_cons_of_mem _ hv
    · rwa [Function.update_of_ne hqa] at hv
  constructor
  case apart =>
    rw [hqueue]
    refine Apart.enqueue ?_ hout
    rw [h₁]
    exact h.apart.dequeue hq'
  case stalled =>
    intro t
    rw [hqueue, waits_enqueue, h₁, waits_dequeue h.apart hq', ← h.stalled]
    by_cases ht : t = w.thread
    · have hst := (h.stalled w.thread).mpr ⟨_, w, hmem, rfl⟩
      simp [setFutex, ht, hst]
    · simp [setFutex, Ne.symm ht]
  case called =>
    intro q v hv
    rw [hqueue] at hv
    by_cases hqb : q = .futex b
    · subst hqb
      rw [Function.update_self] at hv
      rcases List.mem_append.mp hv with hv | hv
      · exact h.called _ v (hsub _ v hv)
      · rw [List.mem_singleton.mp hv]
        exact h.called (.futex a) w hmem
    · rw [Function.update_of_ne hqb] at hv
      exact h.called q v (hsub q v hv)
  case known =>
    intro addr hne
    by_cases hab : addr = b
    · exact hab ▸ hb
    · refine h.known addr ?_
      obtain ⟨v, hv⟩ := List.exists_mem_of_ne_nil _ hne
      have hv' : v ∈ (s.setFutex a rest).queue (.futex addr) := by
        simpa [setFutex, queue, hab] using hv
      exact List.ne_nil_of_mem (hsub (.futex addr) v hv')
  case keysOnce => exact h.keysOnce
  case inOrder => exact h.inOrder

/-- A resumed thread returns from its call. -/
theorem Inv.finish {answer : SyscallAnswer} (h : s.Inv)
    (hrun : s.threads.isThreadRunning thread = true)
    (hf : s.finish thread = .ok (answer, s')) : s'.Inv := by
  have hs' : s' = { s with inCall := Function.update s.inCall thread none } := by
    unfold SyscallServer.finish at hf
    dsimp only at hf
    split at hf <;> cases hf <;> rfl
  have hst := ThreadManager.not_stalled_of_running hrun
  subst hs'
  obtain ⟨h₁, h₂, h₃, h₄, h₅, h₆⟩ := h
  constructor
  case apart => exact h₁
  case stalled => exact h₂
  case called =>
    intro q v hv
    have hne : v.thread ≠ thread := by
      rintro rfl
      rw [(h₂ _).mpr ⟨q, v, hv, rfl⟩] at hst
      cases hst
    simpa [hne] using h₃ q v hv
  case known => exact h₄
  case keysOnce => exact h₅
  case inOrder => exact h₆

end SyscallServer

end Sniper.System.Syscall
