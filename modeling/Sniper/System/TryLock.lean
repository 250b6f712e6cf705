import Sniper.System.SyncExclusion
set_option autoImplicit false

/-! A lock that is only tried. -/

namespace Sniper.System
open Sniper.Lib

namespace SyncServer

variable {s s' : SyncServer} {mux : Addr} {thread : ThreadId} {time : SubsecondTime}

/-- Nobody is stalled and no queue changes: the thread takes a mutex that is free, or it is told that
it cannot have it. -/
structure Tried (s s' : SyncServer) (mux : Addr) (thread : ThreadId) (time : SubsecondTime)
    (answer : SyncAnswer) : Prop where
  threads : s'.threads = s.threads
  inCall : s'.inCall = s.inCall
  waiting : ∀ m, (s'.mutex m).waiting = (s.mutex m).waiting
  outcome : answer = .locked (time + s.rescheduleCost) true ∧ (s.mutex mux).owner = none ∧
      (s'.mutex mux).owner = some thread ∨
    answer = .locked time false ∧ (s.mutex mux).owner ≠ none ∧ s'.mutex = s.mutex

/-- A try of a mutex does not block, whatever happens. -/
def NeverBlocks (s : SyncServer) (mux : Addr) (thread : ThreadId) (time : SubsecondTime) : Prop :=
  ∃ answer s', s.perform (.mutexLock thread mux true time) = .ok (answer, s') ∧
    Tried s s' mux thread time answer

theorem isLocked_eq_true {mutex : SimMutex} :
    mutex.isLocked thread = true ↔ mutex.owner ≠ none ∧ mutex.owner ≠ some thread := by
  cases ho : mutex.owner <;> simp [SimMutex.isLocked, ho]

theorem getMutex_cost {canCreate : Bool} (h : s.getMutex mux canCreate = .ok s') :
    s'.rescheduleCost = s.rescheduleCost := by
  unfold getMutex at h
  split at h
  · cases h
    rfl
  · split at h
    · cases h
      rfl
    · cases h

/-- A free mutex is taken. -/
theorem lock_free (ho : (s.mutex mux).owner = none) :
    s.lock mux thread time = (some time,
      (s.setMutex mux { s.mutex mux with owner := some thread }).note (.taken mux thread)) := by
  rw [lock, ho]

/-- A thread that comes to a mutex with an owner is stalled. -/
theorem lock_owned {o : ThreadId} (ho : (s.mutex mux).owner = some o) :
    s.lock mux thread time = (none,
      ((s.setMutex mux { s.mutex mux with waiting := (s.mutex mux).waiting ++ [thread] }).note
        (.queued mux thread)).stallThread thread .mutex (.mutexLock mux)) := by
  rw [lock, ho]

/-- The three outcomes of a try, by the owner that the mutex has. -/
theorem tryLock_cases (s : SyncServer) (mux : Addr) (thread : ThreadId) (time : SubsecondTime) :
    ∃ s₁, SameObjects s s₁ ∧ s₁.rescheduleCost = s.rescheduleCost ∧
      ((s.mutex mux).owner = none →
        s.mutexLock thread mux true time = .ok (.locked (time + s.rescheduleCost) true,
          (s₁.setMutex mux { s₁.mutex mux with owner := some thread }).note (.taken mux thread))) ∧
      ((s.mutex mux).isLocked thread = true →
        s.mutexLock thread mux true time = .ok (.locked time false, s₁)) ∧
      ((s.mutex mux).owner = some thread →
        s.mutexLock thread mux true time = .ok (.stalls, (s₁.lock mux thread time).2)) := by
  obtain ⟨s₁, hs₁⟩ := getMutex_create s mux
  have hsame := getMutex_same hs₁
  have hcost := getMutex_cost hs₁
  refine ⟨s₁, hsame, hcost, fun ho => ?_, fun hlocked => ?_, fun ho => ?_⟩
  · have hfree : (s₁.mutex mux).owner = none := by rw [hsame.mutex]; exact ho
    rw [← hcost]
    simp [mutexLock, hs₁, bind, Except.bind, SimMutex.isLocked, hfree, lock_free hfree]
    rfl
  · rw [← hsame.mutex] at hlocked
    simp [mutexLock, hs₁, bind, Except.bind, hlocked]
    rfl
  · have hown : (s₁.mutex mux).owner = some thread := by rw [hsame.mutex]; exact ho
    simp [mutexLock, hs₁, bind, Except.bind, SimMutex.isLocked, hown, lock_owned hown]
    rfl

/-- The test for the lock lets a thread through that has it already, and it is stalled as any other
would be. -/
theorem owner_blocks (ho : (s.mutex mux).owner = some thread) : ¬NeverBlocks s mux thread time := by
  obtain ⟨s₁, -, -, -, -, hown⟩ := tryLock_cases s mux thread time
  rintro ⟨answer, s', hperform, htried⟩
  have hstalls := (hown ho).symm.trans hperform
  cases hstalls
  rcases htried.outcome with ⟨hanswer, -⟩ | ⟨hanswer, -⟩
  · cases hanswer
  · cases hanswer

/-- A try does not block as long as the thread is not the owner. -/
theorem neverBlocks_iff (s : SyncServer) (mux : Addr) (thread : ThreadId) (time : SubsecondTime) :
    NeverBlocks s mux thread time ↔ (s.mutex mux).owner ≠ some thread := by
  obtain ⟨s₁, hsame, hcost, hfree, hlocked, -⟩ := tryLock_cases s mux thread time
  constructor
  · exact fun hnever ho => owner_blocks ho hnever
  · intro hother
    by_cases ho : (s.mutex mux).owner = none
    · refine ⟨_, _, hfree ho, hsame.threads, hsame.inCall, fun m => ?_, .inl ⟨rfl, ho, ?_⟩⟩
      · rw [mutex_note, mutex_setMutex, hsame.mutex]
        by_cases hm : m = mux
        · subst hm
          rw [Function.update_self]
        · rw [Function.update_of_ne hm]
      · rw [mutex_note, mutex_setMutex, Function.update_self]
    · refine ⟨_, _, hlocked (isLocked_eq_true.mpr ⟨ho, hother⟩), hsame.threads, hsame.inCall,
        fun m => ?_, .inr ⟨rfl, ho, hsame.mutex⟩⟩
      rw [hsame.mutex]

/-- A thread that tries a mutex it has taken before waits for itself. -/
theorem tryLock_waits_for_itself : ∃ tr s,
    Run machine (fun s call => s.permitted call = true) tr s ∧
      s.permitted (.mutexLock 0 7 true 20) = true ∧ ¬NeverBlocks s 7 0 20 := by
  have hrun : ((performEach perform permitted (start 1000) [.mutexLock 0 7 false 10]).map
      fun s => ((s.mutex 7).owner, s.permitted (.mutexLock 0 7 true 20))) =
        some (some 0, true) := by rfl
  obtain ⟨s, hs, howner⟩ := Option.map_eq_some_iff.mp hrun
  obtain ⟨tr, h⟩ := Run.performEach (M := machine) (fun _ _ _ _ h => h) (fun _ _ h => h)
    (.start (start_fresh 1000)) hs
  obtain ⟨howner, hpermitted⟩ := Prod.mk.inj howner
  exact ⟨tr, s, h, hpermitted, owner_blocks howner⟩

end SyncServer

end Sniper.System
