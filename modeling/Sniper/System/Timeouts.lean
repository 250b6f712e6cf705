import Sniper.System.FutexLinux
import Mathlib.Data.List.Induction
import Mathlib.Order.Bounds.Basic
set_option autoImplicit false

/-! The times at which those who sleep or wait for a futex are woken. -/

namespace Sniper.System.Syscall
open Sniper.Lib

/-- A waiter that is woken when its time comes. -/
def Waiter.finite (w : Waiter) : Bool := w.timeout < MaxTime

/-- The loop over a queue that looks for the next timeout. -/
def queueTimeout (waiting : List Waiter) : SubsecondTime :=
  waiting.foldl (fun next w => if w.timeout < MaxTime then w.timeout else next) MaxTime

namespace SyscallServer

variable {env : SyscallEnv} {s s' : SyscallServer} {time : SubsecondTime} {addr : Addr}
variable {order : List Addr}

/-- `SimFutex::getNextTimeout`. -/
def futexTimeout (s : SyscallServer) (addr : Addr) : SubsecondTime := queueTimeout (s.futexes addr)

/-- The sleepers, and then the table of futexes in some order. -/
def getNextTimeout (s : SyscallServer) (order : List Addr) : SubsecondTime :=
  order.foldl (fun next addr =>
    if s.futexTimeout addr < next then s.futexTimeout addr else next) (queueTimeout s.sleeping)

/-! ### The next timeout -/

/-- The times that are waited for. -/
def pending (s : SyscallServer) : Set SubsecondTime :=
  {t | ∃ p, ∃ w ∈ s.queue p, w.finite = true ∧ w.timeout = t}

/-- The last entry of a queue that is woken when its time comes. -/
def lastFinite (waiting : List Waiter) : Option Waiter := (waiting.filter Waiter.finite).getLast?

theorem lastFinite_mem {waiting : List Waiter} {w : Waiter} (h : lastFinite waiting = some w) :
    w ∈ waiting ∧ w.finite = true :=
  List.mem_filter.mp (List.mem_of_getLast? h)

/-- Each finite time overwrites the ones before it. -/
theorem queueTimeout_eq (waiting : List Waiter) :
    queueTimeout waiting = ((lastFinite waiting).map Waiter.timeout).getD MaxTime := by
  induction waiting using List.reverseRecOn with
  | nil => rfl
  | append_singleton waiting w ih =>
    rw [queueTimeout, List.foldl_append, List.foldl_cons, List.foldl_nil, lastFinite,
      List.filter_append]
    by_cases hfinite : w.timeout < MaxTime
    · have hkeep : [w].filter Waiter.finite = [w] := by simp [Waiter.finite, hfinite]
      rw [if_pos hfinite, hkeep, List.getLast?_concat]
      rfl
    · have hskip : [w].filter Waiter.finite = [] := by simp [Waiter.finite, hfinite]
      rw [if_neg hfinite, hskip, List.append_nil]
      exact ih

theorem queueTimeout_le {waiting : List Waiter} {w : Waiter} (h : lastFinite waiting = some w) :
    queueTimeout waiting = w.timeout := by
  rw [queueTimeout_eq, h]
  rfl

/-- The fold over the futexes is the least of their times and of that of the sleepers. -/
theorem foldl_next (times : Addr → SubsecondTime) (order : List Addr) (start : SubsecondTime) :
    let next := order.foldl (fun next addr => if times addr < next then times addr else next) start
    next ≤ start ∧ (∀ addr ∈ order, next ≤ times addr) ∧
      (next = start ∨ ∃ addr ∈ order, next = times addr) := by
  induction order generalizing start with
  | nil => exact ⟨le_refl _, fun addr h => absurd h List.not_mem_nil, .inl rfl⟩
  | cons addr order ih =>
    obtain ⟨hstart, hall, hone⟩ := ih (if times addr < start then times addr else start)
    have hmin : (if times addr < start then times addr else start) ≤ start ∧
        (if times addr < start then times addr else start) ≤ times addr := by
      split
      · next hlt => exact ⟨hlt.le, le_refl _⟩
      · next hle => exact ⟨le_refl _, not_lt.mp hle⟩
    simp only [List.foldl_cons, List.forall_mem_cons, List.exists_mem_cons_iff]
    refine ⟨hstart.trans hmin.1, ⟨hstart.trans hmin.2, hall⟩, ?_⟩
    rcases hone with hone | hone
    · by_cases hlt : times addr < start
      · rw [if_pos hlt] at hone ⊢
        exact .inr (.inl hone)
      · rw [if_neg hlt] at hone ⊢
        exact .inl hone
    · exact .inr (.inr hone)

/-- What is returned is the least of the last finite times of the queues. -/
theorem getNextTimeout_spec (h : s.Inv) (horder : order.Perm s.keys) :
    (∀ p w, lastFinite (s.queue p) = some w → s.getNextTimeout order ≤ w.timeout) ∧
      (s.getNextTimeout order = MaxTime ∨
        ∃ p w, lastFinite (s.queue p) = some w ∧ s.getNextTimeout order = w.timeout) := by
  obtain ⟨hstart, hall, hone⟩ := foldl_next s.futexTimeout order (queueTimeout s.sleeping)
  constructor
  · intro p w hw
    rw [← queueTimeout_le hw]
    cases p with
    | sleeping => exact hstart
    | futex addr =>
      refine hall addr (horder.mem_iff.mpr (h.known addr ?_))
      rintro hnil
      rw [queue, hnil] at hw
      cases hw
  · have hqueue : ∀ p, s.getNextTimeout order = queueTimeout (s.queue p) →
        s.getNextTimeout order = MaxTime ∨
          ∃ p w, lastFinite (s.queue p) = some w ∧ s.getNextTimeout order = w.timeout := by
      intro p hp
      cases hlast : lastFinite (s.queue p) with
      | none =>
        rw [queueTimeout_eq, hlast] at hp
        exact .inl hp
      | some w => exact .inr ⟨p, w, hlast, hp.trans (queueTimeout_le hlast)⟩
    rcases hone with hone | ⟨addr, -, hone⟩
    · exact hqueue .sleeping hone
    · exact hqueue (.futex addr) hone

/-- The earliest of the times that are waited for, and the time that never comes if there is
none. -/
def Earliest (s : SyscallServer) (next : SubsecondTime) : Prop :=
  next = MaxTime ∧ s.pending = ∅ ∨ IsLeast s.pending next

/-- In some queue the last finite time is the earliest of all. -/
def LastIsEarliest (s : SyscallServer) : Prop :=
  ∃ p w, lastFinite (s.queue p) = some w ∧ ∀ t ∈ s.pending, w.timeout ≤ t

theorem pending_lt {t : SubsecondTime} (h : t ∈ s.pending) : t < MaxTime := by
  obtain ⟨p, w, -, hfinite, rfl⟩ := h
  exact of_decide_eq_true hfinite

theorem lastFinite_pending {p : Place} {w : Waiter} (h : lastFinite (s.queue p) = some w) :
    w.timeout ∈ s.pending := by
  obtain ⟨hmem, hfinite⟩ := lastFinite_mem h
  exact ⟨p, w, hmem, hfinite, rfl⟩

theorem Inv.earliest_iff (h : s.Inv) (horder : order.Perm s.keys) :
    Earliest s (s.getNextTimeout order) ↔ s.pending = ∅ ∨ LastIsEarliest s := by
  obtain ⟨hle, hone⟩ := getNextTimeout_spec h horder
  constructor
  · rintro (⟨-, hnone⟩ | ⟨hmem, hleast⟩)
    · exact .inl hnone
    · rcases hone with hmax | ⟨p, w, hlast, heq⟩
      · exact absurd (hmax ▸ pending_lt hmem) (lt_irrefl _)
      · exact .inr ⟨p, w, hlast, fun t ht => heq ▸ hleast ht⟩
  · rintro (hnone | ⟨p, w, hlast, hleast⟩)
    · rcases hone with hmax | ⟨p, w, hlast, -⟩
      · exact .inl ⟨hmax, hnone⟩
      · have hw := lastFinite_pending hlast
        rw [hnone] at hw
        exact absurd hw (Set.notMem_empty _)
    · have hw := hle p w hlast
      have hnext : s.getNextTimeout order = w.timeout := by
        rcases hone with hmax | ⟨p', w', hlast', heq⟩
        · exact absurd (hmax ▸ hw) (Nat.not_le.mpr (pending_lt (lastFinite_pending hlast)))
        · exact le_antisymm hw (heq ▸ hleast _ (lastFinite_pending hlast'))
      rw [hnext]
      exact .inr ⟨lastFinite_pending hlast, hleast⟩

theorem run_inv {tr : List (SyscallStep × SyscallAnswer)}
    (h : Run (machine env) (fun s i => s.permitted i = true) tr s) : s.Inv :=
  h.invariant (fun _ hfresh => Inv.fresh hfresh) fun _ _ _ _ hinv hok hstep => hinv.perform hok hstep

/-- The loops keep the last finite time of each queue, where the earliest is meant. -/
theorem getNextTimeout_earliest_iff {tr : List (SyscallStep × SyscallAnswer)}
    (h : Run (machine env) (fun s i => s.permitted i = true) tr s) (horder : order.Perm s.keys) :
    Earliest s (s.getNextTimeout order) ↔ s.pending = ∅ ∨ LastIsEarliest s :=
  (run_inv h).earliest_iff horder

/-- Two threads sleep, the second one longer. -/
def sleepers : List SyscallStep := [.sleep 0 100, .sleep 1 200]

theorem sleepers_run : ∃ tr s,
    Run (machine plainEnv) (fun s i => s.permitted i = true) tr s ∧
      s.sleeping = [⟨0, 0, 100⟩, ⟨1, 0, 200⟩] ∧ s.keys = [] := by
  have hrun : ((performEach (perform plainEnv) permitted start sleepers).map fun s =>
      (s.sleeping, s.keys)) = some ([⟨0, 0, 100⟩, ⟨1, 0, 200⟩], []) := by rfl
  obtain ⟨s, hs, hsleep⟩ := Option.map_eq_some_iff.mp hrun
  obtain ⟨hsleep, hkeys⟩ := Prod.mk.inj hsleep
  obtain ⟨tr, h⟩ := Run.performEach (M := machine plainEnv) (fun _ _ _ _ h => h) (fun _ _ h => h)
    (.start start_fresh) hs
  exact ⟨tr, s, h, hsleep, hkeys⟩

/-- The first of the two wakes at 100, and the next timeout is said to be 200. -/
theorem getNextTimeout_sleepers : ∃ tr s,
    Run (machine plainEnv) (fun s i => s.permitted i = true) tr s ∧ [].Perm s.keys ∧
      s.getNextTimeout [] = 200 ∧ 100 ∈ s.pending ∧ ¬Earliest s (s.getNextTimeout []) := by
  obtain ⟨tr, s, h, hsleep, hkeys⟩ := sleepers_run
  have hnext : s.getNextTimeout [] = 200 := by
    rw [getNextTimeout, List.foldl_nil, hsleep]
    decide
  have hpending : 100 ∈ s.pending := by
    refine ⟨.sleeping, ⟨0, 0, 100⟩, ?_, by decide, rfl⟩
    rw [queue, hsleep]
    exact List.mem_cons_self
  refine ⟨tr, s, h, by rw [hkeys], hnext, hpending, ?_⟩
  rw [hnext]
  rintro (⟨hmax, -⟩ | ⟨-, hleast⟩)
  · exact absurd hmax (by decide)
  · exact absurd (hleast hpending) (by decide)

theorem getNextTimeout_earliest_iff_sleepers : ∃ tr s,
    Run (machine plainEnv) (fun s i => s.permitted i = true) tr s ∧ [].Perm s.keys ∧
      (Earliest s (s.getNextTimeout []) ↔ s.pending = ∅ ∨ LastIsEarliest s) := by
  obtain ⟨tr, s, h, -, hkeys⟩ := sleepers_run
  have horder : [].Perm s.keys := by rw [hkeys]
  exact ⟨tr, s, h, horder, getNextTimeout_earliest_iff h horder⟩

end SyscallServer

end Sniper.System.Syscall
