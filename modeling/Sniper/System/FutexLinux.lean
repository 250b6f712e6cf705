import Sniper.System.FutexQueues
set_option autoImplicit false

/-! The futex calls against those of Linux. -/

namespace Sniper.System.Syscall
open Sniper.Lib

/-- The futexes as the kernel has them: the waiters of each address in order, and the wakeups so
far, with the address the thread waited at in the end and whether it was woken by a call. -/
structure Futexes where
  queue : Addr → List Waiter
  resumed : List (Addr × ThreadId × Bool)

namespace Futexes

/-- Waiters of an address are woken; others remain. -/
def wake (f : Futexes) (addr : Addr) (woken rest : List Waiter) : Futexes :=
  ⟨Function.update f.queue addr rest, f.resumed ++ woken.map fun w => (addr, w.thread, true)⟩

/-- Waiters come to the end of the queue of an address. -/
def join (f : Futexes) (addr : Addr) (waiters : List Waiter) : Futexes :=
  { f with queue := Function.update f.queue addr (f.queue addr ++ waiters) }

/-- A list is split in two, both in its order. -/
structure Splits (l l₁ l₂ : List Waiter) : Prop where
  left : l₁.Sublist l
  right : l₂.Sublist l
  perm : (l₁ ++ l₂).Perm l

/-- `FUTEX_WAIT` and `FUTEX_WAIT_BITSET`. -/
def Waits (f : Futexes) (addr : Addr) (c : FutexCall) (waiter : Waiter) (answer : SyscallAnswer)
    (f' : Futexes) : Prop :=
  if c.args.val = c.actVal then answer = .stalls ∧ f' = f.join addr [waiter]
  else answer = .returned (-EWOULDBLOCK) c.currTime ∧ f' = f

/-- What a futex call does. -/
def call (env : SyscallEnv) (f : Futexes) (c : FutexCall) (answer : SyscallAnswer)
    (f' : Futexes) : Prop :=
  let addr := env.va2pa c.thread c.args.uaddr
  let addr2 := env.va2pa c.thread c.args.uaddr2
  let nr := SyscallServer.rounds c.args.val
  let nr2 := SyscallServer.rounds c.args.val2
  match FutexCmd.ofOp c.args.op with
  | none => False
  | some .wait =>
    f.Waits addr c ⟨c.thread, FUTEX_BITSET_MATCH_ANY,
      SyscallServer.timeoutTime env .wait c.args.timeout c.currTime⟩ answer f'
  | some .waitBitset =>
    f.Waits addr c ⟨c.thread, c.args.val3,
      SyscallServer.timeoutTime env .waitBitset c.args.timeout c.currTime⟩ answer f'
  | some .wake =>
    (∃ endTime, answer = .returned (min nr (f.queue addr).length : Nat) endTime) ∧
      f' = f.wake addr ((f.queue addr).take nr) ((f.queue addr).drop nr)
  | some .wakeBitset =>
    let split := pick (fun w => c.args.val3 &&& w.mask ≠ 0) nr (f.queue addr)
    (∃ endTime, answer = .returned split.1.length endTime) ∧ f' = f.wake addr split.1 split.2
  | some .wakeOp =>
    ∃ woken rest woken2 rest2 endTime, Splits (f.queue addr) woken rest ∧
      Splits ((f.wake addr woken rest).queue addr2) woken2 rest2 ∧ woken.length ≤ nr ∧
      woken2.length ≤ nr2 ∧
      answer = .returned (woken.length + woken2.length : Nat) endTime ∧
      f' = (f.wake addr woken rest).wake addr2 woken2 rest2
  | some .cmpRequeue =>
    if c.args.val3 = c.actVal then
      (∃ endTime, answer = .returned (min nr (f.queue addr).length : Nat) endTime) ∧
        f' = (f.wake addr ((f.queue addr).take nr) []).join addr2 ((f.queue addr).drop nr)
    else answer = .returned (-EWOULDBLOCK) c.currTime ∧ f' = f

/-- At each address at most one waiter, the first whose time has come, leaves. -/
def timeOut (f : Futexes) (time : SubsecondTime) (order : List Addr) : Futexes :=
  ⟨fun addr => (f.queue addr).eraseP fun w => w.timeout ≤ time,
    f.resumed ++ order.filterMap fun addr =>
      ((f.queue addr).find? fun w => w.timeout ≤ time).map fun w => (addr, w.thread, false)⟩

def step (env : SyscallEnv) (f : Futexes) : SyscallStep → SyscallAnswer → Futexes → Prop
  | .futex c, answer, f' => f.call env c answer f'
  | .sleep _ _, _, f' => f' = f
  | .returns _, _, f' => f' = f
  | .periodic time order, _, f' => f' = f.timeOut time order

end Futexes

def linux (env : SyscallEnv) : Machine Futexes SyscallStep SyscallAnswer where
  init f := f = ⟨fun _ => [], []⟩
  step f i answer f' := f.step env i answer f'

def WaitEvent.toResumption : WaitEvent → Option (Addr × ThreadId × Bool)
  | .resumed (.futex addr) thread msg => some (addr, thread, msg)
  | _ => none

namespace SyscallServer

variable {env : SyscallEnv} {s s' : SyscallServer} {thread : ThreadId} {time : SubsecondTime}
variable {addr addr2 : Addr} {mask : CInt}

/-- The futexes of the server. -/
def table (s : SyscallServer) : Futexes := ⟨s.futexes, s.log.filterMap WaitEvent.toResumption⟩

/-- Waiters of an address were resumed in order, and nothing else happened. -/
structure Woke (s s' : SyscallServer) (addr : Addr) (woken rest : List Waiter) : Prop where
  futexes : s'.futexes = Function.update s.futexes addr rest
  log : s'.log = s.log ++ woken.map fun w => .resumed (.futex addr) w.thread true
  keys : s'.keys = s.keys
  sleeping : s'.sleeping = s.sleeping
  inCall : s'.inCall = s.inCall

theorem Woke.table {woken rest : List Waiter} (h : Woke s s' addr woken rest) :
    s'.table = s.table.wake addr woken rest := by
  have hlog : (woken.map fun w => WaitEvent.resumed (.futex addr) w.thread true).filterMap
      WaitEvent.toResumption = woken.map fun w => (addr, w.thread, true) := by
    induction woken with
    | nil => rfl
    | cons w rest ih => simp [WaitEvent.toResumption, List.filterMap_map, Function.comp_def]
  simp only [SyscallServer.table, Futexes.wake, h.futexes, h.log, List.filterMap_append, hlog]

/-- The loop wakes the first waiters that its mask meets. -/
theorem wakeLoop_woke (s : SyscallServer) (addr : Addr) (mask : CInt) (time : SubsecondTime)
    (n : Nat) :
    (s.wakeLoop addr mask time n).1 =
        (pick (fun w => mask &&& w.mask ≠ 0) n (s.futexes addr)).1.length ∧
      Woke s (s.wakeLoop addr mask time n).2 addr
        (pick (fun w => mask &&& w.mask ≠ 0) n (s.futexes addr)).1
        (pick (fun w => mask &&& w.mask ≠ 0) n (s.futexes addr)).2 := by
  induction n generalizing s with
  | zero =>
    refine ⟨?_, ?_, ?_, rfl, rfl, rfl⟩
    · simp [wakeLoop, pick]
    · simp [wakeLoop, pick]
    · simp [wakeLoop, pick]
  | succ n ih =>
    rw [pick_succ]
    unfold wakeLoop dequeueWaiter
    cases hf : (s.futexes addr).find? fun w => decide (mask &&& w.mask ≠ 0) with
    | none =>
      refine ⟨rfl, ?_, ?_, rfl, rfl, rfl⟩
      · simp
      · simp
    | some w =>
      dsimp only
      obtain ⟨hlen, hw⟩ := ih ((s.setFutex addr ((s.futexes addr).eraseP fun w =>
        decide (mask &&& w.mask ≠ 0))).resumeThread (.futex addr) w.thread time true)
      have hq : ((s.setFutex addr ((s.futexes addr).eraseP fun w =>
          decide (mask &&& w.mask ≠ 0))).resumeThread (.futex addr) w.thread time true).futexes addr =
          (s.futexes addr).eraseP fun w => decide (mask &&& w.mask ≠ 0) := by
        simp [setFutex, resumeThread]
      rw [hq] at hlen hw
      refine ⟨by rw [hlen, List.length_cons], ?_, ?_, hw.keys, hw.sleeping, hw.inCall⟩
      · rw [hw.futexes]
        simp [setFutex, resumeThread]
      · rw [hw.log]
        simp [setFutex, resumeThread]

theorem Inv.wakeLoop (h : s.Inv) (n : Nat) : (s.wakeLoop addr mask time n).2.Inv := by
  induction n generalizing s with
  | zero => exact h
  | succ n ih =>
    unfold SyscallServer.wakeLoop dequeueWaiter
    cases hf : (s.futexes addr).find? fun w => decide (mask &&& w.mask ≠ 0) with
    | none => exact h
    | some w =>
      obtain ⟨before, after, hq, herase⟩ := find?_split hf
      dsimp only
      rw [herase]
      exact ih (h.dequeue (p := .futex addr) hq)

/-- Two futexes: the loop ends, and has moved all waiters in order. -/
theorem requeueLoop_eq (hne : addr ≠ addr2) {l : List Waiter} (hl : s.futexes addr = l) :
    ∃ s', s.requeueLoop addr addr2 (l.length + 1) = some s' ∧
      s'.futexes = Function.update (Function.update s.futexes addr []) addr2
        (s.futexes addr2 ++ l) ∧ s'.log = s.log := by
  induction l generalizing s with
  | nil =>
    refine ⟨s, ?_, ?_, rfl⟩
    · simp [requeueLoop, requeueWaiter, hl]
    · rw [List.append_nil, ← hl, Function.update_eq_self, Function.update_eq_self]
  | cons w rest ih =>
    have hrest : ((s.setFutex addr rest).setFutex addr2
        ((s.setFutex addr rest).futexes addr2 ++ [w])).futexes addr = rest := by
      simp [setFutex, hne]
    obtain ⟨s', hs', hfut, hlog⟩ := ih hrest
    refine ⟨s', ?_, ?_, hlog⟩
    · rw [List.length_cons, requeueLoop]
      simp only [requeueWaiter, hl]
      exact hs'
    · rw [hfut]
      funext a
      by_cases ha₂ : a = addr2
      · subst ha₂
        simp [setFutex, Ne.symm hne]
      · by_cases ha : a = addr
        · subst ha
          simp [setFutex, ha₂]
        · simp [setFutex, ha, ha₂]

/-- One futex under two names: with a waiter the loop runs forever. -/
theorem requeueLoop_same (fuel : Nat) (h : s.futexes addr ≠ []) :
    s.requeueLoop addr addr fuel = none := by
  induction fuel generalizing s with
  | zero => rfl
  | succ fuel ih =>
    obtain ⟨w, rest, hl⟩ := List.exists_cons_of_ne_nil h
    rw [requeueLoop]
    simp only [requeueWaiter, hl]
    apply ih
    simp [setFutex]

theorem Inv.requeueLoop {fuel : Nat} (h : s.Inv) (hk : addr2 ∈ s.keys)
    (hs : s.requeueLoop addr addr2 fuel = some s') : s'.Inv := by
  induction fuel generalizing s with
  | zero => cases hs
  | succ fuel ih =>
    rw [SyscallServer.requeueLoop] at hs
    cases hl : s.futexes addr with
    | nil =>
      simp only [requeueWaiter, hl] at hs
      cases hs
      exact h
    | cons w rest =>
      simp only [requeueWaiter, hl] at hs
      exact ih (h.move hl hk) (by simpa [setFutex] using hk) hs

/-- Looking a futex up changes no queue. -/
theorem findFutexByUaddr_eq (env : SyscallEnv) (s : SyscallServer) (thread : ThreadId)
    (uaddr : Addr) :
    ∃ keys, s.findFutexByUaddr env uaddr thread =
      (env.va2pa thread uaddr, { s with keys := keys }) ∧
      env.va2pa thread uaddr ∈ keys ∧ (s.keys.Nodup → keys.Nodup) ∧ ∀ a ∈ s.keys, a ∈ keys := by
  by_cases hmem : env.va2pa thread uaddr ∈ s.keys
  · exact ⟨s.keys, by simp [findFutexByUaddr, hmem], hmem, id, fun _ h => h⟩
  · refine ⟨s.keys ++ [env.va2pa thread uaddr], by simp [findFutexByUaddr, hmem], by simp, ?_,
      fun _ h => by simp [h]⟩
    intro hnodup
    rw [List.nodup_append]
    refine ⟨hnodup, List.nodup_singleton _, ?_⟩
    rintro a ha b hb rfl
    rw [List.mem_singleton.mp hb] at ha
    exact hmem ha

theorem Inv.withKeys {keys : List Addr} (h : s.Inv) (hnodup : s.keys.Nodup → keys.Nodup)
    (hsub : ∀ a ∈ s.keys, a ∈ keys) : ({ s with keys := keys } : SyscallServer).Inv := by
  obtain ⟨h₁, h₂, h₃, h₄, h₅, h₆⟩ := h
  constructor
  case apart => exact h₁
  case stalled => exact h₂
  case called => exact h₃
  case known => exact fun a ha => hsub a (h₄ a ha)
  case keysOnce => exact hnodup h₅
  case inOrder => exact h₆

theorem Inv.wakeSleeping (h : s.Inv) : (s.wakeSleeping time).Inv := by
  unfold SyscallServer.wakeSleeping
  cases hf : s.sleeping.find? fun w => decide (w.timeout ≤ time) with
  | none => exact h
  | some w =>
    obtain ⟨before, after, hq, herase⟩ := find?_split hf
    dsimp only
    rw [herase]
    exact h.dequeue (p := .sleeping) hq

theorem Inv.wakeTimedOut (h : s.Inv) : (s.wakeTimedOut addr time).Inv := by
  unfold SyscallServer.wakeTimedOut
  cases hf : (s.futexes addr).find? fun w => decide (w.timeout ≤ time) with
  | none => exact h
  | some w =>
    obtain ⟨before, after, hq, herase⟩ := find?_split hf
    dsimp only
    rw [herase]
    exact h.dequeue (p := .futex addr) hq

theorem Inv.futexPeriodic {order : List Addr} (h : s.Inv) : (s.futexPeriodic time order).Inv := by
  unfold SyscallServer.futexPeriodic
  generalize hs₁ : s.wakeSleeping time = s₁
  have h₁ : s₁.Inv := hs₁ ▸ h.wakeSleeping
  clear hs₁
  induction order generalizing s₁ with
  | nil => exact h₁
  | cons a order ih => exact ih (s₁.wakeTimedOut a time) h₁.wakeTimedOut

theorem table_wakeTimedOut (s : SyscallServer) (addr : Addr) (time : SubsecondTime) :
    (s.wakeTimedOut addr time).futexes = Function.update s.futexes addr
        ((s.futexes addr).eraseP fun w => w.timeout ≤ time) ∧
      (s.wakeTimedOut addr time).table.resumed = s.table.resumed ++
        (((s.futexes addr).find? fun w => w.timeout ≤ time).map fun w =>
          (addr, w.thread, false)).toList := by
  unfold SyscallServer.wakeTimedOut
  cases hf : (s.futexes addr).find? fun w => decide (w.timeout ≤ time) with
  | none =>
    have herase : ((s.futexes addr).eraseP fun w => decide (w.timeout ≤ time)) = s.futexes addr :=
      List.eraseP_of_forall_not (by simpa using hf)
    simp [herase]
  | some w => simp [setFutex, resumeThread, table, WaitEvent.toResumption]

/-- The periodic event lets at most one waiter of each futex time out. -/
theorem table_futexPeriodic {order : List Addr} (h : s.Inv) (hperm : order.Perm s.keys) :
    (s.futexPeriodic time order).table = s.table.timeOut time order := by
  have hsleep : (s.wakeSleeping time).table = s.table := by
    unfold SyscallServer.wakeSleeping
    split <;> simp [table, resumeThread, WaitEvent.toResumption]
  have hrun : ∀ (order : List Addr) (s₁ : SyscallServer), order.Nodup →
      (order.foldl (fun s addr => s.wakeTimedOut addr time) s₁).table =
        ⟨fun a => if a ∈ order then (s₁.futexes a).eraseP fun w => w.timeout ≤ time
          else s₁.futexes a, (s₁.table.timeOut time order).resumed⟩ := by
    intro order
    induction order with
    | nil =>
      intro s₁ _
      simp [table, Futexes.timeOut]
    | cons a order ih =>
      intro s₁ hnodup
      obtain ⟨ha, hnodup⟩ := List.nodup_cons.mp hnodup
      obtain ⟨hfut, hres⟩ := table_wakeTimedOut s₁ a time
      rw [List.foldl_cons, ih _ hnodup]
      have hother : ∀ b ∈ order, (s₁.wakeTimedOut a time).futexes b = s₁.futexes b := by
        intro b hb
        rw [hfut, Function.update_of_ne]
        rintro rfl
        exact ha hb
      congr 1
      · funext b
        by_cases hb : b ∈ order
        · simp [hb, hother b hb]
        · by_cases hba : b = a
          · subst hba
            simp [hb, hfut]
          · simp [hb, hba, hfut]
      · have htail : (order.filterMap fun b =>
            (((s₁.wakeTimedOut a time).table.queue b).find? fun w => w.timeout ≤ time).map
              fun w => (b, w.thread, false)) =
            order.filterMap fun b => ((s₁.table.queue b).find? fun w => w.timeout ≤ time).map
              fun w => (b, w.thread, false) := by
          apply List.filterMap_congr
          intro b hb
          simp [table, hother b hb]
        simp only [Futexes.timeOut, hres, htail, List.filterMap_cons, List.append_assoc]
        cases hf : (s₁.table.queue a).find? fun w => decide (w.timeout ≤ time) with
        | none =>
          have hf' : (s₁.futexes a).find? (fun w => decide (w.timeout ≤ time)) = none := hf
          simp [hf']
        | some w =>
          have hf' : (s₁.futexes a).find? (fun w => decide (w.timeout ≤ time)) = some w := hf
          simp [hf']
  have hfin := hrun order (s.wakeSleeping time) (hperm.nodup_iff.mpr h.keysOnce)
  rw [SyscallServer.futexPeriodic, hfin, hsleep]
  have hqueue : (s.wakeSleeping time).futexes = s.futexes := congrArg Futexes.queue hsleep
  simp only [hqueue, Futexes.timeOut, table, Futexes.mk.injEq, and_true]
  funext a
  by_cases ha : a ∈ order
  · simp [ha]
  · have hnil : s.futexes a = [] := by
      by_contra hne
      exact ha (hperm.mem_iff.mpr (h.known a hne))
    simp [ha, hnil]

theorem futexWait_table (env : SyscallEnv) (s : SyscallServer) (thread : ThreadId) (uaddr : Addr)
    (val actVal mask : CInt) (currTime timeoutTime : SubsecondTime) :
    (s.futexWait env thread uaddr val actVal mask currTime timeoutTime).1 =
        (if val = actVal then .stalls else .returned (-EWOULDBLOCK) currTime) ∧
      (s.futexWait env thread uaddr val actVal mask currTime timeoutTime).2.table =
        if val = actVal then
          s.table.join (env.va2pa thread uaddr) [⟨thread, mask, timeoutTime⟩]
        else s.table := by
  obtain ⟨keys, hfind, -⟩ := findFutexByUaddr_eq env s thread uaddr
  unfold futexWait
  rw [hfind]
  by_cases hval : val = actVal
  · simp [hval, enqueueWaiter, stallThread, setFutex, table, Futexes.join, WaitEvent.toResumption]
  · simp [hval, table]

theorem futexWake_table (env : SyscallEnv) (s : SyscallServer) (thread : ThreadId) (uaddr : Addr)
    (nrWake mask : CInt) (executed : Bool) (currTime : SubsecondTime) :
    (∃ endTime, (s.futexWake env thread uaddr nrWake mask executed currTime).1 = .returned
        (pick (fun w => mask &&& w.mask ≠ 0) (rounds nrWake)
          (s.futexes (env.va2pa thread uaddr))).1.length endTime) ∧
      (s.futexWake env thread uaddr nrWake mask executed currTime).2.table =
        s.table.wake (env.va2pa thread uaddr)
          (pick (fun w => mask &&& w.mask ≠ 0) (rounds nrWake)
            (s.futexes (env.va2pa thread uaddr))).1
          (pick (fun w => mask &&& w.mask ≠ 0) (rounds nrWake)
            (s.futexes (env.va2pa thread uaddr))).2 := by
  obtain ⟨keys, hfind, -⟩ := findFutexByUaddr_eq env s thread uaddr
  unfold futexWake
  rw [hfind]
  obtain ⟨hlen, hwoke⟩ := wakeLoop_woke { s with keys := keys } (env.va2pa thread uaddr) mask
    (currTime + applyRescheduleCost env executed true) (rounds nrWake)
  refine ⟨?_, hwoke.table⟩
  dsimp only
  rw [hlen]
  exact ⟨_, rfl⟩

/-- A mask with all bits meets every mask that has one. -/
theorem match_any (m : CInt) : FUTEX_BITSET_MATCH_ANY &&& m = m := by
  have h : FUTEX_BITSET_MATCH_ANY = BitVec.allOnes 32 := by decide
  rw [h, BitVec.allOnes_and]

/-- Two threads that wait for one futex are told apart by their numbers. -/
theorem Inv.thread_inj (h : s.Inv) {a b : Waiter} (ha : a ∈ s.futexes addr)
    (hb : b ∈ s.futexes addr) (hab : a.thread = b.thread) : a = b :=
  List.inj_on_of_nodup_map (h.apart.once (.futex addr)) ha hb hab

/-- The same wakeups in the history are the same waiters. -/
theorem Inv.woken_inj (h : s.Inv) {ws vs rest rest' : List Waiter}
    (hws : ∀ w ∈ ws, w ∈ s.futexes addr) (hvs : ∀ v ∈ vs, v ∈ s.futexes addr)
    (heq : (s.table.wake addr ws rest).resumed = (s.table.wake addr vs rest').resumed) :
    ws = vs := by
  have hmap : (ws.map fun w => (addr, w.thread, true)) = vs.map fun w => (addr, w.thread, true) :=
    List.append_cancel_left heq
  clear heq
  induction ws generalizing vs with
  | nil => simpa using hmap.symm
  | cons w ws ih =>
    cases vs with
    | nil => simp at hmap
    | cons v vs =>
      simp only [List.map_cons, List.cons.injEq, Prod.mk.injEq, and_true, true_and] at hmap
      have hwv := h.thread_inj (hws w (by simp)) (hvs v (by simp)) hmap.1
      have hrest := ih (fun x hx => hws x (by simp [hx])) (fun x hx => hvs x (by simp [hx])) hmap.2
      rw [hwv, hrest]

theorem pick_fst_subset {q : Waiter → Bool} {n : Nat} {l : List Waiter} :
    ∀ w ∈ (pick q n l).1, w ∈ l := by
  intro w hw
  rw [pick_fst] at hw
  exact (List.mem_filter.mp (List.mem_of_mem_take hw)).1

theorem pick_fst_match {q : Waiter → Bool} {n : Nat} {l : List Waiter} :
    ∀ w ∈ (pick q n l).1, q w = true := by
  intro w hw
  rw [pick_fst] at hw
  exact (List.mem_filter.mp (List.mem_of_mem_take hw)).2

/-- A wakeup that ignores the masks of the waiters wakes the first ones, if each of these has a
bit in its mask. -/
theorem Inv.wake_first_iff {n : Nat} (h : s.Inv) (rest : List Waiter) :
    (s.table.wake addr (pick (fun w => FUTEX_BITSET_MATCH_ANY &&& w.mask ≠ 0) n (s.futexes addr)).1
        (pick (fun w => FUTEX_BITSET_MATCH_ANY &&& w.mask ≠ 0) n (s.futexes addr)).2).resumed =
      (s.table.wake addr ((s.futexes addr).take n) rest).resumed ↔
    ∀ w ∈ (s.futexes addr).take n, w.mask ≠ 0 := by
  constructor
  · intro heq w hw
    have hinj := h.woken_inj (fun w hw => pick_fst_subset w hw)
      (fun w hw => List.mem_of_mem_take hw) heq
    rw [← hinj] at hw
    simpa [match_any] using pick_fst_match w hw
  · intro hall
    rw [pick_eq_take (by simpa [match_any] using hall)]
    rfl

theorem futexWakeOp_table {op oldval : CInt} (env : SyscallEnv) (s : SyscallServer)
    (thread : ThreadId) (uaddr uaddr2 : Addr) (nrWake nrWake2 : CInt) (executed : Bool)
    (currTime : SubsecondTime) (hop : ∃ r, futexDoOp op oldval = .ok r) :
    ∃ answer s' woken rest woken2 rest2 endTime,
      s.futexWakeOp env thread uaddr uaddr2 nrWake nrWake2 op oldval executed currTime =
        .ok (answer, s') ∧
      Futexes.Splits (s.table.queue (env.va2pa thread uaddr)) woken rest ∧
      Futexes.Splits ((s.table.wake (env.va2pa thread uaddr) woken rest).queue
        (env.va2pa thread uaddr2)) woken2 rest2 ∧
      woken.length ≤ rounds nrWake ∧ woken2.length ≤ rounds nrWake2 ∧
      answer = .returned (woken.length + woken2.length : Nat) endTime ∧
      s'.table = (s.table.wake (env.va2pa thread uaddr) woken rest).wake (env.va2pa thread uaddr2)
        woken2 rest2 := by
  obtain ⟨⟨newval, opRet⟩, hop⟩ := hop
  obtain ⟨keys, hfind, -⟩ := findFutexByUaddr_eq env s thread uaddr
  obtain ⟨keys2, hfind2, -⟩ := findFutexByUaddr_eq env { s with keys := keys } thread uaddr2
  have hsplits : ∀ (q : Waiter → Bool) n l, Futexes.Splits l (pick q n l).1 (pick q n l).2 := by
    intro q n l
    refine ⟨?_, pick_snd_sublist q n l, pick_perm q n l⟩
    rw [pick_fst]
    exact (List.take_sublist _ _).trans List.filter_sublist
  have hlength : ∀ (q : Waiter → Bool) n l, (pick q n l).1.length ≤ n := by
    intro q n l
    rw [pick_fst]
    exact List.length_take_le n _
  obtain ⟨hlen, hwoke⟩ := wakeLoop_woke { s with keys := keys2 } (env.va2pa thread uaddr)
    FUTEX_BITSET_MATCH_ANY (currTime + applyRescheduleCost env executed true) (rounds nrWake)
  generalize hr : ({ s with keys := keys2 } : SyscallServer).wakeLoop (env.va2pa thread uaddr)
    FUTEX_BITSET_MATCH_ANY (currTime + applyRescheduleCost env executed true) (rounds nrWake) = r
    at hlen hwoke
  obtain ⟨hlen2, hwoke2⟩ := wakeLoop_woke r.2 (env.va2pa thread uaddr2) FUTEX_BITSET_MATCH_ANY
    (currTime + applyRescheduleCost env executed true) (if opRet = true then rounds nrWake2 else 0)
  generalize hr2 : r.2.wakeLoop (env.va2pa thread uaddr2) FUTEX_BITSET_MATCH_ANY
    (currTime + applyRescheduleCost env executed true)
    (if opRet = true then rounds nrWake2 else 0) = r2 at hlen2 hwoke2
  generalize hsplit : pick (fun w : Waiter => decide (FUTEX_BITSET_MATCH_ANY &&& w.mask ≠ 0))
    (rounds nrWake) (s.futexes (env.va2pa thread uaddr)) = l at hlen hwoke
  generalize hsplit2 : pick (fun w : Waiter => decide (FUTEX_BITSET_MATCH_ANY &&& w.mask ≠ 0))
    (if opRet = true then rounds nrWake2 else 0) (r.2.futexes (env.va2pa thread uaddr2)) = l2
    at hlen2 hwoke2
  have htable : r.2.table = s.table.wake (env.va2pa thread uaddr) l.1 l.2 := hwoke.table
  have hqueue : (s.table.wake (env.va2pa thread uaddr) l.1 l.2).queue = r.2.futexes :=
    (congrArg Futexes.queue htable).symm
  generalize hend : currTime + applyRescheduleCost env executed (decide (0 < r.1 + r2.1)) = endTime
  refine ⟨.returned (r.1 + r2.1 : Nat) endTime, r2.2, l.1, l.2, l2.1, l2.2, endTime, ?_, ?_, ?_, ?_, ?_, ?_, ?_⟩
  rotate_left 1
  · rw [← hsplit]
    exact hsplits _ _ _
  · rw [hqueue, ← hsplit2]
    exact hsplits _ _ _
  · rw [← hsplit]
    exact hlength _ _ _
  · rw [← hsplit2]
    refine Nat.le_trans (hlength _ _ _) ?_
    split
    · exact Nat.le_refl _
    · exact Nat.zero_le _
  · rw [hlen, hlen2]
  · rw [hwoke2.table, htable]
  · unfold futexWakeOp
    simp only [hfind, hfind2, hop]
    change Except.ok _ = _
    simp only [hr, hr2, hend]

/-- The waiters that `FUTEX_CMP_REQUEUE` wakes, and those it moves. -/
def requeueSplit (env : SyscallEnv) (s : SyscallServer) (c : FutexCall) :
    List Waiter × List Waiter :=
  pick (fun w => FUTEX_BITSET_MATCH_ANY &&& w.mask ≠ 0) (rounds c.args.val)
    (s.futexes (env.va2pa c.thread c.args.uaddr))

theorem futexCmpRequeue_table {c : FutexCall} (env : SyscallEnv) (s : SyscallServer)
    (hval : c.args.val3 = c.actVal) :
    (env.va2pa c.thread c.args.uaddr ≠ env.va2pa c.thread c.args.uaddr2 ∨
        (requeueSplit env s c).2 = [] →
      ∃ s', s.futexCmpRequeue env c.thread c.args.uaddr c.args.val c.args.uaddr2 c.args.val3
          c.actVal c.currTime = .ok (.returned (requeueSplit env s c).1.length c.currTime, s') ∧
        s'.table = (s.table.wake (env.va2pa c.thread c.args.uaddr) (requeueSplit env s c).1 []).join
          (env.va2pa c.thread c.args.uaddr2) (requeueSplit env s c).2) ∧
    (env.va2pa c.thread c.args.uaddr = env.va2pa c.thread c.args.uaddr2 →
        (requeueSplit env s c).2 ≠ [] →
      s.futexCmpRequeue env c.thread c.args.uaddr c.args.val c.args.uaddr2 c.args.val3
          c.actVal c.currTime = .error .requeueLoop) := by
  obtain ⟨keys, hfind, -⟩ := findFutexByUaddr_eq env s c.thread c.args.uaddr
  obtain ⟨hlen, hwoke⟩ := wakeLoop_woke { s with keys := keys } (env.va2pa c.thread c.args.uaddr)
    FUTEX_BITSET_MATCH_ANY c.currTime (rounds c.args.val)
  generalize hs₁ : (({ s with keys := keys } : SyscallServer).wakeLoop
    (env.va2pa c.thread c.args.uaddr) FUTEX_BITSET_MATCH_ANY c.currTime (rounds c.args.val)) = r at hlen hwoke
  obtain ⟨keys2, hfind2, -⟩ := findFutexByUaddr_eq env r.2 c.thread c.args.uaddr2
  have hrest : r.2.futexes (env.va2pa c.thread c.args.uaddr) = (requeueSplit env s c).2 := by
    rw [hwoke.futexes, Function.update_self]
    rfl
  have hcount : r.1 = (requeueSplit env s c).1.length := hlen
  have htable : r.2.table = s.table.wake (env.va2pa c.thread c.args.uaddr)
      (requeueSplit env s c).1 (requeueSplit env s c).2 := hwoke.table
  unfold futexCmpRequeue
  simp only [hfind, hval, ne_eq, not_true_eq_false, if_false, hs₁, hfind2]
  rw [hrest, hcount]
  constructor
  · intro hcond
    by_cases haddr : env.va2pa c.thread c.args.uaddr = env.va2pa c.thread c.args.uaddr2
    · have hnil : (requeueSplit env s c).2 = [] := hcond.resolve_left (by simp [haddr])
      have hloop : ({ r.2 with keys := keys2 } : SyscallServer).requeueLoop
          (env.va2pa c.thread c.args.uaddr) (env.va2pa c.thread c.args.uaddr2) 1 =
          some { r.2 with keys := keys2 } := by
        rw [hnil] at hrest
        simp [requeueLoop, requeueWaiter, hrest]
      rw [hnil, List.length_nil, Nat.zero_add, hloop]
      refine ⟨_, rfl, ?_⟩
      have hkeys : ({ r.2 with keys := keys2 } : SyscallServer).table = r.2.table := rfl
      rw [hkeys, htable, hnil, Futexes.join, List.append_nil, Function.update_eq_self]
    · obtain ⟨s', hs', hfut, hlog⟩ := requeueLoop_eq (s := { r.2 with keys := keys2 }) haddr hrest
      rw [hs']
      refine ⟨s', rfl, ?_⟩
      have hres : s'.table.resumed = r.2.table.resumed := by simp [table, hlog]
      have hqueue : r.2.futexes = (s.table.wake (env.va2pa c.thread c.args.uaddr)
          (requeueSplit env s c).1 (requeueSplit env s c).2).queue := congrArg Futexes.queue htable
      have hq' : s'.table.queue = ((s.table.wake (env.va2pa c.thread c.args.uaddr)
          (requeueSplit env s c).1 []).join (env.va2pa c.thread c.args.uaddr2)
          (requeueSplit env s c).2).queue := by
        have hne : env.va2pa c.thread c.args.uaddr2 ≠ env.va2pa c.thread c.args.uaddr :=
          fun heq => haddr heq.symm
        simp only [table, hfut, hqueue, Futexes.wake, Futexes.join, Function.update_idem,
          Function.update_of_ne hne]
      have hres' : s'.table.resumed = ((s.table.wake (env.va2pa c.thread c.args.uaddr)
          (requeueSplit env s c).1 []).join (env.va2pa c.thread c.args.uaddr2)
          (requeueSplit env s c).2).resumed := by
        rw [hres, htable]
        rfl
      exact congr (congrArg Futexes.mk hq') hres'
  · intro haddr hne
    have hloop := requeueLoop_same (s := { r.2 with keys := keys2 })
      ((requeueSplit env s c).2.length + 1) (by rw [← hrest] at hne; exact hne)
    rw [← haddr, hloop]

theorem Inv.futexWait {uaddr : Addr} {val actVal mask : CInt} {currTime timeoutTime : SubsecondTime}
    (h : s.Inv) (hfree : s.Free thread) :
    (s.futexWait env thread uaddr val actVal mask currTime timeoutTime).2.Inv := by
  obtain ⟨keys, hfind, hmem, hnodup, hsub⟩ := findFutexByUaddr_eq env s thread uaddr
  have hinv := h.withKeys hnodup hsub
  unfold SyscallServer.futexWait
  rw [hfind]
  dsimp only
  split
  · exact hinv
  · refine hinv.enqueue (p := .futex (env.va2pa thread uaddr)) ⟨hfree.running, hfree.inCall⟩ ?_
    rintro addr ⟨⟩
    exact hmem

theorem Inv.futexWake {uaddr : Addr} {nrWake mask : CInt} {executed : Bool}
    {currTime : SubsecondTime} (h : s.Inv) :
    (s.futexWake env thread uaddr nrWake mask executed currTime).2.Inv := by
  obtain ⟨keys, hfind, -, hnodup, hsub⟩ := findFutexByUaddr_eq env s thread uaddr
  unfold SyscallServer.futexWake
  rw [hfind]
  exact (h.withKeys hnodup hsub).wakeLoop _

theorem Inv.futexWakeOp {uaddr uaddr2 : Addr} {nrWake nrWake2 op oldval : CInt} {executed : Bool}
    {currTime : SubsecondTime} {answer : SyscallAnswer} (h : s.Inv)
    (hs : s.futexWakeOp env thread uaddr uaddr2 nrWake nrWake2 op oldval executed currTime =
      .ok (answer, s')) : s'.Inv := by
  obtain ⟨keys, hfind, -, hnodup, hsub⟩ := findFutexByUaddr_eq env s thread uaddr
  obtain ⟨keys2, hfind2, -, hnodup2, hsub2⟩ :=
    findFutexByUaddr_eq env { s with keys := keys } thread uaddr2
  have hinv : ({ s with keys := keys2 } : SyscallServer).Inv :=
    (h.withKeys hnodup hsub).withKeys hnodup2 hsub2
  unfold SyscallServer.futexWakeOp at hs
  simp only [hfind, hfind2] at hs
  cases hop : futexDoOp op oldval with
  | error e => rw [hop] at hs; cases hs
  | ok r =>
    rw [hop] at hs
    cases hs
    exact (hinv.wakeLoop _).wakeLoop _

theorem Inv.futexCmpRequeue {uaddr uaddr2 : Addr} {val val3 actVal : CInt}
    {currTime : SubsecondTime} {answer : SyscallAnswer} (h : s.Inv)
    (hs : s.futexCmpRequeue env thread uaddr val uaddr2 val3 actVal currTime = .ok (answer, s')) :
    s'.Inv := by
  obtain ⟨keys, hfind, -, hnodup, hsub⟩ := findFutexByUaddr_eq env s thread uaddr
  have hinv := h.withKeys hnodup hsub
  unfold SyscallServer.futexCmpRequeue at hs
  simp only [hfind] at hs
  split at hs
  · cases hs
    exact hinv
  · have hinv₁ : (({ s with keys := keys } : SyscallServer).wakeLoop (env.va2pa thread uaddr)
        FUTEX_BITSET_MATCH_ANY currTime (rounds val)).2.Inv := hinv.wakeLoop _
    generalize (({ s with keys := keys } : SyscallServer).wakeLoop (env.va2pa thread uaddr)
      FUTEX_BITSET_MATCH_ANY currTime (rounds val)) = r at hs hinv₁
    obtain ⟨keys2, hfind2, hmem2, hnodup2, hsub2⟩ := findFutexByUaddr_eq env r.2 thread uaddr2
    simp only [hfind2] at hs
    split at hs
    · cases hs
    · rename_i s₂ hs₂
      cases hs
      exact (hinv₁.withKeys hnodup2 hsub2).requeueLoop hmem2 hs₂

/-- Every permitted step keeps the invariant. -/
theorem Inv.perform {i : SyscallStep} {answer : SyscallAnswer} (h : s.Inv)
    (hok : s.permitted i = true) (hs : s.perform env i = .ok (answer, s')) : s'.Inv := by
  cases i with
  | futex c =>
    simp only [permitted, Bool.and_eq_true, Option.isNone_iff_eq_none] at hok
    simp only [SyscallServer.perform, handleFutexCall] at hs
    cases hcmd : FutexCmd.ofOp c.args.op with
    | none => simp [hcmd] at hs
    | some cmd =>
      rw [hcmd] at hs
      cases cmd with
      | wait | waitBitset =>
        have hs' : _ = s' := congrArg Prod.snd (Except.ok.inj hs)
        exact hs' ▸ h.futexWait ⟨hok.1, hok.2⟩
      | wake | wakeBitset =>
        have hs' : _ = s' := congrArg Prod.snd (Except.ok.inj hs)
        exact hs' ▸ h.futexWake
      | wakeOp => exact h.futexWakeOp hs
      | cmpRequeue =>
        dsimp only at hs
        split at hs
        · cases hs
        · exact h.futexCmpRequeue hs
  | sleep t wakeTime =>
    simp only [permitted, Bool.and_eq_true, Option.isNone_iff_eq_none] at hok
    cases hs
    exact h.enqueue (p := .sleeping) (w := ⟨t, 0, wakeTime⟩) ⟨hok.1, hok.2⟩ (by simp)
  | returns t =>
    simp only [permitted, Bool.and_eq_true] at hok
    exact h.finish hok.1 hs
  | periodic time order =>
    cases hs
    exact h.futexPeriodic

/-- The condition under which a futex call does what Linux does: the waiters that are woken first
have a bit in their masks, and with `FUTEX_WAKE_BITSET` one of the bits given; waiters are moved
to a futex other than the one where they are. -/
def Conforms (env : SyscallEnv) (s : SyscallServer) : SyscallStep → Prop
  | .futex c =>
    let waiting := s.futexes (env.va2pa c.thread c.args.uaddr)
    let nr := rounds c.args.val
    match FutexCmd.ofOp c.args.op with
    | some .wake => ∀ w ∈ waiting.take nr, w.mask ≠ 0
    | some .wakeBitset =>
      ∀ w ∈ (waiting.filter fun w => w.mask ≠ 0).take nr, c.args.val3 &&& w.mask ≠ 0
    | some .cmpRequeue => c.args.val3 = c.actVal →
      (∀ w ∈ waiting.take nr, w.mask ≠ 0) ∧
        (env.va2pa c.thread c.args.uaddr ≠ env.va2pa c.thread c.args.uaddr2 ∨ waiting.length ≤ nr)
    | _ => True
  | _ => True

/-- The assertions of the call pass. -/
def Accepted : SyscallStep → Prop
  | .futex c =>
    match FutexCmd.ofOp c.args.op with
    | none => False
    | some .wakeOp => ∃ r, futexDoOp c.args.val3 c.oldVal = .ok r
    | some .cmpRequeue => c.args.uaddr ≠ c.args.uaddr2
    | some _ => True
  | _ => True

/-- The step returns, and Linux would have done the same. -/
def FollowsLinux (env : SyscallEnv) (s : SyscallServer) (i : SyscallStep) : Prop :=
  ∃ answer s', s.perform env i = .ok (answer, s') ∧ (linux env).step s.table i answer s'.table

/-- `FUTEX_WAKE` wakes the first waiters, whatever their masks. -/
theorem Inv.wake_followsLinux_iff {c : FutexCall} (h : s.Inv)
    (hcmd : FutexCmd.ofOp c.args.op = some .wake) :
    FollowsLinux env s (.futex c) ↔ Conforms env s (.futex c) := by
  obtain ⟨⟨endTime, hans⟩, htable⟩ := futexWake_table env s c.thread
    c.args.uaddr c.args.val FUTEX_BITSET_MATCH_ANY c.executed c.currTime
  have hperform : s.perform env (.futex c) = .ok (s.futexWake env c.thread c.args.uaddr c.args.val
      FUTEX_BITSET_MATCH_ANY c.executed c.currTime) := by
    simp [SyscallServer.perform, handleFutexCall, hcmd]
  generalize s.futexWake env c.thread c.args.uaddr c.args.val FUTEX_BITSET_MATCH_ANY c.executed
    c.currTime = r at hans htable hperform
  obtain ⟨answer, s'⟩ := r
  simp only [FollowsLinux, hperform, Conforms, hcmd, linux, Futexes.step, Futexes.call]
  rw [← h.wake_first_iff ((s.futexes (env.va2pa c.thread c.args.uaddr)).drop
    (rounds c.args.val))]
  constructor
  · rintro ⟨_, _, heq, -, hwake⟩
    cases heq
    rw [← htable]
    exact congrArg Futexes.resumed hwake
  · intro hres
    have hall := (h.wake_first_iff _).mp hres
    have hpick : pick (fun w => decide (FUTEX_BITSET_MATCH_ANY &&& w.mask ≠ 0)) (rounds c.args.val)
        (s.futexes (env.va2pa c.thread c.args.uaddr)) = _ :=
      pick_eq_take (by simpa [match_any] using hall)
    rw [hpick] at hans htable
    exact ⟨answer, s', rfl, ⟨endTime, by simpa [table] using hans⟩, htable⟩

/-- `FUTEX_WAKE_BITSET` does the same, and its mask is not looked at. -/
theorem Inv.wakeBitset_followsLinux_iff {c : FutexCall} (h : s.Inv)
    (hcmd : FutexCmd.ofOp c.args.op = some .wakeBitset) :
    FollowsLinux env s (.futex c) ↔ Conforms env s (.futex c) := by
  obtain ⟨⟨endTime, hans⟩, htable⟩ := futexWake_table env s c.thread
    c.args.uaddr c.args.val FUTEX_BITSET_MATCH_ANY c.executed c.currTime
  have hperform : s.perform env (.futex c) = .ok (s.futexWake env c.thread c.args.uaddr c.args.val
      FUTEX_BITSET_MATCH_ANY c.executed c.currTime) := by
    simp [SyscallServer.perform, handleFutexCall, hcmd]
  generalize s.futexWake env c.thread c.args.uaddr c.args.val FUTEX_BITSET_MATCH_ANY c.executed
    c.currTime = r at hans htable hperform
  obtain ⟨answer, s'⟩ := r
  simp only [match_any] at hans htable
  simp only [FollowsLinux, hperform, Conforms, hcmd, linux, Futexes.step, Futexes.call]
  rw [← pick_fst]
  constructor
  · rintro ⟨_, _, heq, -, hwake⟩ w hw
    cases heq
    rw [htable] at hwake
    have hinj := h.woken_inj (fun w hw => pick_fst_subset w hw) (fun w hw => pick_fst_subset w hw)
      (congrArg Futexes.resumed hwake)
    rw [hinj] at hw
    simpa using pick_fst_match w hw
  · intro hall
    have hweak : ∀ w : Waiter, decide (c.args.val3 &&& w.mask ≠ 0) = true →
        decide (w.mask ≠ 0) = true := by
      intro w hw
      simp only [decide_eq_true_eq] at hw ⊢
      intro hzero
      simp [hzero] at hw
    have hpick := pick_congr hweak fun w hw => decide_eq_true (hall w hw)
    rw [← hpick] at hans htable
    exact ⟨answer, s', rfl, ⟨endTime, hans⟩, htable⟩

/-- `FUTEX_CMP_REQUEUE` wakes the first waiters, whatever their masks, and moves the rest, if it
has somewhere else to move them. -/
theorem Inv.cmpRequeue_followsLinux_iff {c : FutexCall} (h : s.Inv)
    (hcmd : FutexCmd.ofOp c.args.op = some .cmpRequeue) (hacc : c.args.uaddr ≠ c.args.uaddr2) :
    FollowsLinux env s (.futex c) ↔ Conforms env s (.futex c) := by
  have hperform : s.perform env (.futex c) = s.futexCmpRequeue env c.thread c.args.uaddr c.args.val
      c.args.uaddr2 c.args.val3 c.actVal c.currTime := by
    simp [SyscallServer.perform, handleFutexCall, hcmd, hacc]
  simp only [FollowsLinux, hperform, Conforms, hcmd, linux, Futexes.step, Futexes.call]
  by_cases hval : c.args.val3 = c.actVal
  · obtain ⟨hmoves, hloops⟩ := futexCmpRequeue_table env s hval
    simp only [hval, if_true, true_imp_iff] at hmoves hloops ⊢
    have hsplit : (∀ w ∈ (s.futexes (env.va2pa c.thread c.args.uaddr)).take (rounds c.args.val),
        w.mask ≠ 0) → requeueSplit env s c =
          ((s.futexes (env.va2pa c.thread c.args.uaddr)).take (rounds c.args.val),
            (s.futexes (env.va2pa c.thread c.args.uaddr)).drop (rounds c.args.val)) :=
      fun hall => pick_eq_take (by simpa [match_any] using hall)
    constructor
    · rintro ⟨answer, s', hrun, -, htable'⟩
      have hcond : env.va2pa c.thread c.args.uaddr ≠ env.va2pa c.thread c.args.uaddr2 ∨
          (requeueSplit env s c).2 = [] := by
        by_contra hnot
        simp only [not_or, not_not] at hnot
        rw [hloops hnot.1 hnot.2] at hrun
        cases hrun
      obtain ⟨s₁, hs₁, htable⟩ := hmoves hcond
      rw [hs₁] at hrun
      cases hrun
      rw [htable'] at htable
      have hall := (h.wake_first_iff []).mp (congrArg Futexes.resumed htable).symm
      refine ⟨hall, hcond.imp_right fun hnil => ?_⟩
      rw [hsplit hall] at hnil
      exact List.drop_eq_nil_iff.mp hnil
    · rintro ⟨hall, hcond⟩
      rw [hsplit hall] at hmoves
      obtain ⟨s₁, hs₁, htable⟩ := hmoves (hcond.imp_right List.drop_eq_nil_of_le)
      exact ⟨_, s₁, hs₁, ⟨c.currTime, by simp [table]⟩, htable⟩
  · obtain ⟨keys, hfind, -⟩ := findFutexByUaddr_eq env s c.thread c.args.uaddr
    have hrun : s.futexCmpRequeue env c.thread c.args.uaddr c.args.val c.args.uaddr2 c.args.val3
        c.actVal c.currTime = .ok (.returned (-EWOULDBLOCK) c.currTime, { s with keys := keys }) := by
      simp [SyscallServer.futexCmpRequeue, hfind, hval]
    simp only [hval, if_false, false_imp_iff, iff_true]
    exact ⟨_, _, hrun, rfl, rfl⟩

theorem wait_followsLinux {c : FutexCall} {cmd : FutexCmd}
    (hcmd : FutexCmd.ofOp c.args.op = some cmd) (hwait : cmd = .wait ∨ cmd = .waitBitset) :
    FollowsLinux env s (.futex c) := by
  obtain ⟨hans, htable⟩ := futexWait_table env s c.thread c.args.uaddr c.args.val c.actVal
    (if cmd = .waitBitset then c.args.val3 else FUTEX_BITSET_MATCH_ANY) c.currTime
    (timeoutTime env cmd c.args.timeout c.currTime)
  have hperform : s.perform env (.futex c) = .ok (s.futexWait env c.thread c.args.uaddr c.args.val
      c.actVal (if cmd = .waitBitset then c.args.val3 else FUTEX_BITSET_MATCH_ANY) c.currTime
      (timeoutTime env cmd c.args.timeout c.currTime)) := by
    rcases hwait with rfl | rfl <;> simp only [SyscallServer.perform, handleFutexCall, hcmd]
  generalize s.futexWait env c.thread c.args.uaddr c.args.val c.actVal
    (if cmd = .waitBitset then c.args.val3 else FUTEX_BITSET_MATCH_ANY) c.currTime
    (timeoutTime env cmd c.args.timeout c.currTime) = r at hans htable hperform
  obtain ⟨answer, s'⟩ := r
  dsimp only at hans htable
  refine ⟨answer, s', hperform, ?_⟩
  rw [hans, htable]
  rcases hwait with rfl | rfl <;>
    simp only [linux, Futexes.step, Futexes.call, hcmd, Futexes.Waits] <;>
    split <;> simp

theorem wakeOp_followsLinux {c : FutexCall} (hcmd : FutexCmd.ofOp c.args.op = some .wakeOp)
    (hop : ∃ r, futexDoOp c.args.val3 c.oldVal = .ok r) : FollowsLinux env s (.futex c) := by
  obtain ⟨answer, s', woken, rest, woken2, rest2, endTime, hrun, h₁, h₂, h₃, h₄, h₅, h₆⟩ :=
    futexWakeOp_table env s c.thread c.args.uaddr c.args.uaddr2 c.args.val c.args.val2 c.executed
      c.currTime hop
  refine ⟨answer, s', ?_, ?_⟩
  · simpa only [SyscallServer.perform, handleFutexCall, hcmd] using hrun
  · simp only [linux, Futexes.step, Futexes.call, hcmd]
    exact ⟨woken, rest, woken2, rest2, endTime, h₁, h₂, h₃, h₄, h₅, h₆⟩

/-- Each step of the server follows Linux if and only if it conforms. -/
theorem Inv.followsLinux_iff {i : SyscallStep} (h : s.Inv) (hok : s.permitted i = true)
    (hacc : Accepted i) : FollowsLinux env s i ↔ Conforms env s i := by
  cases i with
  | futex c =>
    cases hcmd : FutexCmd.ofOp c.args.op with
    | none => simp [Accepted, hcmd] at hacc
    | some cmd =>
      cases cmd with
      | wait => exact iff_of_true (wait_followsLinux hcmd (.inl rfl)) (by simp [Conforms, hcmd])
      | waitBitset => exact iff_of_true (wait_followsLinux hcmd (.inr rfl)) (by simp [Conforms, hcmd])
      | wake => exact h.wake_followsLinux_iff hcmd
      | wakeBitset => exact h.wakeBitset_followsLinux_iff hcmd
      | wakeOp =>
        have hop : ∃ r, futexDoOp c.args.val3 c.oldVal = .ok r := by simpa [Accepted, hcmd] using hacc
        exact iff_of_true (wakeOp_followsLinux hcmd hop) (by simp [Conforms, hcmd])
      | cmpRequeue =>
        exact h.cmpRequeue_followsLinux_iff hcmd (by simpa [Accepted, hcmd] using hacc)
  | sleep t wakeTime =>
    refine iff_of_true ⟨_, _, rfl, ?_⟩ trivial
    simp [linux, Futexes.step, table, stallThread, WaitEvent.toResumption]
  | returns t =>
    simp only [permitted, Bool.and_eq_true] at hok
    obtain ⟨place, hplace⟩ := Option.isSome_iff_exists.mp hok.2
    have hfin : ∃ answer, s.finish t =
        .ok (answer, { s with inCall := Function.update s.inCall t none }) := by
      cases place <;> simp [SyscallServer.finish, hplace]
    obtain ⟨answer, hans⟩ := hfin
    exact iff_of_true ⟨answer, _, hans, rfl⟩ trivial
  | periodic time order =>
    simp only [permitted, decide_eq_true_eq] at hok
    exact iff_of_true ⟨_, _, rfl, table_futexPeriodic h hok⟩ trivial

/-- A call that returns has passed its assertions. -/
theorem accepted_of_perform {i : SyscallStep} {answer : SyscallAnswer}
    (hs : s.perform env i = .ok (answer, s')) : Accepted i := by
  cases i with
  | futex c =>
    simp only [SyscallServer.perform, handleFutexCall] at hs
    simp only [Accepted]
    cases hcmd : FutexCmd.ofOp c.args.op with
    | none => simp [hcmd] at hs
    | some cmd =>
      rw [hcmd] at hs
      cases cmd with
      | wakeOp =>
        dsimp only [futexWakeOp] at hs
        cases hop : futexDoOp c.args.val3 c.oldVal with
        | error e => rw [hop] at hs; cases hs
        | ok r => exact ⟨r, rfl⟩
      | cmpRequeue =>
        intro heq
        simp [heq] at hs
      | _ => trivial
  | _ => trivial

/-- The threads that wait: each in one queue, and resumed once. -/
structure Placed (s : SyscallServer) : Prop where
  /-- The stalled threads are those that stand in a queue, in one of them, once. -/
  stalled : ∀ t, s.threads.isThreadStalled t = true ↔ ∃ p, ∃ w ∈ s.queue p, w.thread = t
  onePlace : ∀ p p' w w', w ∈ s.queue p → w' ∈ s.queue p' → w.thread = w'.thread → p = p'
  once : ∀ p, ((s.queue p).map Waiter.thread).Nodup
  /-- Those in a futex call stand at a futex. -/
  atFutex : ∀ t a, s.threads.isThreadStalled t = true → s.inCall t = some (.futex a) →
    ∃ addr, ∃ w ∈ s.futexes addr, w.thread = t
  /-- A thread stalls and is resumed in turn, so that every stall but a pending one was ended by
  one resumption. -/
  inOrder : ∀ t, alternate (WaitEvent.isStall t) (WaitEvent.isResume t) false s.log =
    some (s.threads.isThreadStalled t)
  resumedOnce : ∀ t, s.log.countP (WaitEvent.isStall t) =
    s.log.countP (WaitEvent.isResume t) + (s.threads.isThreadStalled t).toNat

theorem Inv.placed (h : s.Inv) : Placed s := by
  constructor
  case stalled => exact h.stalled
  case onePlace => exact h.apart.alone
  case once => exact h.apart.once
  case atFutex =>
    intro t a hst hcall
    obtain ⟨p, w, hw, rfl⟩ := (h.stalled t).mp hst
    have hkind := h.called p w hw
    cases p with
    | sleeping => simp [hcall, Place.isFutex] at hkind
    | futex addr => exact ⟨addr, w, hw, rfl⟩
  case inOrder => exact h.inOrder
  case resumedOnce =>
    intro t
    have hne : ∀ e : WaitEvent, e.isStall t = true → e.isResume t = false := by
      rintro (_ | _) hst
      · rfl
      · cases hst
    simpa using alternate_count hne (h.inOrder t)

/-- All threads running. -/
def start : SyscallServer :=
  ⟨[], fun _ => [], [], ⟨fun _ => ⟨.running, .unscheduled, 0, false⟩⟩, fun _ => none, []⟩

theorem start_fresh : Fresh start := ⟨rfl, rfl, rfl, fun _ => rfl, rfl, rfl⟩

/-- Addresses are physical ones. -/
def plainEnv : SyscallEnv := ⟨fun _ addr => addr, 0, 1000⟩

def futexCall (thread : ThreadId) (uaddr : Addr) (op val val3 : CInt) (uaddr2 : Addr) : FutexCall :=
  ⟨thread, ⟨uaddr, op, val, none, 0, uaddr2, val3⟩, val, 0, true, 100⟩

/-- Two threads wait at 64 for different bits and are moved to 72, where one is woken. -/
def moved : List SyscallStep :=
  [.futex (futexCall 0 64 9 5 1 0), .futex (futexCall 1 64 9 5 2 0),
    .futex (futexCall 2 64 4 0 0 72), .futex (futexCall 2 72 1 1 0 0), .returns 0,
    .periodic 200 [72, 64], .sleep 2 300, .periodic 300 [64, 72]]

end SyscallServer

end Sniper.System.Syscall
