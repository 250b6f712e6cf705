import Sniper.System.Timeouts
import Mathlib.Data.Int.ModEq
import Mathlib.Tactic.Ring
set_option autoImplicit false

/-! The timeouts of futex calls: what a call asks for, and when a waiter is woken that is not woken
otherwise. -/

namespace Sniper.System.Syscall
open Sniper.Lib

/-- The time that a call asks for: so long after the call, or, for `FUTEX_WAIT_BITSET`, a time of the
emulated clock. -/
def askedTimeout (env : SyscallEnv) (cmd : FutexCmd) (ts : Timespec) (currTime : SubsecondTime) :
    Int :=
  if cmd = .waitBitset then (ts.sec.toInt - env.osEmuTimeStart.toInt) * 10 ^ 15 +
    ts.nsec.toInt * 10 ^ 6
  else currTime + ts.sec.toInt * 10 ^ 15 + ts.nsec.toInt * 10 ^ 6

/-- The time is a number of 64 bits. -/
structure InRange (t : Int) : Prop where
  nonneg : 0 ≤ t
  lt : t < 2 ^ 64

theorem toNat_modEq (x : BitVec 64) : (x.toNat : Int) ≡ x.toInt [ZMOD 2 ^ 64] := by
  rw [BitVec.toInt_eq_toNat_bmod]
  exact (Int.bmod_emod (m := 2 ^ 64)).symm

/-- The arithmetic of 64 bits. -/
theorem timeoutVal_modEq (env : SyscallEnv) (ts : Timespec) :
    (((ts.sec - env.osEmuTimeStart) * BitVec.ofNat 64 (10 ^ 15) +
      ts.nsec * BitVec.ofNat 64 (10 ^ 6)).toNat : Int) ≡
      (ts.sec.toInt - env.osEmuTimeStart.toInt) * 10 ^ 15 + ts.nsec.toInt * 10 ^ 6
        [ZMOD 2 ^ 64] := by
  refine (toNat_modEq _).trans ?_
  rw [BitVec.toInt_add, BitVec.toInt_mul, BitVec.toInt_mul, BitVec.toInt_sub]
  have hbmod : ∀ i : Int, i.bmod (2 ^ 64) ≡ i [ZMOD 2 ^ 64] := fun i => Int.bmod_emod
  have hsec : (BitVec.ofNat 64 (10 ^ 15)).toInt = 10 ^ 15 := by decide
  have hnsec : (BitVec.ofNat 64 (10 ^ 6)).toInt = 10 ^ 6 := by decide
  rw [hsec, hnsec]
  exact (hbmod _).trans (((hbmod _).trans ((hbmod _).mul_right _)).add (hbmod _))

/-- The start of the emulated time is taken off a relative time as well. -/
theorem timeoutTime_modEq (env : SyscallEnv) (cmd : FutexCmd) (ts : Timespec)
    (currTime : SubsecondTime) :
    (SyscallServer.timeoutTime env cmd (some ts) currTime : Int) ≡ askedTimeout env cmd ts currTime -
      (if cmd = .waitBitset then 0 else env.osEmuTimeStart.toInt * 10 ^ 15) [ZMOD 2 ^ 64] := by
  rw [SyscallServer.timeoutTime, askedTimeout]
  split
  · rw [Int.sub_zero]
    exact timeoutVal_modEq env ts
  · rw [Int.natCast_emod, Int.natCast_add]
    refine (Int.mod_modEq _ _).trans (((Int.ModEq.refl _).add (timeoutVal_modEq env ts)).trans ?_)
    exact congrArg (· % 2 ^ 64) (by ring)

theorem timeoutTime_lt (env : SyscallEnv) (cmd : FutexCmd) (ts : Timespec)
    (currTime : SubsecondTime) : SyscallServer.timeoutTime env cmd (some ts) currTime < 2 ^ 64 := by
  rw [SyscallServer.timeoutTime]
  split
  · exact BitVec.isLt _
  · exact Nat.mod_lt _ (by decide)

/-- A second is fifteen times a multiple of two in the units of time. -/
theorem seconds_dvd_iff (x : BitVec 64) :
    (2 ^ 64 : Int) ∣ x.toInt * 10 ^ 15 ↔ 2 ^ 49 ∣ x.toNat := by
  have hsplit : x.toInt * 10 ^ 15 = 2 ^ 15 * (x.toInt * 5 ^ 15) := by ring
  have hpow : (2 ^ 64 : Int) = 2 ^ 15 * 2 ^ 49 := by norm_num
  rw [hsplit, hpow, Int.mul_dvd_mul_iff_left (by norm_num)]
  have hseconds : (2 ^ 49 : Int) ∣ x.toInt * 5 ^ 15 ↔ (2 ^ 49 : Int) ∣ x.toInt :=
    ⟨fun h => Int.dvd_of_dvd_mul_left_of_gcd_one h (by decide), fun h => h.mul_right _⟩
  rw [hseconds, BitVec.toInt_eq_toNat_cond]
  split <;> omega

theorem timeoutTime_eq_iff {env : SyscallEnv} {cmd : FutexCmd} {ts : Timespec}
    {currTime : SubsecondTime} (hrange : InRange (askedTimeout env cmd ts currTime)) :
    (SyscallServer.timeoutTime env cmd (some ts) currTime : Int) = askedTimeout env cmd ts currTime ↔
      cmd = .waitBitset ∨ 2 ^ 49 ∣ env.osEmuTimeStart.toNat := by
  have hmod := timeoutTime_modEq env cmd ts currTime
  have hlt : (SyscallServer.timeoutTime env cmd (some ts) currTime : Int) < 2 ^ 64 := by
    exact_mod_cast timeoutTime_lt env cmd ts currTime
  have hequal : (SyscallServer.timeoutTime env cmd (some ts) currTime : Int) =
        askedTimeout env cmd ts currTime ↔
      (2 ^ 64 : Int) ∣ if cmd = .waitBitset then 0 else env.osEmuTimeStart.toInt * 10 ^ 15 := by
    have hdvd := hmod.dvd
    obtain ⟨hnonneg, hsmall⟩ := hrange
    generalize (if cmd = FutexCmd.waitBitset then (0 : Int) else env.osEmuTimeStart.toInt * 10 ^ 15) =
      start at hdvd ⊢
    generalize askedTimeout env cmd ts currTime = asked at *
    generalize SyscallServer.timeoutTime env cmd (some ts) currTime = given at *
    constructor
    · intro heq
      omega
    · intro hstart
      omega
  rw [hequal]
  by_cases hcmd : cmd = .waitBitset
  · simp [hcmd]
  · rw [if_neg hcmd, seconds_dvd_iff]
    simp [hcmd]

namespace SyscallServer

variable {env : SyscallEnv} {s s' : SyscallServer} {c : FutexCall} {addr : Addr} {w : Waiter}

/-- A call that waits gives its waiter the time that it asks for. -/
def GivesTimeout (env : SyscallEnv) (s : SyscallServer) (c : FutexCall) : Prop :=
  ∀ cmd ts, FutexCmd.ofOp c.args.op = some cmd → cmd = .wait ∨ cmd = .waitBitset →
    c.args.timeout = some ts → c.args.val = c.actVal →
    InRange (askedTimeout env cmd ts c.currTime) →
    ∃ s' w, s.handleFutexCall env c = .ok (.stalls, s') ∧
      s'.futexes (env.va2pa c.thread c.args.uaddr) =
        s.futexes (env.va2pa c.thread c.args.uaddr) ++ [w] ∧
      w.thread = c.thread ∧ (w.timeout : Int) = askedTimeout env cmd ts c.currTime

/-- A call of `FUTEX_WAIT` that waits, for a time that is in range. -/
def RelativeWait (env : SyscallEnv) (c : FutexCall) : Prop :=
  FutexCmd.ofOp c.args.op = some .wait ∧ c.args.val = c.actVal ∧
    ∃ ts, c.args.timeout = some ts ∧ InRange (askedTimeout env .wait ts c.currTime)

theorem handleFutexCall_waits (env : SyscallEnv) (s : SyscallServer) {cmd : FutexCmd}
    (hcmd : FutexCmd.ofOp c.args.op = some cmd)
    (hwait : cmd = .wait ∨ cmd = .waitBitset) (hval : c.args.val = c.actVal) :
    ∃ s' w, s.handleFutexCall env c = .ok (.stalls, s') ∧
      s'.futexes (env.va2pa c.thread c.args.uaddr) =
        s.futexes (env.va2pa c.thread c.args.uaddr) ++ [w] ∧
      w.thread = c.thread ∧ w.timeout = timeoutTime env cmd c.args.timeout c.currTime := by
  have hqueue : ∀ mask time, ∃ s',
      s.futexWait env c.thread c.args.uaddr c.args.val c.actVal mask c.currTime time =
        (.stalls, s') ∧ s'.futexes (env.va2pa c.thread c.args.uaddr) =
        s.futexes (env.va2pa c.thread c.args.uaddr) ++ [⟨c.thread, mask, time⟩] := by
    intro mask time
    obtain ⟨hanswer, htable⟩ := futexWait_table env s c.thread c.args.uaddr c.args.val c.actVal mask
      c.currTime time
    rw [if_pos hval] at hanswer htable
    refine ⟨_, Prod.ext hanswer rfl, ?_⟩
    have hjoined := congrFun (congrArg Futexes.queue htable) (env.va2pa c.thread c.args.uaddr)
    simpa [table, Futexes.join] using hjoined
  obtain ⟨s', hcall, hlast⟩ := hqueue (if cmd = .waitBitset then c.args.val3
    else FUTEX_BITSET_MATCH_ANY) (timeoutTime env cmd c.args.timeout c.currTime)
  refine ⟨s', _, ?_, hlast, rfl, rfl⟩
  rw [handleFutexCall, hcmd]
  rcases hwait with rfl | rfl
  · exact congrArg Except.ok hcall
  · exact congrArg Except.ok hcall

theorem givesTimeout_iff (env : SyscallEnv) (s : SyscallServer) (c : FutexCall) :
    GivesTimeout env s c ↔ (RelativeWait env c → 2 ^ 49 ∣ env.osEmuTimeStart.toNat) := by
  constructor
  · rintro hgives ⟨hcmd, hval, ts, hts, hrange⟩
    obtain ⟨s', w, hcall, hqueue, -, htime⟩ := hgives .wait ts hcmd (.inl rfl) hts hval hrange
    obtain ⟨s₁, w₁, hcall₁, hqueue₁, -, htime₁⟩ := handleFutexCall_waits env s hcmd
      (.inl rfl) hval
    have hsame : s₁ = s' := congrArg Prod.snd (Except.ok.inj (hcall₁.symm.trans hcall))
    subst hsame
    have hw : w₁ = w := List.singleton_inj.mp (List.append_cancel_left (hqueue₁.symm.trans hqueue))
    subst hw
    rw [htime₁, hts, timeoutTime_eq_iff hrange] at htime
    exact htime.resolve_left (by decide)
  · intro hstart cmd ts hcmd hwait hts hval hrange
    obtain ⟨s', w, hcall, hqueue, hthread, htime⟩ := handleFutexCall_waits env s hcmd
      hwait hval
    refine ⟨s', w, hcall, hqueue, hthread, ?_⟩
    rw [htime, hts, timeoutTime_eq_iff hrange]
    rcases hwait with rfl | rfl
    · exact .inr (hstart ⟨hcmd, hval, ts, hts, hrange⟩)
    · exact .inl rfl

/-! ### When the waiters are woken -/

/-- A periodic event lets a waiter time out only when its time has come. -/
def NeverEarly (s : SyscallServer) : Prop :=
  ∀ time order, order.Perm s.keys → ∃ woken,
    (s.futexPeriodic time order).table.resumed = s.table.resumed ++ woken ∧
      ∀ addr thread msg, (addr, thread, msg) ∈ woken →
        msg = false ∧ ∃ w ∈ s.futexes addr, w.thread = thread ∧ w.timeout ≤ time

theorem Inv.neverEarly (h : s.Inv) : NeverEarly s := by
  intro time order horder
  refine ⟨_, congrArg Futexes.resumed (table_futexPeriodic h horder), ?_⟩
  intro addr thread msg hmem
  obtain ⟨addr', -, hfound⟩ := List.mem_filterMap.mp hmem
  obtain ⟨w, hfind, heq⟩ := Option.map_eq_some_iff.mp hfound
  cases heq
  have htime := List.find?_some hfind
  exact ⟨rfl, w, List.mem_of_find?_eq_some hfind, rfl, of_decide_eq_true htime⟩

/-- Some have left a queue, and others have joined it at the end. -/
def Follows (l l' : List Waiter) : Prop :=
  ∃ kept joined, l' = kept ++ joined ∧ kept.Sublist l ∧ ∀ w ∈ joined, w ∉ l

theorem Follows.of_sublist {l l' : List Waiter} (h : l'.Sublist l) : Follows l l' :=
  ⟨l', [], (List.append_nil l').symm, h, fun _ hw => absurd hw List.not_mem_nil⟩

theorem Follows.wake {f : Futexes} {woken rest : List Waiter} (h : rest.Sublist (f.queue addr))
    (addr' : Addr) : ((f.wake addr woken rest).queue addr').Sublist (f.queue addr') := by
  simp only [Futexes.wake]
  by_cases haddr : addr' = addr
  · subst haddr
    rwa [Function.update_self]
  · rw [Function.update_of_ne haddr]

theorem Follows.join {f : Futexes} {waiters : List Waiter} {l : Addr → List Waiter}
    (h : ∀ a, (f.queue a).Sublist (l a)) (hnew : ∀ w ∈ waiters, w ∉ l addr) (addr' : Addr) :
    Follows (l addr') ((f.join addr waiters).queue addr') := by
  simp only [Futexes.join]
  by_cases haddr : addr' = addr
  · subst haddr
    rw [Function.update_self]
    exact ⟨f.queue addr', waiters, rfl, h addr', hnew⟩
  · rw [Function.update_of_ne haddr]
    exact .of_sublist (h addr')

/-- No step puts anyone before those who wait for a futex. -/
theorem Inv.follows {i : SyscallStep} {answer : SyscallAnswer} (h : s.Inv)
    (hok : s.permitted i = true) (hs : s.perform env i = .ok (answer, s')) (addr : Addr) :
    Follows (s.futexes addr) (s'.futexes addr) := by
  have hacc := accepted_of_perform hs
  cases i with
  | futex c =>
    simp only [permitted, Bool.and_eq_true, Option.isNone_iff_eq_none] at hok
    simp only [SyscallServer.perform, handleFutexCall] at hs
    have hsame : ∀ a, (s.table.queue a).Sublist (s.futexes a) := fun a => List.Sublist.refl _
    cases hcmd : FutexCmd.ofOp c.args.op with
    | none => simp [hcmd] at hs
    | some cmd =>
      rw [hcmd] at hs
      cases cmd with
      | wait | waitBitset =>
        have hs' : _ = s' := congrArg Prod.snd (Except.ok.inj hs)
        rw [← hs']
        change Follows _ ((SyscallServer.table _).queue addr)
        rw [(futexWait_table env s c.thread c.args.uaddr c.args.val c.actVal _ c.currTime _).2]
        split
        · refine Follows.join hsame (fun w hw hmem => ?_) addr
          rw [List.mem_singleton] at hw
          refine Free.not_waits ⟨hok.1, hok.2⟩ h ⟨.futex _, w, hmem, ?_⟩
          rw [hw]
        · exact .of_sublist (hsame addr)
      | wake | wakeBitset =>
        have hs' : _ = s' := congrArg Prod.snd (Except.ok.inj hs)
        rw [← hs']
        change Follows _ ((SyscallServer.table _).queue addr)
        rw [(futexWake_table env s c.thread c.args.uaddr c.args.val _ c.executed c.currTime).2]
        exact .of_sublist (Follows.wake (pick_snd_sublist _ _ _) addr)
      | wakeOp =>
        have hop : ∃ r, futexDoOp c.args.val3 c.oldVal = .ok r := by
          simpa only [Accepted, hcmd] using hacc
        obtain ⟨answer', s₁, woken, rest, woken2, rest2, endTime, hcall, hsplit, hsplit2, -, -, -,
          htable⟩ := futexWakeOp_table env s c.thread c.args.uaddr c.args.uaddr2 c.args.val c.args.val2
            c.executed c.currTime hop
        have hs' : s₁ = s' := congrArg Prod.snd (Except.ok.inj (hcall.symm.trans hs))
        rw [← hs']
        change Follows _ (s₁.table.queue addr)
        rw [htable]
        exact .of_sublist ((Follows.wake hsplit2.right addr).trans (Follows.wake hsplit.right addr))
      | cmpRequeue =>
        dsimp only at hs
        split at hs
        · cases hs
        · by_cases hval : c.args.val3 = c.actVal
          · obtain ⟨htable, hloop⟩ := futexCmpRequeue_table env s hval
            have happart : env.va2pa c.thread c.args.uaddr ≠ env.va2pa c.thread c.args.uaddr2 ∨
                (requeueSplit env s c).2 = [] := by
              by_contra hcon
              obtain ⟨haddr, hne⟩ := not_or.mp hcon
              cases (hloop (not_not.mp haddr) hne).symm.trans hs
            obtain ⟨s₁, hcall, htable⟩ := htable happart
            have hs' : s₁ = s' := congrArg Prod.snd (Except.ok.inj (hcall.symm.trans hs))
            rw [← hs']
            change Follows _ (s₁.table.queue addr)
            rw [htable]
            refine Follows.join (Follows.wake (List.nil_sublist _)) (fun w hw hmem => ?_) addr
            have hfrom := (pick_snd_sublist _ _ _).subset hw
            rcases happart with hne | hnil
            · exact hne (Place.futex.inj (h.apart.alone (.futex _) (.futex _) w w hfrom hmem rfl))
            · rw [hnil] at hw
              exact absurd hw List.not_mem_nil
          · obtain ⟨keys, hfind, -⟩ := findFutexByUaddr_eq env s c.thread c.args.uaddr
            unfold SyscallServer.futexCmpRequeue at hs
            simp only [hfind, ne_eq, hval, not_false_eq_true, if_true] at hs
            cases hs
            exact .of_sublist (List.Sublist.refl _)
  | sleep t wakeTime =>
    cases hs
    exact .of_sublist (List.Sublist.refl _)
  | returns t =>
    have hfutexes : s'.futexes = s.futexes := by
      simp only [SyscallServer.perform, SyscallServer.finish] at hs
      split at hs <;> cases hs <;> rfl
    rw [hfutexes]
    exact .of_sublist (List.Sublist.refl _)
  | periodic time order =>
    cases hs
    change Follows _ ((s.futexPeriodic time order).table.queue addr)
    rw [table_futexPeriodic h (of_decide_eq_true hok)]
    exact .of_sublist (List.eraseP_sublist)

/-- The time of a waiter has come by the time of a periodic event. -/
def dueBy (time : SubsecondTime) (w : Waiter) : Bool := w.timeout ≤ time

end SyscallServer

/-- How many periodic events a step is that come at or after the time of a waiter. -/
def SyscallStep.due (w : Waiter) : SyscallStep → Nat
  | .periodic time _ => if w.timeout ≤ time then 1 else 0
  | _ => 0

/-- No periodic event comes after `last`. -/
def SyscallStep.Within (last : SubsecondTime) : SyscallStep → Prop
  | .periodic time _ => time ≤ last
  | _ => True

namespace SyscallServer

variable {env : SyscallEnv} {s s' : SyscallServer} {c : FutexCall} {addr : Addr} {w : Waiter}
variable {last : SubsecondTime} {n : Nat}

/-- A waiter stays in a queue through so many periodic events at or after its time, and none after
`last`, whatever else happens. -/
inductive StillWaits (env : SyscallEnv) (addr : Addr) (w : Waiter) (last : SubsecondTime) :
    Nat → SyscallServer → SyscallServer → Prop
  | here {s : SyscallServer} : w ∈ s.futexes addr → StillWaits env addr w last 0 s s
  | step {n : Nat} {s s₁ s' : SyscallServer} {i : SyscallStep} {answer : SyscallAnswer} :
    StillWaits env addr w last n s s₁ → s₁.permitted i = true →
      s₁.perform env i = .ok (answer, s') → i.Within last → w ∈ s'.futexes addr →
        StillWaits env addr w last (n + i.due w) s s'

theorem Follows.ahead {l l' : List Waiter} (h : Follows l l') (hnodup : l.Nodup) (hl : w ∈ l)
    (hl' : w ∈ l') : (ahead w l').Sublist (ahead w l) := by
  obtain ⟨kept, joined, rfl, hsub, hnew⟩ := h
  have hkept : w ∈ kept := (List.mem_append.mp hl').resolve_right fun hw => hnew w hw hl
  rw [ahead_append hkept]
  exact ahead_sublist hsub hnodup hkept

theorem Inv.futexes_nodup (h : s.Inv) (addr : Addr) : (s.futexes addr).Nodup :=
  (h.apart.once (.futex addr)).of_map _

/-- A periodic event that comes when the time of a waiter has come takes one of those before it. -/
theorem Inv.ahead_periodic {time : SubsecondTime} {order : List Addr} (h : s.Inv)
    (horder : order.Perm s.keys) (htime : w.timeout ≤ time) (hlast : time ≤ last)
    (hw : w ∈ (s.futexPeriodic time order).futexes addr) :
    (ahead w ((s.futexPeriodic time order).futexes addr)).countP (dueBy last) + 1 =
      (ahead w (s.futexes addr)).countP (dueBy last) := by
  have hqueue : (s.futexPeriodic time order).futexes addr = (s.futexes addr).eraseP (dueBy time) :=
    congrFun (congrArg Futexes.queue (table_futexPeriodic h horder)) addr
  rw [hqueue] at hw ⊢
  refine countP_ahead_eraseP (fun v hv => ?_) (decide_eq_true htime) (h.futexes_nodup addr) hw
  exact decide_eq_true (le_trans (of_decide_eq_true hv) hlast)

/-- Each step at or after the time of a waiter that stays leaves one fewer before it. -/
theorem Inv.ahead_step {i : SyscallStep} {answer : SyscallAnswer} (h : s.Inv)
    (hok : s.permitted i = true) (hs : s.perform env i = .ok (answer, s')) (hi : i.Within last)
    (hw : w ∈ s.futexes addr) (hw' : w ∈ s'.futexes addr) :
    i.due w + (ahead w (s'.futexes addr)).countP (dueBy last) ≤
      (ahead w (s.futexes addr)).countP (dueBy last) := by
  have hsub := (h.follows hok hs addr).ahead (h.futexes_nodup addr) hw hw'
  have hle := hsub.countP_le (p := dueBy last)
  cases i with
  | futex c => simpa only [SyscallStep.due, Nat.zero_add] using hle
  | sleep t wakeTime => simpa only [SyscallStep.due, Nat.zero_add] using hle
  | returns t => simpa only [SyscallStep.due, Nat.zero_add] using hle
  | periodic time order =>
    by_cases htime : w.timeout ≤ time
    · cases hs
      rw [SyscallStep.due, if_pos htime, Nat.add_comm]
      exact (h.ahead_periodic (of_decide_eq_true hok) htime hi hw').le
    · simpa only [SyscallStep.due, htime, if_false, Nat.zero_add] using hle

theorem StillWaits.ahead_le (hinv : s.Inv) (h : StillWaits env addr w last n s s') :
    s'.Inv ∧ w ∈ s'.futexes addr ∧ n + (ahead w (s'.futexes addr)).countP (dueBy last) ≤
      (ahead w (s.futexes addr)).countP (dueBy last) := by
  induction h with
  | here hw => exact ⟨hinv, hw, (Nat.zero_add _).le⟩
  | step _ hok hs hi hw' ih =>
    obtain ⟨hinv₁, hw, hle⟩ := ih hinv
    have hstep := hinv₁.ahead_step hok hs hi hw hw'
    exact ⟨hinv₁.perform hok hs, hw', by omega⟩

/-- A waiter that is not woken otherwise goes through fewer periodic events at or after its time
than its queue has waiters whose time has come at the last of them. -/
theorem StillWaits.calls_lt {calls : Nat} (hinv : s.Inv) (hlast : w.timeout ≤ last)
    (h : StillWaits env addr w last calls s s') :
    calls < (s.futexes addr).countP (dueBy last) := by
  have hw : w ∈ s.futexes addr := by
    clear hinv
    induction h with
    | here hw => exact hw
    | step _ _ _ _ _ ih => exact ih
  obtain ⟨-, -, hle⟩ := h.ahead_le hinv
  have hlt := countP_ahead_lt (q := dueBy last) (decide_eq_true hlast) hw
  omega

/-- What is asked of timeouts: a call that waits gives its waiter the time it asks for, no waiter
times out before its time, and none stays through as many periodic events at or after it as there
are waiters in its queue whose time has come. -/
structure ExpiresOnTime (env : SyscallEnv) (s : SyscallServer) (c : FutexCall) : Prop where
  given : GivesTimeout env s c
  notEarly : NeverEarly s
  soon : ∀ addr w last calls s', w.timeout ≤ last → StillWaits env addr w last calls s s' →
    calls < (s.futexes addr).countP (dueBy last)

theorem run_expiresOnTime_iff {tr : List (SyscallStep × SyscallAnswer)} (c : FutexCall)
    (h : Run (machine env) (fun s i => s.permitted i = true) tr s) :
    ExpiresOnTime env s c ↔ (RelativeWait env c → 2 ^ 49 ∣ env.osEmuTimeStart.toNat) := by
  have hinv := run_inv h
  rw [← givesTimeout_iff env s c]
  constructor
  · exact fun hexpires => hexpires.given
  · intro hgiven
    exact ⟨hgiven, hinv.neverEarly, fun addr w last calls s' hlast hwaits =>
      hwaits.calls_lt hinv hlast⟩

/-- A wait for a second, when the emulated time starts at zero. -/
def oneSecond : FutexCall := ⟨0, ⟨64, 0, 5, some ⟨1, 0⟩, 0, 0, 0⟩, 5, 0, true, 100⟩

theorem run_expiresOnTime_iff_oneSecond :
    ExpiresOnTime plainEnv start oneSecond ↔
      (RelativeWait plainEnv oneSecond → 2 ^ 49 ∣ plainEnv.osEmuTimeStart.toNat) :=
  run_expiresOnTime_iff oneSecond (.start start_fresh)

/-- The emulated time starts at some second of the epoch. -/
def epochEnv : SyscallEnv := ⟨fun _ addr => addr, 1337000000, 1000⟩

theorem oneSecond_relativeWait : RelativeWait epochEnv oneSecond :=
  ⟨by decide, rfl, ⟨1, 0⟩, rfl, by decide, by decide⟩

/-- The waiter is given the time less that start, modulo the width. -/
theorem oneSecond_expires_late : RelativeWait epochEnv oneSecond ∧
    askedTimeout epochEnv .wait ⟨1, 0⟩ 100 = 10 ^ 15 + 100 ∧
    timeoutTime epochEnv .wait (some ⟨1, 0⟩) 100 ≠ 10 ^ 15 + 100 ∧
    ¬ExpiresOnTime epochEnv start oneSecond := by
  refine ⟨oneSecond_relativeWait, by decide, by decide, fun hexpires => ?_⟩
  have hdvd := (givesTimeout_iff _ _ _).mp hexpires.given oneSecond_relativeWait
  exact absurd hdvd (by decide)

end SyscallServer

end Sniper.System.Syscall
