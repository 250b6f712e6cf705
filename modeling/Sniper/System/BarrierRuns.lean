import Sniper.System.BarrierRelease
set_option autoImplicit false

/-! The barrier in every run: what each release does, and that every release ends. -/

namespace Sniper.System.Barrier
open Sniper.Lib

variable {n : Nat}

namespace BarrierSyncServer

/-- The state in which a round of the loop of `barrierRelease` begins, if there is such a round. -/
def roundState (continueUntilRelease : Bool) (hooks : Hooks n) (s : BarrierSyncServer n) :
    Nat → Option (BarrierSyncServer n)
  | 0 => some s
  | k + 1 =>
    (roundState continueUntilRelease hooks s k).bind fun r =>
      let r := r.periodic hooks k
      if (continueUntilRelease && (hooks.anyThreadRunning k || !hooks.timeoutPending k)) ||
        r.disable || r.bump.due ≠ [] then none
      else some r.bump

/-- The periodic event aborts nobody, unless the barrier is disabled by then; and no more waiting
cores are without a running thread after it than are released at a time. -/
def Calm (hooks : Hooks n) (k : Nat) (r : BarrierSyncServer n) : Prop :=
  let p := r.periodic hooks k
  p.disable = true ∨
    p.acquire = r.acquire ∧
      (p.fastforward = true ∨ ∀ hosts, p.hostCores = some hosts → p.strays.card ≤ hosts)

def CalmRounds (continueUntilRelease : Bool) (hooks : Hooks n) (s : BarrierSyncServer n) : Prop :=
  ∀ k r, s.roundState continueUntilRelease hooks k = some r → Calm hooks k r

/-- How a step enters `barrierRelease`, if it does: in which state, with which periodic events, and
whether the barrier is advanced. -/
def entry (s : BarrierSyncServer n) : BarrierStep n → Option (BarrierSyncServer n × Hooks n × Bool)
  | .synchronize core thread time hooks =>
    let a := s.arrive (s.master core) thread time
    if s.disable || (time < s.nextBarrierTime && !s.fastforward) || !a.isBarrierReached then none
    else some (a, hooks, false)
  | .threadStall thread running ms hooks | .threadExit thread running ms hooks =>
    let a := (ms.foldl moves { s with running := running }).releaseThread thread
    if a.disable || !a.isBarrierReached then none else some (a, hooks, false)
  | .advance hooks => some (s, hooks, true)
  | .action _ => none

/-- The rounds of a release are calm; and the barrier is disabled, and with siblings its mode
changed, only when nobody is still to be released. -/
def Orderly (s : BarrierSyncServer n) (i : BarrierStep n) : Prop :=
  (∀ e hooks cont, s.entry i = some (e, hooks, cont) → CalmRounds cont hooks e.skip) ∧
    match i with
    | .action (.setDisable true) => s.toRelease = []
    | .action (.setFastForward fastforward _) =>
      fastforward = s.fastforward ∨ (∀ c, s.coreGroup c = none) ∨ s.toRelease = []
    | _ => True

/-- How a release ends: before anybody is released, or with those that are due. -/
inductive Ended (caller : Option ThreadId) (continueUntilRelease : Bool) (hooks : Hooks n) (k : Nat)
    (r : BarrierSyncServer n) : Bool → BarrierSyncServer n → Prop where
  | early : continueUntilRelease = true ∨ (r.periodic hooks k).disable = true →
      Ended caller continueUntilRelease hooks k r false (r.periodic hooks k)
  | served : (r.periodic hooks k).disable = false →
      Ended caller continueUntilRelease hooks k r
        (!((r.periodic hooks k).bump.due.any fun c =>
          (r.periodic hooks k).bump.coreThread c = caller))
        (((r.periodic hooks k).bump.releaseDue caller).throttle hooks)

theorem releaseLoop_ended {caller : Option ThreadId} {cont : Bool} {hooks : Hooks n}
    {s r s' : BarrierSyncServer n} {fuel k : Nat} {mustWait : Bool}
    (hr : s.roundState cont hooks k = some r)
    (h : releaseLoop caller cont hooks fuel k r = .ok (mustWait, s')) :
    ∃ j, ∃ t, s.roundState cont hooks j = some t ∧ Ended caller cont hooks j t mustWait s' := by
  induction fuel generalizing k r with
  | zero => cases h
  | succ fuel ih =>
    rw [releaseLoop] at h
    dsimp only at h
    split at h
    · rename_i hany
      cases h
      exact ⟨k, r, hr, .early (Or.inl (Bool.and_eq_true_iff.mp hany).1)⟩
    · rename_i hany
      split at h
      · cases h
      · rename_i htime
        split at h
        · rename_i hdis
          cases h
          exact ⟨k, r, hr, .early (Or.inr hdis)⟩
        · rename_i hdis
          split at h
          · rename_i hdue
            refine ih (k := k + 1) ?_ h
            rw [roundState, hr, Option.bind_some]
            cases cont <;> simp_all
          · cases h
            exact ⟨k, r, hr, .served (by simpa using hdis)⟩

theorem releaseLoop_outOfFuel {caller : Option ThreadId} {cont : Bool} {hooks : Hooks n}
    {s r : BarrierSyncServer n} {fuel k : Nat} (hr : s.roundState cont hooks k = some r)
    (h : releaseLoop caller cont hooks fuel k r = .error .outOfFuel) :
    ∃ t, s.roundState cont hooks (k + fuel) = some t := by
  induction fuel generalizing k r with
  | zero => exact ⟨r, hr⟩
  | succ fuel ih =>
    rw [releaseLoop] at h
    dsimp only at h
    split at h
    · cases h
    · split at h
      · cases h
      · split at h
        · cases h
        · split at h
          · rename_i hany htime hdis hdue
            have hnext : s.roundState cont hooks (k + 1) = some (r.periodic hooks k).bump := by
              rw [roundState, hr, Option.bind_some]
              cases cont <;> simp_all
            obtain ⟨t, ht⟩ := ih hnext h
            exact ⟨t, by rw [← ht]; congr 1; omega⟩
          · cases h

theorem releaseLoop_error {caller : Option ThreadId} {cont : Bool} {hooks : Hooks n}
    {r : BarrierSyncServer n} {fuel k : Nat} {e : BarrierError}
    (h : releaseLoop caller cont hooks fuel k r = .error e) : e = .deadlocked ∨ e = .outOfFuel := by
  induction fuel generalizing k r with
  | zero =>
    cases h
    exact Or.inr rfl
  | succ fuel ih =>
    rw [releaseLoop] at h
    dsimp only at h
    split at h
    · cases h
    · split at h
      · cases h
        exact Or.inl rfl
      · split at h
        · cases h
        · split at h
          · exact ih h
          · cases h

theorem roundState_succ {cont : Bool} {hooks : Hooks n} {s t : BarrierSyncServer n} {k : Nat}
    (h : s.roundState cont hooks (k + 1) = some t) :
    ∃ r, s.roundState cont hooks k = some r ∧ (r.periodic hooks k).disable = false ∧
      (r.periodic hooks k).bump.due = [] ∧ t = (r.periodic hooks k).bump := by
  rw [roundState] at h
  obtain ⟨r, hr, hnext⟩ := Option.bind_eq_some_iff.mp h
  refine ⟨r, hr, ?_⟩
  dsimp only at hnext
  split at hnext
  · cases hnext
  · rename_i hcond
    simp only [Bool.or_eq_true, decide_eq_true_eq, not_or, not_not, Bool.not_eq_true] at hcond
    exact ⟨hcond.1.2, hcond.2, (Option.some.inj hnext).symm⟩

theorem led_roundState {cont : Bool} {hooks : Hooks n} {s t : BarrierSyncServer n} {k : Nat}
    (h : s.roundState cont hooks k = some t) : Led s t := by
  induction k generalizing t with
  | zero =>
    cases h
    exact Led.refl s
  | succ k ih =>
    obtain ⟨r, hr, -, -, rfl⟩ := roundState_succ h
    exact ((ih hr).trans (led_periodic r hooks k)).trans (led_bump _)

/-- From round to round the barrier moves on, and in calm rounds all keep waiting. -/
theorem roundState_waits {cont : Bool} {hooks : Hooks n} {s t : BarrierSyncServer n} {k : Nat}
    (h : s.roundState cont hooks k = some t) (hcalm : CalmRounds cont hooks s) :
    t.acquire = s.acquire ∧ s.nextBarrierTime + k * s.barrierInterval ≤ t.nextBarrierTime := by
  induction k generalizing t with
  | zero =>
    cases h
    exact ⟨rfl, by simp⟩
  | succ k ih =>
    obtain ⟨r, hr, hdis, -, rfl⟩ := roundState_succ h
    obtain ⟨hacq, hnext⟩ := ih hr
    have hled := led_periodic r hooks k
    have hkept : (r.periodic hooks k).acquire = r.acquire := by
      rcases hcalm k r hr with hd | hcalm
      · rw [hdis] at hd
        cases hd
      · exact hcalm.1
    refine ⟨hkept.trans hacq, ?_⟩
    have hint : (r.periodic hooks k).barrierInterval = s.barrierInterval :=
      hled.interval.trans (led_roundState hr).interval
    have hmove : (r.periodic hooks k).bump.nextBarrierTime =
        (r.periodic hooks k).nextBarrierTime + s.barrierInterval := by
      rw [← hint]
      rfl
    have hle := hled.next
    rw [hmove, Nat.add_mul, Nat.one_mul]
    simp only [SubsecondTime] at *
    omega

/-- While a core waits there are no more rounds than its clock is ahead of the barrier. -/
theorem roundState_ends {cont : Bool} {hooks : Hooks n} {s : BarrierSyncServer n} {c : Fin n}
    (hcalm : CalmRounds cont hooks s) (hinterval : 0 < s.barrierInterval)
    (hwait : s.acquire c = true) : s.roundState cont hooks (s.localClock c + 1) = none := by
  by_contra hne
  obtain ⟨t, ht⟩ := Option.ne_none_iff_exists'.mp hne
  obtain ⟨r, hr, hdis, hdue, rfl⟩ := roundState_succ ht
  obtain ⟨hacq, hnext⟩ := roundState_waits ht hcalm
  have hclock := (led_roundState ht).clock c
  have hin : c ∈ (r.periodic hooks (s.localClock c)).bump.due := by
    refine mem_due.mpr ⟨?_, by rw [hacq]; exact hwait⟩
    have hmul : s.localClock c + 1 ≤ (s.localClock c + 1) * s.barrierInterval :=
      Nat.le_mul_of_pos_right _ hinterval
    simp only [SubsecondTime] at *
    omega
  rw [hdue] at hin
  cases hin

/-! ### The invariant -/

structure Inv (s : BarrierSyncServer n) : Prop where
  interval : 0 < s.barrierInterval
  accounted : Accounted s
  held : Held 0 s
  grouped : (∀ c, s.coreGroup c = none) ∨ (s.fastforward = true → s.toRelease = [])
  thread : ∀ c, s.acquire c = true → s.coreThread c ≠ none
  disabled : s.disable = true → (∀ c, s.acquire c = false) ∧ s.toRelease = []

theorem Inv.fresh {s : BarrierSyncServer n} (h : Fresh s) : Inv s where
  interval := h.interval
  accounted := by
    refine ⟨fun c => ?_, ?_, fun c t u hmem => ?_⟩
    · simp [owed, h.log, h.acquire, h.toRelease]
    · simp [h.toRelease]
    · simp [h.log] at hmem
  held := Held.empty h.toRelease
  grouped := Or.inr fun _ => h.toRelease
  thread c hc := by simp [h.acquire] at hc
  disabled hd := by simp [h.disable] at hd

/-- What a step that only leads the state on must still show. -/
theorem Inv.led {s s' : BarrierSyncServer n} (h : Inv s) (hled : Led s s')
    (haccounted : Accounted s') (hheld : Held 0 s') (hmode : s'.fastforward = s.fastforward)
    (hdisable : s'.disable = s.disable) : Inv s' where
  interval := hled.interval ▸ h.interval
  accounted := haccounted
  held := hheld
  grouped := by
    rw [hled.group, hmode]
    exact h.grouped.imp id fun hff hs => hled.empty (hff hs)
  thread c hc := by
    rw [hled.thread]
    exact h.thread c (hled.acquire c hc)
  disabled hd := by
    rw [hdisable] at hd
    refine ⟨fun c => ?_, hled.empty (h.disabled hd).2⟩
    by_contra hacq
    have := hled.acquire c (by simpa using hacq)
    rw [(h.disabled hd).1 c] at this
    cases this

@[simp] theorem disable_doRelease (s : BarrierSyncServer n) (m : Option Nat) :
    (s.doRelease m).disable = s.disable := by
  rw [doRelease_eq]
  rfl

@[simp] theorem fastforward_doRelease (s : BarrierSyncServer n) (m : Option Nat) :
    (s.doRelease m).fastforward = s.fastforward := by
  rw [doRelease_eq]
  rfl

@[simp] theorem acquire_doRelease (s : BarrierSyncServer n) (m : Option Nat) :
    (s.doRelease m).acquire = s.acquire := by
  rw [doRelease_eq]
  rfl

theorem led_throttle (s : BarrierSyncServer n) (hooks : Hooks n) :
    Led { s with toRelease := hooks.shuffle s.toRelease } (s.throttle hooks) :=
  led_doRelease _ _

theorem disable_throttle (s : BarrierSyncServer n) (hooks : Hooks n) :
    (s.throttle hooks).disable = s.disable :=
  disable_doRelease { s with toRelease := hooks.shuffle s.toRelease } _

theorem fastforward_throttle (s : BarrierSyncServer n) (hooks : Hooks n) :
    (s.throttle hooks).fastforward = s.fastforward :=
  fastforward_doRelease { s with toRelease := hooks.shuffle s.toRelease } _

theorem acquire_throttle (s : BarrierSyncServer n) (hooks : Hooks n) :
    (s.throttle hooks).acquire = s.acquire :=
  acquire_doRelease { s with toRelease := hooks.shuffle s.toRelease } _

theorem disable_moves (s : BarrierSyncServer n) (m : Move n) :
    (s.moves m).disable = s.disable := by
  cases m with
  | resume running => rfl
  | migrate thread running => exact disable_doRelease _ _

theorem fastforward_moves (s : BarrierSyncServer n) (m : Move n) :
    (s.moves m).fastforward = s.fastforward := by
  cases m with
  | resume running => rfl
  | migrate thread running => exact fastforward_doRelease _ _

theorem foldl_moves_kept {α : Type} (view : BarrierSyncServer n → α)
    (hview : ∀ s m, view (s.moves m) = view s) (ms : List (Move n)) (s : BarrierSyncServer n) :
    view (ms.foldl BarrierSyncServer.moves s) = view s := by
  induction ms generalizing s with
  | nil => rfl
  | cons m ms ih => exact (ih _).trans (hview s m)

/-- While nobody is still to be released, every action keeps the invariant. -/
theorem Inv.actEmpty {s : BarrierSyncServer n} (h : Inv s) (hempty : s.toRelease = [])
    (a : Action n) : Inv (s.act a) := by
  have hled := led_act s a
  have hempty' := hled.empty hempty
  refine ⟨hled.interval ▸ h.interval, h.accounted.act a, Held.empty hempty',
    Or.inr fun _ => hempty', fun c hc => ?_, fun hd => ⟨fun c => ?_, hempty'⟩⟩
  · rw [hled.thread]
    exact h.thread c (hled.acquire c hc)
  · by_contra hacq
    have hold := hled.acquire c (by simpa using hacq)
    have hnone : s.disable = true → False := fun hs => by
      rw [(h.disabled hs).1 c] at hold
      cases hold
    cases a with
    | move m => exact hnone ((disable_moves s m).symm.trans hd)
    | setDisable disable =>
      cases disable with
      | false => cases hd
      | true => exact hacq rfl
    | setFastForward fastforward next => exact hnone hd
    | release => exact hacq rfl

theorem Inv.periodic {s : BarrierSyncServer n} (h : Inv s) (hempty : s.toRelease = [])
    (hooks : Hooks n) (k : Nat) : Inv (s.periodic hooks k) := by
  have hset : Inv { s with globalTime := s.nextBarrierTime } :=
    ⟨h.interval, ⟨h.accounted.answered, h.accounted.nodup, h.accounted.below⟩,
      Held.empty hempty, h.grouped, h.thread, h.disabled⟩
  have hfold : ∀ (l : List (Action n)) (t : BarrierSyncServer n), Inv t → t.toRelease = [] →
      Inv (l.foldl act t) := by
    intro l
    induction l with
    | nil => exact fun _ ht _ => ht
    | cons a l ih => exact fun t ht hto => ih _ (ht.actEmpty hto a) ((led_act t a).empty hto)
  exact hfold _ _ hset hempty

theorem Inv.bump {s : BarrierSyncServer n} (h : Inv s) (hempty : s.toRelease = []) :
    Inv s.bump :=
  ⟨h.interval, h.accounted.bump, Held.empty hempty, h.grouped, h.thread, h.disabled⟩

theorem Inv.skip {s : BarrierSyncServer n} (h : Inv s) (hempty : s.toRelease = []) :
    Inv s.skip := by
  unfold BarrierSyncServer.skip
  split
  · exact ⟨h.interval, ⟨h.accounted.answered, h.accounted.nodup, h.accounted.below⟩,
      Held.empty hempty, h.grouped, h.thread, h.disabled⟩
  · exact h

theorem Inv.roundState {cont : Bool} {hooks : Hooks n} {s t : BarrierSyncServer n} {k : Nat}
    (hs : Inv s) (hempty : s.toRelease = []) (h : s.roundState cont hooks k = some t) :
    Inv t ∧ t.toRelease = [] := by
  induction k generalizing t with
  | zero =>
    cases h
    exact ⟨hs, hempty⟩
  | succ k ih =>
    obtain ⟨r, hr, -, -, rfl⟩ := roundState_succ h
    obtain ⟨hinv, hto⟩ := ih hr
    have hto' := (led_periodic r hooks k).empty hto
    exact ⟨(hinv.periodic hto hooks k).bump hto', hto'⟩

/-- A round that releases, in calm. -/
theorem Inv.served {s : BarrierSyncServer n} (h : Inv s) (hempty : s.toRelease = [])
    (henabled : s.disable = false) (caller : Option ThreadId) (hooks : Hooks n)
    (hhosts : s.fastforward = true ∨ ∀ hosts, s.hostCores = some hosts → s.strays.card ≤ hosts) :
    Inv ((s.releaseDue caller).throttle hooks) := by
  have hled := led_throttle (s.releaseDue caller) hooks
  have hdis : ((s.releaseDue caller).throttle hooks).disable = false :=
    (disable_throttle _ _).trans henabled
  refine ⟨hled.interval ▸ h.interval, (h.accounted.releaseDue hempty caller).throttle hooks,
    (Held.releaseDue hempty caller).throttle hhosts hooks, Or.inr fun hff => ?_, fun c hc => ?_,
    fun hd => ?_⟩
  · have hs : (s.releaseDue caller).fastforward = true :=
      (fastforward_throttle _ _).symm.trans hff
    simp [BarrierSyncServer.throttle, hs, doRelease_eq, note]
  · have hc' : (s.acquire c && !decide (s.localClock c < s.nextBarrierTime)) = true :=
      hled.acquire c hc
    rw [hled.thread]
    exact h.thread c (Bool.and_eq_true_iff.mp hc').1
  · rw [hdis] at hd
    cases hd

theorem Inv.ended {cont : Bool} {caller : Option ThreadId} {hooks : Hooks n}
    {s t s' : BarrierSyncServer n} {k : Nat} {mustWait : Bool} (hs : Inv s)
    (hempty : s.toRelease = []) (hcalm : CalmRounds cont hooks s)
    (ht : s.roundState cont hooks k = some t) (hend : Ended caller cont hooks k t mustWait s') :
    Inv s' := by
  obtain ⟨hinv, hto⟩ := hs.roundState hempty ht
  have hp := hinv.periodic hto hooks k
  have hto' := (led_periodic t hooks k).empty hto
  cases hend with
  | early _ => exact hp
  | served henabled =>
    refine (hp.bump hto').served hto' henabled caller hooks ?_
    rcases hcalm k t ht with hd | ⟨-, hhosts⟩
    · rw [henabled] at hd
      cases hd
    · exact hhosts

theorem count_passes_served (s : BarrierSyncServer n) (caller : Option ThreadId) (hooks : Hooks n)
    (c : Fin n) : ((s.releaseDue caller).throttle hooks).log.count (.passes c) =
      s.log.count (.passes c) +
        (decide (s.coreThread c = caller) && (decide (s.localClock c < s.nextBarrierTime) &&
          s.acquire c)).toNat := by
  have hthrottle := (led_throttle (s.releaseDue caller) hooks).passes c
  have hreleased : (s.due.map fun d =>
      BarrierEvent.released d (s.localClock d) s.nextBarrierTime).count (.passes c) = 0 := by
    simp [List.count_eq_zero]
  have hpassed : ((s.due.filter fun d => s.coreThread d = caller).map
      BarrierEvent.passes).count (.passes c) = _ :=
    (List.count_map_of_injective _ _ (fun _ _ h => BarrierEvent.passes.inj h) c).trans
      ((congrArg (List.count c) List.filter_filter).trans (count_finRange_filter _ c))
  refine hthrottle.trans ?_
  simp only [BarrierSyncServer.releaseDue, note, List.count_append, hreleased, hpassed]
  omega

/-- What a release does for its caller and for the others. -/
structure Released (caller : Option ThreadId) (e : BarrierSyncServer n) (mustWait : Bool)
    (s' : BarrierSyncServer n) : Prop where
  inv : Inv s'
  next : e.nextBarrierTime ≤ s'.nextBarrierTime
  passes : ∀ c, s'.log.count (.passes c) = e.log.count (.passes c) ∨
    mustWait = false ∧ e.acquire c = true ∧ e.coreThread c = caller ∧
      s'.log.count (.passes c) = e.log.count (.passes c) + 1

theorem Inv.barrierRelease {s s' : BarrierSyncServer n} {fuel : Nat} {caller : Option ThreadId}
    {cont : Bool} {hooks : Hooks n} {mustWait : Bool} (hs : Inv s)
    (hcalm : CalmRounds cont hooks s.skip)
    (h : s.barrierRelease fuel caller cont hooks = .ok (mustWait, s')) :
    Released caller s mustWait s' := by
  rw [BarrierSyncServer.barrierRelease] at h
  split at h
  · cases h
  · rename_i hto
    have hto : s.toRelease = [] := not_not.mp hto
    have hskip := led_skip s
    have hto' := hskip.empty hto
    obtain ⟨k, t, ht, hend⟩ := releaseLoop_ended (s := s.skip) (k := 0) rfl h
    have hinv := (hs.skip hto).ended hto' hcalm ht hend
    have hled : Led s (t.periodic hooks k) :=
      (hskip.trans (led_roundState ht)).trans (led_periodic t hooks k)
    refine ⟨hinv, ?_, fun c => ?_⟩
    · cases hend with
      | early _ => exact hled.next
      | served _ =>
        have hthrottle := led_throttle ((t.periodic hooks k).bump.releaseDue caller) hooks
        exact (hled.trans (led_bump _)).next.trans hthrottle.next
    · have hled' := hled.trans (led_bump _)
      cases hend with
      | early _ => exact Or.inl (hled.passes c)
      | served _ =>
        have hcount := count_passes_served (t.periodic hooks k).bump caller hooks c
        rw [hled'.passes c] at hcount
        by_cases hpass : (decide ((t.periodic hooks k).bump.coreThread c = caller) &&
            (decide ((t.periodic hooks k).bump.localClock c <
              (t.periodic hooks k).bump.nextBarrierTime) &&
                (t.periodic hooks k).bump.acquire c)) = true
        · refine Or.inr ⟨?_, ?_, ?_, ?_⟩
          · simp only [Bool.and_eq_true, decide_eq_true_eq] at hpass
            simp only [Bool.not_eq_false', List.any_eq_true, decide_eq_true_eq]
            exact ⟨c, mem_due.mpr hpass.2, hpass.1⟩
          · simp only [Bool.and_eq_true, decide_eq_true_eq] at hpass
            exact hled'.acquire c hpass.2.2
          · simp only [Bool.and_eq_true, decide_eq_true_eq] at hpass
            rw [← hled'.thread]
            exact hpass.1
          · rw [hcount, hpass]
            rfl
        · rw [Bool.not_eq_true] at hpass
          rw [hpass] at hcount
          exact Or.inl hcount

/-- The caller waits at the barrier exactly when it must. -/
theorem barrierRelease_waits {s s' : BarrierSyncServer n} {fuel : Nat} {thread : ThreadId}
    {hooks : Hooks n} {mustWait : Bool} {c : Fin n} (hs : Inv s)
    (hcalm : CalmRounds false hooks s.skip) (hwait : s.acquire c = true)
    (hthread : s.coreThread c = some thread)
    (honly : ∀ d, s.acquire d = true → s.coreThread d = some thread → d = c)
    (h : s.barrierRelease fuel (some thread) false hooks = .ok (mustWait, s')) :
    s'.acquire c = mustWait := by
  have hinv := (hs.barrierRelease hcalm h).inv
  rw [BarrierSyncServer.barrierRelease] at h
  split at h
  · cases h
  · obtain ⟨k, t, ht, hend⟩ := releaseLoop_ended (s := s.skip) (k := 0) rfl h
    have hled : Led s (t.periodic hooks k).bump :=
      (((led_skip s).trans (led_roundState ht)).trans (led_periodic t hooks k)).trans (led_bump _)
    have hskip : s.skip.acquire = s.acquire := by
      unfold BarrierSyncServer.skip
      split <;> rfl
    cases hend with
    | early hearly =>
      have hdis := hearly.resolve_left (by decide)
      exact (hinv.disabled hdis).1 c
    | served henabled =>
      have hkept : (t.periodic hooks k).bump.acquire c = true := by
        rcases hcalm k t ht with hd | ⟨hacq, -⟩
        · rw [henabled] at hd
          cases hd
        · exact (congrFun hacq c).trans
            ((congrFun (roundState_waits ht hcalm).1 c).trans ((congrFun hskip c).trans hwait))
      have hacq : (((t.periodic hooks k).bump.releaseDue (some thread)).throttle hooks).acquire c =
          !decide ((t.periodic hooks k).bump.localClock c <
            (t.periodic hooks k).bump.nextBarrierTime) := by
        refine (congrFun (acquire_throttle _ _) c).trans ?_
        simp [BarrierSyncServer.releaseDue, note, hkept]
      rw [hacq]
      congr 1
      rw [Bool.eq_iff_iff, decide_eq_true_eq, List.any_eq_true]
      constructor
      · intro hlt
        exact ⟨c, mem_due.mpr ⟨hlt, hkept⟩, by simpa [hled.thread] using hthread⟩
      · rintro ⟨d, hd, hdthread⟩
        obtain ⟨hdlt, hdacq⟩ := mem_due.mp hd
        have hdc : d = c := honly d (hled.acquire d hdacq)
          (by simpa [hled.thread] using hdthread)
        exact hdc ▸ hdlt

theorem Inv.arrive {s : BarrierSyncServer n} (h : Inv s) {master : Fin n}
    (hfree : s.acquire master = false) (henabled : s.disable = false) (thread : ThreadId)
    (time : SubsecondTime) : Inv (s.arrive master thread time) := by
  have hled := led_doRelease s (some 1)
  refine ⟨hled.interval ▸ h.interval, h.accounted.arrive hfree thread time,
    h.held.arrive master thread time, ?_, fun c hc => ?_, fun hd => ?_⟩
  · have hmode : (s.arrive master thread time).fastforward = s.fastforward :=
      fastforward_doRelease _ _
    have hgroup : (s.arrive master thread time).coreGroup = s.coreGroup := hled.group
    rw [hmode, hgroup]
    exact h.grouped.imp id fun hff hs => hled.empty (hff hs)
  · by_cases hm : c = master
    · subst hm
      simp [BarrierSyncServer.arrive, note]
    · have hc' : s.acquire c = true := by
        simpa [BarrierSyncServer.arrive, note, hm] using hc
      have ht : (s.arrive master thread time).coreThread c = s.coreThread c := by
        simp [BarrierSyncServer.arrive, note, hm, hled.thread]
      rw [ht]
      exact h.thread c hc'
  · have hd' : (s.doRelease (some 1)).disable = true := hd
    rw [disable_doRelease, henabled] at hd'
    cases hd'

theorem Inv.stall {s : BarrierSyncServer n} (h : Inv s) {running : Fin n → Bool}
    {ms : List (Move n)} (hstop : StopsOne s.running running) (hlegal : LegalMoves running ms)
    (thread : ThreadId) :
    Inv ((ms.foldl BarrierSyncServer.moves { s with running := running }).releaseThread thread) := by
  have hrun := led_running s running
  have hmoves := led_foldl led_moves ms { s with running := running }
  have haccounted : Accounted { s with running := running } :=
    ⟨h.accounted.answered, h.accounted.nodup, h.accounted.below⟩
  have hfold := Accounted.foldl (fun _ m h => Accounted.moves h m) ms haccounted
  have hheld := (h.held.stops hstop).foldlMoves ms hlegal
  refine h.led ((hrun.trans hmoves).trans (led_releaseThread _ thread))
    (hfold.releaseThread thread) (hheld.releaseThread thread) ?_ ?_
  · exact (fastforward_doRelease _ _).trans
      (foldl_moves_kept (fun s => s.fastforward) fastforward_moves ms _)
  · exact (disable_doRelease _ _).trans
      (foldl_moves_kept (fun s => s.disable) disable_moves ms _)

theorem Inv.action {s : BarrierSyncServer n} (h : Inv s) {a : Action n}
    (hp : Permitted s (.action a)) (ho : Orderly s (.action a)) : Inv (s.act a) := by
  cases a with
  | move m =>
    exact h.led (led_moves s m) (h.accounted.moves m) (h.held.moves hp) (fastforward_moves s m)
      (disable_moves s m)
  | setDisable disable =>
    cases disable with
    | true => exact h.actEmpty ho.2 _
    | false =>
      exact ⟨h.interval, h.accounted.act _, h.held, h.grouped, h.thread, fun hd => by cases hd⟩
  | setFastForward fastforward next =>
    have hled := led_act s (.setFastForward fastforward next)
    refine ⟨h.interval, h.accounted.act _, h.held.mono (fun c hc => ?_) (Nat.le_refl _), ?_,
      h.thread, h.disabled⟩
    · exact ⟨hc.1, hc.2.1, hc.2.2.1, Nat.lt_of_lt_of_le hc.2.2.2 hled.next⟩
    · rcases ho.2 with hsame | hnone | hempty
      · have hmode : (s.act (.setFastForward fastforward next)).fastforward = s.fastforward := hsame
        rw [hmode]
        exact h.grouped
      · exact Or.inl hnone
      · exact Or.inr fun _ => hempty
  | release =>
    exact ⟨h.interval, h.accounted.abortBarrier, h.held.abortBarrier, h.grouped,
      fun _ hc => Bool.noConfusion hc, fun hd => ⟨fun _ => rfl, (h.disabled hd).2⟩⟩

/-- The barrier is entered only when all were released. -/
theorem Inv.entry {s e : BarrierSyncServer n} {i : BarrierStep n} {hooks : Hooks n} {cont : Bool}
    (h : Inv s) (hp : Permitted s i) (hentry : s.entry i = some (e, hooks, cont))
    (hfree : ∀ core thread time hooks, i = .synchronize core thread time hooks →
      s.acquire (s.master core) = false) : Inv e ∧ e.toRelease = [] := by
  have hreached : ∀ {t : BarrierSyncServer n}, Inv t → t.isBarrierReached = true →
      t.toRelease = [] := by
    intro t ht hreach
    rcases ht.grouped with hnone | hempty
    · exact ht.held.empty_of_not_blocks (not_blocks_of_reached hreach (Or.inr hnone))
    · cases hff : t.fastforward with
      | true => exact hempty hff
      | false => exact ht.held.empty_of_not_blocks (not_blocks_of_reached hreach (Or.inl hff))
  cases i with
  | synchronize core thread time hooks =>
    simp only [BarrierSyncServer.entry] at hentry
    split at hentry
    · cases hentry
    · rename_i hcond
      cases hentry
      simp only [Bool.or_eq_true, Bool.not_eq_true', not_or, Bool.not_eq_true,
        Bool.not_eq_false] at hcond
      have hinv := h.arrive (hfree core thread time hooks rfl) hcond.1.1 thread time
      exact ⟨hinv, hreached hinv hcond.2⟩
  | threadStall thread running ms hooks | threadExit thread running ms hooks =>
    simp only [BarrierSyncServer.entry] at hentry
    split at hentry
    · cases hentry
    · rename_i hcond
      cases hentry
      simp only [Bool.or_eq_true, Bool.not_eq_true', not_or, Bool.not_eq_true,
        Bool.not_eq_false] at hcond
      have hinv := h.stall hp.1 hp.2 thread
      exact ⟨hinv, hreached hinv hcond.2⟩
  | advance hooks =>
    cases hentry
    refine ⟨h, h.held.empty_of_not_blocks fun c hc => ?_⟩
    obtain ⟨d, -, hd⟩ := hc.2.1
    rw [hp d] at hd
    cases hd
  | action a => cases hentry

/-! ### Whole runs -/

/-- No core was released before its time; every arrival is answered once or still owed an answer;
no core is twice in the list; and nobody waits while the barrier is disabled. -/
structure Sound (s : BarrierSyncServer n) : Prop where
  below : ∀ c localClock next, .released c localClock next ∈ s.log → localClock < next
  answered : ∀ c, s.log.count (.arrives c) =
    s.log.count (.signals c) + s.log.count (.passes c) + s.owed c
  nodup : s.toRelease.Nodup
  disabled : s.disable = true → ∀ c, s.owed c = 0

/-- The barrier never goes back; only the caller passes, when it need not wait; and a caller is
left waiting exactly when it must wait. -/
structure SoundStep (s : BarrierSyncServer n) (i : BarrierStep n) (mustWait : Bool)
    (s' : BarrierSyncServer n) : Prop where
  next : s.nextBarrierTime ≤ s'.nextBarrierTime
  passes : ∀ c, s'.log.count (.passes c) = s.log.count (.passes c) ∨
    mustWait = false ∧ s'.log.count (.passes c) = s.log.count (.passes c) + 1 ∧
      ∃ core thread time hooks, i = .synchronize core thread time hooks ∧ c = s.master core
  waits : ∀ core thread time hooks, i = .synchronize core thread time hooks →
    s'.acquire (s.master core) = mustWait

theorem Inv.sound {s : BarrierSyncServer n} (h : Inv s) : Sound s where
  below := h.accounted.below
  answered := h.accounted.answered
  nodup := h.accounted.nodup
  disabled hd c := by simp [owed, (h.disabled hd).1 c, (h.disabled hd).2]

theorem led_arrive_passes (s : BarrierSyncServer n) (master : Fin n) (thread : ThreadId)
    (time : SubsecondTime) (c : Fin n) : (s.arrive master thread time).log.count (.passes c) =
      s.log.count (.passes c) := by
  have h := (led_doRelease s (some 1)).passes c
  simpa [BarrierSyncServer.arrive, note, List.count_append, List.count_cons] using h

theorem nextBarrierTime_arrive (s : BarrierSyncServer n) (master : Fin n) (thread : ThreadId)
    (time : SubsecondTime) :
    (s.arrive master thread time).nextBarrierTime = s.nextBarrierTime := by
  simp [BarrierSyncServer.arrive, note, doRelease_eq]

/-- Only the caller waits in its own name. -/
theorem arrive_only {s : BarrierSyncServer n} {master d : Fin n} {thread : ThreadId}
    {time : SubsecondTime} (hother : ∀ c, s.acquire c = true → s.coreThread c ≠ some thread)
    (hd : (s.arrive master thread time).acquire d = true)
    (hthread : (s.arrive master thread time).coreThread d = some thread) : d = master := by
  by_contra hm
  have hacq : s.acquire d = true := by
    simpa [BarrierSyncServer.arrive, note, hm] using hd
  have ht : s.coreThread d = some thread := by
    simpa [BarrierSyncServer.arrive, note, hm, (led_doRelease s (some 1)).thread] using hthread
  exact hother d hacq ht

theorem Inv.synchronize {s s' : BarrierSyncServer n} {fuel : Nat} {core : Fin n}
    {thread : ThreadId} {time : SubsecondTime} {hooks : Hooks n} {mustWait : Bool} (h : Inv s)
    (hp : Permitted s (.synchronize core thread time hooks))
    (ho : Orderly s (.synchronize core thread time hooks))
    (hs : s.synchronize fuel core thread time hooks = .ok (mustWait, s')) :
    Inv s' ∧ SoundStep s (.synchronize core thread time hooks) mustWait s' := by
  have hstep : s.nextBarrierTime ≤ s'.nextBarrierTime →
      (∀ c, s'.log.count (.passes c) = s.log.count (.passes c) ∨
        mustWait = false ∧ s'.log.count (.passes c) = s.log.count (.passes c) + 1 ∧
          c = s.master core) →
      s'.acquire (s.master core) = mustWait →
      SoundStep s (.synchronize core thread time hooks) mustWait s' := by
    intro hnext hpasses hwaits
    refine ⟨hnext, fun c => ?_, fun core' _ _ _ heq => ?_⟩
    · rcases hpasses c with heq | ⟨hmust, hcount, hc⟩
      · exact Or.inl heq
      · exact Or.inr ⟨hmust, hcount, core, thread, time, hooks, rfl, hc⟩
    · cases heq
      exact hwaits
  rw [BarrierSyncServer.synchronize] at hs
  split at hs
  · rename_i hdis
    cases hs
    exact ⟨h, hstep (Nat.le_refl _) (fun _ => Or.inl rfl) ((h.disabled hdis).1 _)⟩
  · rename_i hdis
    split at hs
    · cases hs
    · rename_i hfree
      split at hs
      · cases hs
        exact ⟨h, hstep (Nat.le_refl _) (fun _ => Or.inl rfl) (by simpa using hfree)⟩
      · rename_i htime
        have hfree' : s.acquire (s.master core) = false := by simpa using hfree
        have hinv := h.arrive hfree' (by simpa using hdis) thread time
        have hpasses := led_arrive_passes s (s.master core) thread time
        have hnext := nextBarrierTime_arrive s (s.master core) thread time
        dsimp only at hs
        split at hs
        · rename_i hreached
          have hcalm := ho.1 (s.arrive (s.master core) thread time) hooks false
            (by simp [BarrierSyncServer.entry, hdis, htime, hreached])
          have hrel := hinv.barrierRelease hcalm hs
          refine ⟨hrel.inv, hstep (hnext ▸ hrel.next) (fun c => ?_) ?_⟩
          · rw [← hpasses c]
            rcases hrel.passes c with heq | ⟨hmust, hacq, hthread, hcount⟩
            · exact Or.inl heq
            · exact Or.inr ⟨hmust, hcount, arrive_only hp hacq hthread⟩
          · exact barrierRelease_waits hinv hcalm (by simp [BarrierSyncServer.arrive, note])
              (by simp [BarrierSyncServer.arrive, note]) (fun d => arrive_only hp) hs
        · cases hs
          exact ⟨hinv, hstep (Nat.le_of_eq hnext.symm) (fun c => Or.inl (hpasses c))
            (by simp [BarrierSyncServer.arrive, note])⟩

theorem Inv.threadStall {s s' : BarrierSyncServer n} {fuel : Nat} {thread : ThreadId}
    {running : Fin n → Bool} {ms : List (Move n)} {hooks : Hooks n} (h : Inv s)
    (hstop : StopsOne s.running running) (hlegal : LegalMoves running ms)
    (hcalm : ∀ e hooks' cont, s.entry (.threadStall thread running ms hooks) =
      some (e, hooks', cont) → CalmRounds cont hooks' e.skip)
    (hs : s.threadStall fuel thread running ms hooks = .ok s') :
    Inv s' ∧ s.nextBarrierTime ≤ s'.nextBarrierTime ∧
      ∀ c, s'.log.count (.passes c) = s.log.count (.passes c) := by
  have hled := ((led_running s running).trans (led_foldl led_moves ms _)).trans
    (led_releaseThread _ thread)
  have hinv := h.stall hstop hlegal thread
  rw [BarrierSyncServer.threadStall, signal] at hs
  split at hs
  · cases hs
    exact ⟨hinv, hled.next, hled.passes⟩
  · rename_i hdis
    split at hs
    · rename_i hreached
      obtain ⟨⟨b, u⟩, hrelease, hu⟩ := except_bind_eq_ok.mp hs
      cases hu
      have hcalm := hcalm _ hooks false (if_neg (by
        rw [Bool.or_eq_true, not_or, hreached]
        exact ⟨hdis, by decide⟩))
      have hrel := hinv.barrierRelease hcalm hrelease
      refine ⟨hrel.inv, hled.next.trans hrel.next, fun c => ?_⟩
      rcases hrel.passes c with heq | ⟨-, hacq, hthread, -⟩
      · exact heq.trans (hled.passes c)
      · exact absurd hthread (hinv.thread c hacq)
    · cases hs
      exact ⟨hinv, hled.next, hled.passes⟩

/-- One orderly step. -/
theorem Inv.perform {s s' : BarrierSyncServer n} {fuel : Nat} {i : BarrierStep n} {mustWait : Bool}
    (h : Inv s) (hp : Permitted s i) (ho : Orderly s i)
    (hs : s.perform fuel i = .ok (mustWait, s')) : Inv s' ∧ SoundStep s i mustWait s' := by
  cases i with
  | synchronize core thread time hooks => exact h.synchronize hp ho hs
  | threadStall thread running ms hooks | threadExit thread running ms hooks =>
    obtain ⟨u, hstall, hu⟩ := except_bind_eq_ok.mp hs
    cases hu
    obtain ⟨hinv, hnext, hpasses⟩ := h.threadStall hp.1 hp.2 ho.1 hstall
    exact ⟨hinv, hnext, fun c => Or.inl (hpasses c), fun _ _ _ _ heq => by cases heq⟩
  | advance hooks =>
    have hrel := h.barrierRelease (ho.1 s hooks true rfl) hs
    refine ⟨hrel.inv, hrel.next, fun c => ?_, fun _ _ _ _ heq => by cases heq⟩
    rcases hrel.passes c with heq | ⟨-, hacq, hthread, -⟩
    · exact Or.inl heq
    · exact absurd hthread (h.thread c hacq)
  | action a =>
    cases hs
    have hled := led_act s a
    exact ⟨h.action hp ho, hled.next, fun c => Or.inl (hled.passes c),
      fun _ _ _ _ heq => by cases heq⟩

/-- What a step computes is what the release it enters computes, whatever the fuel. -/
theorem perform_entry {s e : BarrierSyncServer n} {i : BarrierStep n} {hooks : Hooks n}
    {cont : Bool} (hentry : s.entry i = some (e, hooks, cont))
    (hfree : ∀ core thread time hooks, i = .synchronize core thread time hooks →
      s.acquire (s.master core) = false) :
    ∃ caller, ∃ answer : Bool → Bool, ∀ fuel, s.perform fuel i =
      (e.barrierRelease fuel caller cont hooks).map fun r => (answer r.1, r.2) := by
  cases i with
  | synchronize core thread time hooks =>
    simp only [BarrierSyncServer.entry] at hentry
    split at hentry
    · cases hentry
    · rename_i hcond
      cases hentry
      simp only [Bool.or_eq_true, not_or, Bool.not_eq_true', Bool.not_eq_false] at hcond
      refine ⟨some thread, id, fun fuel => ?_⟩
      rw [BarrierSyncServer.perform, synchronize, if_neg hcond.1.1,
        if_neg (by simp [hfree core thread time hooks rfl]), if_neg hcond.1.2]
      dsimp only
      rw [if_pos hcond.2]
      cases barrierRelease _ fuel (some thread) false hooks <;> rfl
  | threadStall thread running ms hooks | threadExit thread running ms hooks =>
    simp only [BarrierSyncServer.entry] at hentry
    split at hentry
    · cases hentry
    · rename_i hcond
      cases hentry
      simp only [Bool.or_eq_true, not_or, Bool.not_eq_true', Bool.not_eq_false] at hcond
      refine ⟨none, fun _ => false, fun fuel => ?_⟩
      rw [BarrierSyncServer.perform, threadStall, signal, if_neg hcond.1, if_pos hcond.2]
      cases barrierRelease _ fuel none false hooks <;> rfl
  | advance hooks =>
    cases hentry
    refine ⟨none, id, fun fuel => ?_⟩
    rw [BarrierSyncServer.perform, advance]
    cases barrierRelease _ fuel none true hooks <;> rfl
  | action a => cases hentry

/-- A step that enters no release succeeds, or its core is already in the barrier. -/
theorem perform_no_entry {s : BarrierSyncServer n} {i : BarrierStep n} (hentry : s.entry i = none)
    (fuel : Nat) {error : BarrierError} (h : s.perform fuel i = .error error) :
    error = .alreadyInBarrier := by
  cases i with
  | synchronize core thread time hooks =>
    rw [BarrierSyncServer.perform, synchronize] at h
    split at h
    · cases h
    · rename_i hdis
      split at h
      · cases h
        rfl
      · split at h
        · cases h
        · rename_i htime
          dsimp only at h
          split at h
          · rename_i hreached
            simp [BarrierSyncServer.entry, hdis, htime, hreached] at hentry
          · cases h
  | threadStall thread running ms hooks | threadExit thread running ms hooks =>
    rw [BarrierSyncServer.perform, threadStall, signal] at h
    split at h
    · cases h
    · rename_i hdis
      split at h
      · rename_i hreached
        have hcond := hentry
        rw [BarrierSyncServer.entry, if_neg (by rw [Bool.or_eq_true, not_or, hreached]; exact ⟨hdis, by decide⟩)] at hcond
        cases hcond
      · cases h
  | advance hooks => cases hentry
  | action a => cases h

theorem barrierRelease_error {s : BarrierSyncServer n} {fuel : Nat} {caller : Option ThreadId}
    {cont : Bool} {hooks : Hooks n} (hempty : s.toRelease = []) :
    s.barrierRelease fuel caller cont hooks ≠ .error .notAllReleased := by
  intro h
  rw [BarrierSyncServer.barrierRelease, if_neg (not_not.mpr hempty)] at h
  rcases releaseLoop_error h with heq | heq <;> cases heq

/-- While a core waits, the release ends. -/
theorem barrierRelease_ends {s : BarrierSyncServer n} {caller : Option ThreadId} {cont : Bool}
    {hooks : Hooks n} {c : Fin n} (hcalm : CalmRounds cont hooks s.skip)
    (hinterval : 0 < s.barrierInterval) (hwait : s.acquire c = true) :
    s.barrierRelease (s.localClock c + 1) caller cont hooks ≠ .error .outOfFuel := by
  intro h
  rw [BarrierSyncServer.barrierRelease] at h
  split at h
  · cases h
  · obtain ⟨t, ht⟩ := releaseLoop_outOfFuel (s := s.skip) (k := 0) rfl h
    have hacq : s.skip.acquire = s.acquire := by
      unfold BarrierSyncServer.skip
      split <;> rfl
    have hclock : s.skip.localClock = s.localClock := by
      unfold BarrierSyncServer.skip
      split <;> rfl
    have hend := roundState_ends hcalm ((led_skip s).interval ▸ hinterval)
      ((congrFun hacq c).trans hwait)
    rw [hclock] at hend
    rw [Nat.zero_add, hend] at ht
    cases ht

/-- What is so along orderly runs: in every state reached, and of every orderly step from there,
which moreover finds all cores released when it enters the barrier, and ends if one waits. -/
theorem run_sound {tr : List (BarrierStep n × Bool)} {s : BarrierSyncServer n}
    (h : Run machine (fun s i => Permitted s i ∧ Orderly s i) tr s) :
    Sound s ∧ ∀ i, Permitted s i → Orderly s i →
      (∀ mustWait s', machine.step s i mustWait s' → SoundStep s i mustWait s') ∧
      (∀ fuel, s.perform fuel i ≠ .error .notAllReleased) ∧
      (∀ e hooks cont, s.entry i = some (e, hooks, cont) → (∃ c, e.acquire c = true) →
        ∃ fuel, s.perform fuel i ≠ .error .outOfFuel) := by
  have hinv : Inv s := by
    refine Run.invariant (M := machine) (I := Inv) (fun s hs => Inv.fresh hs) ?_ h
    rintro s i mustWait s' hs hok ⟨fuel, hstep⟩
    exact (hs.perform hok.1 hok.2 hstep).1
  refine ⟨hinv.sound, fun i hp ho => ⟨fun o s' ⟨fuel, hstep⟩ => (hinv.perform hp ho hstep).2,
    fun fuel herror => ?_, fun e hooks cont hentry ⟨c, hc⟩ => ?_⟩⟩
  · cases hentry : s.entry i with
    | none => cases perform_no_entry hentry fuel herror
    | some entered =>
      obtain ⟨e, hooks, cont⟩ := entered
      by_cases hfree : ∀ core thread time hooks, i = .synchronize core thread time hooks →
          s.acquire (s.master core) = false
      · obtain ⟨caller, answer, hperform⟩ := perform_entry hentry hfree
        have hempty := (hinv.entry hp hentry hfree).2
        rw [hperform] at herror
        cases hr : e.barrierRelease fuel caller cont hooks with
        | ok r =>
          rw [hr] at herror
          cases herror
        | error error =>
          rw [hr] at herror
          cases herror
          exact barrierRelease_error hempty hr
      · push Not at hfree
        obtain ⟨core, thread, time, hooks', rfl, hacq⟩ := hfree
        rw [BarrierSyncServer.perform, synchronize] at herror
        split at herror
        · cases herror
        · rw [if_pos (by simpa using hacq)] at herror
          cases herror
  · by_cases hfree : ∀ core thread time hooks, i = .synchronize core thread time hooks →
        s.acquire (s.master core) = false
    · obtain ⟨caller, answer, hperform⟩ := perform_entry hentry hfree
      have he := (hinv.entry hp hentry hfree).1
      refine ⟨e.localClock c + 1, fun herror => ?_⟩
      rw [hperform] at herror
      cases hr : e.barrierRelease (e.localClock c + 1) caller cont hooks with
      | ok r =>
        rw [hr] at herror
        cases herror
      | error error =>
        rw [hr] at herror
        cases herror
        exact barrierRelease_ends (ho.1 e hooks cont hentry) he.interval hc hr
    · push Not at hfree
      obtain ⟨core, thread, time, hooks', rfl, hacq⟩ := hfree
      refine ⟨0, fun herror => ?_⟩
      rw [BarrierSyncServer.perform, synchronize] at herror
      split at herror
      · cases herror
      · rw [if_pos (by simpa using hacq)] at herror
        cases herror

/-- Three cores with a running thread each, and one host. -/
def threeCores : BarrierSyncServer 3 where
  barrierInterval := 10
  nextBarrierTime := 10
  localClock := fun _ => 0
  acquire := fun _ => false
  toRelease := []
  coreGroup := fun _ => none
  coreThread := fun _ => none
  globalTime := 0
  fastforward := false
  disable := false
  hostCores := some 1
  running := fun _ => true
  log := []

/-- Periodic events that do nothing. -/
def idle : Hooks n where
  actions := fun _ => []
  anyThreadRunning := fun _ => true
  timeoutPending := fun _ => true
  shuffle := id
  shuffle_perm := List.Perm.refl

theorem calmRounds_idle {s : BarrierSyncServer n} {cont : Bool}
    (hruns : ∀ c, s.acquire c = true → s.coreGroup c = none ∧ s.running c = true) :
    CalmRounds cont idle s := by
  have hkept : ∀ k r, s.roundState cont idle k = some r →
      r.acquire = s.acquire ∧ r.coreGroup = s.coreGroup ∧ r.running = s.running := by
    intro k
    induction k with
    | zero =>
      intro r hr
      cases hr
      exact ⟨rfl, rfl, rfl⟩
    | succ k ih =>
      intro r hr
      obtain ⟨q, hq, -, -, rfl⟩ := roundState_succ hr
      exact ih q hq
  intro k r hr
  obtain ⟨hacq, hgroup, hrun⟩ := hkept k r hr
  refine Or.inr ⟨rfl, Or.inr fun hosts _ => ?_⟩
  have hnone : (r.periodic idle k).strays = ∅ := by
    refine Finset.filter_eq_empty_iff.mpr fun c _ => ?_
    rintro ⟨hc, hstray⟩
    have hc' : s.acquire c = true := hacq ▸ hc
    exact hstray ⟨(congrFun hgroup c).trans (hruns c hc').1,
      c, Or.inl rfl, (congrFun hrun c).trans (hruns c hc').2⟩
  rw [hnone]
  exact Nat.zero_le _

open scoped Lib.Literals in
def twoWait : BarrierSyncServer 3 := (threeCores.arrive 0 0 10).arrive 1 1 10

open scoped Lib.Literals in
/-- The third core has come: it passed, one core was released, and one is still to be. -/
def oneLeft : BarrierSyncServer 3 :=
  (((twoWait.arrive 2 2 10).periodic idle 0).bump.releaseDue (some 2)).throttle idle

open scoped Lib.Literals in
def comeTogether : List (BarrierStep 3 × Bool) :=
  [(.synchronize 0 0 10 idle, true), (.synchronize 1 1 10 idle, true),
    (.synchronize 2 2 10 idle, false)]

theorem run_comeTogether :
    Run machine (fun s i => Permitted s i ∧ Orderly s i) comeTogether oneLeft := by
  have hstart : Run machine (fun s i => Permitted s i ∧ Orderly s i) [] threeCores :=
    .start ⟨by decide, rfl, rfl, rfl, rfl, rfl, rfl, rfl, rfl⟩
  have hquiet : ∀ {s : BarrierSyncServer 3} {i : BarrierStep 3}, s.entry i = none →
      ∀ e hooks cont, s.entry i = some (e, hooks, cont) → CalmRounds cont hooks e.skip := by
    intro s i hnone e hooks cont hentry
    rw [hnone] at hentry
    cases hentry
  have hfirst : Permitted threeCores (.synchronize 0 0 10 idle) :=
    (by decide : ∀ c, threeCores.acquire c = true → threeCores.coreThread c ≠ some 0)
  have hsecond : Permitted (threeCores.arrive 0 0 10) (.synchronize 1 1 10 idle) :=
    (by decide : ∀ c, (threeCores.arrive 0 0 10).acquire c = true →
      (threeCores.arrive 0 0 10).coreThread c ≠ some 1)
  have hthird : Permitted twoWait (.synchronize 2 2 10 idle) :=
    (by decide : ∀ c, twoWait.acquire c = true → twoWait.coreThread c ≠ some 2)
  have hone : Run machine (fun s i => Permitted s i ∧ Orderly s i)
      [(.synchronize 0 0 10 idle, true)] (threeCores.arrive 0 0 10) :=
    .next hstart ⟨hfirst, hquiet rfl, trivial⟩ ⟨1, rfl⟩
  have htwo : Run machine (fun s i => Permitted s i ∧ Orderly s i)
      [(.synchronize 0 0 10 idle, true), (.synchronize 1 1 10 idle, true)] twoWait :=
    .next hone ⟨hsecond, hquiet rfl, trivial⟩ ⟨1, rfl⟩
  refine .next htwo ⟨hthird, ?_, trivial⟩ ⟨1, rfl⟩
  intro e hooks cont hentry
  have hentered : twoWait.entry (.synchronize 2 2 10 idle) =
      some (twoWait.arrive 2 2 10, idle, false) := rfl
  rw [hentered] at hentry
  cases hentry
  exact calmRounds_idle fun c _ => ⟨rfl, rfl⟩

/-- The invariant at work while a core is still to be released. -/
theorem run_sound_oneLeft : Sound oneLeft ∧ oneLeft.toRelease = [0] ∧ ∀ i, Permitted oneLeft i →
    Orderly oneLeft i → ∀ fuel, oneLeft.perform fuel i ≠ .error .notAllReleased := by
  obtain ⟨hsound, hsteps⟩ := run_sound run_comeTogether
  exact ⟨hsound, by rfl, fun i hp ho => (hsteps i hp ho).2.1⟩

/-- Disabled while a core is still to be released, the barrier leaves that core waiting. -/
theorem setDisable_leaves_waiter :
    ¬ ∀ (tr : List (BarrierStep 3 × Bool)) (s : BarrierSyncServer 3),
      Run machine Permitted tr s → Sound s := by
  intro h
  have hrun : Run machine Permitted comeTogether oneLeft :=
    run_comeTogether.weaken fun _ _ hok => hok.1
  have hpermit : Permitted oneLeft (.action (.setDisable true)) := trivial
  have hnext : Run machine Permitted (comeTogether ++ [(.action (.setDisable true), false)])
      (oneLeft.act (.setDisable true)) := .next hrun hpermit ⟨0, rfl⟩
  have howed := (h _ _ hnext).disabled rfl 0
  have hone : (oneLeft.act (.setDisable true)).owed 0 = 1 := by rfl
  rw [hone] at howed
  cases howed

end BarrierSyncServer

end Sniper.System.Barrier
