import Sniper.Performance.QuietCycles
set_option autoImplicit false

/-! Running the timer with skipped cycles and running it cycle by cycle. -/

namespace Sniper.Performance
open Sniper.Lib RobTimer

namespace RobState

variable {σ μ : Type} {cfg : RobConfig σ μ}

/-! ### Runs to the end of a batch -/

/-- The timer runs until it asks for more micro-operations. -/
inductive Ends (cfg : RobConfig σ μ) (mode : Mode) : RobState σ μ → RobState σ μ → Prop where
  | stop {s : RobState σ μ} : s.execute cfg mode = .ok none → Ends cfg mode s s
  | step {s t u : RobState σ μ} : s.execute cfg mode = .ok (some t) → Ends cfg mode t u →
      Ends cfg mode s u

theorem ends_of_run {mode : Mode} {fuel : Nat} {s u : RobState σ μ}
    (h : run cfg mode fuel s = .ok u) : Ends cfg mode s u := by
  induction fuel generalizing s with
  | zero => cases h
  | succ fuel ih =>
    obtain ⟨o, hexec, h⟩ := except_bind_eq_ok.mp h
    cases o with
    | none =>
      cases h
      exact .stop hexec
    | some t => exact .step hexec (ih h)

theorem run_succ {mode : Mode} {fuel : Nat} {s u : RobState σ μ}
    (h : run cfg mode fuel s = .ok u) : run cfg mode (fuel + 1) s = .ok u := by
  induction fuel generalizing s with
  | zero => cases h
  | succ fuel ih =>
    obtain ⟨o, hexec, h⟩ := except_bind_eq_ok.mp h
    rw [run, hexec]
    cases o with
    | none => exact h
    | some t => exact ih h

theorem run_mono {mode : Mode} {fuel fuel' : Nat} {s u : RobState σ μ} (hle : fuel ≤ fuel')
    (h : run cfg mode fuel s = .ok u) : run cfg mode fuel' s = .ok u := by
  induction hle with
  | refl => exact h
  | step _ ih => exact run_succ ih

theorem Ends.run {mode : Mode} {s u : RobState σ μ} (h : Ends cfg mode s u) :
    ∃ fuel, RobState.run cfg mode fuel s = .ok u := by
  induction h with
  | stop hexec => exact ⟨1, by rw [RobState.run, hexec]; rfl⟩
  | step hexec _ ih =>
    obtain ⟨fuel, hrun⟩ := ih
    exact ⟨fuel + 1, by rw [RobState.run, hexec]; exact hrun⟩

theorem simulateAll_mono {mode : Mode} {fuel fuel' : Nat} {stream : List (List DynamicMicroOp)}
    {s u : RobState σ μ} (hle : fuel ≤ fuel') (h : simulateAll cfg mode fuel s stream = .ok u) :
    simulateAll cfg mode fuel' s stream = .ok u := by
  induction stream generalizing s with
  | nil => exact h
  | cons insts stream ih =>
    obtain ⟨t, hsim, h⟩ := except_bind_eq_ok.mp h
    obtain ⟨timer, henq, hrun⟩ := except_bind_eq_ok.mp hsim
    refine except_bind_eq_ok.mpr ⟨t, ?_, ih h⟩
    exact except_bind_eq_ok.mpr ⟨timer, henq, run_mono hle hrun⟩

/-- A batch is put into the buffer and run, then the rest of the stream. -/
theorem simulateAll_cons {mode : Mode} {insts : List DynamicMicroOp}
    {stream : List (List DynamicMicroOp)} {s u : RobState σ μ} :
    (∃ fuel, simulateAll cfg mode fuel s (insts :: stream) = .ok u) ↔
      ∃ timer t, insts.foldlM (enqueue cfg) s.timer = .ok timer ∧
        Ends cfg mode { s with timer := timer } t ∧
        ∃ fuel, simulateAll cfg mode fuel t stream = .ok u := by
  constructor
  · rintro ⟨fuel, h⟩
    obtain ⟨t, hsim, h⟩ := except_bind_eq_ok.mp h
    obtain ⟨timer, henq, hrun⟩ := except_bind_eq_ok.mp hsim
    exact ⟨timer, t, henq, ends_of_run hrun, fuel, h⟩
  · rintro ⟨timer, t, henq, hends, fuel, h⟩
    obtain ⟨fuel', hrun⟩ := hends.run
    refine ⟨max fuel fuel', except_bind_eq_ok.mpr ⟨t, ?_, simulateAll_mono (le_max_left _ _) h⟩⟩
    exact except_bind_eq_ok.mpr ⟨timer, henq, run_mono (le_max_right _ _) hrun⟩

theorem execute_none {mode : Mode} {s : RobState σ μ} :
    s.execute cfg mode = .ok none ↔ s.timer.starved cfg s.now = true := by
  rw [execute]
  by_cases hstarved : s.timer.starved cfg s.now = true
  · simp [hstarved]
  · rw [if_neg hstarved]
    refine ⟨fun h => ?_, fun h => absurd h hstarved⟩
    obtain ⟨⟨timer, c, e⟩, -, h⟩ := except_bind_eq_ok.mp h
    cases h

theorem execute_some {mode : Mode} {s t : RobState σ μ} :
    s.execute cfg mode = .ok (some t) ↔ s.timer.starved cfg s.now = false ∧
      ∃ timer c e, s.timer.cycle cfg s.now s.contention = .ok (timer, c, e) ∧
        t = ⟨mode.next s.now e, timer, c⟩ := by
  rw [execute]
  by_cases hstarved : s.timer.starved cfg s.now = true
  · simp [hstarved]
  · rw [if_neg hstarved]
    constructor
    · intro h
      obtain ⟨⟨timer, c, e⟩, hcycle, h⟩ := except_bind_eq_ok.mp h
      cases h
      exact ⟨eq_false_of_ne_true hstarved, timer, c, e, hcycle, rfl⟩
    · rintro ⟨-, timer, c, e, hcycle, rfl⟩
      exact except_bind_eq_ok.mpr ⟨(timer, c, e), hcycle, rfl⟩

/-! ### The clock that skips is ahead -/

theorem next_skip (now event : Nat) :
    Mode.skip.next now (WithTop.some event) = if now + 1 < event then event else now + 1 := rfl

theorem le_next (now : Nat) (e : Time) : now + 1 ≤ Mode.skip.next now e := by
  induction e using WithTop.recTopCoe with
  | top => exact le_rfl
  | coe event =>
    rw [next_skip]
    split <;> omega

/-- The clock passes the next cycle only when no event comes before where it stops. -/
theorem lt_of_lt_next {now t : Nat} {e : Time} (hnow : now + 1 ≤ t)
    (ht : t < Mode.skip.next now e) : (now : Time) < e ∧ (t : Time) < e := by
  induction e using WithTop.recTopCoe with
  | top => exact ⟨WithTop.coe_lt_top now, WithTop.coe_lt_top t⟩
  | coe event =>
    rw [next_skip] at ht
    split at ht
    · have hlt : now < event := by omega
      exact ⟨WithTop.coe_lt_coe.mpr hlt, WithTop.coe_lt_coe.mpr ht⟩
    · omega

variable (hm : ∀ m, cfg.contention = some m → m.Resets)
include hm

theorem initCycle_initCycle (now before : Nat) (c : σ) :
    initCycle cfg now (initCycle cfg before c) = initCycle cfg now c := by
  cases hc : cfg.contention with
  | none => simp [initCycle, hc]
  | some m => simpa [initCycle, hc] using (hm m hc).reset now before c

theorem stops_initCycle (now before : Nat) (c : σ) :
    stops cfg (initCycle cfg now c) = stops cfg (initCycle cfg before c) := by
  cases hc : cfg.contention with
  | none => simp [initCycle, hc]
  | some m => simp [initCycle, stops, exhausted, hc, (hm m hc).fresh now before c]

omit hm

/-- One run skips cycles and the other is at an earlier one: the timers are the same, and from the
earlier cycle to the later nothing happens. -/
structure Ahead (cfg : RobConfig σ μ) (c k : RobState σ μ) : Prop where
  timer : c.timer = k.timer
  now : c.now ≤ k.now
  contention : ∀ t, initCycle cfg t c.contention = initCycle cfg t k.contention
  waiting : Waiting k.timer
  quiet : ∀ t, c.now ≤ t → t < k.now →
    Quiet cfg (stops cfg (initCycle cfg t k.contention)) t k.timer

theorem Ahead.refl {s : RobState σ μ} (hw : Waiting s.timer) : Ahead cfg s s :=
  ⟨rfl, le_rfl, fun _ => rfl, hw, fun _ hle hlt => absurd hlt (not_lt_of_ge hle)⟩

/-- The same micro-operations are put into both buffers. -/
theorem Ahead.enqueue {c k : RobState σ μ} (h : Ahead cfg c k) {insts : List DynamicMicroOp}
    {timer : RobTimer μ} (henq : insts.foldlM (RobTimer.enqueue cfg) k.timer = .ok timer) :
    Ahead cfg { c with timer := timer } { k with timer := timer } where
  timer := rfl
  now := h.now
  contention := h.contention
  waiting := h.waiting.extends (enqueueAll_extends henq)
  quiet t hle hlt := (h.quiet t hle hlt).extends (enqueueAll_extends henq)

/-- A run that asks for more micro-operations would ask for them later as well. -/
theorem Ahead.starved {c k : RobState σ μ} (h : Ahead cfg c k)
    (hstarved : c.timer.starved cfg c.now = true) : k.timer.starved cfg k.now = true := by
  rw [RobTimer.starved, Bool.and_eq_true, decide_eq_true_eq, decide_eq_true_eq] at hstarved ⊢
  rw [h.timer] at hstarved
  exact ⟨hstarved.1.trans (WithTop.coe_le_coe.mpr h.now), hstarved.2⟩

theorem Ahead.cycle_eq {c k : RobState σ μ} (h : Ahead cfg c k) (heq : c.now = k.now) :
    c.timer.cycle cfg c.now c.contention = k.timer.cycle cfg k.now k.contention := by
  simp only [cycle, doIssue, h.timer, heq, h.contention]

include hm

/-- After a cycle that both run, the one that skips is ahead. -/
theorem Ahead.next {s : RobState σ μ} (hw : Waiting s.timer) {timer : RobTimer μ} {c : σ} {e : Time}
    (hcycle : s.timer.cycle cfg s.now s.contention = .ok (timer, c, e)) :
    Ahead cfg ⟨Mode.single.next s.now e, timer, c⟩ ⟨Mode.skip.next s.now e, timer, c⟩ where
  timer := rfl
  now := le_next s.now e
  contention _ := rfl
  waiting := hw.cycle hcycle
  quiet t hle hlt := by
    obtain ⟨hnow, ht⟩ := lt_of_lt_next hle hlt
    obtain ⟨rfl, hquiet⟩ := quiet_of_cycle hw hcycle hnow
    rw [initCycle_initCycle hm, stops_initCycle hm t s.now]
    exact hquiet t ht

/-- A cycle that the other run skips. -/
theorem Ahead.quietStep {c k : RobState σ μ} (h : Ahead cfg c k) (hlt : c.now < k.now) :
    ∃ c' e, c.timer.cycle cfg c.now c.contention = .ok (c.timer, c', e) ∧
      Ahead cfg ⟨c.now + 1, c.timer, c'⟩ k := by
  have hquiet := h.quiet c.now le_rfl hlt
  rw [← h.contention, ← h.timer] at hquiet
  obtain ⟨e, hcycle⟩ := cycle_quiet hquiet
  refine ⟨_, e, hcycle, h.timer, hlt, fun t => ?_, h.waiting, fun t hle ht => ?_⟩
  · rw [initCycle_initCycle hm]
    exact h.contention t
  · exact h.quiet t (Nat.le_of_succ_le hle) ht

/-- Step by step, what is behind comes to where the other is, or asks for micro-operations. -/
theorem Ahead.catchUp {c k : RobState σ μ} (h : Ahead cfg c k) :
    ∃ c', Ahead cfg c' k ∧ (∀ u, Ends cfg .single c' u → Ends cfg .single c u) ∧
      (c'.timer.starved cfg c'.now = true ∨ c'.now = k.now) := by
  generalize hgap : k.now - c.now = gap
  induction gap generalizing c with
  | zero => exact ⟨c, h, fun _ hends => hends, .inr (le_antisymm h.now (by omega))⟩
  | succ gap ih =>
    by_cases hstarved : c.timer.starved cfg c.now = true
    · exact ⟨c, h, fun _ hends => hends, .inl hstarved⟩
    · obtain ⟨x, e, hcycle, hahead⟩ := h.quietStep hm (by omega)
      have hstep : c.execute cfg .single = .ok (some ⟨c.now + 1, c.timer, x⟩) :=
        execute_some.mpr ⟨eq_false_of_ne_true hstarved, c.timer, x, e, hcycle, rfl⟩
      have hgap' : k.now - (c.now + 1) = gap := by omega
      obtain ⟨c', hc', hends, hstop⟩ := ih hahead hgap'
      exact ⟨c', hc', fun u hu => .step hstep (hends u hu), hstop⟩

/-- A batch run with skipped cycles is run cycle by cycle. -/
theorem Ahead.single {c k k' : RobState σ μ} (h : Ahead cfg c k) (hends : Ends cfg .skip k k') :
    ∃ c', Ends cfg .single c c' ∧ Ahead cfg c' k' := by
  induction hends generalizing c with
  | @stop k hexec =>
    obtain ⟨c', hc', hends, hstop⟩ := h.catchUp hm
    refine ⟨c', hends c' (.stop (execute_none.mpr ?_)), hc'⟩
    rcases hstop with hstarved | heq
    · exact hstarved
    · rw [hc'.timer, heq]
      exact execute_none.mp hexec
  | @step k k1 k' hexec _ ih =>
    obtain ⟨hfed, timer, x, e, hcycle, rfl⟩ := execute_some.mp hexec
    obtain ⟨c', hc', hends, hstop⟩ := h.catchUp hm
    have heq : c'.now = k.now := by
      rcases hstop with hstarved | heq
      · rw [hc'.starved hstarved] at hfed
        cases hfed
      · exact heq
    have hstep : c'.execute cfg .single = .ok (some ⟨Mode.single.next k.now e, timer, x⟩) :=
      execute_some.mpr ⟨by rw [hc'.timer, heq]; exact hfed, timer, x, e,
        (hc'.cycle_eq heq).trans hcycle, by rw [heq]⟩
    obtain ⟨u, hu, hahead⟩ := ih (Ahead.next hm h.waiting hcycle)
    exact ⟨u, hends u (.step hstep hu), hahead⟩

/-- A batch run cycle by cycle is run with skipped cycles. -/
theorem Ahead.skip {c k c' : RobState σ μ} (h : Ahead cfg c k) (hends : Ends cfg .single c c') :
    ∃ k', Ends cfg .skip k k' ∧ Ahead cfg c' k' := by
  induction hends generalizing k with
  | stop hexec => exact ⟨k, .stop (execute_none.mpr (h.starved (execute_none.mp hexec))), h⟩
  | @step c c1 c' hexec _ ih =>
    obtain ⟨hfed, timer, x, e, hcycle, rfl⟩ := execute_some.mp hexec
    rcases Nat.lt_or_eq_of_le h.now with hlt | heq
    · obtain ⟨x', e', hquiet, hahead⟩ := h.quietStep hm hlt
      rw [hquiet] at hcycle
      cases hcycle
      exact ih hahead
    · rw [h.cycle_eq heq] at hcycle
      have hstep : k.execute cfg .skip = .ok (some ⟨Mode.skip.next k.now e, timer, x⟩) :=
        execute_some.mpr ⟨by rw [← h.timer, ← heq]; exact hfed, timer, x, e, hcycle, rfl⟩
      have hnext := Ahead.next hm h.waiting hcycle
      rw [← heq] at hnext hstep
      obtain ⟨k', hk', hahead⟩ := ih hnext
      exact ⟨k', .step hstep hk', hahead⟩

omit hm in
theorem Ends.starved {mode : Mode} {s u : RobState σ μ} (h : Ends cfg mode s u) :
    u.timer.starved cfg u.now = true := by
  induction h with
  | stop hexec => exact execute_none.mp hexec
  | step _ _ ih => exact ih

theorem Ahead.singleAll {stream : List (List DynamicMicroOp)} {c k k' : RobState σ μ}
    (h : Ahead cfg c k) (hstop : c.now = k.now ∨ c.timer.starved cfg c.now = true)
    (hrun : ∃ fuel, simulateAll cfg .skip fuel k stream = .ok k') :
    ∃ c', (∃ fuel, simulateAll cfg .single fuel c stream = .ok c') ∧ Ahead cfg c' k' ∧
      (c'.now = k'.now ∨ c'.timer.starved cfg c'.now = true) := by
  induction stream generalizing c k with
  | nil =>
    obtain ⟨fuel, hrun⟩ := hrun
    cases hrun
    exact ⟨c, ⟨0, rfl⟩, h, hstop⟩
  | cons insts stream ih =>
    obtain ⟨timer, k1, henq, hends, hrest⟩ := simulateAll_cons.mp hrun
    obtain ⟨c1, hends1, h1⟩ := (h.enqueue henq).single hm hends
    obtain ⟨c', hrest', hahead⟩ := ih h1 (.inr hends1.starved) hrest
    exact ⟨c', simulateAll_cons.mpr ⟨timer, c1, by rw [h.timer]; exact henq, hends1, hrest'⟩,
      hahead⟩

theorem Ahead.skipAll {stream : List (List DynamicMicroOp)} {c k c' : RobState σ μ}
    (h : Ahead cfg c k) (hrun : ∃ fuel, simulateAll cfg .single fuel c stream = .ok c') :
    ∃ k', ∃ fuel, simulateAll cfg .skip fuel k stream = .ok k' := by
  induction stream generalizing c k with
  | nil => exact ⟨k, 0, rfl⟩
  | cons insts stream ih =>
    obtain ⟨timer, c1, henq, hends, hrest⟩ := simulateAll_cons.mp hrun
    rw [h.timer] at henq
    obtain ⟨k1, hends1, h1⟩ := (h.enqueue henq).skip hm hends
    obtain ⟨k', hrest'⟩ := ih h1 hrest
    exact ⟨k', simulateAll_cons.mpr ⟨timer, k1, henq, hends1, hrest'⟩⟩

omit hm

theorem waiting_new (loads stores : Nat) (memory : μ) (contention : σ) :
    Waiting (new loads stores memory contention).timer := by
  intro j e _ he
  simp [new] at he

theorem simulateAll_unique {mode : Mode} {fuel fuel' : Nat} {stream : List (List DynamicMicroOp)}
    {s u u' : RobState σ μ} (h : simulateAll cfg mode fuel s stream = .ok u)
    (h' : simulateAll cfg mode fuel' s stream = .ok u') : u = u' := by
  have hmax := simulateAll_mono (le_max_left fuel fuel') h
  rw [simulateAll_mono (le_max_right fuel fuel') h'] at hmax
  exact (Except.ok.inj hmax).symm

/-- Skipping cycles and running them all end with the same timer. Only the clocks can differ, when
the window is full and nothing happens from the one time to the other. -/
theorem skip_invisible (cfg : RobConfig σ μ) (hm : ∀ m, cfg.contention = some m → m.Resets)
    (loads stores : Nat) (memory : μ) (contention : σ) (stream : List (List DynamicMicroOp)) :
    ((∃ fuel k, simulateAll cfg .skip fuel (new loads stores memory contention) stream = .ok k) ↔
      ∃ fuel c,
        simulateAll cfg .single fuel (new loads stores memory contention) stream = .ok c) ∧
    ∀ fuel fuel' k c,
      simulateAll cfg .skip fuel (new loads stores memory contention) stream = .ok k →
      simulateAll cfg .single fuel' (new loads stores memory contention) stream = .ok c →
      c.timer = k.timer ∧ c.now ≤ k.now ∧
        (k.timer.numInRob ≠ cfg.windowSize → c.now = k.now) ∧
        ∀ t, c.now ≤ t → t < k.now → ∃ e, k.timer.cycle cfg t k.contention =
          .ok (k.timer, initCycle cfg t k.contention, e) := by
  have hstart : Ahead cfg (new loads stores memory contention)
      (new loads stores memory contention) := .refl (waiting_new loads stores memory contention)
  refine ⟨⟨?_, ?_⟩, fun fuel fuel' k c hskip hsingle => ?_⟩
  · rintro ⟨fuel, k, hrun⟩
    obtain ⟨c, ⟨fuel', hc⟩, -, -⟩ := hstart.singleAll hm (.inl rfl) ⟨fuel, hrun⟩
    exact ⟨fuel', c, hc⟩
  · rintro ⟨fuel, c, hrun⟩
    obtain ⟨k, fuel', hk⟩ := hstart.skipAll hm ⟨fuel, hrun⟩
    exact ⟨fuel', k, hk⟩
  · obtain ⟨c', ⟨fuel1, hc'⟩, hahead, hstop⟩ := hstart.singleAll hm (.inl rfl) ⟨fuel, hskip⟩
    obtain rfl := simulateAll_unique hsingle hc'
    refine ⟨hahead.timer, hahead.now, fun hroom => ?_, fun t hle hlt => ?_⟩
    · rcases Nat.lt_or_eq_of_le hahead.now with hlt | heq
      · -- the front end of the run behind is not stalled, so its window is full
        rcases hstop with heq | hstarved
        · exact heq
        · rw [RobTimer.starved, Bool.and_eq_true, decide_eq_true_eq] at hstarved
          rcases (hahead.quiet c.now le_rfl hlt).front with hfull | hstalled
          · exact absurd hfull hroom
          · rw [← hahead.timer] at hstalled
            exact absurd hstarved.1 (not_le_of_gt hstalled)
      · exact heq
    · exact cycle_quiet (hahead.quiet t hle hlt)

/-- A core of width one with a window of three, whose memory answers after ten cycles. -/
def narrow (contention : Option (RobContention σ)) : RobConfig σ Unit where
  dispatchWidth := 1
  commitWidth := 1
  windowSize := 3
  rsEntries := 3
  mispredictionPenalty := 5
  storeToLoadForwarding := false
  noAddressDisambiguation := false
  inorder := false
  contention := contention
  accessMemory memory _ := ((10, 0), memory)

def plainUop (type : MicroOpType) (sources destinations : List Nat) : DynamicMicroOp where
  microOp := ⟨type, false, false, false, sources, [], destinations⟩
  sequenceNumber := 0
  address := 0
  phys := 0
  squashed := false
  intraInstructionDependencies := 0
  microOpTypeOffset := 0
  dependencies := []
  execLatency := 0
  branchMispredicted := false
  dCacheHitWhere := none
  iCacheMiss := false
  iCacheLatency := 0
  last := true
  port := .port015
  alu := none

/-- A load, two micro-operations that wait for it and one that has no place in the window. -/
def loadAndUsers : List (List DynamicMicroOp) :=
  [[plainUop .load [] [0], plainUop .execute [0] [], plainUop .execute [0] [],
    plainUop .execute [] []]]

theorem skip_invisible_loadAndUsers : ∃ c k : RobState RobContentionNehalem Unit,
    simulateAll (narrow (some (RobContentionNehalem.model fun _ => 1))) .single 20
      (new 2 2 () ⟨0, fun _ => false, 0, 0, fun _ => 0⟩) loadAndUsers = .ok c ∧
    simulateAll (narrow (some (RobContentionNehalem.model fun _ => 1))) .skip 20
      (new 2 2 () ⟨0, fun _ => false, 0, 0, fun _ => 0⟩) loadAndUsers = .ok k ∧
    c.timer = k.timer := by
  have hresets : ∀ m, (narrow (some (RobContentionNehalem.model fun _ => 1))).contention =
      some m → m.Resets := fun m hm =>
    Option.some.inj hm ▸ RobContentionNehalem.model_resets fun _ => 1
  have hsingle : (simulateAll (narrow (some (RobContentionNehalem.model fun _ => 1))) .single 20
      (new 2 2 () ⟨0, fun _ => false, 0, 0, fun _ => 0⟩) loadAndUsers).toOption.isSome := by
    decide +kernel
  have hskip : (simulateAll (narrow (some (RobContentionNehalem.model fun _ => 1))) .skip 20
      (new 2 2 () ⟨0, fun _ => false, 0, 0, fun _ => 0⟩) loadAndUsers).toOption.isSome := by
    decide +kernel
  cases hc : simulateAll (narrow (some (RobContentionNehalem.model fun _ => 1))) .single 20
      (new 2 2 () ⟨0, fun _ => false, 0, 0, fun _ => 0⟩) loadAndUsers with
  | error e =>
    rw [hc] at hsingle
    cases hsingle
  | ok c =>
    cases hk : simulateAll (narrow (some (RobContentionNehalem.model fun _ => 1))) .skip 20
        (new 2 2 () ⟨0, fun _ => false, 0, 0, fun _ => 0⟩) loadAndUsers with
    | error e =>
      rw [hk] at hskip
      cases hskip
    | ok k =>
      exact ⟨c, k, rfl, rfl, ((skip_invisible _ hresets 2 2 () _ loadAndUsers).2 20 20 k c hk hc).1⟩

/-- The clock that skips has run to where the load is done. -/
theorem skip_elapses_more : ¬ ∀ (stream : List (List DynamicMicroOp)) (fuel : Nat)
    (c k : RobState Unit Unit),
    simulateAll (narrow none) .single fuel (new 2 2 () ()) stream = .ok c →
    simulateAll (narrow none) .skip fuel (new 2 2 () ()) stream = .ok k → c.now = k.now := by
  intro hsame
  have hsingle : (simulateAll (narrow none) .single 20 (new 2 2 () ()) loadAndUsers).toOption.map
      RobState.now = some 3 := by decide +kernel
  have hskip : (simulateAll (narrow none) .skip 20 (new 2 2 () ()) loadAndUsers).toOption.map
      RobState.now = some 11 := by decide +kernel
  cases hc : simulateAll (narrow none) .single 20 (new 2 2 () ()) loadAndUsers with
  | error e =>
    rw [hc] at hsingle
    cases hsingle
  | ok c =>
    cases hk : simulateAll (narrow none) .skip 20 (new 2 2 () ()) loadAndUsers with
    | error e =>
      rw [hk] at hskip
      cases hskip
    | ok k =>
      rw [hc] at hsingle
      rw [hk] at hskip
      have hnow : c.now = 3 := Option.some.inj hsingle
      have hnow' : k.now = 11 := Option.some.inj hskip
      have heq := hsame loadAndUsers 20 c k hc hk
      omega

end RobState

end Sniper.Performance
