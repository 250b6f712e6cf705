import Sniper.Performance.CriticalPath
set_option autoImplicit false

/-! The interval timer makes progress: while nothing is dispatched, the dispatch rate grows. -/

namespace Sniper.Performance
open Sniper.Lib

namespace IntervalTimer

variable {μ : Type} {cfg : IntervalConfig μ} {s : IntervalTimer μ}

/-! ### What a dispatch leaves as it is -/

/-- The bandwidth and the number of the entries that wait. -/
structure Unmoved (s t : IntervalTimer μ) : Prop where
  bandwidth : t.remainingDispatchBandwidth = s.remainingDispatchBandwidth
  length : t.windows.window.length = s.windows.window.length

theorem Unmoved.trans {t u : IntervalTimer μ} (h : Unmoved s t) (h' : Unmoved t u) : Unmoved s u :=
  ⟨h'.bandwidth.trans h.bandwidth, h'.length.trans h.length⟩

section
variable {d : Dispatching μ}

theorem updateCriticalPath_unmoved (h : Unmoved s d.timer) :
    Unmoved s (updateCriticalPath cfg d).timer := by
  refine h.trans ?_
  simp only [updateCriticalPath, Windows.updateCriticalPathTail]
  split
  · split <;> exact ⟨rfl, rfl⟩
  · exact ⟨rfl, rfl⟩

theorem flush_unmoved (h : Unmoved s d.timer) (newCpHead latency : Nat) :
    Unmoved s (d.flush newCpHead latency).timer := ⟨h.bandwidth, h.length⟩

theorem fetchMiss_unmoved (h : Unmoved s d.timer) (cptail : Nat) :
    Unmoved s (fetchMiss cptail d).timer := by
  unfold fetchMiss
  split
  · exact ⟨h.bandwidth, h.length⟩
  · exact h

theorem branchMiss_unmoved (h : Unmoved s d.timer) (cptail : Nat) :
    Unmoved s (branchMiss cfg cptail d).timer := by
  unfold branchMiss
  split
  · exact ⟨h.bandwidth, h.length⟩
  · exact h

theorem loadCompletion_unmoved (h : Unmoved s d.timer) (start : Nat) :
    Unmoved s (loadCompletion d start).2.timer := by
  simp only [loadCompletion]
  split <;> exact ⟨h.bandwidth, h.length⟩

theorem blockWindow_unmoved {t : IntervalTimer μ} (h : Unmoved s t) (e : WindowEntry) :
    Unmoved s (blockWindow cfg t e) := by
  cases hwindow : t.windows.window with
  | nil => simpa only [blockWindow, hwindow] using h
  | cons first rest =>
    have hlength := h.length
    simp only [blockWindow, hwindow, List.length_cons] at hlength ⊢
    exact ⟨h.bandwidth, by rw [List.length_cons, blockLoop_length, hlength]⟩

theorem longLatencyLoad_unmoved (h : Unmoved s d.timer) (start : Nat) :
    Unmoved s (longLatencyLoad cfg start d).timer := by
  simp only [longLatencyLoad]
  refine blockWindow_unmoved (flush_unmoved ?_ _ _) _
  exact loadCompletion_unmoved h start

theorem otherLoad_unmoved (h : Unmoved s d.timer) (start : Nat) :
    Unmoved s (otherLoad cfg start d).timer :=
  updateCriticalPath_unmoved (loadCompletion_unmoved h start)

theorem load_unmoved (h : Unmoved s d.timer) (start : Nat) :
    Unmoved s (load cfg start d).timer := by
  have hload : Unmoved s (if d.entry.dcacheOverlap then d
      else if isLongLatencyLoad cfg d.entry then longLatencyLoad cfg start d
      else otherLoad cfg start d).timer := by
    split
    · exact h
    · split
      · exact longLatencyLoad_unmoved h start
      · exact otherLoad_unmoved h start
  exact ⟨hload.bandwidth, hload.length⟩

theorem store_unmoved (h : Unmoved s d.timer) (start : Nat) :
    Unmoved s (store cfg start d).timer := by
  have hupdate : Unmoved s (updateCriticalPath cfg { d with
      entry := d.entry.setExecTime (start + d.entry.info.bypassLatency + 1) }).timer :=
    updateCriticalPath_unmoved h
  exact ⟨hupdate.bandwidth, hupdate.length⟩

theorem execute_unmoved (h : Unmoved s d.timer) (maxProducer : Nat) :
    Unmoved s (execute cfg maxProducer d).timer := by
  simp only [execute]
  split
  · exact ⟨h.bandwidth, h.length⟩
  · split
    · exact updateCriticalPath_unmoved h
    · split
      · exact load_unmoved h _
      · split
        · exact store_unmoved h _
        · exact updateCriticalPath_unmoved h

end

theorem dispatchInstruction_unmoved (s : IntervalTimer μ) (e : WindowEntry) :
    Unmoved s (dispatchInstruction cfg s e).timer := by
  have hissued : Unmoved s { s with memory := (issueMemOp cfg s.memory e).1 } := ⟨rfl, rfl⟩
  refine execute_unmoved (branchMiss_unmoved (fetchMiss_unmoved ?_ _) _) _
  exact hissued

/-- An entry that is dispatched leaves the window. -/
theorem finish_unmoved (s : IntervalTimer μ) (e : WindowEntry) :
    ((dispatchInstruction cfg s e).finish cfg).remainingDispatchBandwidth =
        s.remainingDispatchBandwidth ∧
      ((dispatchInstruction cfg s e).finish cfg).windows.window.length =
        s.windows.window.length - 1 := by
  have hunmoved : Unmoved s (dispatchInstruction cfg s e).timer := dispatchInstruction_unmoved s e
  refine ⟨hunmoved.bandwidth, ?_⟩
  rw [← hunmoved.length, ← List.length_tail]
  unfold Dispatching.finish Windows.dispatchInstruction
  dsimp only
  split
  · split <;> rfl
  · rfl

/-! ### The dispatch rate -/

/-- The rate in units of bandwidth. -/
def ipc (cfg : IntervalConfig μ) (s : IntervalTimer μ) : FixedPoint dispatchUnit :=
  ((FixedPoint.ofInt s.windows.old.length).divInt
    (s.windows.getEffectiveCriticalPathLength cfg.windows
      (Windows.toUInt64 s.windows.getCriticalPathLength) : Nat)).add s.remainingDispatchBandwidth

theorem rate_of_path (h : 0 < s.windows.getCriticalPathLength) :
    s.calculateCurrentDispatchRate cfg = (((s.ipc cfg).floor % 2 ^ 32).toNat,
      { s with remainingDispatchBandwidth :=
        if ((s.ipc cfg).floor % 2 ^ 32).toNat < cfg.dispatchWidth then
          (s.ipc cfg).subInt ((s.ipc cfg).floor % 2 ^ 32).toNat
        else .ofInt 0 }) := by
  rw [calculateCurrentDispatchRate, if_pos h, ipc]

theorem rate_of_no_path (h : ¬ 0 < s.windows.getCriticalPathLength) :
    s.calculateCurrentDispatchRate cfg =
      (cfg.dispatchWidth, { s with remainingDispatchBandwidth := .ofInt 0 }) := by
  rw [calculateCurrentDispatchRate, if_neg h]

/-- There is at most one whole micro-operation for each entry, so the rate is not truncated. -/
theorem rate_eq_floor (hsound : s.windows.Sound cfg.windows s.windows.criticalPathTail)
    (hfraction : s.remainingDispatchBandwidth.Fraction) :
    (((s.ipc cfg).floor % 2 ^ 32).toNat : Int) = (s.ipc cfg).floor := by
  have hnonneg : 0 ≤ (s.ipc cfg).floor := FixedPoint.floor_nonneg
    (FixedPoint.share_nonneg (Int.natCast_nonneg _) (Int.natCast_nonneg _) hfraction)
  have hle : (s.ipc cfg).floor ≤ s.windows.old.length := FixedPoint.share_floor_le (by decide)
    (Int.natCast_nonneg _) (Int.natCast_nonneg _) hfraction
  have hlength := hsound.old_le
  have hsize := cfg.windows.windowSize_lt
  omega

/-- What is left of the bandwidth is less than a whole micro-operation. -/
theorem rate_fraction (hsound : s.windows.Sound cfg.windows s.windows.criticalPathTail)
    (hfraction : s.remainingDispatchBandwidth.Fraction) :
    (s.calculateCurrentDispatchRate cfg).2.remainingDispatchBandwidth.Fraction := by
  have hzero : (FixedPoint.ofInt 0 : FixedPoint dispatchUnit).Fraction :=
    FixedPoint.fraction_ofInt_zero (by decide)
  by_cases hpath : 0 < s.windows.getCriticalPathLength
  · rw [rate_of_path hpath]
    dsimp only
    split
    · rw [rate_eq_floor hsound hfraction]
      exact FixedPoint.fraction_subInt_floor (by decide)
        (FixedPoint.share_nonneg (Int.natCast_nonneg _) (Int.natCast_nonneg _) hfraction)
    · exact hzero
  · rw [rate_of_no_path hpath]
    exact hzero

/-- The critical path is so short that every micro-operation has some part of a cycle. -/
theorem effective_le (hcutoff : cfg.windows.longLatencyCutoff ≤ dispatchUnit)
    (hsound : s.windows.Sound cfg.windows s.windows.criticalPathTail)
    (hpath : 0 < s.windows.getCriticalPathLength) :
    0 < s.windows.getEffectiveCriticalPathLength cfg.windows
        (Windows.toUInt64 s.windows.getCriticalPathLength) ∧
      s.windows.getEffectiveCriticalPathLength cfg.windows
        (Windows.toUInt64 s.windows.getCriticalPathLength) ≤
          s.windows.old.length * dispatchUnit := by
  have hsum : contribution s.windows.old ≤ s.windows.old.length * dispatchUnit :=
    hsound.path.sum_growth_le.trans
      (Nat.mul_le_mul_left _ ((Nat.sub_le _ _).trans hcutoff))
  have htotal := hsound.total_eq
  rw [hsound.counts.total] at htotal
  have hlength : 0 < Windows.toUInt64 s.windows.getCriticalPathLength ∧
      Windows.toUInt64 s.windows.getCriticalPathLength ≤ contribution s.windows.old := by
    rw [hsound.getCriticalPathLength, Windows.toInt_eq] at hpath
    rw [hsound.getCriticalPathLength, Windows.toUInt64_toInt, htotal]
    have hmod := Nat.mod_le (s.windows.criticalPathTail - s.windows.criticalPathHead) (2 ^ 32)
    split at hpath
    · next hsmall =>
      rw [if_pos hsmall]
      exact ⟨Int.natCast_pos.mp hpath, hmod⟩
    · omega
  cases hcontention : cfg.windows.functionalUnitContention with
  | false =>
    rw [Windows.getEffectiveCriticalPathLength_of_no_contention _ hcontention]
    exact ⟨hlength.1, hlength.2.trans hsum⟩
  | true =>
    rw [Windows.getEffectiveCriticalPathLength_of_contention _ hcontention]
    have hold : s.windows.old ≠ [] := by
      intro hnil
      rw [hnil] at hlength
      exact absurd (hlength.1.trans_le hlength.2) (lt_irrefl 0)
    have hports := (hsound.counts.charged hold).2
    exact ⟨lt_max_of_lt_left hlength.1, max_le (hlength.2.trans hsum)
      (hports.trans (Nat.le_mul_of_pos_right _ (by decide)))⟩

/-- If the rate is less than one, the bandwidth that is carried over grows. -/
theorem rate_cases (hwidth : 1 ≤ cfg.dispatchWidth)
    (hcutoff : cfg.windows.longLatencyCutoff ≤ dispatchUnit)
    (hsound : s.windows.Sound cfg.windows s.windows.criticalPathTail) :
    0 < (s.calculateCurrentDispatchRate cfg).1 ∨
      (s.calculateCurrentDispatchRate cfg).1 = 0 ∧ s.remainingDispatchBandwidth.raw <
        (s.calculateCurrentDispatchRate cfg).2.remainingDispatchBandwidth.raw := by
  by_cases hpath : 0 < s.windows.getCriticalPathLength
  · rw [rate_of_path hpath]
    dsimp only
    rcases Nat.eq_zero_or_pos ((s.ipc cfg).floor % 2 ^ 32).toNat with hzero | hpos
    · obtain ⟨heffective, hle⟩ := effective_le hcutoff hsound hpath
      refine .inr ⟨hzero, ?_⟩
      rw [hzero, if_pos (Nat.pos_of_ne_zero (Nat.one_le_iff_ne_zero.mp hwidth))]
      have hgrows : s.remainingDispatchBandwidth.raw < (s.ipc cfg).raw :=
        FixedPoint.lt_share (Int.natCast_pos.mpr heffective) (by exact_mod_cast hle)
      simpa only [FixedPoint.subInt, Int.natCast_zero, Int.zero_mul, Int.sub_zero] using hgrows
    · exact .inl hpos
  · rw [rate_of_no_path hpath]
    exact .inl hwidth

theorem Reachable.fraction (h : Reachable cfg s) : s.remainingDispatchBandwidth.Fraction := by
  induction h with
  | new numOutstanding cpContrByPort memory => exact FixedPoint.fraction_ofInt_zero (by decide)
  | add _ hadd ih =>
    obtain ⟨windows, -, hs⟩ := except_bind_eq_ok.mp hadd
    cases hs
    exact ih
  | rate hreach ih => exact rate_fraction hreach.sound ih
  | dispatch _ _ ih =>
    rw [(finish_unmoved _ _).1]
    exact ih

/-! ### The loop -/

theorem dispatchLoop_rate_zero (left : Nat) (d : Dispatched μ) :
    dispatchLoop cfg 0 left d = d := by
  cases left with
  | zero => rfl
  | succ left =>
    unfold dispatchLoop
    split
    · rfl
    · exact if_neg fun h => absurd h.2.1 (Nat.not_lt_zero _)

/-- What is dispatched is taken from the window. -/
theorem dispatchLoop_length (dispatchRate left : Nat) (d : Dispatched μ) :
    (dispatchLoop cfg dispatchRate left d).timer.windows.window.length +
        (dispatchLoop cfg dispatchRate left d).microOps =
      d.timer.windows.window.length + d.microOps := by
  induction left generalizing d with
  | zero => rfl
  | succ left ih =>
    cases hwindow : d.timer.windows.window with
    | nil => simp only [dispatchLoop, hwindow]
    | cons e rest =>
      simp only [dispatchLoop, hwindow]
      split
      · have hnext : (d.next cfg e).timer.windows.window.length = rest.length := by
          have hlength : (d.next cfg e).timer.windows.window.length =
              d.timer.windows.window.length - 1 := (finish_unmoved d.timer e).2
          rwa [hwindow] at hlength
        rw [ih, hnext, List.length_cons]
        exact (Nat.succ_add_eq_add_succ rest.length d.microOps).symm
      · rw [hwindow]

theorem le_dispatchLoop (dispatchRate left : Nat) (d : Dispatched μ) :
    d.microOps ≤ (dispatchLoop cfg dispatchRate left d).microOps := by
  induction left generalizing d with
  | zero => exact Nat.le_refl _
  | succ left ih =>
    unfold dispatchLoop
    split
    · exact Nat.le_refl _
    · split
      · next e _ _ _ =>
        have hnext := ih (d.next cfg e)
        exact (Nat.le_succ _).trans hnext
      · exact Nat.le_refl _

theorem dispatchLoop_pos {dispatchRate : Nat} (hwidth : 1 ≤ cfg.dispatchWidth)
    (hrate : 0 < dispatchRate) (hwindow : s.windows.window ≠ []) :
    0 < (dispatchLoop cfg dispatchRate s.windows.window.length ⟨s, 0, 0, 0, .noReason⟩).microOps := by
  cases hentries : s.windows.window with
  | nil => exact absurd hentries hwindow
  | cons e rest =>
    simp only [List.length_cons, dispatchLoop, hentries]
    rw [if_pos ⟨hwidth, hrate, trivial⟩]
    have hnext : 1 ≤ (dispatchLoop cfg dispatchRate rest.length
        (Dispatched.next cfg ⟨s, 0, 0, 0, .noReason⟩ e)).microOps :=
      le_dispatchLoop _ _ (Dispatched.next cfg ⟨s, 0, 0, 0, .noReason⟩ e)
    exact Nat.lt_of_lt_of_le Nat.zero_lt_one hnext

/-- A call of `dispatchWindow` that dispatches nothing. -/
structure Idle (cfg : IntervalConfig μ) (s : IntervalTimer μ) : Prop where
  microOps : (s.dispatchWindow cfg).microOps = 0
  windows : (s.dispatchWindow cfg).timer.windows = s.windows
  grows : s.remainingDispatchBandwidth.raw <
    (s.dispatchWindow cfg).timer.remainingDispatchBandwidth.raw

theorem dispatchWindow_cases (hwidth : 1 ≤ cfg.dispatchWidth)
    (hcutoff : cfg.windows.longLatencyCutoff ≤ dispatchUnit) (h : Reachable cfg s)
    (hwindow : s.windows.window ≠ []) :
    0 < (s.dispatchWindow cfg).microOps ∨ Idle cfg s := by
  have hwindows : (s.calculateCurrentDispatchRate cfg).2.windows = s.windows :=
    calculateCurrentDispatchRate_windows s
  rcases rate_cases hwidth hcutoff h.sound with hpos | ⟨hzero, hgrows⟩
  · left
    have hrest : (s.calculateCurrentDispatchRate cfg).2.windows.window ≠ [] := by
      rw [hwindows]
      exact hwindow
    exact dispatchLoop_pos (s := (s.calculateCurrentDispatchRate cfg).2) hwidth hpos hrest
  · right
    have htimer : s.dispatchWindow cfg =
        ⟨(s.calculateCurrentDispatchRate cfg).2, 0, 1, 0, .noReason⟩ := by
      simp only [dispatchWindow, hzero, dispatchLoop_rate_zero, if_true]
    exact ⟨by rw [htimer], by rw [htimer, hwindows], by rw [htimer]; exact hgrows⟩

/-- After a cycle in which something is dispatched, the window is not full. -/
theorem dispatchWindow_not_full (h : Reachable cfg s) (hpos : 0 < (s.dispatchWindow cfg).microOps) :
    (s.dispatchWindow cfg).timer.windows.wIsFull cfg.windows = false := by
  have hlength : (s.dispatchWindow cfg).timer.windows.window.length +
      (s.dispatchWindow cfg).microOps = s.windows.window.length := by
    have hwindows : (s.calculateCurrentDispatchRate cfg).2.windows = s.windows :=
      calculateCurrentDispatchRate_windows s
    rw [← hwindows]
    exact dispatchLoop_length _ _ ⟨(s.calculateCurrentDispatchRate cfg).2, 0, 0, 0, .noReason⟩
  have hle := h.sound.window_le
  exact decide_eq_false (by omega)

/-- The state after a cycle. -/
def cycle (cfg : IntervalConfig μ) (s : IntervalTimer μ) : IntervalTimer μ :=
  (s.dispatchWindow cfg).timer

/-- The bandwidth that is missing until something is dispatched for certain. -/
def missing (s : IntervalTimer μ) : Nat := (dispatchUnit - s.remainingDispatchBandwidth.raw).toNat

theorem missing_cycle_lt (h : Reachable cfg s) (hidle : Idle cfg s) :
    missing (cycle cfg s) < missing s := by
  have hgrows := hidle.grows
  have hlt := h.fraction.lt
  unfold missing cycle
  omega

theorem exists_dispatch (hwidth : 1 ≤ cfg.dispatchWidth)
    (hcutoff : cfg.windows.longLatencyCutoff ≤ dispatchUnit) (h : Reachable cfg s)
    (hwindow : s.windows.window ≠ []) :
    ∃ n, (∀ k < n, Idle cfg ((cycle cfg)^[k] s)) ∧
      0 < (((cycle cfg)^[n] s).dispatchWindow cfg).microOps := by
  -- the induction is on the bandwidth that is missing
  induction hmissing : missing s using Nat.strong_induction_on generalizing s with
  | _ m ih =>
    rcases dispatchWindow_cases hwidth hcutoff h hwindow with hpos | hidle
    · exact ⟨0, fun k hk => absurd hk (Nat.not_lt_zero k), hpos⟩
    · have hnext : (cycle cfg s).windows.window ≠ [] := by
        rw [cycle, hidle.windows]
        exact hwindow
      obtain ⟨n, hbefore, hpos⟩ := ih _ (hmissing ▸ missing_cycle_lt h hidle) h.dispatchWindow
        hnext rfl
      refine ⟨n + 1, ?_, hpos⟩
      intro k hk
      cases k with
      | zero => exact hidle
      | succ k => exact hbefore k (Nat.lt_of_succ_lt_succ hk)

theorem whileFull_terminates (hwidth : 1 ≤ cfg.dispatchWidth)
    (hcutoff : cfg.windows.longLatencyCutoff ≤ dispatchUnit) (h : Reachable cfg s)
    (hwindow : s.windows.window ≠ []) : ∃ fuel, (whileFull cfg fuel s).isSome := by
  induction hmissing : missing s using Nat.strong_induction_on generalizing s with
  | _ m ih =>
    cases hfull : s.windows.wIsFull cfg.windows with
    | false => exact ⟨1, by rw [whileFull, hfull]; rfl⟩
    | true =>
      rcases dispatchWindow_cases hwidth hcutoff h hwindow with hpos | hidle
      · have hnext := dispatchWindow_not_full h hpos
        exact ⟨2, by rw [whileFull, hfull, if_pos rfl, whileFull, hnext]; rfl⟩
      · have hnext : (cycle cfg s).windows.window ≠ [] := by
          rw [cycle, hidle.windows]
          exact hwindow
        obtain ⟨fuel, hfuel⟩ := ih _ (hmissing ▸ missing_cycle_lt h hidle) h.dispatchWindow
          hnext rfl
        exact ⟨fuel + 1, by rw [whileFull, hfull, if_pos rfl]; exact hfuel⟩

/-- Room for one micro-operation, and the largest cutoff. -/
def largestCutoff : IntervalConfig Unit :=
  { slowMemory with windows := ⟨1, 16384, true, by decide, by decide⟩ }

end IntervalTimer

end Sniper.Performance
