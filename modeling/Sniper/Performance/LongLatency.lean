import Sniper.Performance.CriticalPath
set_option autoImplicit false

/-! How much time is charged when the critical path would become longer by the cutoff or more. -/

namespace Sniper.Performance

namespace IntervalTimer

variable {μ : Type} {cfg : IntervalConfig μ} {d : Dispatching μ} {period cpiLongLatency : Nat}

/-- `updateCriticalPath` with the time that the statistics have for long latencies, which is counted
in periods of the clock, as a 64-bit number. -/
def updateCriticalPathCounted (cfg : IntervalConfig μ) (period : Nat) (d : Dispatching μ)
    (cpiLongLatency : Nat) : Dispatching μ × Nat :=
  let lll := d.timer.windows.longLatencyOperationLatency cfg.windows d.entry
  if lll = 0 then
    let (windows, entry) := d.timer.windows.updateCriticalPathTail d.entry
    (d.update windows entry, cpiLongLatency)
  else (d.flush d.entry.execTime lll, (cpiLongLatency + lll * period) % 2 ^ 64)

theorem updateCriticalPathCounted_fst (period cpiLongLatency : Nat) :
    (updateCriticalPathCounted cfg period d cpiLongLatency).1 = updateCriticalPath cfg d := by
  rw [updateCriticalPathCounted, updateCriticalPath]
  split <;> rfl

/-- How much longer the critical path would become. -/
def extension (d : Dispatching μ) : Int :=
  (d.entry.execTime : Int) - d.timer.windows.criticalPathTail

/-- An extension below the cutoff is on the critical path. -/
structure OnPath (d d' : Dispatching μ) (cpi cpi' : Nat) : Prop where
  latency : d'.latency = d.latency
  cpi : cpi' = cpi
  tail : d'.timer.windows.criticalPathTail =
    max d.timer.windows.criticalPathTail d.entry.execTime

/-- Another one is charged as latency, and the old window is cleared. -/
structure Charged (period : Nat) (d d' : Dispatching μ) (cpi cpi' : Nat) : Prop where
  latency : (d'.latency : Int) = d.latency + extension d
  cpi : (cpi' : Int) = (cpi + extension d * period) % 2 ^ 64
  windows : d'.timer.windows = d.timer.windows.clearOldWindow d.entry.execTime

/-- No time is lost. -/
def LosesNoTime (cfg : IntervalConfig μ) (period : Nat) (d : Dispatching μ) (cpi : Nat) : Prop :=
  let result := updateCriticalPathCounted cfg period d cpi
  extension d < cfg.windows.longLatencyCutoff ∧ OnPath d result.1 cpi result.2 ∨
    cfg.windows.longLatencyCutoff ≤ extension d ∧ Charged period d result.1 cpi result.2

theorem longLatencyOperationLatency_eq (cfg : IntervalConfig μ) (d : Dispatching μ) :
    d.timer.windows.longLatencyOperationLatency cfg.windows d.entry =
      if extension d < cfg.windows.longLatencyCutoff then 0 else 1 := by
  rw [Windows.longLatencyOperationLatency, extension]
  split
  · rw [if_pos (by omega)]
  · split
    · rw [if_pos (by omega)]
    · rw [if_neg (by omega)]

theorem updateCriticalPathCounted_onPath (h : extension d < cfg.windows.longLatencyCutoff) :
    OnPath d (updateCriticalPathCounted cfg period d cpiLongLatency).1 cpiLongLatency
      (updateCriticalPathCounted cfg period d cpiLongLatency).2 := by
  have hshort := longLatencyOperationLatency_eq cfg d
  rw [if_pos h] at hshort
  simp only [updateCriticalPathCounted, hshort, if_true]
  refine ⟨rfl, rfl, ?_⟩
  rw [Windows.updateCriticalPathTail]
  split
  · next hlater => exact (max_eq_right hlater.le).symm
  · next hearlier => exact (max_eq_left (Nat.not_lt.mp hearlier)).symm

/-- One cycle is charged. -/
theorem updateCriticalPathCounted_long (period cpiLongLatency : Nat)
    (h : ¬extension d < cfg.windows.longLatencyCutoff) :
    updateCriticalPathCounted cfg period d cpiLongLatency =
      (d.flush d.entry.execTime 1, (cpiLongLatency + period) % 2 ^ 64) := by
  have hlong := longLatencyOperationLatency_eq cfg d
  rw [if_neg h] at hlong
  rw [updateCriticalPathCounted, hlong, if_neg Nat.one_ne_zero, Nat.one_mul]

/-- The answer to whether the extension is long is taken for its length. -/
theorem losesNoTime_iff (cfg : IntervalConfig μ) (period : Nat) (d : Dispatching μ) (cpi : Nat) :
    LosesNoTime cfg period d cpi ↔
      extension d < cfg.windows.longLatencyCutoff ∨ extension d = 1 := by
  by_cases h : extension d < cfg.windows.longLatencyCutoff
  · exact iff_of_true (.inl ⟨h, updateCriticalPathCounted_onPath h⟩) (.inl h)
  · have hcounted := updateCriticalPathCounted_long period cpi h
    rw [LosesNoTime, hcounted]
    constructor
    · rintro (⟨hshort, -⟩ | ⟨-, hcharged⟩)
      · exact absurd hshort h
      · have hlatency : (d.latency : Int) + 1 = d.latency + extension d := hcharged.latency
        exact .inr (by omega)
    · rintro (hshort | hone)
      · exact absurd hshort h
      · refine .inr ⟨Int.not_lt.mp h, ?_, ?_, rfl⟩
        · rw [hone]
          rfl
        · rw [hone, Int.one_mul]
          rfl

/-- The tail moves to the end of the micro-operation in either case. -/
theorem updateCriticalPath_tail : (updateCriticalPath cfg d).timer.windows.criticalPathTail =
    max d.timer.windows.criticalPathTail d.entry.execTime := by
  rw [← updateCriticalPathCounted_fst 0 0]
  by_cases h : extension d < cfg.windows.longLatencyCutoff
  · exact (updateCriticalPathCounted_onPath h).tail
  · rw [updateCriticalPathCounted_long 0 0 h]
    rw [extension] at h
    change d.entry.execTime = _
    omega

/-- A cutoff of ten cycles. -/
def shortCutoff : IntervalConfig Unit where
  windows := { slowMemory.windows with longLatencyCutoff := 10, cutoff_lt := by decide }
  dispatchWidth := 2
  branchMispredictionPenalty := 0
  memoryDependencyGranularity := 1
  lllDependencyGranularity := 1
  accessMemory memory _ := ((0, 5), memory)

/-- A micro-operation that takes a hundred cycles. -/
def hundredCycles : DynamicMicroOp :=
  { RobState.plainUop .execute [] [] with execLatency := 100 }

def divideInfo : IntervalInfo := ⟨.fpMulDiv, false, false, 0⟩

def hundredCyclesEntry : WindowEntry := .init hundredCycles divideInfo

/-- It has come to an empty window. -/
def hundredCyclesAdded : IntervalTimer Unit :=
  { new 0 (fun _ => 0) () with windows := { Windows.clear (fun _ => 0) with
    window := [hundredCyclesEntry]
    nextSequenceNumber := 1 } }

/-- It is passed on with the end of its execution. -/
def hundredCyclesPassed : Dispatching Unit :=
  ⟨hundredCyclesAdded, hundredCyclesEntry.setExecTime 100, 0, .noReason⟩

theorem hundredCycles_lose_time : Reachable shortCutoff hundredCyclesAdded ∧
    dispatchInstruction shortCutoff hundredCyclesAdded hundredCyclesEntry =
      updateCriticalPath shortCutoff hundredCyclesPassed ∧
    extension hundredCyclesPassed = 100 ∧
    (updateCriticalPath shortCutoff hundredCyclesPassed).latency = 1 ∧
    ∀ period cpi, ¬LosesNoTime shortCutoff period hundredCyclesPassed cpi := by
  have hadd : (new 0 (fun _ => 0) () : IntervalTimer Unit).add shortCutoff hundredCycles divideInfo =
      .ok hundredCyclesAdded := rfl
  refine ⟨(Reachable.new 0 (fun _ => 0) ()).add hadd, rfl, rfl, rfl, ?_⟩
  rintro period cpi (⟨hshort, -⟩ | ⟨-, hcharged⟩)
  · exact absurd hshort (by decide)
  · rw [updateCriticalPathCounted_long period cpi (by decide)] at hcharged
    have hlatency : ((0 + 1 : Nat) : Int) = (0 : Nat) + (100 : Int) := hcharged.latency
    omega

end IntervalTimer

end Sniper.Performance
