import Sniper.Performance.IntervalTimer
import Sniper.Lib.SlidingPath
import Sniper.Lib.Machine
import Sniper.Performance.CycleSkipping
set_option autoImplicit false

/-! The accounting of the critical path of the interval model. -/

namespace Sniper.Performance
open Sniper.Lib

/-! ### The counters of the old window -/

/-- What the entries add to the critical path. -/
def contribution (l : List WindowEntry) : Nat := (l.map WindowEntry.cpContr).sum

def contributionOf (type : CpContrType) (l : List WindowEntry) : Nat :=
  contribution (l.filter fun e => e.getCpContrType = type)

def portUse (port : UopPort) (l : List WindowEntry) : Nat :=
  l.countP fun e => e.uop.port = port

theorem contribution_cons (e : WindowEntry) (l : List WindowEntry) :
    contribution (e :: l) = e.cpContr + contribution l := by
  rw [contribution, List.map_cons, List.sum_cons, contribution]

theorem contribution_snoc (l : List WindowEntry) (e : WindowEntry) :
    contribution (l ++ [e]) = contribution l + e.cpContr := by
  rw [contribution, List.map_append, List.sum_append, List.map_singleton, List.sum_singleton,
    contribution]

theorem contributionOf_cons (type : CpContrType) (e : WindowEntry) (l : List WindowEntry) :
    contributionOf type (e :: l) =
      (if e.getCpContrType = type then e.cpContr else 0) + contributionOf type l := by
  rw [contributionOf, List.filter_cons]
  by_cases h : e.getCpContrType = type
  · rw [if_pos (decide_eq_true h), if_pos h, contribution_cons, contributionOf]
  · rw [if_neg (by simpa using h), if_neg h, Nat.zero_add, contributionOf]

theorem contributionOf_snoc (type : CpContrType) (l : List WindowEntry) (e : WindowEntry) :
    contributionOf type (l ++ [e]) =
      contributionOf type l + if e.getCpContrType = type then e.cpContr else 0 := by
  induction l with
  | nil => rw [List.nil_append, contributionOf_cons, Nat.add_comm]
  | cons first l ih =>
    rw [List.cons_append, contributionOf_cons, ih, contributionOf_cons, Nat.add_assoc]

theorem contributionOf_le (type : CpContrType) (l : List WindowEntry) :
    contributionOf type l ≤ contribution l := by
  induction l with
  | nil => exact Nat.le_refl _
  | cons e l ih =>
    rw [contributionOf_cons, contribution_cons]
    split <;> omega

/-- Each entry counts for exactly one type. -/
theorem sum_contributionOf (l : List WindowEntry) :
    (CpContrType.all.map fun type => contributionOf type l).sum = contribution l := by
  induction l with
  | nil => rfl
  | cons e l ih =>
    simp only [contributionOf_cons, contribution_cons, CpContrType.all, List.map_cons,
      List.map_nil, List.sum_cons, List.sum_nil] at ih ⊢
    rw [← ih]
    cases e.getCpContrType <;>
      simp only [reduceCtorEq, if_true, if_false] <;> omega

theorem portUse_cons (port : UopPort) (e : WindowEntry) (l : List WindowEntry) :
    portUse port (e :: l) = portUse port l + if e.uop.port = port then 1 else 0 := by
  simp only [portUse, List.countP_cons, decide_eq_true_eq]

theorem portUse_snoc (port : UopPort) (l : List WindowEntry) (e : WindowEntry) :
    portUse port (l ++ [e]) = portUse port l + if e.uop.port = port then 1 else 0 := by
  simp only [portUse, List.countP_append, List.countP_singleton, decide_eq_true_eq]

/-- Each entry uses exactly one port. -/
theorem sum_portUse (l : List WindowEntry) :
    portUse .port0 l + portUse .port1 l + portUse .port2 l + portUse .port34 l +
      portUse .port5 l + portUse .port05 l + portUse .port015 l = l.length := by
  induction l with
  | nil => rfl
  | cons e l ih =>
    simp only [portUse_cons, List.length_cons, ← ih]
    cases e.uop.port <;> simp only [reduceCtorEq, if_true, if_false] <;> omega

/-- The counters are those of the entries. -/
structure Windows.Counts (w : Windows) (l : List WindowEntry) : Prop where
  total : w.cpContrTotal = contribution l
  byType : ∀ type, w.cpContrByType type = contributionOf type l
  byPort : ∀ port, w.contention.countByPort port = portUse port l

namespace Windows.Counts

variable {w : Windows} {l : List WindowEntry} {e : WindowEntry}

theorem add (h : w.Counts l) (hsmall : contribution (l ++ [e]) < 2 ^ 64) :
    (w.addFunctionalUnitStats e).Counts (l ++ [e]) := by
  constructor
  · rw [contribution_snoc] at hsmall ⊢
    simp only [addFunctionalUnitStats, h.total]
    exact Nat.mod_eq_of_lt hsmall
  · intro type
    have hle := contributionOf_le type (l ++ [e])
    rw [contributionOf_snoc] at hle ⊢
    simp only [addFunctionalUnitStats, Function.update_apply, h.byType]
    by_cases htype : e.getCpContrType = type
    · subst htype
      simp only [if_true] at hle ⊢
      exact Nat.mod_eq_of_lt (hle.trans_lt hsmall)
    · rw [if_neg (Ne.symm htype), if_neg htype, Nat.add_zero]
  · intro port
    rw [portUse_snoc]
    simp only [addFunctionalUnitStats, IntervalContentionNehalem.addFunctionalUnitStats,
      Function.update_apply, h.byPort]
    by_cases hport : e.uop.port = port
    · subst hport
      simp only [if_true]
    · rw [if_neg (Ne.symm hport), if_neg hport, Nat.add_zero]

theorem cpContr_le_total (h : w.Counts (e :: l)) : e.cpContr ≤ w.cpContrTotal := by
  rw [h.total, contribution_cons]
  exact Nat.le_add_right _ _

theorem cpContr_le_byType (h : w.Counts (e :: l)) :
    e.cpContr ≤ w.cpContrByType e.getCpContrType := by
  rw [h.byType, contributionOf_cons, if_pos rfl]
  exact Nat.le_add_right _ _

theorem byPort_pos (h : w.Counts (e :: l)) : 0 < w.contention.countByPort e.uop.port := by
  rw [h.byPort, portUse_cons, if_pos rfl]
  exact Nat.succ_pos _

theorem remove (h : w.Counts (e :: l)) (hsmall : contribution (e :: l) < 2 ^ 64)
    (hlength : l.length < 2 ^ 64) : (w.removeFunctionalUnitStats e).Counts l := by
  rw [contribution_cons] at hsmall
  constructor
  · simp only [removeFunctionalUnitStats, h.total, contribution_cons]
    omega
  · intro type
    have hle := contributionOf_le type l
    simp only [removeFunctionalUnitStats, Function.update_apply, h.byType, contributionOf_cons]
    by_cases htype : e.getCpContrType = type
    · subst htype
      simp only [if_true]
      omega
    · rw [if_neg (Ne.symm htype), if_neg htype, Nat.zero_add]
  · intro port
    have hle : portUse port l ≤ l.length := List.countP_le_length
    simp only [removeFunctionalUnitStats, IntervalContentionNehalem.removeFunctionalUnitStats,
      Function.update_apply, h.byPort, portUse_cons]
    by_cases hport : e.uop.port = port
    · subst hport
      simp only [if_true]
      omega
    · rw [if_neg (Ne.symm hport), if_neg hport, Nat.add_zero]

end Windows.Counts

/-! ### The two ends of the critical path -/

/-- A path through dispatched entries. -/
abbrev CriticalPath (cfg : WindowsConfig) : Nat → List WindowEntry → Nat → Prop :=
  SlidingPath WindowEntry.execTime WindowEntry.cpContr cfg.longLatencyCutoff

/-- So many contributions do not make a counter overflow. -/
theorem CriticalPath.contribution_lt {cfg : WindowsConfig} {start final : Nat}
    {l : List WindowEntry} (h : CriticalPath cfg start l final)
    (hlength : l.length ≤ cfg.windowSize + 1) : contribution l < 2 ^ 62 := by
  have hsum : contribution l ≤ l.length * (cfg.longLatencyCutoff - 1) := h.sum_growth_le
  have hsize : l.length ≤ 2 ^ 30 := by
    have := cfg.windowSize_lt
    omega
  have hcutoff : cfg.longLatencyCutoff - 1 ≤ 2 ^ 32 - 2 := by
    have := cfg.cutoff_lt
    omega
  calc contribution l ≤ l.length * (cfg.longLatencyCutoff - 1) := hsum
    _ ≤ 2 ^ 30 * (2 ^ 32 - 2) := Nat.mul_le_mul hsize hcutoff
    _ < 2 ^ 62 := by decide

/-- An entry that waits for dispatch may have been executed already, beside a load that blocked the
window. -/
structure WindowEntry.Undispatched (e : WindowEntry) (time : Nat) : Prop where
  execTime_le : e.execTime ≤ time
  cpContr_eq : e.cpContr = 0

theorem WindowEntry.Undispatched.mono {e : WindowEntry} {time later : Nat}
    (h : e.Undispatched time) (hle : time ≤ later) : e.Undispatched later :=
  ⟨h.execTime_le.trans hle, h.cpContr_eq⟩

namespace Windows

variable {cfg : WindowsConfig} {since : Nat} {w : Windows} {e : WindowEntry}

/-- What holds while the first entry is on its way to the old window; the time is that of the tail
when it set out. -/
structure Sound (cfg : WindowsConfig) (since : Nat) (w : Windows) : Prop where
  path : CriticalPath cfg w.criticalPathHead w.old w.criticalPathTail
  counts : w.Counts w.old
  old_le : w.old.length ≤ cfg.windowSize
  window_le : w.window.length ≤ cfg.windowSize
  since_le : since ≤ w.criticalPathTail
  waiting : ∀ e ∈ w.window, e.Undispatched since

/-- What holds when its place in the critical path is known. -/
structure Executed (cfg : WindowsConfig) (w : Windows) (e : WindowEntry) : Prop where
  path : CriticalPath cfg w.criticalPathHead (w.old ++ [e]) w.criticalPathTail
  counts : w.Counts w.old
  old_le : w.old.length ≤ cfg.windowSize
  window_le : w.window.length ≤ cfg.windowSize
  waiting : ∀ e' ∈ w.window.tail, e'.Undispatched w.criticalPathTail

theorem Sound.now (h : w.Sound cfg since) : w.Sound cfg w.criticalPathTail :=
  { h with
    since_le := Nat.le_refl _
    waiting := fun e he => (h.waiting e he).mono h.since_le }

/-- A flush, to any time that is not before the tail when the entry set out. -/
theorem Sound.clearOldWindow (h : w.Sound cfg since) {newCpHead : Nat} (hle : since ≤ newCpHead) :
    (w.clearOldWindow newCpHead).Sound cfg since where
  path := .nil _
  counts := ⟨rfl, fun _ => rfl, fun _ => rfl⟩
  old_le := Nat.zero_le _
  window_le := h.window_le
  since_le := hle
  waiting := h.waiting

/-- The entry makes the path longer, or ends in time. -/
theorem Sound.extend (h : w.Sound cfg since)
    (he : Extends WindowEntry.execTime WindowEntry.cpContr cfg.longLatencyCutoff
      w.criticalPathTail e) :
    { w with criticalPathTail := w.criticalPathTail + e.cpContr }.Executed cfg e where
  path := h.path.snoc he
  counts := ⟨h.counts.total, h.counts.byType, h.counts.byPort⟩
  old_le := h.old_le
  window_le := h.window_le
  waiting := fun e' he' => (h.waiting e' (List.mem_of_mem_tail he')).mono
    (h.since_le.trans (Nat.le_add_right _ _))

/-- The entry adds nothing to the path. -/
theorem Sound.executed (h : w.Sound cfg since) (hnone : e.cpContr = 0)
    (hle : e.execTime ≤ w.criticalPathTail) : w.Executed cfg e := by
  have hextend := h.extend (e := e) (.of_le hnone hle)
  rwa [hnone, Nat.add_zero] at hextend

/-- The counters do not underflow when the oldest entry leaves. -/
structure Removable (w : Windows) (oldest : WindowEntry) : Prop where
  total : oldest.cpContr ≤ w.cpContrTotal
  byType : oldest.cpContr ≤ w.cpContrByType oldest.getCpContrType
  byPort : 0 < w.contention.countByPort oldest.uop.port

theorem Executed.removable (h : w.Executed cfg e) {oldest : WindowEntry}
    {rest : List WindowEntry} (hold : w.old = oldest :: rest) : w.Removable oldest := by
  have hcounts := h.counts
  rw [hold] at hcounts
  exact ⟨hcounts.cpContr_le_total, hcounts.cpContr_le_byType, hcounts.byPort_pos⟩

theorem Executed.evict (h : w.Executed cfg e) {oldest : WindowEntry}
    {rest : List WindowEntry} (hold : w.old = oldest :: rest) :
    (w.evict oldest rest).Executed cfg e := by
  have hpath := h.path
  have hcounts := h.counts
  have hlength := h.old_le
  rw [hold] at hpath hcounts hlength
  have hsmall := hpath.contribution_lt (by
    rw [List.length_append, List.length_singleton]
    omega)
  rw [contribution_snoc] at hsmall
  have hremove := hcounts.remove (by omega) (by
    have := cfg.windowSize_lt
    rw [List.length_cons] at hlength
    omega)
  rw [List.length_cons] at hlength
  exact {
    path := hpath.tail
    counts := ⟨hremove.total, hremove.byType, hremove.byPort⟩
    old_le := (Nat.le_succ _).trans hlength
    window_le := h.window_le
    waiting := h.waiting }

theorem Executed.push (h : w.Executed cfg e) (hlt : w.old.length < cfg.windowSize) :
    (w.push e).Sound cfg w.criticalPathTail := by
  have hlength : (w.old ++ [e]).length ≤ cfg.windowSize := by
    rw [List.length_append, List.length_singleton]
    exact hlt
  have hsmall := h.path.contribution_lt (hlength.trans (Nat.le_succ _))
  have hadd := h.counts.add (e := e) (by omega)
  exact {
    path := h.path
    counts := ⟨hadd.total, hadd.byType, hadd.byPort⟩
    old_le := hlength
    window_le := (List.length_tail ▸ Nat.sub_le _ _).trans h.window_le
    since_le := Nat.le_refl _
    waiting := h.waiting }

/-- The entry has moved to the old window, where there is room once the oldest one has left. -/
theorem Executed.dispatchInstruction (h : w.Executed cfg e) (hroom : 0 < cfg.windowSize) :
    (w.dispatchInstruction cfg e).Sound cfg w.criticalPathTail := by
  unfold Windows.dispatchInstruction
  split
  · next oldest rest hold =>
    split
    · next hfull =>
      refine (h.evict hold).push ?_
      rw [hold, List.length_cons] at hfull
      exact Nat.lt_of_succ_le hfull.le
    · next hnot => exact h.push (Nat.lt_of_le_of_ne h.old_le hnot)
  · next hold =>
    refine h.push ?_
    rw [hold]
    exact hroom

/-- What is added is behind the entries that wait, if there is room. -/
theorem add_eq {w' : Windows} {uop : DynamicMicroOp} {info : IntervalInfo}
    (h : w.add cfg uop info = .ok w') :
    w.window.length ≠ cfg.windowSize ∧ ∃ uop' registers memory,
      w' = { w with
        window := w.window ++ [WindowEntry.init uop' info]
        nextSequenceNumber := w.nextSequenceNumber + 1
        registerDependencies := registers
        memoryDependencies := memory } := by
  simp only [Windows.add, wIsFull, decide_eq_true_eq] at h
  split at h
  · cases h
  · next hroom =>
    split at h
    · cases h
    · split at h
      · cases h
      · cases h
        exact ⟨hroom, _, _, _, rfl⟩

theorem Sound.add {w' : Windows} {uop : DynamicMicroOp} {info : IntervalInfo}
    (h : w.Sound cfg since) (hadd : w.add cfg uop info = .ok w') :
    w'.Sound cfg since := by
  obtain ⟨hroom, uop', registers, memory, rfl⟩ := add_eq hadd
  exact {
    path := h.path
    counts := ⟨h.counts.total, h.counts.byType, h.counts.byPort⟩
    old_le := h.old_le
    window_le := by
      rw [List.length_append, List.length_singleton]
      exact Nat.lt_of_le_of_ne h.window_le hroom
    since_le := h.since_le
    waiting := by
      intro e he
      rcases List.mem_append.mp he with he | he
      · exact h.waiting e he
      · cases List.mem_singleton.mp he
        exact ⟨Nat.zero_le _, rfl⟩ }

end Windows

/-! ### A dispatch -/

namespace IntervalTimer

variable {μ : Type} {cfg : IntervalConfig μ} {since : Nat} {d : Dispatching μ}

/-- Before the execution of the entry. -/
structure Dispatching.Sound (cfg : IntervalConfig μ) (since : Nat) (d : Dispatching μ) : Prop where
  windows : d.timer.windows.Sound cfg.windows since
  entry : d.entry.Undispatched since

def Dispatching.Executed (cfg : IntervalConfig μ) (d : Dispatching μ) : Prop :=
  d.timer.windows.Executed cfg.windows d.entry

theorem longLatencyOperationLatency_eq_zero {w : Windows} {e : WindowEntry}
    (h : w.longLatencyOperationLatency cfg.windows e = 0) :
    e.execTime < w.criticalPathTail ∨
      e.execTime - w.criticalPathTail < cfg.windows.longLatencyCutoff := by
  unfold Windows.longLatencyOperationLatency at h
  split at h
  · next hlt => exact .inl hlt
  · split at h
    · next hlt => exact .inr hlt
    · exact absurd h Nat.one_ne_zero

/-- Whenever the entry ends, it is on the path, or the path begins with it. -/
theorem updateCriticalPath_executed (h : d.timer.windows.Sound cfg.windows since)
    (hnone : d.entry.cpContr = 0) : (updateCriticalPath cfg d).Executed cfg := by
  by_cases hshort : d.timer.windows.longLatencyOperationLatency cfg.windows d.entry = 0
  · by_cases hlater : d.timer.windows.criticalPathTail < d.entry.execTime
    · have hlt : d.entry.execTime - d.timer.windows.criticalPathTail <
          cfg.windows.longLatencyCutoff := by
        rcases longLatencyOperationLatency_eq_zero hshort with hle | hlt
        · exact absurd hlater hle.le.not_gt
        · exact hlt
      have htail : d.timer.windows.criticalPathTail +
          (d.entry.execTime - d.timer.windows.criticalPathTail) = d.entry.execTime :=
        Nat.add_sub_cancel' hlater.le
      have hextend := h.extend
        (e := { d.entry with cpContr := d.entry.execTime - d.timer.windows.criticalPathTail })
        (.of_lt htail.symm hlt)
      simp only [htail] at hextend
      simp only [updateCriticalPath, hshort, if_true, Windows.updateCriticalPathTail, if_pos hlater]
      exact hextend
    · simp only [updateCriticalPath, hshort, if_true, Windows.updateCriticalPathTail, if_neg hlater]
      exact h.executed hnone (not_lt.mp hlater)
  · have hsince : since ≤ d.entry.execTime := by
      by_contra hlt
      refine hshort ?_
      unfold Windows.longLatencyOperationLatency
      exact if_pos (lt_of_lt_of_le (not_le.mp hlt) h.since_le)
    simp only [updateCriticalPath, if_neg hshort]
    exact (h.clearOldWindow hsince).executed hnone (Nat.le_refl _)

theorem fetchMiss_sound (h : d.Sound cfg since) : (fetchMiss since d).Sound cfg since := by
  unfold fetchMiss
  split
  · exact ⟨h.windows.clearOldWindow (Nat.le_add_right _ _), h.entry⟩
  · exact h

theorem branchMiss_sound (h : d.Sound cfg since) : (branchMiss cfg since d).Sound cfg since := by
  unfold branchMiss
  split
  · exact ⟨h.windows.clearOldWindow (Nat.le_add_right _ _), h.entry⟩
  · exact h

theorem serialize_executed (h : d.Sound cfg since) : (serialize cfg d).Executed cfg :=
  (h.windows.clearOldWindow h.windows.since_le).executed h.entry.cpContr_eq (Nat.le_refl _)

theorem fence_executed (h : d.Sound cfg since) (maxProducer : Nat) :
    (fence cfg maxProducer d).Executed cfg :=
  updateCriticalPath_executed h.windows h.entry.cpContr_eq

theorem loadCompletion_sound (h : d.Sound cfg since) (start : Nat) :
    (loadCompletion d start).2.Sound cfg since := by
  simp only [loadCompletion]
  split <;> exact ⟨h.windows, h.entry⟩

theorem markDependent_undispatched {headAddress time : Nat} {window : List WindowEntry}
    {e : WindowEntry} (h : e.Undispatched time) :
    (markDependent cfg headAddress window e).Undispatched time := by
  have hset : ∀ {e : WindowEntry}, e.Undispatched time →
      (setDependent e .dataDep).Undispatched time := fun h => ⟨h.execTime_le, h.cpContr_eq⟩
  have hmark : (if e.uop.allDependencies.any (blocks cfg window) then setDependent e .dataDep
      else e).Undispatched time := by
    split
    · exact hset h
    · exact h
  rw [markDependent]
  generalize (if e.uop.allDependencies.any (blocks cfg window) then setDependent e .dataDep
    else e) = marked at hmark ⊢
  split
  · exact hset hmark
  · exact hmark

theorem issueMemOp_undispatched {memory : μ} {time : Nat} {e : WindowEntry}
    (h : e.Undispatched time) : (issueMemOp cfg memory e).2.Undispatched time := by
  unfold issueMemOp
  split
  · exact ⟨h.execTime_le, h.cpContr_eq⟩
  · exact h

/-- A load that overlaps is done when the load before it is. -/
theorem overlap_undispatched {criticalPathHead time : Nat} {memBarrierPending : Bool} {memory : μ}
    {e : WindowEntry} (h : e.Undispatched time) (hhead : criticalPathHead ≤ time) :
    (overlap cfg criticalPathHead memBarrierPending memory e).2.Undispatched time := by
  unfold overlap
  split
  · exact ⟨h.execTime_le, h.cpContr_eq⟩
  · split
    · have hissue : (issueMemOp cfg memory (addDCacheOverlap e)).2.Undispatched time :=
        issueMemOp_undispatched ⟨h.execTime_le, h.cpContr_eq⟩
      exact ⟨hhead, hissue.cpContr_eq⟩
    · exact h

theorem blockLoop_length (criticalPathHead headAddress : Nat) (memBarrierPending : Bool)
    (before rest : List WindowEntry) (memory : μ) :
    (blockLoop cfg criticalPathHead headAddress memBarrierPending before rest memory).1.length =
      rest.length := by
  induction rest generalizing memBarrierPending before memory with
  | nil => rfl
  | cons e rest ih =>
    simp only [blockLoop]
    split
    · rfl
    · simp only [List.length_cons, ih]

theorem blockLoop_undispatched {criticalPathHead time : Nat} (hhead : criticalPathHead ≤ time)
    (headAddress : Nat) (memBarrierPending : Bool) (before rest : List WindowEntry) (memory : μ)
    (h : ∀ e ∈ rest, e.Undispatched time) :
    ∀ e ∈ (blockLoop cfg criticalPathHead headAddress memBarrierPending before rest memory).1,
      e.Undispatched time := by
  induction rest generalizing memBarrierPending before memory with
  | nil => exact fun e he => absurd he List.not_mem_nil
  | cons first rest ih =>
    have hfirst := h first List.mem_cons_self
    have hrest := fun e he => h e (List.mem_cons_of_mem first he)
    have hflag : (addICacheOverlap (setDependent first .noDep)).Undispatched time :=
      ⟨hfirst.execTime_le, hfirst.cpContr_eq⟩
    simp only [blockLoop]
    split
    · intro e he
      rcases List.mem_cons.mp he with rfl | he
      · exact hflag
      · exact hrest e he
    · intro e he
      rcases List.mem_cons.mp he with rfl | he
      · exact overlap_undispatched (markDependent_undispatched hflag) hhead
      · exact ih _ _ _ hrest e he

theorem blockWindow_executed {s : IntervalTimer μ} {e : WindowEntry}
    (h : s.windows.Executed cfg.windows e)
    (hhead : s.windows.criticalPathHead ≤ s.windows.criticalPathTail) :
    (blockWindow cfg s e).windows.Executed cfg.windows e := by
  cases hwindow : s.windows.window with
  | nil => simpa only [blockWindow, hwindow] using h
  | cons first rest =>
    have hlength := h.window_le
    have hwaiting := h.waiting
    rw [hwindow] at hlength hwaiting
    simp only [blockWindow, hwindow]
    exact {
      path := h.path
      counts := ⟨h.counts.total, h.counts.byType, h.counts.byPort⟩
      old_le := h.old_le
      window_le := by
        rw [List.length_cons, blockLoop_length]
        exact hlength
      waiting := blockLoop_undispatched hhead _ _ _ _ _ hwaiting }

theorem longLatencyLoad_executed (h : d.Sound cfg since) (start : Nat) :
    (longLatencyLoad cfg start d).Executed cfg := by
  have hload := loadCompletion_sound h start
  have hclear := hload.windows.clearOldWindow
    (hload.windows.since_le.trans (Nat.le_add_right _ ((loadCompletion d start).1 - start)))
  exact blockWindow_executed
    (hclear.executed hload.entry.cpContr_eq (Nat.le_add_right _ _)) (Nat.le_refl _)

theorem otherLoad_executed (h : d.Sound cfg since) (start : Nat) :
    (otherLoad cfg start d).Executed cfg := by
  have hload := loadCompletion_sound h start
  exact updateCriticalPath_executed hload.windows hload.entry.cpContr_eq

theorem load_executed (h : d.Sound cfg since) (start : Nat) : (load cfg start d).Executed cfg := by
  unfold load
  split
  · exact h.windows.executed h.entry.cpContr_eq (h.entry.execTime_le.trans h.windows.since_le)
  · split
    · exact longLatencyLoad_executed h start
    · exact otherLoad_executed h start

theorem store_executed (h : d.Sound cfg since) (start : Nat) :
    (store cfg start d).Executed cfg :=
  updateCriticalPath_executed h.windows h.entry.cpContr_eq

theorem execute_executed (h : d.Sound cfg since) (maxProducer : Nat) :
    (execute cfg maxProducer d).Executed cfg := by
  simp only [execute]
  split
  · exact serialize_executed h
  · split
    · exact fence_executed h maxProducer
    · split
      · exact load_executed h _
      · split
        · exact store_executed h _
        · exact updateCriticalPath_executed h.windows h.entry.cpContr_eq

theorem dispatchInstruction_executed {s : IntervalTimer μ}
    (h : s.windows.Sound cfg.windows s.windows.criticalPathTail) {e : WindowEntry}
    (he : e ∈ s.windows.window) : (dispatchInstruction cfg s e).Executed cfg := by
  have hissue : (issueMemOp cfg s.memory e).2.Undispatched s.windows.criticalPathTail :=
    issueMemOp_undispatched (h.waiting e he)
  exact execute_executed (branchMiss_sound (fetchMiss_sound ⟨h, hissue⟩)) _

/-! ### Runs -/

/-- From a new timer, by the steps of `simulate`. -/
inductive Reachable (cfg : IntervalConfig μ) : IntervalTimer μ → Prop where
  | new (numOutstanding : Nat) (cpContrByPort : UopPort → Nat) (memory : μ) :
      Reachable cfg (.new numOutstanding cpContrByPort memory)
  | add {s s' : IntervalTimer μ} {uop : DynamicMicroOp} {info : IntervalInfo} :
      Reachable cfg s → s.add cfg uop info = .ok s' → Reachable cfg s'
  | rate {s : IntervalTimer μ} :
      Reachable cfg s → Reachable cfg (s.calculateCurrentDispatchRate cfg).2
  | dispatch {s : IntervalTimer μ} {e : WindowEntry} {rest : List WindowEntry} :
      Reachable cfg s → s.windows.window = e :: rest →
      Reachable cfg ((dispatchInstruction cfg s e).finish cfg)

theorem calculateCurrentDispatchRate_windows (s : IntervalTimer μ) :
    (s.calculateCurrentDispatchRate cfg).2.windows = s.windows := by
  simp only [calculateCurrentDispatchRate]
  split <;> rfl

theorem finish_sound {s : IntervalTimer μ}
    (h : s.windows.Sound cfg.windows s.windows.criticalPathTail) {e : WindowEntry}
    {rest : List WindowEntry} (hwindow : s.windows.window = e :: rest) :
    ((dispatchInstruction cfg s e).finish cfg).windows.Sound cfg.windows
      ((dispatchInstruction cfg s e).finish cfg).windows.criticalPathTail := by
  have hexecuted := dispatchInstruction_executed h (hwindow ▸ List.mem_cons_self)
  have hlength := h.window_le
  rw [hwindow, List.length_cons] at hlength
  exact (hexecuted.dispatchInstruction (Nat.lt_of_lt_of_le (Nat.succ_pos _) hlength)).now

theorem Reachable.sound {s : IntervalTimer μ} (h : Reachable cfg s) :
    s.windows.Sound cfg.windows s.windows.criticalPathTail := by
  induction h with
  | new numOutstanding cpContrByPort memory =>
    exact ⟨.nil _, ⟨rfl, fun _ => rfl, fun _ => rfl⟩, Nat.zero_le _, Nat.zero_le _, Nat.le_refl _,
      fun e he => absurd he List.not_mem_nil⟩
  | add _ hadd ih =>
    obtain ⟨windows, hwindows, hs⟩ := except_bind_eq_ok.mp hadd
    cases hs
    exact (ih.add hwindows).now
  | rate _ ih =>
    rw [calculateCurrentDispatchRate_windows]
    exact ih
  | dispatch _ hwindow ih => exact finish_sound ih hwindow

theorem Reachable.dispatchLoop {dispatchRate left : Nat} {d : Dispatched μ}
    (h : Reachable cfg d.timer) :
    Reachable cfg (dispatchLoop cfg dispatchRate left d).timer := by
  induction left generalizing d with
  | zero => exact h
  | succ left ih =>
    cases hwindow : d.timer.windows.window with
    | nil => simpa only [IntervalTimer.dispatchLoop, hwindow] using h
    | cons e rest =>
      simp only [IntervalTimer.dispatchLoop, hwindow]
      split
      · exact ih (h.dispatch hwindow)
      · exact h

theorem Reachable.dispatchWindow {s : IntervalTimer μ} (h : Reachable cfg s) :
    Reachable cfg (s.dispatchWindow cfg).timer :=
  Reachable.dispatchLoop h.rate

theorem Reachable.whileFull {fuel : Nat} {s s' : IntervalTimer μ} (h : Reachable cfg s)
    (hs' : whileFull cfg fuel s = some s') : Reachable cfg s' := by
  induction fuel generalizing s with
  | zero => exact nomatch hs'
  | succ fuel ih =>
    unfold IntervalTimer.whileFull at hs'
    split at hs'
    · exact ih h.dispatchWindow hs'
    · cases hs'
      exact h

/-- The states between the micro-operations that `simulate` is given are reachable. -/
theorem Reachable.simulateOne {fuel : Nat} {s s' : IntervalTimer μ}
    {uop : DynamicMicroOp × IntervalInfo} (h : Reachable cfg s)
    (hs' : s.simulateOne cfg fuel uop = .ok (some s')) : Reachable cfg s' := by
  unfold IntervalTimer.simulateOne at hs'
  split at hs'
  · cases hs'
    exact h
  · obtain ⟨t, ht, hfull⟩ := except_bind_eq_ok.mp hs'
    exact (h.add ht).whileFull (Except.ok.inj hfull)

end IntervalTimer

/-! ### The shares of the critical path -/

namespace Windows

variable {cfg : WindowsConfig} {since : Nat} {w : Windows}

theorem toInt_eq (n : Nat) : toInt n =
    if n % 2 ^ 32 < 2 ^ 31 then ((n % 2 ^ 32 : Nat) : Int) else (n % 2 ^ 32 : Nat) - 2 ^ 32 := by
  change (n : Int).bmod (2 ^ 32) = _
  rw [Int.bmod_def]
  split <;> split <;> omega

/-- A number that is narrowed to 32 bits and widened again: the sign is extended. -/
theorem toUInt64_toInt (n : Nat) : toUInt64 (toInt n) =
    if n % 2 ^ 32 < 2 ^ 31 then n % 2 ^ 32 else n % 2 ^ 32 + (2 ^ 64 - 2 ^ 32) := by
  have hlt : n % 2 ^ 32 < 2 ^ 32 := Nat.mod_lt n (by decide)
  rw [toInt_eq]
  by_cases h : n % 2 ^ 32 < 2 ^ 31
  · rw [if_pos h, if_pos h, toUInt64]
    omega
  · rw [if_neg h, if_neg h, toUInt64]
    omega

theorem toUInt64_toInt_eq_zero {n : Nat} : toUInt64 (toInt n) = 0 ↔ n % 2 ^ 32 = 0 := by
  rw [toUInt64_toInt]
  split <;> omega

theorem Sound.head_le (h : w.Sound cfg since) : w.criticalPathHead ≤ w.criticalPathTail := by
  rw [h.path.final_eq]
  exact Nat.le_add_right _ _

theorem Sound.total_eq (h : w.Sound cfg since) :
    w.cpContrTotal = w.criticalPathTail - w.criticalPathHead := by
  rw [h.path.final_eq, Nat.add_sub_cancel_left]
  exact h.counts.total

theorem Sound.getCriticalPathLength (h : w.Sound cfg since) :
    w.getCriticalPathLength = toInt (w.criticalPathTail - w.criticalPathHead) :=
  if_pos h.head_le

theorem charged_eq_max (count : UopPort → Nat) (n : Nat) :
    IntervalContentionNehalem.charged count n =
      max n (IntervalContentionNehalem.charged count 0) := by
  unfold IntervalContentionNehalem.charged
  rw [Nat.zero_max]

/-- The ports alone need at least one cycle, and at most one for each micro-operation. -/
theorem Counts.charged {l : List WindowEntry} (h : w.Counts l) (hne : l ≠ []) :
    1 ≤ IntervalContentionNehalem.charged w.contention.countByPort 0 ∧
      IntervalContentionNehalem.charged w.contention.countByPort 0 ≤ l.length := by
  have hlength := List.length_pos_of_ne_nil hne
  have hsum := sum_portUse l
  unfold IntervalContentionNehalem.charged
  simp only [h.byPort]
  constructor
  · by_contra hzero
    simp only [not_le, max_lt_iff] at hzero
    omega
  · simp only [max_le_iff]
    omega

theorem getEffectiveCriticalPathLength_of_contention (n : Nat)
    (hcontention : cfg.functionalUnitContention = true) :
    w.getEffectiveCriticalPathLength cfg n =
      max n (IntervalContentionNehalem.charged w.contention.countByPort 0) := by
  rw [getEffectiveCriticalPathLength, if_pos hcontention,
    IntervalContentionNehalem.effectiveLength_fst, charged_eq_max]

theorem getEffectiveCriticalPathLength_of_no_contention (n : Nat)
    (hcontention : cfg.functionalUnitContention = false) :
    w.getEffectiveCriticalPathLength cfg n = n := by
  rw [getEffectiveCriticalPathLength, hcontention, if_neg Bool.false_ne_true]

/-- The ports keep the narrowed effective length from zero. -/
theorem Sound.narrowed_eq_zero_iff (h : w.Sound cfg since) (hold : w.old ≠ []) :
    toUInt64 (toInt (w.getEffectiveCriticalPathLength cfg (toUInt64 w.getCriticalPathLength))) = 0 ↔
      cfg.functionalUnitContention = false ∧
        (w.criticalPathTail - w.criticalPathHead) % 2 ^ 32 = 0 := by
  rw [toUInt64_toInt_eq_zero, h.getCriticalPathLength, toUInt64_toInt]
  cases hcontention : cfg.functionalUnitContention with
  | false =>
    rw [getEffectiveCriticalPathLength_of_no_contention _ hcontention]
    simp only [true_and]
    split <;> omega
  | true =>
    rw [getEffectiveCriticalPathLength_of_contention _ hcontention]
    obtain ⟨hpos, hle⟩ := h.counts.charged hold
    have hsize := h.old_le
    have hbound := cfg.windowSize_lt
    simp only [reduceCtorEq, false_and, iff_false]
    split <;> omega

theorem getCpContrFraction_ok_iff (w : Windows) (type : CpContrType) (effectiveLength : Nat)
    (hle : w.cpContrByType type ≤ w.cpContrTotal) :
    (∃ fraction, w.getCpContrFraction type effectiveLength = .ok fraction) ↔
      w.cpContrTotal = 0 ∨ effectiveLength ≠ 0 := by
  unfold getCpContrFraction
  rw [if_pos hle]
  by_cases htotal : 0 < w.cpContrTotal
  · rw [if_pos htotal]
    by_cases hzero : effectiveLength = 0
    · rw [if_pos hzero]
      exact iff_of_false nofun (by omega)
    · rw [if_neg hzero]
      exact iff_of_true ⟨_, rfl⟩ (.inr hzero)
  · rw [if_neg htotal]
    exact iff_of_true ⟨_, rfl⟩ (.inl (Nat.eq_zero_of_not_pos htotal))

/-- The counters agree with the old window and with the two ends of the critical path. -/
structure Accounted (w : Windows) : Prop where
  old : w.cpContrTotal = (w.old.map WindowEntry.cpContr).sum
  types : w.cpContrTotal = (CpContrType.all.map w.cpContrByType).sum
  ends : w.cpContrTotal = w.criticalPathTail - w.criticalPathHead
  head_le : w.criticalPathHead ≤ w.criticalPathTail

theorem Sound.accounted (h : w.Sound cfg since) : w.Accounted where
  old := h.counts.total
  types := by
    rw [h.counts.total, ← sum_contributionOf]
    exact congrArg (fun f => (CpContrType.all.map f).sum) (funext fun type => (h.counts.byType type).symm)
  ends := h.total_eq
  head_le := h.head_le

end Windows

namespace IntervalTimer

variable {μ : Type} {cfg : IntervalConfig μ} {s : IntervalTimer μ}

theorem cpContrFractions_ok_iff (h : s.windows.Sound cfg.windows s.windows.criticalPathTail) :
    (∃ fractions, s.cpContrFractions cfg = .ok fractions) ↔
      cfg.windows.functionalUnitContention = true ∨
        s.windows.criticalPathTail = s.windows.criticalPathHead ∨
        (s.windows.criticalPathTail - s.windows.criticalPathHead) % 2 ^ 32 ≠ 0 := by
  have hle : ∀ type, s.windows.cpContrByType type ≤ s.windows.cpContrTotal := by
    intro type
    rw [h.counts.byType, h.counts.total]
    exact contributionOf_le type s.windows.old
  have heach := fun type => s.windows.getCpContrFraction_ok_iff type
    (Windows.toUInt64 (Windows.toInt (s.windows.getEffectiveCriticalPathLength cfg.windows
      (Windows.toUInt64 s.windows.getCriticalPathLength)))) (hle type)
  have hsome : (∃ fractions, s.cpContrFractions cfg = .ok fractions) ↔
      s.windows.cpContrTotal = 0 ∨
        Windows.toUInt64 (Windows.toInt (s.windows.getEffectiveCriticalPathLength cfg.windows
          (Windows.toUInt64 s.windows.getCriticalPathLength))) ≠ 0 := by
    rw [cpContrFractions, mapM_ok_iff]
    constructor
    · intro hall
      exact (heach .generic).mp (hall .generic (by decide))
    · intro hok type _
      exact (heach type).mpr hok
  have htotal := h.total_eq
  have hhead := h.head_le
  rw [hsome]
  by_cases hold : s.windows.old = []
  · have hzero : s.windows.cpContrTotal = 0 := by
      rw [h.counts.total, hold]
      rfl
    exact iff_of_true (.inl hzero) (.inr (.inl (by omega)))
  · rw [ne_eq, h.narrowed_eq_zero_iff hold]
    cases cfg.windows.functionalUnitContention with
    | false =>
      simp only [reduceCtorEq, true_and, false_or]
      omega
    | true =>
      simp only [reduceCtorEq, false_and, not_false_eq_true, or_true, true_or]

/-- Room for two micro-operations, and a cutoff that is never reached. -/
def slowMemory : IntervalConfig Unit where
  windows := ⟨2, 2 ^ 32 - 1, false, by decide, by decide⟩
  dispatchWidth := 2
  branchMispredictionPenalty := 0
  memoryDependencyGranularity := 1
  lllDependencyGranularity := 1
  accessMemory memory _ := ((2 ^ 31, 5), memory)

def loadInfo : IntervalInfo := ⟨.load, false, false, 0⟩

/-- Two loads, the second of which uses the register that the first one sets, are dispatched. -/
def dependentLoads : Except WindowsAbort (IntervalTimer Unit) := do
  let s ← (new 0 (fun _ => 0) ()).add slowMemory (RobState.plainUop .load [] [0]) loadInfo
  let s ← s.add slowMemory (RobState.plainUop .load [0] [1]) loadInfo
  return (s.dispatchWindow slowMemory).timer

def dependentLoadsFractions : Except WindowsAbort (Except WindowsAbort (List Nat)) := do
  let s ← dependentLoads
  return s.cpContrFractions slowMemory

end IntervalTimer

end Sniper.Performance
