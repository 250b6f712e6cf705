import Sniper.Performance.WindowLookups
set_option autoImplicit false

/-! The windows as lists are what the ring holds. -/

namespace Sniper.Performance
open Sniper.Lib

namespace WindowRing

variable {cfg : RingConfig} {wcfg : WindowsConfig} {r r' : WindowRing} {w w' : Windows}

/-- The ring holds the lists. -/
structure Represents (cfg : RingConfig) (r : WindowRing) (w : Windows) : Prop where
  numbered : Numbered cfg r
  old : r.old cfg = w.old
  window : r.window cfg = w.window
  next : r.nextSequenceNumber = w.nextSequenceNumber
  registers : r.registerDependencies = w.registerDependencies
  memory : r.memoryDependencies = w.memoryDependencies

theorem represents_clear (cpContrByPort : UopPort → Nat) :
    Represents cfg new (.clear cpContrByPort) :=
  ⟨numbered_new, rfl, rfl, rfl, rfl, rfl⟩

/-- The lowest valid number is that of the first entry, or of the new one. -/
theorem Represents.lowestValid (h : Represents cfg r w) :
    w.lowestValid r.nextSequenceNumber = r.oldest := by
  have hnumbers := h.numbered.inOrder
  have holdest := h.numbered.oldest_add
  have hdispatched := h.numbered.dispatched_add
  rw [h.old, h.window] at hnumbers
  rw [Windows.lowestValid]
  cases hall : w.old ++ w.window with
  | nil =>
    rw [hall, List.map_nil] at hnumbers
    have hlen := List.range'_eq_nil_iff.mp hnumbers.symm
    change r.nextSequenceNumber = r.oldest
    omega
  | cons first rest =>
    rw [hall, List.map_cons] at hnumbers
    have hhead := congrArg List.head? hnumbers.symm
    rw [List.head?_range'] at hhead
    split at hhead
    · cases hhead
    · exact (Option.some.inj hhead).symm

/-- The lowest valid number is that of the oldest entry, with the new one in the ring. -/
theorem Numbered.add_eq (h : Numbered cfg r) (hfull : r.windowLength < cfg.windowSize)
    (uop : DynamicMicroOp) (info : IntervalInfo) : r.add cfg uop info =
      match r.registerDependencies.setDependencies
          { uop with sequenceNumber := r.nextSequenceNumber } r.oldest with
      | .error _ => .error .badDependency
      | .ok (registers, uop) =>
        match r.memoryDependencies.setDependencies uop r.oldest with
        | .error _ => .error .badDependency
        | .ok (memory, uop) =>
          .ok { r.put cfg (WindowEntry.init uop info) with
            registerDependencies := registers
            memoryDependencies := memory } := by
  have hring : r.wIsFull cfg = false := decide_eq_false hfull.ne
  have hbound : r.windowTail < cfg.doubleWindowSize := by
    rw [h.tail]
    exact Nat.mod_lt _ (Nat.mul_pos (by decide) (Nat.zero_lt_of_lt hfull))
  have hput := h.put (e := WindowEntry.init { uop with sequenceNumber := r.nextSequenceNumber } info)
    hfull rfl
  obtain ⟨oldest, -, holdest, hentry⟩ := hput.oldest_entry (Nat.succ_pos _)
  have hnumber : oldest.uop.sequenceNumber = r.oldest := by
    rw [holdest]
    exact congrArg (· - r.oldWindowLength) (Nat.add_sub_add_right _ _ _)
  rw [WindowRing.add, hring, if_neg Bool.false_ne_true, getInstructionByIndex_eq hbound, ← hnumber]
  change ((r.put cfg _).entryAt cfg r.oldWindowHead >>= fun oldest => _) = _
  change (r.put cfg _).entryAt cfg r.oldWindowHead = _ at hentry
  rw [hentry]
  rfl

theorem Represents.add {uop : DynamicMicroOp} {info : IntervalInfo} (h : Represents cfg r w)
    (hsize : wcfg.windowSize = cfg.windowSize) (hw : w.add wcfg uop info = .ok w') :
    ∃ r', r.add cfg uop info = .ok r' ∧ Represents cfg r' w' := by
  have hlength : w.window.length = r.windowLength := by rw [← h.window, h.numbered.window_length]
  unfold Windows.add at hw
  split at hw
  · cases hw
  · next hfull =>
    have hlt : r.windowLength < cfg.windowSize := by
      refine lt_of_le_of_ne h.numbered.window_le fun heq => hfull ?_
      rw [Windows.wIsFull, hlength, hsize]
      exact decide_eq_true heq
    simp only [← h.next, h.lowestValid, ← h.registers, ← h.memory] at hw
    rw [h.numbered.add_eq hlt]
    cases hregisters : r.registerDependencies.setDependencies
        { uop with sequenceNumber := r.nextSequenceNumber } r.oldest with
    | error abort =>
      simp only [hregisters] at hw
      cases hw
    | ok rewired =>
      obtain ⟨registers, uop₁⟩ := rewired
      simp only [hregisters] at hw ⊢
      cases hmemory : r.memoryDependencies.setDependencies uop₁ r.oldest with
      | error abort =>
        simp only [hmemory] at hw
        cases hw
      | ok rewired =>
        obtain ⟨memory, uop₂⟩ := rewired
        simp only [hmemory] at hw ⊢
        cases hw
        have hsame := ((RobTimer.registers_rewired hregisters).trans
          (RobTimer.memory_rewired hmemory)).same
        have huop : (WindowEntry.init uop₂ info).uop.sequenceNumber = r.nextSequenceNumber := by
          change uop₂.sequenceNumber = _
          rw [hsame]
        have hwindows := h.numbered.windows_put (e := WindowEntry.init uop₂ info) hlt
        refine ⟨_, rfl, (h.numbered.put hlt huop).withTables registers memory, ?_, ?_, rfl, rfl, rfl⟩
        · exact (congrArg TwoWindows.old hwindows).trans h.old
        · exact (congrArg TwoWindows.window hwindows).trans (by rw [h.window])

/-- An entry without the number is not the one that is written. -/
theorem map_rewrite_of_ne {e : WindowEntry} {l : List WindowEntry}
    (h : ∀ e' ∈ l, e'.uop.sequenceNumber ≠ e.uop.sequenceNumber) :
    l.map (TwoWindows.rewrite e) = l := by
  refine (List.map_congr_left fun e' he' => ?_).trans (List.map_id l)
  rw [TwoWindows.rewrite, if_neg (h e' he')]
  rfl

/-- The first entry of the window is written. -/
theorem Represents.write {first e : WindowEntry} {rest : List WindowEntry}
    (h : Represents cfg r w) (hwindow : w.window = first :: rest)
    (hnumber : first.uop.sequenceNumber = e.uop.sequenceNumber) :
    Represents cfg (r.write r.windowHead e) { w with window := e :: rest } := by
  have hpos : 0 < r.windowLength := by
    rw [← h.numbered.window_length, h.window, hwindow]
    exact Nat.succ_pos _
  obtain ⟨n, hn⟩ := Nat.exists_eq_succ_of_ne_zero hpos.ne'
  have hnumbers := h.numbered.window_spec.2
  rw [h.window, hwindow, hn, List.range'_succ, List.map_cons] at hnumbers
  obtain ⟨hfirst, hrestNumbers⟩ := List.cons.inj hnumbers
  obtain ⟨head, hhead, hheadNumber, -⟩ := h.numbered.head_entry hpos
  have hheadEq : head.uop.sequenceNumber = e.uop.sequenceNumber := by
    rw [hheadNumber, ← hfirst, hnumber]
  have hold : w.old.map (TwoWindows.rewrite e) = w.old := by
    refine map_rewrite_of_ne fun e' he' heq => ?_
    have hlt := (h.numbered.mem_old_iff _).mp ⟨e', h.old ▸ he', rfl⟩
    rw [heq, ← hnumber, hfirst] at hlt
    exact absurd hlt.2 (lt_irrefl _)
  have hrest : rest.map (TwoWindows.rewrite e) = rest := by
    refine map_rewrite_of_ne fun e' he' heq => ?_
    have hmem := List.mem_map_of_mem (f := fun e : WindowEntry => e.uop.sequenceNumber) he'
    rw [hrestNumbers, heq, ← hnumber, hfirst, List.mem_range'_1] at hmem
    omega
  have hentries := h.numbered.entries_write hhead hheadEq
  refine ⟨h.numbered.write hhead hheadEq, ?_, ?_, h.next, h.registers, h.memory⟩
  · change (r.write r.windowHead e).entries cfg r.oldWindowHead r.oldWindowLength = _
    rw [hentries]
    change (r.old cfg).map _ = _
    rw [h.old, hold]
  · change (r.write r.windowHead e).entries cfg r.windowHead r.windowLength = _
    rw [hentries]
    change (r.window cfg).map _ = _
    rw [h.window, hwindow, List.map_cons, hrest, TwoWindows.rewrite, if_pos hnumber]

theorem dispatchInstruction_lists (wcfg : WindowsConfig) (w : Windows) (e : WindowEntry) :
    (w.dispatchInstruction wcfg e).old =
        (if w.old.length = wcfg.windowSize then w.old.tail else w.old) ++ [e] ∧
      (w.dispatchInstruction wcfg e).window = w.window.tail ∧
      (w.dispatchInstruction wcfg e).nextSequenceNumber = w.nextSequenceNumber ∧
      (w.dispatchInstruction wcfg e).registerDependencies = w.registerDependencies ∧
      (w.dispatchInstruction wcfg e).memoryDependencies = w.memoryDependencies := by
  cases hold : w.old with
  | nil =>
    simp only [Windows.dispatchInstruction, hold]
    split <;> exact ⟨by simp [Windows.push, hold], rfl, rfl, rfl, rfl⟩
  | cons oldest rest =>
    simp only [Windows.dispatchInstruction, hold]
    split
    · exact ⟨rfl, rfl, rfl, rfl, rfl⟩
    · exact ⟨by rw [Windows.push, hold], rfl, rfl, rfl, rfl⟩

/-- The first entry of the window goes to the old window. -/
theorem Represents.dispatch {e : WindowEntry} {rest : List WindowEntry} (h : Represents cfg r w)
    (hsize : wcfg.windowSize = cfg.windowSize) (hwindow : w.window = e :: rest) :
    ∃ r', r.dispatchInstruction cfg = .ok r' ∧
      Represents cfg r' (w.dispatchInstruction wcfg e) := by
  have hpos : 0 < r.windowLength := by
    rw [← h.numbered.window_length, h.window, hwindow]
    exact Nat.succ_pos _
  have hoff := h.numbered.dispatchInstruction_eq hpos
  obtain ⟨hnumbered, e', rest', hfirst, hlists⟩ :=
    h.numbered.dispatch (decide_eq_false hpos.ne') hoff
  have hfirst' : r.window cfg = e' :: rest' := hfirst
  obtain ⟨rfl, rfl⟩ := List.cons.inj (hfirst'.symm.trans (h.window.trans hwindow))
  obtain ⟨hold, hwindow', hnext, hregisters, hmemory⟩ := dispatchInstruction_lists wcfg w e'
  have hsame : ((r.evicted cfg).advanced cfg).registerDependencies = r.registerDependencies ∧
      ((r.evicted cfg).advanced cfg).memoryDependencies = r.memoryDependencies := by
    rw [advanced, evicted]
    split <;> exact ⟨rfl, rfl⟩
  refine ⟨_, hoff, hnumbered, ?_, ?_, ?_, ?_, ?_⟩
  · have hold' := congrArg TwoWindows.old hlists
    rw [hold, hsize, ← h.old]
    exact hold'
  · rw [hwindow', hwindow]
    exact congrArg TwoWindows.window hlists
  · rw [hnext, ← h.next]
    exact congrArg TwoWindows.nextSequenceNumber hlists
  · rw [hregisters, ← h.registers, hsame.1]
  · rw [hmemory, ← h.memory, hsame.2]

theorem Represents.clearOldWindow (h : Represents cfg r w) (newCpHead : Nat) :
    Represents cfg r.clearOldWindow (w.clearOldWindow newCpHead) :=
  ⟨h.numbered.clearOldWindow.1, rfl, h.window, h.next, h.registers, h.memory⟩

end WindowRing

end Sniper.Performance
