import Sniper.Performance.WindowRing
set_option autoImplicit false

/-! What the indices of the ring lead to. -/

namespace Sniper.Performance
open Sniper.Lib

namespace WindowRing

variable {cfg : RingConfig} {r r' : WindowRing} {k n : Nat}

/-- How many micro-operations have been dispatched. -/
def dispatched (r : WindowRing) : Nat := r.nextSequenceNumber - r.windowLength

/-- The number of the oldest micro-operation of the two windows. -/
def oldest (r : WindowRing) : Nat := r.dispatched - r.oldWindowLength

/-- The micro-operation of a number goes to the slot of the number modulo the size of the ring, and
stays there until the one that comes a whole ring later. -/
structure Numbered (cfg : RingConfig) (r : WindowRing) : Prop where
  window_le : r.windowLength ≤ cfg.windowSize
  old_le : r.oldWindowLength ≤ cfg.windowSize
  lengths_le : r.oldWindowLength + r.windowLength ≤ r.nextSequenceNumber
  tail : r.windowTail = r.nextSequenceNumber % cfg.doubleWindowSize
  head : r.windowHead = r.dispatched % cfg.doubleWindowSize
  oldHead : r.oldWindowHead = r.oldest % cfg.doubleWindowSize
  filled : ∀ k < r.nextSequenceNumber, r.nextSequenceNumber ≤ k + cfg.doubleWindowSize →
    ∃ e, r.doubleWindow (k % cfg.doubleWindowSize) = some e ∧ e.uop.sequenceNumber = k
  placed : ∀ i e, r.doubleWindow i = some e →
    i = e.uop.sequenceNumber % cfg.doubleWindowSize ∧ e.uop.sequenceNumber < r.nextSequenceNumber

/-- The numbers from `k` on are in the ring. -/
structure Kept (cfg : RingConfig) (r : WindowRing) (k n : Nat) : Prop where
  le_next : k + n ≤ r.nextSequenceNumber
  next_le : r.nextSequenceNumber ≤ k + cfg.doubleWindowSize

/-- The entries in so many slots from that of a number on. -/
def entries (cfg : RingConfig) (r : WindowRing) (start length : Nat) : List WindowEntry :=
  (stretch r.doubleWindow cfg.doubleWindowSize start length).reduceOption

/-- The old window, the oldest first. -/
def old (cfg : RingConfig) (r : WindowRing) : List WindowEntry :=
  r.entries cfg r.oldWindowHead r.oldWindowLength

/-- The window, the oldest first. -/
def window (cfg : RingConfig) (r : WindowRing) : List WindowEntry :=
  r.entries cfg r.windowHead r.windowLength

def windows (cfg : RingConfig) (r : WindowRing) : TwoWindows :=
  ⟨r.old cfg, r.window cfg, r.nextSequenceNumber⟩

theorem Numbered.kept (h : Numbered cfg r) (hk : k < r.nextSequenceNumber)
    (hk' : r.nextSequenceNumber ≤ k + cfg.doubleWindowSize) :
    ∃ e, r.doubleWindow (k % cfg.doubleWindowSize) = some e ∧ e.uop.sequenceNumber = k ∧
      r.entryAt cfg (k % cfg.doubleWindowSize : Nat) = .ok e := by
  obtain ⟨e, he, hnumber⟩ := h.filled k hk hk'
  refine ⟨e, he, hnumber, ?_⟩
  have hpos : 0 < cfg.doubleWindowSize := by omega
  have hlt := Nat.mod_lt k hpos
  rw [entryAt, getInstructionByIndex, if_pos ⟨Int.natCast_nonneg _, by exact_mod_cast hlt⟩,
    Int.toNat_natCast, he]
  rfl

theorem Numbered.entries_spec (h : Numbered cfg r) (hkn : Kept cfg r k n) :
    stretch r.doubleWindow cfg.doubleWindowSize (k % cfg.doubleWindowSize) n =
        (r.entries cfg (k % cfg.doubleWindowSize) n).map some ∧
      (r.entries cfg (k % cfg.doubleWindowSize) n).map (fun e => e.uop.sequenceNumber) =
        List.range' k n := by
  induction n with
  | zero => exact ⟨rfl, rfl⟩
  | succ n ih =>
    obtain ⟨hle, hnext⟩ := hkn
    obtain ⟨hstretch, hnumbers⟩ := ih ⟨by omega, hnext⟩
    obtain ⟨e, he, hnumber, -⟩ := h.kept (k := k + n) (by omega) (by omega)
    have hentries : r.entries cfg (k % cfg.doubleWindowSize) (n + 1) =
        r.entries cfg (k % cfg.doubleWindowSize) n ++ [e] := by
      rw [entries, stretch_succ, slotAfter_mod, he, List.reduceOption_append]
      rfl
    rw [hentries]
    constructor
    · rw [stretch_succ, slotAfter_mod, he, hstretch, List.map_append]
      rfl
    · rw [List.map_append, hnumbers, List.range'_concat, List.map_singleton, hnumber, Nat.one_mul]

theorem entries_cons {a : Nat} {e : WindowEntry} (ha : a < cfg.doubleWindowSize)
    (he : r.doubleWindow a = some e) :
    r.entries cfg a (n + 1) = e :: r.entries cfg (slotAfter cfg.doubleWindowSize a 1) n := by
  rw [entries, stretch_cons ha, he, List.reduceOption_cons_of_some]
  rfl

theorem entries_concat {a : Nat} {e : WindowEntry}
    (he : r.doubleWindow (slotAfter cfg.doubleWindowSize a n) = some e) :
    r.entries cfg a (n + 1) = r.entries cfg a n ++ [e] := by
  rw [entries, stretch_succ, he, List.reduceOption_append]
  rfl

/-! ### The lengths -/

theorem Numbered.oldest_add (h : Numbered cfg r) : r.oldest + r.oldWindowLength = r.dispatched := by
  have hlengths := h.lengths_le
  rw [oldest, dispatched]
  omega

theorem Numbered.dispatched_add (h : Numbered cfg r) :
    r.dispatched + r.windowLength = r.nextSequenceNumber := by
  have hlengths := h.lengths_le
  rw [dispatched]
  omega

theorem Numbered.old_kept (h : Numbered cfg r) : Kept cfg r r.oldest r.oldWindowLength := by
  have hwindow := h.window_le
  have hold := h.old_le
  have holdest := h.oldest_add
  have hdispatched := h.dispatched_add
  refine ⟨by omega, ?_⟩
  rw [RingConfig.doubleWindowSize]
  omega

theorem Numbered.window_kept (h : Numbered cfg r) : Kept cfg r r.dispatched r.windowLength := by
  have hwindow := h.window_le
  have hdispatched := h.dispatched_add
  refine ⟨by omega, ?_⟩
  rw [RingConfig.doubleWindowSize]
  omega

theorem Numbered.old_spec (h : Numbered cfg r) :
    stretch r.doubleWindow cfg.doubleWindowSize r.oldWindowHead r.oldWindowLength =
        (r.old cfg).map some ∧
      (r.old cfg).map (fun e => e.uop.sequenceNumber) = List.range' r.oldest r.oldWindowLength := by
  rw [old, h.oldHead]
  exact h.entries_spec h.old_kept

theorem Numbered.window_spec (h : Numbered cfg r) :
    stretch r.doubleWindow cfg.doubleWindowSize r.windowHead r.windowLength =
        (r.window cfg).map some ∧
      (r.window cfg).map (fun e => e.uop.sequenceNumber) =
        List.range' r.dispatched r.windowLength := by
  rw [window, h.head]
  exact h.entries_spec h.window_kept

theorem Numbered.old_length (h : Numbered cfg r) : (r.old cfg).length = r.oldWindowLength := by
  simpa using congrArg List.length h.old_spec.2

theorem Numbered.window_length (h : Numbered cfg r) : (r.window cfg).length = r.windowLength := by
  simpa using congrArg List.length h.window_spec.2

/-- The window begins where the old one ends. -/
theorem Numbered.head_eq (h : Numbered cfg r) :
    slotAfter cfg.doubleWindowSize r.oldWindowHead r.oldWindowLength = r.windowHead := by
  rw [h.oldHead, slotAfter_mod, h.oldest_add, h.head]

theorem Numbered.tail_eq (h : Numbered cfg r) :
    slotAfter cfg.doubleWindowSize r.windowHead r.windowLength = r.windowTail := by
  rw [h.head, slotAfter_mod, h.dispatched_add, h.tail]

/-! ### The steps -/

theorem numbered_new : Numbered cfg new :=
  ⟨Nat.zero_le _, Nat.zero_le _, Nat.le_refl _, (Nat.zero_mod _).symm, (Nat.zero_mod _).symm,
    (Nat.zero_mod _).symm, fun k hk => absurd hk (Nat.not_lt_zero k), fun _ _ he => nomatch he⟩

/-- A new micro-operation takes the slot of one that is no longer needed. -/
theorem Numbered.put {e : WindowEntry} (h : Numbered cfg r) (hfull : r.windowLength < cfg.windowSize)
    (he : e.uop.sequenceNumber = r.nextSequenceNumber) : Numbered cfg (r.put cfg e) := by
  have hlengths := h.lengths_le
  have hdispatched : (r.put cfg e).dispatched = r.dispatched := Nat.add_sub_add_right _ _ _
  have htail := h.tail
  constructor
  case window_le => exact hfull
  case old_le => exact h.old_le
  case lengths_le =>
    change r.oldWindowLength + (r.windowLength + 1) ≤ r.nextSequenceNumber + 1
    omega
  case tail =>
    change (r.windowTail + 1) % _ = (r.nextSequenceNumber + 1) % _
    rw [htail, Nat.mod_add_mod]
  case head => rw [hdispatched]; exact h.head
  case oldHead =>
    rw [oldest, hdispatched]
    exact h.oldHead
  case filled =>
    intro k hk hk'
    change ∃ e', Function.update r.doubleWindow r.windowTail (some e) _ = some e' ∧ _
    change k < r.nextSequenceNumber + 1 at hk
    change r.nextSequenceNumber + 1 ≤ k + cfg.doubleWindowSize at hk'
    rw [htail]
    rcases Nat.lt_succ_iff_lt_or_eq.mp hk with hlt | rfl
    · have hne : k % cfg.doubleWindowSize ≠ r.nextSequenceNumber % cfg.doubleWindowSize := by
        intro heq
        have hpos : 0 < r.nextSequenceNumber - k := Nat.sub_pos_of_lt hlt
        have hdvd := (Nat.modEq_iff_dvd' hlt.le).mp heq
        exact absurd (Nat.le_of_dvd hpos hdvd) (by omega)
      rw [Function.update_of_ne hne]
      exact h.filled k hlt (by omega)
    · exact ⟨e, Function.update_self _ _ _, he⟩
  case placed =>
    intro i e' he'
    change Function.update r.doubleWindow r.windowTail (some e) i = some e' at he'
    change _ ∧ _ < r.nextSequenceNumber + 1
    by_cases hi : i = r.windowTail
    · rw [hi, Function.update_self] at he'
      cases he'
      rw [hi, he, htail]
      exact ⟨rfl, Nat.lt_succ_self _⟩
    · rw [Function.update_of_ne hi] at he'
      obtain ⟨hslot, hlt⟩ := h.placed i e' he'
      exact ⟨hslot, hlt.trans (Nat.lt_succ_self _)⟩

theorem Numbered.windows_put {e : WindowEntry} (h : Numbered cfg r)
    (hfull : r.windowLength < cfg.windowSize) :
    (r.put cfg e).windows cfg = ⟨r.old cfg, r.window cfg ++ [e], r.nextSequenceNumber + 1⟩ := by
  have hold := h.old_le
  have hsize : cfg.doubleWindowSize = cfg.windowSize + cfg.windowSize := Nat.two_mul _
  have hslots : (r.put cfg e).old cfg = r.old cfg := by
    change List.reduceOption (stretch (Function.update r.doubleWindow r.windowTail (some e)) _
      r.oldWindowHead r.oldWindowLength) = _
    rw [← h.tail_eq, ← h.head_eq, slotAfter_slotAfter,
      stretch_update_of_le (Nat.le_add_right _ _) (by omega)]
    rfl
  have hwindow : (r.put cfg e).window cfg = r.window cfg ++ [e] := by
    change List.reduceOption (stretch (Function.update r.doubleWindow r.windowTail (some e)) _
      r.windowHead (r.windowLength + 1)) = _
    rw [← h.tail_eq, stretch_push (by omega), List.reduceOption_append]
    rfl
  rw [windows, hslots, hwindow]
  rfl

theorem add_spec {uop : DynamicMicroOp} {info : IntervalInfo} (h : r.add cfg uop info = .ok r') :
    r.wIsFull cfg = false ∧ ∃ uop' : DynamicMicroOp, uop'.sequenceNumber = r.nextSequenceNumber ∧
      ∃ registers memory, r' = { r.put cfg (WindowEntry.init uop' info) with
        registerDependencies := registers
        memoryDependencies := memory } := by
  rw [add] at h
  cases hfull : r.wIsFull cfg with
  | true =>
    rw [hfull, if_pos rfl] at h
    cases h
  | false =>
    rw [hfull, if_neg Bool.false_ne_true] at h
    obtain ⟨slot, -, h⟩ := except_bind_eq_ok.mp h
    obtain ⟨oldest, -, h⟩ := except_bind_eq_ok.mp h
    split at h
    · cases h
    · rename_i registers uop₁ hregisters
      split at h
      · cases h
      · rename_i memory uop₂ hmemory
        cases h
        have hsame := ((RobTimer.registers_rewired hregisters).trans
          (RobTimer.memory_rewired hmemory)).same
        refine ⟨rfl, uop₂, ?_, registers, memory, rfl⟩
        rw [hsame]

theorem not_full (h : Numbered cfg r) (hfull : r.wIsFull cfg = false) :
    r.windowLength < cfg.windowSize :=
  lt_of_le_of_ne h.window_le (of_decide_eq_false hfull)

/-- The tables of dependencies play no part. -/
theorem Numbered.withTables (h : Numbered cfg r) (registers : RegisterDependencies)
    (memory : MemoryDependencies) : Numbered cfg { r with
      registerDependencies := registers
      memoryDependencies := memory } :=
  ⟨h.window_le, h.old_le, h.lengths_le, h.tail, h.head, h.oldHead, h.filled, h.placed⟩

theorem Numbered.add {uop : DynamicMicroOp} {info : IntervalInfo} (h : Numbered cfg r)
    (hs : r.add cfg uop info = .ok r') :
    Numbered cfg r' ∧ (r.windows cfg).step cfg.windowSize (.add uop info) (r'.windows cfg) := by
  obtain ⟨hfull, uop', huop, registers, memory, rfl⟩ := add_spec hs
  have hlt := not_full h hfull
  refine ⟨(h.put hlt huop).withTables registers memory, ?_, uop', huop, ?_⟩
  · exact h.window_length ▸ hlt
  · exact h.windows_put hlt

/-- Each entry is the same but for the one written. -/
theorem Numbered.write_eq {e e' : WindowEntry} {i : Nat} (h : Numbered cfg r)
    (he' : r.doubleWindow i = some e') (hnumber : e'.uop.sequenceNumber = e.uop.sequenceNumber) :
    (r.write i e).doubleWindow = fun s => (r.doubleWindow s).map (TwoWindows.rewrite e) := by
  funext s
  change Function.update r.doubleWindow i (some e) s = _
  by_cases hs : s = i
  · rw [hs, Function.update_self, he', Option.map_some, TwoWindows.rewrite, if_pos hnumber]
  · rw [Function.update_of_ne hs]
    cases hslot : r.doubleWindow s with
    | none => rfl
    | some e'' =>
      have hne : e''.uop.sequenceNumber ≠ e.uop.sequenceNumber := by
        intro heq
        rw [(h.placed s e'' hslot).1, (h.placed i e' he').1, heq, hnumber] at hs
        exact hs rfl
      rw [Option.map_some, TwoWindows.rewrite, if_neg hne]

theorem rewrite_sequenceNumber (e e' : WindowEntry) :
    (TwoWindows.rewrite e e').uop.sequenceNumber = e'.uop.sequenceNumber := by
  rw [TwoWindows.rewrite]
  split
  · next heq => exact heq.symm
  · rfl

theorem Numbered.write {e e' : WindowEntry} {i : Nat} (h : Numbered cfg r)
    (he' : r.doubleWindow i = some e') (hnumber : e'.uop.sequenceNumber = e.uop.sequenceNumber) :
    Numbered cfg (r.write i e) := by
  have hslots := h.write_eq he' hnumber
  refine ⟨h.window_le, h.old_le, h.lengths_le, h.tail, h.head, h.oldHead, ?_, ?_⟩
  · intro k hk hk'
    obtain ⟨e₁, he₁, hnumber₁⟩ := h.filled k hk hk'
    refine ⟨TwoWindows.rewrite e e₁, ?_, (rewrite_sequenceNumber e e₁).trans hnumber₁⟩
    rw [hslots]
    simp only [he₁, Option.map_some]
  · intro s e₁ he₁
    rw [hslots] at he₁
    obtain ⟨e₂, he₂, rfl⟩ := Option.map_eq_some_iff.mp he₁
    rw [rewrite_sequenceNumber]
    exact h.placed s e₂ he₂

theorem Numbered.entries_write {e e' : WindowEntry} {i : Nat} (h : Numbered cfg r)
    (he' : r.doubleWindow i = some e') (hnumber : e'.uop.sequenceNumber = e.uop.sequenceNumber)
    (a n : Nat) :
    (r.write i e).entries cfg a n = (r.entries cfg a n).map (TwoWindows.rewrite e) := by
  rw [entries, entries, h.write_eq he' hnumber, stretch_map, List.reduceOption_map]

/-! ### Dispatch -/

/-- The oldest micro-operation leaves the old window if that is full. -/
def evicted (cfg : RingConfig) (r : WindowRing) : WindowRing :=
  if r.oldWindowLength = cfg.windowSize then
    { r with
      oldWindowHead := incrementIndex cfg r.oldWindowHead
      oldWindowLength := r.oldWindowLength - 1 }
  else r

def advanced (cfg : RingConfig) (r : WindowRing) : WindowRing :=
  { r with
    windowHead := incrementIndex cfg r.windowHead
    windowLength := r.windowLength - 1
    oldWindowLength := r.oldWindowLength + 1 }

theorem incrementIndex_eq (index : Nat) :
    incrementIndex cfg index = slotAfter cfg.doubleWindowSize index 1 := rfl

theorem Numbered.head_entry (h : Numbered cfg r) (hwindow : 0 < r.windowLength) :
    ∃ e, r.doubleWindow r.windowHead = some e ∧ e.uop.sequenceNumber = r.dispatched ∧
      r.entryAt cfg r.windowHead = .ok e := by
  have hkept := h.window_kept
  have hdispatched := h.dispatched_add
  rw [h.head]
  exact h.kept (by omega) hkept.next_le

theorem Numbered.oldest_entry (h : Numbered cfg r) (hlen : 0 < r.oldWindowLength + r.windowLength) :
    ∃ e, r.doubleWindow r.oldWindowHead = some e ∧ e.uop.sequenceNumber = r.oldest ∧
      r.entryAt cfg r.oldWindowHead = .ok e := by
  have hkept := h.old_kept
  have holdest := h.oldest_add
  have hdispatched := h.dispatched_add
  rw [h.oldHead]
  exact h.kept (by omega) hkept.next_le

theorem Numbered.dispatchInstruction_eq (h : Numbered cfg r) (hwindow : 0 < r.windowLength) :
    r.dispatchInstruction cfg = .ok ((r.evicted cfg).advanced cfg) := by
  obtain ⟨head, hhead, -, hhead'⟩ := h.head_entry hwindow
  obtain ⟨oldest, -, -, holdest⟩ := h.oldest_entry (Nat.add_pos_right _ hwindow)
  rw [dispatchInstruction, evicted]
  by_cases hfull : r.oldWindowLength = cfg.windowSize
  · rw [if_pos hfull, if_pos hfull, holdest]
    change ((r.entryAt cfg r.windowHead) >>= fun _ => _) = _
    rw [hhead']
    rfl
  · rw [if_neg hfull, if_neg hfull]
    change ((r.entryAt cfg r.windowHead) >>= fun _ => _) = _
    rw [hhead']
    rfl

/-- What leaves the old window leaves the list. -/
theorem Numbered.evicted (h : Numbered cfg r) (hpos : 0 < cfg.windowSize) :
    Numbered cfg (r.evicted cfg) ∧ (r.evicted cfg).oldWindowLength < cfg.windowSize ∧
      (r.evicted cfg).window cfg = r.window cfg ∧
      (r.evicted cfg).old cfg =
        if (r.old cfg).length = cfg.windowSize then (r.old cfg).tail else r.old cfg := by
  rw [h.old_length, WindowRing.evicted]
  by_cases hfull : r.oldWindowLength = cfg.windowSize
  · simp only [if_pos hfull]
    have hlengths := h.lengths_le
    obtain ⟨n, hn⟩ := Nat.exists_eq_succ_of_ne_zero (hfull ▸ hpos.ne')
    obtain ⟨e, he, -, -⟩ := h.oldest_entry (by omega)
    have hlt : r.oldWindowHead < cfg.doubleWindowSize := by
      rw [h.oldHead]
      exact Nat.mod_lt _ (Nat.mul_pos (by decide) hpos)
    refine ⟨⟨h.window_le, ?_, ?_, h.tail, h.head, ?_, h.filled, h.placed⟩, ?_, rfl, ?_⟩
    · exact (Nat.sub_le _ _).trans h.old_le
    · exact (Nat.add_le_add_right (Nat.sub_le _ _) _).trans h.lengths_le
    · change (r.oldWindowHead + 1) % _ = (r.dispatched - (r.oldWindowLength - 1)) % _
      rw [h.oldHead, Nat.mod_add_mod]
      have hnext : r.oldest + 1 = r.dispatched - (r.oldWindowLength - 1) := by
        have holdest := h.oldest_add
        omega
      rw [hnext]
    · omega
    · change r.entries cfg (incrementIndex cfg r.oldWindowHead) (r.oldWindowLength - 1) = _
      rw [WindowRing.old, hn, entries_cons hlt he]
      rfl
  · simp only [if_neg hfull]
    exact ⟨h, lt_of_le_of_ne h.old_le hfull, trivial, trivial⟩

theorem Numbered.advanced {e : WindowEntry} (h : Numbered cfg r) (hwindow : 0 < r.windowLength)
    (hold : r.oldWindowLength < cfg.windowSize) (he : r.doubleWindow r.windowHead = some e) :
    Numbered cfg (r.advanced cfg) ∧ r.window cfg = e :: (r.advanced cfg).window cfg ∧
      (r.advanced cfg).old cfg = r.old cfg ++ [e] := by
  have hlengths := h.lengths_le
  have hdispatched : (r.advanced cfg).dispatched = r.dispatched + 1 := by
    change r.nextSequenceNumber - (r.windowLength - 1) = r.nextSequenceNumber - r.windowLength + 1
    omega
  have hlt : r.windowHead < cfg.doubleWindowSize := by
    rw [h.head]
    exact Nat.mod_lt _ (Nat.mul_pos (by decide) (Nat.zero_lt_of_lt hold))
  obtain ⟨n, hn⟩ := Nat.exists_eq_succ_of_ne_zero hwindow.ne'
  refine ⟨⟨?_, hold, ?_, h.tail, ?_, ?_, h.filled, h.placed⟩, ?_, ?_⟩
  · exact (Nat.sub_le _ _).trans h.window_le
  · change r.oldWindowLength + 1 + (r.windowLength - 1) ≤ r.nextSequenceNumber
    omega
  · rw [hdispatched]
    change (r.windowHead + 1) % _ = _
    rw [h.head, Nat.mod_add_mod]
  · rw [oldest, hdispatched]
    change r.oldWindowHead = (r.dispatched + 1 - (r.oldWindowLength + 1)) % _
    rw [Nat.add_sub_add_right]
    exact h.oldHead
  · rw [WindowRing.window, hn, entries_cons hlt he, WindowRing.window]
    change _ = e :: r.entries cfg (incrementIndex cfg r.windowHead) (r.windowLength - 1)
    rw [hn]
    rfl
  · rw [← h.head_eq] at he
    exact entries_concat he

theorem Numbered.dispatch (h : Numbered cfg r) (hempty : r.wIsEmpty = false)
    (hs : r.dispatchInstruction cfg = .ok r') :
    Numbered cfg r' ∧ (r.windows cfg).step cfg.windowSize .dispatch (r'.windows cfg) := by
  have hwindow : 0 < r.windowLength := Nat.pos_of_ne_zero (of_decide_eq_false hempty)
  have hsame : (r.evicted cfg).windowLength = r.windowLength ∧
      (r.evicted cfg).windowHead = r.windowHead ∧ (r.evicted cfg).doubleWindow = r.doubleWindow ∧
      (r.evicted cfg).nextSequenceNumber = r.nextSequenceNumber := by
    rw [WindowRing.evicted]
    split <;> exact ⟨rfl, rfl, rfl, rfl⟩
  obtain ⟨hlength, hhead, hslots, hnumber⟩ := hsame
  obtain ⟨e, he, -, -⟩ := h.head_entry hwindow
  obtain ⟨hevicted, holdlt, hwindows, hold⟩ := h.evicted (hwindow.trans_le h.window_le)
  obtain ⟨hadvanced, hfirst, hlast⟩ := hevicted.advanced (hlength ▸ hwindow) holdlt
    (by rw [hslots, hhead, he])
  rw [h.dispatchInstruction_eq hwindow] at hs
  cases hs
  refine ⟨hadvanced, e, _, hwindows ▸ hfirst, ?_⟩
  change TwoWindows.mk _ _ _ = _
  rw [hlast, hold]
  exact congrArg (TwoWindows.mk _ _) hnumber

theorem Numbered.clearOldWindow (h : Numbered cfg r) :
    Numbered cfg r.clearOldWindow ∧ (r.windows cfg).step cfg.windowSize .clear
      (r.clearOldWindow.windows cfg) := by
  refine ⟨⟨h.window_le, Nat.zero_le _, ?_, h.tail, h.head, h.head, h.filled, h.placed⟩, rfl⟩
  exact (Nat.add_le_add_right (Nat.zero_le _) _).trans h.lengths_le

/-- Every call does to the ring what it does to the windows. -/
theorem Numbered.perform {call : RingCall} (h : Numbered cfg r) (hok : r.permitted call = true)
    (hs : r.perform cfg call = .ok ((), r')) :
    Numbered cfg r' ∧ (r.windows cfg).step cfg.windowSize call (r'.windows cfg) := by
  cases call with
  | add uop info =>
    cases hadd : r.add cfg uop info with
    | error e => rw [WindowRing.perform, hadd] at hs; cases hs
    | ok r₁ =>
      rw [WindowRing.perform, hadd] at hs
      cases hs
      exact h.add hadd
  | write i e =>
    cases hs
    rw [permitted] at hok
    split at hok
    · next e' he' =>
      have hnumber := of_decide_eq_true hok
      refine ⟨h.write he' hnumber, ?_⟩
      change TwoWindows.mk _ _ _ = _
      rw [WindowRing.old, WindowRing.window, h.entries_write he' hnumber,
        h.entries_write he' hnumber]
      rfl
    · cases hok
  | dispatch =>
    cases hdispatch : r.dispatchInstruction cfg with
    | error e => rw [WindowRing.perform, hdispatch] at hs; cases hs
    | ok r₁ =>
      rw [WindowRing.perform, hdispatch] at hs
      cases hs
      exact h.dispatch (by simpa [permitted] using hok) hdispatch
  | clear =>
    cases hs
    exact h.clearOldWindow

/-- The ring is the two windows. -/
theorem run_refines_twoWindows {tr : List (RingCall × Unit)}
    (h : Run (machine cfg) (fun r call => r.permitted call = true) tr r) :
    Numbered cfg r ∧ Run (TwoWindows.machine cfg.windowSize) anyStep tr (r.windows cfg) :=
  h.refines (WindowRing.windows cfg) (by rintro r rfl; exact ⟨numbered_new, rfl⟩)
    fun _ _ _ _ hinv hok hs => hinv.perform hok hs

end WindowRing

end Sniper.Performance
