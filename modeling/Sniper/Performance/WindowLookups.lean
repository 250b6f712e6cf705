import Sniper.Performance.CycleSkipping
import Sniper.Performance.WindowAddressing
set_option autoImplicit false

/-! The look-ups in the ring, and the states in which they are right. -/

namespace Sniper.Performance
open Sniper.Lib

namespace WindowRing

variable {cfg : RingConfig} {r r' : WindowRing} {k n : Nat}

/-- A query tells whether a list has the micro-operation of a number. -/
def Tells (l : List WindowEntry) (query : Nat → Except RingAbort Bool) : Prop :=
  ∀ number, ∃ b, query number = .ok b ∧ (b = true ↔ ∃ e ∈ l, e.uop.sequenceNumber = number)

/-- The look-ups find the entries of the two windows, the iterators go through them in the order of
their numbers, and a new entry overwrites none of them. -/
structure Addressed (cfg : RingConfig) (r : WindowRing) : Prop where
  instruction : ∀ e ∈ r.old cfg ++ r.window cfg,
    r.getInstruction cfg e.uop.sequenceNumber = .ok e
  window : Tells (r.window cfg) (r.windowContains cfg)
  oldWindow : Tells (r.old cfg) (r.oldWindowContains cfg)
  kept : ∀ uop info r', r.add cfg uop info = .ok r' → r'.old cfg = r.old cfg ∧
    ∃ e, r'.window cfg = r.window cfg ++ [e] ∧ e.uop.sequenceNumber = r.nextSequenceNumber
  windowIterator : r.windowIterator cfg = .ok ((r.window cfg).map some)
  oldWindowIterator : r.oldWindowIterator cfg = .ok ((r.old cfg).map some)
  inOrder : (r.old cfg ++ r.window cfg).map (fun e => e.uop.sequenceNumber) =
    List.range' r.oldest (r.oldWindowLength + r.windowLength)

/-! ### The iterators -/

theorem getInstructionByIndex_eq {i : Nat} (hi : i < cfg.doubleWindowSize) :
    r.getInstructionByIndex cfg i = .ok (r.doubleWindow i) := by
  rw [getInstructionByIndex, if_pos ⟨Int.natCast_nonneg _, by exact_mod_cast hi⟩,
    Int.toNat_natCast]

theorem iterate_eq {a left : Nat} (ha : a < cfg.doubleWindowSize) (hn : n < cfg.doubleWindowSize)
    (hleft : n ≤ left) : r.iterate cfg (slotAfter cfg.doubleWindowSize a n) left a =
      .ok (stretch r.doubleWindow cfg.doubleWindowSize a n) := by
  induction n generalizing a left with
  | zero =>
    rw [slotAfter_zero ha]
    cases left <;> simp only [iterate, if_true, stretch_zero]
  | succ n ih =>
    obtain ⟨left, rfl⟩ := Nat.exists_eq_add_of_le' (Nat.one_le_of_lt hleft)
    have hne : a ≠ slotAfter cfg.doubleWindowSize a (n + 1) := by
      intro heq
      rw [← slotAfter_zero ha, slotAfter_slotAfter] at heq
      have hzero := slotAfter_inj (Nat.zero_lt_of_lt ha) (by rwa [Nat.zero_add]) heq
      omega
    have hnext : slotAfter cfg.doubleWindowSize a (n + 1) = slotAfter cfg.doubleWindowSize
        (slotAfter cfg.doubleWindowSize a 1) n := by
      rw [slotAfter_slotAfter, Nat.add_comm]
    have hrest := @ih (slotAfter cfg.doubleWindowSize a 1) left
      (slotAfter_lt (Nat.zero_lt_of_lt ha)) (Nat.lt_of_succ_lt hn) (Nat.le_of_succ_le_succ hleft)
    rw [iterate, if_neg hne, getInstructionByIndex_eq ha, incrementIndex_eq, hnext, hrest,
      stretch_cons ha]
    rfl

/-- A window does not fill the ring, so that its end is not its beginning. -/
theorem iterate_window (k : Nat) (hn : n ≤ cfg.windowSize) :
    r.iterate cfg (slotAfter cfg.doubleWindowSize (k % cfg.doubleWindowSize) n)
        cfg.doubleWindowSize (k % cfg.doubleWindowSize) =
      .ok (stretch r.doubleWindow cfg.doubleWindowSize (k % cfg.doubleWindowSize) n) := by
  rcases Nat.eq_zero_or_pos cfg.windowSize with hzero | hpos
  · have hsize : cfg.doubleWindowSize = 0 := by rw [RingConfig.doubleWindowSize, hzero]
    have hlen : n = 0 := Nat.le_zero.mp (hzero ▸ hn)
    have hstop : k % 0 = slotAfter 0 (k % 0) 0 := (Nat.mod_zero _).symm
    rw [hlen, hsize, iterate, if_pos hstop]
    rfl
  · have hlt : n < cfg.doubleWindowSize := by
      rw [RingConfig.doubleWindowSize]
      omega
    exact iterate_eq (Nat.mod_lt _ (Nat.zero_lt_of_lt hlt)) hlt hlt.le

theorem Numbered.windowIterator (h : Numbered cfg r) :
    r.windowIterator cfg = .ok ((r.window cfg).map some) := by
  rw [← h.window_spec.1, WindowRing.windowIterator, ← h.tail_eq, h.head]
  exact iterate_window r.dispatched h.window_le

theorem Numbered.oldWindowIterator (h : Numbered cfg r) :
    r.oldWindowIterator cfg = .ok ((r.old cfg).map some) := by
  rw [← h.old_spec.1, WindowRing.oldWindowIterator, ← h.head_eq, h.oldHead]
  exact iterate_window r.oldest h.old_le

/-! ### The two windows together -/

theorem Numbered.inOrder (h : Numbered cfg r) :
    (r.old cfg ++ r.window cfg).map (fun e => e.uop.sequenceNumber) =
      List.range' r.oldest (r.oldWindowLength + r.windowLength) := by
  rw [List.map_append, h.old_spec.2, h.window_spec.2, ← h.oldest_add, List.range'_append_1]

theorem Numbered.mem_window_iff (h : Numbered cfg r) (number : Nat) :
    (∃ e ∈ r.window cfg, e.uop.sequenceNumber = number) ↔
      r.dispatched ≤ number ∧ number < r.nextSequenceNumber := by
  rw [← List.mem_map (f := fun e : WindowEntry => e.uop.sequenceNumber), h.window_spec.2,
    List.mem_range'_1, h.dispatched_add]

theorem Numbered.mem_old_iff (h : Numbered cfg r) (number : Nat) :
    (∃ e ∈ r.old cfg, e.uop.sequenceNumber = number) ↔
      r.oldest ≤ number ∧ number < r.dispatched := by
  rw [← List.mem_map (f := fun e : WindowEntry => e.uop.sequenceNumber), h.old_spec.2,
    List.mem_range'_1, h.oldest_add]

/-- An entry is in the slot of its number. -/
theorem Numbered.entry (h : Numbered cfg r) {e : WindowEntry}
    (he : e ∈ r.old cfg ++ r.window cfg) :
    r.oldest ≤ e.uop.sequenceNumber ∧ e.uop.sequenceNumber < r.nextSequenceNumber ∧
      r.entryAt cfg (e.uop.sequenceNumber % cfg.doubleWindowSize : Nat) = .ok e := by
  have hslot : ∃ i, r.doubleWindow i = some e := by
    have hmem : some e ∈ (r.old cfg).map some ++ (r.window cfg).map some := by
      rw [← List.map_append]
      exact List.mem_map_of_mem he
    rw [← h.old_spec.1, ← h.window_spec.1, List.mem_append, mem_stretch, mem_stretch] at hmem
    rcases hmem with ⟨i, -, hi⟩ | ⟨i, -, hi⟩
    · exact ⟨_, hi⟩
    · exact ⟨_, hi⟩
  obtain ⟨i, hi⟩ := hslot
  have hnumber : e.uop.sequenceNumber ∈
      List.range' r.oldest (r.oldWindowLength + r.windowLength) := by
    rw [← h.inOrder]
    exact List.mem_map_of_mem (f := fun e : WindowEntry => e.uop.sequenceNumber) he
  obtain ⟨hle, hlt⟩ := List.mem_range'_1.mp hnumber
  have holdest := h.oldest_add
  have hdispatched := h.dispatched_add
  have hkept := h.old_kept
  obtain ⟨e', he', -, hentry⟩ := h.kept (k := e.uop.sequenceNumber) (by omega)
    (hkept.next_le.trans (Nat.add_le_add_right hle _))
  rw [← (h.placed i e hi).1, hi] at he'
  cases he'
  exact ⟨hle, by omega, hentry⟩

/-! ### The look-ups -/

theorem decrementIndex_mod (hpos : 0 < cfg.doubleWindowSize) (hk : 0 < k) :
    decrementIndex cfg (k % cfg.doubleWindowSize) = (k - 1) % cfg.doubleWindowSize := by
  rw [decrementIndex]
  obtain ⟨k, rfl⟩ := Nat.exists_eq_succ_of_ne_zero hk.ne'
  rw [Nat.add_sub_assoc hpos, Nat.mod_add_mod]
  have hsum : k.succ + (cfg.doubleWindowSize - 1) = k + cfg.doubleWindowSize := by omega
  rw [hsum, Nat.add_mod_right, Nat.succ_sub_one]

theorem windowIndex_eq (hpos : 0 < cfg.doubleWindowSize) (index : Int) :
    windowIndex cfg index = index % cfg.doubleWindowSize := by
  have hlow := Int.lt_tmod_of_pos index (Int.natCast_pos.mpr hpos)
  have hnonneg : 0 ≤ index.tmod cfg.doubleWindowSize + cfg.doubleWindowSize := by omega
  rw [windowIndex, Int.tmod_eq_emod_of_nonneg hnonneg, Int.add_emod_right, Int.tmod_def,
    Int.sub_mul_emod_self_left]

/-- The index of the head less the distance is that of the number. -/
theorem windowIndex_distance (head number : Nat) (hpos : 0 < cfg.windowSize)
    (hnumber : head ≤ number + cfg.windowSize) (hhead : number ≤ head + cfg.windowSize) :
    windowIndex cfg ((((head % cfg.doubleWindowSize : Nat) : Int) -
      ((head : Int) - number).bmod (2 ^ 32)).bmod (2 ^ 32)) =
      ((number % cfg.doubleWindowSize : Nat) : Int) := by
  have hsums := cfg.sums_lt
  have hsize : cfg.doubleWindowSize = 2 * cfg.windowSize := rfl
  have hmod := Nat.mod_lt head (by omega : 0 < cfg.doubleWindowSize)
  have hdistance : ((head : Int) - number).bmod (2 ^ 32) = (head : Int) - number := by
    rw [Int.bmod_def]
    split <;> omega
  have hindex : (((head % cfg.doubleWindowSize : Nat) : Int) - ((head : Int) - number)).bmod
      (2 ^ 32) = ((head % cfg.doubleWindowSize : Nat) : Int) - ((head : Int) - number) := by
    generalize head % cfg.doubleWindowSize = slot at hmod ⊢
    rw [Int.bmod_def]
    split <;> omega
  rw [hdistance, hindex, windowIndex_eq (by omega), Int.natCast_emod, Int.emod_sub_emod,
    Int.natCast_emod, Int.sub_sub_self]

theorem Numbered.getInstruction {e : WindowEntry} (h : Numbered cfg r) (hwindow : 0 < r.windowLength)
    (he : e ∈ r.old cfg ++ r.window cfg) : r.getInstruction cfg e.uop.sequenceNumber = .ok e := by
  obtain ⟨hle, hlt, hentry⟩ := h.entry he
  obtain ⟨head, -, hhead, hheadAt⟩ := h.head_entry hwindow
  have hold := h.old_le
  have hwindow_le := h.window_le
  have holdest := h.oldest_add
  have hdispatched := h.dispatched_add
  have hindex := windowIndex_distance r.dispatched e.uop.sequenceNumber
    (hwindow.trans_le hwindow_le) (by omega) (by omega)
  rw [← h.head] at hindex
  rw [WindowRing.getInstruction, hheadAt]
  change (r.entryAt cfg (windowIndex cfg (((r.windowHead : Int) -
    ((head.uop.sequenceNumber : Int) - e.uop.sequenceNumber).bmod (2 ^ 32)).bmod (2 ^ 32))) >>=
      fun ret => _) = _
  rw [hhead, hindex, hentry]
  exact if_pos rfl

/-- The first and the last entry of a window bound its numbers. -/
theorem contains_eq (number : Nat) {low high : Nat} {first final : WindowEntry} {i j : Int}
    (hfirst : r.entryAt cfg i = .ok first) (hfinal : r.entryAt cfg j = .ok final)
    (hlow : first.uop.sequenceNumber = low) (hhigh : final.uop.sequenceNumber = high) :
    (do
      let lowestValid ← r.entryAt cfg i
      let highestValid ← r.entryAt cfg j
      return decide (lowestValid.uop.sequenceNumber ≤ number ∧
        number ≤ highestValid.uop.sequenceNumber)) =
      (.ok (decide (low ≤ number ∧ number ≤ high)) : Except RingAbort Bool) := by
  rw [hfirst, hfinal, ← hlow, ← hhigh]
  rfl

/-- The entry that was added last. -/
theorem Numbered.last_entry (h : Numbered cfg r) (hnext : 0 < r.nextSequenceNumber)
    (hpos : 0 < cfg.windowSize) : ∃ e, e.uop.sequenceNumber = r.nextSequenceNumber - 1 ∧
      r.entryAt cfg (decrementIndex cfg r.windowTail) = .ok e := by
  have hsize : cfg.doubleWindowSize = 2 * cfg.windowSize := rfl
  obtain ⟨e, -, he, hentry⟩ := h.kept (k := r.nextSequenceNumber - 1) (by omega) (by omega)
  rw [h.tail, decrementIndex_mod (by omega) hnext]
  exact ⟨e, he, hentry⟩

theorem Numbered.windowContains (h : Numbered cfg r) (hwindow : 0 < r.windowLength) :
    Tells (r.window cfg) (r.windowContains cfg) := by
  intro number
  have hdispatched := h.dispatched_add
  obtain ⟨first, -, hfirst, hfirstAt⟩ := h.head_entry hwindow
  obtain ⟨final, hfinal, hfinalAt⟩ := h.last_entry (by omega) (hwindow.trans_le h.window_le)
  refine ⟨_, contains_eq number hfirstAt hfinalAt hfirst hfinal, ?_⟩
  rw [decide_eq_true_iff, h.mem_window_iff]
  omega

/-- The entry that was dispatched last is in the ring. -/
theorem Numbered.oldWindowContains (h : Numbered cfg r) (hwindow : 0 < r.windowLength)
    (hdispatched : 0 < r.dispatched) : Tells (r.old cfg) (r.oldWindowContains cfg) := by
  intro number
  have hwindow_le := h.window_le
  have hsize : cfg.doubleWindowSize = 2 * cfg.windowSize := rfl
  have hnext := h.dispatched_add
  obtain ⟨first, -, hfirst, hfirstAt⟩ := h.oldest_entry (Nat.add_pos_right _ hwindow)
  obtain ⟨final, -, hfinal, hfinalAt⟩ := h.kept (k := r.dispatched - 1) (by omega) (by omega)
  rw [← decrementIndex_mod (by omega) hdispatched, ← h.head] at hfinalAt
  refine ⟨_, contains_eq number hfirstAt hfinalAt hfirst hfinal, ?_⟩
  rw [decide_eq_true_iff, h.mem_old_iff]
  omega

theorem Numbered.addressed (h : Numbered cfg r) (hwindow : 0 < r.windowLength)
    (hdispatched : 0 < r.dispatched) : Addressed cfg r where
  instruction _ he := h.getInstruction hwindow he
  window := h.windowContains hwindow
  oldWindow := h.oldWindowContains hwindow hdispatched
  kept uop info r' hs := by
    obtain ⟨-, -, uop', huop, hwindows⟩ := h.add hs
    exact ⟨congrArg TwoWindows.old hwindows, _, congrArg TwoWindows.window hwindows, huop⟩
  windowIterator := h.windowIterator
  oldWindowIterator := h.oldWindowIterator
  inOrder := h.inOrder

/-! ### The states in which they are wrong -/

theorem entryAt_error {i : Nat} (h : cfg.doubleWindowSize ≤ i ∨ r.doubleWindow i = none) :
    ∃ e, r.entryAt cfg i = .error e := by
  by_cases hi : i < cfg.doubleWindowSize
  · have hnone := h.resolve_left (Nat.not_le.mpr hi)
    refine ⟨.noUop, ?_⟩
    rw [entryAt, getInstructionByIndex_eq hi, hnone]
    rfl
  · refine ⟨.outOfBounds, ?_⟩
    have hout : ¬(0 ≤ (i : Int) ∧ (i : Int) < cfg.doubleWindowSize) := fun hin =>
      hi (by exact_mod_cast hin.2)
    rw [entryAt, getInstructionByIndex, if_neg hout]
    rfl

/-- A slot is empty as long as fewer micro-operations have come than there are slots before it. -/
theorem Numbered.unused (h : Numbered cfg r) {i : Nat} (hi : r.nextSequenceNumber ≤ i) :
    r.doubleWindow i = none := by
  cases he : r.doubleWindow i with
  | none => rfl
  | some e =>
    obtain ⟨hslot, hlt⟩ := h.placed i e he
    have hle := Nat.mod_le e.uop.sequenceNumber cfg.doubleWindowSize
    omega

/-- Without a window its head is a slot that is empty, or that has an entry from a whole ring ago. -/
theorem Numbered.not_windowContains (h : Numbered cfg r) (hwindow : r.windowLength = 0) :
    ¬Tells (r.window cfg) (r.windowContains cfg) := by
  intro htells
  have hnext : r.dispatched = r.nextSequenceNumber := by
    rw [dispatched, hwindow]
    rfl
  have hempty : ∀ number, ¬∃ e ∈ r.window cfg, e.uop.sequenceNumber = number := by
    intro number
    rw [h.mem_window_iff]
    omega
  obtain ⟨b, hb, htrue⟩ := htells (r.nextSequenceNumber - 1)
  by_cases hring : r.nextSequenceNumber < cfg.doubleWindowSize ∨ cfg.doubleWindowSize = 0
  · have hslot : cfg.doubleWindowSize ≤ r.windowHead ∨ r.doubleWindow r.windowHead = none := by
      rcases hring with hlt | hzero
      · refine .inr (h.unused ?_)
        rw [h.head, hnext, Nat.mod_eq_of_lt hlt]
      · exact .inl (by omega)
    obtain ⟨e, he⟩ := entryAt_error hslot
    rw [WindowRing.windowContains, he] at hb
    cases hb
  · have hsize : cfg.doubleWindowSize = 2 * cfg.windowSize := rfl
    have hhead : r.windowHead = (r.nextSequenceNumber - cfg.doubleWindowSize) %
        cfg.doubleWindowSize := by
      rw [h.head, hnext]
      exact Nat.mod_eq_sub_mod (by omega)
    obtain ⟨first, -, hfirst, hfirstAt⟩ :=
      h.kept (k := r.nextSequenceNumber - cfg.doubleWindowSize) (by omega) (by omega)
    rw [← hhead] at hfirstAt
    obtain ⟨final, hfinal, hfinalAt⟩ := h.last_entry (by omega) (by omega)
    have heq := contains_eq (r.nextSequenceNumber - 1) hfirstAt hfinalAt hfirst hfinal
    rw [decide_eq_true (by omega)] at heq
    cases hb.symm.trans heq
    exact hempty _ (htrue.mp rfl)

/-- Before the first dispatch nothing stands before the head of the window. -/
theorem Numbered.not_oldWindowContains (h : Numbered cfg r) (hwindow : 0 < r.windowLength)
    (hdispatched : r.dispatched = 0) : ¬Tells (r.old cfg) (r.oldWindowContains cfg) := by
  intro htells
  have hwindow_le := h.window_le
  have hsize : cfg.doubleWindowSize = 2 * cfg.windowSize := rfl
  have hnext := h.dispatched_add
  obtain ⟨b, hb, -⟩ := htells 0
  obtain ⟨first, -, -, hfirstAt⟩ := h.oldest_entry (Nat.add_pos_right _ hwindow)
  have hslot : decrementIndex cfg r.windowHead = cfg.doubleWindowSize - 1 := by
    rw [h.head, hdispatched, Nat.zero_mod, decrementIndex, Nat.zero_add]
    exact Nat.mod_eq_of_lt (by omega)
  obtain ⟨e, he⟩ : ∃ e, r.entryAt cfg (cfg.doubleWindowSize - 1 : Nat) = .error e :=
    entryAt_error (.inr (h.unused (by omega)))
  rw [WindowRing.oldWindowContains, hfirstAt, hslot] at hb
  change (r.entryAt cfg (cfg.doubleWindowSize - 1 : Nat) >>= fun _ => _) = _ at hb
  rw [he] at hb
  cases hb

/-- The look-ups look at the first entry of the window, and at the last one that was dispatched. -/
theorem run_addressed_iff {tr : List (RingCall × Unit)}
    (h : Run (machine cfg) (fun r call => r.permitted call = true) tr r) :
    Run (TwoWindows.machine cfg.windowSize) anyStep tr (r.windows cfg) ∧
      (Addressed cfg r ↔
        r.window cfg ≠ [] ∧ (r.window cfg).length < r.nextSequenceNumber) := by
  obtain ⟨hinv, hrun⟩ := run_refines_twoWindows h
  refine ⟨hrun, ?_⟩
  have hnext := hinv.dispatched_add
  have hlength : (r.window cfg ≠ [] ∧ (r.window cfg).length < r.nextSequenceNumber) ↔
      0 < r.windowLength ∧ 0 < r.dispatched := by
    rw [← List.length_pos_iff, hinv.window_length]
    omega
  rw [hlength]
  constructor
  · intro haddressed
    have hwindow : 0 < r.windowLength := Nat.pos_of_ne_zero fun hzero =>
      hinv.not_windowContains hzero haddressed.window
    exact ⟨hwindow, Nat.pos_of_ne_zero fun hzero =>
      hinv.not_oldWindowContains hwindow hzero haddressed.oldWindow⟩
  · rintro ⟨hwindow, hdispatched⟩
    exact hinv.addressed hwindow hdispatched

/-- Rings of two slots, in which a micro-operation is dispatched before the next one comes. -/
def twoSlots : RingConfig := ⟨1, by decide⟩

def addPlain : RingCall := .add (RobState.plainUop .execute [] []) ⟨.generic, false, false, 0⟩

def calls : List RingCall := [addPlain, .dispatch, addPlain]

theorem calls_run : ∃ tr r,
    Run (machine twoSlots) (fun r call => r.permitted call = true) tr r ∧ r.windowLength = 1 ∧
      performEach (perform twoSlots) permitted new calls = some r := by
  have hrun : ((performEach (perform twoSlots) permitted new calls).map fun r =>
      r.windowLength) = some 1 := by rfl
  obtain ⟨r, hr, hlength⟩ := Option.map_eq_some_iff.mp hrun
  obtain ⟨tr, h⟩ := Run.performEach (M := machine twoSlots) (fun _ _ _ _ h => h) (fun _ _ h => h)
    (.start rfl) hr
  exact ⟨tr, r, h, hlength, hr⟩

theorem run_addressed_iff_calls : ∃ tr r,
    Run (TwoWindows.machine 1) anyStep tr (r.windows twoSlots) ∧
      (Addressed twoSlots r ↔
        r.window twoSlots ≠ [] ∧ (r.window twoSlots).length < r.nextSequenceNumber) := by
  obtain ⟨tr, r, h, -, -⟩ := calls_run
  exact ⟨tr, r, run_addressed_iff h⟩

/-- Both have been dispatched, and the window is said to contain the second one. -/
theorem windowContains_dispatched : ∃ tr r,
    Run (machine twoSlots) (fun r call => r.permitted call = true) tr r ∧ r.windowLength = 0 ∧
      r.windowContains twoSlots 1 = .ok true ∧ ¬Addressed twoSlots r := by
  have hrun : ((performEach (perform twoSlots) permitted new (calls ++ [.dispatch])).map fun r =>
      (r.windowLength, r.windowContains twoSlots 1)) = some (0, .ok true) := by rfl
  obtain ⟨r, hr, heq⟩ := Option.map_eq_some_iff.mp hrun
  obtain ⟨hlength, hcontains⟩ := Prod.mk.inj heq
  obtain ⟨tr, h⟩ := Run.performEach (M := machine twoSlots) (fun _ _ _ _ h => h) (fun _ _ h => h)
    (.start rfl) hr
  have hinv := (run_refines_twoWindows h).1
  exact ⟨tr, r, h, hlength, hcontains, fun haddressed =>
    hinv.not_windowContains hlength haddressed.window⟩

end WindowRing

end Sniper.Performance
