import Sniper.Timing.SubsecondTime
import Mathlib.Data.List.Sort
import Mathlib.Data.UInt
import Mathlib.Algebra.BigOperators.Group.List.Basic
set_option autoImplicit false

namespace Sniper.Timing

/-- An arrival: its time and its service time. -/
abbrev Arrival := SubsecondTime × SubsecondTime

/-- The queue model with its window of recent arrivals, a multimap by time. -/
structure QueueModelWindowedMG1 where
  windowSize : SubsecondTime
  totalRequests : UInt64
  totalUtilizedTime : SubsecondTime
  totalQueueDelay : SubsecondTime
  window : List Arrival
  numArrivals : UInt64
  serviceTimeSum : UInt64
  serviceTimeSum2 : UInt64
  deriving DecidableEq, Repr

namespace QueueModelWindowedMG1

def new (windowSize : SubsecondTime) : QueueModelWindowedMG1 := ⟨windowSize, 0, 0, 0, [], 0, 0, 0⟩

/-- `m_window.insert`: behind the arrivals of the same time. -/
def insertArrival (window : List Arrival) (arrival : Arrival) : List Arrival :=
  window.orderedInsert (fun a b => a.1 < b.1) arrival

def addItem (q : QueueModelWindowedMG1) (pktTime serviceTime : SubsecondTime) :
    QueueModelWindowedMG1 :=
  { q with
    window := insertArrival q.window (pktTime, serviceTime)
    numArrivals := q.numArrivals + 1
    serviceTimeSum := q.serviceTimeSum + SubsecondTime.getPS serviceTime
    serviceTimeSum2 :=
      q.serviceTimeSum2 + SubsecondTime.getPS serviceTime * SubsecondTime.getPS serviceTime }

/-- The loop of `removeItems`, over what is left in the window. -/
def removeLoop (earliestTime : SubsecondTime) :
    List Arrival → QueueModelWindowedMG1 → QueueModelWindowedMG1
  | [], q => q
  | entry :: rest, q =>
    if entry.1 < earliestTime then
      removeLoop earliestTime rest { q with
        numArrivals := q.numArrivals - 1
        serviceTimeSum := q.serviceTimeSum - SubsecondTime.getPS entry.2
        serviceTimeSum2 :=
          q.serviceTimeSum2 - SubsecondTime.getPS entry.2 * SubsecondTime.getPS entry.2
        window := rest }
    else q

def removeItems (q : QueueModelWindowedMG1) (earliestTime : SubsecondTime) :
    QueueModelWindowedMG1 :=
  removeLoop earliestTime q.window q

/-- The later of the global time less the window and the packet's time less ten windows. -/
def earliestTime (q : QueueModelWindowedMG1) (globalTime pktTime : SubsecondTime) : SubsecondTime :=
  if globalTime - q.windowSize < pktTime - 10 * q.windowSize then pktTime - 10 * q.windowSize
  else globalTime - q.windowSize

/-- `estimate` is the formula for the delay, in floating point. -/
def computeQueueDelay (estimate : UInt64 → UInt64 → UInt64 → SubsecondTime)
    (q : QueueModelWindowedMG1) (globalTime pktTime processingTime : SubsecondTime) :
    SubsecondTime × QueueModelWindowedMG1 :=
  let q := q.removeItems (q.earliestTime globalTime pktTime)
  let tQueue :=
    if 1 < q.numArrivals then
      let t := estimate q.numArrivals q.serviceTimeSum q.serviceTimeSum2
      if q.windowSize < t then q.windowSize else t
    else 0
  let q := q.addItem pktTime processingTime
  (tQueue, { q with
    totalRequests := q.totalRequests + 1
    totalUtilizedTime := q.totalUtilizedTime + processingTime
    totalQueueDelay := q.totalQueueDelay + tQueue })

/-! ### The window -/

def Sorted (window : List Arrival) : Prop := window.Pairwise fun a b => a.1 ≤ b.1

theorem insertArrival_perm (window : List Arrival) (arrival : Arrival) :
    (insertArrival window arrival).Perm (arrival :: window) :=
  List.perm_orderedInsert _ _ _

theorem insertArrival_sorted {window : List Arrival} (h : Sorted window) (arrival : Arrival) :
    Sorted (insertArrival window arrival) := by
  induction window with
  | nil => exact List.pairwise_singleton _ _
  | cons a rest ih =>
    obtain ⟨ha, hrest⟩ := List.pairwise_cons.mp h
    unfold insertArrival
    rw [List.orderedInsert_cons]
    split
    case isTrue hlt =>
      refine List.pairwise_cons.mpr ⟨?_, h⟩
      intro b hb
      rcases List.mem_cons.mp hb with rfl | hb
      · exact UInt64.le_of_lt hlt
      · exact UInt64.le_trans (UInt64.le_of_lt hlt) (ha b hb)
    case isFalse hge =>
      refine List.pairwise_cons.mpr ⟨?_, ih hrest⟩
      intro b hb
      rcases List.mem_cons.mp ((insertArrival_perm rest arrival).subset hb) with rfl | hb
      · exact UInt64.not_lt.mp hge
      · exact ha b hb

/-- What the loop takes from the front of a sorted window are the arrivals before the bound. -/
theorem dropWhile_eq_filter {window : List Arrival} (h : Sorted window) (t : SubsecondTime) :
    window.dropWhile (fun a => decide (a.1 < t)) = window.filter fun a => decide (t ≤ a.1) := by
  induction window with
  | nil => rfl
  | cons a rest ih =>
    obtain ⟨ha, hrest⟩ := List.pairwise_cons.mp h
    rw [List.dropWhile_cons, List.filter_cons]
    by_cases hlt : a.1 < t
    · rw [if_pos (decide_eq_true hlt), if_neg (by simpa using UInt64.not_le.mpr hlt), ih hrest]
    · have hle : t ≤ a.1 := UInt64.not_lt.mp hlt
      rw [if_neg (by simpa using hlt), if_pos (decide_eq_true hle), List.filter_eq_self.mpr]
      intro b hb
      exact decide_eq_true (UInt64.le_trans hle (ha b hb))

/-- The counts against the window, in the 64 bits they have. -/
structure Sums (q : QueueModelWindowedMG1) : Prop where
  numArrivals : q.numArrivals = UInt64.ofNat q.window.length
  serviceTimeSum : q.serviceTimeSum = (q.window.map fun a => SubsecondTime.getPS a.2).sum
  serviceTimeSum2 : q.serviceTimeSum2 =
    (q.window.map fun a => SubsecondTime.getPS a.2 * SubsecondTime.getPS a.2).sum

theorem new_sums (windowSize : SubsecondTime) : (new windowSize).Sums := ⟨rfl, rfl, rfl⟩

theorem Sums.addItem {q : QueueModelWindowedMG1} (h : q.Sums)
    (pktTime serviceTime : SubsecondTime) : (q.addItem pktTime serviceTime).Sums := by
  have hperm := insertArrival_perm q.window (pktTime, serviceTime)
  refine ⟨?_, ?_, ?_⟩
  · simp [QueueModelWindowedMG1.addItem, hperm.length_eq, h.numArrivals]
  · simp only [QueueModelWindowedMG1.addItem]
    rw [(hperm.map _).sum_eq, List.map_cons, List.sum_cons, h.serviceTimeSum, UInt64.add_comm]
  · simp only [QueueModelWindowedMG1.addItem]
    rw [(hperm.map _).sum_eq, List.map_cons, List.sum_cons, h.serviceTimeSum2, UInt64.add_comm]

theorem removeLoop_spec (t : SubsecondTime) {q : QueueModelWindowedMG1} (h : q.Sums) :
    (removeLoop t q.window q).Sums ∧
      (removeLoop t q.window q).window = q.window.dropWhile (fun a => decide (a.1 < t)) ∧
      (removeLoop t q.window q).windowSize = q.windowSize := by
  generalize hw : q.window = window
  induction window generalizing q with
  | nil => exact ⟨h, hw, rfl⟩
  | cons a rest ih =>
    rw [removeLoop, List.dropWhile_cons]
    split
    case isTrue hlt =>
      rw [if_pos (decide_eq_true hlt)]
      have hsums := h.serviceTimeSum
      have hsums2 := h.serviceTimeSum2
      rw [hw, List.map_cons, List.sum_cons] at hsums hsums2
      refine ih ⟨?_, ?_, ?_⟩ rfl
      · simp [h.numArrivals, hw]
      · simp [hsums]
      · simp [hsums2]
    case isFalse hlt =>
      rw [if_neg (by simpa using hlt)]
      exact ⟨h, hw, rfl⟩

section Calls

variable (estimate : UInt64 → UInt64 → UInt64 → SubsecondTime)

/-- A call takes the arrivals before the bound out of the window and puts the packet into it. -/
theorem computeQueueDelay_spec {q : QueueModelWindowedMG1} (h : q.Sums) (hs : Sorted q.window)
    (globalTime pktTime processingTime : SubsecondTime) :
    let q' := (computeQueueDelay estimate q globalTime pktTime processingTime).2
    q'.Sums ∧ Sorted q'.window ∧ q'.windowSize = q.windowSize ∧
      q'.window = insertArrival
        (q.window.filter fun a => decide (q.earliestTime globalTime pktTime ≤ a.1))
        (pktTime, processingTime) := by
  obtain ⟨hsums, hwindow, hsize⟩ := removeLoop_spec (q.earliestTime globalTime pktTime) h
  rw [dropWhile_eq_filter hs] at hwindow
  have hadd := hsums.addItem pktTime processingTime
  have hinsert : (computeQueueDelay estimate q globalTime pktTime processingTime).2.window =
      insertArrival (q.window.filter fun a => decide (q.earliestTime globalTime pktTime ≤ a.1))
        (pktTime, processingTime) := by
    rw [← hwindow]
    rfl
  refine ⟨⟨hadd.numArrivals, hadd.serviceTimeSum, hadd.serviceTimeSum2⟩, ?_, hsize, hinsert⟩
  rw [hinsert]
  exact insertArrival_sorted (hs.sublist List.filter_sublist) _

/-- The state after calls with a global time, a packet time and a processing time each. -/
def runAll (q : QueueModelWindowedMG1) (calls : List (SubsecondTime × SubsecondTime × SubsecondTime)) :
    QueueModelWindowedMG1 :=
  calls.foldl (fun q c => (computeQueueDelay estimate q c.1 c.2.1 c.2.2).2) q

theorem runAll_sums {q : QueueModelWindowedMG1} (h : q.Sums) (hs : Sorted q.window)
    (calls : List (SubsecondTime × SubsecondTime × SubsecondTime)) :
    (q.runAll estimate calls).Sums ∧ Sorted (q.runAll estimate calls).window := by
  induction calls generalizing q with
  | nil => exact ⟨h, hs⟩
  | cons c calls ih =>
    obtain ⟨hsums, hsorted, -, -⟩ := computeQueueDelay_spec estimate h hs c.1 c.2.1 c.2.2
    exact ih hsums hsorted

end Calls

/-! ### Over the integers -/

/-- Whole picoseconds of service. -/
def ps (a : Arrival) : Nat := (SubsecondTime.getPS a.2).toNat

/-- The number of arrivals, their service times and the squares of these fit in 64 bits. -/
structure InRange (arrivals : List Arrival) : Prop where
  length : arrivals.length < 2 ^ 64
  sum : (arrivals.map ps).sum < 2 ^ 64
  sum2 : (arrivals.map fun a => ps a * ps a).sum < 2 ^ 64

/-- The counts are those of the window. -/
structure Exact (q : QueueModelWindowedMG1) : Prop where
  numArrivals : q.numArrivals.toNat = q.window.length
  serviceTimeSum : q.serviceTimeSum.toNat = (q.window.map ps).sum
  serviceTimeSum2 : q.serviceTimeSum2.toNat = (q.window.map fun a => ps a * ps a).sum

theorem toNat_sum (l : List UInt64) : l.sum.toNat = (l.map UInt64.toNat).sum % 2 ^ 64 := by
  induction l with
  | nil => rfl
  | cons a l ih => rw [List.sum_cons, UInt64.toNat_add, ih, List.map_cons, List.sum_cons,
      Nat.add_mod_mod]

theorem toNat_sum_mul (arrivals : List Arrival) :
    (arrivals.map fun a => SubsecondTime.getPS a.2 * SubsecondTime.getPS a.2).sum.toNat =
      (arrivals.map fun a => ps a * ps a).sum % 2 ^ 64 := by
  induction arrivals with
  | nil => rfl
  | cons a arrivals ih =>
    rw [List.map_cons, List.sum_cons, UInt64.toNat_add, ih, List.map_cons, List.sum_cons,
      UInt64.toNat_mul, Nat.add_mod_mod, Nat.mod_add_mod]
    rfl

theorem mod_eq_self_iff {x : Nat} : x % 2 ^ 64 = x ↔ x < 2 ^ 64 :=
  ⟨fun h => h ▸ Nat.mod_lt _ (by decide), Nat.mod_eq_of_lt⟩

theorem Sums.exact_iff {q : QueueModelWindowedMG1} (h : q.Sums) : q.Exact ↔ InRange q.window := by
  have hlength : q.numArrivals.toNat = q.window.length % 2 ^ 64 := by
    rw [h.numArrivals, UInt64.toNat_ofNat']
  have hsum : q.serviceTimeSum.toNat = (q.window.map ps).sum % 2 ^ 64 := by
    rw [h.serviceTimeSum, toNat_sum, List.map_map]
    rfl
  have hsum2 := toNat_sum_mul q.window
  rw [← h.serviceTimeSum2] at hsum2
  constructor
  · intro he
    exact ⟨mod_eq_self_iff.mp (hlength.symm.trans he.numArrivals),
      mod_eq_self_iff.mp (hsum.symm.trans he.serviceTimeSum),
      mod_eq_self_iff.mp (hsum2.symm.trans he.serviceTimeSum2)⟩
  · intro hr
    exact ⟨hlength.trans (Nat.mod_eq_of_lt hr.length), hsum.trans (Nat.mod_eq_of_lt hr.sum),
      hsum2.trans (Nat.mod_eq_of_lt hr.sum2)⟩

theorem InRange.perm {l l' : List Arrival} (hp : l.Perm l') : InRange l ↔ InRange l' := by
  have hsum := (hp.map ps).sum_eq
  have hsum2 := (hp.map fun a => ps a * ps a).sum_eq
  constructor
  · rintro ⟨h1, h2, h3⟩
    exact ⟨hp.length_eq ▸ h1, hsum ▸ h2, hsum2 ▸ h3⟩
  · rintro ⟨h1, h2, h3⟩
    exact ⟨hp.length_eq ▸ h1, hsum ▸ h2, hsum2 ▸ h3⟩

/-- `max(global_time - window_size, pkt_time - 10*window_size)` over the integers. -/
def bound (q : QueueModelWindowedMG1) (globalTime pktTime : SubsecondTime) : Int :=
  max ((globalTime.toNat : Int) - q.windowSize.toNat)
    ((pktTime.toNat : Int) - 10 * q.windowSize.toNat)

/-- An arrival from the bound on is not before the two times as they come out of 64-bit
arithmetic. -/
def Unwrapped (q : QueueModelWindowedMG1) (globalTime pktTime : SubsecondTime) : Prop :=
  ∀ a ∈ q.window, q.bound globalTime pktTime ≤ a.1.toNat →
    ((globalTime.toNat : Int) - q.windowSize.toNat) % 2 ^ 64 ≤ a.1.toNat ∧
    ((pktTime.toNat : Int) - 10 * q.windowSize.toNat) % 2 ^ 64 ≤ a.1.toNat

/-- Once both clocks are past their windows, nothing wraps. -/
theorem unwrapped_of_le {q : QueueModelWindowedMG1} {globalTime pktTime : SubsecondTime}
    (hg : q.windowSize.toNat ≤ globalTime.toNat) (hp : 10 * q.windowSize.toNat ≤ pktTime.toNat) :
    q.Unwrapped globalTime pktTime := by
  intro a _ ha
  have hglt := globalTime.toNat_lt
  have hplt := pktTime.toNat_lt
  unfold bound at ha
  omega

theorem le_earliestTime_iff (q : QueueModelWindowedMG1) (globalTime pktTime t : SubsecondTime) :
    q.earliestTime globalTime pktTime ≤ t ↔
      ((globalTime.toNat : Int) - q.windowSize.toNat) % 2 ^ 64 ≤ t.toNat ∧
      ((pktTime.toNat : Int) - 10 * q.windowSize.toNat) % 2 ^ 64 ≤ t.toNat := by
  have hg := UInt64.toNat_sub globalTime q.windowSize
  have hp := UInt64.toNat_sub pktTime (10 * q.windowSize)
  have hmul := UInt64.toNat_mul 10 q.windowSize
  have hwlt := q.windowSize.toNat_lt
  have hglt := globalTime.toNat_lt
  have hplt := pktTime.toNat_lt
  have hten : (10 : UInt64).toNat = 10 := rfl
  rw [hten] at hmul
  unfold earliestTime
  split
  case isTrue hlt =>
    rw [UInt64.lt_iff_toNat_lt] at hlt
    rw [UInt64.le_iff_toNat_le]
    omega
  case isFalse hge =>
    rw [UInt64.lt_iff_toNat_lt] at hge
    rw [UInt64.le_iff_toNat_le]
    omega

theorem bound_le_of_earliestTime_le {q : QueueModelWindowedMG1}
    {globalTime pktTime t : SubsecondTime} (h : q.earliestTime globalTime pktTime ≤ t) :
    q.bound globalTime pktTime ≤ t.toNat := by
  rw [le_earliestTime_iff] at h
  have hglt := globalTime.toNat_lt
  have hplt := pktTime.toNat_lt
  unfold bound
  omega

/-- An arrival that the window had, or that has just come, is no longer there. -/
def Dropped (q q' : QueueModelWindowedMG1) (new a : Arrival) : Prop :=
  q'.window.count a < (new :: q.window).count a

/-- What a call is to do: the counts are those of the window, and only arrivals before the bound are
dropped. -/
structure Correct (estimate : UInt64 → UInt64 → UInt64 → SubsecondTime) (q : QueueModelWindowedMG1)
    (globalTime pktTime processingTime : SubsecondTime) : Prop where
  exact : (computeQueueDelay estimate q globalTime pktTime processingTime).2.Exact
  dropped : ∀ a, Dropped q (computeQueueDelay estimate q globalTime pktTime processingTime).2
    (pktTime, processingTime) a → (a.1.toNat : Int) < q.bound globalTime pktTime

/-- The arrivals that a call is to keep. -/
def kept (q : QueueModelWindowedMG1) (globalTime pktTime : SubsecondTime) : List Arrival :=
  q.window.filter fun a => decide (q.bound globalTime pktTime ≤ a.1.toNat)

/-- A call that keeps the arrivals with a property and adds one drops the others. -/
theorem dropped_iff {q q' : QueueModelWindowedMG1} {new : Arrival} {p : Arrival → Bool}
    (h : q'.window.Perm (new :: q.window.filter p)) (a : Arrival) :
    Dropped q q' new a ↔ a ∈ q.window ∧ p a = false := by
  rw [Dropped, h.count_eq, List.count_cons, List.count_cons, Nat.add_lt_add_iff_right]
  by_cases hp : p a = true
  · rw [List.count_filter hp]
    simp [hp]
  · have hnot : a ∉ q.window.filter p := fun hmem => hp (List.mem_filter.mp hmem).2
    rw [List.count_eq_zero_of_not_mem hnot, List.count_pos_iff]
    simpa using fun _ => hp

theorem correct_iff_of_sums (estimate : UInt64 → UInt64 → UInt64 → SubsecondTime)
    {q : QueueModelWindowedMG1} (h : q.Sums) (hs : Sorted q.window)
    (globalTime pktTime processingTime : SubsecondTime) :
    q.Correct estimate globalTime pktTime processingTime ↔ q.Unwrapped globalTime pktTime ∧
      InRange ((pktTime, processingTime) :: q.kept globalTime pktTime) := by
  obtain ⟨hsums, -, -, hwindow⟩ :=
    computeQueueDelay_spec estimate h hs globalTime pktTime processingTime
  generalize hq' : (computeQueueDelay estimate q globalTime pktTime processingTime).2 = q'
    at hsums hwindow
  have hperm := insertArrival_perm
    (q.window.filter fun a => decide (q.earliestTime globalTime pktTime ≤ a.1))
    (pktTime, processingTime)
  rw [← hwindow] at hperm
  have hdropped : (∀ a, Dropped q q' (pktTime, processingTime) a →
      (a.1.toNat : Int) < q.bound globalTime pktTime) ↔ q.Unwrapped globalTime pktTime := by
    simp only [dropped_iff hperm, decide_eq_false_iff_not]
    constructor
    · intro hall a ha hbound
      rw [← le_earliestTime_iff]
      by_contra hnot
      exact absurd (hall a ⟨ha, hnot⟩) (not_lt.mpr hbound)
    · rintro hall a ⟨ha, hnot⟩
      by_contra hge
      exact hnot ((le_earliestTime_iff q globalTime pktTime a.1).mpr (hall a ha (not_lt.mp hge)))
  -- what is kept is what was to be kept, if nothing wraps
  have hkept : q.Unwrapped globalTime pktTime →
      (q.window.filter fun a => decide (q.earliestTime globalTime pktTime ≤ a.1)) =
        q.kept globalTime pktTime := by
    intro hall
    apply List.filter_congr
    intro a ha
    rw [decide_eq_decide]
    exact ⟨bound_le_of_earliestTime_le,
      fun hbound => (le_earliestTime_iff q globalTime pktTime a.1).mpr (hall a ha hbound)⟩
  constructor
  · rintro ⟨hexact, hdrop⟩
    rw [hq'] at hexact hdrop
    have hunwrapped := hdropped.mp hdrop
    rw [hkept hunwrapped] at hperm
    exact ⟨hunwrapped, (InRange.perm hperm).mp (hsums.exact_iff.mp hexact)⟩
  · rintro ⟨hunwrapped, hrange⟩
    rw [hkept hunwrapped] at hperm
    refine ⟨?_, ?_⟩
    · rw [hq']
      exact hsums.exact_iff.mpr ((InRange.perm hperm).mpr hrange)
    · rw [hq']
      exact hdropped.mpr hunwrapped

/-- In every state that calls lead to, the next one leaves the counts of its window and drops only
arrivals before the bound, exactly when neither bound wraps past an arrival that is to be kept and
the counts of what is to be kept fit in 64 bits. -/
theorem correct_iff (estimate : UInt64 → UInt64 → UInt64 → SubsecondTime)
    (windowSize : SubsecondTime) (calls : List (SubsecondTime × SubsecondTime × SubsecondTime))
    (globalTime pktTime processingTime : SubsecondTime) :
    let q := (new windowSize).runAll estimate calls
    q.Correct estimate globalTime pktTime processingTime ↔ q.Unwrapped globalTime pktTime ∧
      InRange ((pktTime, processingTime) :: q.kept globalTime pktTime) := by
  obtain ⟨hsums, hsorted⟩ := runAll_sums estimate (new_sums windowSize) List.Pairwise.nil calls
  exact correct_iff_of_sums estimate hsums hsorted globalTime pktTime processingTime

/-- Early in a run of a model with a window of a nanosecond, the bound wraps: the second packet
drops the first. -/
theorem early_packet_dropped :
    ¬((new 1000000).runAll (fun _ _ _ => 0) [(0, 5000, 1000)]).Correct (fun _ _ _ => 0)
      0 6000 1000 := by
  intro h
  have hbefore := h.dropped (5000, 1000) (by unfold Dropped; decide)
  revert hbefore
  decide

end QueueModelWindowedMG1

end Sniper.Timing
