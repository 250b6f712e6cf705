import Sniper.Lib.Intervals
import Sniper.Lib.Machine
import Sniper.Timing.MovingAverage
set_option autoImplicit false

namespace Sniper.Timing
open Sniper.Lib Sniper.Lib.Intervals

abbrev Interval := SubsecondTime × SubsecondTime

structure QueueModelHistoryList where
  minProcessingTime : SubsecondTime
  maxFreeIntervalListSize : UInt32
  analyticalModelEnabled : Bool
  freeIntervalList : List Interval
  averageDelay : MovingArithmeticMean
  utilizedTime : SubsecondTime
  totalQueueDelay : SubsecondTime
  totalRequests : UInt64
  totalRequestsUsingAnalyticalModel : UInt64
  deriving DecidableEq, Repr

namespace QueueModelHistoryList

/-- The last instant that simulation time is to reach, `SubsecondTime::FS() << 63`. -/
def maxSimulationTime : SubsecondTime := 0x8000000000000000

def new (maxListSize : UInt32) (minProcessingTime : SubsecondTime) (analyticalModelEnabled : Bool) :
    QueueModelHistoryList :=
  { minProcessingTime := minProcessingTime
    maxFreeIntervalListSize := maxListSize
    analyticalModelEnabled := analyticalModelEnabled
    freeIntervalList := [(0, maxSimulationTime)]
    averageDelay := .new maxListSize
    utilizedTime := 0
    totalQueueDelay := 0
    totalRequests := 0
    totalRequestsUsingAnalyticalModel := 0 }

/-- An interval goes back to the list only if it is long enough. -/
def keep (minProcessingTime : SubsecondTime) (length : SubsecondTime) (interval : Interval) :
    List Interval :=
  if minProcessingTime ≤ length then [interval] else []

/-- The loop over the free intervals: the queue delay, and the list with the packet's slot taken out
of it. -/
def takeSlot (minTime pktTime processingTime : SubsecondTime) :
    List Interval → Option (SubsecondTime × List Interval)
  | [] => none
  | interval :: rest =>
    if interval.1 ≤ pktTime ∧ pktTime + processingTime ≤ interval.2 then
      some (0,
        keep minTime (pktTime - interval.1) (interval.1, pktTime) ++
        keep minTime (interval.2 - (pktTime + processingTime))
          (pktTime + processingTime, interval.2) ++ rest)
    else if pktTime < interval.1 then
      some (interval.1 - pktTime,
        keep minTime (interval.2 - (interval.1 + processingTime))
          (interval.1 + processingTime, interval.2) ++ rest)
    else (takeSlot minTime pktTime processingTime rest).map fun (delay, list) =>
      (delay, interval :: list)

def computeUsingHistoryList (q : QueueModelHistoryList) (pktTime processingTime : SubsecondTime) :
    Except Fault (SubsecondTime × QueueModelHistoryList) :=
  if q.maxFreeIntervalListSize.toNat < q.freeIntervalList.length then .error .listTooLong
  else
    let (queueDelay, list) :=
      (takeSlot q.minProcessingTime pktTime processingTime q.freeIntervalList).getD
        (.maxTime, q.freeIntervalList)
    if queueDelay = .maxTime then .error .intervalNotFound
    else
      .ok (queueDelay, { q with freeIntervalList :=
        if q.maxFreeIntervalListSize.toNat < list.length then list.tail else list })

/-- The packet is over before the oldest free interval begins. -/
def usesAnalyticalModel (q : QueueModelHistoryList) (pktTime processingTime : SubsecondTime) : Bool :=
  q.analyticalModelEnabled &&
    q.freeIntervalList.head?.any fun oldest => pktTime + processingTime ≤ oldest.1

def computeUsingAnalyticalModel (q : QueueModelHistoryList) : Except Fault SubsecondTime :=
  q.averageDelay.compute

def updateAverageDelay (q : QueueModelHistoryList) (queueDelay : SubsecondTime) :
    Except Fault QueueModelHistoryList := do
  let averageDelay ← q.averageDelay.update queueDelay
  return { q with averageDelay := averageDelay }

/-- `updateQueueUtilization` and the counters of all requests. -/
def count (q : QueueModelHistoryList) (processingTime queueDelay : SubsecondTime) :
    QueueModelHistoryList :=
  { q with
    utilizedTime := q.utilizedTime + processingTime
    totalRequests := q.totalRequests + 1
    totalQueueDelay := q.totalQueueDelay + queueDelay }

def computeQueueDelay (q : QueueModelHistoryList) (pktTime processingTime : SubsecondTime) :
    Except Fault (SubsecondTime × QueueModelHistoryList) :=
  if q.freeIntervalList = [] then .error .listEmpty
  else if q.usesAnalyticalModel pktTime processingTime then do
    let queueDelay ← q.computeUsingAnalyticalModel
    let q := { q with
      totalRequestsUsingAnalyticalModel := q.totalRequestsUsingAnalyticalModel + 1 }
    return (queueDelay, q.count processingTime queueDelay)
  else do
    let (queueDelay, q) ← q.computeUsingHistoryList pktTime processingTime
    let q ← q.updateAverageDelay queueDelay
    return (queueDelay, q.count processingTime queueDelay)

/-! ### What a call does -/

structure SameParameters (q q' : QueueModelHistoryList) : Prop where
  minProcessingTime : q'.minProcessingTime = q.minProcessingTime
  maxSize : q'.maxFreeIntervalListSize = q.maxFreeIntervalListSize
  enabled : q'.analyticalModelEnabled = q.analyticalModelEnabled

/-- A call that returns answers with the average delay, or takes a slot from the list and counts the
delay into the average. -/
theorem computeQueueDelay_cases {q q' : QueueModelHistoryList}
    {pktTime processingTime delay : SubsecondTime}
    (h : q.computeQueueDelay pktTime processingTime = .ok (delay, q')) :
    q.SameParameters q' ∧
    ((q.usesAnalyticalModel pktTime processingTime = true ∧ q.averageDelay.compute = .ok delay ∧
      q'.freeIntervalList = q.freeIntervalList ∧ q'.averageDelay = q.averageDelay) ∨
    (q.usesAnalyticalModel pktTime processingTime = false ∧ ∃ list,
      takeSlot q.minProcessingTime pktTime processingTime q.freeIntervalList = some (delay, list) ∧
      q'.freeIntervalList =
        (if q.maxFreeIntervalListSize.toNat < list.length then list.tail else list) ∧
      q.averageDelay.update delay = .ok q'.averageDelay)) := by
  unfold computeQueueDelay at h
  split at h
  case isTrue => cases h
  split at h
  case isTrue hused =>
    obtain ⟨queueDelay, hcompute, h⟩ := except_bind_eq_ok.mp h
    cases h
    exact ⟨⟨rfl, rfl, rfl⟩, .inl ⟨hused, hcompute, rfl, rfl⟩⟩
  case isFalse hused =>
    obtain ⟨⟨queueDelay, q1⟩, hlist, h⟩ := except_bind_eq_ok.mp h
    obtain ⟨q2, haverage, h⟩ := except_bind_eq_ok.mp h
    obtain ⟨average, hupdate, haverage⟩ := except_bind_eq_ok.mp haverage
    cases haverage
    cases h
    unfold computeUsingHistoryList at hlist
    split at hlist
    case isTrue => cases hlist
    cases htake : takeSlot q.minProcessingTime pktTime processingTime q.freeIntervalList with
    | none => simp [htake] at hlist
    | some taken =>
      obtain ⟨d, list⟩ := taken
      simp only [htake, Option.getD_some] at hlist
      split at hlist
      case isTrue => cases hlist
      cases hlist
      exact ⟨⟨rfl, rfl, rfl⟩, .inr ⟨by simpa using hused, list, rfl, rfl, hupdate⟩⟩

/-- Calls that all return and that meet a condition: the packets, the last one first, the state they
lead to, and the slots taken from the list. -/
inductive Run (Meets : QueueModelHistoryList → SubsecondTime → SubsecondTime → Prop)
    (q₀ : QueueModelHistoryList) :
    List (SubsecondTime × SubsecondTime) → QueueModelHistoryList → List (Nat × Nat) → Prop where
  | init : Run Meets q₀ [] q₀ []
  | call {calls : List (SubsecondTime × SubsecondTime)} {q q' : QueueModelHistoryList}
      {slots : List (Nat × Nat)} {pktTime processingTime delay : SubsecondTime}
      (h : Run Meets q₀ calls q slots) (hmeets : Meets q pktTime processingTime)
      (hcall : q.computeQueueDelay pktTime processingTime = .ok (delay, q')) :
      Run Meets q₀ ((pktTime, processingTime) :: calls) q'
        (if q.usesAnalyticalModel pktTime processingTime then slots
          else ((pktTime + delay).toNat, (pktTime + delay).toNat + processingTime.toNat) :: slots)

/-! ### The average -/

/-- The average has been updated. -/
def Sampled (q : QueueModelHistoryList) : Prop :=
  0 < q.averageDelay.maxWindowSize.toNat ∧ ∃ window ≠ [], q.averageDelay.Holds window

theorem Sampled.call {q q' : QueueModelHistoryList} {pktTime processingTime delay : SubsecondTime}
    (h : q.Sampled) (hcall : q.computeQueueDelay pktTime processingTime = .ok (delay, q')) :
    q'.Sampled := by
  obtain ⟨-, ⟨-, -, -, haverage⟩ | ⟨-, list, -, -, hupdate⟩⟩ := computeQueueDelay_cases hcall
  · unfold Sampled
    rwa [haverage]
  · obtain ⟨hpos, window, -, hholds⟩ := h
    obtain ⟨a', ha', hsize, hholds'⟩ := hholds.update hpos delay
    rw [ha'] at hupdate
    cases hupdate
    exact ⟨by rwa [hsize], _, by simp, hholds'⟩

/-- A ring whose size wraps to zero takes no number. -/
theorem update_wrapped {maxListSize : UInt32} (h : ¬maxListSize.toNat + 1 < 2 ^ 32)
    (nextNum : SubsecondTime) :
    (MovingArithmeticMean.new maxListSize).update nextNum = .error .moduloByZero := by
  have hzero : (maxListSize + 1).toNat = 0 := by
    have hlt := maxListSize.toNat_lt
    rw [UInt32.toNat_add]
    simp only [UInt32.reduceToNat]
    omega
  simp [MovingArithmeticMean.update, MovingArithmeticMean.addToWindow, MovingArithmeticMean.new,
    ModuloNum.add, hzero, bind, Except.bind]

theorem new_usesAnalyticalModel (maxListSize : UInt32) (minTime : SubsecondTime) (enabled : Bool)
    (pktTime processingTime : SubsecondTime) :
    (new maxListSize minTime enabled).usesAnalyticalModel pktTime processingTime = true ↔
      enabled = true ∧ pktTime + processingTime = 0 := by
  simp [usesAnalyticalModel, new]

theorem new_call_sampled {maxListSize : UInt32} (hpos : 0 < maxListSize) {minTime : SubsecondTime}
    {enabled : Bool} {q' : QueueModelHistoryList} {pktTime processingTime delay : SubsecondTime}
    (hcall : (new maxListSize minTime enabled).computeQueueDelay pktTime processingTime =
      .ok (delay, q')) : q'.Sampled := by
  obtain ⟨-, ⟨-, hcompute, -, -⟩ | ⟨-, list, -, -, hupdate⟩⟩ := computeQueueDelay_cases hcall
  · simp [new, MovingArithmeticMean.compute, MovingArithmeticMean.new,
      MovingArithmeticMean.currWindowSize, ModuloNum.sub] at hcompute
  · by_cases hsize : maxListSize.toNat + 1 < 2 ^ 32
    · obtain ⟨a', ha', hmax, hholds⟩ :=
        (MovingArithmeticMean.new_holds hsize).update (UInt32.lt_iff_toNat_lt.mp hpos) delay
      rw [show (new maxListSize minTime enabled).averageDelay = .new maxListSize from rfl, ha']
        at hupdate
      cases hupdate
      exact ⟨by rw [hmax]; exact UInt32.lt_iff_toNat_lt.mp hpos, _, by simp, hholds⟩
    · rw [show (new maxListSize minTime enabled).averageDelay = .new maxListSize from rfl,
        update_wrapped hsize] at hupdate
      cases hupdate

theorem Run.sampled {maxListSize : UInt32} (hpos : 0 < maxListSize) {minTime : SubsecondTime}
    {enabled : Bool} {Meets : QueueModelHistoryList → SubsecondTime → SubsecondTime → Prop}
    {calls : List (SubsecondTime × SubsecondTime)} {q : QueueModelHistoryList}
    {slots : List (Nat × Nat)} (h : Run Meets (new maxListSize minTime enabled) calls q slots)
    (hcalls : calls ≠ []) : q.Sampled := by
  induction h with
  | init => exact absurd rfl hcalls
  | @call calls q q' slots pktTime processingTime delay h _ hcall ih =>
    cases h with
    | init => exact new_call_sampled hpos hcall
    | call => exact (ih (List.cons_ne_nil _ _)).call hcall

/-- Whenever the analytical model is asked, there is an average to return, unless the first packet of
all ends at time zero. -/
theorem average_sampled_iff {maxListSize : UInt32} (hpos : 0 < maxListSize)
    (minTime : SubsecondTime) {calls : List (SubsecondTime × SubsecondTime)}
    {q : QueueModelHistoryList} {slots : List (Nat × Nat)}
    (h : Run (fun _ _ _ => True) (new maxListSize minTime true) calls q slots)
    (pktTime processingTime : SubsecondTime) :
    (q.usesAnalyticalModel pktTime processingTime = true →
      q.averageDelay.currWindowSize ≠ 0 ∧ ∃ delay, q.computeUsingAnalyticalModel = .ok delay) ↔
    ¬(calls = [] ∧ pktTime + processingTime = 0) := by
  by_cases hcalls : calls = []
  · subst hcalls
    cases h
    rw [new_usesAnalyticalModel]
    simp only [true_and]
    constructor
    · intro hsampled hzero
      exact (hsampled hzero).1 (by simp [new, MovingArithmeticMean.new,
        MovingArithmeticMean.currWindowSize, ModuloNum.sub])
    · exact fun hne hzero => absurd hzero hne
  · obtain ⟨-, window, hwindow, hholds⟩ := h.sampled hpos hcalls
    simp only [hcalls, false_and, not_false_eq_true, iff_true]
    intro _
    refine ⟨?_, _, hholds.compute hwindow⟩
    rw [hholds.currWindowSize]
    exact (List.length_pos_iff.mpr hwindow).ne'

theorem average_sampled_second :
    ∃ q slots, Run (fun _ _ _ => True) (new 8 1 true) [(0, 5)] q slots ∧
      q.usesAnalyticalModel 0 5 = true ∧ q.averageDelay.currWindowSize ≠ 0 := by
  obtain ⟨delay, q, hcall, hused⟩ : ∃ delay q,
      (new 8 1 true).computeQueueDelay 0 5 = .ok (delay, q) ∧ q.usesAnalyticalModel 0 5 = true :=
    ⟨_, _, rfl, by rfl⟩
  have hsampled := average_sampled_iff (show (0 : UInt32) < 8 by decide) 1
    (.call .init trivial hcall) 0 5
  exact ⟨q, _, .call .init trivial hcall, hused, (hsampled.mpr (by simp) hused).1⟩

/-- The first packet is at time zero and takes no time. -/
theorem first_packet_divides_by_zero :
    (new 8 0 true).usesAnalyticalModel 0 0 = true ∧
      (new 8 0 true).averageDelay.currWindowSize = 0 ∧
      (new 8 0 true).computeQueueDelay 0 0 = .error .divisionByZero := by
  decide

/-! ### The free intervals -/

/-- The interval of the list that a packet goes to. -/
def wanted (pktTime processingTime : SubsecondTime) (interval : Interval) : Bool :=
  decide (pktTime < interval.1) || decide (pktTime + processingTime ≤ interval.2)

/-- When a packet that goes to an interval begins. -/
def begins (pktTime : SubsecondTime) (interval : Interval) : SubsecondTime :=
  if pktTime < interval.1 then interval.1 else pktTime

/-- What is left of an interval. -/
def pieces (minTime pktTime processingTime : SubsecondTime) (interval : Interval) :
    List Interval :=
  (if pktTime < interval.1 then [] else
    keep minTime (pktTime - interval.1) (interval.1, pktTime)) ++
  keep minTime (interval.2 - (begins pktTime interval + processingTime))
    (begins pktTime interval + processingTime, interval.2)

/-- The packet goes to the first interval it is wanted for. -/
theorem takeSlot_eq (minTime : SubsecondTime) {pktTime processingTime : SubsecondTime} {list : List Interval}
    {interval : Interval} (h : list.find? (wanted pktTime processingTime) = some interval) :
    ∃ front back, list = front ++ interval :: back ∧
      takeSlot minTime pktTime processingTime list =
        some (begins pktTime interval - pktTime,
          front ++ pieces minTime pktTime processingTime interval ++ back) := by
  induction list with
  | nil => cases h
  | cons i rest ih =>
    rw [List.find?_cons] at h
    split at h
    case h_1 hwanted =>
      cases h
      refine ⟨[], rest, rfl, ?_⟩
      unfold takeSlot pieces begins
      by_cases hbefore : pktTime < interval.1
      · rw [if_neg (fun hc => UInt64.not_lt.mpr hc.1 hbefore), if_pos hbefore, if_pos hbefore,
          if_pos hbefore]
        rfl
      · have hends : pktTime + processingTime ≤ interval.2 := by
          simpa [wanted, hbefore] using hwanted
        rw [if_pos ⟨UInt64.not_lt.mp hbefore, hends⟩, if_neg hbefore, if_neg hbefore,
          UInt64.sub_self]
        rfl
    case h_2 hwanted =>
      obtain ⟨front, back, rfl, htake⟩ := ih h
      refine ⟨i :: front, back, rfl, ?_⟩
      simp only [wanted, Bool.or_eq_false_iff, decide_eq_false_iff_not] at hwanted
      rw [takeSlot, if_neg (fun hc => hwanted.2 hc.2), if_neg hwanted.1, htake]
      rfl

/-- An interval over the integers. -/
def span (interval : Interval) : Nat × Nat := (interval.1.toNat, interval.2.toNat)

/-- The slot a packet gets in an interval. -/
def slot (pktTime processingTime : SubsecondTime) (interval : Interval) : Nat × Nat :=
  ((begins pktTime interval).toNat, (begins pktTime interval).toNat + processingTime.toNat)

theorem begins_ge (pktTime : SubsecondTime) (interval : Interval) :
    interval.1 ≤ begins pktTime interval ∧ pktTime ≤ begins pktTime interval := by
  unfold begins
  split
  case isTrue h => exact ⟨UInt64.le_refl _, UInt64.le_of_lt h⟩
  case isFalse h => exact ⟨UInt64.not_lt.mp h, UInt64.le_refl _⟩

theorem mem_keep {minTime length : SubsecondTime} {interval i : Interval}
    (h : i ∈ keep minTime length interval) : i = interval := by
  unfold keep at h
  split at h
  · exact List.mem_singleton.mp h
  · cases h

theorem keep_ordered {minTime length : SubsecondTime} {interval : Interval}
    (h : interval.1 ≤ interval.2) : Ordered ((keep minTime length interval).map span) := by
  unfold keep
  split
  · exact Ordered.singleton h
  · exact Ordered.nil

/-- The pieces of an interval around a slot that fits in it. -/
theorem pieces_spec (minTime : SubsecondTime) {pktTime processingTime : SubsecondTime} {interval : Interval}
    (hfits : (slot pktTime processingTime interval).2 ≤ interval.2.toNat) :
    Ordered ((pieces minTime pktTime processingTime interval).map span) ∧
    ∀ p ∈ (pieces minTime pktTime processingTime interval).map span, Inside p (span interval) ∧
      Apart (slot pktTime processingTime interval) p := by
  obtain ⟨hbegins, hpkt⟩ := begins_ge pktTime interval
  rw [UInt64.le_iff_toNat_le] at hbegins hpkt
  have hend : (begins pktTime interval + processingTime).toNat =
      (slot pktTime processingTime interval).2 :=
    toNat_add_of_lt (Nat.lt_of_le_of_lt hfits interval.2.toNat_lt)
  have hle : (begins pktTime interval).toNat ≤ (slot pktTime processingTime interval).2 :=
    Nat.le_add_right _ _
  unfold pieces
  generalize hleft : (if pktTime < interval.1 then [] else
    keep minTime (pktTime - interval.1) (interval.1, pktTime)) = left
  have hleftMem : ∀ p ∈ left, p = (interval.1, pktTime) ∧ begins pktTime interval = pktTime := by
    intro p hp
    rw [← hleft] at hp
    split at hp
    case isTrue => cases hp
    case isFalse hnot => exact ⟨mem_keep hp, if_neg hnot⟩
  have hleftOrdered : Ordered (left.map span) := by
    rw [← hleft]
    split
    case isTrue => exact Ordered.nil
    case isFalse hnot => exact keep_ordered (UInt64.not_lt.mp hnot)
  have hright : (begins pktTime interval + processingTime) ≤ interval.2 := by
    rw [UInt64.le_iff_toNat_le, hend]
    exact hfits
  rw [List.map_append]
  constructor
  · refine hleftOrdered.append (keep_ordered hright) ?_
    intro i hi j hj
    obtain ⟨x, hx, rfl⟩ := List.mem_map.mp hi
    obtain ⟨y, hy, rfl⟩ := List.mem_map.mp hj
    rw [(hleftMem x hx).1, mem_keep hy]
    exact hpkt.trans (hle.trans_eq hend.symm)
  · intro p hp
    rcases List.mem_append.mp hp with hp | hp
    · obtain ⟨x, hx, rfl⟩ := List.mem_map.mp hp
      obtain ⟨rfl, hat⟩ := hleftMem x hx
      exact ⟨⟨Nat.le_refl _, hpkt.trans (hle.trans hfits)⟩, .inr (hat ▸ hpkt)⟩
    · obtain ⟨x, hx, rfl⟩ := List.mem_map.mp hp
      rw [mem_keep hx]
      exact ⟨⟨hbegins.trans (hle.trans_eq hend.symm), Nat.le_refl _⟩, .inl hend.symm.le⟩

/-- The packet's slot fits in its interval, and leaves a piece of the last one. -/
def Fits (q : QueueModelHistoryList) (pktTime processingTime : SubsecondTime) : Prop :=
  q.usesAnalyticalModel pktTime processingTime = false → ∀ interval,
    q.freeIntervalList.find? (wanted pktTime processingTime) = some interval →
      (slot pktTime processingTime interval).2 ≤ interval.2.toNat ∧
      (interval.2 = maxSimulationTime →
        (slot pktTime processingTime interval).2 + q.minProcessingTime.toNat ≤ 2 ^ 63)

/-- The free intervals with the slots taken so far: at least one and no more than allowed, in order,
apart from each other and from the slots, which are apart from each other. -/
structure WellFormed (q : QueueModelHistoryList) (slots : List (Nat × Nat)) : Prop where
  nonempty : q.freeIntervalList ≠ []
  size : q.freeIntervalList.length ≤ q.maxFreeIntervalListSize.toNat
  allocated : Allocated (q.freeIntervalList.map span) slots

/-- The last interval reaches to the end of time. -/
def ReachesEnd (q : QueueModelHistoryList) : Prop :=
  ∃ front first, q.freeIntervalList = front ++ [(first, maxSimulationTime)]

theorem new_wellFormed {maxListSize : UInt32} (hpos : 0 < maxListSize) (minTime : SubsecondTime)
    (enabled : Bool) :
    (new maxListSize minTime enabled).WellFormed [] ∧
      (new maxListSize minTime enabled).ReachesEnd := by
  refine ⟨⟨List.cons_ne_nil _ _, UInt32.lt_iff_toNat_lt.mp hpos, ?_⟩, [], 0, rfl⟩
  exact ⟨Ordered.singleton (by decide), .nil, fun _ h => absurd h List.not_mem_nil⟩

/-- A list that reaches to the end has an interval for every packet before it. -/
theorem ReachesEnd.wanted {q : QueueModelHistoryList} (h : q.ReachesEnd)
    {pktTime processingTime : SubsecondTime}
    (hlt : pktTime.toNat + processingTime.toNat < 2 ^ 63) :
    ∃ interval, q.freeIntervalList.find? (wanted pktTime processingTime) = some interval := by
  obtain ⟨front, first, heq⟩ := h
  apply Option.isSome_iff_exists.mp
  rw [List.find?_isSome]
  refine ⟨(first, maxSimulationTime), by rw [heq]; simp, ?_⟩
  have hadd : (pktTime + processingTime).toNat = pktTime.toNat + processingTime.toNat :=
    toNat_add_of_lt (by omega)
  have hle : pktTime + processingTime ≤ maxSimulationTime := by
    rw [UInt64.le_iff_toNat_le, hadd]
    exact hlt.le
  simp [QueueModelHistoryList.wanted, hle]

/-- The list after a slot has been taken still reaches to the end. -/
theorem ReachesEnd.take {front back : List Interval} {interval : Interval}
    {minTime pktTime processingTime : SubsecondTime}
    (h : ∃ f first, front ++ interval :: back = f ++ [(first, maxSimulationTime)])
    (hfits : (slot pktTime processingTime interval).2 ≤ interval.2.toNat)
    (hlast : interval.2 = maxSimulationTime →
      (slot pktTime processingTime interval).2 + minTime.toNat ≤ 2 ^ 63) :
    ∃ f first, front ++ pieces minTime pktTime processingTime interval ++ back =
      f ++ [(first, maxSimulationTime)] := by
  obtain ⟨f, first, heq⟩ := h
  rcases List.eq_nil_or_concat' back with rfl | ⟨back, last, rfl⟩
  · -- the interval is the last one
    obtain ⟨-, hinterval⟩ := List.append_inj' heq rfl
    have hmax : interval.2 = maxSimulationTime := by rw [List.singleton_inj.mp hinterval]
    have hend : (begins pktTime interval + processingTime).toNat =
        (slot pktTime processingTime interval).2 :=
      toNat_add_of_lt (Nat.lt_of_le_of_lt hfits interval.2.toNat_lt)
    have hkeep : minTime ≤ interval.2 - (begins pktTime interval + processingTime) := by
      have hle : begins pktTime interval + processingTime ≤ interval.2 := by
        rw [UInt64.le_iff_toNat_le, hend]
        exact hfits
      have htoNat : interval.2.toNat = 2 ^ 63 := by rw [hmax]; rfl
      have hroom := hlast hmax
      rw [UInt64.le_iff_toNat_le, UInt64.toNat_sub_of_le _ _ hle, hend]
      omega
    refine ⟨front ++ (if pktTime < interval.1 then [] else
      keep minTime (pktTime - interval.1) (interval.1, pktTime)),
      begins pktTime interval + processingTime, ?_⟩
    rw [pieces, List.append_nil, List.append_assoc]
    congr 2
    rw [keep, if_pos hkeep, hmax]
  · refine ⟨front ++ pieces minTime pktTime processingTime interval ++ back, first, ?_⟩
    have hconcat : (front ++ interval :: back) ++ [last] = f ++ [(first, maxSimulationTime)] := by
      rw [← heq]
      simp
    obtain ⟨-, hlast⟩ := List.append_inj' hconcat rfl
    rw [List.singleton_inj.mp hlast]
    simp

theorem reachesEnd_tail {list : List Interval}
    (h : ∃ f first, list = f ++ [(first, maxSimulationTime)]) (hlen : 1 < list.length) :
    ∃ f first, list.tail = f ++ [(first, maxSimulationTime)] := by
  obtain ⟨f, first, rfl⟩ := h
  cases f with
  | nil => simp at hlen
  | cons i f => exact ⟨f, first, rfl⟩

theorem length_pieces_le (minTime pktTime processingTime : SubsecondTime) (interval : Interval) :
    (pieces minTime pktTime processingTime interval).length ≤ 2 := by
  have hkeep : ∀ length i, (keep minTime length i).length ≤ 1 := by
    intro length i
    unfold keep
    split <;> simp
  rw [pieces, List.length_append]
  have hright := hkeep (interval.2 - (begins pktTime interval + processingTime))
    (begins pktTime interval + processingTime, interval.2)
  have hleft := hkeep (pktTime - interval.1) (interval.1, pktTime)
  split
  · simp only [List.length_nil]
    omega
  · omega

/-- A packet before the end of time whose slot fits keeps the list well formed. -/
theorem WellFormed.call {q q' : QueueModelHistoryList} {slots : List (Nat × Nat)}
    {pktTime processingTime delay : SubsecondTime} (h : q.WellFormed slots) (hreach : q.ReachesEnd)
    (hlt : pktTime.toNat + processingTime.toNat < 2 ^ 63) (hfits : q.Fits pktTime processingTime)
    (hcall : q.computeQueueDelay pktTime processingTime = .ok (delay, q')) :
    q'.WellFormed (if q.usesAnalyticalModel pktTime processingTime then slots
      else ((pktTime + delay).toNat, (pktTime + delay).toNat + processingTime.toNat) :: slots) ∧
    q'.ReachesEnd := by
  obtain ⟨hsame, ⟨hused, -, hlist, -⟩ | ⟨hused, list, htake, hlist, -⟩⟩ :=
    computeQueueDelay_cases hcall
  · rw [if_pos hused]
    unfold ReachesEnd
    rw [hlist]
    exact ⟨⟨hlist ▸ h.nonempty, by rw [hlist, hsame.maxSize]; exact h.size,
      hlist ▸ h.allocated⟩, hreach⟩
  · simp only [hused, Bool.false_eq_true, if_false]
    obtain ⟨interval, hwanted⟩ := hreach.wanted hlt
    obtain ⟨hfit, hlast⟩ := hfits hused interval hwanted
    obtain ⟨front, back, hsplit, htaken⟩ := takeSlot_eq q.minProcessingTime hwanted
    rw [htake] at htaken
    cases htaken
    obtain ⟨hpieces, hin⟩ := pieces_spec q.minProcessingTime hfit
    have hslot : ((pktTime + (begins pktTime interval - pktTime)).toNat,
        (pktTime + (begins pktTime interval - pktTime)).toNat + processingTime.toNat) =
        slot pktTime processingTime interval := by
      rw [UInt64.add_comm, UInt64.sub_add_cancel]
      rfl
    -- before the list is cut to its size
    have hallocated : Allocated ((front ++ pieces q.minProcessingTime pktTime processingTime interval
        ++ back).map span) (slot pktTime processingTime interval :: slots) := by
      have hold := h.allocated
      rw [hsplit, List.map_append, List.map_cons] at hold
      rw [List.map_append, List.map_append]
      refine hold.take ⟨?_, hfit⟩ hpieces (fun p hp => (hin p hp).1) fun p hp => (hin p hp).2
      exact UInt64.le_iff_toNat_le.mp (begins_ge pktTime interval).1
    have hends := ReachesEnd.take (by rw [← hsplit]; exact hreach) hfit hlast
    have hsize := h.size
    rw [hsplit, List.length_append, List.length_cons] at hsize
    have hcount := length_pieces_le q.minProcessingTime pktTime processingTime interval
    generalize hnew : front ++ pieces q.minProcessingTime pktTime processingTime interval ++ back =
      list at hlist hallocated hends
    have hlength : list.length ≤ q.maxFreeIntervalListSize.toNat + 1 := by
      rw [← hnew, List.length_append, List.length_append]
      omega
    rw [hslot]
    have hreach' : q'.ReachesEnd := by
      unfold ReachesEnd
      rw [hlist]
      split
      · exact reachesEnd_tail hends (by omega)
      · exact hends
    refine ⟨⟨?_, ?_, ?_⟩, hreach'⟩
    · obtain ⟨f, first, heq⟩ := hreach'
      rw [heq]
      simp
    · rw [hlist, hsame.maxSize]
      split
      · rw [List.length_tail]
        omega
      · omega
    · rw [hlist]
      split
      · exact hallocated.sublist ((List.tail_sublist list).map span)
      · exact hallocated

/-- A packet before the end of time: the list of free intervals stays within what the model takes for
granted. -/
def MeetsFits (q : QueueModelHistoryList) (pktTime processingTime : SubsecondTime) : Prop :=
  pktTime.toNat + processingTime.toNat < 2 ^ 63 ∧ q.Fits pktTime processingTime

theorem Run.wellFormed {maxListSize : UInt32} (hpos : 0 < maxListSize) {minTime : SubsecondTime}
    {enabled : Bool} {calls : List (SubsecondTime × SubsecondTime)} {q : QueueModelHistoryList}
    {slots : List (Nat × Nat)} (h : Run MeetsFits (new maxListSize minTime enabled) calls q slots) :
    q.WellFormed slots ∧ q.ReachesEnd := by
  induction h with
  | init => exact new_wellFormed hpos minTime enabled
  | call _ hmeets hcall ih => exact ih.1.call ih.2 hmeets.1 hmeets.2 hcall

theorem WellFormed.le_max {q : QueueModelHistoryList} {slots : List (Nat × Nat)}
    (h : q.WellFormed slots) (hreach : q.ReachesEnd) {interval : Interval}
    (hmem : interval ∈ q.freeIntervalList) : interval.1.toNat ≤ 2 ^ 63 := by
  obtain ⟨front, first, heq⟩ := hreach
  have hordered := h.allocated.ordered
  have hvalid := hordered.valid (span interval) (List.mem_map_of_mem hmem)
  have hlast := hordered.valid (span (first, maxSimulationTime)) (by rw [heq]; simp)
  have hsorted := hordered.sorted
  rw [heq, List.map_append] at hsorted
  rw [heq, List.mem_append, List.mem_singleton] at hmem
  rcases hmem with hmem | rfl
  · have hbefore := (List.pairwise_append.mp hsorted).2.2 (span interval) (List.mem_map_of_mem hmem)
      (span (first, maxSimulationTime)) (by simp)
    exact (hvalid.trans hbefore).trans hlast
  · exact hlast

/-- In a state with a well-formed list no assertion about the list fails. -/
theorem WellFormed.not_asserts {q : QueueModelHistoryList} {slots : List (Nat × Nat)}
    (h : q.WellFormed slots) (hreach : q.ReachesEnd) {pktTime processingTime : SubsecondTime}
    (hlt : pktTime.toNat + processingTime.toNat < 2 ^ 63) {fault : Fault}
    (hfault : q.computeQueueDelay pktTime processingTime = .error fault) :
    fault = .divisionByZero ∨ fault = .moduloByZero := by
  unfold computeQueueDelay at hfault
  rw [if_neg h.nonempty] at hfault
  split at hfault
  case isTrue =>
    rcases except_bind_eq_error.mp hfault with hcompute | ⟨_, -, hfault⟩
    · exact .inl (MovingArithmeticMean.compute_error hcompute)
    · cases hfault
  case isFalse =>
    rcases except_bind_eq_error.mp hfault with hlist | ⟨⟨delay, q1⟩, -, hfault⟩
    · exfalso
      obtain ⟨interval, hwanted⟩ := hreach.wanted hlt
      obtain ⟨front, back, hsplit, htaken⟩ := takeSlot_eq q.minProcessingTime hwanted
      rw [computeUsingHistoryList, if_neg (Nat.not_lt.mpr h.size), htaken] at hlist
      have hmax : begins pktTime interval - pktTime ≠ .maxTime := by
        have hbound := h.le_max hreach (List.mem_of_find?_eq_some hwanted)
        have hle := (begins_ge pktTime interval).2
        intro heq
        have htoNat := congrArg UInt64.toNat heq
        rw [UInt64.toNat_sub_of_le _ _ hle] at htoNat
        have hbegins : (begins pktTime interval).toNat ≤ 2 ^ 63 := by
          unfold begins
          split <;> omega
        simp [SubsecondTime.maxTime] at htoNat
        omega
      simp [hmax] at hlist
    · rcases except_bind_eq_error.mp hfault with hupdate | ⟨_, -, hfault⟩
      · rcases except_bind_eq_error.mp hupdate with hupdate | ⟨_, -, hupdate⟩
        · exact .inr (MovingArithmeticMean.update_error hupdate)
        · cases hupdate
      · cases hfault

/-- In a run in which every packet's slot fits in the free interval it is taken from, and leaves a
piece of the last one, the free intervals are well formed after every call, and no assertion about
them can fail. -/
theorem freeIntervals_wellFormed {maxListSize : UInt32} (hpos : 0 < maxListSize)
    {minTime : SubsecondTime} {enabled : Bool} {calls : List (SubsecondTime × SubsecondTime)}
    {q : QueueModelHistoryList} {slots : List (Nat × Nat)}
    (h : Run MeetsFits (new maxListSize minTime enabled) calls q slots) :
    q.WellFormed slots ∧ ∀ pktTime processingTime : SubsecondTime,
      pktTime.toNat + processingTime.toNat < 2 ^ 63 → ∀ fault,
        q.computeQueueDelay pktTime processingTime = .error fault →
          fault = .divisionByZero ∨ fault = .moduloByZero := by
  obtain ⟨hwf, hreach⟩ := h.wellFormed hpos
  exact ⟨hwf, fun pktTime processingTime hlt fault hfault => hwf.not_asserts hreach hlt hfault⟩

/-- A packet whose slot does not fit leaves an interval that ends before it begins. -/
theorem WellFormed.not_fits {q q' : QueueModelHistoryList} {slots : List (Nat × Nat)}
    (h : q.WellFormed slots) (hmin : q.minProcessingTime.toNat ≤ 2 ^ 63)
    {pktTime processingTime delay : SubsecondTime} {interval : Interval}
    (hused : q.usesAnalyticalModel pktTime processingTime = false)
    (hwanted : q.freeIntervalList.find? (wanted pktTime processingTime) = some interval)
    (hslot : (slot pktTime processingTime interval).2 < 2 ^ 63)
    (hover : interval.2.toNat < (slot pktTime processingTime interval).2)
    (hcall : q.computeQueueDelay pktTime processingTime = .ok (delay, q'))
    (slots' : List (Nat × Nat)) : ¬q'.WellFormed slots' := by
  obtain ⟨-, ⟨hused', -⟩ | ⟨-, list, htake, hlist, -⟩⟩ := computeQueueDelay_cases hcall
  · rw [hused] at hused'
    cases hused'
  obtain ⟨front, back, hsplit, htaken⟩ := takeSlot_eq q.minProcessingTime hwanted
  rw [htake] at htaken
  cases htaken
  have hend : (begins pktTime interval + processingTime).toNat =
      (slot pktTime processingTime interval).2 := toNat_add_of_lt (hslot.trans (by decide))
  -- only a packet that waits for the interval can outgrow it
  have hbefore : pktTime < interval.1 := by
    by_contra hnot
    have hfits : pktTime + processingTime ≤ interval.2 := by
      simpa [wanted, hnot] using List.find?_some hwanted
    rw [begins, if_neg hnot] at hend
    rw [UInt64.le_iff_toNat_le, hend] at hfits
    omega
  have hkeep : q.minProcessingTime ≤ interval.2 - (begins pktTime interval + processingTime) := by
    rw [UInt64.le_iff_toNat_le, UInt64.toNat_sub, hend]
    omega
  rw [pieces, if_pos hbefore, keep, if_pos hkeep, List.nil_append] at hlist
  have hsize : ¬q.maxFreeIntervalListSize.toNat < (front ++
      [(begins pktTime interval + processingTime, interval.2)] ++ back).length := by
    have hold := h.size
    rw [hsplit] at hold
    simp only [List.length_append, List.length_cons, List.length_nil] at hold ⊢
    omega
  rw [if_neg hsize] at hlist
  intro hwf
  have hvalid := hwf.allocated.ordered.valid
    (span (begins pktTime interval + processingTime, interval.2))
    (List.mem_map_of_mem (by rw [hlist]; simp))
  have hle : (begins pktTime interval + processingTime).toNat ≤ interval.2.toNat := hvalid
  omega

theorem freeIntervals_wellFormed_onePacket :
    ∃ q, Run MeetsFits (new 8 4 false) [(20, 5)] q [(20, 25)] ∧
      q.freeIntervalList = [(0, 20), (25, maxSimulationTime)] ∧ q.WellFormed [(20, 25)] := by
  obtain ⟨q, hcall, hlist⟩ : ∃ q, (new 8 4 false).computeQueueDelay 20 5 = .ok (0, q) ∧
      q.freeIntervalList = [(0, 20), (25, maxSimulationTime)] := ⟨_, rfl, by rfl⟩
  have hmeets : MeetsFits (new 8 4 false) 20 5 := by
    refine ⟨by decide, fun _ interval hfind => ?_⟩
    have hinterval : interval = (0, maxSimulationTime) := by
      have hfound : (new 8 4 false).freeIntervalList.find? (wanted 20 5) =
        some (0, maxSimulationTime) := by rfl
      exact (Option.some.inj (hfound.symm.trans hfind)).symm
    subst hinterval
    decide
  have hrun : Run MeetsFits (new 8 4 false) [(20, 5)] q [(20, 25)] := .call .init hmeets hcall
  exact ⟨q, hrun, hlist, (freeIntervals_wellFormed (by decide) hrun).1⟩

/-- The third packet is put in front of the second one, in a gap of five for a time of eight: the
interval that is left ends before it begins. -/
theorem gap_too_short :
    ∃ q slots, Run (fun _ pktTime processingTime => pktTime.toNat + processingTime.toNat < 2 ^ 63)
        (new 8 4 false) [(19, 8), (30, 5), (20, 5)] q slots ∧
      (33, 30) ∈ q.freeIntervalList ∧ ¬q.WellFormed slots := by
  obtain ⟨q1, q2, q3, h1, h2, h3, hmem⟩ : ∃ q1 q2 q3,
      (new 8 4 false).computeQueueDelay 20 5 = .ok (0, q1) ∧
      q1.computeQueueDelay 30 5 = .ok (0, q2) ∧ q2.computeQueueDelay 19 8 = .ok (6, q3) ∧
      (33, 30) ∈ q3.freeIntervalList :=
    ⟨_, _, _, rfl, rfl, rfl, by decide⟩
  refine ⟨q3, _, .call (.call (.call .init (by decide) h1) (by decide) h2) (by decide) h3, hmem, ?_⟩
  intro hwf
  have hvalid := hwf.allocated.ordered.valid (span (33, 30)) (List.mem_map_of_mem hmem)
  revert hvalid
  decide

end QueueModelHistoryList

end Sniper.Timing
