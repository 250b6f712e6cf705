import Sniper.Lib.Servers
import Sniper.Timing.SubsecondTime
import Mathlib.Algebra.Group.Nat.Defs
import Mathlib.Data.List.FinRange
import Mathlib.Data.List.Sort
set_option autoImplicit false

namespace Sniper.Timing
open Sniper.Lib.Servers

/-- `n` units, each with the time at which it becomes free and the tag of its last request. -/
structure ContentionModel (n : Nat) where
  time : Fin n → SubsecondTime × UInt64
  tLast : SubsecondTime
  nRequests : UInt64
  nBarriers : UInt64
  nOutoforder : UInt64
  nSimultaneous : UInt64
  totalDelay : SubsecondTime
  totalBarrierDelay : SubsecondTime

namespace ContentionModel

variable {n : Nat}

def new (n : Nat) : ContentionModel n := ⟨fun _ => (0, 0), 0, 0, 0, 0, 0, 0, 0⟩

/-- The search for the first free unit, over the units from some index on; `unit` is the first of
the others to become free. -/
def findUnit (m : ContentionModel n) (tStart : SubsecondTime) : List (Fin n) → Fin n → Fin n
  | [], unit => unit
  | i :: rest, unit =>
    if (m.time i).1 ≤ tStart then i
    else if (m.time i).1 < (m.time unit).1 then m.findUnit tStart rest i
    else m.findUnit tStart rest unit

/-- A request is put on a unit. -/
def reserve (m : ContentionModel n) (tStart tDelay : SubsecondTime) (tag : UInt64) (unit : Fin n) :
    SubsecondTime × ContentionModel n :=
  let tBegin := if tStart < (m.time unit).1 then (m.time unit).1 else tStart
  let tEnd := tBegin + tDelay
  (tEnd, { m with
    time := Function.update m.time unit (tEnd, tag)
    tLast := tStart
    nSimultaneous := if tStart = m.tLast then m.nSimultaneous + 1 else m.nSimultaneous
    totalDelay := m.totalDelay + (tBegin - tStart)
    nRequests := m.nRequests + 1 })

def getCompletionTime (m : ContentionModel n) (tStart tDelay : SubsecondTime) (tag : UInt64) :
    SubsecondTime × ContentionModel n :=
  if h : n = 0 then (tStart + tDelay, m)
  else if tStart = 0 then (tDelay, { m with nRequests := m.nRequests + 1 })
  else if tStart < m.tLast then
    -- out of order: no congestion, only transfer latency
    (tStart + tDelay,
      { m with nOutoforder := m.nOutoforder + 1, nRequests := m.nRequests + 1 })
  else
    m.reserve tStart tDelay tag (m.findUnit tStart (List.finRange n) ⟨0, Nat.pos_of_ne_zero h⟩)

/-- The first loop of a barrier: the time at which all units have become free. -/
def maxTime (m : ContentionModel n) (tStart : SubsecondTime) : SubsecondTime :=
  (List.finRange n).foldl (fun max i => if max < (m.time i).1 then (m.time i).1 else max) tStart

def getBarrierCompletionTime (m : ContentionModel n) (tStart tDelay : SubsecondTime)
    (tag : UInt64) : SubsecondTime × ContentionModel n :=
  if n = 0 then (tStart + tDelay, m)
  else
    let maxTime := m.maxTime tStart
    (maxTime + tDelay, { m with
      time := fun _ => (maxTime + tDelay, tag)
      totalBarrierDelay := m.totalBarrierDelay + (maxTime - tStart)
      nBarriers := m.nBarriers + 1 })

/-- The search of `getStartTime`: the same loop, but it returns from within. -/
def peek (m : ContentionModel n) (tStart : SubsecondTime) : List (Fin n) → Fin n → SubsecondTime
  | [], unit => if tStart < (m.time unit).1 then (m.time unit).1 else tStart
  | i :: rest, unit =>
    if (m.time i).1 ≤ tStart then tStart
    else if (m.time i).1 < (m.time unit).1 then m.peek tStart rest i
    else m.peek tStart rest unit

def getStartTime (m : ContentionModel n) (tStart : SubsecondTime) : SubsecondTime :=
  if h : n = 0 then tStart
  else if tStart < m.tLast then tStart
  else m.peek tStart (List.finRange n) ⟨0, Nat.pos_of_ne_zero h⟩

/-! ### Peeking a start time -/

theorem peek_eq (m : ContentionModel n) (tStart : SubsecondTime) (rest : List (Fin n))
    (unit : Fin n) :
    m.peek tStart rest unit =
      if tStart < (m.time (m.findUnit tStart rest unit)).1
      then (m.time (m.findUnit tStart rest unit)).1 else tStart := by
  induction rest generalizing unit with
  | nil => rfl
  | cons i rest ih =>
    rw [peek, findUnit]
    split
    case isTrue hfree => rw [if_neg (UInt64.not_lt.mpr hfree)]
    case isFalse =>
      split
      · exact ih i
      · exact ih unit

theorem findUnit_takes (m : ContentionModel n) (tStart : SubsecondTime) (rest : List (Fin n))
    (unit : Fin n) :
    let found := m.findUnit tStart rest unit
    tStart < (m.time found).1 →
      (m.time found).1 ≤ (m.time unit).1 ∧ ∀ i ∈ rest, (m.time found).1 ≤ (m.time i).1 := by
  induction rest generalizing unit with
  | nil =>
    intro found _
    exact ⟨UInt64.le_refl _, fun i hi => absurd hi List.not_mem_nil⟩
  | cons i rest ih =>
    intro found hbusy
    simp only [found, findUnit] at hbusy ⊢
    split at hbusy
    case isTrue hfree => exact absurd hbusy (UInt64.not_lt.mpr hfree)
    case isFalse hi =>
      rw [if_neg hi]
      split at hbusy
      case isTrue hlt =>
        rw [if_pos hlt]
        obtain ⟨hle, hall⟩ := ih i hbusy
        refine ⟨UInt64.le_trans hle (UInt64.le_of_lt hlt), ?_⟩
        intro j hj
        rcases List.mem_cons.mp hj with rfl | hj
        · exact hle
        · exact hall j hj
      case isFalse hge =>
        rw [if_neg hge]
        obtain ⟨hle, hall⟩ := ih unit hbusy
        refine ⟨hle, ?_⟩
        intro j hj
        rcases List.mem_cons.mp hj with rfl | hj
        · exact UInt64.le_trans hle (UInt64.not_lt.mp hge)
        · exact hall j hj

/-- The calls on the model that its users make. -/
inductive Call where
  | completion (tStart tDelay : SubsecondTime) (tag : UInt64)
  | barrier (tStart tDelay : SubsecondTime) (tag : UInt64)
  | start (tStart : SubsecondTime)
  deriving DecidableEq, Repr

def Call.run (m : ContentionModel n) : Call → ContentionModel n
  | .completion tStart tDelay tag => (m.getCompletionTime tStart tDelay tag).2
  | .barrier tStart tDelay tag => (m.getBarrierCompletionTime tStart tDelay tag).2
  | .start _ => m

def runAll (m : ContentionModel n) (calls : List Call) : ContentionModel n :=
  calls.foldl Call.run m

/-- What is peeked is what a reservation then gets. -/
def PeekAgrees (m : ContentionModel n) (tStart tDelay : SubsecondTime) (tag : UInt64) : Prop :=
  (m.getCompletionTime tStart tDelay tag).1 = m.getStartTime tStart + tDelay

/-- The request is at time zero, no later one has been seen, and every unit is busy. -/
def ZeroWaits (m : ContentionModel n) (tStart : SubsecondTime) : Prop :=
  n ≠ 0 ∧ tStart = 0 ∧ m.tLast = 0 ∧ ∀ i, (m.time i).1 ≠ 0

theorem getStartTime_zero (m : ContentionModel n) : m.getStartTime 0 = 0 ↔ ¬m.ZeroWaits 0 := by
  unfold getStartTime ZeroWaits
  by_cases hn : n = 0
  · simp [hn]
  · rw [dif_neg hn]
    by_cases hl : m.tLast = 0
    · have hnot : ¬(0 : SubsecondTime) < m.tLast := by rw [hl]; decide
      rw [if_neg hnot, peek_eq]
      have htakes := m.findUnit_takes 0 (List.finRange n) ⟨0, Nat.pos_of_ne_zero hn⟩
      generalize hfound : m.findUnit 0 (List.finRange n) ⟨0, Nat.pos_of_ne_zero hn⟩ = found at htakes ⊢
      by_cases hbusy : 0 < (m.time found).1
      · have hpos : (m.time found).1 ≠ 0 := (UInt64.pos_iff_ne_zero).mp hbusy
        obtain ⟨-, hall⟩ := htakes hbusy
        simp only [if_pos hbusy, hpos, false_iff, not_not]
        refine ⟨hn, trivial, hl, ?_⟩
        intro i hzero
        have hle := hall i (List.mem_finRange i)
        rw [hzero] at hle
        exact absurd hbusy (UInt64.not_lt.mpr hle)
      · have hzero : (m.time found).1 = 0 := by
          by_contra hne
          exact hbusy (UInt64.pos_iff_ne_zero.mpr hne)
        simp only [if_neg hbusy, true_iff]
        exact fun h => h.2.2.2 found hzero
    · rw [if_pos (UInt64.pos_iff_ne_zero.mpr hl)]
      simp [hl]

theorem peekAgrees_iff_not_zeroWaits (m : ContentionModel n) (tStart tDelay : SubsecondTime)
    (tag : UInt64) : m.PeekAgrees tStart tDelay tag ↔ ¬m.ZeroWaits tStart := by
  unfold PeekAgrees
  by_cases hn : n = 0
  · simp [getCompletionTime, getStartTime, ZeroWaits, hn]
  · by_cases hz : tStart = 0
    · subst hz
      rw [← getStartTime_zero, getCompletionTime, dif_neg hn, if_pos rfl]
      constructor
      · intro h
        rw [← add_sub_self (m.getStartTime 0) tDelay, ← h, UInt64.sub_self]
      · intro h
        rw [h, UInt64.zero_add]
    · have hnot : ¬m.ZeroWaits tStart := fun h => hz h.2.1
      simp only [hnot, not_false_eq_true, iff_true]
      rw [getCompletionTime, getStartTime, dif_neg hn, dif_neg hn, if_neg hz]
      split
      · rfl
      · rw [peek_eq]
        rfl

/-- In every state that calls lead to, a request gets the start time that is peeked for it, plus its
delay, except at time zero when only barriers have moved the units. -/
theorem completion_eq_peek (n : Nat) (calls : List Call) (tStart tDelay : SubsecondTime)
    (tag : UInt64) :
    ((new n).runAll calls).PeekAgrees tStart tDelay tag ↔
      ¬((new n).runAll calls).ZeroWaits tStart :=
  peekAgrees_iff_not_zeroWaits _ tStart tDelay tag

/-- After a barrier a request at time zero is peeked behind it, and served at once. -/
theorem barrier_then_zero :
    ¬((new 1).runAll [.barrier 5 3 0]).PeekAgrees 0 2 0 ∧
      (((new 1).runAll [.barrier 5 3 0]).getCompletionTime 0 2 0).1 = 2 ∧
      ((new 1).runAll [.barrier 5 3 0]).getStartTime 0 = 8 := by
  unfold PeekAgrees
  decide

/-! ### Requests in the order of their times -/

structure Request where
  start : SubsecondTime
  delay : SubsecondTime
  tag : UInt64
  deriving DecidableEq, Repr

/-- When the service of a request begins: its completion time, less its delay. -/
def beginning (m : ContentionModel n) (r : Request) : SubsecondTime :=
  (m.getCompletionTime r.start r.delay r.tag).1 - r.delay

/-- The service of a request over the integers, as its first and its last instant. -/
def span (m : ContentionModel n) (r : Request) : Nat × Nat :=
  ((m.beginning r).toNat, (m.beginning r).toNat + r.delay.toNat)

/-- The state after some requests, and their services, the last one first. -/
def serveAll (m : ContentionModel n) (requests : List Request) :
    ContentionModel n × List (Nat × Nat) :=
  requests.foldl (fun st r =>
    ((st.1.getCompletionTime r.start r.delay r.tag).2, st.1.span r :: st.2)) (m, [])

theorem serveAll_append_singleton (m : ContentionModel n) (requests : List Request) (r : Request) :
    m.serveAll (requests ++ [r]) =
      (((m.serveAll requests).1.getCompletionTime r.start r.delay r.tag).2,
        (m.serveAll requests).1.span r :: (m.serveAll requests).2) := by
  rw [serveAll, List.foldl_append]
  rfl

/-- What an exact server with `n` units does with a request after earlier ones: it does not begin
before its time, no more than `n` services overlap, and it begins as soon as fewer than `n` of the
earlier ones are in service. -/
structure Exact (n : Nat) (earlier : List Request) (r : Request) : Prop where
  after : r.start ≤ ((new n).serveAll earlier).1.beginning r
  overlap : ∀ x : Nat, ((new n).serveAll (earlier ++ [r])).2.countP
    (fun span => decide (span.1 ≤ x) && decide (x < span.2)) ≤ n
  least : IsLeast {s : Nat | r.start.toNat ≤ s ∧
      inService (((new n).serveAll earlier).2.map Prod.snd) s < n}
    (((new n).serveAll earlier).1.beginning r).toNat

/-- The units against the services so far: the times at which units become free track the ends of
services from the time of the last request on. -/
structure Serving (m : ContentionModel n) (spans : List (Nat × Nat)) : Prop where
  tracks : Tracks (fun i => (m.time i).1.toNat) (spans.map Prod.snd) m.tLast.toNat
  served : Served n spans

theorem new_serving (n : Nat) : (new n).Serving [] :=
  ⟨Tracks.idle _ fun _ => Nat.le_refl _, .nil⟩

/-- The unit that a request in order is put on. -/
def unitFor (m : ContentionModel n) (hn : 0 < n) (tStart : SubsecondTime) : Fin n :=
  m.findUnit tStart (List.finRange n) ⟨0, hn⟩

theorem getCompletionTime_inOrder (m : ContentionModel n) (hn : 0 < n) {r : Request}
    (hpos : 0 < r.start) (hlast : m.tLast ≤ r.start) :
    m.getCompletionTime r.start r.delay r.tag =
      m.reserve r.start r.delay r.tag (m.unitFor hn r.start) := by
  rw [getCompletionTime, dif_neg hn.ne', if_neg (UInt64.pos_iff_ne_zero.mp hpos),
    if_neg (UInt64.not_lt.mpr hlast), unitFor]

theorem unitFor_takes (m : ContentionModel n) (hn : 0 < n) (tStart : SubsecondTime) :
    Takes (fun i => (m.time i).1.toNat) tStart.toNat (m.unitFor hn tStart) := by
  intro hbusy j
  exact (m.findUnit_takes tStart (List.finRange n) ⟨0, hn⟩ hbusy).2 j (List.mem_finRange j)

theorem beginning_inOrder (m : ContentionModel n) (hn : 0 < n) {r : Request}
    (hpos : 0 < r.start) (hlast : m.tLast ≤ r.start) :
    (m.beginning r).toNat = max r.start.toNat (m.time (m.unitFor hn r.start)).1.toNat := by
  rw [beginning, m.getCompletionTime_inOrder hn hpos hlast, reserve, add_sub_self]
  split
  case isTrue h => exact (max_eq_right (Nat.le_of_lt h)).symm
  case isFalse h => exact (max_eq_left (UInt64.not_lt.mp h)).symm

theorem Serving.isLeast {m : ContentionModel n} {spans : List (Nat × Nat)} (h : m.Serving spans)
    (hn : 0 < n) {r : Request} (hpos : 0 < r.start) (hlast : m.tLast ≤ r.start) :
    IsLeast {s : Nat | r.start.toNat ≤ s ∧ inService (spans.map Prod.snd) s < n}
      (m.beginning r).toNat := by
  rw [m.beginning_inOrder hn hpos hlast]
  exact (h.tracks.mono (UInt64.le_iff_toNat_le.mp hlast)).isLeast (m.unitFor_takes hn r.start)

/-- A request in order keeps the units and the services in step, if its end is in range. -/
theorem Serving.serve {m : ContentionModel n} {spans : List (Nat × Nat)} (h : m.Serving spans)
    (hn : 0 < n) {r : Request} (hpos : 0 < r.start) (hlast : m.tLast ≤ r.start)
    (hfits : (m.span r).2 < 2 ^ 64) :
    (m.getCompletionTime r.start r.delay r.tag).2.Serving (m.span r :: spans) := by
  have hleast := h.isLeast hn hpos hlast
  refine ⟨?_, .cons hleast.1.2 h.served⟩
  have hserve := (h.tracks.mono (UInt64.le_iff_toNat_le.mp hlast)).serve (m.unitFor_takes hn r.start)
    (e := (m.span r).2) (by rw [← m.beginning_inOrder hn hpos hlast]; exact Nat.le_add_right _ _)
  have hend : ((m.getCompletionTime r.start r.delay r.tag).1).toNat = (m.span r).2 := by
    have hsplit : (m.getCompletionTime r.start r.delay r.tag).1 = m.beginning r + r.delay := by
      rw [beginning, UInt64.sub_add_cancel]
    rw [hsplit, toNat_add_of_lt hfits]
    rfl
  rw [m.getCompletionTime_inOrder hn hpos hlast] at hend ⊢
  have htime : (fun i => (((m.reserve r.start r.delay r.tag (m.unitFor hn r.start)).2).time i).1.toNat) =
      Function.update (fun i => (m.time i).1.toNat) (m.unitFor hn r.start) (m.span r).2 := by
    funext i
    by_cases hi : i = m.unitFor hn r.start
    · subst hi
      rw [Function.update_self, ← hend]
      simp [reserve]
    · rw [Function.update_of_ne hi]
      simp [reserve, Function.update_of_ne hi]
  rw [htime]
  exact hserve

/-- After requests in order whose ends are in range, the units and the services are in step. -/
theorem serveAll_serving (hn : 0 < n) {requests : List Request}
    (hpos : ∀ r ∈ requests, 0 < r.start)
    (hsorted : requests.Pairwise fun r r' => r.start ≤ r'.start)
    (hfits : ∀ span ∈ ((new n).serveAll requests).2, span.2 < 2 ^ 64) :
    ((new n).serveAll requests).1.Serving ((new n).serveAll requests).2 ∧
      ∀ t, (∀ r ∈ requests, r.start ≤ t) → ((new n).serveAll requests).1.tLast ≤ t := by
  induction requests using List.reverseRecOn with
  | nil => exact ⟨new_serving n, fun t _ => UInt64.zero_le⟩
  | append_singleton requests r ih =>
    rw [serveAll_append_singleton] at hfits ⊢
    obtain ⟨hsorted', -, hbefore⟩ := List.pairwise_append.mp hsorted
    obtain ⟨hserving, hlast⟩ := ih (fun q hq => hpos q (List.mem_append_left _ hq)) hsorted'
      (fun span hspan => hfits span (List.mem_cons_of_mem _ hspan))
    have hrpos := hpos r (List.mem_append_right _ (List.mem_singleton_self r))
    have hrlast := hlast r.start fun q hq => hbefore q hq r (List.mem_singleton_self r)
    refine ⟨hserving.serve hn hrpos hrlast (hfits _ List.mem_cons_self), ?_⟩
    intro t ht
    rw [getCompletionTime_inOrder _ hn hrpos hrlast]
    exact ht r (List.mem_append_right _ (List.mem_singleton_self r))

/-- Requests in order are served exactly as by `n` servers, first come first served, as long as the
services before end in range. -/
theorem serves_exactly (n : Nat) (hn : 0 < n) (earlier : List Request) (r : Request)
    (hpos : ∀ q ∈ earlier ++ [r], 0 < q.start)
    (hsorted : (earlier ++ [r]).Pairwise fun q q' => q.start ≤ q'.start)
    (hfits : ∀ span ∈ ((new n).serveAll earlier).2, span.2 < 2 ^ 64) : Exact n earlier r := by
  obtain ⟨hsorted', -, hbefore⟩ := List.pairwise_append.mp hsorted
  obtain ⟨hserving, hlast⟩ := serveAll_serving hn
    (fun q hq => hpos q (List.mem_append_left _ hq)) hsorted' hfits
  have hrpos := hpos r (List.mem_append_right _ (List.mem_singleton_self r))
  have hrlast := hlast r.start fun q hq => hbefore q hq r (List.mem_singleton_self r)
  have hleast := hserving.isLeast hn hrpos hrlast
  refine ⟨UInt64.le_iff_toNat_le.mpr hleast.1.1, ?_, hleast⟩
  rw [serveAll_append_singleton]
  exact (Served.cons hleast.1.2 hserving.served).overlap

theorem serves_exactly_three :
    Exact 2 [⟨1, 10, 0⟩, ⟨2, 3, 0⟩] ⟨4, 6, 0⟩ ∧
      (((new 2).serveAll [⟨1, 10, 0⟩, ⟨2, 3, 0⟩]).1.beginning ⟨4, 6, 0⟩) = 5 :=
  ⟨serves_exactly 2 (by decide) _ _ (by decide) (by decide) (by decide), by decide⟩

/-- A request for half of the whole time. -/
def longRequest : Request := ⟨1, 0x8000000000000000, 0⟩

def shortRequest : Request := ⟨1, 1, 0⟩

/-- The second service ends past the last femtosecond: its unit looks free to the third request. -/
theorem wrapped_end_overlaps :
    (∀ q ∈ [longRequest, longRequest] ++ [shortRequest], 0 < q.start ∧ 0 < q.delay) ∧
      ([longRequest, longRequest] ++ [shortRequest]).Pairwise (fun q q' => q.start ≤ q'.start) ∧
      ¬Exact 1 [longRequest, longRequest] shortRequest := by
  refine ⟨by decide, by decide, ?_⟩
  intro h
  have hfew := h.least.1.2
  revert hfew
  decide

end ContentionModel

end Sniper.Timing
