import Mathlib.Order.Lattice.Nat
import Sniper.Performance.RobLinks
set_option autoImplicit false

/-! When the entries of the reorder buffer become ready: the times at which the results of their
producers can be used. -/

namespace Sniper.Performance
open Sniper.Lib DynamicMicroOp

namespace RobTimer

variable {σ μ : Type} {cfg : RobConfig σ μ}

/-! ### What the dependants of a producer are told -/

/-- An entry that has been told so many times when the result of a producer can be used. -/
structure Told (producer : Nat) (result : Time) (times : Nat) (e e' : RobEntry) : Prop where
  number : e'.uop.sequenceNumber = e.uop.sequenceNumber
  microOp : e'.uop.microOp = e.uop.microOp
  done : e'.done = e.done
  enough : times ≤ e.uop.allDependencies.count producer
  count : ∀ n, e'.uop.allDependencies.count n =
    e.uop.allDependencies.count n - if n = producer then times else 0
  readyMax : e'.readyMax = if times = 0 then e.readyMax else max e.readyMax result
  ready : e'.ready =
    if times ≠ 0 ∧ e'.uop.allDependencies = [] then e'.readyMax else e.ready

theorem Told.refl (producer : Nat) (result : Time) (e : RobEntry) :
    Told producer result 0 e e where
  number := rfl
  microOp := rfl
  done := rfl
  enough := Nat.zero_le _
  count n := by rw [ite_self, Nat.sub_zero]
  readyMax := rfl
  ready := (if_neg fun h => absurd rfl h.1).symm

theorem nil_of_count_le {l l' : List Nat} (h : ∀ n, l'.count n ≤ l.count n) (hl : l = []) :
    l' = [] := by
  refine List.eq_nil_iff_forall_not_mem.mpr fun n hn => ?_
  have hle := h n
  rw [hl, List.count_nil] at hle
  exact absurd (List.count_pos_iff.mpr hn) (Nat.not_lt.mpr hle)

theorem Told.trans {producer j k : Nat} {result : Time} {e e' e'' : RobEntry}
    (h : Told producer result j e e') (h' : Told producer result k e' e'') :
    Told producer result (j + k) e e'' := by
  have henough : j + k ≤ e.uop.allDependencies.count producer := by
    have hrest := h'.enough
    rw [h.count, if_pos rfl] at hrest
    have := h.enough
    omega
  refine ⟨h'.number.trans h.number, h'.microOp.trans h.microOp, h'.done.trans h.done, henough,
    ?_, ?_, ?_⟩
  · intro n
    rw [h'.count, h.count]
    split <;> omega
  · rw [h'.readyMax, h.readyMax]
    by_cases hk : k = 0
    · rw [if_pos hk, hk, Nat.add_zero]
    · rw [if_neg hk, if_neg (show ¬j + k = 0 by omega)]
      split
      · rfl
      · rw [max_assoc, max_self]
  · by_cases hk : k = 0
    · have hsame : e''.uop.allDependencies = [] ↔ e'.uop.allDependencies = [] := by
        have hcount : ∀ n, e''.uop.allDependencies.count n = e'.uop.allDependencies.count n := by
          intro n
          rw [h'.count, hk, ite_self, Nat.sub_zero]
        exact ⟨nil_of_count_le fun n => (hcount n).ge, nil_of_count_le fun n => (hcount n).le⟩
      have hlater : e''.ready = e'.ready := by rw [h'.ready, if_neg fun hand => hand.1 hk]
      have hmax : e''.readyMax = e'.readyMax := by rw [h'.readyMax, if_pos hk]
      rw [hlater, h.ready, hmax, hk, Nat.add_zero]
      simp only [hsame]
    · -- the last time is the one that counts
      have hwaits : e'.uop.allDependencies ≠ [] := by
        intro hnil
        have hrest := h'.enough
        rw [hnil, List.count_nil] at hrest
        omega
      have hstill : e'.ready = e.ready := by rw [h.ready, if_neg fun hand => hwaits hand.2]
      have hsum : j + k ≠ 0 := by omega
      rw [h'.ready, hstill]
      simp only [hk, hsum, ne_eq, not_false_eq_true, true_and]

theorem wakeDependant_told {s s' : RobTimer μ} {producer cycleDepend d : Nat} {woken : List Nat}
    (h : Waking producer (d :: woken) s) (hstep : wakeDependant producer cycleDepend s d = .ok s')
    {j : Nat} {x' : RobEntry} (hx' : s'.rob[j]? = some x') :
    ∃ x, s.rob[j]? = some x ∧
      Told producer cycleDepend (if d = x.uop.sequenceNumber then 1 else 0) x x' := by
  obtain ⟨i, e, uop, addressReadyMax, addressReady, he, rfl, hlen, hremove, rfl⟩ :=
    wakeDependant_spec h.links.numbered hstep
  obtain ⟨x, hx, rfl⟩ := modifyEntry_some hx'
  refine ⟨x, hx, ?_⟩
  by_cases hij : i = j
  · subst hij
    rw [he] at hx
    obtain rfl := Option.some.inj hx
    have hmem := List.mem_of_getElem? he
    have hdrop := removeDependency_drops (h.links.small e hmem) hremove
    have hpos : 0 < e.uop.allDependencies.count producer := by
      rw [h.waiting e hmem, List.count_cons_self]
      exact Nat.succ_pos _
    rw [if_pos rfl, if_pos rfl]
    refine ⟨hdrop.rewired.sequenceNumber, hdrop.rewired.microOp, rfl, hpos, fun n => ?_, rfl, ?_⟩
    · have hcount := hdrop.count n
      simp only at hcount ⊢
      split at hcount
      · next hn =>
        rw [if_pos hn.symm]
        omega
      · next hn =>
        rw [if_neg (Ne.symm hn)]
        omega
    · simp only [allDependencies_eq_nil, ne_eq, one_ne_zero, not_false_eq_true, true_and]
  · have hne : e.uop.sequenceNumber ≠ x.uop.sequenceNumber :=
      fun hsame => hij (h.links.numbered.unique he hx hsame)
    rw [if_neg hij, if_neg hne]
    exact .refl _ _ x

theorem wakeAll_told {producer cycleDepend : Nat} (woken : List Nat) :
    ∀ {s s' : RobTimer μ}, Waking producer woken s →
    woken.foldlM (wakeDependant producer cycleDepend) s = .ok s' →
    ∀ {j : Nat} {x' : RobEntry}, s'.rob[j]? = some x' → ∃ x, s.rob[j]? = some x ∧
      Told producer cycleDepend (woken.count x.uop.sequenceNumber) x x' := by
  induction woken with
  | nil =>
    intro s s' _ hfold j x' hx'
    rw [List.foldlM_nil] at hfold
    obtain rfl := Except.ok.inj hfold
    exact ⟨x', hx', .refl _ _ x'⟩
  | cons d woken ih =>
    intro s s' h hfold j x' hx'
    rw [List.foldlM_cons] at hfold
    obtain ⟨t, hwake, hfold⟩ := except_bind_eq_ok.mp hfold
    obtain ⟨x1, hx1, hrest⟩ := ih (h.wake hwake) hfold hx'
    obtain ⟨x, hx, hfirst⟩ := wakeDependant_told h hwake hx1
    refine ⟨x, hx, ?_⟩
    have hall := hfirst.trans hrest
    rw [hfirst.number] at hall
    have hcount : (d :: woken).count x.uop.sequenceNumber =
        (if d = x.uop.sequenceNumber then 1 else 0) + woken.count x.uop.sequenceNumber := by
      rw [List.count_cons, Nat.add_comm]
      simp only [beq_iff_eq]
    rwa [hcount]

theorem access_microOp (cfg : RobConfig σ μ) (s : RobTimer μ) (uop : DynamicMicroOp) :
    (s.access cfg uop).2.microOp = uop.microOp := by
  rw [access]
  split <;> rfl

/-- The entry that is issued, before its dependants are told. -/
def issuedEntry (cfg : RobConfig σ μ) (now : Nat) (s : RobTimer μ) (e : RobEntry) : RobEntry :=
  { e with
    uop := (s.access cfg e.uop).2
    issued := now
    done := (completion now (s.access cfg e.uop).2).2 }

/-- When the result of the entry that is issued can be used. -/
def issuedResult (cfg : RobConfig σ μ) (now : Nat) (s : RobTimer μ) (e : RobEntry) : Nat :=
  (completion now (s.access cfg e.uop).2).1

/-- The state in which the dependants are told, and what is told them. -/
theorem issueInstruction_waking {s s' : RobTimer μ} {now i done : Nat} {c c' : σ} {e : RobEntry}
    (h : Links none s) (he : s.rob[i]? = some e) (hdone : e.done = ⊤) (hready : e.ready ≠ ⊤)
    (hissue : issueInstruction cfg now s c i e = .ok (s', c', done)) :
    ∃ t u : RobTimer μ, Waking e.uop.sequenceNumber e.dependants t ∧
      t.rob = s.rob.modify i (fun _ => issuedEntry cfg now s e) ∧
      t.nextSequenceNumber = s.nextSequenceNumber ∧
      e.dependants.foldlM (wakeDependant e.uop.sequenceNumber (issuedResult cfg now s e)) t = .ok u ∧
      s'.rob = u.rob := by
  rw [RobTimer.issueInstruction] at hissue
  obtain ⟨hrob, hnext, huop⟩ := access_spec cfg s e.uop
  rw [issuedResult, ← huop.number]
  have hissued : issuedEntry cfg now s e = { e with
      uop := (s.access cfg e.uop).2
      issued := now
      done := (completion now (s.access cfg e.uop).2).2 } := rfl
  generalize s.access cfg e.uop = accessed at hissue hrob hnext huop hissued
  obtain ⟨s1, uop⟩ := accessed
  obtain ⟨hrob', hnext'⟩ := enterQueues_spec s1 now uop
  dsimp only at hissue hrob hnext huop hissued
  split at hissue
  · cases hissue
  · obtain ⟨u, hfold, hissue⟩ := except_bind_eq_ok.mp hissue
    have hqueued := h.congr (hrob'.trans hrob) (hnext'.trans hnext)
    have hentry : (RobTimer.storeIssued (s1.enterQueue now uop) now uop).rob[i]? = some e := by
      rw [hrob', hrob]
      exact he
    refine ⟨_, u, hqueued.issue hentry hdone hready huop, ?_, hnext'.trans hnext, hfold, ?_⟩
    · rw [hissued]
      refine (modify_at hentry _).trans ?_
      rw [hrob', hrob]
    · cases hissue
      split <;> rfl

/-- What an issue does to all entries. -/
theorem issueInstruction_told {s s' : RobTimer μ} {now i done : Nat} {c c' : σ} {e : RobEntry}
    (h : Links none s) (he : s.rob[i]? = some e) (hdone : e.done = ⊤) (hready : e.ready ≠ ⊤)
    (hissue : issueInstruction cfg now s c i e = .ok (s', c', done)) {j : Nat} {x' : RobEntry}
    (hx' : s'.rob[j]? = some x') :
    ∃ x, s.rob[j]? = some x ∧ Told e.uop.sequenceNumber (issuedResult cfg now s e)
      (x.uop.allDependencies.count e.uop.sequenceNumber)
      (if i = j then issuedEntry cfg now s e else x) x' := by
  obtain ⟨t, u, hwaking, hrob, -, hfold, hu⟩ := issueInstruction_waking h he hdone hready hissue
  rw [hu] at hx'
  obtain ⟨y, hy, htold⟩ := wakeAll_told e.dependants hwaking hfold hx'
  rw [← hwaking.waiting y (List.mem_of_getElem? hy)] at htold
  rw [hrob, List.getElem?_modify] at hy
  by_cases hij : i = j
  · subst hij
    rw [he, Option.map_eq_map, Option.map_some, if_pos rfl] at hy
    obtain rfl := Option.some.inj hy
    have hsame : (issuedEntry cfg now s e).uop.allDependencies = e.uop.allDependencies :=
      (access_spec cfg s e.uop).2.2.all
    rw [hsame] at htold
    refine ⟨e, he, ?_⟩
    rwa [if_pos rfl]
  · cases hx : s.rob[j]? with
    | none => simp [hx] at hy
    | some x =>
      rw [hx, Option.map_eq_map, Option.map_some, if_neg hij] at hy
      obtain rfl := Option.some.inj hy
      refine ⟨x, rfl, ?_⟩
      rwa [if_neg hij]

/-! ### The history of a run -/

/-- For each micro-operation, by number: the latest of the producers that were done when it entered
the buffer, the producers that were not, when its own result can be used, and the cycle after its
dispatch if it was ready by then. The top is the time that is not known yet. -/
structure History where
  finished : Nat → Time
  pending : Nat → Finset Nat
  result : Nat → Time
  bound : Nat → Time

namespace History

def start : History := ⟨fun _ => ⊥, fun _ => ∅, fun _ => ⊤, fun _ => ⊥⟩

def enter (h : History) (n : Nat) (finished : Time) (pending : Finset Nat) : History :=
  { h with
    finished := Function.update h.finished n finished
    pending := Function.update h.pending n pending }

def dispatch (h : History) (now : Nat) (e : RobEntry) : History :=
  if e.ready = ⊤ then h
  else
    { h with
      bound := Function.update h.bound e.uop.sequenceNumber
        (max (h.bound e.uop.sequenceNumber) ((now + 1 : Nat) : Time)) }

def issue (h : History) (n : Nat) (result : Time) : History :=
  { h with result := Function.update h.result n result }

/-- The latest of the results that are known. -/
def known (h : History) (n : Nat) : Time :=
  max (h.finished n) (((h.pending n).filter fun p => h.result p ≠ ⊤).sup h.result)

/-- The latest of the own bound and of the results of all producers. -/
def ready (h : History) (n : Nat) : Time :=
  max (h.bound n) (max (h.finished n) ((h.pending n).sup h.result))

theorem ready_eq {h : History} {n : Nat} (hall : ∀ p ∈ h.pending n, h.result p ≠ ⊤) :
    h.ready n = max (h.bound n) (h.known n) := by
  rw [ready, known, Finset.filter_true_of_mem hall]

theorem ready_eq_top {h : History} {n p : Nat} (hp : p ∈ h.pending n) (htop : h.result p = ⊤) :
    h.ready n = ⊤ := by
  have hle : h.result p ≤ (h.pending n).sup h.result := Finset.le_sup hp
  rw [htop, top_le_iff] at hle
  rw [ready, hle, max_eq_right le_top, max_eq_right le_top]

theorem known_le_ready (h : History) (n : Nat) : h.known n ≤ h.ready n := by
  refine le_max_of_le_right (max_le_max_left _ ?_)
  exact Finset.sup_mono (Finset.filter_subset _ _)

@[simp] theorem enter_result (h : History) (n : Nat) (finished : Time) (pending : Finset Nat) :
    (h.enter n finished pending).result = h.result := rfl

@[simp] theorem enter_bound (h : History) (n : Nat) (finished : Time) (pending : Finset Nat) :
    (h.enter n finished pending).bound = h.bound := rfl

theorem enter_pending_self (h : History) (n : Nat) (finished : Time) (pending : Finset Nat) :
    (h.enter n finished pending).pending n = pending := Function.update_self _ _ _

theorem enter_pending_of_ne (h : History) {n m : Nat} (finished : Time) (pending : Finset Nat)
    (hne : m ≠ n) : (h.enter n finished pending).pending m = h.pending m :=
  Function.update_of_ne hne _ _

theorem enter_finished_self (h : History) (n : Nat) (finished : Time) (pending : Finset Nat) :
    (h.enter n finished pending).finished n = finished := Function.update_self _ _ _

theorem enter_finished_of_ne (h : History) {n m : Nat} (finished : Time) (pending : Finset Nat)
    (hne : m ≠ n) : (h.enter n finished pending).finished m = h.finished m :=
  Function.update_of_ne hne _ _

theorem enter_known_self {h : History} {n : Nat} {finished : Time} {pending : Finset Nat}
    (hunknown : ∀ p ∈ pending, h.result p = ⊤) :
    (h.enter n finished pending).known n = finished := by
  have hnone : pending.filter (fun p => h.result p ≠ ⊤) = ∅ :=
    Finset.filter_eq_empty_iff.mpr fun p hp => not_not.mpr (hunknown p hp)
  rw [known, enter_pending_self, enter_finished_self, enter_result, hnone, Finset.sup_empty]
  exact max_eq_left bot_le

@[simp] theorem dispatch_result (h : History) (now : Nat) (e : RobEntry) :
    (h.dispatch now e).result = h.result := by
  unfold dispatch
  split <;> rfl

@[simp] theorem dispatch_pending (h : History) (now : Nat) (e : RobEntry) :
    (h.dispatch now e).pending = h.pending := by
  unfold dispatch
  split <;> rfl

@[simp] theorem dispatch_finished (h : History) (now : Nat) (e : RobEntry) :
    (h.dispatch now e).finished = h.finished := by
  unfold dispatch
  split <;> rfl

theorem dispatch_bound_of_ne (h : History) (now : Nat) {e : RobEntry} {n : Nat}
    (hne : n ≠ e.uop.sequenceNumber) : (h.dispatch now e).bound n = h.bound n := by
  unfold dispatch
  split
  · rfl
  · exact Function.update_of_ne hne _ _

@[simp] theorem issue_bound (h : History) (n : Nat) (result : Time) :
    (h.issue n result).bound = h.bound := rfl

theorem issue_result_self (h : History) (p : Nat) (result : Time) :
    (h.issue p result).result p = result := Function.update_self _ _ _

theorem issue_result_of_ne (h : History) {p m : Nat} (result : Time) (hne : m ≠ p) :
    (h.issue p result).result m = h.result m := Function.update_of_ne hne _ _

theorem known_issue {h : History} {p : Nat} (hp : h.result p = ⊤) (result : Nat) (n : Nat) :
    (h.issue p result).known n =
      if p ∈ h.pending n then max (h.known n) (result : Time) else h.known n := by
  have hold : ∀ m ∈ (h.pending n).filter (fun m => h.result m ≠ ⊤),
      (h.issue p result).result m = h.result m := by
    intro m hm
    refine h.issue_result_of_ne _ ?_
    rintro rfl
    exact (Finset.mem_filter.mp hm).2 hp
  have hknown : (h.issue p result).known n = max (h.finished n)
      (((h.pending n).filter fun m => (h.issue p result).result m ≠ ⊤).sup
        (h.issue p result).result) := rfl
  rw [hknown, known]
  split
  · next hmem =>
    have hfilter : ((h.pending n).filter fun m => (h.issue p result).result m ≠ ⊤) =
        insert p ((h.pending n).filter fun m => h.result m ≠ ⊤) := by
      ext m
      rw [Finset.mem_insert, Finset.mem_filter, Finset.mem_filter]
      by_cases hm : m = p
      · subst hm
        have hknow : (h.issue m (result : Time)).result m ≠ ⊤ := by
          rw [issue_result_self]
          exact WithTop.coe_ne_top
        simp [hmem, hknow]
      · simp [hm, h.issue_result_of_ne _ hm]
    rw [hfilter, Finset.sup_insert, issue_result_self, Finset.sup_congr rfl hold,
      max_comm _ (result : Time), max_left_comm]
  · next hmem =>
    have hfilter : ((h.pending n).filter fun m => (h.issue p result).result m ≠ ⊤) =
        (h.pending n).filter fun m => h.result m ≠ ⊤ := by
      refine Finset.filter_congr fun m hm => ?_
      rw [issue_result_of_ne]
      rintro rfl
      exact hmem hm
    rw [hfilter, Finset.sup_congr rfl hold]

theorem ready_issue_of_notMem {h : History} {p n : Nat} (hp : p ∉ h.pending n) (result : Time) :
    (h.issue p result).ready n = h.ready n := by
  have hsame : (h.pending n).sup (h.issue p result).result = (h.pending n).sup h.result := by
    refine Finset.sup_congr rfl fun m hm => h.issue_result_of_ne _ ?_
    rintro rfl
    exact hp hm
  exact congrArg (fun time => max (h.bound n) (max (h.finished n) time)) hsame

end History

/-- The history agrees with the buffer. -/
structure Exact (h : History) (s : RobTimer μ) : Prop where
  remaining : ∀ e ∈ s.rob, ∀ m, m ∈ e.uop.allDependencies ↔
    m ∈ h.pending e.uop.sequenceNumber ∧ h.result m = ⊤
  known : ∀ e ∈ s.rob, e.readyMax = h.known e.uop.sequenceNumber
  ready : ∀ e ∈ s.rob, e.ready = h.ready e.uop.sequenceNumber
  bound : ∀ e ∈ s.rob, e.uop.allDependencies ≠ [] → h.bound e.uop.sequenceNumber = ⊥
  done : ∀ e ∈ s.rob, e.done = if e.uop.microOp.isStore then h.result e.uop.sequenceNumber
    else h.result e.uop.sequenceNumber + 1
  unknown : ∀ n, s.nextSequenceNumber ≤ n → h.result n = ⊤ ∧ h.bound n = ⊥

/-- The history agrees with one entry. -/
structure History.Describes (h : History) (e : RobEntry) : Prop where
  remaining : ∀ m, m ∈ e.uop.allDependencies ↔
    m ∈ h.pending e.uop.sequenceNumber ∧ h.result m = ⊤
  known : e.readyMax = h.known e.uop.sequenceNumber
  ready : e.ready = h.ready e.uop.sequenceNumber
  bound : e.uop.allDependencies ≠ [] → h.bound e.uop.sequenceNumber = ⊥
  done : e.done = if e.uop.microOp.isStore then h.result e.uop.sequenceNumber
    else h.result e.uop.sequenceNumber + 1

namespace History.Describes

variable {h h' : History} {e : RobEntry}

/-- The history of other micro-operations says nothing of the entry. -/
theorem off (hd : h.Describes e) (hresult : h'.result = h.result)
    (hpending : h'.pending e.uop.sequenceNumber = h.pending e.uop.sequenceNumber)
    (hfinished : h'.finished e.uop.sequenceNumber = h.finished e.uop.sequenceNumber)
    (hbound : h'.bound e.uop.sequenceNumber = h.bound e.uop.sequenceNumber) : h'.Describes e where
  remaining := by
    rw [hpending, hresult]
    exact hd.remaining
  known := by
    rw [History.known, hfinished, hpending, hresult]
    exact hd.known
  ready := by
    rw [History.ready, hfinished, hpending, hresult, hbound]
    exact hd.ready
  bound := by
    rw [hbound]
    exact hd.bound
  done := by
    rw [hresult]
    exact hd.done

theorem ready_of_waiting (hd : h.Describes e) (hwaits : e.uop.allDependencies ≠ []) :
    e.ready = ⊤ := by
  obtain ⟨m, hm⟩ := List.exists_mem_of_ne_nil _ hwaits
  obtain ⟨hpending, htop⟩ := (hd.remaining m).mp hm
  rw [hd.ready]
  exact History.ready_eq_top hpending htop

/-- The bound of an entry that is dispatched is raised if the entry is ready. -/
theorem dispatch (hd : h.Describes e) (now : Nat) :
    (h.dispatch now e).Describes (dispatchEntry now e) := by
  by_cases htop : e.ready = ⊤
  · have hstay : h.dispatch now e = h := if_pos htop
    rw [hstay]
    refine ⟨hd.remaining, hd.known, ?_, hd.bound, hd.done⟩
    change max e.ready _ = h.ready e.uop.sequenceNumber
    rw [← hd.ready, htop]
    exact max_eq_left le_top
  · have hbound : (h.dispatch now e).bound e.uop.sequenceNumber =
        max (h.bound e.uop.sequenceNumber) ((now + 1 : Nat) : Time) := by
      rw [History.dispatch, if_neg htop]
      exact Function.update_self _ _ _
    refine ⟨?_, ?_, ?_, fun hwaits => absurd (hd.ready_of_waiting hwaits) htop, ?_⟩
    · rw [dispatch_result, dispatch_pending]
      exact hd.remaining
    · rw [History.known, dispatch_result, dispatch_pending, dispatch_finished]
      exact hd.known
    · change max e.ready _ = (h.dispatch now e).ready e.uop.sequenceNumber
      rw [hd.ready, History.ready, History.ready, hbound, dispatch_result, dispatch_pending,
        dispatch_finished, max_right_comm]
    · rw [dispatch_result]
      exact hd.done

end History.Describes

namespace Exact

variable {h : History} {s s' : RobTimer μ}

theorem describes (hx : Exact h s) {e : RobEntry} (he : e ∈ s.rob) : h.Describes e :=
  ⟨hx.remaining e he, hx.known e he, hx.ready e he, hx.bound e he, hx.done e he⟩

theorem of_describes (hall : ∀ e ∈ s.rob, h.Describes e)
    (hunknown : ∀ n, s.nextSequenceNumber ≤ n → h.result n = ⊤ ∧ h.bound n = ⊥) : Exact h s where
  remaining e he := (hall e he).remaining
  known e he := (hall e he).known
  ready e he := (hall e he).ready
  bound e he := (hall e he).bound
  done e he := (hall e he).done
  unknown := hunknown

theorem result_eq_top (hx : Exact h s) {e : RobEntry} (he : e ∈ s.rob) :
    h.result e.uop.sequenceNumber = ⊤ ↔ e.done = ⊤ := by
  rw [hx.done e he]
  split
  · rfl
  · rw [WithTop.add_eq_top]
    simp

theorem ready_of_waiting (hx : Exact h s) {e : RobEntry} (he : e ∈ s.rob)
    (hwaits : e.uop.allDependencies ≠ []) : e.ready = ⊤ :=
  (hx.describes he).ready_of_waiting hwaits

theorem readyMax_le_ready (hx : Exact h s) {e : RobEntry} (he : e ∈ s.rob) :
    e.readyMax ≤ e.ready := by
  rw [hx.known e he, hx.ready e he]
  exact h.known_le_ready _

theorem congr (hx : Exact h s) (hrob : s'.rob = s.rob)
    (hnext : s'.nextSequenceNumber = s.nextSequenceNumber) : Exact h s' :=
  of_describes (fun _ he => hx.describes (hrob ▸ he)) (hnext ▸ hx.unknown)

theorem commit (hx : Exact h s) {e : RobEntry} {rest : List RobEntry} (hrob : s.rob = e :: rest) :
    Exact h { s with rob := rest } :=
  of_describes (fun _ hr => hx.describes (hrob ▸ List.mem_cons_of_mem e hr)) hx.unknown

/-- The bound is that of the entry alone. -/
theorem dispatch (hx : Exact h s) (hn : Numbered s) {i now : Nat} {e : RobEntry}
    (he : s.rob[i]? = some e) :
    Exact (h.dispatch now e) (s.modifyEntry i (dispatchEntry now)) := by
  refine of_describes (fun x' hx' => ?_) fun n hle => ?_
  · obtain ⟨j, x, hj, rfl⟩ := mem_modifyEntry hx'
    have hold := hx.describes (List.mem_of_getElem? hj)
    by_cases hij : i = j
    · subst hij
      rw [he] at hj
      obtain rfl := Option.some.inj hj
      rw [if_pos rfl]
      exact hold.dispatch now
    · rw [if_neg hij]
      have hne : x.uop.sequenceNumber ≠ e.uop.sequenceNumber :=
        fun heq => hij (hn.unique he hj heq.symm)
      exact hold.off (h.dispatch_result now e) (by rw [h.dispatch_pending])
        (by rw [h.dispatch_finished]) (h.dispatch_bound_of_ne now hne)
  · have hne : n ≠ e.uop.sequenceNumber := by
      rintro rfl
      exact absurd (hn.lt ⟨i, e, he, rfl⟩) (Nat.not_lt.mpr hle)
    rw [h.dispatch_result, h.dispatch_bound_of_ne now hne]
    exact hx.unknown n hle

end Exact

end RobTimer

end Sniper.Performance
