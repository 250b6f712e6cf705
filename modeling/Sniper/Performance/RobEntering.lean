import Sniper.Performance.DependencyList
import Sniper.Performance.QuietCycles
import Mathlib.Data.Finset.Lattice.Fold
import Mathlib.Order.Lattice.Nat
set_option autoImplicit false

/-! How a micro-operation enters the reorder buffer: its dependencies, and its producers. -/

namespace Sniper.Performance
open Sniper.Lib

namespace DynamicMicroOp

/-! ### What happens to the dependencies of one micro-operation -/

/-- Nothing but the dependencies has changed, and those on the own instruction are not more. -/
structure Rewired (uop uop' : DynamicMicroOp) : Prop where
  same : uop' = { uop with
    dependencies := uop'.dependencies
    intraInstructionDependencies := uop'.intraInstructionDependencies }
  intra : uop'.intraInstructionDependencies ≤ uop.intraInstructionDependencies

theorem Rewired.refl (uop : DynamicMicroOp) : Rewired uop uop := ⟨rfl, Nat.le_refl _⟩

theorem Rewired.trans {uop uop' uop'' : DynamicMicroOp} (h : Rewired uop uop')
    (h' : Rewired uop' uop'') : Rewired uop uop'' := by
  refine ⟨?_, h'.intra.trans h.intra⟩
  have hsame := h'.same
  rw [h.same] at hsame
  exact hsame

theorem Rewired.sequenceNumber {uop uop' : DynamicMicroOp} (h : Rewired uop uop') :
    uop'.sequenceNumber = uop.sequenceNumber := by rw [h.same]

theorem Rewired.microOp {uop uop' : DynamicMicroOp} (h : Rewired uop uop') :
    uop'.microOp = uop.microOp := by rw [h.same]

theorem Rewired.offset {uop uop' : DynamicMicroOp} (h : Rewired uop uop') :
    uop'.microOpTypeOffset = uop.microOpTypeOffset := by rw [h.same]

theorem addDependency_rewired {uop uop' : DynamicMicroOp} {x : Nat}
    (h : uop.addDependency x = .ok uop') : Rewired uop uop' := by
  rw [addDependency] at h
  split at h
  · cases h
    exact Rewired.refl uop
  · split at h
    · cases h
      exact ⟨rfl, Nat.le_refl _⟩
    · cases h

/-- The two fields are within 32 bits. -/
structure Small (uop : DynamicMicroOp) : Prop where
  intra : uop.intraInstructionDependencies < 2 ^ 32
  offset : uop.microOpTypeOffset < 2 ^ 32

theorem Rewired.small {uop uop' : DynamicMicroOp} (h : Rewired uop uop') (hs : uop.Small) :
    uop'.Small :=
  ⟨h.intra.trans_lt hs.intra, h.offset.symm ▸ hs.offset⟩

/-- `x` has been taken out of the dependencies. -/
structure Drops (x : Nat) (uop uop' : DynamicMicroOp) : Prop where
  rewired : Rewired uop uop'
  perm : (x :: uop'.allDependencies).Perm uop.allDependencies

theorem removeIntra_drops {x k : Nat} {uop uop' : DynamicMicroOp} (hs : uop.Small)
    (hk : uop.intraInstructionDependencies = k) (h : removeIntra x k uop = .ok uop') :
    Drops x uop uop' := by
  induction k generalizing uop with
  | zero => cases h
  | succ k ih =>
    have hlt : k < 2 ^ 32 := by
      have := hs.intra
      omega
    rw [removeIntra] at h
    split at h
    · next hfirst =>
      cases h
      refine ⟨⟨rfl, by rw [hk]; exact Nat.le_succ k⟩, ?_⟩
      rw [allDependencies_eq uop, intraDependencies_succ hs.intra hs.offset hk uop.dependencies,
        hfirst]
      exact List.Perm.refl _
    · split at h
      · have hmove : Rewired uop { uop with
            dependencies := uop.dependencies ++ [uop.firstIntra]
            intraInstructionDependencies := k } := ⟨rfl, by rw [hk]; exact Nat.le_succ k⟩
        have hmoved : Drops x { uop with
            dependencies := uop.dependencies ++ [uop.firstIntra]
            intraInstructionDependencies := k } uop' := ih ⟨hlt, hs.offset⟩ rfl h
        refine ⟨hmove.trans hmoved.rewired, hmoved.perm.trans ?_⟩
        rw [allDependencies_eq, allDependencies_eq uop,
          intraDependencies_succ hs.intra hs.offset hk (uop.dependencies ++ [uop.firstIntra]),
          ← List.append_assoc]
        exact List.perm_append_singleton _ _
      · cases h

theorem removeInter_drops {x : Nat} {uop uop' : DynamicMicroOp}
    (h : uop.removeInter x = .ok uop') : Drops x uop uop' := by
  have hdrop : ∀ rest : List Nat, (x :: rest).Perm uop.dependencies →
      Drops x uop { uop with dependencies := rest } := fun rest hperm =>
    ⟨⟨rfl, Nat.le_refl _⟩, List.perm_middle.symm.trans (hperm.append_left uop.intraDependencies)⟩
  unfold removeInter at h
  cases hlast : uop.dependencies.getLast? with
  | none => simp [hlast] at h
  | some final =>
    simp only [hlast] at h
    split at h
    · next hfinal =>
      cases h
      refine hdrop _ ?_
      have hback := List.dropLast_append_getLast? final hlast
      rw [hfinal] at hback
      exact (List.perm_append_singleton x _).symm.trans (List.Perm.of_eq hback)
    · next hne =>
      cases hi : uop.dependencies.idxOf? x with
      | none => simp [hi] at h
      | some i =>
        simp only [hi] at h
        cases h
        exact hdrop _ (swap_last_perm hlast hne hi)

theorem removeDependency_drops {x : Nat} {uop uop' : DynamicMicroOp} (hs : uop.Small)
    (h : uop.removeDependency x = .ok uop') : Drops x uop uop' := by
  rw [removeDependency] at h
  split at h
  · exact removeIntra_drops hs rfl h
  · exact removeInter_drops h

theorem Drops.count {x : Nat} {uop uop' : DynamicMicroOp} (h : Drops x uop uop') (n : Nat) :
    uop'.allDependencies.count n + (if x = n then 1 else 0) = uop.allDependencies.count n := by
  rw [← h.perm.count_eq, List.count_cons]
  simp

theorem length_allDependencies (uop : DynamicMicroOp) :
    uop.allDependencies.length = uop.getDependenciesLength := by
  simp [allDependencies, getDependenciesLength]

theorem allDependencies_eq_nil {uop : DynamicMicroOp} :
    uop.allDependencies = [] ↔ uop.getDependenciesLength = 0 := by
  rw [← length_allDependencies, List.length_eq_zero_iff]

/-- What is removed one after the other is gone. -/
theorem removeAll_perm (removed : List Nat) : ∀ {uop uop' : DynamicMicroOp}, uop.Small →
    removed.foldlM removeDependency uop = .ok uop' →
    Rewired uop uop' ∧ (removed ++ uop'.allDependencies).Perm uop.allDependencies := by
  induction removed with
  | nil =>
    intro uop uop' _ h
    rw [List.foldlM_nil] at h
    obtain rfl := Except.ok.inj h
    exact ⟨Rewired.refl uop, List.Perm.refl _⟩
  | cons x removed ih =>
    intro uop uop' hs h
    rw [List.foldlM_cons] at h
    obtain ⟨uop1, hx, h⟩ := except_bind_eq_ok.mp h
    have hdrop := removeDependency_drops hs hx
    obtain ⟨hrewired, hperm⟩ := ih (hdrop.rewired.small hs) h
    exact ⟨hdrop.rewired.trans hrewired, (hperm.cons x).trans hdrop.perm⟩

end DynamicMicroOp

open DynamicMicroOp

namespace RobTimer

variable {σ μ : Type} {cfg : RobConfig σ μ}

/-! ### Entries and their numbers -/

/-- The entries are numbered consecutively, up to the next number. -/
def Numbered (s : RobTimer μ) : Prop :=
  ∀ (i : Nat) (e : RobEntry), s.rob[i]? = some e →
    e.uop.sequenceNumber + s.rob.length = s.nextSequenceNumber + i

def Holds (s : RobTimer μ) (n : Nat) : Prop :=
  ∃ (i : Nat) (e : RobEntry), s.rob[i]? = some e ∧ e.uop.sequenceNumber = n

def Undone (s : RobTimer μ) (n : Nat) : Prop :=
  ∃ (i : Nat) (e : RobEntry), s.rob[i]? = some e ∧ e.uop.sequenceNumber = n ∧ e.done = ⊤

theorem Numbered.unique {s : RobTimer μ} (h : Numbered s) {i j : Nat} {e e' : RobEntry}
    (he : s.rob[i]? = some e) (he' : s.rob[j]? = some e')
    (hsame : e.uop.sequenceNumber = e'.uop.sequenceNumber) : i = j := by
  have hi := h i e he
  have hj := h j e' he'
  omega

theorem findPosition_iff {s : RobTimer μ} (h : Numbered s) {n i : Nat} :
    s.findPosition n = .ok i ↔ ∃ e, s.rob[i]? = some e ∧ e.uop.sequenceNumber = n := by
  unfold findPosition
  rw [List.head?_eq_getElem?]
  cases hfirst : s.rob[0]? with
  | none =>
    have hnil : s.rob.length = 0 := by simpa using hfirst
    constructor
    · intro herror
      cases herror
    · rintro ⟨e, he, -⟩
      have hlt := (List.getElem?_eq_some_iff.mp he).1
      omega
  | some first =>
    have hnumber := h 0 first hfirst
    simp only
    split
    · next hwindow =>
      constructor
      · intro hok
        cases hok
        obtain ⟨e, he⟩ : ∃ e, s.rob[n - first.uop.sequenceNumber]? = some e :=
          ⟨_, List.getElem?_eq_getElem hwindow.2⟩
        have hi := h _ e he
        exact ⟨e, he, by omega⟩
      · rintro ⟨e, he, rfl⟩
        have hi := h i e he
        exact congrArg _ (by omega)
    · next hout =>
      constructor
      · intro herror
        cases herror
      · rintro ⟨e, he, rfl⟩
        have hi := h i e he
        have hlt := (List.getElem?_eq_some_iff.mp he).1
        exact absurd (by omega) hout

theorem entryAt_iff {s : RobTimer μ} {i : Nat} {e : RobEntry} :
    s.entryAt i = .ok e ↔ s.rob[i]? = some e := by
  unfold entryAt
  cases s.rob[i]? <;> simp

theorem getElem?_modifyEntry (s : RobTimer μ) (i j : Nat) (f : RobEntry → RobEntry) :
    (s.modifyEntry i f).rob[j]? = s.rob[j]?.map fun e => if i = j then f e else e := by
  rw [modifyEntry, List.getElem?_modify]
  split <;> simp

/-- An entry after a change, and what it was before. -/
theorem modifyEntry_some {s : RobTimer μ} {i j : Nat} {f : RobEntry → RobEntry} {e' : RobEntry}
    (h : (s.modifyEntry i f).rob[j]? = some e') :
    ∃ e, s.rob[j]? = some e ∧ e' = if i = j then f e else e := by
  rw [getElem?_modifyEntry, Option.map_eq_some_iff] at h
  obtain ⟨e, he, heq⟩ := h
  exact ⟨e, he, heq.symm⟩

/-! ### The dependants of the producers -/

/-- The dependant `n` of a producer, once for each time that `n` depends on it. -/
def newDependants (n : Nat) (dependencies : List Nat) (done : Time) (producer : Nat) : List Nat :=
  if done = ⊤ then List.replicate (dependencies.count producer) n else []

theorem newDependants_append (n : Nat) (l l' : List Nat) (done : Time) (producer : Nat) :
    newDependants n l done producer ++ newDependants n l' done producer =
      newDependants n (l ++ l') done producer := by
  unfold newDependants
  split
  · rw [List.replicate_append_replicate, List.count_append]
  · rfl

theorem newDependants_of_notMem {n producer : Nat} {l : List Nat} (done : Time)
    (h : producer ∉ l) : newDependants n l done producer = [] := by
  unfold newDependants
  split
  · rw [List.count_eq_zero.mpr h, List.replicate_zero]
  · rfl

def linked (n : Nat) (dependencies : List Nat) (e : RobEntry) : RobEntry :=
  { e with dependants :=
      e.dependants ++ newDependants n dependencies e.done e.uop.sequenceNumber }

theorem linked_dependants {n : Nat} {l : List Nat} {e : RobEntry} (h : e.done = ⊤) :
    (linked n l e).dependants =
      e.dependants ++ List.replicate (l.count e.uop.sequenceNumber) n := by
  rw [linked, newDependants, if_pos h]

theorem linked_eq_self {n : Nat} {l : List Nat} {e : RobEntry}
    (h : newDependants n l e.done e.uop.sequenceNumber = []) : linked n l e = e := by
  rw [linked, h, List.append_nil]

theorem linked_append (n : Nat) (l l' : List Nat) (e : RobEntry) :
    linked n l' (linked n l e) = linked n (l ++ l') e := by
  simp only [linked, List.append_assoc, newDependants_append]

/-- The entry with a number has a property. -/
def entryIs (s : RobTimer μ) (p : RobEntry → Bool) (n : Nat) : Bool :=
  s.rob.any fun e => decide (e.uop.sequenceNumber = n) && p e

theorem Numbered.entryIs {s : RobTimer μ} (h : Numbered s) (p : RobEntry → Bool) {i : Nat}
    {e : RobEntry} (he : s.rob[i]? = some e) : s.entryIs p e.uop.sequenceNumber = p e := by
  rw [Bool.eq_iff_iff, RobTimer.entryIs, List.any_eq_true]
  constructor
  · rintro ⟨e', he', hand⟩
    rw [Bool.and_eq_true, decide_eq_true_eq] at hand
    obtain ⟨j, hj⟩ := List.mem_iff_getElem?.mp he'
    obtain rfl := h.unique hj he hand.1
    rw [he] at hj
    obtain rfl := Option.some.inj hj
    exact hand.2
  · intro hp
    exact ⟨e, List.mem_of_getElem? he, by simpa using hp⟩

def isDone (s : RobTimer μ) (n : Nat) : Bool := s.entryIs (fun e => decide (e.done ≠ ⊤)) n

theorem Numbered.isDone {s : RobTimer μ} (h : Numbered s) {i : Nat} {e : RobEntry}
    (he : s.rob[i]? = some e) : s.isDone e.uop.sequenceNumber = decide (e.done ≠ ⊤) :=
  h.entryIs _ he

/-- When a micro-operation is done, as far as the buffer knows. -/
def doneTime (s : RobTimer μ) (n : Nat) : Time :=
  match s.rob.find? fun e => e.uop.sequenceNumber = n with
  | some e => e.done
  | none => ⊤

theorem Numbered.doneTime {s : RobTimer μ} (h : Numbered s) {i : Nat} {e : RobEntry}
    (he : s.rob[i]? = some e) : s.doneTime e.uop.sequenceNumber = e.done := by
  have hsome : (s.rob.find? fun x => x.uop.sequenceNumber = e.uop.sequenceNumber).isSome :=
    List.find?_isSome.mpr ⟨e, List.mem_of_getElem? he, decide_eq_true rfl⟩
  obtain ⟨x, hx⟩ := Option.isSome_iff_exists.mp hsome
  have hnumber := List.find?_some hx
  obtain ⟨j, hj⟩ := List.mem_iff_getElem?.mp (List.mem_of_find?_eq_some hx)
  obtain rfl : j = i := h.unique hj he (of_decide_eq_true hnumber)
  rw [he] at hj
  obtain rfl := Option.some.inj hj
  rw [RobTimer.doneTime, hx]

theorem isDone_iff (s : RobTimer μ) (h : Numbered s) (n : Nat) :
    s.isDone n = true ↔ s.doneTime n ≠ ⊤ := by
  cases hfind : s.rob.find? fun e => e.uop.sequenceNumber = n with
  | none =>
    have hnone : s.isDone n = false := by
      rw [RobTimer.isDone, RobTimer.entryIs, List.any_eq_false]
      intro e he hand
      rw [Bool.and_eq_true] at hand
      exact absurd hand.1 (List.find?_eq_none.mp hfind e he)
    rw [hnone, RobTimer.doneTime, hfind]
    simp
  | some e =>
    obtain ⟨i, hi⟩ := List.mem_iff_getElem?.mp (List.mem_of_find?_eq_some hfind)
    have hnumber := List.find?_some hfind
    rw [← of_decide_eq_true hnumber, h.isDone hi, h.doneTime hi, decide_eq_true_eq]

/-- The latest of those that are done. -/
def latestDone (s : RobTimer μ) (l : List Nat) : Time :=
  (l.toFinset.filter fun d => s.isDone d).sup s.doneTime

theorem latestDone_cons (s : RobTimer μ) (d : Nat) (l : List Nat) :
    s.latestDone (d :: l) =
      if s.isDone d then max (s.doneTime d) (s.latestDone l) else s.latestDone l := by
  rw [latestDone, List.toFinset_cons, Finset.filter_insert]
  split
  · rw [Finset.sup_insert]
    rfl
  · rfl

/-- One producer: it is done, or it has a dependant more. -/
theorem dependOn_spec {s s' : RobTimer μ} (h : Numbered s) {n d : Nat} {readyMax readyMax' : Time}
    {done done' : List Nat} (hstep : dependOn n (s, readyMax, done) d = .ok (s', readyMax', done')) :
    s' = { s with rob := s.rob.map (linked n [d]) } ∧ Holds s d ∧
      done' = done ++ [d].filter s.isDone ∧ readyMax' = max readyMax (s.latestDone [d]) := by
  obtain ⟨i, hfind, hstep⟩ := except_bind_eq_ok.mp hstep
  obtain ⟨e, hentry, hstep⟩ := except_bind_eq_ok.mp hstep
  obtain ⟨e', he, rfl⟩ := (findPosition_iff h).mp hfind
  rw [entryAt_iff, he] at hentry
  obtain rfl := Option.some.inj hentry
  have hisDone := h.isDone he
  have hlatest : s.latestDone [e'.uop.sequenceNumber] =
      if s.isDone e'.uop.sequenceNumber then s.doneTime e'.uop.sequenceNumber else ⊥ := by
    rw [latestDone_cons]
    split
    · exact max_eq_left bot_le
    · rfl
  have hnone : ∀ j x, s.rob[j]? = some x → i ≠ j →
      linked n [e'.uop.sequenceNumber] x = x := fun j x hj hij =>
    linked_eq_self (newDependants_of_notMem _ fun hmem =>
      hij (h.unique he hj (List.mem_singleton.mp hmem).symm))
  by_cases hdone : e'.done = ⊤
  · rw [if_neg (not_not.mpr hdone)] at hstep
    cases hstep
    refine ⟨?_, ⟨i, e', he, rfl⟩, by simp [hisDone, hdone], by simp [hlatest, hisDone, hdone]⟩
    have hrob : s.rob.modify i (fun e => { e with dependants := e.dependants ++ [n] }) =
        s.rob.map (linked n [e'.uop.sequenceNumber]) := by
      refine List.ext_getElem? fun j => ?_
      rw [List.getElem?_modify, List.getElem?_map]
      cases hj : s.rob[j]? with
      | none => rfl
      | some x =>
        by_cases hij : i = j
        · subst hij
          rw [he] at hj
          obtain rfl := Option.some.inj hj
          simp [linked, newDependants, hdone]
        · simp [hnone j x hj hij, hij]
    exact congrArg (fun rob => { s with rob := rob }) hrob
  · rw [if_pos hdone] at hstep
    cases hstep
    refine ⟨?_, ⟨i, e', he, rfl⟩, by simp [hisDone, hdone], ?_⟩
    swap
    · rw [hlatest, hisDone, if_pos (decide_eq_true hdone), h.doneTime he]
    have hrob : s.rob.map (linked n [e'.uop.sequenceNumber]) = s.rob := by
      refine List.ext_getElem? fun j => ?_
      rw [List.getElem?_map]
      cases hj : s.rob[j]? with
      | none => rfl
      | some x =>
        by_cases hij : i = j
        · subst hij
          rw [he] at hj
          obtain rfl := Option.some.inj hj
          rw [Option.map_some, linked_eq_self (if_neg hdone)]
        · rw [Option.map_some, hnone j x hj hij]
    rw [hrob]

theorem isDone_linked (s : RobTimer μ) (n : Nat) (l : List Nat) :
    isDone { s with rob := s.rob.map (linked n l) } = s.isDone := by
  funext d
  rw [isDone, isDone, entryIs, entryIs, List.any_map]
  rfl

theorem doneTime_linked (s : RobTimer μ) (n : Nat) (l : List Nat) :
    doneTime { s with rob := s.rob.map (linked n l) } = s.doneTime := by
  funext d
  rw [doneTime, doneTime, List.find?_map]
  cases hfind : s.rob.find? fun e => e.uop.sequenceNumber = d with
  | none =>
    have hmap : s.rob.find? ((fun e => decide (e.uop.sequenceNumber = d)) ∘ linked n l) = none := hfind
    rw [hmap]
    rfl
  | some e =>
    have hmap : s.rob.find? ((fun e => decide (e.uop.sequenceNumber = d)) ∘ linked n l) = some e :=
      hfind
    rw [hmap]
    rfl

theorem latestDone_linked (s : RobTimer μ) (n : Nat) (l : List Nat) :
    latestDone { s with rob := s.rob.map (linked n l) } = s.latestDone := by
  funext dependencies
  rw [latestDone, latestDone, isDone_linked, doneTime_linked]

theorem holds_linked (s : RobTimer μ) (n : Nat) (l : List Nat) (d : Nat) :
    Holds { s with rob := s.rob.map (linked n l) } d ↔ s.Holds d := by
  simp only [Holds, List.getElem?_map, Option.map_eq_some_iff]
  constructor
  · rintro ⟨i, _, ⟨e, he, rfl⟩, hnumber⟩
    exact ⟨i, e, he, hnumber⟩
  · rintro ⟨i, e, he, hnumber⟩
    exact ⟨i, _, ⟨e, he, rfl⟩, hnumber⟩

theorem Numbered.linked {s : RobTimer μ} (h : Numbered s) (n : Nat) (l : List Nat) :
    Numbered { s with rob := s.rob.map (linked n l) } := by
  intro i e he
  rw [List.getElem?_map, Option.map_eq_some_iff] at he
  obtain ⟨e', he', rfl⟩ := he
  rw [List.length_map]
  exact h i e' he'

/-- All producers. -/
theorem dependOn_all {n : Nat} (dependencies : List Nat) : ∀ {s s' : RobTimer μ}
    {readyMax readyMax' : Time} {done done' : List Nat}, Numbered s →
    dependencies.foldlM (dependOn n) (s, readyMax, done) = .ok (s', readyMax', done') →
    s' = { s with rob := s.rob.map (linked n dependencies) } ∧ (∀ d ∈ dependencies, Holds s d) ∧
      done' = done ++ dependencies.filter s.isDone ∧
      readyMax' = max readyMax (s.latestDone dependencies) := by
  induction dependencies with
  | nil =>
    intro s s' readyMax readyMax' done done' _ h
    rw [List.foldlM_nil] at h
    cases h
    have hnil : s.rob.map (RobTimer.linked n []) = s.rob :=
      List.map_id'' (fun e => linked_eq_self (newDependants_of_notMem _ List.not_mem_nil)) s.rob
    exact ⟨by rw [hnil], fun d hd => absurd hd List.not_mem_nil, by simp,
      (max_eq_left bot_le).symm⟩
  | cons d dependencies ih =>
    intro s s' readyMax readyMax' done done' hn h
    rw [List.foldlM_cons] at h
    obtain ⟨⟨s1, readyMax1, done1⟩, hd, h⟩ := except_bind_eq_ok.mp h
    obtain ⟨rfl, hholds, rfl, rfl⟩ := dependOn_spec hn hd
    obtain ⟨rfl, hrest, rfl, rfl⟩ := ih (hn.linked n [d]) h
    refine ⟨?_, ?_, ?_, ?_⟩
    · simp only [List.map_map]
      rw [show RobTimer.linked n dependencies ∘ RobTimer.linked n [d] =
        RobTimer.linked n (d :: dependencies) from funext fun e => linked_append n [d] dependencies e]
    · intro x hx
      rcases List.mem_cons.mp hx with rfl | hx
      · exact hholds
      · exact (holds_linked s n [d] x).mp (hrest x hx)
    · rw [isDone_linked, List.append_assoc, ← List.filter_append, List.singleton_append]
    · rw [latestDone_linked, latestDone_cons, latestDone_cons s d dependencies, max_assoc]
      split
      · rw [max_assoc]
        exact congrArg (max readyMax) (congrArg (max (s.doneTime d)) (max_eq_right bot_le))
      · exact congrArg (max readyMax) (max_eq_right bot_le)

/-! ### Entering the buffer -/

theorem registers_rewired {deps deps' : RegisterDependencies} {uop uop' : DynamicMicroOp}
    {lowest : Nat} (h : deps.setDependencies uop lowest = .ok (deps', uop')) :
    Rewired uop uop' := by
  obtain ⟨⟨deps1, uop1⟩, hfold, h⟩ := except_bind_eq_ok.mp h
  cases h
  refine foldlM_keeps (I := fun state : RegisterDependencies × DynamicMicroOp =>
    Rewired uop state.2) ?_ (Rewired.refl uop) hfold
  intro state reg state' hstate hstep
  rw [RegisterDependencies.source] at hstep
  split at hstep
  · cases hstep
    exact hstate
  · split at hstep
    · obtain ⟨uop2, hadd, hstep⟩ := except_bind_eq_ok.mp hstep
      cases hstep
      exact hstate.trans (addDependency_rewired hadd)
    · cases hstep
      exact hstate

theorem addMembar_rewired {deps : MemoryDependencies} {uop uop' : DynamicMicroOp} {lowest : Nat}
    (h : deps.addMembar uop lowest = .ok uop') : Rewired uop uop' := by
  rw [MemoryDependencies.addMembar] at h
  split at h
  · split at h
    · exact addDependency_rewired h
    · cases h
      exact Rewired.refl uop
  · cases h
    exact Rewired.refl uop

theorem memory_rewired {deps deps' : MemoryDependencies} {uop uop' : DynamicMicroOp}
    {lowest : Nat} (h : deps.setDependencies uop lowest = .ok (deps', uop')) :
    Rewired uop uop' := by
  rw [MemoryDependencies.setDependencies] at h
  dsimp only at h
  split at h
  · split at h
    · obtain ⟨found, hfound, h⟩ := except_bind_eq_ok.mp h
      obtain ⟨uop1, hmembar, h⟩ := except_bind_eq_ok.mp h
      cases h
      exact (addDependency_rewired hfound).trans (addMembar_rewired hmembar)
    · obtain ⟨found, hfound, h⟩ := except_bind_eq_ok.mp h
      cases hfound
      obtain ⟨uop1, hmembar, h⟩ := except_bind_eq_ok.mp h
      cases h
      exact addMembar_rewired hmembar
  · split at h
    · split at h
      · obtain ⟨uop1, hmembar, h⟩ := except_bind_eq_ok.mp h
        cases h
        exact addMembar_rewired hmembar
      · cases h
    · split at h
      · obtain ⟨uop1, hmembar, h⟩ := except_bind_eq_ok.mp h
        cases h
        exact addMembar_rewired hmembar
      · cases h
        exact Rewired.refl uop

theorem forward_rewired {s : RobTimer μ} {uop uop' : DynamicMicroOp} (hs : uop.Small)
    {l : List Nat} (h : s.forward uop l = .ok uop') : Rewired uop uop' := by
  induction l with
  | nil =>
    rw [forward] at h
    cases h
    exact Rewired.refl uop
  | cons d l ih =>
    rw [forward] at h
    obtain ⟨prodEntry, -, h⟩ := except_bind_eq_ok.mp h
    split at h
    · obtain ⟨uop1, hremove, h⟩ := except_bind_eq_ok.mp h
      refine (removeDependency_drops hs hremove).rewired.trans ?_
      exact foldlM_keeps (fun _ _ _ hstate hstep => hstate.trans (addDependency_rewired hstep))
        (Rewired.refl uop1) h
    · exact ih h

theorem dependencies_rewired {s t : RobTimer μ} {lowest : Nat} {entry : RobEntry}
    {uop : DynamicMicroOp} (hs : entry.uop.Small)
    (h : dependencies cfg s lowest entry = .ok (t, uop)) : Rewired entry.uop uop := by
  obtain ⟨⟨registers, uop1⟩, hregisters, h⟩ := except_bind_eq_ok.mp h
  obtain ⟨⟨memory, uop2⟩, hmemory, h⟩ := except_bind_eq_ok.mp h
  obtain ⟨uop3, hforward, h⟩ := except_bind_eq_ok.mp h
  cases h
  have hrewired := (registers_rewired hregisters).trans (memory_rewired hmemory)
  rw [forwardStore] at hforward
  split at hforward
  · exact hrewired.trans (forward_rewired (hrewired.small hs) hforward)
  · cases hforward
    exact hrewired

theorem addressDependencies_uop {s : RobTimer μ} {lowest : Nat} {entry entry' : RobEntry}
    (h : s.addressDependencies lowest entry = .ok entry') :
    entry'.uop = entry.uop ∧ entry'.readyMax = entry.readyMax := by
  rw [addressDependencies] at h
  split at h
  · obtain ⟨entry1, hfold, h⟩ := except_bind_eq_ok.mp h
    have hkeep : entry1.uop = entry.uop ∧ entry1.readyMax = entry.readyMax := by
      refine foldlM_keeps (I := fun e : RobEntry => e.uop = entry.uop ∧
        e.readyMax = entry.readyMax) ?_ ⟨rfl, rfl⟩ hfold
      intro e reg e' he hstep
      rw [addressRegister] at hstep
      split at hstep
      · cases hstep
        exact he
      · obtain ⟨prodEntry, -, hstep⟩ := except_bind_eq_ok.mp hstep
        split at hstep
        · cases hstep
          exact he
        · cases hstep
          exact he
    cases h
    split
    · exact hkeep
    · exact hkeep
  · cases h
    exact ⟨rfl, rfl⟩

/-- A new entry at the end, and the dependencies that its micro-operation has before those on
producers that are done are removed. -/
def prepare (cfg : RobConfig σ μ) (s : RobTimer μ) (uop : DynamicMicroOp) :
    Except RobAbort (RobTimer μ × RobEntry × DynamicMicroOp) := do
  let entry := RobEntry.init uop s.nextSequenceNumber
  let s := { s with rob := s.rob ++ [entry], nextSequenceNumber := s.nextSequenceNumber + 1 }
  let lowest := match s.rob.head? with
    | some first => first.uop.sequenceNumber
    | none => 0
  let entry ← s.addressDependencies lowest entry
  let (s, uop) ← s.dependencies cfg lowest entry
  return (s, entry, uop)

theorem enqueue_cases {s s' : RobTimer μ} {uop : DynamicMicroOp}
    (h : enqueue cfg s uop = .ok s') : uop.squashed = true ∧ s' = s ∨
      uop.squashed = false ∧ ∃ t entry uop1 u readyMax done uop2,
        prepare cfg s uop = .ok (t, entry, uop1) ∧
        uop1.allDependencies.foldlM (dependOn entry.uop.sequenceNumber)
          (t, entry.readyMax, []) = .ok (u, readyMax, done) ∧
        done.length ≤ 8 ∧ done.foldlM removeDependency uop1 = .ok uop2 ∧
        s' = u.modifyEntry s.rob.length fun e => { e with
          uop := uop2
          addressReady := entry.addressReady
          addressReadyMax := entry.addressReadyMax
          addressProducers := entry.addressProducers
          readyMax := readyMax
          ready := if uop2.getDependenciesLength = 0 then readyMax else ⊤ } := by
  rw [enqueue] at h
  split at h
  · next hsquashed =>
    cases h
    exact .inl ⟨hsquashed, rfl⟩
  · next hsquashed =>
    split at h
    · cases h
    · dsimp only at h
      obtain ⟨entry, haddress, h⟩ := except_bind_eq_ok.mp h
      obtain ⟨⟨t, uop1⟩, hdeps, h⟩ := except_bind_eq_ok.mp h
      obtain ⟨⟨u, readyMax, done⟩, hfold, h⟩ := except_bind_eq_ok.mp h
      dsimp only at h
      split at h
      · cases h
      · next hfit =>
        obtain ⟨uop2, hremove, h⟩ := except_bind_eq_ok.mp h
        cases h
        refine .inr ⟨eq_false_of_ne_true hsquashed, t, entry, uop1, u, readyMax, done, uop2, ?_,
          hfold, Nat.le_of_not_lt hfit, hremove, rfl⟩
        exact except_bind_eq_ok.mpr ⟨entry, haddress, except_bind_eq_ok.mpr ⟨_, hdeps, rfl⟩⟩

/-- What the buffer is before the producers are looked up. -/
structure Prepared (s t : RobTimer μ) (uop : DynamicMicroOp) (entry : RobEntry)
    (uop' : DynamicMicroOp) : Prop where
  rob : t.rob = s.rob ++ [RobEntry.init uop s.nextSequenceNumber]
  next : t.nextSequenceNumber = s.nextSequenceNumber + 1
  numbered : entry.uop = { uop with sequenceNumber := s.nextSequenceNumber }
  readyMax : entry.readyMax = (0 : Nat)
  rewired : Rewired { uop with sequenceNumber := s.nextSequenceNumber } uop'

theorem prepare_spec {s t : RobTimer μ} {uop uop' : DynamicMicroOp} {entry : RobEntry}
    (hs : uop.Small) (h : prepare cfg s uop = .ok (t, entry, uop')) :
    Prepared s t uop entry uop' := by
  obtain ⟨entry1, haddress, h⟩ := except_bind_eq_ok.mp h
  obtain ⟨⟨t1, uop1⟩, hdeps, h⟩ := except_bind_eq_ok.mp h
  cases h
  obtain ⟨huop, hreadyMax⟩ := addressDependencies_uop haddress
  have hrewired := dependencies_rewired (huop.symm ▸ ⟨hs.intra, hs.offset⟩) hdeps
  rw [huop] at hrewired
  obtain ⟨registers, memory, rfl⟩ := dependencies_rob hdeps
  exact ⟨rfl, rfl, huop, hreadyMax, hrewired⟩

theorem Numbered.append {s t : RobTimer μ} (h : Numbered s) {e : RobEntry}
    (he : e.uop.sequenceNumber = s.nextSequenceNumber) (hrob : t.rob = s.rob ++ [e])
    (hnext : t.nextSequenceNumber = s.nextSequenceNumber + 1) : Numbered t := by
  intro i x hx
  rw [hrob] at hx ⊢
  rw [hnext, List.length_append, List.length_singleton]
  by_cases hi : i < s.rob.length
  · rw [List.getElem?_append_left hi] at hx
    have := h i x hx
    omega
  · obtain rfl : i = s.rob.length := by
      have hlt := (List.getElem?_eq_some_iff.mp hx).1
      rw [List.length_append, List.length_singleton] at hlt
      omega
    rw [List.getElem?_concat_length] at hx
    obtain rfl := Option.some.inj hx
    omega

theorem modify_concat {α : Type} (l : List α) (a : α) (f : α → α) :
    (l ++ [a]).modify l.length f = l ++ [f a] := by
  induction l with
  | nil => rfl
  | cons x l ih => exact congrArg (List.cons x) ih

theorem modify_at {α : Type} {l : List α} {i : Nat} {a : α} (h : l[i]? = some a) (f : α → α) :
    l.modify i f = l.modify i (fun _ => f a) := by
  refine List.ext_getElem? fun j => ?_
  rw [List.getElem?_modify, List.getElem?_modify]
  by_cases hij : i = j
  · subst hij
    rw [h]
    simp
  · simp [hij]

/-- What the buffer is after a micro-operation has entered it. -/
structure Entered (s s' : RobTimer μ) (uop : DynamicMicroOp) (dependencies : List Nat)
    (final : RobEntry) : Prop where
  rob : s'.rob = s.rob.map (linked s.nextSequenceNumber dependencies) ++ [final]
  next : s'.nextSequenceNumber = s.nextSequenceNumber + 1
  rewired : Rewired { uop with sequenceNumber := s.nextSequenceNumber } final.uop
  remaining : (dependencies.filter s.isDone ++ final.uop.allDependencies).Perm dependencies
  dependants : final.dependants =
    newDependants s.nextSequenceNumber dependencies ⊤ s.nextSequenceNumber
  done : final.done = ⊤
  readyMax : final.readyMax = s.latestDone dependencies
  ready : final.ready = if final.uop.getDependenciesLength = 0 then final.readyMax else ⊤
  found : ∀ d ∈ dependencies, s.Holds d ∨ d = s.nextSequenceNumber

/-- The producers of the address have been looked up in the tables. -/
structure SameAddress (entry final : RobEntry) : Prop where
  ready : final.addressReady = entry.addressReady
  readyMax : final.addressReadyMax = entry.addressReadyMax
  producers : final.addressProducers = entry.addressProducers

theorem enqueue_entered {s s' : RobTimer μ} {uop : DynamicMicroOp} (hn : Numbered s)
    (hs : uop.Small) (h : enqueue cfg s uop = .ok s') :
    s' = s ∨ ∃ t entry uop' final, prepare cfg s uop = .ok (t, entry, uop') ∧
      Entered s s' uop uop'.allDependencies final ∧ SameAddress entry final := by
  rcases enqueue_cases h with ⟨-, rfl⟩ |
    ⟨-, t, entry, uop1, u, readyMax, done, uop2, hprepare, hfold, -, hremove, rfl⟩
  · exact .inl rfl
  · have ha := prepare_spec hs hprepare
    have hnt : Numbered t := hn.append rfl ha.rob ha.next
    obtain ⟨rfl, hfound, rfl, rfl⟩ := dependOn_all uop1.allDependencies hnt hfold
    have hnumber : entry.uop.sequenceNumber = s.nextSequenceNumber := by rw [ha.numbered]
    have hisDone : t.isDone = s.isDone := by
      funext d
      simp [isDone, entryIs, ha.rob, RobEntry.init]
    have hdoneTime : t.doneTime = s.doneTime := by
      funext d
      rw [doneTime, doneTime, ha.rob, List.find?_append]
      cases s.rob.find? fun e => e.uop.sequenceNumber = d with
      | some e => rfl
      | none =>
        rw [Option.none_or, List.find?_singleton]
        by_cases hnew : decide ((RobEntry.init uop s.nextSequenceNumber).uop.sequenceNumber = d)
        · rw [if_pos hnew]
          rfl
        · rw [if_neg hnew]
    have hsmall : Small { uop with sequenceNumber := s.nextSequenceNumber } :=
      ⟨hs.intra, hs.offset⟩
    obtain ⟨hrewired, hperm⟩ := removeAll_perm _ (ha.rewired.small hsmall) hremove
    rw [List.nil_append, hisDone] at hperm
    have hlast : t.rob.map (linked s.nextSequenceNumber uop1.allDependencies) =
        s.rob.map (linked s.nextSequenceNumber uop1.allDependencies) ++
          [linked s.nextSequenceNumber uop1.allDependencies
            (RobEntry.init uop s.nextSequenceNumber)] := by
      rw [ha.rob, List.map_append, List.map_singleton]
    let readyMax := max entry.readyMax (t.latestDone uop1.allDependencies)
    refine .inr ⟨t, entry, uop1, { linked s.nextSequenceNumber uop1.allDependencies
      (RobEntry.init uop s.nextSequenceNumber) with
        uop := uop2
        addressReady := entry.addressReady
        addressReadyMax := entry.addressReadyMax
        addressProducers := entry.addressProducers
        readyMax := readyMax
        ready := if uop2.getDependenciesLength = 0 then readyMax else ⊤ }, hprepare,
      ⟨?_, ha.next, ha.rewired.trans hrewired, hperm, ?_, rfl, ?_, rfl, ?_⟩, rfl, rfl, rfl⟩
    · rw [hnumber]
      have hlength : s.rob.length =
          (s.rob.map (linked s.nextSequenceNumber uop1.allDependencies)).length := by simp
      simp only [modifyEntry]
      rw [hlast, hlength, modify_concat]
    · rw [linked]
      simp [RobEntry.init]
    · have hzero : entry.readyMax = (⊥ : Time) := ha.readyMax
      have hlatest : t.latestDone uop1.allDependencies = s.latestDone uop1.allDependencies := by
        rw [latestDone, latestDone, hisDone, hdoneTime]
      change max entry.readyMax (t.latestDone uop1.allDependencies) = _
      rw [hzero, hlatest]
      exact max_eq_right bot_le
    · intro d hd
      obtain ⟨i, e, he, rfl⟩ := hfound d hd
      rw [ha.rob] at he
      by_cases hi : i < s.rob.length
      · rw [List.getElem?_append_left hi] at he
        exact .inl ⟨i, e, he, rfl⟩
      · have hnumbers := hnt i e (by rw [ha.rob]; exact he)
        rw [ha.rob, ha.next, List.length_append, List.length_singleton] at hnumbers
        have hlt := (List.getElem?_eq_some_iff.mp he).1
        rw [List.length_append, List.length_singleton] at hlt
        exact .inr (by omega)

end RobTimer

end Sniper.Performance
