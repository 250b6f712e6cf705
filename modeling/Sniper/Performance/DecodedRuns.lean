import Sniper.Performance.DecodedInstructions
set_option autoImplicit false

/-! The dependencies in the reorder buffer over whole runs of decoded instructions. -/

namespace Sniper.Performance
open Sniper.Lib DynamicMicroOp

namespace RobState
open DecodedInstruction

variable {σ μ : Type} {cfg : RobConfig σ μ} {mode : Mode} {start s : RobState σ μ}

/-- The runs in which the micro-operations are those of whole instructions, in any order of
instructions and steps, and their numbers fit into 64 bits. -/
inductive DecodedRun (cfg : RobConfig σ μ) (mode : Mode) (start : RobState σ μ) :
    RobState σ μ → Prop where
  | start : DecodedRun cfg mode start start
  | simulate {s : RobState σ μ} {d : DecodedInstruction} {timer : RobTimer μ} :
      DecodedRun cfg mode start s → d.Plain →
      s.timer.nextSequenceNumber + d.uops.length ≤ 2 ^ 64 →
      d.uops.foldlM (RobTimer.enqueue cfg) s.timer = .ok timer →
      DecodedRun cfg mode start { s with timer := timer }
  | execute {s t : RobState σ μ} : DecodedRun cfg mode start s →
      s.execute cfg mode = .ok (some t) → DecodedRun cfg mode start t

theorem DecodedRun.bookkept {loads stores : Nat} {memory : μ} {contention : σ}
    (h : DecodedRun cfg mode (new loads stores memory contention) s) :
    RobTimer.Bookkept cfg (new loads stores memory contention).timer s.timer := by
  induction h with
  | start => exact RobTimer.Bookkept.new loads stores memory contention
  | simulate _ hplain hbounded hfold ih =>
    have hlow := ih.history.links.numbered.lowest_le_next
    rw [← List.take_length (l := DecodedInstruction.uops _)] at hfold
    exact (ih.enter hlow hplain hbounded _ hfold).1
  | execute _ hstep ih =>
    obtain ⟨-, timer, c, e, hcycle, rfl⟩ := execute_some.mp hstep
    exact (RobTimer.bookkept_survives cfg _).cycle ih hcycle

theorem DecodedRun.reachable (h : DecodedRun cfg mode start s) : Reachable cfg mode start s := by
  induction h with
  | start => exact .start
  | simulate _ _ _ hfold ih =>
    refine ih.enqueueAll (fun uop huop => ?_) hfold
    obtain ⟨k, hk⟩ := List.mem_iff_getElem?.mp huop
    exact DecodedInstruction.uops_fresh hk
  | execute _ hstep ih => exact ih.execute hstep

/-- A stream of instructions leads from a state of a run to another. -/
theorem DecodedRun.stream {loads stores : Nat} {memory : μ} {contention : σ}
    {ds : List DecodedInstruction} (h : DecodedRun cfg mode (new loads stores memory contention) s)
    (hplain : ∀ d ∈ ds, d.Plain)
    (hbounded : s.timer.nextSequenceNumber + (ds.flatMap (·.uops)).length ≤ 2 ^ 64)
    {timer : RobTimer μ}
    (hfold : (ds.flatMap (·.uops)).foldlM (RobTimer.enqueue cfg) s.timer = .ok timer) :
    DecodedRun cfg mode (new loads stores memory contention) { s with timer := timer } := by
  induction ds generalizing s with
  | nil =>
    cases hfold
    exact h
  | cons d ds ih =>
    rw [List.flatMap_cons, List.foldlM_append] at hfold
    rw [List.flatMap_cons, List.length_append] at hbounded
    obtain ⟨t, hfirst, hfold⟩ := except_bind_eq_ok.mp hfold
    have hd := hplain d List.mem_cons_self
    have hroom : s.timer.nextSequenceNumber + d.uops.length ≤ 2 ^ 64 := by omega
    have hrun := h.simulate hd hroom hfirst
    rw [← List.take_length (l := d.uops)] at hfirst
    have hnext := (h.bookkept.enter h.bookkept.history.links.numbered.lowest_le_next hd hroom _
      hfirst).2.next
    rw [List.take_length] at hnext
    refine @ih { s with timer := t } hrun (fun d' hd' => hplain d' (List.mem_cons_of_mem d hd')) ?_
      hfold
    change t.nextSequenceNumber + _ ≤ 2 ^ 64
    omega

/-! ### A chain, and instructions that are not plain -/

/-- A chain of two, the first of which takes three cycles, and what comes behind it. -/
def chain : List DecodedInstruction :=
  executeOnly 3 [] [9] :: executeOnly 1 [9] [] :: List.replicate 15 (executeOnly 1 [] [])

theorem chain_plain : ∀ d ∈ chain, d.Plain := by
  intro d hd
  rcases List.mem_cons.mp hd with rfl | hd
  · exact executeOnly_plain _ _ _
  rcases List.mem_cons.mp hd with rfl | hd
  · exact executeOnly_plain _ _ _
  · rw [(List.mem_replicate.mp hd).2]
    exact executeOnly_plain _ _ _

def cycleOf (s : RobState Unit Unit) : Except RobAbort (RobState Unit Unit) := do
  match ← s.execute behindLoad .single with
  | some t => .ok t
  | none => .error .outOfFuel

theorem cycleOf_ok {s t : RobState Unit Unit} (h : cycleOf s = .ok t) :
    s.execute behindLoad .single = .ok (some t) := by
  obtain ⟨after, hafter, h⟩ := except_bind_eq_ok.mp h
  cases after with
  | none => cases h
  | some u =>
    cases h
    exact hafter

/-- The second waits for the first, and a cycle later it is ready before the first is done. -/
def wokenEarly (s t : RobState Unit Unit) : Bool :=
  match s.timer.rob[0]?, s.timer.rob[1]?, t.timer.rob[0]?, t.timer.rob[1]? with
  | some p, some e, some p', some e' =>
    decide (p.done = ⊤) && decide (p.uop.sequenceNumber ∈ e.uop.allDependencies) &&
      decide (p'.uop.sequenceNumber = p.uop.sequenceNumber) &&
      decide (e'.uop.sequenceNumber = e.uop.sequenceNumber) && decide (e'.ready < p'.done)
  | _, _, _, _ => false

/-- The chain after its first cycle, and after the second. -/
def chainRun : Except RobAbort (RobState Unit Unit × RobState Unit Unit) := do
  let timer ← (chain.flatMap (·.uops)).foldlM (RobTimer.enqueue behindLoad) (new 2 2 () ()).timer
  let s ← cycleOf { new 2 2 () () with timer := timer }
  let t ← cycleOf s
  if wokenEarly s t then .ok (s, t) else .error .outOfFuel

theorem chainRun_isOk : chainRun.isOk = true := by decide +kernel

theorem chainRun_woken : ∃ (s t : RobState Unit Unit) (p e p' e' : RobEntry),
    DecodedRun behindLoad .single (new 2 2 () ()) s ∧ s.execute behindLoad .single = .ok (some t) ∧
    p ∈ s.timer.rob ∧ e ∈ s.timer.rob ∧ p' ∈ t.timer.rob ∧ e' ∈ t.timer.rob ∧ p.done = ⊤ ∧
    p.uop.sequenceNumber ∈ e.uop.allDependencies ∧ p'.uop.sequenceNumber = p.uop.sequenceNumber ∧
    e'.uop.sequenceNumber = e.uop.sequenceNumber ∧ e'.ready < p'.done := by
  cases hrun : chainRun with
  | error a => exact absurd chainRun_isOk (by rw [hrun]; exact nofun)
  | ok states =>
    obtain ⟨timer, hstream, hrun⟩ := except_bind_eq_ok.mp hrun
    obtain ⟨s, hs, hrun⟩ := except_bind_eq_ok.mp hrun
    obtain ⟨t, ht, hrun⟩ := except_bind_eq_ok.mp hrun
    have hdecoded := (DecodedRun.stream .start chain_plain (by decide) hstream).execute
      (cycleOf_ok hs)
    have hwoken : wokenEarly s t = true := by
      by_contra hnot
      rw [if_neg hnot] at hrun
      cases hrun
    unfold wokenEarly at hwoken
    split at hwoken
    · next p e p' e' hp he hp' he' =>
      simp only [Bool.and_eq_true, decide_eq_true_eq] at hwoken
      obtain ⟨⟨⟨⟨hdone, hmem⟩, hnumber⟩, hnumber'⟩, hlt⟩ := hwoken
      exact ⟨s, t, p, e, p', e', hdecoded, cycleOf_ok ht, List.mem_of_getElem? hp,
        List.mem_of_getElem? he, List.mem_of_getElem? hp', List.mem_of_getElem? he', hdone, hmem,
        hnumber, hnumber', hlt⟩
    · cases hwoken

/-- Two loads, the second of which reads what the first writes. -/
def loadOfLoad : DecodedInstruction :=
  ofUops 2 0 0 [plainUop .load [] [9], plainUop .load [9] []] (Nat.zero_le 1) rfl (by decide)
    (by decide)

/-- The last of twelve loads can be issued before the others, and the execute depends on three
others too. -/
def twelveLoads : DecodedInstruction :=
  ofUops 12 1 0 (List.replicate 11 (plainUop .load [20] []) ++
    [plainUop .load [] [], plainUop .execute [21, 22, 23] []]) Nat.one_pos rfl (by decide)
    (by decide)

/-- What the twelve loads and their execute depend on waits for fifty cycles. -/
def crowd : List DecodedInstruction :=
  executeOnly 50 [] [30] :: ([20, 21, 22, 23].map fun reg => executeOnly 1 [30] [reg]) ++
    twelveLoads :: List.replicate 25 (executeOnly 1 [] [])

def crowdTimer : Except RobAbort (RobTimer Unit) :=
  (crowd.flatMap (·.uops)).foldlM (RobTimer.enqueue behindLoad) (new 2 2 () ()).timer

def crowdRun (timer : RobTimer Unit) : Except RobAbort (RobState Unit Unit) :=
  run behindLoad .single 10 { new 2 2 () () with timer := timer }

def failureOf {α : Type} : Except RobAbort α → Option RobAbort
  | .error a => some a
  | .ok _ => none

theorem failureOf_eq_some {α : Type} {x : Except RobAbort α} {a : RobAbort}
    (h : failureOf x = some a) : x = .error a := by
  cases x with
  | error b => exact congrArg Except.error (Option.some.inj h)
  | ok y => cases h

end RobState

end Sniper.Performance
