import Sniper.Performance.Contention
import Sniper.Performance.Ports
set_option autoImplicit false

/-! What one cycle of issue requests gets from the ports and the units. -/

namespace Sniper.Performance

namespace UopPort

/-- The classes that use the ports 0, 1 and 5. -/
def shared : UopPort → Bool
  | .port2 | .port34 => false
  | _ => true

end UopPort

namespace RobContentionNehalem

/-- The test on the port: by the counters, it is not used up. -/
def available (s : RobContentionNehalem) : UopPort → Bool
  | .port015 => decide (s.portsGeneric < 3)
  | .port05 => decide (s.portsGeneric05 < 2)
  | .port2 => !s.ports .port2
  | .port34 => !s.ports .port34
  | .port1 => !s.ports .port1 && decide (s.portsGeneric < 3)
  | .port0 => !s.ports .port0 && decide (s.portsGeneric < 3) && decide (s.portsGeneric05 < 2)
  | .port5 => !s.ports .port5 && decide (s.portsGeneric < 3) && decide (s.portsGeneric05 < 2)

/-- The test on the unit. -/
def aluBusy (s : RobContentionNehalem) (uop : DynamicMicroOp) : Bool :=
  match uop.alu with
  | some alu => decide (s.now < s.aluUsedUntil alu)
  | none => false

theorem tryPort_isSome (s : RobContentionNehalem) (port : UopPort) :
    (s.tryPort port).isSome = s.available port := by
  cases port <;> simp only [tryPort, available] <;> split <;> simp_all <;> grind

theorem tryPort_none {s : RobContentionNehalem} {port : UopPort} (h : s.available port = false) :
    s.tryPort port = none := by
  have hsome := tryPort_isSome s port
  rwa [h, Option.isSome_eq_false_iff, Option.isNone_iff_eq_none] at hsome

theorem tryPort_now {s s' : RobContentionNehalem} {port : UopPort} (h : s.tryPort port = some s') :
    s'.now = s.now ∧ s'.aluUsedUntil = s.aluUsedUntil := by
  cases port <;> simp only [tryPort] at h <;> split at h <;> cases h <;> exact ⟨rfl, rfl⟩

/-- A port that is taken changes what is left. -/
theorem tryPort_ne {s s' : RobContentionNehalem} {port : UopPort} (h : s.tryPort port = some s') :
    s' ≠ s := by
  rintro rfl
  cases port <;> simp only [tryPort] at h <;> split at h <;>
    simp only [Option.some.injEq, reduceCtorEq] at h
  case port2.isFalse hfree => exact hfree (by rw [← h]; simp [usePort])
  case port34.isFalse hfree => exact hfree (by rw [← h]; simp [usePort])
  all_goals
    have hcount := congrArg portsGeneric h
    have hcount05 := congrArg portsGeneric05 h
    simp only [Nat.add_eq_left, one_ne_zero] at hcount hcount05

theorem tryIssue_fst (s : RobContentionNehalem) (uop : DynamicMicroOp) :
    (s.tryIssue uop).1 = (s.available uop.port && !s.aluBusy uop) := by
  have hsome := tryPort_isSome s uop.port
  cases hport : s.tryPort uop.port with
  | none =>
    rw [hport] at hsome
    simp [tryIssue, hport, ← hsome]
  | some s' =>
    rw [hport] at hsome
    obtain ⟨hnow, halu⟩ := tryPort_now hport
    cases hunit : uop.alu with
    | none => simp [tryIssue, hport, ← hsome, aluBusy, hunit]
    | some alu =>
      simp only [tryIssue, hport, ← hsome, aluBusy, hunit, hnow, halu, Option.isSome_some,
        Bool.true_and]
      rw [← decide_not]
      simp only [not_lt]

/-- The port is taken whether the unit is free or not. -/
theorem tryIssue_snd (s : RobContentionNehalem) (uop : DynamicMicroOp) :
    (s.tryIssue uop).2 = (s.tryPort uop.port).getD s := by
  unfold tryIssue
  cases s.tryPort uop.port with
  | none => rfl
  | some s' => cases uop.alu <;> rfl

variable (aluLatency : MicroOp → Nat)

/-- One request of a cycle; the micro-operation is issued when the answer is yes. -/
def request (s : RobContentionNehalem) (uop : DynamicMicroOp) : RobContentionNehalem :=
  if (s.tryIssue uop).1 then (s.tryIssue uop).2.doIssue aluLatency uop else (s.tryIssue uop).2

/-- The answers to a sequence of requests, and after each whether there is nothing more to issue. -/
def answers : RobContentionNehalem → List DynamicMicroOp → List (Bool × Bool)
  | _, [] => []
  | s, uop :: uops =>
    ((s.tryIssue uop).1, (s.request aluLatency uop).noMore) ::
      answers (s.request aluLatency uop) uops

/-- The micro-operations that are issued. -/
def issued : RobContentionNehalem → List DynamicMicroOp → List DynamicMicroOp
  | _, [] => []
  | s, uop :: uops =>
    if (s.tryIssue uop).1 then uop :: issued (s.request aluLatency uop) uops
    else issued (s.request aluLatency uop) uops

/-- The states that a model goes through: cycles begin, and requests are made in them. What the
ports are before the first cycle is not said. -/
inductive Reachable : RobContentionNehalem → Prop
  | start (ports : UopPort → Bool) (generic generic05 : Nat) :
      Reachable ⟨0, ports, generic, generic05, fun _ => 0⟩
  | initCycle {s : RobContentionNehalem} (now : Nat) (h : Reachable s) :
      Reachable (s.initCycle now)
  | request {s : RobContentionNehalem} (uop : DynamicMicroOp) (h : Reachable s) :
      Reachable (s.request aluLatency uop)

/-- The answers to the requests that are not marked, when all are made. -/
def unmarkedAnswers : RobContentionNehalem → List (DynamicMicroOp × Bool) → List (Bool × Bool)
  | _, [] => []
  | s, (uop, true) :: calls => unmarkedAnswers (s.request aluLatency uop) calls
  | s, (uop, false) :: calls =>
    ((s.tryIssue uop).1, (s.request aluLatency uop).noMore) ::
      unmarkedAnswers (s.request aluLatency uop) calls

/-- Each marked request is refused, and not for its unit with a port at hand. -/
def MarkedRefused : RobContentionNehalem → List (DynamicMicroOp × Bool) → Prop
  | _, [] => True
  | s, (uop, marked) :: calls =>
    (marked = true → (s.tryIssue uop).1 = false ∧
      ¬(s.available uop.port = true ∧ s.aluBusy uop = true)) ∧
    MarkedRefused (s.request aluLatency uop) calls

/-- What is refused for want of a port leaves everything as it was. -/
theorem tryIssue_unavailable {s : RobContentionNehalem} {uop : DynamicMicroOp}
    (h : s.available uop.port = false) : (s.tryIssue uop).2 = s := by
  rw [tryIssue_snd, tryPort_none h, Option.getD_none]

theorem unavailable_of_refused {s : RobContentionNehalem} {uop : DynamicMicroOp}
    (href : (s.tryIssue uop).1 = false)
    (h : ¬(s.available uop.port = true ∧ s.aluBusy uop = true)) :
    s.available uop.port = false := by
  rw [tryIssue_fst] at href
  cases hport : s.available uop.port with
  | false => rfl
  | true => simp_all

theorem request_refused {s : RobContentionNehalem} {uop : DynamicMicroOp}
    (href : (s.tryIssue uop).1 = false)
    (h : ¬(s.available uop.port = true ∧ s.aluBusy uop = true)) :
    s.request aluLatency uop = s := by
  rw [request, href]
  exact tryIssue_unavailable (unavailable_of_refused href h)

theorem unmarkedAnswers_eq (s : RobContentionNehalem) (calls : List (DynamicMicroOp × Bool))
    (h : MarkedRefused aluLatency s calls) :
    unmarkedAnswers aluLatency s calls =
      answers aluLatency s ((calls.filter fun call => !call.2).map Prod.fst) := by
  induction calls generalizing s with
  | nil => rfl
  | cons call calls ih =>
    obtain ⟨uop, marked⟩ := call
    obtain ⟨hcall, hcalls⟩ := h
    cases marked with
    | true =>
      obtain ⟨href, hcond⟩ := hcall rfl
      rw [request_refused aluLatency href hcond] at hcalls
      simpa [unmarkedAnswers, request_refused aluLatency href hcond] using ih s hcalls
    | false => simpa [unmarkedAnswers, answers] using ih _ hcalls

/-- A refusal leaves the ports and the units as they were, and with them all later answers, exactly
when it is not the unit alone that is missing; refusals of the other kind can be put anywhere in a
cycle, and no other answer changes. -/
theorem refused_takes_nothing_iff :
    (∀ (s : RobContentionNehalem) (uop : DynamicMicroOp),
      ((s.tryIssue uop).1 = false → (s.tryIssue uop).2 = s ∧
        ∀ uops, answers aluLatency (s.tryIssue uop).2 uops = answers aluLatency s uops) ↔
      ¬(s.available uop.port = true ∧ s.aluBusy uop = true)) ∧
    ∀ (s : RobContentionNehalem) (calls : List (DynamicMicroOp × Bool)),
      MarkedRefused aluLatency s calls →
      unmarkedAnswers aluLatency s calls =
        answers aluLatency s ((calls.filter fun call => !call.2).map Prod.fst) := by
  refine ⟨fun s uop => ⟨?_, ?_⟩, unmarkedAnswers_eq aluLatency⟩
  · rintro h ⟨hport, hbusy⟩
    have href : (s.tryIssue uop).1 = false := by rw [tryIssue_fst, hport, hbusy]; rfl
    have hsome := tryPort_isSome s uop.port
    rw [hport] at hsome
    obtain ⟨s', hs'⟩ := Option.isSome_iff_exists.mp hsome
    have hsame := (h href).1
    rw [tryIssue_snd, hs', Option.getD_some] at hsame
    exact tryPort_ne hs' hsame
  · intro h href
    have hsame := tryIssue_unavailable (unavailable_of_refused href h)
    exact ⟨hsame, fun uops => by rw [hsame]⟩

/-- A micro-operation of which only the port and the unit matter. -/
def portUop (port : UopPort) (alu : Option Nat) : DynamicMicroOp where
  microOp := ⟨.execute, false, false, false, [], [], []⟩
  sequenceNumber := 0
  address := 0
  phys := 0
  squashed := false
  intraInstructionDependencies := 0
  microOpTypeOffset := 0
  dependencies := []
  execLatency := 0
  branchMispredicted := false
  dCacheHitWhere := none
  iCacheMiss := false
  iCacheLatency := 0
  last := true
  port := port
  alu := alu

theorem refused_takes_nothing_load :
    unmarkedAnswers (fun _ => 1) ⟨1, fun _ => false, 0, 0, fun _ => 0⟩
        [(portUop .port2 none, false), (portUop .port2 none, true), (portUop .port34 none, false)] =
      answers (fun _ => 1) ⟨1, fun _ => false, 0, 0, fun _ => 0⟩
        [portUop .port2 none, portUop .port34 none] :=
  (refused_takes_nothing_iff fun _ => 1).2 ⟨1, fun _ => false, 0, 0, fun _ => 0⟩
    [(portUop .port2 none, false), (portUop .port2 none, true), (portUop .port34 none, false)]
    ⟨nofun, fun _ => by decide, nofun, trivial⟩

/-- A division in one cycle, and in the next another one, which is refused and takes port 0. -/
theorem refused_division_takes_port : ¬ ∀ (s : RobContentionNehalem) (uop : DynamicMicroOp),
    Reachable (fun _ => 20) s → (s.tryIssue uop).1 = false → (s.tryIssue uop).2 = s := by
  intro h
  have hstart : Reachable (fun _ => 20) ⟨0, fun _ => false, 0, 0, fun _ => 0⟩ := .start _ _ _
  have hbusy := ((hstart.initCycle 1).request (portUop .port0 (some 0))).initCycle 2
  have hsame := h _ (portUop .port0 (some 0)) hbusy (by decide)
  have hports := congrArg portsGeneric hsame
  exact absurd hports (by decide)

end RobContentionNehalem

end Sniper.Performance
