import Sniper.Performance.PortIssue
import Mathlib.Data.Fintype.Fin
set_option autoImplicit false

/-! Which cycles issue no more than the ports can take. -/

namespace Sniper.Performance

/-- Each micro-operation has a port of its own, one that its class allows. -/
def Assignable (uops : List DynamicMicroOp) : Prop :=
  ∃ port : Fin uops.length → Port, Function.Injective port ∧
    ∀ i, port i ∈ (uops.get i).port.allowed

def tally (uops : List DynamicMicroOp) (k : UopPort) : Nat :=
  uops.countP fun uop => uop.port = k

@[simp] theorem tally_nil (k : UopPort) : tally [] k = 0 := rfl

@[simp] theorem tally_cons (uop : DynamicMicroOp) (uops : List DynamicMicroOp) (k : UopPort) :
    tally (uop :: uops) k = tally uops k + if uop.port = k then 1 else 0 := by
  simp [tally, List.countP_cons]

/-- The micro-operations that use the ports 0, 1 and 5. -/
def onShared (uops : List DynamicMicroOp) : Nat := uops.countP fun uop => uop.port.shared

theorem onShared_cons (uop : DynamicMicroOp) (uops : List DynamicMicroOp) :
    onShared (uop :: uops) = onShared uops + if uop.port.shared then 1 else 0 := by
  simp [onShared, List.countP_cons]

theorem onShared_eq (uops : List DynamicMicroOp) :
    onShared uops = tally uops .port0 + tally uops .port1 + tally uops .port5 +
      tally uops .port05 + tally uops .port015 := by
  induction uops with
  | nil => rfl
  | cons uop uops ih =>
    rw [onShared_cons, ih]
    simp only [tally_cons]
    cases uop.port <;> simp [UopPort.shared] <;> omega

theorem classCount_get (uops : List DynamicMicroOp) :
    classCount (fun i => (uops.get i).port) = tally uops := by
  funext k
  induction uops with
  | nil => rfl
  | cons uop uops ih =>
    refine (Fin.card_filter_univ_succ fun i => ((uop :: uops).get i).port = k).trans ?_
    rw [tally_cons, ← ih]
    by_cases hk : uop.port = k
    · rw [if_pos hk]
      exact if_pos hk
    · rw [if_neg hk]
      exact if_neg hk

theorem assignable_iff (uops : List DynamicMicroOp) :
    Assignable uops ↔ PortBounds (tally uops) 1 := by
  rw [← classCount_get, ← fits_ports_iff, Lib.Fits.one_iff]
  rfl

namespace RobContentionNehalem

/-- A port of its own is taken by its class alone, and once. -/
theorem tryPort_ports {s s' : RobContentionNehalem} {port : UopPort}
    (h : s.tryPort port = some s') (fixed : UopPort) (h05 : fixed ≠ .port05)
    (h015 : fixed ≠ .port015) :
    (s.ports fixed).toNat + (if port = fixed then 1 else 0) = (s'.ports fixed).toNat := by
  cases port <;> simp only [tryPort, usePort] at h <;> split at h <;> cases h <;>
    cases fixed <;> simp_all

theorem tryPort_generic {s s' : RobContentionNehalem} {port : UopPort}
    (h : s.tryPort port = some s') (hthree : s.portsGeneric ≤ 3) :
    s.portsGeneric + (if port = .port0 ∨ port = .port1 ∨ port = .port5 ∨ port = .port015 then 1
      else 0) = s'.portsGeneric ∧ s'.portsGeneric ≤ 3 := by
  cases port <;> simp only [tryPort, usePort] at h <;> split at h <;> cases h <;> simp <;> omega

theorem tryPort_generic05 {s s' : RobContentionNehalem} {port : UopPort}
    (h : s.tryPort port = some s') (htwo : s.portsGeneric05 ≤ 2) :
    s.portsGeneric05 + (if port = .port0 ∨ port = .port5 ∨ port = .port05 then 1 else 0) =
      s'.portsGeneric05 ∧ s'.portsGeneric05 ≤ 2 := by
  cases port <;> simp only [tryPort, usePort] at h <;> split at h <;> cases h <;> simp <;> omega

/-- The ports and the counters cover what was issued in the cycle. -/
structure Covers (s : RobContentionNehalem) (done : List DynamicMicroOp) : Prop where
  fixed : ∀ port, port ≠ .port05 → port ≠ .port015 → tally done port ≤ (s.ports port).toNat
  generic : tally done .port0 + tally done .port1 + tally done .port5 + tally done .port015 ≤
    s.portsGeneric
  generic05 : tally done .port0 + tally done .port5 + tally done .port05 ≤ s.portsGeneric05
  three : s.portsGeneric ≤ 3
  two : s.portsGeneric05 ≤ 2

namespace Covers

variable {s : RobContentionNehalem} {done : List DynamicMicroOp}

theorem initCycle (now : Nat) (s : RobContentionNehalem) : Covers (s.initCycle now) [] where
  fixed _ _ _ := Nat.zero_le _
  generic := Nat.zero_le _
  generic05 := Nat.zero_le _
  three := Nat.zero_le _
  two := Nat.zero_le _

/-- Only the ports 0, 1 and 5 can have been given out too often. -/
theorem assignable_iff (h : Covers s done) : Assignable done ↔ onShared done ≤ 3 := by
  rw [Performance.assignable_iff, onShared_eq]
  constructor
  · intro hb
    have h015 := hb.port015
    omega
  · intro hle
    have hone : ∀ port, port ≠ .port05 → port ≠ .port015 → tally done port ≤ 1 :=
      fun port h05 h015 => (h.fixed port h05 h015).trans (Bool.toNat_le _)
    have h05 := h.generic05.trans h.two
    exact ⟨hone _ nofun nofun, hone _ nofun nofun, hone _ nofun nofun, hone _ nofun nofun,
      hone _ nofun nofun, h05, hle⟩

/-- A port that is taken and not used is counted all the same. -/
theorem tryPort (h : Covers s done) {port : UopPort} {s' : RobContentionNehalem}
    (hport : s.tryPort port = some s') : Covers s' done := by
  obtain ⟨hgeneric, hthree⟩ := tryPort_generic hport h.three
  obtain ⟨hgeneric05, htwo⟩ := tryPort_generic05 hport h.two
  refine ⟨fun fixed h05 h015 => ?_, ?_, ?_, hthree, htwo⟩
  · exact (h.fixed fixed h05 h015).trans
      ((Nat.le_add_right _ _).trans_eq (tryPort_ports hport fixed h05 h015))
  · exact h.generic.trans ((Nat.le_add_right _ _).trans_eq hgeneric)
  · exact h.generic05.trans ((Nat.le_add_right _ _).trans_eq hgeneric05)

theorem tryPort_cons (h : Covers s done) {uop : DynamicMicroOp} {s' : RobContentionNehalem}
    (hport : s.tryPort uop.port = some s') : Covers s' (uop :: done) := by
  obtain ⟨hgeneric, hthree⟩ := tryPort_generic hport h.three
  obtain ⟨hgeneric05, htwo⟩ := tryPort_generic05 hport h.two
  refine ⟨fun fixed h05 h015 => ?_, ?_, ?_, hthree, htwo⟩
  · rw [tally_cons, ← tryPort_ports hport fixed h05 h015]
    exact Nat.add_le_add_right (h.fixed fixed h05 h015) _
  · have hold := h.generic
    rw [← hgeneric]
    simp only [tally_cons]
    cases uop.port <;> simp <;> omega
  · have hold := h.generic05
    rw [← hgeneric05]
    simp only [tally_cons]
    cases uop.port <;> simp <;> omega

theorem doIssue (h : Covers s done) (aluLatency : MicroOp → Nat) (uop : DynamicMicroOp) :
    Covers (s.doIssue aluLatency uop) done := by
  unfold RobContentionNehalem.doIssue
  split <;> exact ⟨h.fixed, h.generic, h.generic05, h.three, h.two⟩

/-- One request: what is issued is covered as well. -/
theorem request (h : Covers s done) (aluLatency : MicroOp → Nat) (uop : DynamicMicroOp) :
    Covers (s.request aluLatency uop)
      (if (s.tryIssue uop).1 then uop :: done else done) := by
  have hfst := tryIssue_fst s uop
  rw [RobContentionNehalem.request, tryIssue_snd]
  cases hport : s.tryPort uop.port with
  | none =>
    have hsome := tryPort_isSome s uop.port
    rw [hport] at hsome
    rw [← hsome] at hfst
    simp only [hfst, Option.isSome_none, Bool.false_and, Bool.false_eq_true, if_false]
    exact h
  | some s' =>
    split
    · exact (h.tryPort_cons hport).doIssue aluLatency uop
    · exact h.tryPort hport

end Covers

variable (aluLatency : MicroOp → Nat)

/-- A request that is answered with a fourth place on three ports. -/
def Overcommits (done : List DynamicMicroOp) (s : RobContentionNehalem) (uop : DynamicMicroOp) :
    Prop :=
  uop.port.shared = true ∧ 3 ≤ onShared done ∧ s.available uop.port = true ∧
    s.aluBusy uop = false

/-- No request of the cycle overcommits; `done` is what the cycle has issued before them. -/
def NoneOvercommits : List DynamicMicroOp → RobContentionNehalem → List DynamicMicroOp → Prop
  | _, _, [] => True
  | done, s, uop :: uops =>
    ¬Overcommits done s uop ∧
      NoneOvercommits (if (s.tryIssue uop).1 then uop :: done else done)
        (s.request aluLatency uop) uops

variable {aluLatency}

theorem onShared_issued_iff (uops : List DynamicMicroOp) {done : List DynamicMicroOp}
    {s : RobContentionNehalem} (hdone : onShared done ≤ 3) :
    onShared done + onShared (issued aluLatency s uops) ≤ 3 ↔
      NoneOvercommits aluLatency done s uops := by
  induction uops generalizing done s with
  | nil => simpa [NoneOvercommits, issued, onShared] using hdone
  | cons uop uops ih =>
    have hfst := tryIssue_fst s uop
    unfold NoneOvercommits issued
    cases hanswer : (s.tryIssue uop).1 with
    | false =>
      have hno : ¬Overcommits done s uop := by
        rintro ⟨_, _, hport, hbusy⟩
        rw [hanswer, hport, hbusy] at hfst
        cases hfst
      simpa [hno] using @ih done (s.request aluLatency uop) hdone
    | true =>
      rw [hanswer] at hfst
      obtain ⟨hport, hbusy⟩ := Bool.and_eq_true_iff.mp hfst.symm
      simp only [if_true, onShared_cons]
      cases hshared : uop.port.shared with
      | false =>
        have hno : ¬Overcommits done s uop := fun h => by
          have := h.1
          rw [hshared] at this
          cases this
        have hcons : onShared (uop :: done) = onShared done := by simp [onShared_cons, hshared]
        have hrest := @ih (uop :: done) (s.request aluLatency uop)
          (hcons.trans_le hdone)
        rw [hcons] at hrest
        simpa [hno] using hrest
      | true =>
        have hcons : onShared (uop :: done) = onShared done + 1 := by
          simp [onShared_cons, hshared]
        by_cases hthree : 3 ≤ onShared done
        · -- the three ports are in use
          have hyes : Overcommits done s uop := ⟨hshared, hthree, hport, by simpa using hbusy⟩
          simp only [hyes, not_true_eq_false, false_and, iff_false, if_true]
          omega
        · have hno : ¬Overcommits done s uop := fun h => hthree h.2.1
          have hrest := @ih (uop :: done) (s.request aluLatency uop)
            (by rw [hcons]; omega)
          rw [hcons] at hrest
          simp only [hno, not_false_eq_true, true_and, if_true, ← hrest]
          omega

theorem Covers.run (uops : List DynamicMicroOp) {done : List DynamicMicroOp}
    {s : RobContentionNehalem} (h : Covers s done) :
    ∃ s', Covers s' ((issued aluLatency s uops).reverse ++ done) := by
  induction uops generalizing done s with
  | nil => exact ⟨s, h⟩
  | cons uop uops ih =>
    have hrest := ih (h.request aluLatency uop)
    unfold issued
    split
    · next hyes => simpa [hyes] using hrest
    · next hno => simpa [hno] using hrest

theorem assignable_reverse (uops : List DynamicMicroOp) :
    Assignable uops.reverse ↔ Assignable uops := by
  rw [Performance.assignable_iff, Performance.assignable_iff]
  have hsame : tally uops.reverse = tally uops := by
    funext k
    exact (List.reverse_perm uops).countP_eq _
  rw [hsame]

end RobContentionNehalem

end Sniper.Performance
