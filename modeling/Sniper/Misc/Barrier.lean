import Sniper.Lib.Machine
import Sniper.Lib.Population
import Mathlib.Logic.Function.Basic
import Mathlib.Logic.Relation
set_option autoImplicit false

/-! A barrier made of a lock and a condition variable, over every interleaving of its threads. -/

namespace Sniper.Misc
open Sniper.Lib

namespace Barrier

/-- Where a thread is in `wait`: before it sees `m_leaving` at 0, before it acquires `m_lock`; the
last one to arrive before its `broadcast` and, with the lock of `m_cond`, before the `FUTEX_WAKE`;
another one in `m_cond.wait`, with `m_lock`, before it has the lock of `m_cond` too, before its
`FUTEX_WAIT`, asleep, and back and before it acquires `m_lock` again. -/
inductive Place where
  | outside
  | leavingLoop
  | acquire
  | broadcast
  | futexWake
  | condWait
  | futexWait
  | asleep
  | reacquire
  deriving DecidableEq, Repr

structure State (P : Type) where
  lock : Option P
  arrived : Int
  leaving : Int
  /-- `m_lock` and `m_futx` of `m_cond`. -/
  condLock : Option P
  futx : Nat
  place : P → Place

/-- A call of `wait`, the next step of the call, or a signal of the system that ends a sleep. -/
inductive Action where
  | wait
  | run
  | interrupt
  deriving DecidableEq, Repr

variable {P : Type} [DecidableEq P]

namespace State

def move (s : State P) (p : P) (x : Place) : State P :=
  { s with place := Function.update s.place p x }

/-- `wait` with `m_lock` acquired, up to its release by the last thread, or up to `m_cond.wait`. -/
def arrive (count : Int) (s : State P) (p : P) : State P :=
  if s.arrived + 1 = count then
    { s with arrived := 0, leaving := count - 1 }.move p .broadcast
  else
    { s with arrived := s.arrived + 1, lock := some p }.move p .condWait

/-- `m_cond.wait` up to its `FUTEX_WAIT`, which releases both locks. -/
def condWait (s : State P) (p : P) : State P :=
  { s with futx := 0, lock := none }.move p .futexWait

/-- `FUTEX_WAIT` sleeps only if the word still is 0. -/
def futexWait (s : State P) (p : P) : State P :=
  s.move p (if s.futx = 0 then .asleep else .reacquire)

def broadcast (s : State P) (p : P) : State P :=
  { s with futx := 1, condLock := some p }.move p .futexWake

def wakeAll (s : State P) : State P :=
  { s with place := fun q => if s.place q = .asleep then .reacquire else s.place q }

/-- `FUTEX_WAKE` of all sleepers, and the end of the call. -/
def futexWake (s : State P) (p : P) : State P := { s.wakeAll with condLock := none }.move p .outside

def leave (s : State P) (p : P) : State P :=
  { s with leaving := s.leaving - 1 }.move p .outside

end State

/-- A step ends a call of `wait` or not. -/
inductive Step (count : Int) : State P → P × Action → Bool → State P → Prop where
  | wait {s : State P} {p : P} (h : s.place p = .outside) :
      Step count s (p, .wait) false (s.move p .leavingLoop)
  | everyoneLeft {s : State P} {p : P} (h : s.place p = .leavingLoop) (hleaving : s.leaving ≤ 0) :
      Step count s (p, .run) false (s.move p .acquire)
  | arrive {s : State P} {p : P} (h : s.place p = .acquire) (hfree : s.lock = none) :
      Step count s (p, .run) false (s.arrive count p)
  | condWait {s : State P} {p : P} (h : s.place p = .condWait) (hfree : s.condLock = none) :
      Step count s (p, .run) false (s.condWait p)
  | futexWait {s : State P} {p : P} (h : s.place p = .futexWait) :
      Step count s (p, .run) false (s.futexWait p)
  | broadcast {s : State P} {p : P} (h : s.place p = .broadcast) (hfree : s.condLock = none) :
      Step count s (p, .run) false (s.broadcast p)
  | futexWake {s : State P} {p : P} (h : s.place p = .futexWake) :
      Step count s (p, .run) true (s.futexWake p)
  | leave {s : State P} {p : P} (h : s.place p = .reacquire) (hfree : s.lock = none) :
      Step count s (p, .run) true (s.leave p)
  | interrupt {s : State P} {p : P} (h : s.place p = .asleep) :
      Step count s (p, .interrupt) false (s.move p .reacquire)

/-- `Barrier(count)`, with nobody in it. -/
def machine (count : Int) : Machine (State P) (P × Action) Bool :=
  ⟨fun s => s = ⟨none, 0, 0, none, 0, fun _ => .outside⟩, Step count⟩

/-- `FUTEX_WAIT` returns only to a wake: the caller would take any other return for one. -/
def Uninterrupted : State P → P × Action → Prop := fun _ i => i.2 ≠ .interrupt

/-- How often a thread has called `wait`. -/
def calls (tr : List ((P × Action) × Bool)) (p : P) : Nat := tr.countP fun e => e.1 = (p, .wait)

/-- How often it has come out of it. -/
def returns (tr : List ((P × Action) × Bool)) (p : P) : Nat :=
  tr.countP fun e => e.1.1 = p ∧ e.2 = true

/-! ### What holds in every state -/

/-- Not yet at the barrier for the present round, or holding up others that come to it. -/
@[grind] def Place.isCurrent : Place → Bool
  | .outside | .leavingLoop | .acquire | .condWait => true
  | _ => false

/-- Past the barrier, but not out of the call. -/
@[grind] def Place.isPrevious : Place → Bool
  | .broadcast | .futexWake | .reacquire => true
  | _ => false

@[grind] def Place.sleeps : Place → Bool
  | .futexWait | .asleep => true
  | _ => false

/-- Counted in `m_arrived`, before the barrier opens. -/
@[grind] def Place.hasArrived : Place → Bool
  | .condWait | .futexWait | .asleep => true
  | _ => false

/-- Counted in `m_leaving`, after it has. -/
@[grind] def Place.leaves : Place → Bool
  | .futexWait | .asleep | .reacquire => true
  | _ => false

@[grind →] theorem Place.of_sleeps {x : Place} (h : x.sleeps = true) : x = .futexWait ∨ x = .asleep := by
  cases x <;> simp_all [sleeps]

@[grind →] theorem Place.of_hasArrived {x : Place} (h : x.hasArrived = true) :
    x = .condWait ∨ x.sleeps = true := by
  cases x <;> simp_all [sleeps, hasArrived]

@[grind →] theorem Place.of_leaves {x : Place} (h : x.leaves = true) :
    x = .reacquire ∨ x.sleeps = true := by
  cases x <;> simp_all [sleeps, leaves]

section
variable [Fintype P]

/-- In round `g`, where `rounds` counts the calls that each thread is through with. While nobody is
leaving, threads gather and the word is 0 for those that sleep. While some are, none of them gets
stuck: the last thread has still to broadcast, or it has stored to the word and the sleepers are
woken next. -/
structure Inv (count : Int) (rounds : P → Nat) (g : Nat) (s : State P) : Prop where
  lock : ∀ p, s.lock = some p ↔ s.place p = .condWait
  condLock : ∀ p, s.condLock = some p ↔ s.place p = .futexWake
  current : ∀ p, (s.place p).isCurrent = true → rounds p = g
  previous : ∀ p, (s.place p).isPrevious = true → rounds p + 1 = g
  sleeping : ∀ p, (s.place p).sleeps = true → rounds p + (if 0 < s.leaving then 1 else 0) = g
  nonneg : 0 ≤ s.leaving
  room : s.arrived < count
  gathers : s.leaving = 0 → s.arrived = population Place.hasArrived s.place ∧
    (∀ p, s.place p ≠ .reacquire) ∧
    ∀ p, (s.place p).sleeps = true → s.futx = 0 ∧ ∀ q, s.place q ≠ .futexWake
  leaves : 0 < s.leaving → s.arrived = 0 ∧ s.leaving = population Place.leaves s.place ∧
    (∀ p, s.place p ≠ .acquire ∧ s.place p ≠ .condWait) ∧
    ((∃ p, s.place p = .broadcast) ∨
      s.futx ≠ 0 ∧ ∀ p, s.place p = .asleep → ∃ q, s.place q = .futexWake)
  broadcast : ∀ p q, s.place p = .broadcast → q ≠ p →
    0 < s.leaving ∧ s.futx = 0 ∧ (s.place q).sleeps = true

variable {count : Int} {rounds : P → Nat} {g : Nat} {s s' : State P} {p q : P} {x : Place}

omit [Fintype P] in
@[grind =] theorem place_move (s : State P) (p q : P) (x : Place) :
    (s.move p x).place q = if q = p then x else s.place q := by
  simp only [State.move, Function.update_apply]

namespace Inv

/-- Nobody is about to broadcast while a thread does not sleep. -/
theorem not_broadcast (hI : Inv count rounds g s) (hp : (s.place p).sleeps = false)
    (hbroadcast : s.place p ≠ .broadcast) (q : P) : s.place q ≠ .broadcast := by
  intro hq
  by_cases hpq : p = q
  · exact hbroadcast (hpq ▸ hq)
  · rw [(hI.broadcast q p hq hpq).2.2] at hp
    exact Bool.noConfusion hp

/-- A thread that has yet to come gets nearer. -/
theorem approach (hI : Inv count rounds g s) (hp : s.place p = .outside ∨ s.place p = .leavingLoop)
    (hx : x = .leavingLoop ∨ x = .acquire ∧ s.leaving ≤ 0) : Inv count rounds g (s.move p x) := by
  have hnobody := hI.not_broadcast (p := p) (by rcases hp with h | h <;> rw [h] <;> rfl)
    (by rcases hp with h | h <;> rw [h] <;> exact Place.noConfusion)
  have harrived := population_update Place.hasArrived s.place p x
  have hleaves := population_update Place.leaves s.place p x
  have hold : (s.place p).hasArrived = false ∧ (s.place p).leaves = false := by
    rcases hp with h | h <;> rw [h] <;> exact ⟨rfl, rfl⟩
  have hnew : x.hasArrived = false ∧ x.leaves = false := by
    rcases hx with rfl | ⟨rfl, -⟩ <;> exact ⟨rfl, rfl⟩
  rw [hold.1, hnew.1] at harrived
  rw [hold.2, hnew.2] at hleaves
  obtain ⟨hlock, hcondLock, hcur, hprev, hsleeping, hnonneg, hroom, hgathers, hleaves', -⟩ := hI
  constructor
  case gathers | leaves => simp only [place_move]; grind [State.move]
  all_goals grind [State.move]

theorem gather (hI : Inv count rounds g s) (hp : s.place p = .acquire) (hfree : s.lock = none)
    (hlast : s.arrived + 1 ≠ count) : Inv count rounds g
      (State.move { s with arrived := s.arrived + 1, lock := some p } p .condWait) := by
  have hnobody := hI.not_broadcast (p := p) (by rw [hp]; rfl) (by rw [hp]; exact Place.noConfusion)
  have harrived := population_update Place.hasArrived s.place p .condWait
  rw [hp] at harrived
  simp only [Place.hasArrived, Bool.toNat_true, Bool.toNat_false] at harrived
  obtain ⟨hlock, hcondLock, hcur, hprev, hsleeping, hnonneg, hroom, hgathers, hleaves, -⟩ := hI
  constructor
  case gathers | leaves => simp only [place_move]; grind [State.move]
  all_goals grind [State.move]

/-- When the last thread arrives, all others are about to sleep or asleep. -/
theorem all_sleep (hcount : count = Fintype.card P) (hI : Inv count rounds g s)
    (hp : s.place p = .acquire) (hfree : s.lock = none) (hlast : s.arrived + 1 = count)
    (hnone : s.leaving = 0) (q : P) (hqp : q ≠ p) : (s.place q).sleeps = true := by
  have harrived := population_update Place.hasArrived s.place p .futexWait
  rw [hp] at harrived
  simp only [Place.hasArrived, Bool.toNat_true, Bool.toNat_false] at harrived
  have hall := (hI.gathers hnone).1
  have hfull := population_eq_card.mp (show population Place.hasArrived
    (Function.update s.place p .futexWait) = Fintype.card P by omega) q
  rw [Function.update_of_ne hqp] at hfull
  have hunlocked := hI.lock q
  grind

/-- The last thread to arrive opens the barrier for all. -/
theorem opens (hcount : count = Fintype.card P) (hI : Inv count rounds g s)
    (hp : s.place p = .acquire) (hfree : s.lock = none) (hlast : s.arrived + 1 = count) :
    Inv count rounds (g + 1)
      (State.move { s with arrived := 0, leaving := count - 1 } p .broadcast) := by
  have hnone : s.leaving = 0 := by
    by_contra hsome
    exact ((hI.leaves (by have := hI.nonneg; omega)).2.2.1 p).1 hp
  have hsleep := hI.all_sleep hcount hp hfree hlast hnone
  have hall := (hI.gathers hnone).1
  have hpop : population Place.leaves (Function.update s.place p .broadcast) =
      population Place.hasArrived s.place := by
    refine total_congr fun q => ?_
    by_cases hqp : q = p
    · rw [hqp, Function.update_self, hp]
      rfl
    · rw [Function.update_of_ne hqp]
      have := hsleep q hqp
      grind
  have hpop' : count = 1 → population Place.hasArrived (Function.update s.place p .broadcast) = 0 := by
    intro hone
    have hzero := population_eq_zero.mp (show population Place.hasArrived s.place = 0 by omega)
    refine population_eq_zero.mpr fun q => ?_
    by_cases hqp : q = p
    · rw [hqp, Function.update_self]
      rfl
    · rw [Function.update_of_ne hqp]
      exact hzero q
  have hmany : ∀ q, q ≠ p → 1 < count := by
    intro q hqp
    have := hsleep q hqp
    have hpos : 0 < population Place.hasArrived s.place := population_pos.mpr ⟨q, by grind⟩
    omega
  obtain ⟨hlock, hcondLock, hcur, hprev, hsleeping, hnonneg, hroom, hgathers, hleaves, -⟩ := hI
  constructor
  case gathers | leaves => simp only [place_move]; grind [State.move]
  case broadcast =>
    intro q r hq hrq
    have hqp : q = p := by
      by_contra hqp
      rw [place_move, if_neg hqp] at hq
      have := hsleep q hqp
      grind
    have hrp : r ≠ p := hqp ▸ hrq
    have := hmany r hrp
    have hzero := (hgathers hnone).2.2 r (hsleep r hrp)
    exact ⟨by simp only [State.move]; omega, hzero.1, by rw [place_move, if_neg hrp]; exact hsleep r hrp⟩
  case sleeping =>
    intro q hq
    have hqp : q ≠ p := by
      rintro rfl
      rw [place_move, if_pos rfl] at hq
      exact Bool.noConfusion hq
    have hone := hsleeping q (hsleep q hqp)
    have hpos : 0 < count - 1 := by have := hmany q hqp; omega
    rw [if_neg (by omega)] at hone
    change rounds q + (if 0 < count - 1 then 1 else 0) = g + 1
    rw [if_pos hpos]
    omega
  all_goals grind [State.move]

theorem condWait (hI : Inv count rounds g s) (hp : s.place p = .condWait)
    (hfree : s.condLock = none) : Inv count rounds g (s.condWait p) := by
  have hnobody := hI.not_broadcast (p := p) (by rw [hp]; rfl) (by rw [hp]; exact Place.noConfusion)
  have harrived := population_update Place.hasArrived s.place p .futexWait
  rw [hp] at harrived
  simp only [Place.hasArrived] at harrived
  obtain ⟨hlock, hcondLock, hcur, hprev, hsleeping, hnonneg, hroom, hgathers, hleaves, -⟩ := hI
  rw [State.condWait]
  constructor
  case gathers | leaves => simp only [place_move]; grind [State.move]
  all_goals grind [State.move]

/-- A thread that finds the word changed is past the barrier. -/
theorem futexWait (hI : Inv count rounds g s) (hp : s.place p = .futexWait) :
    Inv count rounds g (s.futexWait p) := by
  rw [State.futexWait]
  split
  next hzero =>
    have harrived := population_update Place.hasArrived s.place p .asleep
    have hleaves := population_update Place.leaves s.place p .asleep
    rw [hp] at harrived hleaves
    simp only [Place.hasArrived, Place.leaves] at harrived hleaves
    obtain ⟨hlock, hcondLock, hcur, hprev, hsleeping, hnonneg, hroom, hgathers, hleaves', hbroadcast⟩ := hI
    constructor
    case gathers | leaves => simp only [place_move]; grind [State.move]
    case broadcast =>
      intro q r
      have hself := hbroadcast q p
      have hother := hbroadcast q r
      rw [place_move, place_move]
      grind [State.move]
    all_goals grind [State.move]
  next hone =>
    have hleaves := population_update Place.leaves s.place p .reacquire
    rw [hp] at hleaves
    simp only [Place.leaves] at hleaves
    obtain ⟨hlock, hcondLock, hcur, hprev, hsleeping, hnonneg, hroom, hgathers, hleaves', hbroadcast⟩ := hI
    constructor
    case gathers | leaves => simp only [place_move]; grind [State.move]
    case broadcast =>
      intro q r
      have hself := hbroadcast q p
      rw [place_move, place_move]
      grind [State.move]
    all_goals grind [State.move]

theorem broadcasts (hI : Inv count rounds g s) (hp : s.place p = .broadcast)
    (hfree : s.condLock = none) : Inv count rounds g (s.broadcast p) := by
  have harrived := population_update Place.hasArrived s.place p .futexWake
  have hleaves := population_update Place.leaves s.place p .futexWake
  rw [hp] at harrived hleaves
  simp only [Place.hasArrived, Place.leaves] at harrived hleaves
  have halone : s.leaving = 0 → ∀ q, (s.place q).sleeps = false := by
    intro hnone q
    by_cases hqp : q = p
    · rw [hqp, hp]
      rfl
    · exact absurd (hI.broadcast p q hp hqp).1 (by omega)
  obtain ⟨hlock, hcondLock, hcur, hprev, hsleeping, hnonneg, hroom, hgathers, hleaves', hbroadcast⟩ := hI
  rw [State.broadcast]
  constructor
  case gathers | leaves => simp only [place_move]; grind [State.move]
  case broadcast => intro q r; rw [place_move, place_move]; grind [State.move]
  all_goals grind [State.move]

/-- The sleepers are woken: they are past the barrier. -/
theorem futexWake (hI : Inv count rounds g s) (hp : s.place p = .futexWake) :
    Inv count (Function.update rounds p (rounds p + 1)) g (s.futexWake p) := by
  have hplace : ∀ q, (s.futexWake p).place q =
      if q = p then .outside else if s.place q = .asleep then .reacquire else s.place q :=
    fun q => place_move _ p q .outside
  have hleaves : population Place.leaves (s.futexWake p).place = population Place.leaves s.place := by
    refine total_congr fun q => ?_
    rw [hplace]
    grind
  have harrived : s.leaving = 0 →
      population Place.hasArrived (s.futexWake p).place = population Place.hasArrived s.place := by
    intro hnone
    refine total_congr fun q => ?_
    rw [hplace]
    grind [hI.gathers hnone]
  have hnobody := hI.not_broadcast (p := p) (by rw [hp]; rfl) (by rw [hp]; exact Place.noConfusion)
  obtain ⟨hlock, hcondLock, hcur, hprev, hsleeping, hnonneg, hroom, hgathers, hleaves', -⟩ := hI
  constructor
  case gathers =>
    intro hnone
    rw [harrived hnone]
    simp only [hplace]
    grind [State.futexWake, State.wakeAll, State.move]
  case leaves =>
    intro hsome
    rw [hleaves]
    simp only [hplace]
    grind [State.futexWake, State.wakeAll, State.move]
  case nonneg => exact hnonneg
  case room => exact hroom
  all_goals simp only [hplace]; grind [State.futexWake, State.wakeAll, State.move]

theorem leave (hI : Inv count rounds g s) (hp : s.place p = .reacquire)
    (hfree : s.lock = none) :
    Inv count (Function.update rounds p (rounds p + 1)) g (s.leave p) := by
  have hnobody := hI.not_broadcast (p := p) (by rw [hp]; rfl) (by rw [hp]; exact Place.noConfusion)
  have hleaves := population_update Place.leaves s.place p .outside
  rw [hp] at hleaves
  simp only [Place.leaves, Bool.toNat_true, Bool.toNat_false] at hleaves
  have hlast : s.leaving = 1 → (∀ q, q ≠ p → (s.place q).leaves = false) ∧
      population Place.hasArrived (Function.update s.place p .outside) = 0 := by
    intro hone
    have hpop := (hI.leaves (by omega)).2.1
    have hzero := population_eq_zero.mp
      (show population Place.leaves (Function.update s.place p .outside) = 0 by omega)
    refine ⟨fun q hqp => by simpa [hqp] using hzero q, population_eq_zero.mpr fun q => ?_⟩
    have := hzero q
    have := ((hI.leaves (by omega)).2.2.1 q).2
    by_cases hqp : q = p
    · rw [hqp, Function.update_self]
      rfl
    · rw [Function.update_of_ne hqp] at *
      grind
  obtain ⟨hlock, hcondLock, hcur, hprev, hsleeping, hnonneg, hroom, hgathers, hleaves', -⟩ := hI
  rw [State.leave]
  constructor
  case gathers | leaves => simp only [place_move]; grind [State.move]
  all_goals grind [State.move]

theorem arrive (hcount : count = Fintype.card P) (hI : Inv count rounds g s)
    (hp : s.place p = .acquire) (hfree : s.lock = none) :
    ∃ g', Inv count rounds g' (s.arrive count p) := by
  rw [State.arrive]
  split
  next hlast => exact ⟨g + 1, hI.opens hcount hp hfree hlast⟩
  next hlast => exact ⟨g, hI.gather hp hfree hlast⟩

theorem step (hcount : count = Fintype.card P) (hI : Inv count rounds g s) {a : P × Action} {o : Bool}
    (hok : a.2 ≠ .interrupt) (h : Step count s a o s') :
    ∃ g', Inv count (if o then Function.update rounds a.1 (rounds a.1 + 1) else rounds) g' s' := by
  cases h with
  | wait h => exact ⟨g, hI.approach (.inl h) (.inl rfl)⟩
  | everyoneLeft h hleaving => exact ⟨g, hI.approach (.inr h) (.inr ⟨rfl, hleaving⟩)⟩
  | arrive h hfree => exact hI.arrive hcount h hfree
  | condWait h hfree => exact ⟨g, hI.condWait h hfree⟩
  | futexWait h => exact ⟨g, hI.futexWait h⟩
  | broadcast h hfree => exact ⟨g, hI.broadcasts h hfree⟩
  | futexWake h => exact ⟨g, hI.futexWake h⟩
  | leave h hfree => exact ⟨g, hI.leave h hfree⟩
  | interrupt => exact absurd rfl hok

omit [DecidableEq P] in
theorem init (hcount : 0 < count) :
    Inv count (fun _ : P => 0) 0 ⟨none, 0, 0, none, 0, fun _ => .outside⟩ := by
  have hempty : population Place.hasArrived (fun _ : P => Place.outside) = 0 :=
    population_eq_zero.mpr fun _ => rfl
  constructor <;> grind

end Inv

omit [Fintype P] in
theorem returns_next (tr : List ((P × Action) × Bool)) (a : P × Action) (o : Bool) :
    returns (tr ++ [(a, o)]) =
      if o then Function.update (returns tr) a.1 (returns tr a.1 + 1) else returns tr := by
  funext p
  rw [returns, List.countP_append, List.countP_singleton]
  cases o with
  | false => simp [returns]
  | true =>
    by_cases hp : p = a.1
    · subst hp
      simp [returns]
    · simp [returns, hp, Ne.symm hp]

theorem inv_run (hcount : count = Fintype.card P) {tr : List ((P × Action) × Bool)}
    (h : Run (machine count) Uninterrupted tr s) (hpos : 0 < count) :
    ∃ g, Inv count (returns tr) g s := by
  induction h with
  | start h =>
    subst h
    exact ⟨0, Inv.init hpos⟩
  | @next tr s s' a o _ hok hstep ih =>
    obtain ⟨g, hI⟩ := ih
    rw [returns_next]
    exact hI.step hcount hok hstep

omit [Fintype P] in
theorem Step.outside {a : P × Action} {o : Bool} (h : Step count s a o s') (p : P) :
    (if s'.place p = .outside then 0 else 1) + (if a.1 = p ∧ o = true then 1 else 0) =
      (if s.place p = .outside then 0 else 1) + if a = (p, .wait) then 1 else 0 := by
  cases h with
  | arrive h hfree =>
    rw [State.arrive]
    split <;> grind
  | condWait h hfree =>
    rw [State.condWait]
    grind
  | futexWait h =>
    rw [State.futexWait]
    grind
  | broadcast h hfree =>
    rw [State.broadcast]
    grind
  | futexWake h =>
    rw [State.futexWake, place_move]
    grind [State.wakeAll]
  | leave h hfree =>
    rw [State.leave]
    grind
  | _ => grind

omit [Fintype P] in
/-- A thread in `wait` has made one call more than it has come out of. -/
theorem calls_eq {ok : State P → P × Action → Prop} {tr : List ((P × Action) × Bool)}
    (h : Run (machine count) ok tr s) (p : P) :
    calls tr p = returns tr p + if s.place p = .outside then 0 else 1 := by
  induction h with
  | start h =>
    subst h
    rfl
  | @next tr s s' a o _ hok hstep ih =>
    have hout := hstep.outside p
    simp only [calls, returns, List.countP_append, List.countP_singleton, decide_eq_true_eq] at ih ⊢
    omega

/-- A call makes its next step. -/
def RunStep (count : Int) (s s' : State P) : Prop := ∃ p o, Step count s (p, .run) o s'

/-- How far from the end of its call a thread is. -/
def Place.rank : Place → Nat
  | .outside => 0
  | .futexWake | .reacquire => 1
  | .broadcast | .asleep => 2
  | .futexWait => 3
  | .condWait => 4
  | .acquire => 5
  | .leavingLoop => 6

theorem rank_move (h : x.rank < (s.place p).rank) :
    total Place.rank (s.move p x).place < total Place.rank s.place := by
  have := total_update Place.rank s.place p x
  simp only [State.move]
  omega

theorem RunStep.rank_lt (h : RunStep count s s') :
    total Place.rank s'.place < total Place.rank s.place := by
  obtain ⟨p, o, h⟩ := h
  cases h with
  | everyoneLeft h => exact rank_move (by rw [h]; decide)
  | arrive h =>
    rw [State.arrive]
    split <;> exact rank_move (by dsimp only; rw [h]; decide)
  | condWait h => exact rank_move (by dsimp only; rw [h]; decide)
  | futexWait h => exact rank_move (by rw [h]; split <;> decide)
  | broadcast h => exact rank_move (by dsimp only; rw [h]; decide)
  | futexWake h =>
    refine Nat.lt_of_lt_of_le (rank_move (p := p) ?_) (total_le fun q => ?_)
    · simp only [State.wakeAll, h, reduceCtorEq, if_false]
      decide
    · simp only [State.wakeAll]
      split
      next hsleep =>
        rw [hsleep]
        decide
      next => exact Nat.le_refl _
  | leave h => exact rank_move (by dsimp only; rw [h]; decide)

theorem acc_runStep (s : State P) : Acc (fun s' s => RunStep count s s') s :=
  (Subrelation.wf RunStep.rank_lt (measure fun s : State P => total Place.rank s.place).wf).apply s

/-- Where no call can make a step, threads are out or asleep, and no barrier is half open. -/
theorem Inv.quiet (hI : Inv count rounds g s) (hquiet : ∀ s', ¬RunStep count s s') :
    s.leaving = 0 ∧ ∀ p, s.place p = .outside ∨ s.place p = .asleep := by
  have hcondLock : s.condLock = none := by
    cases h : s.condLock with
    | none => rfl
    | some p => exact absurd ⟨p, _, .futexWake ((hI.condLock p).mp h)⟩ (hquiet _)
  have hlock : s.lock = none := by
    cases h : s.lock with
    | none => rfl
    | some p => exact absurd ⟨p, _, .condWait ((hI.lock p).mp h) hcondLock⟩ (hquiet _)
  have hplace : ∀ p, s.place p = .outside ∨ s.place p = .asleep ∨
      s.place p = .leavingLoop ∧ 0 < s.leaving := by
    intro p
    cases hp : s.place p with
    | outside => exact .inl rfl
    | asleep => exact .inr (.inl rfl)
    | leavingLoop =>
      refine .inr (.inr ⟨rfl, ?_⟩)
      by_contra hnone
      exact hquiet _ ⟨p, _, .everyoneLeft hp (by omega)⟩
    | acquire => exact absurd ⟨p, _, .arrive hp hlock⟩ (hquiet _)
    | broadcast => exact absurd ⟨p, _, .broadcast hp hcondLock⟩ (hquiet _)
    | futexWake => exact absurd ⟨p, _, .futexWake hp⟩ (hquiet _)
    | condWait => exact absurd ⟨p, _, .condWait hp hcondLock⟩ (hquiet _)
    | futexWait => exact absurd ⟨p, _, .futexWait hp⟩ (hquiet _)
    | reacquire => exact absurd ⟨p, _, .leave hp hlock⟩ (hquiet _)
  have hnone : s.leaving = 0 := by
    by_contra hsome
    obtain ⟨-, hpop, -, hwake⟩ := hI.leaves (by have := hI.nonneg; omega)
    obtain ⟨p, hp⟩ := population_pos.mp (show 0 < population Place.leaves s.place by omega)
    grind
  exact ⟨hnone, fun p => by grind⟩

/-- The threads of a barrier, as many as it counts: whichever way they are interleaved, none comes
out of its call for a round before all have called for that round. And once no more calls are made,
the calls under way come to their end: who then still sleeps waits for somebody who has not called
for the round. -/
theorem rounds_return {tr : List ((P × Action) × Bool)}
    (h : Run (machine (Fintype.card P)) Uninterrupted tr s) :
    (∀ p q, returns tr p ≤ calls tr q) ∧
      Acc (fun s' s => RunStep (Fintype.card P) s s') s ∧
      ((∀ s', ¬RunStep (Fintype.card P) s s') → ∀ p, s.place p = .outside ∨
        s.place p = .asleep ∧ ∃ q, s.place q = .outside ∧ calls tr q = returns tr p) := by
  have hinv : ∀ p : P, ∃ g, Inv (Fintype.card P) (returns tr) g s := fun p =>
    inv_run rfl h (by have := Fintype.card_pos_iff.mpr ⟨p⟩; omega)
  refine ⟨fun p q => ?_, acc_runStep s, fun hquiet p => ?_⟩
  · obtain ⟨g, hI⟩ := hinv p
    have hcalls := calls_eq h q
    have hp : returns tr p ≤ g := by
      have := hI.current p
      have := hI.previous p
      have := hI.sleeping p
      cases hx : s.place p <;> grind
    have hq : g ≤ calls tr q := by
      have := hI.current q
      have := hI.previous q
      have := hI.sleeping q
      cases hx : s.place q <;> grind
    omega
  · obtain ⟨g, hI⟩ := hinv p
    obtain ⟨hnone, hplace⟩ := hI.quiet hquiet
    refine (hplace p).imp_right fun hp => ⟨hp, ?_⟩
    have hmissing : ∃ q, s.place q = .outside := by
      by_contra hnobody
      have hall := population_eq_card.mpr fun q =>
        show (s.place q).hasArrived = true by
          rw [(hplace q).resolve_left (not_exists.mp hnobody q)]
          rfl
      have := hI.room
      have := (hI.gathers hnone).1
      omega
    obtain ⟨q, hq⟩ := hmissing
    refine ⟨q, hq, ?_⟩
    have hsleeps := hI.sleeping p (by rw [hp]; rfl)
    rw [hnone] at hsleeps
    have hcalls := calls_eq h q
    rw [if_pos hq, hI.current q (by rw [hq]; rfl)] at hcalls
    rw [hcalls]
    exact hsleeps.symm

end

/-- One of two threads arrives and sleeps. -/
def sampleSleeps : State Bool :=
  State.futexWait (State.condWait (State.arrive (Fintype.card Bool)
    (State.move (State.move ⟨none, 0, 0, none, 0, fun _ => .outside⟩ true .leavingLoop) true .acquire)
    true) true) true

/-- The other one arrives, opens the barrier and wakes it. -/
def sampleWakes : State Bool :=
  ((((sampleSleeps.move false .leavingLoop).move false .acquire).arrive (Fintype.card Bool)
    false).broadcast false).futexWake false

def sampleTrace : List ((Bool × Action) × Bool) :=
  [((true, .wait), false), ((true, .run), false), ((true, .run), false), ((true, .run), false),
    ((true, .run), false), ((false, .wait), false), ((false, .run), false), ((false, .run), false),
    ((false, .run), false), ((false, .run), true), ((true, .run), true)]

theorem sample_run :
    Run (machine (Fintype.card Bool)) Uninterrupted sampleTrace (sampleWakes.leave true) := by
  have hrun : ∀ (s : State Bool) p, Uninterrupted s (p, .run) := fun _ _ => Action.noConfusion
  have hwait : ∀ (s : State Bool) p, Uninterrupted s (p, .wait) := fun _ _ => Action.noConfusion
  have hcalls : Run (machine (Fintype.card Bool)) Uninterrupted _ _ :=
    Run.next (.start rfl) (hwait _ _) (.wait (p := true) rfl)
  have hacquires := hcalls.next (hrun _ _) (.everyoneLeft (p := true) rfl (by decide))
  have harrives := hacquires.next (hrun _ _) (.arrive (p := true) rfl rfl)
  have hwaits := harrives.next (hrun _ _) (.condWait (p := true) rfl rfl)
  have hsleeps := hwaits.next (hrun _ _) (.futexWait (p := true) rfl)
  have hcalls' := hsleeps.next (hwait _ _) (.wait (p := false) rfl)
  have hacquires' := hcalls'.next (hrun _ _) (.everyoneLeft (p := false) rfl (by decide))
  have harrives' := hacquires'.next (hrun _ _) (.arrive (p := false) rfl rfl)
  have hbroadcasts := harrives'.next (hrun _ _) (.broadcast (p := false) rfl rfl)
  have hwakes := hbroadcasts.next (hrun _ _) (.futexWake (p := false) rfl)
  exact hwakes.next (hrun _ _) (.leave (p := true) rfl rfl)

theorem rounds_return_sample :
    (∀ p q, returns sampleTrace p ≤ calls sampleTrace q) ∧
      Acc (fun s' s => RunStep (Fintype.card Bool) s s') (sampleWakes.leave true) ∧
      ((∀ s', ¬RunStep (Fintype.card Bool) (sampleWakes.leave true) s') → ∀ p,
        (sampleWakes.leave true).place p = .outside ∨
        (sampleWakes.leave true).place p = .asleep ∧
          ∃ q, (sampleWakes.leave true).place q = .outside ∧
            calls sampleTrace q = returns sampleTrace p) :=
  rounds_return sample_run

end Barrier

end Sniper.Misc
