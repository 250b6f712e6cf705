import Sniper.Lib.Machine
import Sniper.Lib.Population
import Mathlib.Logic.Function.Basic
import Mathlib.Logic.Relation
set_option autoImplicit false

/-! A counting semaphore made of a lock and a futex word, over every interleaving of the threads
that call it. -/

namespace Sniper.Misc
open Sniper.Lib

namespace Semaphore

/-- How many sleepers `FUTEX_WAKE` is to wake: 1 in `signal`, `INT_MAX` in `broadcast`. -/
inductive Wake where
  | one | all
  deriving DecidableEq, Repr

/-- Where a thread is in `wait`, `signal` or `broadcast`: before it acquires `_lock`, before its
`FUTEX_WAIT`, asleep in it, back from it and before it acquires `_lock` again, or between the store
to `_futx` and its `FUTEX_WAKE`, with the lock. -/
inductive Place where
  | outside
  | waitAcquire
  | futexWait
  | asleep
  | waitReacquire
  | signalAcquire (wake : Wake)
  | futexWake (wake : Wake)
  deriving DecidableEq, Repr

structure State (P : Type) where
  lock : Option P
  count : Int
  numWaiting : Int
  futx : Nat
  place : P → Place

/-- A call of `wait`, of `signal` or `broadcast`, the next step of a call, or a signal of the
system that ends a sleep. -/
inductive Action where
  | wait
  | signal (wake : Wake)
  | run
  | interrupt
  deriving DecidableEq, Repr

/-- What a step does to `_count`. -/
inductive Done where
  | took | posted
  deriving DecidableEq, Repr

variable {P : Type} [DecidableEq P]

namespace State

def move (s : State P) (p : P) (x : Place) : State P :=
  { s with place := Function.update s.place p x }

/-- The head of the loop of `wait`, with the lock: a unit is taken, or the thread goes to wait. -/
def test (s : State P) (p : P) : State P × Option Done :=
  if s.count ≤ 0 then
    ({ s with numWaiting := s.numWaiting + 1, futx := 0 }.move p .futexWait, none)
  else
    ({ s with count := s.count - 1 }.move p .outside, some .took)

/-- What `wait` does first when `FUTEX_WAIT` has returned and it has the lock again. -/
def back (s : State P) : State P := { s with numWaiting := s.numWaiting - 1 }

/-- `signal` and `broadcast` up to their `FUTEX_WAKE`; without waiting threads they are done. -/
def post (s : State P) (p : P) (wake : Wake) : State P :=
  if 0 < s.numWaiting then
    { s with count := s.count + 1, futx := 1, lock := some p }.move p (.futexWake wake)
  else
    { s with count := s.count + 1 }.move p .outside

/-- `FUTEX_WAIT` sleeps only if the word still is 0. -/
def futexWait (s : State P) (p : P) : State P :=
  s.move p (if s.futx = 0 then .asleep else .waitReacquire)

def wakeOne (s : State P) (q : P) : State P := s.move q .waitReacquire

def wakeAll (s : State P) : State P :=
  { s with place := fun q => if s.place q = .asleep then .waitReacquire else s.place q }

/-- The end of `signal` and `broadcast`. -/
def release (s : State P) (p : P) : State P := { s with lock := none }.move p .outside

end State

/-- What a thread does between acquiring and releasing the lock is one step, but for `signal` and
`broadcast`: a `FUTEX_WAIT`, which needs no lock, may come between their store and their wake. -/
inductive Step : State P → P × Action → Option Done → State P → Prop where
  | wait {s : State P} {p : P} (h : s.place p = .outside) :
      Step s (p, .wait) none (s.move p .waitAcquire)
  | signal {s : State P} {p : P} {wake : Wake} (h : s.place p = .outside) :
      Step s (p, .signal wake) none (s.move p (.signalAcquire wake))
  | acquire {s : State P} {p : P} (h : s.place p = .waitAcquire) (hfree : s.lock = none) :
      Step s (p, .run) (s.test p).2 (s.test p).1
  | reacquire {s : State P} {p : P} (h : s.place p = .waitReacquire) (hfree : s.lock = none) :
      Step s (p, .run) (s.back.test p).2 (s.back.test p).1
  | futexWait {s : State P} {p : P} (h : s.place p = .futexWait) :
      Step s (p, .run) none (s.futexWait p)
  | post {s : State P} {p : P} {wake : Wake} (h : s.place p = .signalAcquire wake)
      (hfree : s.lock = none) : Step s (p, .run) (some .posted) (s.post p wake)
  | wakeOne {s : State P} {p q : P} (h : s.place p = .futexWake .one) (hq : s.place q = .asleep) :
      Step s (p, .run) none ((s.wakeOne q).release p)
  | wakeNone {s : State P} {p : P} (h : s.place p = .futexWake .one)
      (hnone : ∀ q, s.place q ≠ .asleep) : Step s (p, .run) none (s.release p)
  | wakeAll {s : State P} {p : P} (h : s.place p = .futexWake .all) :
      Step s (p, .run) none (s.wakeAll.release p)
  | interrupt {s : State P} {p : P} (h : s.place p = .asleep) :
      Step s (p, .interrupt) none (s.move p .waitReacquire)

/-- `Semaphore(count)`, with no call under way. -/
def machine (count : Int) : Machine (State P) (P × Action) (Option Done) :=
  ⟨fun s => s = ⟨none, count, 0, 0, fun _ => .outside⟩, Step⟩

/-- How many calls of `wait` have taken a unit. -/
def taken (tr : List ((P × Action) × Option Done)) : Nat := tr.countP fun e => e.2 = some .took

/-- How many calls of `signal` and `broadcast` have added one. -/
def posted (tr : List ((P × Action) × Option Done)) : Nat := tr.countP fun e => e.2 = some .posted


/-! ### What holds in every state -/

/-- Counted in `_numWaiting`. -/
def Place.isWaiting : Place → Bool
  | .futexWait | .asleep | .waitReacquire => true
  | _ => false

/-- On the way to look at `_count` again, or to wake somebody who will. -/
def Place.isStirring : Place → Bool
  | .futexWait | .waitReacquire | .futexWake _ => true
  | _ => false

/-- The thread has the lock. -/
def Place.hasLock : Place → Bool
  | .futexWake _ => true
  | _ => false

section
variable [Fintype P]

/-- `_futx` is 1 while a unit is there and somebody is about to wait, and nobody oversleeps: as
many threads as there are units are stirring. -/
structure Inv (s : State P) : Prop where
  lock : ∀ p, s.lock = some p ↔ (s.place p).hasLock = true
  numWaiting : s.numWaiting = population Place.isWaiting s.place
  word : 0 < s.count → ∀ p, s.place p = .futexWait → s.futx ≠ 0
  stirring : ∀ p, s.place p = .asleep → s.count ≤ population Place.isStirring s.place

variable {s s' : State P} {p q : P} {wake : Wake} {x : Place}

namespace Inv

omit [DecidableEq P] in
theorem not_hasLock (hI : Inv s) (h : s.lock = none) (p : P) : (s.place p).hasLock = false := by
  rw [Bool.eq_false_iff, ne_eq, ← hI.lock p, h]
  exact (Option.some_ne_none p).symm

/-- A thread moves between places that count for the same, or wakes, or goes to sleep while no
unit is there. -/
theorem move (hI : Inv s) (hlock : (s.place p).hasLock = false) (hlock' : x.hasLock = false)
    (hwaits : x.isWaiting = (s.place p).isWaiting) (hx : x ≠ .futexWait)
    (hstirs : s.count ≤ 0 ∨ x ≠ .asleep ∧ ((s.place p).isStirring = true → x.isStirring = true)) :
    Inv (s.move p x) := by
  have hw := population_update Place.isWaiting s.place p x
  have hs := population_update Place.isStirring s.place p x
  rw [hwaits] at hw
  refine ⟨fun q => ?_, ?_, fun hcount q hq => ?_, fun q hq => ?_⟩
  · by_cases hqp : q = p
    · subst hqp
      simp only [State.move, Function.update_self]
      rw [hlock', hI.lock q, hlock]
    · simp only [State.move, Function.update_of_ne hqp]
      exact hI.lock q
  · have := hI.numWaiting
    simp only [State.move]
    omega
  · by_cases hqp : q = p
    · subst hqp
      exact absurd (by simpa [State.move] using hq) hx
    · exact hI.word hcount q (by simpa [State.move, hqp] using hq)
  · simp only [State.move]
    rcases hstirs with hnone | ⟨hawake, hstirs⟩
    · omega
    · have hle : (s.place p).isStirring.toNat ≤ x.isStirring.toNat := by
        cases h : (s.place p).isStirring with
        | false => exact Nat.zero_le _
        | true => rw [hstirs h]
      have hqp : q ≠ p := by
        rintro rfl
        exact hawake (by simpa [State.move] using hq)
      have := hI.stirring q (by simpa [State.move, hqp] using hq)
      omega

/-- The head of the loop, for a thread that `_numWaiting` does not count any more. -/
theorem test (hfree : s.lock = none) (hlock : ∀ q, (s.place q).hasLock = false)
    (hnum : s.numWaiting + (s.place p).isWaiting.toNat = population Place.isWaiting s.place)
    (hword : 0 < s.count → ∀ q, s.place q = .futexWait → s.futx ≠ 0)
    (hstirring : ∀ q, s.place q = .asleep → s.count ≤ population Place.isStirring s.place)
    (hp : s.place p ≠ .asleep) : Inv (s.test p).1 := by
  rw [State.test]
  split
  next hcount =>
    have hw := population_update Place.isWaiting s.place p .futexWait
    rw [show Place.futexWait.isWaiting.toNat = 1 from rfl] at hw
    refine ⟨fun q => ?_, ?_, fun h => absurd h (not_lt.mpr hcount), fun q hq => ?_⟩
    · simp only [State.move, hfree, reduceCtorEq, false_iff, Bool.not_eq_true]
      by_cases hqp : q = p
      · subst hqp
        rw [Function.update_self]
        rfl
      · rw [Function.update_of_ne hqp]
        exact hlock q
    · simp only [State.move]
      omega
    · simp only [State.move]
      omega
  next hcount =>
    have hw := population_update Place.isWaiting s.place p .outside
    have hs := population_update Place.isStirring s.place p .outside
    rw [show Place.outside.isWaiting.toNat = 0 from rfl] at hw
    have hone : (s.place p).isStirring.toNat ≤ 1 := Bool.toNat_le _
    refine ⟨fun q => ?_, ?_, fun h q hq => ?_, fun q hq => ?_⟩
    · simp only [State.move, hfree, reduceCtorEq, false_iff, Bool.not_eq_true]
      by_cases hqp : q = p
      · subst hqp
        rw [Function.update_self]
        rfl
      · rw [Function.update_of_ne hqp]
        exact hlock q
    · simp only [State.move]
      omega
    · have hqp : q ≠ p := by
        rintro rfl
        simp [State.move] at hq
      exact hword (by omega) q (by simpa [State.move, hqp] using hq)
    · have hqp : q ≠ p := by
        rintro rfl
        simp [State.move] at hq
      have := hstirring q (by simpa [State.move, hqp] using hq)
      simp only [State.move]
      omega

theorem acquire (hI : Inv s) (h : s.place p = .waitAcquire) (hfree : s.lock = none) :
    Inv (s.test p).1 := by
  refine test hfree (hI.not_hasLock hfree) ?_ hI.word hI.stirring (by rw [h]; exact Place.noConfusion)
  rw [h, hI.numWaiting]
  rfl

theorem reacquire (hI : Inv s) (h : s.place p = .waitReacquire) (hfree : s.lock = none) :
    Inv (s.back.test p).1 := by
  refine test (s := s.back) hfree (hI.not_hasLock hfree) ?_ hI.word hI.stirring
    (by rw [State.back, h]; exact Place.noConfusion)
  have := hI.numWaiting
  simp only [State.back, h, Place.isWaiting, Bool.toNat_true]
  omega

theorem futexWait (hI : Inv s) (h : s.place p = .futexWait) : Inv (s.futexWait p) := by
  rw [State.futexWait]
  split
  next hzero =>
    refine hI.move (by rw [h]; rfl) rfl (by rw [h]; rfl) Place.noConfusion (.inl ?_)
    by_contra hcount
    exact hI.word (by omega) p h hzero
  next =>
    exact hI.move (by rw [h]; rfl) rfl (by rw [h]; rfl) Place.noConfusion
      (.inr ⟨Place.noConfusion, fun _ => rfl⟩)

theorem post (hI : Inv s) (h : s.place p = .signalAcquire wake) (hfree : s.lock = none) :
    Inv (s.post p wake) := by
  have hnum := hI.numWaiting
  have hlock := hI.not_hasLock hfree
  rw [State.post]
  split
  next hwaiting =>
    have hw := population_update Place.isWaiting s.place p (.futexWake wake)
    have hs := population_update Place.isStirring s.place p (.futexWake wake)
    rw [h] at hw hs
    simp only [Place.isWaiting, Place.isStirring, Bool.toNat_false, Bool.toNat_true] at hw hs
    refine ⟨fun q => ?_, ?_, fun _ q _ => Nat.one_ne_zero, fun q hq => ?_⟩
    · by_cases hqp : q = p
      · subst hqp
        simp [State.move, Place.hasLock]
      · simp only [State.move, Function.update_of_ne hqp, hlock q, Option.some.injEq]
        simp [Ne.symm hqp]
    · simp only [State.move]
      omega
    · have hqp : q ≠ p := by
        rintro rfl
        simp [State.move] at hq
      have := hI.stirring q (by simpa [State.move, hqp] using hq)
      simp only [State.move]
      omega
  next hwaiting =>
    have hnobody : ∀ q, (s.place q).isWaiting = false :=
      population_eq_zero.mp (by omega)
    have hw := population_update Place.isWaiting s.place p .outside
    rw [h] at hw
    simp only [Place.isWaiting, Bool.toNat_false] at hw
    have hgone : ∀ q x, x.isWaiting = true → (Function.update s.place p .outside) q ≠ x := by
      intro q x hx hq
      by_cases hqp : q = p
      · subst hqp
        rw [Function.update_self] at hq
        rw [← hq] at hx
        exact Bool.noConfusion hx
      · rw [Function.update_of_ne hqp] at hq
        rw [← hq, hnobody q] at hx
        exact Bool.noConfusion hx
    refine ⟨fun q => ?_, ?_, fun _ q hq => absurd hq (hgone q _ rfl),
      fun q hq => absurd hq (hgone q _ rfl)⟩
    · simp only [State.move, hfree, reduceCtorEq, false_iff, Bool.not_eq_true]
      by_cases hqp : q = p
      · subst hqp
        rw [Function.update_self]
        rfl
      · rw [Function.update_of_ne hqp]
        exact hlock q
    · simp only [State.move]
      omega

/-- The lock is released after the wake; whoever still sleeps can spare the thread that woke. -/
theorem release (hI : Inv s) (wake : Wake) (h : s.place p = .futexWake wake)
    (hspare : ∀ q, s.place q = .asleep → s.count + 1 ≤ population Place.isStirring s.place) :
    Inv (s.release p) := by
  have hw := population_update Place.isWaiting s.place p .outside
  have hs := population_update Place.isStirring s.place p .outside
  rw [h] at hw hs
  simp only [Place.isWaiting, Place.isStirring, Bool.toNat_false, Bool.toNat_true] at hw hs
  have hnum := hI.numWaiting
  refine ⟨fun q => ?_, ?_, fun hcount q hq => ?_, fun q hq => ?_⟩
  · simp only [State.release, State.move, reduceCtorEq, false_iff, Bool.not_eq_true]
    by_cases hqp : q = p
    · subst hqp
      rw [Function.update_self]
      rfl
    · rw [Function.update_of_ne hqp, Bool.eq_false_iff, ne_eq, ← hI.lock q,
        (hI.lock p).mpr (by rw [h]; rfl)]
      simp [Ne.symm hqp]
  · simp only [State.release, State.move]
    omega
  · have hqp : q ≠ p := by
      rintro rfl
      simp [State.release, State.move] at hq
    exact hI.word hcount q (by simpa [State.release, State.move, hqp] using hq)
  · have hqp : q ≠ p := by
      rintro rfl
      simp [State.release, State.move] at hq
    have := hspare q (by simpa [State.release, State.move, hqp] using hq)
    simp only [State.release, State.move]
    omega

theorem wakeOne (hI : Inv s) (h : s.place p = .futexWake wake) (hq : s.place q = .asleep) :
    Inv ((s.wakeOne q).release p) := by
  have hs := population_update Place.isStirring s.place q .waitReacquire
  rw [hq] at hs
  simp only [Place.isStirring, Bool.toNat_false, Bool.toNat_true] at hs
  have hpq : p ≠ q := by
    rintro rfl
    rw [h] at hq
    exact Place.noConfusion hq
  refine (hI.move (by rw [hq]; rfl) rfl (by rw [hq]; rfl) Place.noConfusion
    (.inr ⟨Place.noConfusion, fun _ => rfl⟩)).release wake ?_ fun r _ => ?_
  · simp only [State.move, Function.update_of_ne hpq, h]
  · have := hI.stirring q hq
    simp only [State.move]
    omega

theorem wakeAll (hI : Inv s) (h : s.place p = .futexWake wake) : Inv (s.wakeAll.release p) := by
  have hawake : ∀ q, s.wakeAll.place q ≠ .asleep := by
    intro q
    simp only [State.wakeAll]
    split
    · exact Place.noConfusion
    · assumption
  refine Inv.release ⟨fun q => ?_, ?_, fun hcount q hq => ?_,
    fun q hq => absurd hq (hawake q)⟩ wake ?_ fun q hq => absurd hq (hawake q)
  · rw [State.wakeAll, hI.lock q]
    dsimp only
    split
    next hsleep => rw [hsleep]; rfl
    next => rfl
  · simp only [State.wakeAll, hI.numWaiting]
    congr 1
    refine Finset.sum_congr rfl fun q _ => ?_
    dsimp only
    split
    next hsleep => rw [hsleep]; rfl
    next => rfl
  · refine hI.word hcount q ?_
    simp only [State.wakeAll] at hq
    split at hq
    · exact Place.noConfusion hq
    · exact hq
  · rw [State.wakeAll]
    dsimp only
    rw [h, if_neg Place.noConfusion]

theorem step (hI : Inv s) {a : P × Action} {o : Option Done} (h : Step s a o s') : Inv s' := by
  cases h with
  | wait h =>
    exact hI.move (by rw [h]; rfl) rfl (by rw [h]; rfl) Place.noConfusion
      (.inr ⟨Place.noConfusion, by rw [h]; exact fun h => Bool.noConfusion h⟩)
  | signal h =>
    exact hI.move (by rw [h]; rfl) rfl (by rw [h]; rfl) Place.noConfusion
      (.inr ⟨Place.noConfusion, by rw [h]; exact fun h => Bool.noConfusion h⟩)
  | acquire h hfree => exact hI.acquire h hfree
  | reacquire h hfree => exact hI.reacquire h hfree
  | futexWait h => exact hI.futexWait h
  | post h hfree => exact hI.post h hfree
  | wakeOne h hq => exact hI.wakeOne h hq
  | wakeNone h hnone => exact hI.release .one h fun q hq => absurd hq (hnone q)
  | wakeAll h => exact hI.wakeAll h
  | interrupt h =>
    exact hI.move (by rw [h]; rfl) rfl (by rw [h]; rfl) Place.noConfusion
      (.inr ⟨Place.noConfusion, fun _ => rfl⟩)

omit [DecidableEq P] in
theorem init {count : Int} : Inv (⟨none, count, 0, 0, fun _ => .outside⟩ : State P) := by
  refine ⟨fun p => by simp [Place.hasLock], ?_, fun _ p hp => Place.noConfusion hp,
    fun p hp => Place.noConfusion hp⟩
  rw [population_eq_zero.mpr fun _ => rfl]
  rfl

theorem run {count : Int} {ok : State P → P × Action → Prop}
    {tr : List ((P × Action) × Option Done)} (h : Run (machine count) ok tr s) : Inv s :=
  h.invariant (fun _ hs => hs ▸ init) fun _ _ _ _ hI _ hstep => hI.step hstep

end Inv

/-! ### Units are neither lost nor made up -/

omit [Fintype P] in
theorem count_test :
    (s.test p).1.count + (if (s.test p).2 = some .took then 1 else 0 : Nat) = s.count ∧
    (s.test p).2 ≠ some .posted ∧ (0 ≤ s.count → 0 ≤ (s.test p).1.count) := by
  rw [State.test]
  split
  · exact ⟨by simp [State.move], by simp, fun h => h⟩
  · exact ⟨by simp [State.move], by simp, fun _ => by simp only [State.move]; omega⟩

omit [Fintype P] in
theorem Step.count {a : P × Action} {o : Option Done} (h : Step s a o s') :
    s'.count + (if o = some .took then 1 else 0 : Nat) =
      s.count + (if o = some .posted then 1 else 0 : Nat) ∧ (0 ≤ s.count → 0 ≤ s'.count) := by
  cases h with
  | @acquire p h hfree =>
    obtain ⟨hcount, hposted, hpos⟩ := count_test (s := s) (p := p)
    exact ⟨by rw [hcount, if_neg hposted]; exact (Int.add_zero _).symm, hpos⟩
  | @reacquire p h hfree =>
    obtain ⟨hcount, hposted, hpos⟩ := count_test (s := s.back) (p := p)
    exact ⟨by rw [hcount, if_neg hposted]; exact (Int.add_zero _).symm, hpos⟩
  | post h hfree =>
    rw [State.post]
    split <;> exact ⟨by simp [State.move], fun h => by simp only [State.move]; omega⟩
  | _ => exact ⟨rfl, fun h => h⟩

omit [Fintype P] in
theorem count_run {count : Int} {ok : State P → P × Action → Prop}
    {tr : List ((P × Action) × Option Done)} (h : Run (machine count) ok tr s) :
    s.count + taken tr = count + posted tr ∧ (0 ≤ count → 0 ≤ s.count) := by
  induction h with
  | start h =>
    subst h
    exact ⟨by simp [taken, posted], fun h => h⟩
  | @next tr s s' i o hrun hok hstep ih =>
    obtain ⟨hcount, hpos⟩ := hstep.count
    refine ⟨?_, fun h => hpos (ih.2 h)⟩
    have := ih.1
    simp only [taken, posted, List.countP_append, List.countP_singleton,
      decide_eq_true_eq] at this ⊢
    omega

/-! ### Calls come to their end -/

/-- What a thread may still have to do. A store of 1 to the word sends those that are about to wait
once more round the loop, and a wake those that sleep. -/
def weight (parties : Nat) (futx : Nat) : Place → Nat
  | .outside | .asleep => 0
  | .waitAcquire | .waitReacquire => 2
  | .futexWait => if futx = 0 then 1 else 3
  | .futexWake _ => 2 * parties + 1
  | .signalAcquire _ => 4 * parties + 2

def State.todo (s : State P) : Nat := total (weight (Fintype.card P) s.futx) s.place

/-- A call makes its next step. -/
def RunStep (s s' : State P) : Prop := ∃ p o, Step s (p, .run) o s'

theorem weight_zero_le (n futx : Nat) (x : Place) : weight n 0 x ≤ weight n futx x := by
  cases x with
  | futexWait => by_cases h : futx = 0 <;> simp [weight, h]
  | _ => exact Nat.le_refl _

theorem weight_le_add (n futx : Nat) (x : Place) : weight n futx x ≤ weight n 0 x + 2 := by
  cases x with
  | futexWait => by_cases h : futx = 0 <;> simp [weight, h]
  | _ => exact Nat.le_add_right _ _

theorem todo_move {futx : Nat} {t : State P} (hle : futx = 0 ∨ futx = s.futx)
    (ht : t.todo = total (weight (Fintype.card P) futx) (Function.update s.place p x))
    (hx : weight (Fintype.card P) futx x < weight (Fintype.card P) futx (s.place p)) :
    t.todo < s.todo := by
  have hup := total_update (weight (Fintype.card P) futx) s.place p x
  have hle : total (weight (Fintype.card P) futx) s.place ≤ s.todo := by
    refine total_le fun q => ?_
    rcases hle with rfl | rfl
    · exact weight_zero_le _ _ _
    · exact Nat.le_refl _
  omega

theorem todo_test (h : s.place p = .waitAcquire ∨ s.place p = .waitReacquire) :
    (s.test p).1.todo < s.todo := by
  rw [State.test]
  split
  · refine todo_move (p := p) (x := .futexWait) (.inl rfl) rfl ?_
    rcases h with h | h <;> rw [h] <;> exact Nat.lt_succ_self 1
  · refine todo_move (p := p) (x := .outside) (.inr rfl) rfl ?_
    rcases h with h | h <;> rw [h] <;> exact Nat.two_pos

theorem todo_futexWait (h : s.place p = .futexWait) : (s.futexWait p).todo < s.todo := by
  refine todo_move (p := p) (.inr rfl) rfl ?_
  rw [h]
  by_cases hzero : s.futx = 0 <;> simp [hzero, weight]

theorem todo_post (h : s.place p = .signalAcquire wake) : (s.post p wake).todo < s.todo := by
  rw [State.post]
  split
  · have hup := total_update (weight (Fintype.card P) 1) s.place p (.futexWake wake)
    have hle : total (weight (Fintype.card P) 1) s.place ≤ s.todo + Fintype.card P * 2 :=
      total_le_add fun q => (weight_le_add _ _ _).trans
        (Nat.add_le_add_right (weight_zero_le _ _ _) 2)
    rw [h] at hup
    simp only [weight] at hup
    have hdef : State.todo ({ s with count := s.count + 1, futx := 1, lock := some p }.move p
        (.futexWake wake)) =
      total (weight (Fintype.card P) 1) (Function.update s.place p (.futexWake wake)) := rfl
    omega
  · refine todo_move (p := p) (x := .outside) (.inr rfl) rfl ?_
    rw [h]
    exact Nat.succ_pos _

/-- What a wake adds for the sleepers is less than what the waker has done. -/
theorem todo_release {t : State P} (wake : Wake) (h : t.place p = .futexWake wake)
    (hle : t.todo ≤ s.todo + Fintype.card P * 2) : (t.release p).todo < s.todo := by
  have hup := total_update (weight (Fintype.card P) t.futx) t.place p .outside
  rw [h] at hup
  simp only [weight] at hup
  have hdef : (t.release p).todo =
    total (weight (Fintype.card P) t.futx) (Function.update t.place p .outside) := rfl
  have ht : t.todo = total (weight (Fintype.card P) t.futx) t.place := rfl
  omega

theorem RunStep.todo_lt (h : RunStep s s') : s'.todo < s.todo := by
  obtain ⟨p, o, h⟩ := h
  cases h with
  | acquire h => exact todo_test (.inl h)
  | reacquire h => exact todo_test (s := s.back) (.inr h)
  | futexWait h => exact todo_futexWait h
  | post h => exact todo_post h
  | @wakeOne _ q h hq =>
    have hpq : p ≠ q := by
      rintro rfl
      rw [h] at hq
      exact Place.noConfusion hq
    refine todo_release (t := s.wakeOne q) .one ?_ ?_
    · simp only [State.wakeOne, State.move, Function.update_of_ne hpq, h]
    · have hup := total_update (weight (Fintype.card P) s.futx) s.place q .waitReacquire
      rw [hq] at hup
      simp only [weight] at hup
      have hpos : 0 < Fintype.card P := Fintype.card_pos_iff.mpr ⟨p⟩
      have hdef : (s.wakeOne q).todo =
        total (weight (Fintype.card P) s.futx) (Function.update s.place q .waitReacquire) := rfl
      have hs : s.todo = total (weight (Fintype.card P) s.futx) s.place := rfl
      omega
  | wakeNone h => exact todo_release .one h (Nat.le_add_right _ _)
  | wakeAll h =>
    refine todo_release (t := s.wakeAll) .all ?_ ?_
    · rw [State.wakeAll]
      dsimp only
      rw [h, if_neg Place.noConfusion]
    · refine total_le_add fun q => ?_
      simp only [State.wakeAll]
      split
      · exact Nat.le_add_left _ _
      · exact Nat.le_add_right _ _

theorem acc_runStep (s : State P) : Acc (fun s' s => RunStep s s') s :=
  (Subrelation.wf RunStep.todo_lt (measure State.todo).wf).apply s

/-- Where nobody in a call can make a step, everybody is out or asleep, and asleep only while no
unit is there. -/
theorem Inv.quiet (hI : Inv s) (hquiet : ∀ s', ¬RunStep s s') (p : P) :
    s.place p = .outside ∨ s.place p = .asleep ∧ s.count ≤ 0 := by
  have hnowake : ∀ q wake, s.place q ≠ .futexWake wake := by
    intro q wake h
    cases wake with
    | one =>
      by_cases hsleep : ∃ r, s.place r = .asleep
      · obtain ⟨r, hr⟩ := hsleep
        exact hquiet _ ⟨q, _, .wakeOne h hr⟩
      · exact hquiet _ ⟨q, _, .wakeNone h (not_exists.mp hsleep)⟩
    | all => exact hquiet _ ⟨q, _, .wakeAll h⟩
  have hfree : s.lock = none := by
    cases hlock : s.lock with
    | none => rfl
    | some q =>
      have hhas := (hI.lock q).mp hlock
      cases hq : s.place q with
      | futexWake wake => exact absurd hq (hnowake q wake)
      | _ => rw [hq] at hhas; exact Bool.noConfusion hhas
  have hplace : ∀ q, s.place q = .outside ∨ s.place q = .asleep := by
    intro q
    cases hq : s.place q with
    | outside => exact .inl rfl
    | asleep => exact .inr rfl
    | waitAcquire => exact absurd ⟨q, _, .acquire hq hfree⟩ (hquiet _)
    | futexWait => exact absurd ⟨q, _, .futexWait hq⟩ (hquiet _)
    | waitReacquire => exact absurd ⟨q, _, .reacquire hq hfree⟩ (hquiet _)
    | signalAcquire wake => exact absurd ⟨q, _, .post hq hfree⟩ (hquiet _)
    | futexWake wake => exact absurd hq (hnowake q wake)
  refine (hplace p).imp_right fun h => ⟨h, ?_⟩
  have hstir : population Place.isStirring s.place = 0 := by
    refine population_eq_zero.mpr fun q => ?_
    rcases hplace q with hq | hq <;> rw [hq] <;> rfl
  have := hI.stirring p h
  omega

theorem Inv.runSteps (hI : Inv s) (h : Relation.ReflTransGen RunStep s s') : Inv s' := by
  induction h with
  | refl => exact hI
  | tail _ hstep ih =>
    obtain ⟨p, o, hstep⟩ := hstep
    exact ih.step hstep

/-- In every run, however the callers are interleaved and however often sleeps are interrupted, the
count is what it was at first, the units posted added and those taken subtracted, and never gets
below zero. And once no more calls are made, the calls under way come to their end in whatever
order they go on: each has returned then, or sleeps in `wait` while no unit is there. -/
theorem wait_returns {count : Int} {ok : State P → P × Action → Prop}
    {tr : List ((P × Action) × Option Done)} (h : Run (machine count) ok tr s) :
    (s.count + taken tr = count + posted tr ∧ (0 ≤ count → 0 ≤ s.count)) ∧
      Acc (fun s' s => RunStep s s') s ∧ ∀ s', Relation.ReflTransGen RunStep s s' →
        (∀ s'', ¬RunStep s' s'') →
          ∀ p, s'.place p = .outside ∨ s'.place p = .asleep ∧ s'.count ≤ 0 := by
  exact ⟨count_run h, acc_runStep s, fun s' hsteps hquiet p =>
    ((Inv.run h).runSteps hsteps).quiet hquiet p⟩

end

/-- One thread waits. -/
def sampleWaits : State Bool := State.move ⟨none, 0, 0, 0, fun _ => .outside⟩ true .waitAcquire

/-- It sleeps, and the other one posts. -/
def samplePosts : State Bool :=
  ((((sampleWaits.test true).1.futexWait true).move false (.signalAcquire .one)).post false .one)

/-- It is woken and takes the unit. -/
def sampleEnd : State Bool := (((samplePosts.wakeOne true).release false).back.test true).1

def sampleTrace : List ((Bool × Action) × Option Done) :=
  [((true, .wait), none), ((true, .run), none), ((true, .run), none), ((false, .signal .one), none),
    ((false, .run), some .posted), ((false, .run), none), ((true, .run), some .took)]

theorem sample_run : Run (machine 0) anyStep sampleTrace sampleEnd := by
  have hwaits : Run (machine 0) anyStep [((true, .wait), none)] sampleWaits :=
    .next (.start rfl) trivial (.wait rfl)
  have htests := hwaits.next trivial (.acquire (p := true) rfl rfl)
  have hsleeps := htests.next trivial (.futexWait (p := true) rfl)
  have hsignals := hsleeps.next trivial (@Step.signal Bool _ _ false .one rfl)
  have hposts := hsignals.next trivial (.post (p := false) rfl rfl)
  have hwakes := hposts.next trivial (.wakeOne (p := false) (q := true) rfl rfl)
  exact hwakes.next trivial (.reacquire (p := true) rfl rfl)

theorem wait_returns_sample :
    (sampleEnd.count + taken sampleTrace = 0 + posted sampleTrace ∧
      (0 ≤ (0 : Int) → 0 ≤ sampleEnd.count)) ∧
      Acc (fun s' s => RunStep s s') sampleEnd ∧
        ∀ s', Relation.ReflTransGen RunStep sampleEnd s' → (∀ s'', ¬RunStep s' s'') →
          ∀ p, s'.place p = .outside ∨ s'.place p = .asleep ∧ s'.count ≤ 0 :=
  wait_returns sample_run

end Semaphore

end Sniper.Misc
