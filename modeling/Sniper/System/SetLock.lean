import Sniper.Lib.Machine
import Mathlib.Data.List.FinRange
import Mathlib.Algebra.Order.BigOperators.Group.Finset
import Mathlib.Data.Fintype.Basic
import Mathlib.Logic.Function.Basic
import Mathlib.Logic.Relation
set_option autoImplicit false

/-! A lock of one mutex a core: a shared holder has the mutex of its core, an exclusive one all of
them. -/

namespace Sniper.System
open Sniper.Lib

namespace SetLock

/-- `acquire` or `release` on one of `m_locks`. -/
inductive LockOp (n : Nat) where
  | acquire (i : Fin n)
  | release (i : Fin n)
  deriving DecidableEq, Repr

inductive Op where
  | acquireShared | releaseShared | acquireExclusive | releaseExclusive | upgrade | downgrade
  deriving DecidableEq, Repr

/-- What a party has of the lock between its calls. -/
inductive Mode where
  | none | shared | exclusive
  deriving DecidableEq, Repr

variable {n : Nat}

def acquireExclusive : List (LockOp n) := (List.finRange n).map .acquire

def releaseExclusive : List (LockOp n) := (List.finRange n).map .release

/-- The operations on the mutexes that a call by a party of a core makes, one after the other. -/
def Op.program (core : Fin n) : Op → List (LockOp n)
  | .acquireShared => [.acquire core]
  | .releaseShared => [.release core]
  | .acquireExclusive => SetLock.acquireExclusive
  | .releaseExclusive => SetLock.releaseExclusive
  | .upgrade => .release core :: SetLock.acquireExclusive
  | .downgrade => ((List.finRange n).filter fun i => i ≠ core).map .release

/-- The protocol: what a call starts from. -/
def Op.before : Op → Mode
  | .acquireShared | .acquireExclusive => .none
  | .releaseShared | .upgrade => .shared
  | .releaseExclusive | .downgrade => .exclusive

/-- What it leaves. -/
def Op.after : Op → Mode
  | .releaseShared | .releaseExclusive => .none
  | .acquireShared | .downgrade => .shared
  | .acquireExclusive | .upgrade => .exclusive

/-- What a party has once its call returns, and what the call has still to do. -/
structure Party (n : Nat) where
  mode : Mode
  todo : List (LockOp n)
  deriving DecidableEq, Repr

/-- Who has each mutex, and where each party is. -/
structure State (P : Type) (n : Nat) where
  lock : Fin n → Option P
  party : P → Party n

/-- A party calls an operation, or its call makes its next step. -/
inductive Action where
  | call (op : Op)
  | run
  deriving DecidableEq, Repr

variable {P : Type}

inductive Step [DecidableEq P] (core : P → Fin n) : State P n → P × Action → Unit → State P n → Prop where
  | call {s : State P n} {p : P} {op : Op} (h : s.party p = ⟨op.before, []⟩) :
      Step core s (p, .call op) () { s with
        party := Function.update s.party p ⟨op.after, op.program (core p)⟩ }
  | acquire {s : State P n} {p : P} {mode : Mode} {i : Fin n} {rest : List (LockOp n)}
      (h : s.party p = ⟨mode, .acquire i :: rest⟩) (hfree : s.lock i = none) :
      Step core s (p, .run) () {
        lock := Function.update s.lock i (some p)
        party := Function.update s.party p ⟨mode, rest⟩ }
  | release {s : State P n} {p : P} {mode : Mode} {i : Fin n} {rest : List (LockOp n)}
      (h : s.party p = ⟨mode, .release i :: rest⟩) :
      Step core s (p, .run) () {
        lock := Function.update s.lock i none
        party := Function.update s.party p ⟨mode, rest⟩ }

/-- All mutexes free and nobody in a call. -/
def machine [DecidableEq P] (core : P → Fin n) : Machine (State P n) (P × Action) Unit :=
  ⟨fun s => (∀ i, s.lock i = none) ∧ ∀ p, s.party p = ⟨.none, []⟩, Step core⟩

namespace State

/-- The party has the lock shared: between calls, or while it gives up the rest of an exclusive
lock. -/
def Shared (s : State P n) (p : P) : Prop :=
  (s.party p).mode = .shared ∧ ∀ i, .acquire i ∉ (s.party p).todo

def Exclusive (s : State P n) (p : P) : Prop := s.party p = ⟨.exclusive, []⟩

/-- The party is in a call. -/
def InCall (s : State P n) (p : P) : Prop := (s.party p).todo ≠ []

/-- The call of the party can make its next step. -/
def CanRun (s : State P n) (p : P) : Prop :=
  ∃ op rest, (s.party p).todo = op :: rest ∧ ∀ i, op = .acquire i → s.lock i = none

end State

/-! ### What a party has of the mutexes -/

/-- Where a party can be, with the mutexes that it has: on the way through a call that takes or
gives up mutexes one by one, or before the first step of an upgrade. -/
inductive Shape (core : Fin n) : Party n → (Fin n → Prop) → Prop where
  | acquiringShared {has : Fin n → Prop} (h : ∀ j, ¬has j) :
      Shape core ⟨.shared, [.acquire core]⟩ has
  | acquiring {has : Fin n → Prop} (taken rest : List (Fin n))
      (hall : List.finRange n = taken ++ rest) (h : ∀ j, has j ↔ j ∈ taken) :
      Shape core ⟨.exclusive, rest.map .acquire⟩ has
  | releasing {has : Fin n → Prop} (rest : List (Fin n)) (hnodup : rest.Nodup)
      (h : ∀ j, has j ↔ j ∈ rest) : Shape core ⟨.none, rest.map .release⟩ has
  | downgrading {has : Fin n → Prop} (rest : List (Fin n)) (hnodup : (core :: rest).Nodup)
      (h : ∀ j, has j ↔ j ∈ core :: rest) : Shape core ⟨.shared, rest.map .release⟩ has
  | upgrading {has : Fin n → Prop} (h : ∀ j, has j ↔ j = core) :
      Shape core ⟨.exclusive, .release core :: acquireExclusive⟩ has

/-- Between calls a party has no mutex, that of its core, or all. -/
theorem Shape.between {core : Fin n} {mode : Mode} {has : Fin n → Prop}
    (h : Shape core ⟨mode, []⟩ has) (j : Fin n) :
    has j ↔ (mode = .shared ∧ j = core) ∨ mode = .exclusive := by
  generalize hp : (⟨mode, []⟩ : Party n) = party at h
  cases h with
  | acquiringShared h => cases hp
  | acquiring taken rest hall h =>
    rw [Party.mk.injEq, eq_comm (a := []), List.map_eq_nil_iff] at hp
    obtain ⟨rfl, rfl⟩ := hp
    rw [List.append_nil] at hall
    simp [h, ← hall]
  | releasing rest hnodup h =>
    rw [Party.mk.injEq, eq_comm (a := []), List.map_eq_nil_iff] at hp
    obtain ⟨rfl, rfl⟩ := hp
    simp [h]
  | downgrading rest hnodup h =>
    rw [Party.mk.injEq, eq_comm (a := []), List.map_eq_nil_iff] at hp
    obtain ⟨rfl, rfl⟩ := hp
    simp [h]
  | upgrading h => cases hp

theorem Shape.call {core : Fin n} {op : Op} {has : Fin n → Prop}
    (h : Shape core ⟨op.before, []⟩ has) : Shape core ⟨op.after, op.program core⟩ has := by
  have hbetween := h.between
  cases op with
  | acquireShared =>
    exact .acquiringShared fun j => by simp [hbetween, Op.before]
  | releaseShared =>
    refine .releasing [core] (List.nodup_singleton _) fun j => ?_
    simp [hbetween, Op.before]
  | acquireExclusive =>
    exact .acquiring [] _ rfl fun j => by simp [hbetween, Op.before]
  | releaseExclusive =>
    refine .releasing _ (List.nodup_finRange n) fun j => ?_
    simp [hbetween, Op.before]
  | upgrade =>
    exact .upgrading fun j => by simp [hbetween, Op.before]
  | downgrade =>
    refine .downgrading _ ?_ fun j => ?_
    · rw [List.nodup_cons]
      exact ⟨by simp, (List.nodup_finRange n).filter _⟩
    · simp [hbetween, Op.before, em]

/-- What a call that is about to take a mutex has: nothing, or all mutexes before that one. -/
theorem Shape.of_acquire {core i : Fin n} {mode : Mode} {rest : List (LockOp n)}
    {has : Fin n → Prop} (h : Shape core ⟨mode, .acquire i :: rest⟩ has) :
    (∀ j, has j → j < i) ∧ Shape core ⟨mode, rest⟩ fun j => j = i ∨ has j := by
  generalize hp : (⟨mode, .acquire i :: rest⟩ : Party n) = party at h
  cases h with
  | acquiringShared h =>
    cases hp
    refine ⟨fun j hj => absurd hj (h j), .downgrading [] (List.nodup_singleton _) fun j => ?_⟩
    simp [h]
  | acquiring taken left hall h =>
    cases left with
    | nil => cases hp
    | cons k left =>
      cases hp
      have hsorted := List.pairwise_lt_finRange n
      rw [hall] at hsorted
      refine ⟨fun j hj => ?_, .acquiring (taken ++ [i]) left (by simp [hall]) fun j => ?_⟩
      · exact (List.pairwise_append.mp hsorted).2.2 j ((h j).mp hj) i List.mem_cons_self
      · simp [h, or_comm]
  | releasing left hnodup h => cases left <;> cases hp
  | downgrading left hnodup h => cases left <;> cases hp
  | upgrading h => cases hp

theorem Shape.of_release {core i : Fin n} {mode : Mode} {rest : List (LockOp n)}
    {has : Fin n → Prop} (h : Shape core ⟨mode, .release i :: rest⟩ has) :
    has i ∧ Shape core ⟨mode, rest⟩ fun j => j ≠ i ∧ has j := by
  generalize hp : (⟨mode, .release i :: rest⟩ : Party n) = party at h
  cases h with
  | acquiringShared h => cases hp
  | acquiring taken left hall h => cases left <;> cases hp
  | releasing left hnodup h =>
    cases left with
    | nil => cases hp
    | cons k left =>
      cases hp
      obtain ⟨hi, hleft⟩ := List.nodup_cons.mp hnodup
      refine ⟨(h i).mpr List.mem_cons_self, .releasing left hleft fun j => ?_⟩
      rw [h, List.mem_cons]
      exact ⟨fun hj => hj.2.resolve_left hj.1, fun hj => ⟨fun heq => hi (heq ▸ hj), .inr hj⟩⟩
  | downgrading left hnodup h =>
    cases left with
    | nil => cases hp
    | cons k left =>
      cases hp
      obtain ⟨hcore, hleft⟩ := List.nodup_cons.mp hnodup
      obtain ⟨hi, hleft⟩ := List.nodup_cons.mp hleft
      have hne : core ≠ i := fun heq => hcore (heq ▸ List.mem_cons_self)
      refine ⟨(h i).mpr (by simp), .downgrading left ?_ fun j => ?_⟩
      · exact List.nodup_cons.mpr ⟨fun hmem => hcore (List.mem_cons_of_mem _ hmem), hleft⟩
      · rw [h, List.mem_cons, List.mem_cons, List.mem_cons]
        constructor
        · rintro ⟨hj, rfl | rfl | hmem⟩
          · exact .inl rfl
          · exact absurd rfl hj
          · exact .inr hmem
        · rintro (rfl | hmem)
          · exact ⟨hne, .inl rfl⟩
          · exact ⟨fun heq => hi (heq ▸ hmem), .inr (.inr hmem)⟩
  | upgrading h =>
    cases hp
    refine ⟨(h core).mpr rfl, .acquiring [] _ rfl fun j => ?_⟩
    simp [h]

/-- Every party has the mutexes that go with where it is. -/
def Shaped (core : P → Fin n) (s : State P n) : Prop :=
  ∀ p, Shape (core p) (s.party p) fun j => s.lock j = some p

theorem Shape.congr {core : Fin n} {party : Party n} {has has' : Fin n → Prop}
    (h : Shape core party has) (heq : ∀ j, has' j ↔ has j) : Shape core party has' := by
  have : has' = has := funext fun j => propext (heq j)
  rwa [this]

theorem Shaped.step [DecidableEq P] {core : P → Fin n} {s s' : State P n} {i : P × Action} {o : Unit}
    (h : Shaped core s) (hstep : Step core s i o s') : Shaped core s' := by
  intro q
  have hq := h q
  cases hstep with
  | @call p op hp =>
    by_cases hqp : q = p
    · subst hqp
      rw [hp] at hq
      simpa using hq.call
    · simpa [Function.update_of_ne hqp] using hq
  | @acquire p mode i rest hp hfree =>
    by_cases hqp : q = p
    · subst hqp
      rw [hp] at hq
      simp only [Function.update_self]
      refine hq.of_acquire.2.congr fun j => ?_
      by_cases hj : j = i
      · simp [hj]
      · simp [hj]
    · simp only [Function.update_of_ne hqp]
      refine hq.congr fun j => ?_
      by_cases hj : j = i
      · subst hj
        simp [hfree, Ne.symm hqp]
      · simp [hj]
  | @release p mode i rest hp =>
    have hhas := (h p)
    rw [hp] at hhas
    by_cases hqp : q = p
    · subst hqp
      simp only [Function.update_self]
      refine hhas.of_release.2.congr fun j => ?_
      by_cases hj : j = i
      · simp [hj]
      · simp [hj]
    · simp only [Function.update_of_ne hqp]
      refine hq.congr fun j => ?_
      by_cases hj : j = i
      · subst hj
        simp [hhas.of_release.1, Ne.symm hqp]
      · simp [hj]

theorem Shaped.reachable [DecidableEq P] {core : P → Fin n} {s : State P n} (h : Reachable (machine core) s) :
    Shaped core s := by
  refine h.invariant (I := Shaped core) (fun s hs p => ?_) fun s i o s' hI hstep => hI.step hstep
  rw [hs.2 p]
  exact .releasing [] .nil fun j => by simp [hs.1 j]

section Results

variable {core : P → Fin n} {s : State P n}

theorem Shaped.exclusive (h : Shaped core s) {p : P} (hp : s.Exclusive p) (j : Fin n) :
    s.lock j = some p := by
  have hshape := h p
  rw [show s.party p = ⟨.exclusive, []⟩ from hp] at hshape
  exact (hshape.between j).mpr (.inr rfl)

theorem Shaped.shared (h : Shaped core s) {p : P} (hp : s.Shared p) :
    s.lock (core p) = some p := by
  obtain ⟨hmode, htodo⟩ := hp
  have hshape := h p
  generalize s.party p = party at hshape hmode htodo
  cases hshape with
  | acquiringShared => exact absurd List.mem_cons_self (htodo (core p))
  | acquiring => cases hmode
  | releasing => cases hmode
  | downgrading rest hnodup h => exact (h (core p)).mpr List.mem_cons_self
  | upgrading => cases hmode

/-- Somebody can go on when a party waits for a mutex: the waiting parties that have mutexes wait for
later ones. -/
theorem Shaped.canRun_of_waiting (h : Shaped core s)
    (hreleased : ∀ q, ¬s.InCall q → (s.party q).mode = .none) (k : Nat) {p : P} {i : Fin n}
    {rest : List (LockOp n)} (hp : (s.party p).todo = .acquire i :: rest) (hk : n - i.val ≤ k) :
    ∃ q, s.CanRun q := by
  induction k generalizing p i rest with
  | zero => omega
  | succ k ih =>
    cases hlock : s.lock i with
    | none =>
      refine ⟨p, _, rest, hp, fun j hj => ?_⟩
      cases hj
      exact hlock
    | some q =>
      have hshape := h q
      cases htodo : (s.party q).todo with
      | nil =>
        -- a party between calls has nothing left
        have hmode := hreleased q fun hin => hin htodo
        rw [show s.party q = ⟨.none, []⟩ by rw [← hmode, ← htodo]] at hshape
        simpa using (hshape.between i).mp hlock
      | cons op left =>
        rw [show s.party q = ⟨(s.party q).mode, op :: left⟩ by rw [← htodo]] at hshape
        cases op with
        | release j =>
          refine ⟨q, _, left, htodo, fun j' hj => ?_⟩
          cases hj
        | acquire j =>
          have hlt : i < j := hshape.of_acquire.1 i hlock
          exact ih htodo (by omega)

/-- What the lock promises: an exclusive holder is alone, a party that has come down to shared, or
has just been let in, has the mutex of its core and no other, and as long as somebody is in a call
while all others have released the lock, somebody can go on. -/
structure Correct (core : P → Fin n) (s : State P n) : Prop where
  exclusion : ∀ p q, s.Exclusive p → q ≠ p → ¬s.Shared q ∧ ¬s.Exclusive q
  shared : ∀ p, s.party p = ⟨.shared, []⟩ → ∀ j, s.lock j = some p ↔ j = core p
  deadlockFree : ∀ p, s.InCall p → (∀ q, ¬s.InCall q → (s.party q).mode = .none) →
    ∃ q, s.CanRun q

theorem Shaped.correct (h : Shaped core s) : Correct core s where
  exclusion p q hp hqp := by
    have hall := h.exclusive hp (core q)
    constructor
    · intro hq
      rw [h.shared hq] at hall
      exact hqp (Option.some.inj hall)
    · intro hq
      rw [h.exclusive hq] at hall
      exact hqp (Option.some.inj hall)
  shared p hp j := by
    have hshape := h p
    rw [hp] at hshape
    simpa using hshape.between j
  deadlockFree p hp hreleased := by
    cases htodo : (s.party p).todo with
    | nil => exact absurd htodo hp
    | cons op rest =>
      cases op with
      | acquire i => exact h.canRun_of_waiting hreleased n htodo (Nat.sub_le _ _)
      | release i =>
        refine ⟨p, _, rest, htodo, fun j hj => ?_⟩
        cases hj

/-- Any number of mutexes and of parties on cores: in every reachable state the lock keeps its
promises. -/
theorem setLock_correct [DecidableEq P] (core : P → Fin n) (s : State P n)
    (h : Reachable (machine core) s) : Correct core s :=
  (Shaped.reachable h).correct

theorem setLock_correct_twoCores :
    ∃ s : State (Fin 2) 2, Reachable (machine id) s ∧ s.Exclusive 0 ∧ ¬s.Shared 1 := by
  have hstart : Run (machine (id : Fin 2 → Fin 2)) anyStep []
      ⟨fun _ => none, fun _ => ⟨.none, []⟩⟩ := .start ⟨fun _ => rfl, fun _ => rfl⟩
  have hcall := hstart.next trivial
    (.call rfl : Step id _ ((0 : Fin 2), .call .acquireExclusive) () _)
  have hfirst := hcall.next trivial (.acquire rfl rfl : Step id _ ((0 : Fin 2), .run) () _)
  have hsecond := hfirst.next trivial (.acquire rfl rfl : Step id _ ((0 : Fin 2), .run) () _)
  exact ⟨_, hsecond.reachable, rfl,
    ((setLock_correct id _ hsecond.reachable).exclusion 0 1 rfl (by decide)).1⟩

/-! ### Coming to rest -/

/-- A call goes on, or a holder between calls releases the lock. -/
def Drain [DecidableEq P] (core : P → Fin n) (s s' : State P n) : Prop :=
  ∃ p a, Step core s (p, a) () s' ∧
    (a = .run ∨ a = .call .releaseShared ∨ a = .call .releaseExclusive)

/-- The steps a party is away from having nothing, and a call for each hold. -/
def Party.work (party : Party n) : Nat :=
  party.todo.length + match party.mode with
    | .none => 0
    | .shared => 2
    | .exclusive => n + 1

def State.work [Fintype P] (s : State P n) : Nat := ∑ p, (s.party p).work

theorem Drain.work_lt [DecidableEq P] [Fintype P] {s' : State P n} (h : Drain core s s') :
    s'.work < s.work := by
  obtain ⟨p, a, hstep, ha⟩ := h
  have hupdate : ∀ party : Party n, party.work < (s.party p).work →
      ∑ q, (Function.update s.party p party q).work < ∑ q, (s.party q).work := by
    intro party hlt
    refine Finset.sum_lt_sum (fun q _ => ?_) ⟨p, Finset.mem_univ p, by simpa using hlt⟩
    by_cases hq : q = p
    · subst hq
      simpa using hlt.le
    · rw [Function.update_of_ne hq]
  cases hstep with
  | @call _ op hp =>
    apply hupdate
    rcases ha with ha | ha | ha <;> cases ha
    · simp [hp, Party.work, Op.before, Op.after, Op.program]
    · simp [hp, Party.work, Op.before, Op.after, Op.program, releaseExclusive]
  | @acquire _ mode i rest hp hfree =>
    apply hupdate
    simp [hp, Party.work]
  | @release _ mode i rest hp =>
    apply hupdate
    simp [hp, Party.work]

theorem State.CanRun.drain [DecidableEq P] {p : P} (h : s.CanRun p) : ∃ s', Drain core s s' := by
  obtain ⟨op, rest, htodo, hfree⟩ := h
  have hparty : s.party p = ⟨(s.party p).mode, op :: rest⟩ := by rw [← htodo]
  cases op with
  | acquire i => exact ⟨_, p, .run, .acquire hparty (hfree i rfl), .inl rfl⟩
  | release i => exact ⟨_, p, .run, .release hparty, .inl rfl⟩

/-- From every reachable state, letting the calls go on and the holders release brings the lock to
rest: every such run ends, and it can only end with all mutexes free. -/
theorem Shaped.comesToRest [DecidableEq P] [Fintype P] (h : Shaped core s) :
    ∃ s', Relation.ReflTransGen (Drain core) s s' ∧ (∀ i, s'.lock i = none) ∧
      ∀ p, s'.party p = ⟨.none, []⟩ := by
  generalize hwork : s.work = work
  induction work using Nat.strong_induction_on generalizing s with
  | _ work ih =>
    by_cases hdrain : ∃ s', Drain core s s'
    · obtain ⟨s₁, h₁⟩ := hdrain
      have hlt := h₁.work_lt
      obtain ⟨p, a, hstep, -⟩ := id h₁
      obtain ⟨s', hs', hrest⟩ := ih s₁.work (hwork ▸ hlt) (h.step hstep) rfl
      exact ⟨s', .head h₁ hs', hrest⟩
    · -- nobody is in a call and nobody has the lock
      have hreleased : ∀ q, ¬s.InCall q → (s.party q).mode = .none := by
        intro q hq
        have htodo : (s.party q).todo = [] := not_not.mp hq
        cases hmode : (s.party q).mode with
        | none => rfl
        | shared =>
          exact absurd ⟨_, q, .call .releaseShared, .call (by rw [← htodo, Op.before, ← hmode]),
            .inr (.inl rfl)⟩ hdrain
        | exclusive =>
          exact absurd ⟨_, q, .call .releaseExclusive,
            .call (by rw [← htodo, Op.before, ← hmode]), .inr (.inr rfl)⟩ hdrain
      have hidle : ∀ p, ¬s.InCall p := by
        intro p hp
        obtain ⟨q, hq⟩ := h.correct.deadlockFree p hp hreleased
        exact hdrain hq.drain
      have hparty : ∀ p, s.party p = ⟨.none, []⟩ := by
        intro p
        have htodo : (s.party p).todo = [] := not_not.mp (hidle p)
        rw [← hreleased p (hidle p), ← htodo]
      refine ⟨s, .refl, fun i => ?_, hparty⟩
      cases hlock : s.lock i with
      | none => rfl
      | some p =>
        have hshape := h p
        rw [hparty p] at hshape
        simpa using (hshape.between i).mp hlock

end Results

end SetLock

end Sniper.System
