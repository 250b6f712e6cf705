import Sniper.Lib.Machine
import Sniper.Lib.Ring
set_option autoImplicit false

/-! The circular queue. It has one slot more than it holds entries. -/

namespace Sniper.Misc
open Sniper.Lib

/-- The next entry goes to the slot `first`, the oldest one is in the slot `last`. -/
structure CircularQueue (T : Type) where
  mSize : Nat
  first : Nat
  last : Nat
  queue : Nat → T

inductive QueueError where
  | full | empty | outOfRange | notEmpty
  deriving DecidableEq

inductive QueueCall (T : Type) where
  | push (t : T)
  | pushCircular (t : T)
  | next
  | pop
  | assign (idx : Nat) (t : T)

namespace CircularQueue

variable {T : Type}

/-- The slots are as they are found. -/
def new (size : Nat) (slots : Nat → T) : CircularQueue T := ⟨(size + 1) % 2 ^ 32, 0, 0, slots⟩

def full (q : CircularQueue T) : Bool := (q.first + 1) % 2 ^ 32 % q.mSize = q.last

def empty (q : CircularQueue T) : Bool := q.first = q.last

def size (q : CircularQueue T) : Nat :=
  ((q.first + q.mSize) % 2 ^ 32 + 2 ^ 32 - q.last) % 2 ^ 32 % q.mSize

/-- Only the size is copied. -/
def copy (q : CircularQueue T) (slots : Nat → T) : Except QueueError (CircularQueue T) :=
  if q.size = 0 then .ok ⟨q.mSize, 0, 0, slots⟩ else .error .notEmpty

def push (q : CircularQueue T) (t : T) : Except QueueError (CircularQueue T) :=
  if q.full then .error .full
  else .ok { q with
    queue := Function.update q.queue q.first t
    first := (q.first + 1) % 2 ^ 32 % q.mSize }

def pop (q : CircularQueue T) : Except QueueError (T × CircularQueue T) :=
  if q.empty then .error .empty
  else .ok (q.queue q.last, { q with last := (q.last + 1) % 2 ^ 32 % q.mSize })

def pushCircular (q : CircularQueue T) (t : T) : Except QueueError (CircularQueue T) := do
  let q ← if q.full then do
      let (_, q) ← q.pop
      pure q
    else pure q
  q.push t

/-- What is returned is a reference to the slot; it still has what was in it. -/
def next (q : CircularQueue T) : Except QueueError (T × CircularQueue T) :=
  if q.full then .error .full
  else .ok (q.queue q.first, { q with first := (q.first + 1) % 2 ^ 32 % q.mSize })

def front (q : CircularQueue T) : Except QueueError T :=
  if q.empty then .error .empty else .ok (q.queue q.last)

def back (q : CircularQueue T) : Except QueueError T :=
  if q.empty then .error .empty
  else .ok (q.queue (((q.first + q.mSize) % 2 ^ 32 + 2 ^ 32 - 1) % 2 ^ 32 % q.mSize))

def index (q : CircularQueue T) (idx : Nat) : Nat := (q.last + idx) % 2 ^ 32 % q.mSize

/-- `operator[]`. -/
def get (q : CircularQueue T) (idx : Nat) : T := q.queue (q.index idx)

def atIndex (q : CircularQueue T) (idx : Nat) : Except QueueError T :=
  if idx < q.size then .ok (q.get idx) else .error .outOfRange

/-- Something is written to the entry that `at` refers to. -/
def assign (q : CircularQueue T) (idx : Nat) (t : T) : Except QueueError (CircularQueue T) :=
  if idx < q.size then .ok { q with queue := Function.update q.queue (q.index idx) t }
  else .error .outOfRange

/-- What an iterator goes through that is so many steps from the end. -/
def rangeFrom (q : CircularQueue T) (idx : Nat) : Nat → Except QueueError (List T)
  | 0 => .ok []
  | left + 1 => do
    let t ← q.atIndex idx
    let rest ← q.rangeFrom (idx + 1) left
    return t :: rest

/-- From `begin` to `end`: an iterator counts from zero to the size. -/
def range (q : CircularQueue T) : Except QueueError (List T) := q.rangeFrom 0 q.size

def perform (q : CircularQueue T) : QueueCall T → Except QueueError (Option T × CircularQueue T)
  | .push t => (q.push t).map fun q => (none, q)
  | .pushCircular t => (q.pushCircular t).map fun q => (none, q)
  | .next => q.next.map fun r => (some r.1, r.2)
  | .pop => q.pop.map fun r => (some r.1, r.2)
  | .assign idx t => (q.assign idx t).map fun q => (none, q)

def machine (T : Type) (c : Nat) : Machine (CircularQueue T) (QueueCall T) (Option T) where
  init q := ∃ slots, q = new c slots
  step q call answer q' := q.perform call = .ok (answer, q')

/-- A list of at most `c` entries, the oldest one first. -/
def fifoStep (c : Nat) (l : List T) : QueueCall T → Option T → List T → Prop
  | .push t, answer, l' => l.length < c ∧ answer = none ∧ l' = l ++ [t]
  | .pushCircular t, answer, l' =>
    answer = none ∧ l' = (if l.length = c then l.tail else l) ++ [t]
  | .next, answer, l' => l.length < c ∧ ∃ t, answer = some t ∧ l' = l ++ [t]
  | .pop, answer, l' => ∃ t, answer = some t ∧ l = t :: l'
  | .assign idx t, answer, l' => idx < l.length ∧ answer = none ∧ l' = l.set idx t

def fifo (T : Type) (c : Nat) : Machine (List T) (QueueCall T) (Option T) where
  init l := l = []
  step l call answer l' := fifoStep c l call answer l'

/-- The entries, the oldest one first. -/
def elements (q : CircularQueue T) : List T := stretch q.queue q.mSize q.last q.size

/-- The queue is a list of so many entries at most. -/
structure Holds (c : Nat) (q : CircularQueue T) (l : List T) : Prop where
  size : q.mSize = c + 1
  last : q.last < q.mSize
  length : l.length ≤ c
  first : q.first = slotAfter q.mSize q.last l.length
  entries : stretch q.queue q.mSize q.last l.length = l

section
variable {c : Nat} {q q' : CircularQueue T} {l l' : List T} {t : T} {idx : Nat}

theorem Holds.slot_lt (h : Holds c q l) {a i : Nat} : slotAfter q.mSize a i < q.mSize :=
  slotAfter_lt (by rw [h.size]; exact Nat.succ_pos c)

/-- The indices stay below the width. -/
theorem Holds.index_eq (hc : c + 1 < 2 ^ 31) (h : Holds c q l) (hidx : idx ≤ c) :
    q.index idx = slotAfter q.mSize q.last idx := by
  have hlast := h.last
  rw [h.size] at hlast
  rw [index, slotAfter, Nat.mod_eq_of_lt (by omega : q.last + idx < 2 ^ 32)]

theorem Holds.size_eq (hc : c + 1 < 2 ^ 31) (h : Holds c q l) : q.size = l.length := by
  have hlast := h.last
  have hfirst : q.first < q.mSize := h.first ▸ h.slot_lt
  rw [CircularQueue.size]
  have hwidth : ((q.first + q.mSize) % 2 ^ 32 + 2 ^ 32 - q.last) % 2 ^ 32 =
      q.first + q.mSize - q.last := by
    rw [h.size] at hlast hfirst ⊢
    omega
  rw [hwidth, h.first]
  exact slotAfter_distance h.last (by rw [h.size]; exact Nat.lt_succ_of_le h.length)

/-- The slot behind the one for the next entry. -/
theorem Holds.next_first (hc : c + 1 < 2 ^ 31) (h : Holds c q l) :
    (q.first + 1) % 2 ^ 32 % q.mSize = slotAfter q.mSize q.last (l.length + 1) := by
  have hfirst : q.first < q.mSize := h.first ▸ h.slot_lt
  rw [h.size] at hfirst
  rw [Nat.mod_eq_of_lt (by omega : q.first + 1 < 2 ^ 32), ← slotAfter_slotAfter, ← h.first]
  rfl

theorem Holds.full_iff (hc : c + 1 < 2 ^ 31) (h : Holds c q l) :
    q.full = true ↔ l.length = c := by
  rw [CircularQueue.full, decide_eq_true_iff, h.next_first hc]
  constructor
  · intro heq
    rw [← slotAfter_zero h.last, slotAfter_slotAfter] at heq
    by_contra hlen
    have hlength := h.length
    have hzero := slotAfter_inj (by rw [h.size]; omega) (by rw [h.size]; omega) heq
    omega
  · intro hlen
    have haround : l.length + 1 = 0 + q.mSize := by rw [hlen, h.size, Nat.zero_add]
    rw [haround, slotAfter_add_self, slotAfter_zero h.last]

theorem Holds.empty_iff (h : Holds c q l) : q.empty = true ↔ l = [] := by
  rw [CircularQueue.empty, decide_eq_true_iff, h.first, ← List.length_eq_zero_iff]
  constructor
  · intro heq
    have hlength := h.length
    rw [← slotAfter_zero h.last, slotAfter_slotAfter] at heq
    have hzero := slotAfter_inj (by rw [h.size]; omega) (by rw [h.size]; omega) heq
    omega
  · intro hlen
    rw [hlen, slotAfter_zero h.last]

/-- The entries that are read. -/
theorem Holds.get_eq (hc : c + 1 < 2 ^ 31) (h : Holds c q l) (hidx : idx < l.length) :
    l[idx]? = some (q.get idx) := by
  have hread : (stretch q.queue q.mSize q.last l.length)[idx]? = _ := getElem?_stretch hidx
  rw [h.entries] at hread
  rw [hread, get, h.index_eq hc (hidx.le.trans h.length)]

theorem holds_new (hc : c + 1 < 2 ^ 31) (slots : Nat → T) : Holds c (new c slots) [] := by
  have hsize : (c + 1) % 2 ^ 32 = c + 1 := Nat.mod_eq_of_lt (by omega)
  refine ⟨hsize, ?_, Nat.zero_le c, ?_, rfl⟩
  · change 0 < (c + 1) % 2 ^ 32
    rw [hsize]
    exact Nat.succ_pos c
  · change 0 = slotAfter ((c + 1) % 2 ^ 32) 0 0
    rw [hsize, slotAfter_zero (Nat.succ_pos c)]

/-- A copy of an empty queue is a new one of that size. -/
theorem Holds.copy (hc : c + 1 < 2 ^ 31) (h : Holds c q []) (slots : Nat → T) :
    q.copy slots = .ok (new c slots) := by
  have hempty : q.size = 0 := h.size_eq hc
  rw [CircularQueue.copy, if_pos hempty, h.size, new, Nat.mod_eq_of_lt (by omega)]

theorem Holds.next (hc : c + 1 < 2 ^ 31) (h : Holds c q l) (hlen : l.length < c) :
    Holds c { q with first := (q.first + 1) % 2 ^ 32 % q.mSize } (l ++ [q.queue q.first]) := by
  have hlength : (l ++ [q.queue q.first]).length = l.length + 1 := by simp
  refine ⟨h.size, h.last, hlength ▸ hlen, ?_, ?_⟩
  · rw [hlength]
    exact h.next_first hc
  · rw [hlength, stretch_succ]
    change stretch q.queue q.mSize q.last l.length ++
      [q.queue (slotAfter q.mSize q.last l.length)] = _
    rw [h.entries, ← h.first]

/-- The slot behind the entries is written. -/
theorem Holds.write (h : Holds c q l) : Holds c { q with queue := Function.update q.queue q.first t } l := by
  refine ⟨h.size, h.last, h.length, h.first, ?_⟩
  change stretch (Function.update q.queue q.first t) q.mSize q.last l.length = l
  rw [h.first, stretch_update_of_le le_rfl (by rw [h.size]; exact Nat.lt_succ_of_le h.length),
    h.entries]

theorem Holds.push (hc : c + 1 < 2 ^ 31) (h : Holds c q l) (hlen : l.length < c) :
    Holds c { q with
      queue := Function.update q.queue q.first t
      first := (q.first + 1) % 2 ^ 32 % q.mSize } (l ++ [t]) := by
  have hpush := (h.write (t := t)).next hc hlen
  have hread : Function.update q.queue q.first t q.first = t := Function.update_self _ _ _
  simpa only [hread] using hpush

theorem Holds.pop (hc : c + 1 < 2 ^ 31) (h : Holds c q (t :: l)) :
    q.queue q.last = t ∧ Holds c { q with last := (q.last + 1) % 2 ^ 32 % q.mSize } l := by
  have hlast := h.last
  have hentries := h.entries
  rw [List.length_cons, stretch_cons hlast] at hentries
  obtain ⟨holdest, hentries⟩ := List.cons.inj hentries
  have hnext : (q.last + 1) % 2 ^ 32 % q.mSize = slotAfter q.mSize q.last 1 := by
    rw [h.size] at hlast
    rw [Nat.mod_eq_of_lt (by omega : q.last + 1 < 2 ^ 32)]
    rfl
  refine ⟨holdest, ?_⟩
  rw [hnext]
  refine ⟨h.size, h.slot_lt, Nat.le_of_succ_le h.length, ?_, hentries⟩
  change q.first = slotAfter q.mSize (slotAfter q.mSize q.last 1) l.length
  rw [slotAfter_slotAfter, Nat.add_comm]
  exact h.first

theorem Holds.assign (hc : c + 1 < 2 ^ 31) (h : Holds c q l) (hidx : idx < l.length) :
    Holds c { q with queue := Function.update q.queue (q.index idx) t } (l.set idx t) := by
  refine ⟨h.size, h.last, ?_, ?_, ?_⟩
  · rw [List.length_set]
    exact h.length
  · rw [List.length_set]
    exact h.first
  · change stretch (Function.update q.queue (q.index idx) t) q.mSize q.last (l.set idx t).length = _
    rw [List.length_set, h.index_eq hc (hidx.le.trans h.length), stretch_update hidx, h.entries]
    rw [h.size]
    exact h.length.trans (Nat.le_succ c)

/-! ### The calls -/

/-- The assertions of a call, said of the list. -/
def Fits (c : Nat) (l : List T) : QueueCall T → Prop
  | .push _ => l.length < c
  | .pushCircular _ => True
  | .next => l.length < c
  | .pop => l ≠ []
  | .assign idx _ => idx < l.length

theorem Holds.not_full (hc : c + 1 < 2 ^ 31) (h : Holds c q l) (hlen : l.length < c) :
    ¬q.full = true := by
  rw [h.full_iff hc]
  exact hlen.ne

theorem Holds.push_ok (hc : c + 1 < 2 ^ 31) (h : Holds c q l) (hlen : l.length < c) :
    ∃ q', q.push t = .ok q' ∧ Holds c q' (l ++ [t]) := by
  rw [CircularQueue.push, if_neg (h.not_full hc hlen)]
  exact ⟨_, rfl, h.push hc hlen⟩

theorem Holds.pop_ok (hc : c + 1 < 2 ^ 31) (h : Holds c q (t :: l)) :
    ∃ q', q.pop = .ok (t, q') ∧ Holds c q' l := by
  have hempty : ¬q.empty = true := by
    rw [h.empty_iff]
    exact List.cons_ne_nil _ _
  obtain ⟨holdest, hrest⟩ := h.pop hc
  rw [CircularQueue.pop, if_neg hempty, holdest]
  exact ⟨_, rfl, hrest⟩

/-- The oldest entry is dropped exactly if the list has as many as it may. -/
theorem Holds.pushCircular_ok (hc : c + 1 < 2 ^ 31) (hpos : 0 < c) (h : Holds c q l) :
    ∃ q', q.pushCircular t = .ok q' ∧
      Holds c q' ((if l.length = c then l.tail else l) ++ [t]) := by
  rw [CircularQueue.pushCircular]
  by_cases hlen : l.length = c
  · rw [if_pos ((h.full_iff hc).mpr hlen), if_pos hlen]
    cases l with
    | nil => exact absurd hlen hpos.ne
    | cons oldest l =>
      obtain ⟨q₁, hpop, h₁⟩ := h.pop_ok hc
      obtain ⟨q', hpush, h'⟩ := h₁.push_ok (t := t) hc (Nat.lt_of_succ_le hlen.le)
      rw [hpop]
      exact ⟨q', hpush, h'⟩
  · rw [if_neg (mt (h.full_iff hc).mp hlen), if_neg hlen]
    exact h.push_ok hc (lt_of_le_of_ne h.length hlen)

/-- What the call does to the queue is what it does to the list. -/
theorem Holds.perform_ok {call : QueueCall T} (hc : c + 1 < 2 ^ 31) (hpos : 0 < c)
    (h : Holds c q l) (hfits : Fits c l call) :
    ∃ answer q' l', q.perform call = .ok (answer, q') ∧ fifoStep c l call answer l' ∧
      Holds c q' l' := by
  cases call with
  | push t =>
    obtain ⟨q', hpush, h'⟩ := h.push_ok (t := t) hc hfits
    refine ⟨none, q', l ++ [t], ?_, ⟨hfits, rfl, rfl⟩, h'⟩
    rw [perform, hpush]
    rfl
  | pushCircular t =>
    obtain ⟨q', hpush, h'⟩ := h.pushCircular_ok (t := t) hc hpos
    refine ⟨none, q', _, ?_, ⟨rfl, rfl⟩, h'⟩
    rw [perform, hpush]
    rfl
  | next =>
    refine ⟨some (q.queue q.first), _, _, ?_, ⟨hfits, _, rfl, rfl⟩, h.next hc hfits⟩
    rw [perform, CircularQueue.next, if_neg (h.not_full hc hfits)]
    rfl
  | pop =>
    cases l with
    | nil => exact absurd rfl hfits
    | cons t l =>
      obtain ⟨q', hpop, h'⟩ := h.pop_ok hc
      refine ⟨some t, q', l, ?_, ⟨t, rfl, rfl⟩, h'⟩
      rw [perform, hpop]
      rfl
  | assign idx t =>
    have hidx : idx < q.size := (h.size_eq hc).symm ▸ hfits
    refine ⟨none, _, _, ?_, ⟨hfits, rfl, rfl⟩, h.assign hc hfits⟩
    rw [perform, CircularQueue.assign, if_pos hidx]
    rfl

/-- Otherwise an assertion fails. -/
theorem Holds.perform_error {call : QueueCall T} (hc : c + 1 < 2 ^ 31) (h : Holds c q l)
    (hfits : ¬Fits c l call) : ∃ e, q.perform call = .error e := by
  have hfull : ¬l.length < c → q.full = true := fun hlen =>
    (h.full_iff hc).mpr (le_antisymm h.length (not_lt.mp hlen))
  cases call with
  | push t =>
    refine ⟨.full, ?_⟩
    rw [perform, CircularQueue.push, if_pos (hfull hfits)]
    rfl
  | pushCircular t => exact absurd trivial hfits
  | next =>
    refine ⟨.full, ?_⟩
    rw [perform, CircularQueue.next, if_pos (hfull hfits)]
    rfl
  | pop =>
    refine ⟨.empty, ?_⟩
    rw [perform, CircularQueue.pop, if_pos (h.empty_iff.mpr (not_not.mp hfits))]
    rfl
  | assign idx t =>
    have hidx : ¬idx < q.size := by
      rw [h.size_eq hc]
      exact hfits
    refine ⟨.outOfRange, ?_⟩
    rw [perform, CircularQueue.assign, if_neg hidx]
    rfl

theorem fits_of_fifoStep {call : QueueCall T} {answer : Option T} (h : fifoStep c l call answer l') :
    Fits c l call := by
  cases call with
  | push t => exact h.1
  | pushCircular t => exact trivial
  | next => exact h.1
  | pop =>
    obtain ⟨t, -, rfl⟩ := h
    exact List.cons_ne_nil _ _
  | assign idx t => exact h.1

theorem Holds.elements (hc : c + 1 < 2 ^ 31) (h : Holds c q l) : q.elements = l := by
  rw [CircularQueue.elements, h.size_eq hc]
  exact h.entries

theorem Holds.step {call : QueueCall T} {answer : Option T} (hc : c + 1 < 2 ^ 31) (hpos : 0 < c)
    (h : Holds c q q.elements) (hs : q.perform call = .ok (answer, q')) :
    Holds c q' q'.elements ∧ fifoStep c q.elements call answer q'.elements := by
  by_cases hfits : Fits c q.elements call
  · obtain ⟨answer', q₁, l', hok, hstep, h'⟩ := h.perform_ok hc hpos hfits
    cases hok.symm.trans hs
    rw [h'.elements hc]
    exact ⟨h', hstep⟩
  · obtain ⟨e, herror⟩ := h.perform_error hc hfits
    cases herror.symm.trans hs

/-- What is read of the queue is what is read of the list. -/
structure Agrees (c : Nat) (q : CircularQueue T) (l : List T) : Prop where
  length : l.length ≤ c
  size : q.size = l.length
  empty : q.empty = true ↔ l = []
  full : q.full = true ↔ l.length = c
  front : q.front.toOption = l.head?
  back : q.back.toOption = l.getLast?
  get : ∀ idx < l.length, l[idx]? = some (q.get idx)
  atIndex : ∀ idx, (q.atIndex idx).toOption = l[idx]?
  range : q.range = .ok l
  accepts : ∀ call, (∃ answer q', q.perform call = .ok (answer, q')) ↔
    ∃ answer l', fifoStep c l call answer l'

theorem Holds.front (hc : c + 1 < 2 ^ 31) (h : Holds c q l) : q.front.toOption = l.head? := by
  rw [CircularQueue.front]
  cases l with
  | nil => rw [if_pos (h.empty_iff.mpr rfl)]; rfl
  | cons t l =>
    rw [if_neg (mt h.empty_iff.mp (List.cons_ne_nil _ _)), (h.pop hc).1]
    rfl

theorem Holds.back_slot (hc : c + 1 < 2 ^ 31) (h : Holds c q (l ++ [t])) :
    ((q.first + q.mSize) % 2 ^ 32 + 2 ^ 32 - 1) % 2 ^ 32 % q.mSize =
      slotAfter q.mSize q.last l.length := by
  have hfirst : q.first < q.mSize := h.first ▸ h.slot_lt
  have hpos : 0 < q.mSize := h.size ▸ Nat.succ_pos c
  have hwidth : ((q.first + q.mSize) % 2 ^ 32 + 2 ^ 32 - 1) % 2 ^ 32 = q.first + (q.mSize - 1) := by
    rw [h.size] at hfirst ⊢
    omega
  have hlen : (l ++ [t]).length = l.length + 1 := by simp
  have haround : l.length + 1 + (q.mSize - 1) = l.length + q.mSize := by omega
  rw [hwidth, h.first, hlen]
  change slotAfter q.mSize (slotAfter q.mSize q.last (l.length + 1)) (q.mSize - 1) = _
  rw [slotAfter_slotAfter, haround, slotAfter_add_self]

theorem Holds.back (hc : c + 1 < 2 ^ 31) (h : Holds c q l) : q.back.toOption = l.getLast? := by
  rw [CircularQueue.back]
  rcases List.eq_nil_or_concat l with rfl | ⟨l, t, rfl⟩
  · rw [if_pos (h.empty_iff.mpr rfl)]
    rfl
  · rw [List.concat_eq_append] at h ⊢
    have hread : (l ++ [t])[l.length]? = some (q.get l.length) := h.get_eq hc (by simp)
    have hlen : l.length ≤ c := by
      have hlength := h.length
      rw [List.length_append] at hlength
      exact (Nat.le_add_right _ _).trans hlength
    rw [get, h.index_eq hc hlen, List.getElem?_concat_length] at hread
    rw [if_neg (mt h.empty_iff.mp (List.append_ne_nil_of_right_ne_nil _ (List.cons_ne_nil _ _))),
      h.back_slot hc, List.getLast?_concat]
    exact hread.symm

theorem Holds.atIndex (hc : c + 1 < 2 ^ 31) (h : Holds c q l) (idx : Nat) :
    (q.atIndex idx).toOption = l[idx]? := by
  rw [CircularQueue.atIndex, h.size_eq hc]
  by_cases hidx : idx < l.length
  · rw [if_pos hidx, h.get_eq hc hidx]
    rfl
  · rw [if_neg hidx, List.getElem?_eq_none (not_lt.mp hidx)]
    rfl

theorem Holds.rangeFrom (hc : c + 1 < 2 ^ 31) (h : Holds c q l) {left : Nat}
    (hleft : idx + left = l.length) : q.rangeFrom idx left = .ok (l.drop idx) := by
  induction left generalizing idx with
  | zero =>
    rw [CircularQueue.rangeFrom, List.drop_eq_nil_of_le (by omega)]
  | succ left ih =>
    have hidx : idx < l.length := by omega
    have hat : q.atIndex idx = .ok (q.get idx) := by
      rw [CircularQueue.atIndex, h.size_eq hc, if_pos hidx]
    have hread := h.get_eq hc hidx
    rw [List.getElem?_eq_getElem hidx] at hread
    rw [CircularQueue.rangeFrom, hat, ih (by omega), List.drop_eq_getElem_cons hidx,
      Option.some.inj hread]
    rfl

theorem Holds.range (hc : c + 1 < 2 ^ 31) (h : Holds c q l) : q.range = .ok l := by
  rw [CircularQueue.range, h.size_eq hc]
  exact h.rangeFrom hc (Nat.zero_add _)

theorem Holds.agrees (hc : c + 1 < 2 ^ 31) (hpos : 0 < c) (h : Holds c q l) : Agrees c q l where
  length := h.length
  size := h.size_eq hc
  empty := h.empty_iff
  full := h.full_iff hc
  front := h.front hc
  back := h.back hc
  get _ hidx := h.get_eq hc hidx
  atIndex := h.atIndex hc
  range := h.range hc
  accepts call := by
    by_cases hfits : Fits c l call
    · obtain ⟨answer, q', l', hok, hstep, -⟩ := h.perform_ok hc hpos hfits
      exact ⟨fun _ => ⟨answer, l', hstep⟩, fun _ => ⟨answer, q', hok⟩⟩
    · obtain ⟨e, herror⟩ := h.perform_error hc hfits
      constructor
      · rintro ⟨answer, q', hok⟩
        cases herror.symm.trans hok
      · rintro ⟨answer, l', hstep⟩
        exact absurd (fits_of_fifoStep hstep) hfits

end

/-- In every run the queue is the list that the same calls make, with the same answers. -/
theorem run_refines_fifo {c : Nat} {q : CircularQueue T} {tr : List (QueueCall T × Option T)}
    (hpos : 1 ≤ c) (hc : c + 1 < 2 ^ 31) (h : Run (machine T c) anyStep tr q) :
    Run (fifo T c) anyStep tr q.elements ∧ Agrees c q q.elements := by
  have hinit : ∀ slots : Nat → T, Holds c (new c slots) (new c slots).elements ∧
      (new c slots).elements = [] := by
    intro slots
    have hnew := holds_new hc slots
    rw [hnew.elements hc]
    exact ⟨hnew, rfl⟩
  obtain ⟨hholds, hrun⟩ := h.refines (A := fifo T c) elements
    (I := fun q => Holds c q q.elements)
    (by rintro q ⟨slots, rfl⟩; exact hinit slots)
    (fun q call answer q' hq _ hs => hq.step hc hpos hs)
  exact ⟨hrun, hholds.agrees hc hpos⟩

/-- Once around a queue of two entries. -/
def calls : List (QueueCall Nat) := [.push 1, .push 2, .pushCircular 3, .pop, .next, .assign 1 4]

theorem run_refines_fifo_calls : ∃ tr q, Run (machine Nat 2) anyStep tr q ∧ q.range = .ok [3, 4] ∧
    Run (fifo Nat 2) anyStep tr q.elements ∧ Agrees 2 q q.elements := by
  have hrun : ((performEach perform (fun _ _ => true) (new 2 fun _ => 0) calls).map fun q =>
      q.range) = some (.ok [3, 4]) := by decide
  obtain ⟨q, hq, hrange⟩ := Option.map_eq_some_iff.mp hrun
  obtain ⟨tr, h⟩ : ∃ tr, Run (machine Nat 2) anyStep tr q :=
    Run.performEach (M := machine Nat 2) (fun _ _ _ _ h => h) (fun _ _ _ => trivial)
      (.start ⟨fun _ => 0, rfl⟩) hq
  exact ⟨tr, q, h, hrange, run_refines_fifo (by decide) (by decide) h⟩

end CircularQueue

end Sniper.Misc
