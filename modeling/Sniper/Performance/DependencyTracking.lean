import Sniper.Performance.DependencyList
import Mathlib.Data.Finset.Union
import Mathlib.Data.Finset.Option
set_option autoImplicit false

/-! Whom a micro-operation depends on: the last writers of its registers, the last store to its
address and the last memory barrier, as far as they are in the window. -/

namespace Sniper.Performance

open DynamicMicroOp

/-! ### What the tables stand for -/

/-- The last micro-operation of a kind. -/
def lastOf (kind : DynamicMicroOp → Bool) (done : List DynamicMicroOp) : Option Nat :=
  (done.reverse.find? kind).map fun uop => uop.sequenceNumber

def writes (reg : Nat) (uop : DynamicMicroOp) : Bool :=
  decide (reg ∈ uop.microOp.destinationRegisters)

def storesTo (address : Nat) (uop : DynamicMicroOp) : Bool :=
  uop.microOp.isStore && decide (uop.phys = address)

def isBarrier (uop : DynamicMicroOp) : Bool :=
  uop.microOp.isMemBarrier && !uop.microOp.isLoad && !uop.microOp.isStore

/-- Loads, stores and barriers wait for the last barrier. -/
def waitsForBarrier (uop : DynamicMicroOp) : Bool :=
  uop.microOp.isLoad || uop.microOp.isStore || uop.microOp.isMemBarrier

def inWindow (lowest : Nat) (producer : Option Nat) : Finset Nat :=
  (producer.filter fun number => lowest ≤ number).toFinset

def registerProducers (producers : Nat → Option Nat) (lowest : Nat) (registers : List Nat) :
    Finset Nat :=
  registers.toFinset.biUnion fun reg => inWindow lowest (producers reg)

def storeProducers (done : List DynamicMicroOp) (lowest : Nat) (uop : DynamicMicroOp) :
    Finset Nat :=
  if uop.microOp.isLoad then inWindow lowest (lastOf (storesTo uop.phys) done) else ∅

def barrierProducers (done : List DynamicMicroOp) (lowest : Nat) (uop : DynamicMicroOp) :
    Finset Nat :=
  if waitsForBarrier uop then inWindow lowest (lastOf isBarrier done) else ∅

/-- The producers that a micro-operation has after those before it. -/
def producersOf (done : List DynamicMicroOp) (lowest : Nat) (uop : DynamicMicroOp) : Finset Nat :=
  registerProducers (fun reg => lastOf (writes reg) done) lowest uop.microOp.sourceRegisters ∪
    storeProducers done lowest uop ∪ barrierProducers done lowest uop

/-! ### Additions -/

/-- The dependencies are different ones, no more than there is room for. -/
structure Roomy (uop : DynamicMicroOp) : Prop where
  nodup : uop.dependencies.Nodup
  room : uop.dependencies.toFinset.card ≤ maximumNumberOfDependencies

/-- Numbers have been added to the dependencies, and nothing else has changed. -/
structure Adds (uop uop' : DynamicMicroOp) (new : Finset Nat) : Prop where
  same : uop' = { uop with dependencies := uop'.dependencies }
  roomy : Roomy uop'
  members : uop'.dependencies.toFinset = uop.dependencies.toFinset ∪ new

/-- A computation that adds numbers as long as there is room for all of them. -/
structure Outcome {α : Type} (uop : DynamicMicroOp) (new : Finset Nat)
    (result : Except RobAbort α) (get : α → DynamicMicroOp) (post : α → Prop) : Prop where
  ok : (uop.dependencies.toFinset ∪ new).card ≤ maximumNumberOfDependencies →
    ∃ a, result = .ok a ∧ Adds uop (get a) new ∧ post a
  error : ¬(uop.dependencies.toFinset ∪ new).card ≤ maximumNumberOfDependencies →
    ∃ e, result = .error e

theorem Adds.refl {uop : DynamicMicroOp} (h : Roomy uop) : Adds uop uop ∅ :=
  ⟨rfl, h, by simp⟩

theorem Adds.microOp {uop uop' : DynamicMicroOp} {new : Finset Nat} (h : Adds uop uop' new) :
    uop'.microOp = uop.microOp := by rw [h.same]

theorem Adds.sequenceNumber {uop uop' : DynamicMicroOp} {new : Finset Nat}
    (h : Adds uop uop' new) : uop'.sequenceNumber = uop.sequenceNumber := by rw [h.same]

theorem Adds.phys {uop uop' : DynamicMicroOp} {new : Finset Nat} (h : Adds uop uop' new) :
    uop'.phys = uop.phys := by rw [h.same]

theorem Adds.trans {uop uop' uop'' : DynamicMicroOp} {new new' : Finset Nat}
    (h : Adds uop uop' new) (h' : Adds uop' uop'' new') : Adds uop uop'' (new ∪ new') := by
  refine ⟨?_, h'.roomy, ?_⟩
  · have hsame := h'.same
    rw [h.same] at hsame
    exact hsame
  · rw [h'.members, h.members, Finset.union_assoc]

theorem Outcome.pure {α : Type} {uop : DynamicMicroOp} (h : Roomy uop)
    {get : α → DynamicMicroOp} {post : α → Prop} {a : α} (hget : get a = uop) (hpost : post a) :
    Outcome uop ∅ (.ok a) get post where
  ok _ := ⟨a, rfl, by rw [hget]; exact Adds.refl h, hpost⟩
  error hover := by
    rw [Finset.union_empty] at hover
    exact absurd h.room hover

/-- One addition after another. -/
theorem Outcome.bind {α β : Type} {uop : DynamicMicroOp} {new new' : Finset Nat}
    {result : Except RobAbort α} {get : α → DynamicMicroOp} {post : α → Prop}
    {next : α → Except RobAbort β} {get' : β → DynamicMicroOp} {post' : β → Prop}
    (h : Outcome uop new result get post)
    (h' : ∀ a, Adds uop (get a) new → post a → Outcome (get a) new' (next a) get' post') :
    Outcome uop (new ∪ new') (result >>= next) get' post' := by
  by_cases hfirst : (uop.dependencies.toFinset ∪ new).card ≤ maximumNumberOfDependencies
  · obtain ⟨a, heq, hadds, hpost⟩ := h.ok hfirst
    have hnext := h' a hadds hpost
    rw [heq]
    constructor
    · intro hroom
      rw [← Finset.union_assoc, ← hadds.members] at hroom
      obtain ⟨b, hb, hadds', hpost'⟩ := hnext.ok hroom
      exact ⟨b, hb, hadds.trans hadds', hpost'⟩
    · intro hover
      rw [← Finset.union_assoc, ← hadds.members] at hover
      exact hnext.error hover
  · obtain ⟨e, heq⟩ := h.error hfirst
    rw [heq]
    constructor
    · intro hroom
      refine absurd (le_trans (Finset.card_le_card ?_) hroom) hfirst
      exact Finset.union_subset_union_right Finset.subset_union_left
    · exact fun _ => ⟨e, rfl⟩

/-- What is returned with the micro-operation can be put together anew. -/
theorem Outcome.map {α β : Type} {uop : DynamicMicroOp} {new : Finset Nat}
    {result : Except RobAbort α} {get : α → DynamicMicroOp} {post : α → Prop} {f : α → β}
    {get' : β → DynamicMicroOp} {post' : β → Prop} (h : Outcome uop new result get post)
    (hget : ∀ a, get' (f a) = get a)
    (hpost : ∀ a, Adds uop (get a) new → post a → post' (f a)) :
    Outcome uop new (result >>= fun a => .ok (f a)) get' post' := by
  constructor
  · intro hroom
    obtain ⟨a, heq, hadds, ha⟩ := h.ok hroom
    exact ⟨f a, by rw [heq]; rfl, by rw [hget]; exact hadds, hpost a hadds ha⟩
  · intro hover
    obtain ⟨e, heq⟩ := h.error hover
    exact ⟨e, by rw [heq]; rfl⟩

theorem addDependency_outcome {uop : DynamicMicroOp} (h : Roomy uop) (x : Nat) :
    Outcome uop {x} (uop.addDependency x) id fun _ => True := by
  by_cases hmem : x ∈ uop.dependencies
  · have hsame : uop.dependencies.toFinset ∪ {x} = uop.dependencies.toFinset := by
      rw [Finset.union_eq_left, Finset.singleton_subset_iff, List.mem_toFinset]
      exact hmem
    rw [addDependency_mem hmem]
    constructor
    · intro _
      exact ⟨uop, rfl, ⟨rfl, h, hsame.symm⟩, trivial⟩
    · intro hover
      rw [hsame] at hover
      exact absurd h.room hover
  · have hcard : (uop.dependencies.toFinset ∪ {x}).card = uop.dependencies.length + 1 := by
      rw [Finset.union_comm, ← Finset.insert_eq, Finset.card_insert_of_notMem (by simpa using hmem),
        List.toFinset_card_of_nodup h.nodup]
    constructor
    · intro hle
      have hroom := hle
      rw [hcard] at hle
      refine ⟨_, addDependency_notMem hmem hle, ⟨rfl, ⟨?_, ?_⟩, ?_⟩, trivial⟩
      · exact List.nodup_append'.mpr ⟨h.nodup, List.nodup_singleton x, by simpa using hmem⟩
      · simpa using hroom
      · simp
    · intro hover
      rw [hcard] at hover
      refine ⟨.tooManyDependencies, ?_⟩
      rw [addDependency, if_neg hmem]
      exact if_neg hover

/-- An addition that may not be needed. -/
theorem addWindow_outcome {uop : DynamicMicroOp} (h : Roomy uop) (producer : Option Nat) :
    Outcome uop producer.toFinset (match producer with
      | some number => uop.addDependency number
      | none => .ok uop) id fun _ => True := by
  cases producer with
  | none => exact Outcome.pure h rfl trivial
  | some number => exact addDependency_outcome h number

/-! ### Registers -/

theorem lastOf_append (kind : DynamicMicroOp → Bool) (done : List DynamicMicroOp)
    (uop : DynamicMicroOp) :
    lastOf kind (done ++ [uop]) =
      if kind uop then some uop.sequenceNumber else lastOf kind done := by
  rw [lastOf, List.reverse_append, List.reverse_singleton, List.singleton_append, List.find?_cons]
  cases kind uop <;> rfl

/-- The two name the same producers in every window from `lowest` on. -/
def SameWindow (lowest : Nat) (producer producer' : Option Nat) : Prop :=
  ∀ low, lowest ≤ low → inWindow low producer = inWindow low producer'

theorem inWindow_none (lowest : Nat) : inWindow lowest none = ∅ := rfl

theorem inWindow_some (lowest number : Nat) :
    inWindow lowest (some number) = if lowest ≤ number then {number} else ∅ := by
  by_cases h : lowest ≤ number <;> simp [inWindow, Option.filter, h]

theorem registerProducers_cons (producers : Nat → Option Nat) (lowest reg : Nat)
    (registers : List Nat) :
    registerProducers producers lowest (reg :: registers) =
      inWindow lowest (producers reg) ∪ registerProducers producers lowest registers := by
  rw [registerProducers, List.toFinset_cons, Finset.biUnion_insert]
  rfl

theorem registerProducers_congr {producers producers' : Nat → Option Nat} {lowest : Nat}
    (h : ∀ reg, SameWindow lowest (producers reg) (producers' reg)) (registers : List Nat) :
    registerProducers producers lowest registers =
      registerProducers producers' lowest registers :=
  Finset.biUnion_congr rfl fun reg _ => h reg lowest le_rfl

/-- A table that was looked at names the same producers as before. -/
def KeepsWindows (lowest : Nat) (deps deps' : RegisterDependencies) : Prop :=
  ∀ reg, SameWindow lowest (deps'.producers reg) (deps.producers reg)

theorem source_outcome {uop : DynamicMicroOp} (h : Roomy uop) (deps : RegisterDependencies)
    (lowest reg : Nat) :
    Outcome uop (inWindow lowest (deps.producers reg))
      (RegisterDependencies.source lowest (deps, uop) reg) Prod.snd
      fun a => KeepsWindows lowest deps a.1 := by
  have hrefl : KeepsWindows lowest deps deps := fun _ _ _ => rfl
  unfold RegisterDependencies.source
  cases hproducer : deps.producers reg with
  | none => exact Outcome.pure h rfl hrefl
  | some number =>
    simp only
    rw [inWindow_some]
    split
    · exact (addDependency_outcome h number).map (fun _ => rfl) fun _ _ _ => hrefl
    · next hlow =>
      refine Outcome.pure h rfl fun other low hle => ?_
      by_cases hreg : other = reg
      · subst hreg
        simp only [Function.update_self]
        rw [hproducer, inWindow_some, inWindow_none, if_neg (by omega)]
      · simp only [Function.update_of_ne hreg]

theorem sources_outcome (registers : List Nat) (lowest : Nat) :
    ∀ {uop : DynamicMicroOp} {deps : RegisterDependencies}, Roomy uop →
    Outcome uop (registerProducers deps.producers lowest registers)
      (registers.foldlM (RegisterDependencies.source lowest) (deps, uop)) Prod.snd
      fun a => KeepsWindows lowest deps a.1 := by
  induction registers with
  | nil =>
    intro uop deps h
    exact Outcome.pure h rfl fun _ _ _ => rfl
  | cons reg registers ih =>
    intro uop deps h
    rw [registerProducers_cons, List.foldlM_cons]
    refine (source_outcome h deps lowest reg).bind fun a hadds hkeeps => ?_
    have hrest := @ih a.2 a.1 hadds.roomy
    rw [registerProducers_congr hkeeps] at hrest
    refine ⟨fun hroom => ?_, hrest.error⟩
    obtain ⟨b, heq, hadds', hkeeps'⟩ := hrest.ok hroom
    refine ⟨b, heq, hadds', fun other low hle => ?_⟩
    exact (hkeeps' other low hle).trans (hkeeps other low hle)

/-- The table names the last writers, as far as they can still be in the window. -/
def TracksRegisters (lowest : Nat) (done : List DynamicMicroOp) (deps : RegisterDependencies) :
    Prop :=
  ∀ reg, SameWindow lowest (deps.producers reg) (lastOf (writes reg) done)

theorem destinations_eq (number : Nat) (registers : List Nat) (reg : Nat) :
    ∀ producers : Nat → Option Nat,
    registers.foldl (fun producers reg => Function.update producers reg (some number)) producers
        reg =
      if reg ∈ registers then some number else producers reg := by
  induction registers with
  | nil => exact fun _ => rfl
  | cons head tail ih =>
    intro producers
    rw [List.foldl_cons, ih]
    by_cases htail : reg ∈ tail
    · simp [htail]
    · by_cases hhead : reg = head
      · simp [hhead]
      · simp [htail, hhead]

theorem registers_outcome {uop : DynamicMicroOp} (h : Roomy uop) {done : List DynamicMicroOp}
    {deps : RegisterDependencies} {lowest : Nat} (ht : TracksRegisters lowest done deps) :
    Outcome uop
      (registerProducers (fun reg => lastOf (writes reg) done) lowest uop.microOp.sourceRegisters)
      (deps.setDependencies uop lowest) Prod.snd
      fun a => TracksRegisters lowest (done ++ [uop]) a.1 := by
  have hsources := @sources_outcome uop.microOp.sourceRegisters lowest uop deps h
  rw [registerProducers_congr ht] at hsources
  refine hsources.map (fun _ => rfl) fun a hadds hkeeps reg low hle => ?_
  have hdest := destinations_eq a.2.sequenceNumber a.2.microOp.destinationRegisters reg
    a.1.producers
  refine (congrArg (inWindow low) hdest).trans ?_
  rw [lastOf_append, writes, hadds.microOp, hadds.sequenceNumber]
  by_cases hreg : reg ∈ uop.microOp.destinationRegisters
  · simp [hreg]
  · simp only [hreg, if_false, decide_false, Bool.false_eq_true]
    exact (hkeeps reg low hle).trans (ht reg low hle)

/-! ### Memory -/

def stores (done : List DynamicMicroOp) : List (Nat × Nat) :=
  (done.filter fun uop => uop.microOp.isStore).map fun uop => (uop.sequenceNumber, uop.phys)

theorem stores_append (done : List DynamicMicroOp) (uop : DynamicMicroOp) :
    stores (done ++ [uop]) =
      stores done ++ if uop.microOp.isStore then [(uop.sequenceNumber, uop.phys)] else [] := by
  cases h : uop.microOp.isStore <;> simp [stores, h]

/-- In the order of the stream. -/
def InOrder (done : List DynamicMicroOp) : Prop :=
  done.Pairwise fun u v => u.sequenceNumber < v.sequenceNumber

theorem InOrder.stores {done : List DynamicMicroOp} (h : InOrder done) :
    (stores done).Pairwise fun p q => p.1 < q.1 :=
  List.pairwise_map.mpr (h.sublist List.filter_sublist)

/-- The queue holds stores in order, and all that can still be in the window; the barrier is the
last one. -/
structure TracksMemory (lowest : Nat) (done : List DynamicMicroOp) (deps : MemoryDependencies) :
    Prop where
  sublist : deps.producers.Sublist (stores done)
  window : ∀ low, lowest ≤ low →
    deps.producers.filter (fun p => low ≤ p.1) = (stores done).filter fun p => low ≤ p.1
  membar : deps.membar = lastOf isBarrier done

theorem dropWhile_eq_filter {l : List (Nat × Nat)} (h : l.Pairwise fun p q => p.1 < q.1)
    (low : Nat) : l.dropWhile (fun p => p.1 < low) = l.filter fun p => low ≤ p.1 := by
  induction l with
  | nil => rfl
  | cons p l ih =>
    obtain ⟨hp, hl⟩ := List.pairwise_cons.mp h
    by_cases hlow : p.1 < low
    · rw [List.dropWhile_cons_of_pos (by simpa using hlow),
        List.filter_cons_of_neg (by simpa using hlow), ih hl]
    · rw [List.dropWhile_cons_of_neg (by simpa using hlow),
        List.filter_cons_of_pos (by simpa using hlow)]
      congr 1
      symm
      rw [List.filter_eq_self]
      intro q hq
      have hlt := hp q hq
      simp only [decide_eq_true_eq]
      omega

theorem TracksMemory.clean {lowest low : Nat} {done : List DynamicMicroOp}
    {deps : MemoryDependencies} (h : TracksMemory lowest done deps) (ho : InOrder done)
    (hle : lowest ≤ low) :
    (deps.clean low).producers = (stores done).filter fun p => low ≤ p.1 := by
  rw [MemoryDependencies.clean]
  exact (dropWhile_eq_filter (ho.stores.sublist h.sublist) low).trans (h.window low hle)

/-- The last store to an address among those in the window is the last of all, if that is in the
window. -/
theorem find_window {done : List DynamicMicroOp} (ho : InOrder done) (low address : Nat) :
    (((stores done).filter fun p => low ≤ p.1).reverse.find? fun p => p.2 = address).map Prod.fst =
      (lastOf (storesTo address) done).filter fun number => low ≤ number := by
  induction done using List.reverseRecOn with
  | nil => rfl
  | append_singleton done uop ih =>
    obtain ⟨hdone, _, hlast⟩ := List.pairwise_append.mp ho
    have hrest := ih hdone
    rw [stores_append, lastOf_append, storesTo]
    cases hstore : uop.microOp.isStore with
    | false => simpa using hrest
    | true =>
      by_cases hlow : low ≤ uop.sequenceNumber
      · by_cases haddress : uop.phys = address
        · simp [List.filter_append, Option.filter, hlow, haddress]
        · simpa [List.filter_append, hlow, haddress] using hrest
      · -- with the last store all earlier ones are out of the window
        have hnone : (stores done).filter (fun p => low ≤ p.1) = [] := by
          rw [List.filter_eq_nil_iff]
          intro p hp
          obtain ⟨u, hu, rfl⟩ := List.mem_map.mp hp
          have hlt := hlast u (List.mem_of_mem_filter hu) uop (List.mem_singleton.mpr rfl)
          simp only [decide_eq_true_eq]
          omega
        rw [hnone] at hrest
        by_cases haddress : uop.phys = address
        · simp [List.filter_append, Option.filter, hlow, haddress, hnone]
        · simpa [List.filter_append, hlow, haddress, hnone] using hrest

/-- The barrier that is added: not one at the very edge of the window. -/
def barrierAdded (done : List DynamicMicroOp) (lowest : Nat) (uop : DynamicMicroOp) : Finset Nat :=
  if waitsForBarrier uop then
    ((lastOf isBarrier done).filter fun number => lowest < number).toFinset
  else ∅

theorem addMembar_outcome {uop : DynamicMicroOp} (h : Roomy uop) {deps : MemoryDependencies}
    {lowest : Nat} {producer : Option Nat} (hmembar : deps.membar = producer) :
    Outcome uop (producer.filter fun number => lowest < number).toFinset
      (deps.addMembar uop lowest) id fun _ => True := by
  have hadd := addWindow_outcome h (producer.filter fun number => lowest < number)
  unfold MemoryDependencies.addMembar
  rw [hmembar]
  cases producer with
  | none => exact hadd
  | some number =>
    by_cases hlow : lowest < number
    · simpa [Option.filter, hlow] using hadd
    · simpa [Option.filter, hlow] using hadd

/-- After a micro-operation that is no store, the queue has been cleaned only. -/
theorem TracksMemory.next {lowest low : Nat} {done : List DynamicMicroOp}
    {deps : MemoryDependencies} (h : TracksMemory lowest done deps) (ho : InOrder done)
    (hle : lowest ≤ low) (uop : DynamicMicroOp) (membar : Option Nat)
    (hmembar : membar = lastOf isBarrier (done ++ [uop])) (added : List (Nat × Nat))
    (hadded : added = if uop.microOp.isStore then [(uop.sequenceNumber, uop.phys)] else []) :
    TracksMemory low (done ++ [uop]) ⟨(deps.clean low).producers ++ added, membar⟩ := by
  have hclean := h.clean ho hle
  refine ⟨?_, fun low' hle' => ?_, hmembar⟩
  · rw [stores_append, hclean, hadded]
    exact List.filter_sublist.append (List.Sublist.refl _)
  · rw [stores_append, hclean, hadded, List.filter_append, List.filter_append,
      List.filter_filter]
    congr 1
    refine List.filter_congr fun p _ => ?_
    rw [Bool.eq_iff_iff, Bool.and_eq_true, decide_eq_true_eq, decide_eq_true_eq]
    omega

theorem memory_outcome {uop : DynamicMicroOp} (h : Roomy uop) {done : List DynamicMicroOp}
    {deps : MemoryDependencies} {lowest low : Nat} (ht : TracksMemory lowest done deps)
    (ho : InOrder done) (hle : lowest ≤ low)
    (hstores : uop.microOp.isStore = true →
      ((stores done).filter fun p => low ≤ p.1).length < MemoryDependencies.capacity) :
    Outcome uop (storeProducers done low uop ∪ barrierAdded done low uop)
      (deps.setDependencies uop low) Prod.snd
      fun a => TracksMemory low (done ++ [uop]) a.1 := by
  have hclean := ht.clean ho hle
  have hcleanbar : (deps.clean low).membar = lastOf isBarrier done := ht.membar
  have hother : isBarrier uop = false →
      (deps.clean low).membar = lastOf isBarrier (done ++ [uop]) := by
    intro hno
    rw [lastOf_append, hno]
    exact hcleanbar
  unfold MemoryDependencies.setDependencies
  simp only
  cases hload : uop.microOp.isLoad with
  | true =>
    have hnostore : uop.microOp.isStore = false := by
      rw [MicroOp.isLoad, decide_eq_true_eq] at hload
      simp [MicroOp.isStore, hload]
    have hfound : (deps.clean low).find uop.phys =
        (lastOf (storesTo uop.phys) done).filter fun number => low ≤ number := by
      rw [MemoryDependencies.find, hclean]
      exact find_window ho low uop.phys
    simp only [storeProducers, barrierAdded, waitsForBarrier, hload, if_true, Bool.true_or,
      inWindow]
    rw [hfound]
    have hnobar : isBarrier uop = false := by simp [isBarrier, hload]
    have hnext := ht.next ho hle uop _ (hother hnobar) [] (by simp [hnostore])
    rw [List.append_nil] at hnext
    cases (lastOf (storesTo uop.phys) done).filter fun number => low ≤ number with
    | none =>
      rw [Option.toFinset_none, Finset.empty_union]
      exact (addMembar_outcome h hcleanbar).map (fun _ => rfl) fun _ _ _ => hnext
    | some producer =>
      refine (addDependency_outcome h producer).bind fun found hadds _ => ?_
      exact (addMembar_outcome hadds.roomy hcleanbar).map (fun _ => rfl) fun _ _ _ => hnext
  | false =>
    simp only [storeProducers, barrierAdded, waitsForBarrier, hload, Bool.false_eq_true, if_false,
      Bool.false_or, Finset.empty_union]
    cases hstore : uop.microOp.isStore with
    | true =>
      have hroom : (deps.clean low).producers.length < MemoryDependencies.capacity := by
        rw [hclean]
        exact hstores hstore
      have hnobar : isBarrier uop = false := by simp [isBarrier, hstore]
      simp only [if_true, Bool.true_or]
      rw [if_pos hroom]
      refine (addMembar_outcome h hcleanbar).map (fun _ => rfl) fun _ _ _ => ?_
      exact ht.next ho hle uop _ (hother hnobar) _ (by simp [hstore])
    | false =>
      simp only [Bool.false_eq_true, if_false, Bool.false_or]
      cases hbar : uop.microOp.isMemBarrier with
      | true =>
        simp only [if_true]
        refine (addMembar_outcome h hcleanbar).map (fun _ => rfl) fun a hadds _ => ?_
        have hseq : a.sequenceNumber = uop.sequenceNumber := hadds.sequenceNumber
        have hnext := ht.next ho hle uop (some a.sequenceNumber)
          (by rw [lastOf_append, hseq]; simp [isBarrier, hload, hstore, hbar]) [] (by simp [hstore])
        rwa [List.append_nil] at hnext
      | false =>
        have hnobar : isBarrier uop = false := by simp [isBarrier, hbar]
        simp only [Bool.false_eq_true, if_false]
        have hnext := ht.next ho hle uop _ (hother hnobar) [] (by simp [hstore])
        rw [List.append_nil] at hnext
        exact Outcome.pure h rfl hnext

/-! ### Both tables, over a stream -/

structure DependencyTables where
  registers : RegisterDependencies
  memory : MemoryDependencies

namespace DependencyTables

def clear : DependencyTables := ⟨RegisterDependencies.clear, MemoryDependencies.clear⟩

def setDependencies (tables : DependencyTables) (uop : DynamicMicroOp) (lowest : Nat) :
    Except RobAbort (DependencyTables × DynamicMicroOp) := do
  let (registers, uop) ← tables.registers.setDependencies uop lowest
  let (memory, uop) ← tables.memory.setDependencies uop lowest
  return (⟨registers, memory⟩, uop)

structure Tracks (lowest : Nat) (done : List DynamicMicroOp) (tables : DependencyTables) :
    Prop where
  registers : TracksRegisters lowest done tables.registers
  memory : TracksMemory lowest done tables.memory

theorem clear_tracks : Tracks 0 [] clear :=
  ⟨fun _ _ _ => rfl, List.Sublist.refl _, fun _ _ => rfl, rfl⟩

/-- The last barrier is at the very edge of the window, and nothing else makes it a producer. -/
def AtEdge (done : List DynamicMicroOp) (lowest : Nat) (uop : DynamicMicroOp) : Prop :=
  waitsForBarrier uop = true ∧ lastOf isBarrier done = some lowest ∧
    lowest ∉ registerProducers (fun reg => lastOf (writes reg) done) lowest
      uop.microOp.sourceRegisters ∪ storeProducers done lowest uop

/-- What the tables add. -/
def added (done : List DynamicMicroOp) (lowest : Nat) (uop : DynamicMicroOp) : Finset Nat :=
  registerProducers (fun reg => lastOf (writes reg) done) lowest uop.microOp.sourceRegisters ∪
    (storeProducers done lowest uop ∪ barrierAdded done lowest uop)

theorem added_eq_iff (done : List DynamicMicroOp) (lowest : Nat) (uop : DynamicMicroOp) :
    added done lowest uop = producersOf done lowest uop ↔ ¬AtEdge done lowest uop := by
  have hassoc : added done lowest uop = (registerProducers (fun reg => lastOf (writes reg) done)
      lowest uop.microOp.sourceRegisters ∪ storeProducers done lowest uop) ∪
        barrierAdded done lowest uop := (Finset.union_assoc _ _ _).symm
  rw [hassoc, producersOf]
  constructor
  · rintro hsame ⟨hwaits, hlast, hnot⟩
    have hmem : lowest ∈ barrierProducers done lowest uop := by
      rw [barrierProducers, if_pos hwaits, hlast, inWindow_some, if_pos le_rfl]
      exact Finset.mem_singleton_self _
    have hin := Finset.mem_union_right (registerProducers (fun reg => lastOf (writes reg) done)
      lowest uop.microOp.sourceRegisters ∪ storeProducers done lowest uop) hmem
    rw [← hsame, Finset.mem_union] at hin
    rcases hin with hin | hin
    · exact hnot hin
    · rw [barrierAdded, if_pos hwaits, hlast] at hin
      simp [Option.filter] at hin
  · intro hedge
    by_cases hwaits : waitsForBarrier uop = true
    · rw [barrierAdded, barrierProducers, if_pos hwaits, if_pos hwaits]
      cases hlast : lastOf isBarrier done with
      | none => rfl
      | some number =>
        rw [inWindow_some]
        by_cases heq : number = lowest
        · subst heq
          have hin : number ∈ registerProducers (fun reg => lastOf (writes reg) done) number
              uop.microOp.sourceRegisters ∪ storeProducers done number uop := by
            by_contra hnot
            exact hedge ⟨hwaits, hlast, hnot⟩
          rw [if_pos le_rfl, Finset.union_eq_left.mpr (Finset.singleton_subset_iff.mpr hin)]
          simp [Option.filter]
        · have hcmp : lowest < number ↔ lowest ≤ number := by omega
          by_cases hle : lowest ≤ number
          · simp [Option.filter, hcmp, hle]
          · simp [Option.filter, hcmp, hle]
    · rw [barrierAdded, barrierProducers, if_neg hwaits, if_neg hwaits]

theorem setDependencies_outcome {uop : DynamicMicroOp} (h : Roomy uop)
    {done : List DynamicMicroOp} {tables : DependencyTables} {lowest low : Nat}
    (ht : Tracks lowest done tables) (ho : InOrder done) (hle : lowest ≤ low)
    (hstores : uop.microOp.isStore = true →
      ((stores done).filter fun p => low ≤ p.1).length < MemoryDependencies.capacity) :
    Outcome uop (added done low uop) (tables.setDependencies uop low) Prod.snd
      fun a => Tracks low (done ++ [uop]) a.1 := by
  have hregisters : TracksRegisters low done tables.registers :=
    fun reg low' hle' => ht.registers reg low' (hle.trans hle')
  refine (registers_outcome h hregisters).bind fun a hadds hreg => ?_
  have hmem := memory_outcome hadds.roomy ht.memory ho hle (by rw [hadds.microOp]; exact hstores)
  -- the additions change nothing that the tables look at
  have hstore : storeProducers done low a.2 = storeProducers done low uop := by
    rw [storeProducers, storeProducers, hadds.microOp, hadds.phys]
  have hbarrier : barrierAdded done low a.2 = barrierAdded done low uop := by
    rw [barrierAdded, barrierAdded, waitsForBarrier, waitsForBarrier, hadds.microOp]
  have hstores' : stores (done ++ [a.2]) = stores (done ++ [uop]) := by
    rw [stores_append, stores_append, hadds.microOp, hadds.sequenceNumber, hadds.phys]
  have hlast : lastOf isBarrier (done ++ [a.2]) = lastOf isBarrier (done ++ [uop]) := by
    rw [lastOf_append, lastOf_append, isBarrier, isBarrier, hadds.microOp, hadds.sequenceNumber]
  rw [hstore, hbarrier] at hmem
  refine hmem.map (fun _ => rfl) fun b _ hb => ⟨hreg, ?_⟩
  exact ⟨hstores' ▸ hb.sublist, fun low' hle' => hstores' ▸ hb.window low' hle',
    hb.membar.trans hlast⟩

/-- The dependencies of each micro-operation of the stream are exactly its producers. -/
def TracksExactly : List DynamicMicroOp → DependencyTables → List (DynamicMicroOp × Nat) → Prop
  | _, _, [] => True
  | done, tables, (uop, lowest) :: stream =>
    ∃ tables' uop', tables.setDependencies uop lowest = .ok (tables', uop') ∧
      uop'.dependencies.Nodup ∧ uop'.dependencies.toFinset = producersOf done lowest uop ∧
      TracksExactly (done ++ [uop]) tables' stream

/-- No micro-operation waits for a barrier at the very edge of its window, and none has more
producers than there is room for. -/
def NoneAtEdge : List DynamicMicroOp → List (DynamicMicroOp × Nat) → Prop
  | _, [] => True
  | done, (uop, lowest) :: stream =>
    ¬AtEdge done lowest uop ∧
      (producersOf done lowest uop).card ≤ maximumNumberOfDependencies ∧
      NoneAtEdge (done ++ [uop]) stream

/-- At no time there are more stores in the window than the queue can hold. -/
def StoresFit : List DynamicMicroOp → List (DynamicMicroOp × Nat) → Prop
  | _, [] => True
  | done, (uop, lowest) :: stream =>
    ((stores (done ++ [uop])).filter fun p => lowest ≤ p.1).length ≤ MemoryDependencies.capacity ∧
      StoresFit (done ++ [uop]) stream

/-- New micro-operations, numbered consecutively, with a lower end of the window that does not go
back. -/
structure Stream (start : Nat) (stream : List (DynamicMicroOp × Nat)) : Prop where
  numbers : ∀ (i : Nat) (p : DynamicMicroOp × Nat), stream[i]? = some p →
    p.1.sequenceNumber = start + i
  fresh : ∀ p ∈ stream, p.1.dependencies = []
  lowest : (stream.map Prod.snd).Pairwise (· ≤ ·)

theorem room_of_fit {done : List DynamicMicroOp} {uop : DynamicMicroOp} {lowest : Nat}
    (ho : InOrder (done ++ [uop]))
    (hfit : ((stores (done ++ [uop])).filter fun p => lowest ≤ p.1).length ≤
      MemoryDependencies.capacity) (hstore : uop.microOp.isStore = true) :
    ((stores done).filter fun p => lowest ≤ p.1).length < MemoryDependencies.capacity := by
  rw [stores_append, hstore, if_pos rfl, List.filter_append, List.length_append] at hfit
  by_cases hlow : lowest ≤ uop.sequenceNumber
  · simp only [hlow, decide_true, List.filter_cons_of_pos, List.filter_nil, List.length_cons,
      List.length_nil] at hfit
    omega
  · have hnone : (stores done).filter (fun p => lowest ≤ p.1) = [] := by
      rw [List.filter_eq_nil_iff]
      intro p hp
      obtain ⟨u, hu, rfl⟩ := List.mem_map.mp hp
      have hlt := (List.pairwise_append.mp ho).2.2 u (List.mem_of_mem_filter hu) uop
        (List.mem_singleton.mpr rfl)
      simp only [decide_eq_true_eq]
      omega
    rw [hnone]
    decide

theorem tracksExactly_of_tracks_iff (stream : List (DynamicMicroOp × Nat)) :
    ∀ {done : List DynamicMicroOp} {tables : DependencyTables} {lowest : Nat},
    Tracks lowest done tables → InOrder (done ++ stream.map Prod.fst) →
    (∀ p ∈ stream, p.1.dependencies = []) → (∀ p ∈ stream, lowest ≤ p.2) →
    (stream.map Prod.snd).Pairwise (· ≤ ·) → StoresFit done stream →
    (TracksExactly done tables stream ↔ NoneAtEdge done stream) := by
  induction stream with
  | nil => exact fun _ _ _ _ _ _ => Iff.rfl
  | cons p stream ih =>
    obtain ⟨uop, low⟩ := p
    intro done tables lowest ht ho hfresh hlow hsorted hfit
    obtain ⟨hfitnow, hfitrest⟩ := hfit
    have horder : InOrder ((done ++ [uop]) ++ stream.map Prod.fst) := by
      simpa [List.append_assoc] using ho
    have hnow : InOrder (done ++ [uop]) := (List.pairwise_append.mp horder).1
    have hempty := hfresh _ List.mem_cons_self
    have hroomy : Roomy uop := by
      constructor
      · rw [hempty]
        exact List.nodup_nil
      · rw [hempty]
        exact Nat.zero_le _
    have hout := setDependencies_outcome hroomy ht (List.pairwise_append.mp hnow).1
      (hlow _ List.mem_cons_self) (room_of_fit hnow hfitnow)
    have hmembers : uop.dependencies.toFinset ∪ added done low uop = added done low uop := by
      rw [hempty, List.toFinset_nil, Finset.empty_union]
    rw [List.map_cons, List.pairwise_cons] at hsorted
    have hrest : ∀ {tables' : DependencyTables}, Tracks low (done ++ [uop]) tables' →
        (TracksExactly (done ++ [uop]) tables' stream ↔ NoneAtEdge (done ++ [uop]) stream) :=
      fun ht' => ih ht' horder (fun q hq => hfresh q (List.mem_cons_of_mem _ hq))
        (fun q hq => hsorted.1 q.2 (List.mem_map_of_mem hq)) hsorted.2 hfitrest
    constructor
    · rintro ⟨tables', uop', heq, hnodup, hexact, hmore⟩
      have hroom : (added done low uop).card ≤ maximumNumberOfDependencies := by
        by_contra hover
        rw [← hmembers] at hover
        obtain ⟨e, herror⟩ := hout.error hover
        rw [heq] at herror
        cases herror
      obtain ⟨⟨tables'', uop''⟩, heq', hadds, ht'⟩ := hout.ok (by rw [hmembers]; exact hroom)
      rw [heq] at heq'
      cases heq'
      have hset : added done low uop = producersOf done low uop := by
        rw [← hexact, hadds.members, hmembers]
      exact ⟨(added_eq_iff done low uop).mp hset, hset ▸ hroom, (hrest ht').mp hmore⟩
    · rintro ⟨hedge, hroom, hmore⟩
      have hset := (added_eq_iff done low uop).mpr hedge
      obtain ⟨⟨tables', uop'⟩, heq, hadds, ht'⟩ := hout.ok (by rw [hmembers, hset]; exact hroom)
      exact ⟨tables', uop', heq, hadds.roomy.nodup, by rw [hadds.members, hmembers, hset],
        (hrest ht').mpr hmore⟩

/-- In a stream the dependencies are exactly the last producers in the window, provided that no
last barrier that counts is at the very edge, and that there is room for all of them. -/
theorem tracksExactly_iff (start : Nat) (stream : List (DynamicMicroOp × Nat))
    (h : Stream start stream) (hfit : StoresFit [] stream) :
    TracksExactly [] clear stream ↔ NoneAtEdge [] stream := by
  refine tracksExactly_of_tracks_iff stream clear_tracks ?_ h.fresh (fun _ _ => Nat.zero_le _)
    h.lowest hfit
  rw [List.nil_append, InOrder, List.pairwise_map, List.pairwise_iff_getElem]
  intro i j hi hj hij
  rw [h.numbers i _ (List.getElem?_eq_getElem hi), h.numbers j _ (List.getElem?_eq_getElem hj)]
  omega

def streamUop (type : MicroOpType) (isMemBarrier : Bool) (sequenceNumber phys : Nat)
    (sources destinations : List Nat) : DynamicMicroOp where
  microOp := ⟨type, false, false, isMemBarrier, sources, [], destinations⟩
  sequenceNumber := sequenceNumber
  address := phys
  phys := phys
  squashed := false
  intraInstructionDependencies := 0
  microOpTypeOffset := 0
  dependencies := []
  execLatency := 0
  branchMispredicted := false
  dCacheHitWhere := none
  iCacheMiss := false
  iCacheLatency := 0
  last := true
  port := .port015
  alu := none

/-- A store, a barrier, and a load from the address of the store. -/
def storeBarrierLoad : List (DynamicMicroOp × Nat) :=
  [(streamUop .store false 5 64 [1] [], 0), (streamUop .execute true 6 0 [] [1], 3),
    (streamUop .load false 7 64 [1] [2], 5)]

theorem tracksExactly_storeBarrierLoad :
    TracksExactly [] clear storeBarrierLoad ↔ NoneAtEdge [] storeBarrierLoad :=
  tracksExactly_iff 5 storeBarrierLoad
    ⟨by
      intro i p hi
      match i with
      | 0 => cases hi; rfl
      | 1 => cases hi; rfl
      | 2 => cases hi; rfl
      | i + 3 => simp [storeBarrierLoad] at hi, by decide, by decide⟩
    ⟨by decide, by decide, by decide, trivial⟩

/-- A load right behind a barrier, which is the oldest in the window. -/
def barrierLoad : List (DynamicMicroOp × Nat) :=
  [(streamUop .execute true 0 0 [] [], 0), (streamUop .load false 1 64 [] [2], 0)]

theorem load_misses_barrier : ¬ ∀ (start : Nat) (stream : List (DynamicMicroOp × Nat)),
    Stream start stream → StoresFit [] stream → TracksExactly [] clear stream := by
  intro h
  have hfit : StoresFit [] barrierLoad := ⟨by decide, by decide, trivial⟩
  have hexact := h 0 barrierLoad
    ⟨by
      intro i p hi
      match i with
      | 0 => cases hi; rfl
      | 1 => cases hi; rfl
      | i + 2 => simp [barrierLoad] at hi, by decide, by decide⟩ hfit
  have hedge := (tracksExactly_of_tracks_iff barrierLoad clear_tracks
    (by simp [InOrder, streamUop, barrierLoad]) (by decide) (by decide) (by decide) hfit).mp hexact
  exact hedge.2.2.1 ⟨by decide, by decide, by decide⟩

end DependencyTables

end Sniper.Performance
