import Sniper.Performance.RobLinks
import Sniper.Performance.DependencyTracking
import Mathlib.Data.List.Find
set_option autoImplicit false

/-! How many dependencies of a new micro-operation are removed at once, because their producers are
done. -/

namespace Sniper.Performance
open Sniper.Lib DynamicMicroOp

/-! ### The producers of a new micro-operation -/

def addNew (l : List Nat) (x : Nat) : List Nat := if x ∈ l then l else l ++ [x]

theorem mem_foldl_addNew {x : Nat} (l : List Nat) :
    ∀ acc : List Nat, x ∈ l.foldl addNew acc ↔ x ∈ acc ∨ x ∈ l := by
  induction l with
  | nil => simp
  | cons y l ih =>
    intro acc
    rw [List.foldl_cons, ih, addNew]
    by_cases hy : y ∈ acc
    · rw [if_pos hy, List.mem_cons]
      refine ⟨fun h => h.imp_right .inr, ?_⟩
      rintro (h | rfl | h)
      · exact .inl h
      · exact .inl hy
      · exact .inr h
    · rw [if_neg hy, List.mem_append, List.mem_singleton, List.mem_cons, or_assoc]

def DynamicMicroOp.addAll (uop : DynamicMicroOp) (l : List Nat) : DynamicMicroOp :=
  { uop with dependencies := l.foldl addNew uop.dependencies }

theorem addAll_append (uop : DynamicMicroOp) (l l' : List Nat) :
    uop.addAll (l ++ l') = (uop.addAll l).addAll l' := by
  rw [addAll, List.foldl_append]
  rfl

theorem addDependency_addAll {uop uop' : DynamicMicroOp} {x : Nat}
    (h : uop.addDependency x = .ok uop') :
    uop' = uop.addAll [x] := by
  rw [addDependency] at h
  split at h
  · next hmem =>
    cases h
    rw [addAll, List.foldl_cons, List.foldl_nil, addNew, if_pos hmem]
  · next hmem =>
    split at h
    · cases h
      rw [addAll, List.foldl_cons, List.foldl_nil, addNew, if_neg hmem]
    · cases h

namespace RobTimer

variable {σ μ : Type} {cfg : RobConfig σ μ}

/-- The oldest number in the buffer when a new micro-operation has entered it. -/
def lowest (s : RobTimer μ) : Nat :=
  match s.rob.head? with
  | some first => first.uop.sequenceNumber
  | none => s.nextSequenceNumber

def registersAnnounced (deps : RegisterDependencies) (lowest : Nat) (registers : List Nat) :
    List Nat :=
  registers.filterMap fun reg => deps.peekProducer (some reg) lowest

def storeAnnounced (deps : MemoryDependencies) (lowest : Nat) (uop : DynamicMicroOp) : List Nat :=
  if uop.microOp.isLoad then ((deps.clean lowest).find uop.phys).toList else []

def barrierAnnounced (deps : MemoryDependencies) (lowest : Nat) (uop : DynamicMicroOp) : List Nat :=
  if waitsForBarrier uop then (deps.membar.filter fun membar => lowest < membar).toList else []

/-- The producers that the tables have for a new micro-operation. -/
def announced (s : RobTimer μ) (uop : DynamicMicroOp) : List Nat :=
  registersAnnounced s.registerDependencies s.lowest uop.microOp.sourceRegisters ++
    storeAnnounced s.memoryDependencies s.lowest uop ++
    barrierAnnounced s.memoryDependencies s.lowest uop

/-- Those of its own instruction that a new micro-operation depends on. -/
def ownProducers (s : RobTimer μ) (uop : DynamicMicroOp) : List Nat :=
  intraDependencies { uop with sequenceNumber := s.nextSequenceNumber }

/-- All its producers, each once in each of the two kinds. -/
def producers (s : RobTimer μ) (uop : DynamicMicroOp) : List Nat :=
  s.ownProducers uop ++ (s.announced uop).foldl addNew []

def isStoreAt (s : RobTimer μ) (n : Nat) : Bool := s.entryIs (fun e => e.uop.microOp.isStore) n

/-- The store that forwards its value, if there is one. -/
def forwarding (cfg : RobConfig σ μ) (s : RobTimer μ) (uop : DynamicMicroOp) : Option Nat :=
  if cfg.storeToLoadForwarding && uop.microOp.isLoad then (s.producers uop).find? s.isStoreAt
  else none

/-- The producers that are done, but for the store that forwards its value. -/
def doneProducers (cfg : RobConfig σ μ) (s : RobTimer μ) (uop : DynamicMicroOp) : Nat :=
  (s.producers uop).countP s.isDone - if (s.forwarding cfg uop).any s.isDone then 1 else 0

theorem sources_announced (registers : List Nat) (lowest : Nat) :
    ∀ {deps deps' : RegisterDependencies} {uop uop' : DynamicMicroOp},
    registers.foldlM (RegisterDependencies.source lowest) (deps, uop) = .ok (deps', uop') →
    uop' = uop.addAll (registersAnnounced deps lowest registers) := by
  induction registers with
  | nil =>
    intro deps deps' uop uop' h
    cases h
    rfl
  | cons reg registers ih =>
    intro deps deps' uop uop' h
    rw [List.foldlM_cons] at h
    obtain ⟨⟨deps1, uop1⟩, hsource, h⟩ := except_bind_eq_ok.mp h
    have hrest := ih h
    rw [RegisterDependencies.source] at hsource
    dsimp only at hsource
    cases hproducer : deps.producers reg with
    | none =>
      simp only [hproducer] at hsource
      cases hsource
      have hskip : registersAnnounced deps lowest (reg :: registers) =
          registersAnnounced deps lowest registers := by
        simp [registersAnnounced, RegisterDependencies.peekProducer, hproducer]
      rw [hskip]
      exact hrest
    | some number =>
      simp only [hproducer] at hsource
      split at hsource
      · next hlow =>
        obtain ⟨uop2, hadd, hsource⟩ := except_bind_eq_ok.mp hsource
        cases hsource
        have htake : registersAnnounced deps lowest (reg :: registers) =
            number :: registersAnnounced deps lowest registers := by
          simp [registersAnnounced, RegisterDependencies.peekProducer, hproducer, Option.filter,
            hlow]
        rw [htake, ← List.singleton_append, addAll_append]
        rw [addDependency_addAll hadd] at hrest
        exact hrest
      · next hlow =>
        cases hsource
        have hskip : registersAnnounced deps lowest (reg :: registers) =
            registersAnnounced ⟨Function.update deps.producers reg none⟩ lowest registers := by
          have hhead : deps.peekProducer (some reg) lowest = none := by
            simp [RegisterDependencies.peekProducer, hproducer, Option.filter, hlow]
          rw [registersAnnounced, registersAnnounced,
            List.filterMap_cons_none (f := fun reg => deps.peekProducer (some reg) lowest) hhead]
          refine List.filterMap_congr fun other _ => ?_
          by_cases hother : other = reg
          · subst hother
            rw [hhead]
            simp [RegisterDependencies.peekProducer]
          · simp [RegisterDependencies.peekProducer, hother]
        rw [hskip]
        exact hrest

theorem addMembar_announced {deps : MemoryDependencies} {uop uop' : DynamicMicroOp} {lowest : Nat}
    (hwaits : waitsForBarrier uop = true) (h : deps.addMembar uop lowest = .ok uop') :
    uop' = uop.addAll (barrierAnnounced deps lowest uop) := by
  rw [MemoryDependencies.addMembar] at h
  rw [barrierAnnounced, if_pos hwaits]
  cases hmembar : deps.membar with
  | none =>
    simp only [hmembar] at h
    cases h
    rfl
  | some membar =>
    simp only [hmembar] at h
    split at h
    · next hlow =>
      rw [addDependency_addAll h]
      simp [Option.filter, hlow]
    · next hlow =>
      cases h
      simp [Option.filter, hlow, addAll]

theorem execute_of_not {op : MicroOp} (hload : op.isLoad = false) (hstore : op.isStore = false) :
    op.type = .execute := by
  cases htype : op.type with
  | load => exact absurd htype (of_decide_eq_false hload)
  | execute => rfl
  | store => exact absurd htype (of_decide_eq_false hstore)

theorem memory_announced {deps deps' : MemoryDependencies} {uop uop' : DynamicMicroOp}
    {lowest : Nat} (h : deps.setDependencies uop lowest = .ok (deps', uop')) :
    uop' = uop.addAll (storeAnnounced deps lowest uop ++ barrierAnnounced deps lowest uop) ∧
      (deps' = deps.clean lowest ∨
        uop.microOp.type = .store ∧
          deps' = ⟨(deps.clean lowest).producers ++ [(uop.sequenceNumber, uop.phys)],
            deps.membar⟩ ∨
        uop.microOp.type = .execute ∧
          deps' = ⟨(deps.clean lowest).producers, some uop.sequenceNumber⟩) := by
  rw [MemoryDependencies.setDependencies] at h
  dsimp only at h
  -- a barrier is added to the same numbers after a cleaning, and after a store
  have hmembar : ∀ (deps1 : MemoryDependencies) (uop1 uop2 : DynamicMicroOp),
      deps1.membar = deps.membar → uop1.microOp = uop.microOp → waitsForBarrier uop = true →
      deps1.addMembar uop1 lowest = .ok uop2 → 
        uop2 = uop1.addAll (barrierAnnounced deps lowest uop) := by
    intro deps1 uop1 uop2 hdeps hop hwaits hadd
    have hwaits1 : waitsForBarrier uop1 = true := by
      rw [waitsForBarrier, hop]
      exact hwaits
    rw [addMembar_announced hwaits1 hadd, barrierAnnounced, barrierAnnounced, if_pos hwaits,
      if_pos hwaits1, hdeps]
  rw [addAll_append]
  cases hload : uop.microOp.isLoad with
  | true =>
    have hwaits : waitsForBarrier uop = true := by simp [waitsForBarrier, hload]
    simp only [hload, if_true] at h
    rw [storeAnnounced, if_pos hload]
    cases hfind : (deps.clean lowest).find uop.phys with
    | none =>
      simp only [hfind] at h
      obtain ⟨found, hfound, h⟩ := except_bind_eq_ok.mp h
      cases hfound
      obtain ⟨uop1, hadd, h⟩ := except_bind_eq_ok.mp h
      cases h
      exact ⟨hmembar _ uop uop' rfl rfl hwaits hadd, .inl rfl⟩
    | some producer =>
      simp only [hfind] at h
      obtain ⟨found, hfound, h⟩ := except_bind_eq_ok.mp h
      obtain ⟨uop1, hadd, h⟩ := except_bind_eq_ok.mp h
      cases h
      rw [addDependency_addAll hfound] at hadd
      exact ⟨hmembar _ _ uop' rfl rfl hwaits hadd, .inl rfl⟩
  | false =>
    rw [storeAnnounced, if_neg (by rw [hload]; exact Bool.false_ne_true)]
    simp only [hload, Bool.false_eq_true, if_false] at h
    cases hstore : uop.microOp.isStore with
    | true =>
      have hwaits : waitsForBarrier uop = true := by simp [waitsForBarrier, hstore]
      simp only [hstore, if_true] at h
      split at h
      · obtain ⟨uop1, hadd, h⟩ := except_bind_eq_ok.mp h
        cases h
        exact ⟨hmembar _ uop uop' rfl rfl hwaits hadd,
          .inr (.inl ⟨of_decide_eq_true hstore, rfl⟩)⟩
      · cases h
    | false =>
      simp only [hstore, Bool.false_eq_true, if_false] at h
      split at h
      · next hbarrier =>
        have hwaits : waitsForBarrier uop = true := by simp [waitsForBarrier, hbarrier]
        obtain ⟨uop1, hadd, h⟩ := except_bind_eq_ok.mp h
        cases h
        have hadded := hmembar _ uop uop' rfl rfl hwaits hadd
        refine ⟨hadded, .inr (.inr ⟨execute_of_not hload hstore, ?_⟩)⟩
        rw [hadded]
        rfl
      · next hbarrier =>
        cases h
        have hnone : waitsForBarrier uop = false := by
          simp [waitsForBarrier, hload, hstore, hbarrier]
        rw [barrierAnnounced, hnone]
        exact ⟨rfl, .inl rfl⟩

/-! ### What forwarding does to them -/

theorem countP_addNew {p : Nat → Bool} (l : List Nat) (hl : ∀ x ∈ l, p x = false) :
    ∀ acc : List Nat, (l.foldl addNew acc).countP p = acc.countP p := by
  induction l with
  | nil => exact fun _ => rfl
  | cons x l ih =>
    intro acc
    rw [List.foldl_cons, ih fun y hy => hl y (List.mem_cons_of_mem x hy), addNew]
    split
    · rfl
    · rw [List.countP_append, List.countP_singleton, hl x List.mem_cons_self]
      rfl

theorem countP_addAll {p : Nat → Bool} {l : List Nat} (hl : ∀ x ∈ l, p x = false)
    (uop : DynamicMicroOp) :
    (uop.addAll l).allDependencies.countP p = uop.allDependencies.countP p := by
  rw [allDependencies_eq, allDependencies_eq, List.countP_append, List.countP_append]
  exact congrArg (List.countP p uop.intraDependencies + ·) (countP_addNew l hl uop.dependencies)

theorem mem_addAll {l : List Nat} {uop : DynamicMicroOp} {x : Nat}
    (hx : x ∈ (uop.addAll l).allDependencies) : x ∈ uop.allDependencies ∨ x ∈ l := by
  rw [allDependencies_eq, List.mem_append] at hx ⊢
  rcases hx with hx | hx
  · exact .inl (.inl hx)
  · rcases (mem_foldl_addNew l uop.dependencies).mp hx with hx | hx
    · exact .inl (.inr hx)
    · exact .inr hx

theorem addDependencies_addAll (l : List Nat) : ∀ {uop uop' : DynamicMicroOp},
    l.foldlM addDependency uop = .ok uop' → uop' = uop.addAll l := by
  induction l with
  | nil =>
    intro uop uop' h
    cases h
    rfl
  | cons x l ih =>
    intro uop uop' h
    rw [List.foldlM_cons] at h
    obtain ⟨uop1, hadd, h⟩ := except_bind_eq_ok.mp h
    rw [← List.singleton_append, addAll_append, ← addDependency_addAll hadd]
    exact ih h

/-- The first dependency on a store is replaced by what the store still depends on. -/
theorem forward_spec {s : RobTimer μ} (hn : Numbered s) {uop uop' : DynamicMicroOp}
    (hs : uop.Small) {l : List Nat} (h : s.forward uop l = .ok uop') :
    (l.find? s.isStoreAt = none ∧ uop' = uop) ∨
      ∃ (d i : Nat) (e : RobEntry) (uop1 : DynamicMicroOp), l.find? s.isStoreAt = some d ∧ s.rob[i]? = some e ∧
        e.uop.sequenceNumber = d ∧ Drops d uop uop1 ∧ uop' = uop1.addAll e.uop.allDependencies := by
  induction l with
  | nil =>
    rw [forward] at h
    cases h
    exact .inl ⟨rfl, rfl⟩
  | cons d l ih =>
    rw [forward] at h
    obtain ⟨e, hfind, h⟩ := except_bind_eq_ok.mp h
    obtain ⟨i, hposition, hentry⟩ := except_bind_eq_ok.mp hfind
    obtain ⟨e', he, rfl⟩ := (findPosition_iff hn).mp hposition
    rw [entryAt_iff, he] at hentry
    obtain rfl := Option.some.inj hentry
    have hstore : s.isStoreAt e'.uop.sequenceNumber = e'.uop.microOp.isStore := hn.entryIs _ he
    split at h
    · next hop =>
      obtain ⟨uop1, hremove, h⟩ := except_bind_eq_ok.mp h
      refine .inr ⟨_, i, e', uop1, ?_, he, rfl, removeDependency_drops hs hremove,
        addDependencies_addAll _ h⟩
      rw [List.find?_cons_of_pos (hstore.trans hop)]
    · next hop =>
      have hskip : (e'.uop.sequenceNumber :: l).find? s.isStoreAt = l.find? s.isStoreAt :=
        List.find?_cons_of_neg (by rw [hstore]; exact hop)
      rw [hskip]
      exact ih h

/-- The buffer with the new entry, for which the producers are looked up. -/
def withEntry (s : RobTimer μ) (uop : DynamicMicroOp) : RobTimer μ :=
  { s with
    rob := s.rob ++ [RobEntry.init uop s.nextSequenceNumber]
    nextSequenceNumber := s.nextSequenceNumber + 1 }

def renumbered (s : RobTimer μ) (uop : DynamicMicroOp) : DynamicMicroOp :=
  { uop with sequenceNumber := s.nextSequenceNumber }

theorem lowest_withEntry (s : RobTimer μ) (uop : DynamicMicroOp) :
    (match (s.withEntry uop).rob.head? with
      | some first => first.uop.sequenceNumber
      | none => 0) = s.lowest := by
  rw [withEntry, lowest]
  cases s.rob with
  | nil => rfl
  | cons first rest => rfl

/-- The steps from the tables to the dependencies. -/
theorem prepare_steps {s t : RobTimer μ} {uop uop' : DynamicMicroOp} {entry : RobEntry}
    (h : prepare cfg s uop = .ok (t, entry, uop')) : ∃ uop1 uop2,
      s.registerDependencies.setDependencies (s.renumbered uop) s.lowest =
        .ok (t.registerDependencies, uop1) ∧
      s.memoryDependencies.setDependencies uop1 s.lowest = .ok (t.memoryDependencies, uop2) ∧
      (s.withEntry uop).forwardStore cfg uop2 = .ok uop' := by
  obtain ⟨entry1, haddress, h⟩ := except_bind_eq_ok.mp h
  obtain ⟨⟨t1, uop3⟩, hdeps, h⟩ := except_bind_eq_ok.mp h
  cases h
  have huop : entry.uop = s.renumbered uop := (addressDependencies_uop haddress).1
  obtain ⟨⟨registers, uop1⟩, hregisters, hdeps⟩ := except_bind_eq_ok.mp hdeps
  obtain ⟨⟨memory, uop2⟩, hmemory, hdeps⟩ := except_bind_eq_ok.mp hdeps
  obtain ⟨uop4, hforward, hdeps⟩ := except_bind_eq_ok.mp hdeps
  cases hdeps
  rw [huop] at hregisters
  exact ⟨uop1, uop2, lowest_withEntry s uop ▸ hregisters, lowest_withEntry s uop ▸ hmemory,
    hforward⟩

/-! ### The tables know only what has entered the buffer -/

structure TablesKnown (s : RobTimer μ) : Prop where
  registers : ∀ reg producer, s.registerDependencies.producers reg = some producer →
    producer < s.nextSequenceNumber
  stores : ∀ store ∈ s.memoryDependencies.producers, store.1 < s.nextSequenceNumber
  sorted : s.memoryDependencies.producers.Pairwise fun p q => p.1 < q.1
  membar : ∀ membar, s.memoryDependencies.membar = some membar → membar < s.nextSequenceNumber

theorem registers_known {deps deps' : RegisterDependencies} {uop uop' : DynamicMicroOp}
    {lowest : Nat} (h : deps.setDependencies uop lowest = .ok (deps', uop')) :
    uop' = uop.addAll (registersAnnounced deps lowest uop.microOp.sourceRegisters) ∧
      ∀ reg producer, deps'.producers reg = some producer →
        deps.producers reg = some producer ∨
          producer = uop.sequenceNumber ∧ reg ∈ uop.microOp.destinationRegisters := by
  obtain ⟨⟨deps1, uop1⟩, hfold, h⟩ := except_bind_eq_ok.mp h
  have hadded := sources_announced _ lowest hfold
  cases h
  refine ⟨hadded, fun reg producer hproducer => ?_⟩
  have hsources : ∀ reg producer, deps1.producers reg = some producer →
      deps.producers reg = some producer := by
    refine foldlM_keeps (I := fun state : RegisterDependencies × DynamicMicroOp =>
      ∀ reg producer, state.1.producers reg = some producer →
        deps.producers reg = some producer) ?_ (fun _ _ hreg => hreg) hfold
    intro state reg state' hstate hstep other producer hother
    rw [RegisterDependencies.source] at hstep
    split at hstep
    · cases hstep
      exact hstate other producer hother
    · split at hstep
      · obtain ⟨uop2, -, hstep⟩ := except_bind_eq_ok.mp hstep
        cases hstep
        exact hstate other producer hother
      · cases hstep
        by_cases hsame : other = reg
        · subst hsame
          simp at hother
        · simp only [Function.update_of_ne hsame] at hother
          exact hstate other producer hother
  have hdest := hproducer.symm.trans (destinations_eq uop'.sequenceNumber
    uop'.microOp.destinationRegisters reg deps1.producers)
  split at hdest
  · next hreg =>
    rw [hadded] at hreg hdest
    exact .inr ⟨Option.some.inj hdest, hreg⟩
  · exact .inl (hsources reg producer hdest.symm)

theorem memory_known {deps deps' : MemoryDependencies} {uop uop' : DynamicMicroOp} {lowest : Nat}
    (h : deps.setDependencies uop lowest = .ok (deps', uop')) :
    (deps'.producers.Sublist (deps.producers ++ [(uop.sequenceNumber, uop.phys)])) ∧
      (∀ store ∈ deps'.producers,
        store ∈ deps.producers ∨ uop.microOp.type = .store ∧ store.1 = uop.sequenceNumber) ∧
      ∀ membar, deps'.membar = some membar →
        deps.membar = some membar ∨ uop.microOp.type = .execute ∧ membar = uop.sequenceNumber := by
  have hclean : (deps.clean lowest).producers.Sublist deps.producers := List.dropWhile_sublist _
  have hmore := hclean.trans (List.sublist_append_left _ [(uop.sequenceNumber, uop.phys)])
  obtain ⟨-, rfl | ⟨hstore, rfl⟩ | ⟨hexecute, rfl⟩⟩ := memory_announced h
  · exact ⟨hmore, fun store hm => .inl (hclean.subset hm), fun membar hm => .inl hm⟩
  · refine ⟨hclean.append_right _, fun store hm => ?_, fun membar hm => .inl hm⟩
    rcases List.mem_append.mp hm with hold | hnew
    · exact .inl (hclean.subset hold)
    · exact .inr ⟨hstore, by rw [List.mem_singleton.mp hnew]⟩
  · exact ⟨hmore, fun store hm => .inl (hclean.subset hm),
      fun membar hm => .inr ⟨hexecute, (Option.some.inj hm).symm⟩⟩

theorem TablesKnown.enqueue {s s' : RobTimer μ} {uop : DynamicMicroOp} (h : TablesKnown s)
    (hn : Numbered s) (hs : uop.Small) (henqueue : enqueue cfg s uop = .ok s') :
    TablesKnown s' := by
  rcases enqueue_cases henqueue with ⟨-, rfl⟩ |
    ⟨-, t, entry, uop3, u, readyMax, done, uop4, hprepare, hfold, -, -, rfl⟩
  · exact h
  · have ha := prepare_spec hs hprepare
    obtain ⟨rfl, -, -⟩ := dependOn_all uop3.allDependencies (hn.append rfl ha.rob ha.next) hfold
    obtain ⟨uop1, uop2, hregisters, hmemory, -⟩ := prepare_steps hprepare
    obtain ⟨rfl, hproducers⟩ := registers_known hregisters
    obtain ⟨hstores, -, hmembar⟩ := memory_known hmemory
    have hnext : t.nextSequenceNumber = s.nextSequenceNumber + 1 := ha.next
    refine ⟨fun reg producer hreg => ?_, fun store hstore => ?_, ?_, fun membar hm => ?_⟩
    · refine Nat.lt_of_lt_of_eq ?_ hnext.symm
      rcases hproducers reg producer hreg with hold | ⟨rfl, -⟩
      · exact (h.registers reg producer hold).trans (Nat.lt_succ_self _)
      · exact Nat.lt_succ_self _
    · refine Nat.lt_of_lt_of_eq ?_ hnext.symm
      rcases List.mem_append.mp (hstores.subset hstore) with hold | hnew
      · exact (h.stores store hold).trans (Nat.lt_succ_self _)
      · rw [List.mem_singleton.mp hnew]
        exact Nat.lt_succ_self _
    · refine List.Pairwise.sublist hstores (List.pairwise_append.mpr ⟨h.sorted,
        List.pairwise_singleton _ _, fun store hstore new hnew => ?_⟩)
      rw [List.mem_singleton.mp hnew]
      exact h.stores store hstore
    · refine Nat.lt_of_lt_of_eq ?_ hnext.symm
      rcases hmembar membar hm with hold | ⟨-, rfl⟩
      · exact (h.membar membar hold).trans (Nat.lt_succ_self _)
      · exact Nat.lt_succ_self _

/-- The two tables and the next number. -/
def tables (s : RobTimer μ) : RegisterDependencies × MemoryDependencies × Nat :=
  (s.registerDependencies, s.memoryDependencies, s.nextSequenceNumber)

theorem TablesKnown.congr {s t : RobTimer μ} (h : TablesKnown s) (ht : t.tables = s.tables) :
    TablesKnown t := by
  simp only [tables, Prod.mk.injEq] at ht
  obtain ⟨hregisters, hmemory, hnext⟩ := ht
  constructor
  · rw [hregisters, hnext]
    exact h.registers
  · rw [hmemory, hnext]
    exact h.stores
  · rw [hmemory]
    exact h.sorted
  · rw [hmemory, hnext]
    exact h.membar

theorem wakeDependant_tables {s s' : RobTimer μ} {producer cycleDepend d : Nat}
    (h : wakeDependant producer cycleDepend s d = .ok s') : s'.tables = s.tables := by
  obtain ⟨i, -, h⟩ := except_bind_eq_ok.mp h
  obtain ⟨entry, -, h⟩ := except_bind_eq_ok.mp h
  split at h
  · cases h
  · obtain ⟨uop, -, h⟩ := except_bind_eq_ok.mp h
    obtain ⟨resolved, -, h⟩ := except_bind_eq_ok.mp h
    cases h
    rfl

theorem issueInstruction_tables {s s' : RobTimer μ} {now i done : Nat} {c c' : σ} {e : RobEntry}
    (h : issueInstruction cfg now s c i e = .ok (s', c', done)) : s'.tables = s.tables := by
  rw [issueInstruction] at h
  have haccess : (s.access cfg e.uop).1.tables = s.tables := by
    rw [access]
    split <;> rfl
  generalize s.access cfg e.uop = accessed at h haccess
  obtain ⟨s1, uop⟩ := accessed
  have hqueues : ((s1.enterQueue now uop).storeIssued now uop).tables = s1.tables := by
    rw [enterQueue, storeIssued]
    cases uop.microOp.isLoad <;> cases uop.microOp.isStore <;> rfl
  dsimp only at h haccess
  split at h
  · cases h
  · obtain ⟨s2, hfold, h⟩ := except_bind_eq_ok.mp h
    have hissued : (((s1.enterQueue now uop).storeIssued now uop).markIssued now i uop
        (completion now uop).2).tables = s.tables := hqueues.trans haccess
    have hwoken : s2.tables = s.tables :=
      foldlM_keeps (I := fun t : RobTimer μ => t.tables = s.tables)
        (fun _ _ _ ht hstep => (wakeDependant_tables hstep).trans ht) hissued hfold
    cases h
    split
    · exact hwoken
    · exact hwoken

theorem tablesKnown_survives (cfg : RobConfig σ μ) : Survives cfg TablesKnown where
  core h hcore := h.congr (by rw [tables, tables, hcore.registers, hcore.memory, hcore.next])
  dispatch _ h := h.congr rfl
  issue h _ _ _ hissue := h.congr (issueInstruction_tables hissue)
  commit h _ _ := h.congr rfl

/-! ### The entries written -/

theorem holds_of_window {s : RobTimer μ} (hn : Numbered s) {n : Nat} (hlow : s.lowest ≤ n)
    (hlt : n < s.nextSequenceNumber) : s.Holds n := by
  rw [lowest, List.head?_eq_getElem?] at hlow
  cases hfirst : s.rob[0]? with
  | none =>
    rw [hfirst] at hlow
    exact absurd hlow (Nat.not_le_of_lt hlt)
  | some first =>
    rw [hfirst] at hlow
    have hfirst' := hn 0 first hfirst
    dsimp only at hlow
    have hindex : n - first.uop.sequenceNumber < s.rob.length := by omega
    refine ⟨n - first.uop.sequenceNumber, _, List.getElem?_eq_getElem hindex, ?_⟩
    have hn' := hn _ _ (List.getElem?_eq_getElem hindex)
    omega

/-- What the tables name is in the buffer. -/
theorem holds_announced {s : RobTimer μ} (hn : Numbered s) (ht : TablesKnown s)
    {uop : DynamicMicroOp} {n : Nat} (hmem : n ∈ s.announced uop) : s.Holds n := by
  rw [announced, List.mem_append, List.mem_append] at hmem
  rcases hmem with (hmem | hmem) | hmem
  · obtain ⟨reg, -, hreg⟩ := List.mem_filterMap.mp hmem
    obtain ⟨hproducer, hlow⟩ := Option.filter_eq_some_iff.mp hreg
    exact holds_of_window hn (of_decide_eq_true hlow) (ht.registers reg n hproducer)
  · rw [storeAnnounced] at hmem
    split at hmem
    · rw [Option.mem_toList, MemoryDependencies.find, Option.map_eq_some_iff] at hmem
      obtain ⟨store, hfind, rfl⟩ := hmem
      have hstore := List.mem_reverse.mp (List.mem_of_find?_eq_some hfind)
      rw [MemoryDependencies.clean, dropWhile_eq_filter ht.sorted, List.mem_filter] at hstore
      exact holds_of_window hn (of_decide_eq_true hstore.2) (ht.stores store hstore.1)
    · cases hmem
  · rw [barrierAnnounced] at hmem
    split at hmem
    · rw [Option.mem_toList, Option.filter_eq_some_iff] at hmem
      obtain ⟨hmembar, hlow⟩ := hmem
      exact holds_of_window hn (of_decide_eq_true hlow).le (ht.membar n hmembar)
    · cases hmem

theorem dependOn_found {s : RobTimer μ} (hn : Numbered s) {n d : Nat} (hd : s.Holds d)
    (readyMax : Time) (done : List Nat) :
    ∃ state, dependOn n (s, readyMax, done) d = .ok state := by
  obtain ⟨i, e, he, rfl⟩ := hd
  have hfind := (findPosition_iff hn).mpr ⟨e, he, rfl⟩
  rw [dependOn]
  simp only [hfind, entryAt_iff.mpr he, bind, Except.bind]
  split <;> exact ⟨_, rfl⟩

theorem dependOn_allFound {n : Nat} (dependencies : List Nat) : ∀ {s : RobTimer μ}
    (readyMax : Time) (done : List Nat), Numbered s → (∀ d ∈ dependencies, s.Holds d) →
    ∃ state, dependencies.foldlM (dependOn n) (s, readyMax, done) = .ok state := by
  induction dependencies with
  | nil => exact fun _ _ _ _ => ⟨_, rfl⟩
  | cons d dependencies ih =>
    intro s readyMax done hn hd
    obtain ⟨⟨s1, readyMax1, done1⟩, hstep⟩ :=
      dependOn_found (n := n) hn (hd d List.mem_cons_self) readyMax done
    obtain ⟨rfl, -, -⟩ := dependOn_spec hn hstep
    obtain ⟨state, hrest⟩ := ih readyMax1 done1 (hn.linked n [d]) fun x hx =>
      (holds_linked s n [d] x).mpr (hd x (List.mem_cons_of_mem d hx))
    exact ⟨state, except_bind_eq_ok.mpr ⟨_, hstep, hrest⟩⟩

theorem producers_hold {s : RobTimer μ} (hn : Numbered s) (ht : TablesKnown s)
    {uop : DynamicMicroOp} (hown : ∀ d ∈ s.ownProducers uop, s.Holds d) :
    ∀ d ∈ s.producers uop, s.Holds d := by
  intro d hd
  rcases List.mem_append.mp hd with hd | hd
  · exact hown d hd
  · rw [mem_foldl_addNew] at hd
    exact holds_announced hn ht (hd.resolve_left List.not_mem_nil)

/-- Before forwarding, the dependencies are those of the tables and of the own instruction. -/
theorem announced_dependencies {s : RobTimer μ} {uop uop1 uop2 : DynamicMicroOp}
    {registers : RegisterDependencies} {memory : MemoryDependencies} (hfresh : uop.Fresh)
    (hregisters : s.registerDependencies.setDependencies (s.renumbered uop) s.lowest =
      .ok (registers, uop1))
    (hmemory : s.memoryDependencies.setDependencies uop1 s.lowest = .ok (memory, uop2)) :
    uop2 = (s.renumbered uop).addAll (s.announced uop) ∧
      uop2.allDependencies = s.producers uop := by
  obtain ⟨rfl, -⟩ := registers_known hregisters
  obtain ⟨rfl, -⟩ := memory_announced hmemory
  have hall : ∀ l : List Nat, ((s.renumbered uop).addAll l).allDependencies =
      s.ownProducers uop ++ l.foldl addNew [] := by
    intro l
    rw [← hfresh.dependencies]
    rfl
  rw [← addAll_append, ← List.append_assoc]
  exact ⟨rfl, hall (s.announced uop)⟩

theorem withEntry_numbered {s : RobTimer μ} (hn : Numbered s) (uop : DynamicMicroOp) :
    Numbered (s.withEntry uop) := hn.append (e := RobEntry.init uop s.nextSequenceNumber) rfl rfl rfl

theorem withEntry_some {s : RobTimer μ} {uop : DynamicMicroOp} {i : Nat} {e : RobEntry}
    (he : s.rob[i]? = some e) : (s.withEntry uop).rob[i]? = some e := by
  rw [withEntry, List.getElem?_append_left (List.getElem?_eq_some_iff.mp he).1, he]

theorem withEntry_isDone (s : RobTimer μ) (uop : DynamicMicroOp) :
    (s.withEntry uop).isDone = s.isDone := by
  funext d
  simp [isDone, entryIs, withEntry, RobEntry.init]

/-- What forwarding leaves: no dependency that is done comes in, and the store goes. -/
theorem forwarded_count {s : RobTimer μ} (hl : Links none s) {uop uop2 uop' : DynamicMicroOp}
    (hs : uop2.Small) (hop : uop2.microOp = uop.microOp)
    (hall : uop2.allDependencies = s.producers uop) (hholds : ∀ d ∈ s.producers uop, s.Holds d)
    (h : (s.withEntry uop).forwardStore cfg uop2 = .ok uop') :
    (∀ d ∈ uop'.allDependencies, s.Holds d) ∧
      uop'.allDependencies.countP s.isDone = doneProducers cfg s uop := by
  have hn := withEntry_numbered hl.numbered uop
  have hstores : (s.producers uop).find? (s.withEntry uop).isStoreAt =
      (s.producers uop).find? s.isStoreAt := by
    refine List.find?_congr fun d hd => ?_
    obtain ⟨i, e, he, rfl⟩ := hholds d hd
    rw [isStoreAt, isStoreAt, hl.numbered.entryIs _ he, hn.entryIs _ (withEntry_some he)]
  rw [forwardStore, hop, hall] at h
  rw [doneProducers, forwarding]
  split at h
  · next hfwd =>
    rw [if_pos hfwd]
    rcases forward_spec hn hs h with ⟨hnone, rfl⟩ | ⟨d, i, e, uop1, hfind, he, hnumber, hdrop, rfl⟩
    · rw [← hstores, hnone, hall]
      exact ⟨hholds, rfl⟩
    · rw [hstores] at hfind
      obtain ⟨j, x, hx, hxd⟩ := hholds d (List.mem_of_find?_eq_some hfind)
      obtain rfl : i = j := hn.unique he (withEntry_some hx) (hnumber.trans hxd.symm)
      rw [withEntry_some hx] at he
      obtain rfl := Option.some.inj he
      -- what the store still waits for is not done
      have hundone : ∀ m ∈ x.uop.allDependencies, s.Undone m := fun m hm =>
        hl.known x (List.mem_of_getElem? hx) m hm (Option.some_ne_none m).symm
      have hremoved := hdrop.perm.countP_eq s.isDone
      rw [List.countP_cons, hall] at hremoved
      refine ⟨fun m hm => ?_, ?_⟩
      · rcases mem_addAll hm with hm | hm
        · exact hholds m (hall ▸ hdrop.perm.subset (List.mem_cons_of_mem d hm))
        · exact (hundone m hm).holds
      · rw [countP_addAll fun m hm => (hundone m hm).not_isDone hl.numbered, hfind]
        simp only [Option.any_some]
        omega
  · next hfwd =>
    cases h
    rw [if_neg hfwd, hall]
    exact ⟨hholds, rfl⟩

/-- What is written to the buffer of dependencies to remove. -/
def depsToRemove (cfg : RobConfig σ μ) (s : RobTimer μ) (uop : DynamicMicroOp) :
    Except RobAbort (List Nat) := do
  let (t, entry, uop') ← prepare cfg s uop
  let (_, _, done) ← uop'.allDependencies.foldlM (dependOn entry.uop.sequenceNumber)
    (t, entry.readyMax, [])
  return done

theorem enqueue_depsToRemove {s s' : RobTimer μ} {uop : DynamicMicroOp}
    (hsquashed : uop.squashed = false) (h : enqueue cfg s uop = .ok s') :
    ∃ done, depsToRemove cfg s uop = .ok done ∧ done.length ≤ 8 := by
  rcases enqueue_cases h with ⟨htrue, -⟩ |
    ⟨-, t, entry, uop1, u, readyMax, done, uop2, hprepare, hfold, hfit, -, -⟩
  · rw [hsquashed] at htrue
    cases htrue
  · exact ⟨done, except_bind_eq_ok.mpr ⟨_, hprepare, except_bind_eq_ok.mpr ⟨_, hfold, rfl⟩⟩, hfit⟩

theorem depsToRemove_length {s t : RobTimer μ} (hl : Links none s) (ht : TablesKnown s)
    {uop uop' : DynamicMicroOp} {entry : RobEntry} (hfresh : uop.Fresh)
    (hown : ∀ d ∈ s.ownProducers uop, s.Holds d)
    (hprepare : prepare cfg s uop = .ok (t, entry, uop')) :
    ∃ done, depsToRemove cfg s uop = .ok done ∧ done.length = doneProducers cfg s uop := by
  have hsmall : ((s.renumbered uop).addAll (s.announced uop)).Small :=
    ⟨hfresh.small.intra, hfresh.small.offset⟩
  obtain ⟨uop1, uop2, hregisters, hmemory, hforward⟩ := prepare_steps hprepare
  obtain ⟨rfl, hall⟩ := announced_dependencies hfresh hregisters hmemory
  obtain ⟨hholds, hcount⟩ : (∀ d ∈ uop'.allDependencies, s.Holds d) ∧
      uop'.allDependencies.countP s.isDone = doneProducers cfg s uop :=
    forwarded_count hl hsmall rfl hall (producers_hold hl.numbered ht hown) hforward
  have ha := prepare_spec hfresh.small hprepare
  have hn : Numbered t := hl.numbered.append rfl ha.rob ha.next
  have hfound : ∀ d ∈ uop'.allDependencies, t.Holds d := by
    intro d hd
    obtain ⟨i, e, he, hnumber⟩ := hholds d hd
    refine ⟨i, e, ?_, hnumber⟩
    rw [ha.rob, List.getElem?_append_left (List.getElem?_eq_some_iff.mp he).1, he]
  obtain ⟨⟨u, readyMax, done⟩, hfold⟩ := dependOn_allFound
    (n := entry.uop.sequenceNumber) uop'.allDependencies entry.readyMax [] hn hfound
  obtain ⟨-, -, rfl, -⟩ := dependOn_all uop'.allDependencies hn hfold
  refine ⟨_, except_bind_eq_ok.mpr ⟨_, hprepare, except_bind_eq_ok.mpr ⟨_, hfold, rfl⟩⟩, ?_⟩
  have hisDone : t.isDone = s.isDone := by
    rw [← withEntry_isDone s uop]
    funext d
    rw [isDone, isDone, entryIs, entryIs, ha.rob]
    rfl
  rw [List.nil_append, hisDone, ← List.countP_eq_length_filter, hcount]

end RobTimer

namespace RobState

variable {σ μ : Type} {cfg : RobConfig σ μ} {mode : Mode}

theorem Reachable.enqueueAll {start s : RobState σ μ} {insts : List DynamicMicroOp}
    (hinsts : ∀ uop ∈ insts, uop.Fresh) (h : Reachable cfg mode start s) {timer : RobTimer μ}
    (henqueue : insts.foldlM (RobTimer.enqueue cfg) s.timer = .ok timer) :
    Reachable cfg mode start { s with timer := timer } := by
  induction insts generalizing s with
  | nil =>
    cases henqueue
    exact h
  | cons uop insts ih =>
    rw [List.foldlM_cons] at henqueue
    obtain ⟨t, hstep, henqueue⟩ := except_bind_eq_ok.mp henqueue
    have hnext : Reachable cfg mode start { s with timer := t } :=
      h.enqueue (hinsts uop List.mem_cons_self) hstep
    exact ih (s := { s with timer := t }) (fun u hu => hinsts u (List.mem_cons_of_mem uop hu))
      hnext henqueue

theorem Reachable.ends {start s t : RobState σ μ} (h : Reachable cfg mode start s)
    (hends : Ends cfg mode s t) : Reachable cfg mode start t := by
  induction hends with
  | stop _ => exact h
  | step hstep _ ih => exact ih (h.execute hstep)

/-- A call of `simulate` leads from a state of a run to another. -/
theorem Reachable.simulate {start s t : RobState σ μ} {fuel : Nat} {insts : List DynamicMicroOp}
    (h : Reachable cfg mode start s) (hinsts : ∀ uop ∈ insts, uop.Fresh)
    (hsimulate : simulate cfg mode fuel s insts = .ok t) : Reachable cfg mode start t := by
  obtain ⟨timer, henqueue, hrun⟩ := except_bind_eq_ok.mp hsimulate
  exact (h.enqueueAll hinsts henqueue).ends (ends_of_run hrun)

theorem Reachable.tablesKnown {loads stores : Nat} {memory : μ} {contention : σ}
    {s : RobState σ μ} (h : Reachable cfg mode (new loads stores memory contention) s) :
    RobTimer.TablesKnown s.timer := by
  have hsurvives := (RobTimer.links_survives cfg).and (RobTimer.tablesKnown_survives cfg)
  refine (h.invariant hsurvives (fun hs hfresh hstep => ?_) ?_).2
  · exact ⟨hs.1.enqueue hfresh.small hstep,
      hs.2.enqueue hs.1.numbered hfresh.small hstep⟩
  · refine ⟨links_new loads stores memory contention, ?_⟩
    exact ⟨nofun, fun store hstore => absurd hstore List.not_mem_nil, List.Pairwise.nil, nofun⟩

/-- However many producers a new micro-operation has, what is written to the buffer fits as long as
no more than eight of them are done. -/
theorem removals_fit_iff {loads stores : Nat} {memory : μ} {contention : σ} {s : RobState σ μ}
    (h : Reachable cfg mode (new loads stores memory contention) s) {uop : DynamicMicroOp}
    (hfresh : uop.Fresh) (hown : ∀ d ∈ s.timer.ownProducers uop, s.timer.Holds d)
    (hprepare : (RobTimer.prepare cfg s.timer uop).toOption.isSome) :
    ∃ done, RobTimer.depsToRemove cfg s.timer uop = .ok done ∧
      (done.length ≤ 8 ↔ RobTimer.doneProducers cfg s.timer uop ≤ 8) := by
  cases hok : RobTimer.prepare cfg s.timer uop with
  | error e =>
    rw [hok] at hprepare
    cases hprepare
  | ok prepared =>
    obtain ⟨t, entry, uop'⟩ := prepared
    obtain ⟨done, hdone, hlength⟩ :=
      RobTimer.depsToRemove_length h.links h.tablesKnown hfresh hown hok
    exact ⟨done, hdone, by rw [hlength]⟩

/-- A core that looks for something to issue behind a load that takes a hundred cycles. -/
def behindLoad : RobConfig Unit Unit where
  dispatchWidth := 5
  commitWidth := 5
  windowSize := 32
  rsEntries := 32
  mispredictionPenalty := 5
  storeToLoadForwarding := true
  noAddressDisambiguation := false
  inorder := false
  contention := none
  accessMemory memory _ := ((100, 0), memory)

/-- A load, nine micro-operations that write a register each, and some that write none. -/
def nineWriters : List DynamicMicroOp :=
  plainUop .load [] [9] :: (List.range 9).map (fun reg => plainUop .execute [] [reg]) ++
    List.replicate 10 (plainUop .execute [] [])

def nineSources : DynamicMicroOp := plainUop .execute (List.range 9) []

/-- What is written for the reader of all nine. -/
def nineRemovals : Except RobAbort (List Nat) := do
  let s ← simulate behindLoad .skip 10 (new 2 2 () ()) nineWriters
  RobTimer.depsToRemove behindLoad s.timer nineSources

theorem nineWriters_fresh : ∀ uop ∈ nineWriters, uop.Fresh := by
  intro uop huop
  have hdependencies : uop.dependencies = [] ∧ uop.intraInstructionDependencies = 0 ∧
      uop.microOpTypeOffset = 0 := by
    revert uop
    decide
  obtain ⟨hnone, hintra, hoffset⟩ := hdependencies
  exact ⟨⟨by rw [hintra]; decide, by rw [hoffset]; decide⟩, hnone⟩

theorem nineSources_fresh : nineSources.Fresh := ⟨⟨by decide, by decide⟩, rfl⟩

theorem nineRemovals_eq : nineRemovals = .ok [1, 2, 3, 4, 5, 6, 7, 8, 9] := by decide +kernel

theorem removals_fit_nineSources : ∃ (s : RobState Unit Unit) (done : List Nat),
    Reachable behindLoad .skip (new 2 2 () ()) s ∧
    RobTimer.depsToRemove behindLoad s.timer nineSources = .ok done ∧
    (done.length ≤ 8 ↔ RobTimer.doneProducers behindLoad s.timer nineSources ≤ 8) := by
  obtain ⟨s, hsimulate, hremove⟩ := except_bind_eq_ok.mp nineRemovals_eq
  have hreach : Reachable behindLoad .skip (new 2 2 () ()) s :=
    Reachable.simulate .start nineWriters_fresh hsimulate
  obtain ⟨prepared, hprepare, -⟩ := except_bind_eq_ok.mp hremove
  obtain ⟨done, hdone, hiff⟩ := removals_fit_iff hreach nineSources_fresh
    (fun d hd => absurd hd List.not_mem_nil) (by rw [hprepare]; rfl)
  exact ⟨s, done, hreach, hdone, hiff⟩

/-- Nine producers are done while the load before them is not. -/
theorem removals_overrun : ¬ ∀ (s : RobState Unit Unit) (uop : DynamicMicroOp) (done : List Nat),
    Reachable behindLoad .skip (new 2 2 () ()) s → uop.Fresh →
    (∀ d ∈ s.timer.ownProducers uop, s.timer.Holds d) →
    RobTimer.depsToRemove behindLoad s.timer uop = .ok done → done.length ≤ 8 := by
  intro hfit
  obtain ⟨s, hsimulate, hremove⟩ := except_bind_eq_ok.mp nineRemovals_eq
  have hreach : Reachable behindLoad .skip (new 2 2 () ()) s :=
    Reachable.simulate .start nineWriters_fresh hsimulate
  have hnine := hfit s nineSources _ hreach nineSources_fresh
    (fun d hd => absurd hd List.not_mem_nil) hremove
  exact absurd hnine (by decide)

end RobState

end Sniper.Performance
