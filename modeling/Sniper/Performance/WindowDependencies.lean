import Sniper.Performance.RemovalBuffer
import Sniper.Performance.Windows
set_option autoImplicit false

/-! The micro-operations in the windows are numbered one after the other, and depend on earlier
ones. -/

namespace Sniper.Performance
open Sniper.Lib DynamicMicroOp

namespace Windows

variable {cfg : WindowsConfig} {w w' : Windows}

/-- What may change in an entry is neither its number nor its dependencies. -/
structure SameMicroOp (e e' : WindowEntry) : Prop where
  number : e'.uop.sequenceNumber = e.uop.sequenceNumber
  dependencies : e'.uop.allDependencies = e.uop.allDependencies

/-- The sequence numbers have 64 bits; a run has fewer micro-operations than half of them. -/
inductive Reachable (cfg : WindowsConfig) : Windows → Prop where
  | clear (cpContrByPort : UopPort → Nat) : Reachable cfg (.clear cpContrByPort)
  | add {w w' : Windows} {uop : DynamicMicroOp} {info : IntervalInfo} : Reachable cfg w → uop.Fresh →
      w.nextSequenceNumber < 2 ^ 63 → w.add cfg uop info = .ok w' → Reachable cfg w'
  | write {w : Windows} {before after : List WindowEntry} {e e' : WindowEntry} : Reachable cfg w →
      w.window = before ++ e :: after → SameMicroOp e e' →
      Reachable cfg { w with window := before ++ e' :: after }
  | updateCriticalPathTail {w : Windows} (e : WindowEntry) : Reachable cfg w →
      Reachable cfg (w.updateCriticalPathTail e).1
  | dispatch {w : Windows} {e : WindowEntry} {rest : List WindowEntry} : Reachable cfg w →
      w.window = e :: rest → Reachable cfg (w.dispatchInstruction cfg e)
  | clearOldWindow {w : Windows} (newCpHead : Nat) : Reachable cfg w →
      Reachable cfg (w.clearOldWindow newCpHead)

def number (e : WindowEntry) : Nat := e.uop.sequenceNumber

/-- A number of an earlier micro-operation, or one that has wrapped around. -/
def Earlier (number d : Nat) : Prop := d < number ∨ 2 ^ 63 ≤ d

/-- The tables know only earlier micro-operations. -/
structure KnowsEarlier (w : Windows) : Prop where
  registers : ∀ reg producer, w.registerDependencies.producers reg = some producer →
    producer < w.nextSequenceNumber
  stores : ∀ store ∈ w.memoryDependencies.producers, store.1 < w.nextSequenceNumber
  membar : ∀ membar, w.memoryDependencies.membar = some membar → membar < w.nextSequenceNumber

structure Backward (w : Windows) : Prop where
  numbers : ∃ first, (w.old ++ w.window).map number =
    List.range' first (w.old ++ w.window).length ∧
      first + (w.old ++ w.window).length = w.nextSequenceNumber
  earlier : ∀ e ∈ w.old ++ w.window, ∀ d ∈ e.uop.allDependencies, Earlier (number e) d
  tables : KnowsEarlier w
  next_le : w.nextSequenceNumber ≤ 2 ^ 63

theorem backward_clear (cpContrByPort : UopPort → Nat) : Backward (.clear cpContrByPort) where
  numbers := ⟨0, rfl, rfl⟩
  earlier _ he := absurd he List.not_mem_nil
  tables := ⟨fun _ _ h => (nomatch h), fun _ h => absurd h List.not_mem_nil, fun _ h => (nomatch h)⟩
  next_le := Nat.zero_le _

/-- The range within its own instruction ends before a micro-operation. -/
theorem intra_earlier {uop : DynamicMicroOp} (hs : uop.Small) (hlt : uop.sequenceNumber < 2 ^ 63)
    {d : Nat} (hd : d ∈ uop.intraDependencies) : Earlier uop.sequenceNumber d := by
  obtain ⟨i, hi, rfl⟩ := List.mem_map.mp hd
  have hintra := hs.intra
  have hoffset := hs.offset
  have hi := List.mem_range.mp hi
  rw [firstIntra, Earlier]
  omega

/-- What the tables name is earlier. -/
theorem KnowsEarlier.announced (h : KnowsEarlier w) {lowest : Nat} {uop uop' : DynamicMicroOp}
    {d : Nat} (hd : d ∈ RobTimer.registersAnnounced w.registerDependencies lowest
        uop.microOp.sourceRegisters ++ (RobTimer.storeAnnounced w.memoryDependencies lowest uop' ++
          RobTimer.barrierAnnounced w.memoryDependencies lowest uop')) :
    d < w.nextSequenceNumber := by
  rcases List.mem_append.mp hd with hd | hd
  · obtain ⟨reg, -, hreg⟩ := List.mem_filterMap.mp hd
    exact h.registers reg d (Option.filter_eq_some_iff.mp hreg).1
  · rcases List.mem_append.mp hd with hd | hd
    · rw [RobTimer.storeAnnounced] at hd
      split at hd
      · rw [Option.mem_toList, MemoryDependencies.find, Option.map_eq_some_iff] at hd
        obtain ⟨store, hfind, rfl⟩ := hd
        have hstore := List.mem_reverse.mp (List.mem_of_find?_eq_some hfind)
        exact h.stores store ((List.dropWhile_sublist _).subset hstore)
      · cases hd
    · rw [RobTimer.barrierAnnounced] at hd
      split at hd
      · rw [Option.mem_toList, Option.filter_eq_some_iff] at hd
        exact h.membar d hd.1
      · cases hd

theorem add_next {uop : DynamicMicroOp} {info : IntervalInfo} (h : w.add cfg uop info = .ok w') :
    w'.nextSequenceNumber = w.nextSequenceNumber + 1 := by
  unfold Windows.add at h
  split at h
  · cases h
  · dsimp only at h
    split at h
    · cases h
    · split at h
      · cases h
      · cases h
        rfl

/-- The windows after the addition of a micro-operation. -/
theorem add_spec {uop : DynamicMicroOp} {info : IntervalInfo} (hfresh : uop.Fresh)
    (htables : KnowsEarlier w) (hlt : w.nextSequenceNumber < 2 ^ 63)
    (h : w.add cfg uop info = .ok w') : ∃ e : WindowEntry, number e = w.nextSequenceNumber ∧
      (∀ d ∈ e.uop.allDependencies, Earlier (number e) d) ∧ w'.old = w.old ∧
      w'.window = w.window ++ [e] ∧ w'.nextSequenceNumber = w.nextSequenceNumber + 1 ∧
      KnowsEarlier w' := by
  unfold Windows.add at h
  split at h
  · cases h
  · dsimp only at h
    split at h
    · cases h
    · next registers uop₁ hregisters =>
      split at h
      · cases h
      · next memory uop₂ hmemory =>
        cases h
        obtain ⟨rfl, hproducers⟩ := RobTimer.registers_known hregisters
        obtain ⟨hstores, -, hmembar⟩ := RobTimer.memory_known hmemory
        obtain ⟨rfl, -⟩ := RobTimer.memory_announced hmemory
        refine ⟨_, rfl, ?_, rfl, rfl, rfl, ?_, ?_, ?_⟩
        · intro d hd
          change d ∈ DynamicMicroOp.allDependencies _ at hd
          rw [← addAll_append, allDependencies_eq] at hd
          rcases List.mem_append.mp hd with hd | hd
          · exact @intra_earlier { uop with sequenceNumber := w.nextSequenceNumber }
              ⟨hfresh.small.intra, hfresh.small.offset⟩ hlt d hd
          · change d ∈ List.foldl addNew uop.dependencies _ at hd
            rw [hfresh.dependencies, mem_foldl_addNew] at hd
            exact .inl (htables.announced (hd.resolve_left List.not_mem_nil))
        · intro reg producer hproducer
          rcases hproducers reg producer hproducer with hold | ⟨rfl, -⟩
          · exact (htables.registers reg producer hold).trans (Nat.lt_succ_self _)
          · exact Nat.lt_succ_self _
        · intro store hstore
          rcases List.mem_append.mp (hstores.subset hstore) with hold | hnew
          · exact (htables.stores store hold).trans (Nat.lt_succ_self _)
          · rw [List.mem_singleton.mp hnew]
            exact Nat.lt_succ_self _
        · intro membar hmem
          rcases hmembar membar hmem with hold | ⟨-, rfl⟩
          · exact (htables.membar membar hold).trans (Nat.lt_succ_self _)
          · exact Nat.lt_succ_self _

theorem Backward.add {uop : DynamicMicroOp} {info : IntervalInfo} (h : Backward w)
    (hfresh : uop.Fresh) (hlt : w.nextSequenceNumber < 2 ^ 63) (hs : w.add cfg uop info = .ok w') :
    Backward w' := by
  obtain ⟨e, hnumber, hearlier, hold, hwindow, hnext, htables⟩ := add_spec hfresh h.tables hlt hs
  obtain ⟨first, hnumbers, hlast⟩ := h.numbers
  have hlist : w'.old ++ w'.window = (w.old ++ w.window) ++ [e] := by
    rw [hold, hwindow, List.append_assoc]
  constructor
  case numbers =>
    have hlength : (w'.old ++ w'.window).length = (w.old ++ w.window).length + 1 := by
      rw [hlist, List.length_append, List.length_singleton]
    refine ⟨first, ?_, ?_⟩
    · rw [hlength, hlist, List.map_append, hnumbers, List.range'_concat, Nat.one_mul, hlast,
        List.map_singleton, hnumber]
    · rw [hlength, hnext, ← hlast, Nat.add_assoc]
  case earlier =>
    intro e' he'
    rw [hlist] at he'
    rcases List.mem_append.mp he' with he' | he'
    · exact h.earlier e' he'
    · rw [List.mem_singleton.mp he']
      exact hearlier
  case tables => exact htables
  case next_le =>
    rw [hnext]
    exact hlt

/-- The oldest leave, and nothing else changes. -/
theorem Backward.drop (h : Backward w) (dropped : List WindowEntry)
    (hlist : w.old ++ w.window = dropped ++ (w'.old ++ w'.window))
    (hnext : w'.nextSequenceNumber = w.nextSequenceNumber)
    (hregisters : w'.registerDependencies = w.registerDependencies)
    (hmemory : w'.memoryDependencies = w.memoryDependencies) : Backward w' := by
  obtain ⟨first, hnumbers, hlast⟩ := h.numbers
  constructor
  case numbers =>
    refine ⟨first + dropped.length, ?_, ?_⟩
    · rw [hlist, List.map_append, List.length_append, ← List.range'_append_1] at hnumbers
      refine (List.append_inj hnumbers ?_).2
      rw [List.length_map, List.length_range']
    · rw [hlist, List.length_append] at hlast
      rw [hnext, Nat.add_assoc, hlast]
  case earlier =>
    intro e he
    refine h.earlier e ?_
    rw [hlist]
    exact List.mem_append_right dropped he
  case tables =>
    obtain ⟨h₁, h₂, h₃⟩ := h.tables
    rw [← hnext] at h₁ h₂ h₃
    rw [← hregisters] at h₁
    rw [← hmemory] at h₂ h₃
    exact ⟨h₁, h₂, h₃⟩
  case next_le =>
    rw [hnext]
    exact h.next_le

theorem Backward.write {before after : List WindowEntry} {e e' : WindowEntry} (h : Backward w)
    (hwindow : w.window = before ++ e :: after) (hsame : SameMicroOp e e') :
    Backward { w with window := before ++ e' :: after } := by
  obtain ⟨first, hnumbers, hlast⟩ := h.numbers
  have hlength : (w.old ++ (before ++ e' :: after)).length = (w.old ++ w.window).length := by
    simp only [hwindow, List.length_append, List.length_cons]
  have hmap : (w.old ++ (before ++ e' :: after)).map number = (w.old ++ w.window).map number := by
    simp only [hwindow, List.map_append, List.map_cons, number, hsame.number]
  refine ⟨⟨first, ?_, ?_⟩, ?_, ⟨h.tables.registers, h.tables.stores, h.tables.membar⟩, h.next_le⟩
  · change (w.old ++ (before ++ e' :: after)).map number = List.range' first _
    rw [hmap, hlength]
    exact hnumbers
  · change first + (w.old ++ (before ++ e' :: after)).length = _
    rw [hlength]
    exact hlast
  · intro x hx
    have hother : x ∈ w.old ++ w.window ∨ x = e' := by
      simp only [hwindow, List.mem_append, List.mem_cons] at hx ⊢
      tauto
    rcases hother with hx | rfl
    · exact h.earlier x hx
    · have he := h.earlier e (by simp [hwindow])
      rw [hsame.dependencies, number, hsame.number]
      exact he

theorem Reachable.backward (h : Reachable cfg w) : Backward w := by
  induction h with
  | clear cpContrByPort => exact backward_clear cpContrByPort
  | add _ hfresh hlt hs ih => exact ih.add hfresh hlt hs
  | write _ hwindow hsame ih => exact ih.write hwindow hsame
  | @updateCriticalPathTail w e _ ih =>
    rw [Windows.updateCriticalPathTail]
    split
    · exact ih.drop [] rfl rfl rfl rfl
    · exact ih
  | @dispatch w e rest _ hwindow ih =>
    cases hold : w.old with
    | nil =>
      simp only [dispatchInstruction, hold]
      refine ih.drop [] ?_ rfl rfl rfl
      rw [push, hold, hwindow]
      rfl
    | cons oldest others =>
      simp only [dispatchInstruction, hold]
      split
      · refine ih.drop [oldest] ?_ rfl rfl rfl
        rw [push, evict, hold]
        change _ = [oldest] ++ (others ++ [e] ++ w.window.tail)
        rw [hwindow, List.append_assoc]
        rfl
      · refine ih.drop [] ?_ rfl rfl rfl
        rw [push, hold, hwindow, List.append_assoc]
        rfl
  | @clearOldWindow w newCpHead _ ih => exact ih.drop w.old rfl rfl rfl rfl

/-! ### The old window -/

/-- The old window has the micro-operation of a number. -/
def inOld (w : Windows) (d : Nat) : Bool := w.old.any fun e => number e = d

theorem Backward.old_numbers (h : Backward w) :
    ∃ first, w.old.map number = List.range' first w.old.length := by
  obtain ⟨first, hnumbers, -⟩ := h.numbers
  rw [List.map_append, List.length_append, ← List.range'_append_1] at hnumbers
  exact ⟨first, (List.append_inj hnumbers (by rw [List.length_map, List.length_range'])).1⟩

theorem Backward.oldWindowContains (h : Backward w) (d : Nat) :
    w.oldWindowContains d = w.inOld d := by
  obtain ⟨first, hnumbers⟩ := h.old_numbers
  have hiff : w.inOld d = true ↔ first ≤ d ∧ d < first + w.old.length := by
    rw [← List.mem_range'_1, ← hnumbers, inOld, List.any_eq_true, List.mem_map]
    simp only [decide_eq_true_iff]
  rw [Windows.oldWindowContains, containsNumber]
  cases hold : w.old with
  | nil =>
    rw [inOld, hold]
    rfl
  | cons oldest rest =>
    have hhead := congrArg List.head? hnumbers
    have hlast := congrArg List.getLast? hnumbers
    rw [hold, List.length_cons] at hhead hlast hiff
    rw [List.head?_map, List.head?_cons, List.head?_range', if_neg (Nat.succ_ne_zero _)] at hhead
    rw [List.getLast?_map, List.getLast?_range', if_neg (Nat.succ_ne_zero _)] at hlast
    obtain ⟨final, hfinal, hfinalNumber⟩ := Option.map_eq_some_iff.mp hlast
    have holdest : number oldest = first := Option.some.inj hhead
    rw [number] at holdest hfinalNumber
    rw [List.head?_cons, hfinal]
    change decide (oldest.uop.sequenceNumber ≤ d ∧ d ≤ final.uop.sequenceNumber) = _
    rw [Bool.eq_iff_iff, decide_eq_true_iff, hiff]
    omega

/-- An entry is found by its number. -/
theorem Backward.getInstruction (h : Backward w) {e : WindowEntry} (he : e ∈ w.old) :
    Windows.getInstruction w.old (number e) = some e := by
  obtain ⟨first, hnumbers⟩ := h.old_numbers
  have hnodup : (w.old.map number).Nodup := by
    rw [hnumbers]
    exact List.nodup_range'
  cases hfind : Windows.getInstruction w.old (number e) with
  | none => exact absurd (decide_eq_true rfl) (List.find?_eq_none.mp hfind e he)
  | some e' =>
    have hfound : decide (number e' = number e) = true :=
      List.find?_some (p := fun e' => decide (number e' = number e)) hfind
    have hnumber : number e' = number e := of_decide_eq_true hfound
    rw [List.inj_on_of_nodup_map hnodup (List.mem_of_find?_eq_some hfind) he hnumber]

end Windows

end Sniper.Performance
