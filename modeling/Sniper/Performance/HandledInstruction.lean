import Mathlib.Algebra.Group.Nat.Defs
import Sniper.Performance.InstructionOperands
set_option autoImplicit false

/-! Instructions in the form of the decoder, with any accesses: what is squashed, and what depends on
what afterwards. -/

namespace Sniper.Performance

open CurrentUop

/-- The loads of an instruction, at most one execute, and its stores, as they come from the
decoder. -/
structure DecoderForm (numLoads numExecs numStores : Nat) (uops : List CurrentUop) : Prop where
  execs : numExecs ≤ 1
  length : uops.length = numLoads + numExecs + numStores
  nonempty : uops ≠ []
  size : uops.length < 2 ^ 32
  shape : ∀ (i : Nat) (uop : CurrentUop), uops[i]? = some uop →
    (uop.microOp.type, uop.staticTypeOffset, uop.intraInstructionDependencies) =
      decodedShape numLoads numExecs i ∧ uop.microOpTypeOffset = uop.staticTypeOffset
  fresh : ∀ uop ∈ uops, uop.squashed = false
  first : ∀ (i : Nat) (uop : CurrentUop), uops[i]? = some uop → uop.first = decide (i = 0)
  last : ∀ (i : Nat) (uop : CurrentUop), uops[i]? = some uop →
    uop.last = decide (i + 1 = uops.length)

/-- The line of a memory operand in a direction. -/
def Operand.line (read : Bool) : Operand → Option Nat
  | .memory direction info =>
    if direction = read then some (OperandLoop.cacheLine info.addr) else none
  | .other => none

/-- The line of access `k` is that of an earlier one. -/
def repeats (lines : List Nat) (k : Nat) : Bool :=
  lines[k]?.any fun line => decide (line ∈ lines.take k)

theorem repeats_zero (lines : List Nat) : repeats lines 0 = false := by
  cases lines <;> simp [repeats]

theorem repeats_append (lines : List Nat) (line k : Nat) :
    repeats (lines ++ [line]) k =
      (repeats lines k || (decide (line ∈ lines) && decide (lines.length = k))) := by
  unfold repeats
  rcases Nat.lt_trichotomy k lines.length with hlt | rfl | hgt
  · rw [List.getElem?_append_left hlt, List.take_append_of_le_length hlt.le]
    simp [hlt.ne']
  · simp
  · have hnone : (lines ++ [line])[k]? = none := List.getElem?_eq_none (by
      rw [List.length_append]
      exact hgt)
    rw [hnone, List.getElem?_eq_none hgt.le]
    simp [hgt.ne]

/-- The loads and the stores that touch a line again. -/
def touchedAgain (numLoads numExecs : Nat) (linesRead linesWritten : List Nat) (i : Nat) : Bool :=
  if i < numLoads then repeats linesRead i
  else if i < numLoads + numExecs then false
  else repeats linesWritten (i - numLoads - numExecs)

namespace OperandLoop

variable {bypassLatency : CurrentUop → Nat} {info : MemoryInfo}

@[simp] theorem setAccess_shape (uop : CurrentUop) :
    (setAccess bypassLatency info uop).shape = uop.shape := rfl

theorem modify_setAccess {uops : List CurrentUop} {k i : Nat} {uop : CurrentUop}
    (h : (uops.modify k (setAccess bypassLatency info))[i]? = some uop) :
    ∃ orig, uops[i]? = some orig ∧ uop.squashed = orig.squashed ∧ uop.first = orig.first ∧
      uop.last = orig.last := by
  rw [List.getElem?_modify, Option.map_eq_map, Option.map_eq_some_iff] at h
  obtain ⟨orig, horig, rfl⟩ := h
  refine ⟨orig, horig, ?_⟩
  split <;> exact ⟨rfl, rfl, rfl⟩

theorem modify_setAccess_back {uops : List CurrentUop} {i : Nat} {orig : CurrentUop} (k : Nat)
    (h : uops[i]? = some orig) :
    ∃ uop, (uops.modify k (setAccess bypassLatency info))[i]? = some uop ∧
      uop.squashed = orig.squashed := by
  rw [List.getElem?_modify, h]
  refine ⟨_, rfl, ?_⟩
  split <;> rfl

theorem modify_setAccess_marked {uops : List CurrentUop} (h : Marked uops) (k : Nat) :
    Marked (uops.modify k (setAccess bypassLatency info)) := by
  have hplaces : ∀ places : Nat → Prop,
      SquashedAt places (uops.modify k (setAccess bypassLatency info)) ↔
        SquashedAt places uops := by
    intro places
    constructor
    · intro hall
      refine hall.of_flags fun j v hv => ?_
      obtain ⟨w, hw, hs⟩ := modify_setAccess_back k hv
      exact ⟨w, hw, hs ▸ id⟩
    · intro hall
      refine hall.of_flags fun j v hv => ?_
      obtain ⟨w, hw, hs, _⟩ := modify_setAccess hv
      exact ⟨w, hw, hs ▸ id⟩
  constructor
  · intro i uop hi hs
    obtain ⟨orig, horig, hsame, hfirst, _⟩ := modify_setAccess hi
    rw [hfirst, hplaces]
    exact h.first i orig horig (hsame ▸ hs)
  · intro i uop hi hs
    obtain ⟨orig, horig, hsame, _, hlast⟩ := modify_setAccess hi
    rw [hlast, hplaces]
    exact h.last i orig horig (hsame ▸ hs)

theorem modify_setAccess_shape (uops : List CurrentUop) (k : Nat) :
    (uops.modify k (setAccess bypassLatency info)).map shape = uops.map shape := by
  refine List.ext_getElem? fun i => ?_
  rw [List.getElem?_map, List.getElem?_map, List.getElem?_modify, Option.map_eq_map,
    Option.map_map]
  congr 1
  funext uop
  simp only [Function.comp]
  split <;> rfl

/-- One access: its load or store is squashed when the line was touched before. -/
theorem accessUop_ok {uops : List CurrentUop} (h : Marked uops) (type : MicroOpType)
    (base done : Nat) (lines : List Nat) {uop : CurrentUop} (huop : uops[base + done]? = some uop)
    (htype : uop.microOp.type = type) :
    ∃ uops', accessUop bypassLatency type (some base) done lines uops info =
        .ok (uops', decide (cacheLine info.addr ∈ lines)) ∧
      uops'.map shape = uops.map shape ∧ Marked uops' ∧
      ∀ (i : Nat) (uop' : CurrentUop), uops'[i]? = some uop' → ∃ orig, uops[i]? = some orig ∧
        uop'.squashed = (orig.squashed ||
          (decide (cacheLine info.addr ∈ lines) && decide (base + done = i))) := by
  refine ⟨(if decide (cacheLine info.addr ∈ lines) = true then squash uops (base + done)
    else uops).modify (base + done) (setAccess bypassLatency info),
    by simp only [accessUop, huop, if_pos htype], ?_, ?_, ?_⟩
  · rw [modify_setAccess_shape]
    split
    · exact squash_shape _ _
    · rfl
  · refine modify_setAccess_marked ?_ _
    split
    · exact squash_marked h _
    · exact h
  · intro i uop' hi
    obtain ⟨mid, hmid, hs, _⟩ := modify_setAccess hi
    rw [hs]
    split at hmid
    · next hagain =>
      obtain ⟨orig, horig, heq⟩ := squash_getElem?_inv hmid
      exact ⟨orig, horig, by rw [heq, hagain, Bool.true_and]⟩
    · next hfresh =>
      refine ⟨mid, hmid, ?_⟩
      rw [Bool.not_eq_true] at hfresh
      rw [hfresh, Bool.false_and, Bool.or_false]

variable {numLoads numExecs numStores : Nat} {orig : List CurrentUop}

/-- The loop so far: the shapes are those of the decoder, the loads and stores that touched a line
again are squashed, and the ends of what is left are marked. -/
structure Handled (numLoads numExecs : Nat) (orig : List CurrentUop) (s : OperandLoop) :
    Prop where
  shape : s.uops.map shape = orig.map shape
  squashed : ∀ (i : Nat) (uop : CurrentUop), s.uops[i]? = some uop →
    uop.squashed = touchedAgain numLoads numExecs s.cacheLinesRead s.cacheLinesWritten i
  marked : Marked s.uops
  reads : s.numReadsDone = s.cacheLinesRead.length
  writes : s.numWritesDone = s.cacheLinesWritten.length
  unsquashed : s.doSquashing = false → ∀ uop ∈ s.uops, uop.squashed = false

theorem start_handled (h : DecoderForm numLoads numExecs numStores orig) :
    Handled numLoads numExecs orig ⟨orig, [], [], 0, 0, 0, false⟩ where
  shape := rfl
  squashed i uop hi := by
    rw [h.fresh uop (List.mem_of_getElem? hi), touchedAgain]
    simp [repeats]
  marked := by
    have hfresh : ∀ places : Nat → Prop, SquashedAt places orig ↔
        ∀ j, j < orig.length → ¬places j := by
      intro places
      constructor
      · intro hall j hj hplace
        have hs := hall j _ hplace (List.getElem?_eq_getElem hj)
        rw [h.fresh _ (List.getElem_mem hj)] at hs
        cases hs
      · intro hnone j v hplace hv
        exact absurd hplace (hnone j (List.getElem?_eq_some_iff.mp hv).1)
    constructor
    · intro i uop hi _
      have hlt : i < orig.length := (List.getElem?_eq_some_iff.mp hi).1
      rw [h.first i uop hi, decide_eq_true_eq, hfresh]
      constructor
      · rintro rfl j _
        exact Nat.not_lt_zero j
      · intro hnone
        by_contra hpos
        exact hnone 0 (by omega) (by omega)
    · intro i uop hi _
      have hlt : i < orig.length := (List.getElem?_eq_some_iff.mp hi).1
      rw [h.last i uop hi, decide_eq_true_eq, hfresh]
      constructor
      · intro hend j hj
        omega
      · intro hnone
        by_contra hmore
        exact hnone (i + 1) (by omega) (by omega)
  reads := rfl
  writes := rfl
  unsquashed _ := h.fresh

/-- The shapes that stay are those of the decoder. -/
theorem Handled.decoded {s : OperandLoop} (h : Handled numLoads numExecs orig s)
    (hform : DecoderForm numLoads numExecs numStores orig) {i : Nat} {uop : CurrentUop}
    (hi : s.uops[i]? = some uop) :
    (uop.microOp.type, uop.staticTypeOffset, uop.intraInstructionDependencies) =
      decodedShape numLoads numExecs i ∧ uop.microOpTypeOffset = uop.staticTypeOffset := by
  have hshape := congrArg (fun l => l[i]?) h.shape
  simp only [List.getElem?_map, hi, Option.map_some] at hshape
  obtain ⟨before, hbefore, heq⟩ := Option.map_eq_some_iff.mp hshape.symm
  have hold := hform.shape i before hbefore
  simp only [CurrentUop.shape, Prod.mk.injEq] at heq
  obtain ⟨hop, hintra, hoffset, hstatic⟩ := heq
  rw [← hop, ← hintra, ← hoffset, ← hstatic]
  exact hold

theorem Handled.length {s : OperandLoop} (h : Handled numLoads numExecs orig s) :
    s.uops.length = orig.length := by
  have hlen := congrArg List.length h.shape
  rwa [List.length_map, List.length_map] at hlen

/-- A load and its line. -/
theorem Handled.read {s : OperandLoop} (h : Handled numLoads numExecs orig s)
    (hform : DecoderForm numLoads numExecs numStores orig) (info : MemoryInfo)
    (storeBase : Option Nat) (hmore : s.cacheLinesRead.length < numLoads) :
    ∃ s', operand bypassLatency (some 0) storeBase s (.memory true info) = .ok s' ∧
      Handled numLoads numExecs orig s' ∧
      s'.cacheLinesRead = s.cacheLinesRead ++ [cacheLine info.addr] ∧
      s'.cacheLinesWritten = s.cacheLinesWritten := by
  have hlt : 0 + s.numReadsDone < s.uops.length := by
    rw [h.length, hform.length, h.reads]
    omega
  have huop := List.getElem?_eq_getElem hlt
  have htype : (s.uops[0 + s.numReadsDone]).microOp.type = .load := by
    have hdecoded := (h.decoded hform huop).1
    rw [decodedShape, if_pos (by rw [h.reads]; omega)] at hdecoded
    exact (Prod.mk.inj hdecoded).1
  obtain ⟨uops', heq, hshape, hmarked, hsquashed⟩ :=
    @accessUop_ok bypassLatency info _ h.marked .load 0 s.numReadsDone s.cacheLinesRead _ huop htype
  refine ⟨⟨uops', s.cacheLinesRead ++ [cacheLine info.addr], s.cacheLinesWritten,
    s.numReadsDone + 1, s.numWritesDone, s.numNonmemDone,
    s.doSquashing || decide (cacheLine info.addr ∈ s.cacheLinesRead)⟩, ?_, ?_, rfl, rfl⟩
  · simp only [operand, heq, bind, Except.bind, pure, Except.pure]
  refine ⟨hshape.trans h.shape, ?_, hmarked, ?_, h.writes, ?_⟩
  · intro i uop' hi
    obtain ⟨before, hbefore, hs⟩ := hsquashed i uop' hi
    rw [hs, h.squashed i before hbefore, touchedAgain, touchedAgain, repeats_append, Nat.zero_add,
      h.reads]
    by_cases hload : i < numLoads
    · rw [if_pos hload, if_pos hload]
    · have hother : s.cacheLinesRead.length ≠ i := by omega
      rw [if_neg hload, if_neg hload, decide_eq_false hother, Bool.and_false, Bool.or_false]
  · simp [h.reads]
  · intro hnone uop' huop'
    rw [Bool.or_eq_false_iff] at hnone
    obtain ⟨i, hi⟩ := List.getElem?_of_mem huop'
    obtain ⟨before, hbefore, hs⟩ := hsquashed i uop' hi
    rw [hs, hnone.2, Bool.false_and, Bool.or_false]
    exact h.unsquashed hnone.1 before (List.mem_of_getElem? hbefore)

theorem Handled.write {s : OperandLoop} (h : Handled numLoads numExecs orig s)
    (hform : DecoderForm numLoads numExecs numStores orig) (info : MemoryInfo)
    (loadBase : Option Nat) (hmore : s.cacheLinesWritten.length < numStores) :
    ∃ s', operand bypassLatency loadBase (some (numLoads + numExecs)) s (.memory false info) =
        .ok s' ∧
      Handled numLoads numExecs orig s' ∧ s'.cacheLinesRead = s.cacheLinesRead ∧
      s'.cacheLinesWritten = s.cacheLinesWritten ++ [cacheLine info.addr] := by
  have hlt : numLoads + numExecs + s.numWritesDone < s.uops.length := by
    rw [h.length, hform.length, h.writes]
    omega
  have huop := List.getElem?_eq_getElem hlt
  have htype : (s.uops[numLoads + numExecs + s.numWritesDone]).microOp.type = .store := by
    have hdecoded := (h.decoded hform huop).1
    rw [decodedShape, if_neg (by omega), if_neg (by omega)] at hdecoded
    exact (Prod.mk.inj hdecoded).1
  obtain ⟨uops', heq, hshape, hmarked, hsquashed⟩ :=
    @accessUop_ok bypassLatency info _ h.marked .store (numLoads + numExecs) s.numWritesDone
      s.cacheLinesWritten _ huop htype
  refine ⟨⟨uops', s.cacheLinesRead, s.cacheLinesWritten ++ [cacheLine info.addr],
    s.numReadsDone, s.numWritesDone + 1, s.numNonmemDone,
    s.doSquashing || decide (cacheLine info.addr ∈ s.cacheLinesWritten)⟩, ?_, ?_, rfl, rfl⟩
  · simp only [operand, heq, bind, Except.bind, pure, Except.pure]
  refine ⟨hshape.trans h.shape, ?_, hmarked, h.reads, ?_, ?_⟩
  · intro i uop' hi
    obtain ⟨before, hbefore, hs⟩ := hsquashed i uop' hi
    rw [hs, h.squashed i before hbefore, touchedAgain, touchedAgain, repeats_append, h.writes]
    by_cases hstore : numLoads + numExecs ≤ i
    · rw [if_neg (by omega), if_neg (by omega), if_neg (by omega), if_neg (by omega)]
      congr 3
      rw [eq_iff_iff]
      omega
    · have hother : numLoads + numExecs + s.cacheLinesWritten.length ≠ i := by omega
      rw [decide_eq_false hother, Bool.and_false, Bool.or_false]
      split
      · rfl
      · rw [if_pos (by omega), if_pos (by omega)]
  · simp [h.writes]
  · intro hnone uop' huop'
    rw [Bool.or_eq_false_iff] at hnone
    obtain ⟨i, hi⟩ := List.getElem?_of_mem huop'
    obtain ⟨before, hbefore, hs⟩ := hsquashed i uop' hi
    rw [hs, hnone.2, Bool.false_and, Bool.or_false]
    exact h.unsquashed hnone.1 before (List.mem_of_getElem? hbefore)

/-- The whole loop, for as many accesses as there are loads and stores. -/
theorem Handled.run (hform : DecoderForm numLoads numExecs numStores orig)
    {loadBase storeBase : Option Nat} (hload : 0 < numLoads → loadBase = some 0)
    (hstore : 0 < numStores → storeBase = some (numLoads + numExecs)) (operands : List Operand) :
    ∀ {s : OperandLoop}, Handled numLoads numExecs orig s →
    s.cacheLinesRead.length + (operands.filterMap (Operand.line true)).length = numLoads →
    s.cacheLinesWritten.length + (operands.filterMap (Operand.line false)).length = numStores →
    ∃ s', operands.foldlM (operand bypassLatency loadBase storeBase) s = .ok s' ∧
      Handled numLoads numExecs orig s' ∧
      s'.cacheLinesRead = s.cacheLinesRead ++ operands.filterMap (Operand.line true) ∧
      s'.cacheLinesWritten = s.cacheLinesWritten ++ operands.filterMap (Operand.line false) := by
  induction operands with
  | nil =>
    intro s h _ _
    exact ⟨s, rfl, h, by simp, by simp⟩
  | cons op ops ih =>
    intro s h hreads hwrites
    have hstep : ∃ s', operand bypassLatency loadBase storeBase s op = .ok s' ∧
        Handled numLoads numExecs orig s' ∧
        s'.cacheLinesRead = s.cacheLinesRead ++ (op.line true).toList ∧
        s'.cacheLinesWritten = s.cacheLinesWritten ++ (op.line false).toList := by
      cases op with
      | other =>
        refine ⟨_, rfl, ⟨h.shape, h.squashed, h.marked, h.reads, h.writes, h.unsquashed⟩, ?_, ?_⟩
        · simp [Operand.line]
        · simp [Operand.line]
      | memory read info =>
        cases read with
        | true =>
          have hmore : s.cacheLinesRead.length < numLoads := by
            simp [Operand.line] at hreads
            omega
          rw [hload (by omega)]
          obtain ⟨s', heq, hs', hr, hw⟩ := h.read hform info storeBase hmore
          exact ⟨s', heq, hs', by simpa [Operand.line] using hr, by simpa [Operand.line] using hw⟩
        | false =>
          have hmore : s.cacheLinesWritten.length < numStores := by
            simp [Operand.line] at hwrites
            omega
          rw [hstore (by omega)]
          obtain ⟨s', heq, hs', hr, hw⟩ := h.write hform info loadBase hmore
          exact ⟨s', heq, hs', by simpa [Operand.line] using hr, by simpa [Operand.line] using hw⟩
    obtain ⟨mid, hmid, hhandled, hr, hw⟩ := hstep
    have hsplit : ∀ read, (op :: ops).filterMap (Operand.line read) =
        (op.line read).toList ++ ops.filterMap (Operand.line read) := by
      intro read
      rw [List.filterMap_cons]
      cases op.line read <;> rfl
    rw [hsplit] at hreads hwrites
    rw [List.length_append] at hreads hwrites
    obtain ⟨s', heq, hs', hr', hw'⟩ := ih hhandled
      (by rw [hr, List.length_append]; omega) (by rw [hw, List.length_append]; omega)
    refine ⟨s', ?_, hs', ?_, ?_⟩
    · rw [List.foldlM_cons, hmid]
      exact heq
    · rw [hr', hr, hsplit, List.append_assoc]
    · rw [hw', hw, hsplit, List.append_assoc]

/-- What the loop leaves is in groups, the first of each not squashed. -/
theorem Handled.grouped {s : OperandLoop} (h : Handled numLoads numExecs orig s)
    (hform : DecoderForm numLoads numExecs numStores orig) : Grouped s.uops := by
  have hexecs := hform.execs
  have hlen := h.length.trans hform.length
  -- type, offset and dependencies at each index
  have hshape : ∀ (i : Nat) (uop : CurrentUop), s.uops[i]? = some uop →
      (i < numLoads ∧ uop.microOp.type = .load ∧ uop.staticTypeOffset = i ∧
        uop.intraInstructionDependencies = 0) ∨
      (numLoads ≤ i ∧ i < numLoads + numExecs ∧ uop.microOp.type = .execute ∧
        uop.staticTypeOffset = i - numLoads ∧ uop.intraInstructionDependencies = numLoads) ∨
      (numLoads + numExecs ≤ i ∧ uop.microOp.type = .store ∧
        uop.staticTypeOffset = i - numLoads - numExecs ∧
        uop.intraInstructionDependencies = numExecs) := by
    intro i uop hi
    exact decodedShape_cases (h.decoded hform hi).1
  have hkept : ∀ i, i < s.uops.length →
      touchedAgain numLoads numExecs s.cacheLinesRead s.cacheLinesWritten i = false →
      ∃ v, s.uops[i]? = some v ∧ v.squashed = false := by
    intro i hi hfresh
    have hget := List.getElem?_eq_getElem hi
    exact ⟨_, hget, (h.squashed i _ hget).trans hfresh⟩
  refine ⟨?_, ?_, ?_, ?_, ?_, ?_⟩
  · rw [List.pairwise_iff_getElem]
    intro i j hi hj hij
    rcases hshape i _ (List.getElem?_eq_getElem hi) with ⟨_, ht, _⟩ | ⟨_, _, ht, _⟩ | ⟨_, ht, _⟩ <;>
      rcases hshape j _ (List.getElem?_eq_getElem hj) with
        ⟨_, ht', _⟩ | ⟨_, _, ht', _⟩ | ⟨_, ht', _⟩ <;>
      rw [ht, ht'] <;> simp only [rank] <;> omega
  · intro uop huop
    obtain ⟨i, hi⟩ := List.getElem?_of_mem huop
    exact (h.decoded hform hi).2
  · intro i uop hi
    rcases hshape i uop hi with ⟨_, _, hs, hd⟩ | ⟨_, _, _, hs, hd⟩ | ⟨_, _, hs, hd⟩ <;> omega
  · intro i j uop v hi hj hbase hle
    rcases hshape i uop hi with ⟨_, ht, hs, _⟩ | ⟨_, _, ht, hs, _⟩ | ⟨_, ht, hs, _⟩ <;>
      rcases hshape j v hj with ⟨_, ht', _⟩ | ⟨_, _, ht', _⟩ | ⟨_, ht', _⟩ <;>
      first | (rw [ht, ht']; done) | omega
  · intro i j uop v hi hj hbase
    rcases hshape i uop hi with ⟨_, ht, hs, _⟩ | ⟨_, _, ht, hs, _⟩ | ⟨_, ht, hs, _⟩ <;>
      rcases hshape j v hj with ⟨_, ht', _⟩ | ⟨_, _, ht', _⟩ | ⟨_, ht', _⟩ <;>
      first | omega | (rw [ht, ht']; decide)
  · intro i uop hi hdeps
    have hlt := (List.getElem?_eq_some_iff.mp hi).1
    rcases hshape i uop hi with ⟨_, _, hs, hd⟩ | ⟨hge, hlt', _, hs, hd⟩ | ⟨hge, _, hs, hd⟩
    · exact absurd hd hdeps
    · have hbase : i - uop.staticTypeOffset = numLoads := by omega
      have hdep : i - uop.staticTypeOffset - uop.intraInstructionDependencies = 0 := by omega
      rw [hdep, hbase]
      refine ⟨hkept _ (by omega) ?_, hkept _ (by omega) ?_⟩
      · rw [touchedAgain, if_neg (by omega), if_pos (by omega)]
      · rw [touchedAgain, if_pos (by omega), repeats_zero]
    · have hbase : i - uop.staticTypeOffset = numLoads + numExecs := by omega
      have hdep : i - uop.staticTypeOffset - uop.intraInstructionDependencies = numLoads := by
        omega
      rw [hdep, hbase]
      refine ⟨hkept _ (by omega) ?_, hkept _ (by omega) ?_⟩
      · rw [touchedAgain, if_neg (by omega), if_neg (by omega), Nat.sub_sub, Nat.sub_self,
          repeats_zero]
      · rw [touchedAgain, if_neg (by omega), if_pos (by omega)]

end OperandLoop

namespace CurrentUop

theorem Marked.congr {uops uops' : List CurrentUop} (h : Marked uops)
    (hsquashed : uops'.map (fun uop => uop.squashed) = uops.map fun uop => uop.squashed)
    (hfirst : uops'.map (fun uop => uop.first) = uops.map fun uop => uop.first)
    (hlast : uops'.map (fun uop => uop.last) = uops.map fun uop => uop.last) : Marked uops' := by
  have hget : ∀ {α : Type} (f : CurrentUop → α), uops'.map f = uops.map f →
      ∀ (i : Nat) (uop' : CurrentUop), uops'[i]? = some uop' →
        ∃ uop, uops[i]? = some uop ∧ f uop' = f uop := by
    intro α f hf i uop' hi
    have hmap := congrArg (fun l => l[i]?) hf
    simp only [List.getElem?_map, hi, Option.map_some] at hmap
    obtain ⟨uop, huop, heq⟩ := Option.map_eq_some_iff.mp hmap.symm
    exact ⟨uop, huop, heq.symm⟩
  have hplaces : ∀ places : Nat → Prop, SquashedAt places uops' ↔ SquashedAt places uops := by
    intro places
    constructor
    · intro hall
      refine hall.of_flags fun j v hv => ?_
      have hmap := congrArg (fun l => l[j]?) hsquashed
      simp only [List.getElem?_map, hv, Option.map_some] at hmap
      obtain ⟨w, hw, heq⟩ := Option.map_eq_some_iff.mp hmap
      exact ⟨w, hw, heq ▸ id⟩
    · intro hall
      refine hall.of_flags fun j v hv => ?_
      obtain ⟨w, hw, heq⟩ := hget _ hsquashed j v hv
      exact ⟨w, hw, heq ▸ id⟩
  constructor
  · intro i uop' hi hs
    obtain ⟨uop, huop, hsame⟩ := hget _ hsquashed i uop' hi
    obtain ⟨uop₁, huop₁, hmark⟩ := hget _ hfirst i uop' hi
    rw [huop] at huop₁
    cases huop₁
    rw [hmark, hplaces]
    exact h.first i uop huop (hsame ▸ hs)
  · intro i uop' hi hs
    obtain ⟨uop, huop, hsame⟩ := hget _ hsquashed i uop' hi
    obtain ⟨uop₁, huop₁, hmark⟩ := hget _ hlast i uop' hi
    rw [huop] at huop₁
    cases huop₁
    rw [hmark, hplaces]
    exact h.last i uop huop (hsame ▸ hs)

theorem number_map {α : Type} (f : CurrentUop → α)
    (hf : ∀ n uop, f (setSequenceNumber n uop) = f uop) (l : List CurrentUop) :
    ∀ n, (number n l).map f = l.map f := by
  induction l with
  | nil => exact fun _ => rfl
  | cons uop uops ih =>
    intro n
    rw [number]
    split <;> simp [ih, hf]

/-- Those that are not squashed: the first is marked first, the last last, and no other. -/
def EndsMarked (kept : List CurrentUop) : Prop :=
  kept ≠ [] ∧ ∀ (j : Nat) (uop : CurrentUop), kept[j]? = some uop →
    (uop.first = true ↔ j = 0) ∧ (uop.last = true ↔ j + 1 = kept.length)

/-- Where a kept one stands in the list. -/
theorem kept_getElem? {l : List CurrentUop} : ∀ {j : Nat} {uop : CurrentUop},
    (l.filter fun v => !v.squashed)[j]? = some uop →
    ∃ i, l[i]? = some uop ∧ uop.squashed = false ∧ keptIn (l.take i) = j := by
  induction l with
  | nil =>
    intro j uop h
    simp at h
  | cons head tail ih =>
    intro j uop h
    cases hs : head.squashed with
    | true =>
      rw [List.filter_cons_of_neg (by simp [hs])] at h
      obtain ⟨i, hi, hkept, hcount⟩ := ih h
      refine ⟨i + 1, hi, hkept, ?_⟩
      rw [List.take_succ_cons, keptIn, List.countP_cons_of_neg (by simp [hs])]
      exact hcount
    | false =>
      rw [List.filter_cons_of_pos (by simp [hs])] at h
      cases j with
      | zero =>
        cases h
        exact ⟨0, rfl, hs, rfl⟩
      | succ j =>
        obtain ⟨i, hi, hkept, hcount⟩ := ih (j := j) (by simpa using h)
        refine ⟨i + 1, hi, hkept, ?_⟩
        rw [List.take_succ_cons, keptIn, List.countP_cons_of_pos (by simp [hs])]
        exact congrArg (· + 1) hcount

theorem Marked.ends {l : List CurrentUop} (h : Marked l) {uop : CurrentUop} (huop : uop ∈ l)
    (hkept : uop.squashed = false) : EndsMarked (l.filter fun v => !v.squashed) := by
  have hnone : ∀ k : List CurrentUop, (k.all fun v => v.squashed) = true ↔ keptIn k = 0 := by
    intro k
    rw [keptIn, List.countP_eq_zero, List.all_eq_true]
    simp
  refine ⟨List.ne_nil_of_mem (List.mem_filter.mpr ⟨huop, by simp [hkept]⟩), ?_⟩
  intro j v hj
  obtain ⟨i, hi, hs, hcount⟩ := kept_getElem? hj
  have hlen : (l.filter fun v => !v.squashed).length = keptIn l := by
    rw [keptIn, List.countP_eq_length_filter]
  have hsplit : keptIn l = j + 1 + keptIn (l.drop (i + 1)) := by
    have hall := congrArg keptIn (List.take_append_drop i l)
    obtain ⟨hlt, hget⟩ := List.getElem?_eq_some_iff.mp hi
    rw [keptIn_append, List.drop_eq_getElem_cons hlt, hget, hcount] at hall
    rw [← hall]
    simp [keptIn, hs]
    omega
  constructor
  · rw [h.first i v hi hs, ← all_take_iff, hnone, hcount]
  · rw [h.last i v hi hs, ← all_drop_iff, hnone, hlen, hsplit]
    omega

end CurrentUop

namespace DecoderForm

variable {numLoads numExecs numStores : Nat} {uops : List CurrentUop}

theorem type_eq (h : DecoderForm numLoads numExecs numStores uops) {i : Nat}
    (hi : i < uops.length) : uops[i].microOp.type = (decodedShape numLoads numExecs i).1 :=
  congrArg Prod.fst (h.shape i _ (List.getElem?_eq_getElem hi)).1

theorem load_iff (h : DecoderForm numLoads numExecs numStores uops) {i : Nat}
    (hi : i < uops.length) : uops[i].microOp.isLoad = true ↔ i < numLoads := by
  rw [MicroOp.isLoad, decide_eq_true_eq, h.type_eq hi, decodedShape]
  split
  · next hlt => exact ⟨fun _ => hlt, fun _ => rfl⟩
  · next hge =>
    refine ⟨fun ht => ?_, fun hlt => absurd hlt hge⟩
    split at ht <;> cases ht

theorem store_iff (h : DecoderForm numLoads numExecs numStores uops) {i : Nat}
    (hi : i < uops.length) : uops[i].microOp.isStore = true ↔ numLoads + numExecs ≤ i := by
  rw [MicroOp.isStore, decide_eq_true_eq, h.type_eq hi, decodedShape]
  split
  · next hlt => exact ⟨nofun, fun hge => by omega⟩
  · split
    · next hlt => exact ⟨nofun, fun hge => by omega⟩
    · next hge => exact ⟨fun _ => by omega, fun _ => rfl⟩

theorem countP_load (h : DecoderForm numLoads numExecs numStores uops) :
    uops.countP (fun uop => uop.microOp.isLoad) = numLoads := by
  have hlen := h.length
  rw [← List.take_append_drop numLoads uops, List.countP_append]
  have hfirst : (uops.take numLoads).countP (fun uop => uop.microOp.isLoad) = numLoads := by
    have hall : (uops.take numLoads).countP (fun uop => uop.microOp.isLoad) =
        (uops.take numLoads).length := by
      rw [List.countP_eq_length]
      intro uop huop
      obtain ⟨i, hi, rfl⟩ := List.mem_take_iff_getElem.mp huop
      exact (h.load_iff _).mpr (by omega)
    rw [hall, List.length_take]
    omega
  have hrest : (uops.drop numLoads).countP (fun uop => uop.microOp.isLoad) = 0 := by
    rw [List.countP_eq_zero]
    intro uop huop
    obtain ⟨i, hi, rfl⟩ := List.mem_iff_getElem.mp huop
    rw [List.getElem_drop, h.load_iff]
    omega
  rw [hfirst, hrest, Nat.add_zero]

theorem countP_store (h : DecoderForm numLoads numExecs numStores uops) :
    uops.countP (fun uop => uop.microOp.isStore) = numStores := by
  have hlen := h.length
  rw [← List.take_append_drop (numLoads + numExecs) uops, List.countP_append]
  have hfirst : (uops.take (numLoads + numExecs)).countP (fun uop => uop.microOp.isStore) = 0 := by
    rw [List.countP_eq_zero]
    intro uop huop
    obtain ⟨i, hi, rfl⟩ := List.mem_take_iff_getElem.mp huop
    rw [h.store_iff]
    omega
  have hrest : (uops.drop (numLoads + numExecs)).countP (fun uop => uop.microOp.isStore) =
      (uops.drop (numLoads + numExecs)).length := by
    rw [List.countP_eq_length]
    intro uop huop
    obtain ⟨i, hi, rfl⟩ := List.mem_iff_getElem.mp huop
    rw [List.getElem_drop]
    exact (h.store_iff _).mpr (Nat.le_add_right _ _)
  rw [hfirst, hrest, List.length_drop]
  omega

theorem loadBase (h : DecoderForm numLoads numExecs numStores uops) (hpos : 0 < numLoads) :
    uops.findIdx? (fun uop => uop.microOp.isLoad) = some 0 := by
  have hlen := h.length
  rw [List.findIdx?_eq_some_iff_getElem]
  exact ⟨by omega, (h.load_iff _).mpr hpos, fun j hj => absurd hj (Nat.not_lt_zero j)⟩

theorem storeBase (h : DecoderForm numLoads numExecs numStores uops) (hpos : 0 < numStores) :
    uops.findIdx? (fun uop => uop.microOp.isStore) = some (numLoads + numExecs) := by
  have hlen := h.length
  rw [List.findIdx?_eq_some_iff_getElem]
  refine ⟨by omega, (h.store_iff _).mpr le_rfl, fun j hj => ?_⟩
  rw [h.store_iff]
  omega

end DecoderForm

/-- Of an instruction in the form of the decoder, with as many accesses as it has loads and stores,
the loads and stores that touch a line again are squashed, and no others. However the rest is
numbered, each depends on those that are left of what it depended on, and its first and its last are
marked. -/
theorem handleInstruction_squashes {numLoads numExecs numStores : Nat} {uops : List CurrentUop}
    (bypassLatency : CurrentUop → Nat) (operands : List Operand)
    (hform : DecoderForm numLoads numExecs numStores uops)
    (hreads : (operands.filterMap (Operand.line true)).length = numLoads)
    (hwrites : (operands.filterMap (Operand.line false)).length = numStores) :
    ∃ final, handleInstruction bypassLatency uops operands = .ok final ∧
      (∀ (i : Nat) (uop : CurrentUop), final[i]? = some uop →
        uop.squashed = touchedAgain numLoads numExecs (operands.filterMap (Operand.line true))
          (operands.filterMap (Operand.line false)) i) ∧
      ∀ start,
        (∀ (i : Nat) (uop orig : CurrentUop), (number start final)[i]? = some uop →
          uops[i]? = some orig → uop.squashed = false →
          (List.range uop.intraInstructionDependencies).map uop.getDependency =
            ((((number start final).take (i - orig.staticTypeOffset)).drop
              (i - orig.staticTypeOffset - orig.intraInstructionDependencies)).filter
                fun v => !v.squashed).map fun v => v.sequenceNumber) ∧
        EndsMarked ((number start final).filter fun v => !v.squashed) := by
  obtain ⟨s, hloop, h, hr, hw⟩ := @OperandLoop.Handled.run bypassLatency _ _ _ _ hform _ _
    hform.loadBase hform.storeBase operands _ (OperandLoop.start_handled hform)
    (by simpa using hreads) (by simpa using hwrites)
  rw [List.nil_append] at hr hw
  have hgrouped := h.grouped hform
  have hdone : s.numReadsDone = uops.countP (fun uop => uop.microOp.isLoad) ∧
      s.numWritesDone = uops.countP (fun uop => uop.microOp.isStore) := by
    rw [hform.countP_load, hform.countP_store, h.reads, h.writes, hr, hw]
    exact ⟨hreads, hwrites⟩
  have hfinal : ∃ final, (if s.doSquashing then CurrentUop.doSquashing s.uops 0 else .ok s.uops) =
      .ok final ∧ Settled s.uops final := by
    cases hs : s.doSquashing with
    | true => exact hgrouped.doSquashing_settled
    | false => exact ⟨_, rfl, hgrouped.settled (h.unsquashed hs)⟩
  obtain ⟨final, hsquash, hsettled⟩ := hfinal
  refine ⟨final, ?_, ?_, fun start => ⟨?_, ?_⟩⟩
  · simp only [handleInstruction, hloop, bind, Except.bind, if_pos hdone, pure, Except.pure]
    cases hs : s.doSquashing with
    | true =>
      rw [hs, if_pos rfl] at hsquash
      simp only [hsquash, if_true]
    | false =>
      rw [hs] at hsquash
      exact hsquash
  · intro i uop hi
    have hflags := congrArg (fun l => l[i]?) hsettled.squashed
    simp only [List.getElem?_map, hi, Option.map_some] at hflags
    obtain ⟨mid, hmid, heq⟩ := Option.map_eq_some_iff.mp hflags.symm
    rw [← heq, h.squashed i mid hmid, hr, hw]
  · intro i uop orig hi horig hkept
    have hlt : i < s.uops.length := by
      rw [h.length]
      exact (List.getElem?_eq_some_iff.mp horig).1
    have hmid := List.getElem?_eq_getElem hlt
    have hdeps := hsettled.dependencies hgrouped (h.length.trans_lt hform.size) start hmid hi hkept
    have hshape := (h.decoded hform hmid).1.trans (hform.shape i orig horig).1.symm
    simp only [Prod.mk.injEq] at hshape
    rw [hshape.2.1, hshape.2.2] at hdeps
    rw [DynamicMicroOp.getDependency_intra, hdeps]
  · have hmarked : Marked (number start final) := by
      refine h.marked.congr ?_ ?_ ?_
      · rw [number_map _ fun _ _ => rfl, hsettled.squashed]
      · rw [number_map _ fun _ _ => rfl, hsettled.first]
      · rw [number_map _ fun _ _ => rfl, hsettled.last]
    -- the first of all is never squashed
    have hpos : 0 < uops.length := List.length_pos_of_ne_nil hform.nonempty
    have hlen : (number start final).length = uops.length := by
      have hmap := congrArg List.length hsettled.squashed
      have hnum := congrArg List.length
        (number_map (fun uop => uop.squashed) (fun _ _ => rfl) final start)
      rw [List.length_map, List.length_map] at hmap hnum
      rw [hnum, hmap, h.length]
    have hzero := List.getElem?_eq_getElem (hlen.symm ▸ hpos : 0 < (number start final).length)
    refine hmarked.ends (List.mem_of_getElem? hzero) ?_
    have hflags := congrArg (fun l => l[0]?)
      ((number_map (fun uop => uop.squashed) (fun _ _ => rfl) final start).trans hsettled.squashed)
    simp only [List.getElem?_map, hzero, Option.map_some] at hflags
    obtain ⟨mid, hmid, heq⟩ := Option.map_eq_some_iff.mp hflags.symm
    rw [← heq, h.squashed 0 mid hmid, touchedAgain]
    split
    · exact repeats_zero _
    · split
      · rfl
      · rw [Nat.zero_sub, Nat.zero_sub, repeats_zero]

def gatherUop (type : MicroOpType) (offset intra : Nat) (first last : Bool) : CurrentUop where
  microOp := ⟨type, false, false, false, [], [], []⟩
  sequenceNumber := 0
  address := 0
  phys := 0
  squashed := false
  intraInstructionDependencies := intra
  microOpTypeOffset := offset
  dependencies := []
  execLatency := 0
  branchMispredicted := false
  dCacheHitWhere := none
  iCacheMiss := false
  iCacheLatency := 0
  last := last
  port := .port015
  alu := none
  staticTypeOffset := offset
  squashedCount := 0
  first := first

/-- A gather of three addresses, two of them on one line, into a value that is stored. -/
def gatherUops : List CurrentUop :=
  [gatherUop .load 0 0 true false, gatherUop .load 1 0 false false,
    gatherUop .load 2 0 false false, gatherUop .execute 0 3 false false,
    gatherUop .store 0 1 false true]

def gatherOperands : List Operand :=
  [.memory true ⟨64, 4, none⟩, .other, .memory true ⟨72, 4, none⟩, .memory false ⟨64, 4, none⟩,
    .memory true ⟨128, 4, none⟩]

theorem gather_form : DecoderForm 3 1 1 gatherUops := by
  have hall : ∀ {p : Nat → CurrentUop → Prop},
      (∀ i : Fin 5, p i (gatherUops.get i)) →
      ∀ (i : Nat) (uop : CurrentUop), gatherUops[i]? = some uop → p i uop := by
    intro p hp i uop hi
    obtain ⟨hlt, rfl⟩ := List.getElem?_eq_some_iff.mp hi
    exact hp ⟨i, hlt⟩
  exact ⟨by decide, rfl, by decide, by decide, hall (by decide), by decide, hall (by decide),
    hall (by decide)⟩

theorem handleInstruction_squashes_gather : ∃ final,
    handleInstruction (fun _ => 0) gatherUops gatherOperands = .ok final ∧
      (∀ (i : Nat) (uop : CurrentUop), final[i]? = some uop →
        uop.squashed = touchedAgain 3 1 (gatherOperands.filterMap (Operand.line true))
          (gatherOperands.filterMap (Operand.line false)) i) ∧
      ∀ start,
        (∀ (i : Nat) (uop orig : CurrentUop), (number start final)[i]? = some uop →
          gatherUops[i]? = some orig → uop.squashed = false →
          (List.range uop.intraInstructionDependencies).map uop.getDependency =
            ((((number start final).take (i - orig.staticTypeOffset)).drop
              (i - orig.staticTypeOffset - orig.intraInstructionDependencies)).filter
                fun v => !v.squashed).map fun v => v.sequenceNumber) ∧
        EndsMarked ((number start final).filter fun v => !v.squashed) :=
  handleInstruction_squashes (fun _ => 0) gatherOperands gather_form (by decide) (by decide)

/-- The second load is left out, and the execute depends on the two others. -/
example : (handleInstruction (fun _ => 0) gatherUops gatherOperands).toOption.map
    (fun final => (number 10 final).map fun uop => (uop.squashed, uop.intraDependencies)) =
      some [(false, []), (true, []), (false, []), (false, [10, 11]), (false, [12])] := by
  decide

end Sniper.Performance
