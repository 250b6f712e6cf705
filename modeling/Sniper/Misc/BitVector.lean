import Sniper.Lib.Bits
import Sniper.Lib.Search
import Sniper.Lib.Machine
import Mathlib.Data.Finset.Sort
set_option autoImplicit false

/-! The bit vector, a set of numbers below its capacity that is gone through with `find`. -/

namespace Sniper.Misc
open Sniper.Lib Sniper.Lib.Bits Sniper.Lib.Search

structure BitVector where
  capacity : UInt32
  size : UInt32
  lastPos : Int
  words : List (BitVec 64)

inductive BitFault where
  /-- `assert(bit < m_capacity)` -/
  | beyondCapacity
  /-- a word that `m_words` does not have (not a branch of the source) -/
  | noWord
  deriving DecidableEq

inductive BitCall where
  | set (bit : UInt32)
  | clear (bit : UInt32)
  | reset
  | find
  | resetFind

/-- The assertion of the call. -/
def BitCall.Within (capacity : UInt32) : BitCall → Prop
  | .set bit | .clear bit => bit < capacity
  | .reset | .find | .resetFind => True

/-- The set after a call. -/
def BitCall.effect (S : Finset Nat) : BitCall → Finset Nat
  | .set bit => insert bit.toNat S
  | .clear bit => S.erase bit.toNat
  | .reset => ∅
  | .find | .resetFind => S

def contents (calls : List BitCall) : Finset Nat := calls.foldl BitCall.effect ∅

namespace BitVector

/-- `VECTOR_SIZE`, and `word_count` in `find`. -/
def wordCount (bits : UInt32) : Nat := ((bits + 64 - 1) >>> 6).toNat

def new (bits : UInt32) : BitVector := ⟨bits, 0, -1, List.replicate (wordCount bits) 0⟩

def reset (v : BitVector) : BitVector :=
  { v with words := v.words.map fun _ => 0, size := 0, lastPos := -1 }

def resetFind (v : BitVector) : BitVector := { v with lastPos := -1 }

def index (bit : UInt32) : Nat := (bit >>> 6).toNat

def mask (bit : UInt32) : BitVec 64 := 1#64 <<< (bit &&& 63).toNat

/-- `at`. -/
def test (v : BitVector) (bit : UInt32) : Except BitFault Bool :=
  if bit < v.capacity then
    match v.words[index bit]? with
    | none => .error .noWord
    | some word => .ok (word &&& mask bit ≠ 0)
  else .error .beyondCapacity

def set (v : BitVector) (bit : UInt32) : Except BitFault BitVector := do
  if ← v.test bit then return v
  else return { v with
    words := v.words.modify (index bit) fun word => word ||| mask bit
    size := v.size + 1 }

def clear (v : BitVector) (bit : UInt32) : Except BitFault BitVector := do
  if ← v.test bit then return { v with
    words := v.words.modify (index bit) fun word => word &&& ~~~mask bit
    size := v.size - 1 }
  else return v

def bTestBit (byteWord : BitVec 8) (bit : Nat) : Bool := byteWord &&& 1#8 <<< bit ≠ 0

/-- The loop over the bits of a byte; `found` says what becomes of a set bit. -/
def findInByte (found : Nat → Option Int) (word8 : BitVec 8) : Option Int :=
  if word8 = 0 then none
  else (List.range 8).findSome? fun l => if bTestBit word8 l then found l else none

def findIn16 (found : Nat → Option Int) (word16 : BitVec 16) : Option Int :=
  if word16 = 0 then none
  else (List.range 2).findSome? fun k => findInByte (fun bit => found (8 * k + bit))
    (if k = 0 then (word16 &&& 0xFF).setWidth 8 else (word16 >>> 8).setWidth 8)

def findIn32 (found : Nat → Option Int) (word32 : BitVec 32) : Option Int :=
  if word32 = 0 then none
  else (List.range 2).findSome? fun j => findIn16 (fun bit => found (16 * j + bit))
    (if j = 0 then (word32 &&& 0xFFFF).setWidth 16 else (word32 >>> 16).setWidth 16)

def findIn64 (found : Nat → Option Int) (word64 : BitVec 64) : Option Int :=
  if word64 = 0 then none
  else (List.range 2).findSome? fun i => findIn32 (fun bit => found (32 * i + bit))
    (if i = 0 then (word64 &&& 0xFFFFFFFF).setWidth 32 else (word64 >>> 32).setWidth 32)

/-- A position as an `int`. -/
def returnPos (pos : Nat) : Int := (pos : Int).bmod (2 ^ 32)

/-- A set bit counts if it is behind `m_last_pos`. -/
def foundAt (lastPos : Int) (pos : Nat) : Option Int :=
  if lastPos < returnPos pos then some (returnPos pos) else none

/-- The words from that of `m_last_pos` on. -/
def search (capacity : UInt32) (words : List (BitVec 64)) (lastPos : Int) : Option Int :=
  let start := if lastPos = -1 then 0 else (lastPos / 64).toNat
  (List.range' start (wordCount capacity - start)).findSome? fun windex =>
    findIn64 (fun bit => foundAt lastPos (64 * windex + bit)) (words.getD windex 0)

def find (v : BitVector) : Int × BitVector :=
  let pos := (search v.capacity v.words v.lastPos).getD (-1)
  (pos, { v with lastPos := pos })

/-- The results of `n` calls of `find`. -/
def finds : Nat → BitVector → List Int
  | 0, _ => []
  | n + 1, v => v.find.1 :: finds n v.find.2

def perform (v : BitVector) : BitCall → Except BitFault BitVector
  | .set bit => v.set bit
  | .clear bit => v.clear bit
  | .reset => .ok v.reset
  | .find => .ok v.find.2
  | .resetFind => .ok v.resetFind

def performAll (capacity : UInt32) (calls : List BitCall) : Except BitFault BitVector :=
  calls.foldlM perform (new capacity)

/-- The vector is the set, for whoever tests a number, asks for the size or goes through it. -/
structure Faithful (capacity : UInt32) (v : BitVector) (S : Finset Nat) : Prop where
  test : ∀ bit < capacity, v.test bit = .ok (decide (bit.toNat ∈ S))
  size : v.size.toNat = S.card
  finds : finds (S.card + 1) v.resetFind = S.sort.map Int.ofNat ++ [-1]

section Words

variable {found : Nat → Option Int}

theorem bTestBit_eq (byteWord : BitVec 8) (bit : Nat) :
    bTestBit byteWord bit = byteWord.getLsbD bit :=
  Bool.eq_iff_iff.mpr (decide_eq_true_iff.trans and_bit_ne_zero)

/-- The search in a word without its shortcut. -/
theorem findSome?_bits {w : Nat} (word : BitVec w) (m : Nat) :
    (if word = 0 then none
      else (List.range m).findSome? fun bit => if word.getLsbD bit then found bit else none) =
    (List.range m).findSome? fun bit => if word.getLsbD bit then found bit else none := by
  split
  · rename_i hzero
    subst hzero
    symm
    rw [List.findSome?_eq_none_iff]
    intro bit _
    rw [BitVec.ofNat_eq_ofNat, BitVec.getLsbD_zero]
    rfl
  · rfl

/-- The halves of a word one after the other, the lower one first. -/
theorem findSome?_halves {n : Nat} {word low : BitVec (2 * n)}
    (hlow : low = (BitVec.allOnes n).setWidth (2 * n)) :
    (List.range (2 * n)).findSome? (fun bit => if word.getLsbD bit then found bit else none) =
      (List.range 2).findSome? fun k => (List.range n).findSome? fun bit =>
        if (if k = 0 then (word &&& low).setWidth n else (word >>> n).setWidth n).getLsbD bit
        then found (n * k + bit) else none := by
  rw [findSome?_range_mul]
  refine findSome?_congr fun k hk => findSome?_congr fun bit hbit => ?_
  rw [List.mem_range] at hk hbit
  have hbits : (if k = 0 then (word &&& low).setWidth n else (word >>> n).setWidth n).getLsbD bit =
      word.getLsbD (n * k + bit) := by
    split
    · rename_i hzero
      have hwide : bit < 2 * n := by omega
      simp [hzero, hbit, hlow, hwide]
    · have hone : k = 1 := by omega
      simp [hone, hbit]
  rw [hbits]

/-- The nested loops find the first set bit that counts. -/
theorem findInByte_eq (word8 : BitVec 8) : findInByte found word8 =
    (List.range 8).findSome? fun bit => if word8.getLsbD bit then found bit else none := by
  simp only [findInByte, bTestBit_eq]
  exact findSome?_bits word8 8

theorem findIn16_eq (word16 : BitVec 16) : findIn16 found word16 =
    (List.range 16).findSome? fun bit => if word16.getLsbD bit then found bit else none := by
  rw [findIn16, ← findSome?_bits]
  simp only [findInByte_eq]
  rw [← findSome?_halves (n := 8) (by rfl)]

theorem findIn32_eq (word32 : BitVec 32) : findIn32 found word32 =
    (List.range 32).findSome? fun bit => if word32.getLsbD bit then found bit else none := by
  rw [findIn32, ← findSome?_bits]
  simp only [findIn16_eq]
  rw [← findSome?_halves (n := 16) (by rfl)]

theorem findIn64_eq (word64 : BitVec 64) : findIn64 found word64 =
    (List.range 64).findSome? fun bit => if word64.getLsbD bit then found bit else none := by
  rw [findIn64, ← findSome?_bits]
  simp only [findIn32_eq]
  rw [← findSome?_halves (n := 32) (by rfl)]

end Words

/-- A bit of the words, whether there is such a word or not. -/
def bitAt (words : List (BitVec 64)) (pos : Nat) : Bool :=
  (words.getD (pos / 64) 0).getLsbD (pos % 64)

section Search

variable {capacity : UInt32} {words : List (BitVec 64)} {lastPos : Int}

theorem returnPos_of_lt {pos : Nat} (h : pos < 2 ^ 31) : returnPos pos = pos :=
  Int.bmod_eq_of_le (by omega) (by omega)

/-- The positions from 2^31 on are negative numbers. -/
theorem returnPos_neg {pos : Nat} (h : 2 ^ 31 ≤ pos) (hlt : pos < 2 ^ 32) : returnPos pos < 0 := by
  have hmod : (pos : Int) % (2 ^ 32 : Nat) = pos := Int.emod_eq_of_lt (by omega) (by omega)
  have hbmod : (pos : Int).bmod (2 ^ 32) = pos - (2 ^ 32 : Nat) := by
    rw [Int.bmod_def, hmod]
    exact if_neg (by omega)
  have hwraps : returnPos pos = pos - (2 ^ 32 : Nat) := hbmod
  omega

theorem wordCount_mod (bits : UInt32) : wordCount bits = (bits.toNat + 63) % 2 ^ 32 / 64 := by
  have hsum : (bits + 64 - 1).toNat = (bits.toNat + 63) % 2 ^ 32 := by
    rw [UInt32.toNat_sub, UInt32.toNat_add]
    change (2 ^ 32 - 1 + (bits.toNat + 64) % 2 ^ 32) % 2 ^ 32 = _
    omega
  rw [wordCount, UInt32.toNat_shiftRight, hsum, Nat.shiftRight_eq_div_pow]
  rfl

theorem wordCount_eq (hcapacity : capacity.toNat ≤ 2 ^ 32 - 64) :
    wordCount capacity = (capacity.toNat + 63) / 64 := by
  rw [wordCount_mod, Nat.mod_eq_of_lt (by omega)]

/-- For the largest capacities the number of words wraps. -/
theorem wordCount_wraps (hcapacity : 2 ^ 32 - 64 < capacity.toNat) : wordCount capacity = 0 := by
  have hlt := capacity.toNat_lt
  rw [wordCount_mod]
  omega

/-- In a list of positions the search finds the next one that is an `int`. -/
theorem findSome?_foundAt (hlast : -1 ≤ lastPos) (bit : Nat → Bool) {all : List Nat}
    (hall : ∀ pos ∈ all, pos < 2 ^ 32) :
    all.findSome? (fun pos => if bit pos then foundAt lastPos pos else none) =
      next ((all.filter fun pos => bit pos && decide (pos < 2 ^ 31)).map Int.ofNat) lastPos := by
  induction all with
  | nil => rfl
  | cons pos rest ih =>
    have hrest := ih fun p hp => hall p (List.mem_cons_of_mem pos hp)
    have hlt := hall pos List.mem_cons_self
    rw [List.findSome?_cons]
    by_cases hbit : bit pos = true
    · by_cases hint : pos < 2 ^ 31
      · have hkept : (bit pos && decide (pos < 2 ^ 31)) = true := by
          rw [hbit, decide_eq_true hint, Bool.true_and]
        rw [if_pos hbit, foundAt, returnPos_of_lt hint, List.filter_cons, if_pos hkept,
          List.map_cons, next]
        by_cases hnext : lastPos < (pos : Int)
        · rw [if_pos hnext, List.find?_cons, decide_eq_true (show lastPos < Int.ofNat pos from hnext)]
          rfl
        · rw [if_neg hnext, List.find?_cons, decide_eq_false (show ¬lastPos < Int.ofNat pos from hnext)]
          exact hrest
      · have hneg := returnPos_neg (Nat.le_of_not_lt hint) hlt
        have hleft : ¬(bit pos && decide (pos < 2 ^ 31)) = true := by
          rw [decide_eq_false hint, Bool.and_false]
          exact Bool.false_ne_true
        rw [if_pos hbit, foundAt, if_neg (by omega), List.filter_cons, if_neg hleft]
        exact hrest
    · rw [if_neg hbit, List.filter_cons_of_neg (by simp [hbit])]
      exact hrest

/-- The search goes through all positions, those that are no `int` apart. -/
theorem search_eq (hlast : -1 ≤ lastPos) : search capacity words lastPos =
    next (((List.range (wordCount capacity * 64)).filter fun pos =>
      bitAt words pos && decide (pos < 2 ^ 31)).map Int.ofNat) lastPos := by
  have hcount : wordCount capacity * 64 ≤ 2 ^ 32 := by
    rw [wordCount_mod]
    omega
  rw [← findSome?_foundAt hlast _ fun pos hpos =>
    Nat.lt_of_lt_of_le (List.mem_range.mp hpos) hcount, findSome?_range_mul]
  have hword : ∀ windex, (List.range 64).findSome? (fun bit =>
      if bitAt words (64 * windex + bit) then foundAt lastPos (64 * windex + bit) else none) =
      findIn64 (fun bit => foundAt lastPos (64 * windex + bit)) (words.getD windex 0) := by
    intro windex
    rw [findIn64_eq]
    refine findSome?_congr fun bit hbit => ?_
    have hlt := List.mem_range.mp hbit
    rw [bitAt, Nat.mul_add_div (by decide), Nat.div_eq_of_lt hlt, Nat.add_zero, Nat.mul_add_mod,
      Nat.mod_eq_of_lt hlt]
  simp only [hword]
  rw [search]
  symm
  refine findSome?_range_skip fun windex hstart hwindex => ?_
  rw [← hword, List.findSome?_eq_none_iff]
  intro bit hbit
  have hlt := List.mem_range.mp hbit
  -- a position in a word before that of the last one found
  have hpassed : ((64 * windex + bit : Nat) : Int) ≤ lastPos := by
    split at hstart
    · omega
    · omega
  have hnone : foundAt lastPos (64 * windex + bit) = none := by
    refine if_neg ?_
    by_cases hint : 64 * windex + bit < 2 ^ 31
    · rw [returnPos_of_lt hint]
      omega
    · have hneg := returnPos_neg (Nat.le_of_not_lt hint) (by omega)
      omega
  rw [hnone]
  split
  · rfl
  · rfl

end Search

section Members

variable {v v' : BitVector} {bit : UInt32} {S : Finset Nat}

theorem index_eq (bit : UInt32) : index bit = bit.toNat / 64 := by
  rw [index, UInt32.toNat_shiftRight, Nat.shiftRight_eq_div_pow]
  rfl

theorem mask_eq (bit : UInt32) : mask bit = 1#64 <<< (bit.toNat % 64) := by
  have hand : (bit &&& 63).toNat = bit.toNat % 64 := by
    rw [UInt32.toNat_and]
    exact Nat.and_two_pow_sub_one_eq_mod bit.toNat 6
  rw [mask, hand]

/-- The words have one bit for each member. -/
structure Holds (v : BitVector) (S : Finset Nat) : Prop where
  words : v.words.length = (v.capacity.toNat + 63) / 64
  bits : ∀ pos, bitAt v.words pos = decide (pos ∈ S)
  below : ∀ pos ∈ S, pos < v.capacity.toNat
  size : v.size.toNat = S.card
  lastPos : -1 ≤ v.lastPos

theorem Holds.index_lt (h : v.Holds S) (hbit : bit < v.capacity) :
    bit.toNat / 64 < v.words.length := by
  have hlt : bit.toNat < v.capacity.toNat := hbit
  rw [h.words]
  omega

theorem Holds.test (h : v.Holds S) (hbit : bit < v.capacity) :
    v.test bit = .ok (decide (bit.toNat ∈ S)) := by
  have hindex := h.index_lt hbit
  rw [BitVector.test, if_pos hbit, index_eq, List.getElem?_eq_getElem hindex]
  dsimp only
  rw [← h.bits, bitAt, List.getD_eq_getElem?_getD, List.getElem?_eq_getElem hindex, mask_eq]
  exact congrArg Except.ok (Bool.eq_iff_iff.mpr (decide_eq_true_iff.trans and_bit_ne_zero))

/-- One bit of a word is changed. -/
structure Changes (f : BitVec 64 → BitVec 64) (i : Nat) (b : Bool) : Prop where
  bit : ∀ word, (f word).getLsbD i = b
  other : ∀ word j, j ≠ i → (f word).getLsbD j = word.getLsbD j

theorem bitAt_modify {words : List (BitVec 64)} {pos : Nat} {f : BitVec 64 → BitVec 64} {b : Bool}
    (hpos : pos / 64 < words.length) (hf : Changes f (pos % 64) b) (p : Nat) :
    bitAt (words.modify (pos / 64) f) p = if p = pos then b else bitAt words p := by
  rw [bitAt, bitAt, List.getD_eq_getElem?_getD, List.getD_eq_getElem?_getD, List.getElem?_modify]
  by_cases hword : pos / 64 = p / 64
  · simp only [← hword, List.getElem?_eq_getElem hpos]
    by_cases hp : p = pos
    · rw [if_pos hp, hp]
      exact hf.bit _
    · rw [if_neg hp]
      exact hf.other _ _ fun heq => hp (by omega)
  · have hp : p ≠ pos := fun heq => hword (by rw [heq])
    simp [if_neg hword, if_neg hp]

theorem changes_or (i : Nat) (hi : i < 64) : Changes (fun word => word ||| 1#64 <<< i) i true where
  bit word := by rw [getLsbD_or_bit hi, decide_eq_true rfl, Bool.or_true]
  other word j hj := by rw [getLsbD_or_bit hi, decide_eq_false hj.symm, Bool.or_false]

theorem changes_and_not (i : Nat) (hi : i < 64) :
    Changes (fun word => word &&& ~~~(1#64 <<< i)) i false where
  bit word := by rw [getLsbD_and_not_bit hi, decide_eq_true rfl, Bool.not_true, Bool.and_false]
  other word j hj := by rw [getLsbD_and_not_bit hi, decide_eq_false hj.symm, Bool.not_false,
    Bool.and_true]

/-- A member comes or goes, and the size with it. -/
theorem Holds.change {S' : Finset Nat} {f : BitVec 64 → BitVec 64} {b : Bool} {size : UInt32}
    (h : v.Holds S) (hbit : bit < v.capacity) (hf : Changes f (bit.toNat % 64) b)
    (hS : ∀ pos, pos ∈ S' ↔ if pos = bit.toNat then b = true else pos ∈ S)
    (hsize : size.toNat = S'.card) :
    Holds { v with words := v.words.modify (index bit) f, size := size } S' where
  words := by
    rw [List.length_modify]
    exact h.words
  bits pos := by
    rw [index_eq, bitAt_modify (h.index_lt hbit) hf]
    by_cases hpos : pos = bit.toNat
    · rw [if_pos hpos]
      simp [hS, hpos]
    · rw [if_neg hpos, h.bits]
      simp [hS, hpos]
  below pos hmem := by
    by_cases hpos : pos = bit.toNat
    · rw [hpos]
      exact hbit
    · refine h.below pos ?_
      simpa [hS, hpos] using hmem
  size := hsize
  lastPos := h.lastPos

/-- `set` puts the number in. -/
theorem Holds.set (h : v.Holds S) (hbit : bit < v.capacity) :
    ∃ v', v.set bit = .ok v' ∧ v'.capacity = v.capacity ∧ v'.Holds (insert bit.toNat S) := by
  rw [BitVector.set, h.test hbit]
  simp only [bind, Except.bind, pure, Except.pure]
  by_cases hmem : bit.toNat ∈ S
  · rw [if_pos (decide_eq_true hmem), Finset.insert_eq_of_mem hmem]
    exact ⟨v, rfl, rfl, h⟩
  · rw [if_neg (by simpa using hmem)]
    have hsub : insert bit.toNat S ⊆ Finset.range v.capacity.toNat := by
      intro pos hpos
      rcases Finset.mem_insert.mp hpos with rfl | hpos
      · exact Finset.mem_range.mpr hbit
      · exact Finset.mem_range.mpr (h.below pos hpos)
    have hcard : (insert bit.toNat S).card = S.card + 1 := Finset.card_insert_of_notMem hmem
    have hle := Finset.card_le_card hsub
    rw [Finset.card_range, hcard] at hle
    have hlt := v.capacity.toNat_lt
    have hsize : (v.size + 1).toNat = (insert bit.toNat S).card := by
      have hone : (1 : UInt32).toNat = 1 := rfl
      rw [UInt32.toNat_add, h.size, hcard, hone]
      exact Nat.mod_eq_of_lt (by omega)
    refine ⟨_, rfl, rfl, ?_⟩
    rw [mask_eq]
    refine h.change hbit (changes_or _ (Nat.mod_lt _ (by decide))) (fun pos => ?_) hsize
    rw [Finset.mem_insert]
    by_cases hpos : pos = bit.toNat
    · simp [hpos]
    · simp [hpos]

/-- `clear` takes it out. -/
theorem Holds.clear (h : v.Holds S) (hbit : bit < v.capacity) :
    ∃ v', v.clear bit = .ok v' ∧ v'.capacity = v.capacity ∧ v'.Holds (S.erase bit.toNat) := by
  rw [BitVector.clear, h.test hbit]
  simp only [bind, Except.bind, pure, Except.pure]
  by_cases hmem : bit.toNat ∈ S
  · rw [if_pos (decide_eq_true hmem)]
    have hcard : (S.erase bit.toNat).card + 1 = S.card := Finset.card_erase_add_one hmem
    have hsize : (v.size - 1).toNat = (S.erase bit.toNat).card := by
      have hone : (1 : UInt32) ≤ v.size := by
        rw [UInt32.le_iff_toNat_le, h.size, ← hcard]
        exact Nat.le_add_left _ _
      rw [UInt32.toNat_sub_of_le _ _ hone, h.size, ← hcard]
      rfl
    refine ⟨_, rfl, rfl, ?_⟩
    rw [mask_eq]
    refine h.change hbit (changes_and_not _ (Nat.mod_lt _ (by decide))) (fun pos => ?_) hsize
    rw [Finset.mem_erase]
    by_cases hpos : pos = bit.toNat
    · simp [hpos]
    · simp [hpos]
  · rw [if_neg (by simpa using hmem), Finset.erase_eq_of_notMem hmem]
    exact ⟨v, rfl, rfl, h⟩

theorem bitAt_zeros (words : List (BitVec 64)) (pos : Nat) :
    bitAt (words.map fun _ => 0) pos = false := by
  rw [bitAt, List.getD_eq_getElem?_getD, List.getElem?_map]
  cases words[pos / 64]? with
  | none => exact BitVec.getLsbD_zero
  | some word => exact BitVec.getLsbD_zero

theorem Holds.new {capacity : UInt32} (hcapacity : capacity.toNat ≤ 2 ^ 32 - 64) :
    (BitVector.new capacity).Holds ∅ where
  words := List.length_replicate.trans (wordCount_eq hcapacity)
  bits pos := by
    have hzeros := bitAt_zeros (List.replicate (wordCount capacity) 0) pos
    rw [List.map_replicate] at hzeros
    exact hzeros.trans (decide_eq_false (Finset.notMem_empty pos)).symm
  below pos hpos := absurd hpos (Finset.notMem_empty pos)
  size := rfl
  lastPos := Int.le_refl (-1)

theorem Holds.reset (h : v.Holds S) : v.reset.Holds ∅ where
  words := (List.length_map _).trans h.words
  bits pos := (bitAt_zeros v.words pos).trans (decide_eq_false (Finset.notMem_empty pos)).symm
  below pos hpos := absurd hpos (Finset.notMem_empty pos)
  size := rfl
  lastPos := Int.le_refl (-1)

/-- `m_last_pos` matters to `find` only. -/
theorem Holds.passTo {lastPos : Int} (h : v.Holds S) (hlast : -1 ≤ lastPos) :
    Holds { v with lastPos := lastPos } S :=
  ⟨h.words, h.bits, h.below, h.size, hlast⟩

end Members

section Finds

variable {v v' : BitVector} {S : Finset Nat} {capacity : UInt32}

/-- The positions that `find` can return, in ascending order. -/
def positions (v : BitVector) : List Int :=
  ((List.range (wordCount v.capacity * 64)).filter fun pos =>
    bitAt v.words pos && decide (pos < 2 ^ 31)).map Int.ofNat

theorem mem_positions {pos : Int} (h : pos ∈ v.positions) :
    ∃ p : Nat, pos = p ∧ p < 2 ^ 31 ∧ bitAt v.words p = true := by
  obtain ⟨p, hp, rfl⟩ := List.mem_map.mp h
  have hbits := (List.mem_filter.mp hp).2
  rw [Bool.and_eq_true, decide_eq_true_iff] at hbits
  exact ⟨p, rfl, hbits.2, hbits.1⟩

theorem search_next (hlast : -1 ≤ v.lastPos) :
    search v.capacity v.words v.lastPos = next v.positions v.lastPos := search_eq hlast

theorem find_ge (hlast : -1 ≤ v.lastPos) : -1 ≤ v.find.2.lastPos := by
  change -1 ≤ (search v.capacity v.words v.lastPos).getD (-1)
  rw [search_next hlast]
  cases hfound : next v.positions v.lastPos with
  | none => exact Int.le_refl _
  | some pos =>
    obtain ⟨p, rfl, -, -⟩ := mem_positions (List.mem_of_find?_eq_some hfound)
    rw [Option.getD_some]
    omega

/-- `find` goes through its positions and begins anew after the last one. -/
theorem finds_eq (n : Nat) (hlast : -1 ≤ v.lastPos) :
    finds n v = answers (next v.positions) (-1) n v.lastPos := by
  induction n generalizing v with
  | zero => rfl
  | succ n ih =>
    have hrest := ih (v := v.find.2) (find_ge hlast)
    rw [BitVector.finds, hrest, answers, ← search_next hlast]
    rfl

/-- Where all members are an `int`, the positions are the members. -/
theorem Holds.positions_eq (h : v.Holds S) (hcapacity : v.capacity.toNat ≤ 2 ^ 32 - 64)
    (hint : ∀ pos ∈ S, pos < 2 ^ 31) : v.positions = S.sort.map Int.ofNat := by
  have hmem : ∀ pos, pos ∈ (List.range (wordCount v.capacity * 64)).filter (fun pos =>
      bitAt v.words pos && decide (pos < 2 ^ 31)) ↔ pos ∈ S := by
    intro pos
    rw [List.mem_filter, List.mem_range, wordCount_eq hcapacity, h.bits, Bool.and_eq_true,
      decide_eq_true_iff, decide_eq_true_iff]
    constructor
    · exact fun hpos => hpos.2.1
    · intro hpos
      have hbelow := h.below pos hpos
      exact ⟨by omega, hpos, hint pos hpos⟩
  have hsorted := (List.pairwise_lt_range (n := wordCount v.capacity * 64)).filter fun pos =>
    bitAt v.words pos && decide (pos < 2 ^ 31)
  have hset : S = ((List.range (wordCount v.capacity * 64)).filter fun pos =>
      bitAt v.words pos && decide (pos < 2 ^ 31)).toFinset := by
    ext pos
    rw [List.mem_toFinset, hmem]
  rw [positions, hset, (List.toFinset_sort (· ≤ ·) (hsorted.imp Nat.ne_of_lt)).mpr
    (hsorted.imp Nat.le_of_lt)]

/-- All members one after the other, in ascending order. -/
theorem Holds.finds (h : v.Holds S) (hcapacity : v.capacity.toNat ≤ 2 ^ 32 - 64)
    (hint : ∀ pos ∈ S, pos < 2 ^ 31) :
    finds (S.card + 1) v.resetFind = S.sort.map Int.ofNat ++ [-1] := by
  have hlength : S.card = (S.sort.map Int.ofNat).length := by simp
  have hsorted : ([] ++ S.sort.map Int.ofNat).Pairwise (· < ·) := by
    rw [List.nil_append, List.pairwise_map]
    exact S.sortedLT_sort.pairwise.imp Int.ofNat_lt.mpr
  have hafter : ∀ pos ∈ S.sort.map Int.ofNat, (-1 : Int) < pos := by
    intro pos hpos
    obtain ⟨p, -, rfl⟩ := List.mem_map.mp hpos
    exact Int.lt_of_lt_of_le (by decide : (-1 : Int) < 0) (Int.natCast_nonneg p)
  rw [finds_eq _ (Int.le_refl (-1)), hlength]
  change answers (next v.positions) (-1) _ (-1) = _
  rw [h.positions_eq hcapacity hint]
  exact answers_next hsorted (fun _ hx => nomatch hx) hafter

/-- Only a member that is an `int` is ever returned. -/
theorem int_of_mem_finds {n p : Nat} (hlast : -1 ≤ v.lastPos) (h : (p : Int) ∈ finds n v) :
    p < 2 ^ 31 := by
  rw [finds_eq n hlast] at h
  rcases mem_of_mem_answers h with hnone | hmem
  · omega
  · obtain ⟨q, heq, hint, -⟩ := mem_positions hmem
    omega

/-- To `find` members that are no `int` are not there. -/
theorem Holds.find_none (h : v.Holds S) (hlarge : ∀ pos ∈ S, 2 ^ 31 ≤ pos) :
    v.resetFind.find.1 = -1 := by
  change (search v.capacity v.words v.resetFind.lastPos).getD (-1) = -1
  have hnext : search v.capacity v.words v.resetFind.lastPos = none := by
    refine (search_next (v := v.resetFind) (Int.le_refl (-1))).trans ?_
    cases hfound : next v.resetFind.positions v.resetFind.lastPos with
    | none => rfl
    | some pos =>
      obtain ⟨p, -, hint, hbit⟩ := mem_positions (List.mem_of_find?_eq_some hfound)
      have hmem := of_decide_eq_true ((h.bits p).symm.trans hbit)
      have hout := hlarge p hmem
      omega
  rw [hnext, Option.getD_none]

end Finds

section Runs

variable {v v' : BitVector} {S : Finset Nat} {capacity : UInt32} {call : BitCall}
variable {calls : List BitCall}

theorem Holds.perform (h : v.Holds S) (hcall : call.Within v.capacity) :
    ∃ v', v.perform call = .ok v' ∧ v'.capacity = v.capacity ∧ v'.Holds (call.effect S) := by
  cases call with
  | set bit => exact h.set hcall
  | clear bit => exact h.clear hcall
  | reset => exact ⟨v.reset, rfl, rfl, h.reset⟩
  | find => exact ⟨v.find.2, rfl, rfl, h.passTo (find_ge h.lastPos)⟩
  | resetFind => exact ⟨v.resetFind, rfl, rfl, h.passTo (Int.le_refl _)⟩

theorem Holds.performs (h : v.Holds S) (hcalls : ∀ call ∈ calls, call.Within v.capacity) :
    ∃ v', calls.foldlM BitVector.perform v = .ok v' ∧ v'.capacity = v.capacity ∧
      v'.Holds (calls.foldl BitCall.effect S) := by
  induction calls generalizing v S with
  | nil => exact ⟨v, rfl, rfl, h⟩
  | cons call calls ih =>
    obtain ⟨v₁, hstep, hcapacity, hholds⟩ := h.perform (hcalls call List.mem_cons_self)
    obtain ⟨v', hrest, hcapacity', hholds'⟩ := ih hholds fun c hc => by
      rw [hcapacity]
      exact hcalls c (List.mem_cons_of_mem call hc)
    refine ⟨v', ?_, hcapacity'.trans hcapacity, hholds'⟩
    rw [List.foldlM_cons, hstep]
    exact hrest

theorem performAll_holds (hcapacity : capacity.toNat ≤ 2 ^ 32 - 64)
    (hcalls : ∀ call ∈ calls, call.Within capacity) :
    ∃ v, performAll capacity calls = .ok v ∧ v.capacity = capacity ∧ v.Holds (contents calls) :=
  (Holds.new hcapacity).performs hcalls

/-- The words that there are stay. -/
theorem perform_length (h : v.perform call = .ok v') :
    v'.capacity = v.capacity ∧ v'.words.length = v.words.length := by
  cases call with
  | set bit =>
    obtain ⟨b, -, hrest⟩ := except_bind_eq_ok.mp h
    cases b with
    | true => cases hrest; exact ⟨rfl, rfl⟩
    | false => cases hrest; exact ⟨rfl, List.length_modify _ _ _⟩
  | clear bit =>
    obtain ⟨b, -, hrest⟩ := except_bind_eq_ok.mp h
    cases b with
    | true => cases hrest; exact ⟨rfl, List.length_modify _ _ _⟩
    | false => cases hrest; exact ⟨rfl, rfl⟩
  | reset => cases h; exact ⟨rfl, List.length_map _⟩
  | find => cases h; exact ⟨rfl, rfl⟩
  | resetFind => cases h; exact ⟨rfl, rfl⟩

/-- A vector of one of the largest capacities has no words. -/
theorem performAll_noWord (hcapacity : 2 ^ 32 - 64 < capacity.toNat)
    (h : performAll capacity calls = .ok v) : v.test 0 = .error .noWord := by
  have hlength : v.capacity = capacity ∧ v.words.length = 0 := by
    refine foldlM_keeps (I := fun v => v.capacity = capacity ∧ v.words.length = 0)
      (fun v call v' hv hstep => ?_) ⟨rfl, ?_⟩ h
    · obtain ⟨hcap, hlen⟩ := perform_length hstep
      exact ⟨hcap.trans hv.1, hlen.trans hv.2⟩
    · exact List.length_replicate.trans (wordCount_wraps hcapacity)
  have hzero : (0 : UInt32) < v.capacity := by
    rw [hlength.1, UInt32.lt_iff_toNat_lt]
    exact Nat.lt_of_le_of_lt (Nat.zero_le _) hcapacity
  rw [test, if_pos hzero, List.eq_nil_of_length_eq_zero hlength.2]
  rfl

/-- The vector is a finite set as long as its words can be counted and its members are an
`int`. -/
theorem performAll_faithful_iff (hcalls : ∀ call ∈ calls, call.Within capacity) :
    (∃ v, performAll capacity calls = .ok v ∧ v.Faithful capacity (contents calls)) ↔
      capacity.toNat ≤ 2 ^ 32 - 64 ∧ ∀ pos ∈ contents calls, pos < 2 ^ 31 := by
  constructor
  · rintro ⟨v, hrun, hfaithful⟩
    have hcapacity : capacity.toNat ≤ 2 ^ 32 - 64 := by
      by_contra hlarge
      rw [Nat.not_le] at hlarge
      have hzero : (0 : UInt32) < capacity := by
        rw [UInt32.lt_iff_toNat_lt]
        exact Nat.lt_of_le_of_lt (Nat.zero_le _) hlarge
      have htest := hfaithful.test 0 hzero
      rw [performAll_noWord hlarge hrun] at htest
      cases htest
    refine ⟨hcapacity, fun pos hpos => ?_⟩
    refine int_of_mem_finds (v := v.resetFind) (Int.le_refl (-1)) (n := (contents calls).card + 1) ?_
    rw [hfaithful.finds]
    refine List.mem_append_left _ (List.mem_map.mpr ⟨pos, ?_, rfl⟩)
    exact (Finset.mem_sort _).mpr hpos
  · rintro ⟨hcapacity, hint⟩
    obtain ⟨v, hrun, hcap, hholds⟩ := performAll_holds hcapacity hcalls
    refine ⟨v, hrun, fun bit hbit => hholds.test (hcap ▸ hbit), hholds.size,
      hholds.finds (hcap ▸ hcapacity) hint⟩

theorem performAll_faithful_iff_lastWord :
    ∃ v, performAll 65 [.set 63, .set 64, .clear 63, .set 0] = .ok v ∧
      v.Faithful 65 (contents [.set 63, .set 64, .clear 63, .set 0]) :=
  (performAll_faithful_iff (by simp [BitCall.Within])).mpr ⟨by decide, by decide⟩

theorem set_2147483648_not_found :
    ∃ v, performAll 2147483649 [.set 2147483648] = .ok v ∧ v.test 2147483648 = .ok true ∧
      v.size = 1 ∧ v.resetFind.find.1 = -1 := by
  have hbit : (2147483648 : UInt32) < 2147483649 := by decide
  have hwithin : ∀ call ∈ [BitCall.set 2147483648], call.Within 2147483649 := by
    intro call hcall
    rw [List.mem_singleton.mp hcall]
    exact hbit
  obtain ⟨v, hrun, hcap, hholds⟩ := performAll_holds (by decide) hwithin
  have hlarge : ∀ pos ∈ contents [.set 2147483648], 2 ^ 31 ≤ pos := by decide
  have hmem : (2147483648 : UInt32).toNat ∈ contents [.set 2147483648] := by decide
  have htest : v.test 2147483648 = .ok true := by
    rw [hholds.test (hcap ▸ hbit), decide_eq_true hmem]
  exact ⟨v, hrun, htest, UInt32.toNat_inj.mp hholds.size, hholds.find_none hlarge⟩

end Runs

end BitVector

end Sniper.Misc
