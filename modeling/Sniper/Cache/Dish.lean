import Sniper.Lib.PtrTable
import Mathlib.Data.List.FinRange
import Mathlib.Tactic.IntervalCases
set_option autoImplicit false

namespace Sniper.Cache
open Sniper.Lib

abbrev Byte := BitVec 8

/-- A 32-bit chunk, the granularity of the DISH dictionary. -/
abbrev Word := BitVec 32

abbrev superblockSize : Nat := 4

abbrev BlockId := Fin superblockSize

namespace Dish

def scheme1DictSize : Nat := 8
def scheme2DictSize : Nat := 4
def granularityBytes : Nat := 4
def scheme2OffsetBits : Nat := 4
def scheme2OffsetMask : Word := 0xf#32

inductive Scheme where
  | invalid | uncompressed | scheme1 | scheme2
  deriving DecidableEq, Repr

end Dish

open Dish

/-- Where a call stops: a failed assertion, an error report, or a caller that was refused. -/
inductive Fault where
  | refused
  | assertion
  | notCompressible
  | dictionaryFull
  | blockExists
  | blockInvalid
  | wrongPlace
  | notResident
  | tagMismatch
  | nullPointer
  deriving DecidableEq, Repr

abbrev Outcome (α : Type) := Except Fault α

def check (c : Bool) (f : Fault) : Outcome Unit := if c then .ok () else .error f

@[simp] theorem check_ok {c : Bool} {f : Fault} {u : Unit} : check c f = .ok u ↔ c = true := by
  cases c <;> simp [check]

/-- Whether a call completes with a result that passes a test. -/
def Outcome.test {α : Type} (x : Outcome α) (p : α → Bool) : Bool :=
  match x with
  | .ok r => p r
  | .error _ => false

theorem Outcome.test_eq_true {α : Type} {x : Outcome α} {p : α → Bool} (h : Outcome.test x p = true) :
    ∃ r, x = .ok r ∧ p r = true := by
  cases x with
  | ok r => exact ⟨r, rfl, h⟩
  | error f => simp [Outcome.test] at h

/-- Whether a call stops with a given fault. -/
def Outcome.failsWith {α : Type} (x : Outcome α) (f : Fault) : Bool :=
  match x with
  | .ok _ => false
  | .error g => g == f

theorem Outcome.failsWith_eq_true {α : Type} {x : Outcome α} {f : Fault}
    (h : Outcome.failsWith x f = true) : x = .error f := by
  cases x with
  | ok r => simp [Outcome.failsWith] at h
  | error g =>
    simp only [Outcome.failsWith, beq_iff_eq] at h
    rw [h]

theorem Outcome.test_id {x : Outcome Bool} (h : Outcome.test x id = true) : x = .ok true := by
  obtain ⟨r, hr, hid⟩ := Outcome.test_eq_true h
  rw [hr, ← hid]
  rfl

/-- The bytes behind a `const Byte*`. -/
abbrev Ptr := Nat → Byte

def Ptr.add (p : Ptr) (offset : Nat) : Ptr := fun j => p (offset + j)

/-- Reading through a `UInt32*` on a little-endian host. -/
def Ptr.chunk (p : Ptr) (i : Nat) : Word :=
  p (4 * i + 3) ++ p (4 * i + 2) ++ p (4 * i + 1) ++ p (4 * i)

/-- The contents of one cache block of `n` bytes. -/
abbrev Line (n : Nat) := Fin n → Byte

variable {n : Nat}

def Line.zero : Line n := fun _ => 0

def Line.ptr (d : Line n) : Ptr := fun j => if h : j < n then d ⟨j, h⟩ else 0

def Line.ofPtr (p : Ptr) : Line n := fun j => p j

def chunksPerBlock (n : Nat) : Nat := n / granularityBytes

def Line.chunk (d : Line n) (i : Nat) : Word := d.ptr.chunk i

def Line.chunks (d : Line n) : List Word := (List.range (chunksPerBlock n)).map d.chunk

/-- `std::copy_n(src, count, &d[offset])`. -/
def copyN (src : Ptr) (count offset : Nat) (d : Line n) : Line n :=
  fun k => if offset ≤ k ∧ k < offset + count then src (k - offset) else d k

/-- An access `[offset, offset + bytes)` inside a block. -/
structure Slice (n : Nat) where
  offset : Nat
  bytes : Nat
  fits : offset + bytes ≤ n
  deriving DecidableEq, Repr

def Slice.full : Slice n := ⟨0, n, by omega⟩

/-- The upper part of a chunk, the dictionary entry of SCHEME2. -/
def upper (c : Word) : Word := c >>> scheme2OffsetBits

def lower (c : Word) : Byte := (c &&& scheme2OffsetMask).setWidth 8

/-- `CacheCompressionCntlr`: the configuration and the population of both schemes. -/
structure CompressionCntlr where
  compressible : Bool
  changeSchemeOtf : Bool
  pruneDishEntries : Bool
  numScheme1 : Int
  numScheme2 : Int
  deriving DecidableEq, Repr

namespace CompressionCntlr

def getDefaultScheme (k : CompressionCntlr) : Scheme :=
  if k.numScheme1 ≥ k.numScheme2 then .scheme1 else .scheme2

def evict (k : CompressionCntlr) : Scheme → CompressionCntlr
  | .scheme1 => { k with numScheme1 := k.numScheme1 - 1 }
  | .scheme2 => { k with numScheme2 := k.numScheme2 - 1 }
  | _ => k

def insert (k : CompressionCntlr) : Scheme → CompressionCntlr
  | .scheme1 => { k with numScheme1 := k.numScheme1 + 1 }
  | .scheme2 => { k with numScheme2 := k.numScheme2 + 1 }
  | _ => k

def canCompress (k : CompressionCntlr) : Bool := k.compressible

def canChangeSchemeOTF (k : CompressionCntlr) : Bool := k.compressible && k.changeSchemeOtf

def shouldPruneDISHEntries (k : CompressionCntlr) : Bool := k.compressible && k.pruneDishEntries

end CompressionCntlr

@[simp] theorem copyN_zero (src : Ptr) (offset : Nat) (d : Line n) : copyN src 0 offset d = d := by
  funext k
  simp only [copyN, Nat.add_zero]
  split
  · omega
  · rfl

theorem copyN_full (src : Ptr) (d : Line n) : copyN src n 0 d = Line.ofPtr src := by
  funext k
  simp [copyN, Line.ofPtr]

theorem copyN_eq_iff {src src' : Ptr} (a : Slice n) (d : Line n) :
    copyN src a.bytes a.offset d = copyN src' a.bytes a.offset d ↔
      ∀ j < a.bytes, src j = src' j := by
  have hfits := a.fits
  constructor
  · intro h j hj
    have hk := congrFun h ⟨a.offset + j, by omega⟩
    have hin : a.offset ≤ a.offset + j ∧ a.offset + j < a.offset + a.bytes := by omega
    simpa [copyN, hin] using hk
  · intro h
    funext k
    simp only [copyN]
    split
    · exact h _ (by omega)
    · rfl

theorem chunks_ofPtr_chunk (src : Ptr) :
    (Line.ofPtr src : Line n).chunks = (List.range (chunksPerBlock n)).map src.chunk := by
  simp only [Line.chunks]
  apply List.map_congr_left
  intro i hi
  simp only [List.mem_range, chunksPerBlock, granularityBytes] at hi
  have h0 : 4 * i < n := by omega
  have h1 : 4 * i + 1 < n := by omega
  have h2 : 4 * i + 2 < n := by omega
  have h3 : 4 * i + 3 < n := by omega
  simp [Line.chunk, Ptr.chunk, Line.ptr, Line.ofPtr, h0, h1, h2, h3]

/-- A SCHEME2 entry and its offset give the chunk back. -/
theorem upper_lower (c : Word) : (upper c <<< scheme2OffsetBits) ||| (lower c).setWidth 32 = c := by
  apply BitVec.eq_of_getLsbD_eq
  intro i hi
  simp only [upper, lower, scheme2OffsetBits, scheme2OffsetMask]
  by_cases h4 : i < 4
  · interval_cases i <;> simp
  · have hle : 4 + (i - 4) = i := by omega
    simp only [BitVec.getLsbD_or, BitVec.getLsbD_shiftLeft, hi, h4, BitVec.getLsbD_ushiftRight,
      hle, BitVec.getLsbD_setWidth, BitVec.getLsbD_and]
    cases c.getLsbD i <;> simp

end Sniper.Cache
