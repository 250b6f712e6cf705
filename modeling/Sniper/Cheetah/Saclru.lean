import Mathlib.Algebra.Group.Nat.Defs
import Mathlib.Algebra.GroupWithZero.Nat
import Mathlib.Data.Nat.Notation
import Mathlib.Logic.Function.Basic
set_option autoImplicit false

/-! Simulation of all set-associative caches with least recently used replacement in one pass: every
set of the smallest cache has a tree of slots, and a slot on level `d` belongs to one set of the cache
with `2 ^ d` times as many sets. -/

namespace Sniper.Cheetah

/-- `2 ^ N` ways, from `2 ^ A` to `2 ^ B` sets of lines of `2 ^ L` bytes. -/
structure Config where
  N : Nat
  B : Nat
  A : Nat
  L : Nat
  le : A ≤ B
  /-- What the constructor asserts of the size of the trees. -/
  fits : 2 ^ A * 2 ^ (B - A) * 2 * (2 ^ N + 1) < 2 ^ 32

namespace Config

variable (c : Config)

def twoPwrN : Nat := 2 ^ c.N

def maxDepth : Nat := c.B - c.A

def base : Nat := c.twoPwrN + 1

def sizeOfTree : Nat := 2 ^ c.maxDepth * 2 * c.base

def diffSetMask : Nat := 2 ^ c.maxDepth - 1

/-- Where the slot of a tag on a level starts, from the root of its tree. -/
def entry (depth tag : Nat) : Nat := (2 ^ depth + (tag &&& (2 ^ depth - 1)) - 1) * c.base

/-- The right matches: how many low bits of two tags are equal, from the bits in which they differ. -/
def rmArr (diff : Nat) : Nat :=
  if diff = 0 then c.maxDepth
  else ((List.range (c.maxDepth + 1)).find? fun j => diff.testBit j).getD 0

def rightMatch (x y : Nat) : Nat := c.rmArr ((x ^^^ y) &&& c.diffSetMask)

def line (addr : BitVec 64) : BitVec 64 := addr.sshiftRight c.L

def setNo (addr : BitVec 64) : Nat := (c.line addr &&& BitVec.ofNat 64 (2 ^ c.A - 1)).toNat

def origTag (addr : BitVec 64) : Nat := ((c.line addr).sshiftRight c.A).toNat

end Config

/-- The state of the simulator; `arr` holds all trees, a slot being its first used position followed
by `2 ^ N` tags. -/
structure CheetahSACLRU where
  arr : Nat → Nat
  /-- Hits by depth in the set and by level. -/
  sacHits : Nat → Nat → Nat
  tEntries : Nat
  /-- Right-match counts. -/
  depths : Nat → Nat
  /-- Hits at the root of a tree that `sacHits` does not have yet. -/
  hitarr0 : Nat
  tag : Nat

/-- An array with one location set. -/
def poke (arr : Nat → Nat) (p v : Nat) : Nat → Nat := Function.update arr p v

/-! ### Initialization -/

namespace Config

variable (c : Config)

def fillSlot (slotPtr value : Nat) (arr : Nat → Nat) : Nat → Nat :=
  (List.range c.twoPwrN).foldl (fun arr l => poke arr (slotPtr + (l + 1)) value) (poke arr slotPtr 1)

/-- The first half of the slots of level `j` are empty. -/
def emptySlots (arrPtr j : Nat) (arr : Nat → Nat) : Nat → Nat :=
  (List.range (2 ^ (j - 1))).foldl
    (fun arr k => poke arr (arrPtr + (2 ^ j - 1 + k) * (c.twoPwrN + 1)) (c.twoPwrN + 1)) arr

/-- The others hold tags of their own, numbered by `initValue`. -/
def fullSlots (arrPtr j : Nat) (s : (Nat → Nat) × Nat) : (Nat → Nat) × Nat :=
  (List.range (2 ^ (j - 1))).foldl
    (fun s k =>
      (c.fillSlot (arrPtr + (2 ^ j - 1 + 2 ^ (j - 1) + k) * (c.twoPwrN + 1)) s.2 s.1, s.2 + 1)) s

def initTree (i : Nat) (arr : Nat → Nat) : Nat → Nat :=
  let arrPtr := i * c.sizeOfTree
  ((List.range c.maxDepth).foldl
    (fun s j => c.fullSlots arrPtr (j + 1) (c.emptySlots arrPtr (j + 1) s.1, s.2))
    (c.fillSlot arrPtr 0x80000000 arr, 0x80000000 + 1)).1

def initArr : Nat → Nat := (List.range (2 ^ c.A)).foldl (fun arr i => c.initTree i arr) fun _ => 0

end Config

namespace CheetahSACLRU

variable (c : Config)

def initSaclru : CheetahSACLRU where
  arr := c.initArr
  sacHits _ _ := 0
  tEntries := 0
  depths _ := 0
  hitarr0 := 0
  tag := 0

/-! ### One access -/

/-- The slot from position `i` on: each tag moves one position down, until the one that is sought.
The rest of the tags moved over are counted by their right match. -/
def search (origTag slotPtr : Nat) : Nat → Nat → CheetahSACLRU → CheetahSACLRU × Bool
  | 0, _, s => (s, false)
  | left + 1, i, s =>
    let t1 := s.arr (slotPtr + i)
    if t1 = origTag then
      ({ s with arr := poke s.arr (slotPtr + i) s.tag }, true)
    else
      let t := c.rightMatch origTag t1
      search origTag slotPtr left (i + 1)
        { s with
          depths := poke s.depths t (s.depths t + 1)
          arr := poke s.arr (slotPtr + i) s.tag
          tag := t1 }

/-- The top tag of a slot is dropped. -/
def drop (slotPtr : Nat) (s : CheetahSACLRU) : CheetahSACLRU :=
  { s with arr := poke s.arr slotPtr (s.arr slotPtr + 1) }

/-- A tag is put on top of a slot. -/
def push (slotPtr atag : Nat) (s : CheetahSACLRU) : CheetahSACLRU :=
  let arr := poke s.arr slotPtr (s.arr slotPtr - 1)
  { s with arr := poke arr (slotPtr + arr slotPtr) atag }

theorem drop_arr (slotPtr : Nat) (s : CheetahSACLRU) :
    (s.drop slotPtr).arr = poke s.arr slotPtr (s.arr slotPtr + 1) := rfl

theorem push_arr (slotPtr atag : Nat) (s : CheetahSACLRU) :
    (s.push slotPtr atag).arr =
      poke (poke s.arr slotPtr (s.arr slotPtr - 1))
        (slotPtr + poke s.arr slotPtr (s.arr slotPtr - 1) slotPtr) atag := rfl

/-- From the level below `left` up: the hit is counted for the caches whose set has the tag. -/
def countHit : Nat → Nat → CheetahSACLRU → CheetahSACLRU
  | 0, _, s => s
  | left + 1, sum, s =>
    let sum := sum + s.depths left
    if sum < c.twoPwrN then
      countHit left sum
        { s with sacHits := Function.update s.sacHits sum (poke (s.sacHits sum) left (s.sacHits sum left + 1)) }
    else s

/-- The first level from `depth` on, at most `left` levels further, whose slot is not empty. -/
def nextDepth (arr : Nat → Nat) (arrPtr origTag : Nat) : Nat → Nat → Nat
  | 0, depth => depth
  | left + 1, depth =>
    if c.twoPwrN < arr (arrPtr + c.entry depth origTag) then
      nextDepth arr arrPtr origTag left (depth + 1)
    else depth

/-- The walk down the tree: `left` levels are still to come, `depth` being the first of them. -/
def walk (arrPtr origTag : Nat) : Nat → Nat → Nat → Nat → Nat → CheetahSACLRU → CheetahSACLRU
  | 0, _, _, _, _, s => s
  | left + 1, depth, atag, fst, slotPtr, s =>
    if c.maxDepth < depth then s
    else
      let (s, hit) := search c origTag slotPtr (c.twoPwrN + 1 - fst) fst s
      let s := (s.drop slotPtr).push (arrPtr + c.entry depth atag) atag
      if hit then countHit c (c.maxDepth + 1) 0 s
      else
        let depth := nextDepth c s.arr arrPtr origTag (c.maxDepth - depth) (depth + 1)
        let slotPtr := arrPtr + c.entry depth origTag
        walk arrPtr origTag left depth s.tag (s.arr slotPtr) slotPtr s

def sacnmulWoarr (addr : BitVec 64) (s : CheetahSACLRU) : CheetahSACLRU :=
  let s := { s with tEntries := s.tEntries + 1 }
  let arrPtr := c.setNo addr * c.sizeOfTree
  let origTag := c.origTag addr
  if s.arr (arrPtr + 1) = origTag then { s with hitarr0 := s.hitarr0 + 1 }
  else
    { walk c arrPtr origTag (c.maxDepth + 1) 0 origTag 1 arrPtr s with depths := fun _ => 0 }

/-! ### Results -/

def flush (s : CheetahSACLRU) : CheetahSACLRU :=
  { s with
    sacHits := Function.update s.sacHits 0 fun i =>
      if i ≤ c.maxDepth then s.sacHits 0 i + s.hitarr0 else s.sacHits 0 i
    hitarr0 := 0 }

/-- The hits of the cache with `2 ^ setsLog2` sets of `assoc` ways. -/
def hits (setsLog2 assoc : Nat) (s : CheetahSACLRU) : Nat × CheetahSACLRU :=
  let s := if s.hitarr0 = 0 then s else s.flush c
  (((List.range assoc).map fun j => s.sacHits j (setsLog2 - c.A)).sum, s)

end CheetahSACLRU

end Sniper.Cheetah
