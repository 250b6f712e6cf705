import Sniper.Cheetah.AllCaches
import Sniper.Lib.Machine
set_option autoImplicit false

/-! The simulators of a processor: every core buffers its addresses and hands them, a full buffer at a
time, to its own simulator and to those it shares with other cores. -/

namespace Sniper.Cheetah
open Sniper.Lib CheetahSACLRU

/-- Who shares a simulator. -/
inductive CheetahType where
  | cheetahLocal
  | cheetahBy2
  | cheetahBy4
  | cheetahBy8
  | cheetahGlobal
deriving DecidableEq

namespace CheetahType

def all : List CheetahType := [cheetahLocal, cheetahBy2, cheetahBy4, cheetahBy8, cheetahGlobal]

/-- Whether a core makes a new simulator when it is set up. -/
def makesModel : CheetahType → Nat → Bool
  | cheetahLocal, _ => true
  | cheetahBy2, coreId => coreId &&& 1 = 0
  | cheetahBy4, coreId => coreId &&& 3 = 0
  | cheetahBy8, coreId => coreId &&& 7 = 0
  | cheetahGlobal, coreId => coreId = 0

/-- How many simulators there are once so many cores are set up, in the order of their numbers. -/
def modelCount (t : CheetahType) (cores : Nat) : Nat := ((List.range cores).filter t.makesModel).length

/-- The simulator of a core is the newest one when the core is set up. -/
def modelIndex (t : CheetahType) (coreId : Nat) : Nat := t.modelCount (coreId + 1) - 1

/-- How many cores share a simulator, if not all. -/
def groupSize : CheetahType → Option Nat
  | cheetahLocal => some 1
  | cheetahBy2 => some 2
  | cheetahBy4 => some 4
  | cheetahBy8 => some 8
  | cheetahGlobal => none

end CheetahType

def associativityLog2 : Nat := 4

def lineSizeLog2 : Nat := 6

def addressBufferSize : Nat := 256

/-- The range of cache sizes that is simulated, as powers of two. -/
structure ManagerConfig where
  minBits : Nat
  maxBitsLocal : Nat
  maxBitsGlobal : Nat
  min_le : associativityLog2 + lineSizeLog2 ≤ minBits
  le_local : minBits ≤ maxBitsLocal
  le_global : minBits ≤ maxBitsGlobal
  fits_local : 2 ^ (minBits - associativityLog2 - lineSizeLog2) *
    2 ^ (maxBitsLocal - associativityLog2 - lineSizeLog2 -
      (minBits - associativityLog2 - lineSizeLog2)) * 2 * (2 ^ associativityLog2 + 1) < 2 ^ 32
  fits_global : 2 ^ (minBits - associativityLog2 - lineSizeLog2) *
    2 ^ (maxBitsGlobal - associativityLog2 - lineSizeLog2 -
      (minBits - associativityLog2 - lineSizeLog2)) * 2 * (2 ^ associativityLog2 + 1) < 2 ^ 32

namespace ManagerConfig

variable (k : ManagerConfig)

def maxBits : CheetahType → Nat
  | .cheetahGlobal => k.maxBitsGlobal
  | _ => k.maxBitsLocal

theorem le_maxBits (t : CheetahType) : k.minBits ≤ k.maxBits t := by
  cases t
  case cheetahGlobal => exact k.le_global
  all_goals exact k.le_local

theorem fits (t : CheetahType) : 2 ^ (k.minBits - associativityLog2 - lineSizeLog2) *
    2 ^ (k.maxBits t - associativityLog2 - lineSizeLog2 -
      (k.minBits - associativityLog2 - lineSizeLog2)) * 2 * (2 ^ associativityLog2 + 1) < 2 ^ 32 := by
  cases t
  case cheetahGlobal => exact k.fits_global
  all_goals exact k.fits_local

def config (t : CheetahType) : Config where
  N := associativityLog2
  B := k.maxBits t - associativityLog2 - lineSizeLog2
  A := k.minBits - associativityLog2 - lineSizeLog2
  L := lineSizeLog2
  le := Nat.sub_le_sub_right (Nat.sub_le_sub_right (k.le_maxBits t) _) _
  fits := k.fits t

end ManagerConfig

/-- The simulators of all cores, the buffers before them, and the registered statistics. -/
structure CheetahManager (n : Nat) where
  addressBuffer : Fin n → List (BitVec 64)
  /-- The kinds of simulator a core has still to hand its full buffer to. -/
  flushing : Fin n → List CheetahType
  models : CheetahType → Nat → CheetahSACLRU
  stats : CheetahType → Nat → Nat

namespace CheetahManager

variable {n : Nat} (k : ManagerConfig)

def init : CheetahManager n where
  addressBuffer _ := []
  flushing _ := []
  models t _ := initSaclru (k.config t)
  stats _ _ := 0

/-- A core's access goes into its buffer. -/
def access (s : CheetahManager n) (core : Fin n) (addr : BitVec 64) : CheetahManager n :=
  let buffer := s.addressBuffer core ++ [addr]
  { s with
    addressBuffer := Function.update s.addressBuffer core buffer
    flushing := Function.update s.flushing core
      (if addressBufferSize ≤ buffer.length then CheetahType.all else []) }

/-- A simulator takes a whole buffer, under its lock if it is shared. -/
def accesses (c : Config) (addrs : List (BitVec 64)) (m : CheetahSACLRU) : CheetahSACLRU :=
  addrs.foldl (fun m addr => m.sacnmulWoarr c addr) m

/-- A core hands its full buffer to one simulator, and empties it after the last. -/
def flush (s : CheetahManager n) (core : Fin n) (t : CheetahType) (rest : List CheetahType) :
    CheetahManager n :=
  { s with
    addressBuffer := Function.update s.addressBuffer core
      (if rest = [] then [] else s.addressBuffer core)
    flushing := Function.update s.flushing core rest
    models := Function.update s.models t (Function.update (s.models t) (t.modelIndex core)
      (accesses (k.config t) (s.addressBuffer core) (s.models t (t.modelIndex core)))) }

/-- The hits for one size, all ways used, are added to its statistic. -/
def addHits (c : Config) (r : (Nat → Nat) × CheetahSACLRU) (setsLog2 : Nat) :
    (Nat → Nat) × CheetahSACLRU :=
  let sizeBits := c.N + setsLog2 + c.L
  let h := r.2.hits c setsLog2 (2 ^ c.N)
  (poke r.1 sizeBits (r.1 sizeBits + h.1), h.2)

/-- One simulator adds its hits for every size, and its accesses, to the statistics. -/
def updateStats (c : Config) (r : (Nat → Nat) × CheetahSACLRU) : (Nat → Nat) × CheetahSACLRU :=
  let r := (List.range' c.A (c.B + 1 - c.A)).foldl (addHits c) r
  (poke r.1 0 (r.1 0 + r.2.tEntries), r.2)

def addModel (t : CheetahType) (r : (Nat → Nat) × (Nat → CheetahSACLRU)) (g : Nat) :
    (Nat → Nat) × (Nat → CheetahSACLRU) :=
  let u := updateStats (k.config t) (r.1, r.2 g)
  (u.1, Function.update r.2 g u.2)

/-- The statistics of one kind: as many of the first ones are reset as there are kinds. -/
def updateKind (cores : Nat) (t : CheetahType) (stats : Nat → Nat) (models : Nat → CheetahSACLRU) :
    (Nat → Nat) × (Nat → CheetahSACLRU) :=
  (List.range (t.modelCount cores)).foldl (addModel k t)
    (fun b => if b < CheetahType.all.length then 0 else stats b, models)

def update (s : CheetahManager n) : CheetahManager n :=
  { s with
    stats := fun t => (updateKind k n t (s.stats t) (s.models t)).1
    models := fun t => (updateKind k n t (s.stats t) (s.models t)).2 }

/-- What one simulator has counted: accesses, or the hits of a size. -/
def share (t : CheetahType) (m : CheetahSACLRU) (sizeBits : Nat) : Nat :=
  if sizeBits = 0 then m.tEntries
  else if k.minBits ≤ sizeBits ∧ sizeBits ≤ k.maxBits t then
    m.hitCount (sizeBits - k.minBits) (2 ^ associativityLog2)
  else 0

/-- What the simulators of one kind have counted together. -/
def totals (s : CheetahManager n) (t : CheetahType) (sizeBits : Nat) : Nat :=
  ((List.range (t.modelCount n)).map fun g => share k t (s.models t g) sizeBits).sum

inductive Input (n : Nat) where
  | access (core : Fin n) (addr : BitVec 64)
  | flush (core : Fin n)
  | update

/-- The totals at a write of the statistics. -/
abbrev Output : Type := Option (CheetahType → Nat → Nat)

inductive Step : CheetahManager n → Input n → Output → CheetahManager n → Prop where
  | access {s : CheetahManager n} {core : Fin n} (addr : BitVec 64) :
      s.flushing core = [] → Step s (.access core addr) none (s.access core addr)
  | flush {s : CheetahManager n} {core : Fin n} {t : CheetahType} {rest : List CheetahType} :
      s.flushing core = t :: rest → Step s (.flush core) none (s.flush k core t rest)
  | update {s : CheetahManager n} :
      Step s .update (some fun t b => s.totals k t b) (s.update k)

def machine (n : Nat) : Machine (CheetahManager n) (Input n) Output where
  init s := s = init k
  step := Step k

end CheetahManager

end Sniper.Cheetah
