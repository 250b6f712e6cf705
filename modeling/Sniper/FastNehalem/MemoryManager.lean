import Sniper.FastNehalem.FastCache
import Mathlib.Data.List.FinRange
set_option autoImplicit false

/-! The memory of a processor while fast-forwarding: two first-level caches and a second level for every
core, a third level and memory for all. -/

namespace Sniper.FastNehalem
open Sniper.Lib

inductive MemOp where
  | read
  | readEx
  | write
deriving DecidableEq

/-- A cache of some sets, with its counters. -/
structure Cache where
  sets : Nat → CacheSet
  loads : Nat
  stores : Nat
  loadMisses : Nat
  storeMisses : Nat

namespace Cache

def fresh : Cache := ⟨fun _ => .fresh, 0, 0, 0, 0⟩

def numSets (assoc sizeKb : Nat) : Nat := sizeKb * 1024 / 64 / assoc

def setIndex (assoc sizeKb : Nat) (tag : Tag) : Nat :=
  (tag &&& BitVec.ofNat 64 (numSets assoc sizeKb - 1)).toNat

def countAccess (c : Cache) (op : MemOp) : Cache :=
  if op = .write then { c with stores := c.stores + 1 } else { c with loads := c.loads + 1 }

def countMiss (c : Cache) (op : MemOp) : Cache :=
  if op = .write then { c with storeMisses := c.storeMisses + 1 }
  else { c with loadMisses := c.loadMisses + 1 }

/-- The part of an access that is the cache's own. -/
def lookup (assoc sizeKb : Nat) (c : Cache) (op : MemOp) (tag : Tag) : Bool × Cache :=
  let c := c.countAccess op
  let idx := setIndex assoc sizeKb tag
  let r := (c.sets idx).find assoc tag
  let c := { c with sets := Function.update c.sets idx r.2 }
  if r.1 = true then (true, c) else (false, c.countMiss op)

end Cache

/-- How the caches of each kind look a tag up. -/
structure Lookups (κ : Type) where
  icache : κ → MemOp → Tag → Bool × κ
  dcache : κ → MemOp → Tag → Bool × κ
  l2cache : κ → MemOp → Tag → Bool × κ
  l3cache : κ → MemOp → Tag → Bool × κ

/-- The caches of the source. -/
def lookups : Lookups Cache where
  icache := Cache.lookup 4 32
  dcache := Cache.lookup 8 32
  l2cache := Cache.lookup 8 256
  l3cache := Cache.lookup 16 8192

structure Dram where
  reads : Nat
  writes : Nat
  totalLatency : Nat

structure MemoryManager (κ : Type) (n : Nat) where
  icache : Fin n → κ
  dcache : Fin n → κ
  l2cache : Fin n → κ
  l3cache : κ
  dram : Dram

namespace MemoryManager

variable {κ : Type} {n : Nat} (L : Lookups κ)

def make (c : κ) : MemoryManager κ n := ⟨fun _ => c, fun _ => c, fun _ => c, c, ⟨0, 0, 0⟩⟩

/-- The latencies are in cycles. -/
def dramLatency : Nat := 150

def l3Latency : Nat := 35

def l2Latency : Nat := 9

def accessDram (m : MemoryManager κ n) (op : MemOp) : Nat × MemoryManager κ n :=
  let d := if op = .write then { m.dram with writes := m.dram.writes + 1 }
    else { m.dram with reads := m.dram.reads + 1 }
  (dramLatency, { m with dram := { d with totalLatency := d.totalLatency + dramLatency } })

def accessL3 (m : MemoryManager κ n) (op : MemOp) (tag : Tag) : Nat × MemoryManager κ n :=
  let r := L.l3cache m.l3cache op tag
  let m := { m with l3cache := r.2 }
  if r.1 = true then (l3Latency, m) else m.accessDram op

def accessL2 (m : MemoryManager κ n) (core : Fin n) (op : MemOp) (tag : Tag) :
    Nat × MemoryManager κ n :=
  let r := L.l2cache (m.l2cache core) op tag
  let m := { m with l2cache := Function.update m.l2cache core r.2 }
  if r.1 = true then (l2Latency, m) else m.accessL3 L op tag

/-- An access by a core: the latency of the level that has the line. -/
def coreInitiateMemoryAccessFast (m : MemoryManager κ n) (core : Fin n) (useIcache : Bool) (op : MemOp)
    (address : BitVec 64) : Nat × MemoryManager κ n :=
  let tag := address >>> 6
  if useIcache = true then
    let r := L.icache (m.icache core) op tag
    let m := { m with icache := Function.update m.icache core r.2 }
    if r.1 = true then (0, m) else m.accessL2 L core op tag
  else
    let r := L.dcache (m.dcache core) op tag
    let m := { m with dcache := Function.update m.dcache core r.2 }
    if r.1 = true then (0, m) else m.accessL2 L core op tag

end MemoryManager

/-- One access of a run. -/
structure Access (n : Nat) where
  core : Fin n
  useIcache : Bool
  op : MemOp
  address : BitVec 64

namespace MemoryManager

variable {κ : Type} {n : Nat}

def perform (L : Lookups κ) (m : MemoryManager κ n) (a : Access n) : Nat × MemoryManager κ n :=
  m.coreInitiateMemoryAccessFast L a.core a.useIcache a.op a.address

/-- The latencies of a run, and the state after it. -/
def run (L : Lookups κ) : MemoryManager κ n → List (Access n) → List Nat × MemoryManager κ n
  | m, [] => ([], m)
  | m, a :: as =>
    let r := m.perform L a
    let rest := run L r.2 as
    (r.1 :: rest.1, rest.2)

end MemoryManager

/-! ### Two kinds of cache with the same answers -/

/-- Related caches answer alike and stay related. -/
def Alike {κ κ' : Type} (proper : Tag → Prop) (R : κ → κ' → Prop) (f : κ → MemOp → Tag → Bool × κ)
    (f' : κ' → MemOp → Tag → Bool × κ') : Prop :=
  ∀ {c c'}, R c c' → ∀ op tag, proper tag → (f c op tag).1 = (f' c' op tag).1 ∧
    R (f c op tag).2 (f' c' op tag).2

/-- A relation for each kind of cache that the caches keep. -/
structure Relation {κ κ' : Type} (proper : Tag → Prop) (L : Lookups κ) (L' : Lookups κ') where
  icache : κ → κ' → Prop
  dcache : κ → κ' → Prop
  l2cache : κ → κ' → Prop
  l3cache : κ → κ' → Prop
  icache_alike : Alike proper icache L.icache L'.icache
  dcache_alike : Alike proper dcache L.dcache L'.dcache
  l2cache_alike : Alike proper l2cache L.l2cache L'.l2cache
  l3cache_alike : Alike proper l3cache L.l3cache L'.l3cache

namespace MemoryManager

variable {κ κ' : Type} {n : Nat} {proper : Tag → Prop} {L : Lookups κ} {L' : Lookups κ'}
variable {R : Relation proper L L'} {m : MemoryManager κ n} {m' : MemoryManager κ' n}

structure Related (R : Relation proper L L') (m : MemoryManager κ n) (m' : MemoryManager κ' n) :
    Prop where
  icache : ∀ core, R.icache (m.icache core) (m'.icache core)
  dcache : ∀ core, R.dcache (m.dcache core) (m'.dcache core)
  l2cache : ∀ core, R.l2cache (m.l2cache core) (m'.l2cache core)
  l3cache : R.l3cache m.l3cache m'.l3cache

theorem update_related {ρ : κ → κ' → Prop} {f : Fin n → κ} {f' : Fin n → κ'}
    (h : ∀ core, ρ (f core) (f' core)) {core : Fin n} {c : κ} {c' : κ'} (hc : ρ c c') (core' : Fin n) :
    ρ (Function.update f core c core') (Function.update f' core c' core') := by
  by_cases heq : core' = core
  · subst heq
    rw [Function.update_self, Function.update_self]
    exact hc
  · rw [Function.update_of_ne heq, Function.update_of_ne heq]
    exact h core'

theorem Related.accessL3 (h : Related R m m') (op : MemOp) {tag : Tag} (htag : proper tag) :
    (m.accessL3 L op tag).1 = (m'.accessL3 L' op tag).1 ∧
      Related R (m.accessL3 L op tag).2 (m'.accessL3 L' op tag).2 := by
  obtain ⟨hsame, hrel⟩ := R.l3cache_alike h.l3cache op tag htag
  have hupdated : Related R { m with l3cache := (L.l3cache m.l3cache op tag).2 }
      { m' with l3cache := (L'.l3cache m'.l3cache op tag).2 } :=
    ⟨h.icache, h.dcache, h.l2cache, hrel⟩
  simp only [MemoryManager.accessL3, hsame]
  split
  · exact ⟨rfl, hupdated⟩
  · exact ⟨rfl, ⟨hupdated.icache, hupdated.dcache, hupdated.l2cache, hupdated.l3cache⟩⟩

theorem Related.accessL2 (h : Related R m m') (core : Fin n) (op : MemOp) {tag : Tag}
    (htag : proper tag) :
    (m.accessL2 L core op tag).1 = (m'.accessL2 L' core op tag).1 ∧
      Related R (m.accessL2 L core op tag).2 (m'.accessL2 L' core op tag).2 := by
  obtain ⟨hsame, hrel⟩ := R.l2cache_alike (h.l2cache core) op tag htag
  have hupdated : Related R
      { m with l2cache := Function.update m.l2cache core (L.l2cache (m.l2cache core) op tag).2 }
      { m' with l2cache := Function.update m'.l2cache core (L'.l2cache (m'.l2cache core) op tag).2 } :=
    ⟨h.icache, h.dcache, update_related h.l2cache hrel, h.l3cache⟩
  simp only [MemoryManager.accessL2, hsame]
  split
  · exact ⟨rfl, hupdated⟩
  · exact hupdated.accessL3 op htag

theorem Related.coreInitiateMemoryAccessFast (h : Related R m m') (core : Fin n) (useIcache : Bool)
    (op : MemOp) {address : BitVec 64} (htag : proper (address >>> 6)) :
    (m.coreInitiateMemoryAccessFast L core useIcache op address).1 =
        (m'.coreInitiateMemoryAccessFast L' core useIcache op address).1 ∧
      Related R (m.coreInitiateMemoryAccessFast L core useIcache op address).2
        (m'.coreInitiateMemoryAccessFast L' core useIcache op address).2 := by
  cases useIcache with
  | true =>
    obtain ⟨hsame, hrel⟩ := R.icache_alike (h.icache core) op _ htag
    have hupdated : Related R
        { m with icache := Function.update m.icache core (L.icache (m.icache core) op (address >>> 6)).2 }
        { m' with
          icache := Function.update m'.icache core (L'.icache (m'.icache core) op (address >>> 6)).2 } :=
      ⟨update_related h.icache hrel, h.dcache, h.l2cache, h.l3cache⟩
    simp only [MemoryManager.coreInitiateMemoryAccessFast, if_true, hsame]
    split
    · exact ⟨rfl, hupdated⟩
    · exact hupdated.accessL2 core op htag
  | false =>
    obtain ⟨hsame, hrel⟩ := R.dcache_alike (h.dcache core) op _ htag
    have hupdated : Related R
        { m with dcache := Function.update m.dcache core (L.dcache (m.dcache core) op (address >>> 6)).2 }
        { m' with
          dcache := Function.update m'.dcache core (L'.dcache (m'.dcache core) op (address >>> 6)).2 } :=
      ⟨h.icache, update_related h.dcache hrel, h.l2cache, h.l3cache⟩
    simp only [MemoryManager.coreInitiateMemoryAccessFast, Bool.false_eq_true, if_false, hsame]
    split
    · exact ⟨rfl, hupdated⟩
    · exact hupdated.accessL2 core op htag

/-- Related memories answer a whole run alike. -/
theorem Related.run (h : Related R m m') (as : List (Access n)) (has : ∀ a ∈ as, proper (a.address >>> 6)) :
    (run L m as).1 = (run L' m' as).1 ∧ Related R (run L m as).2 (run L' m' as).2 := by
  induction as generalizing m m' with
  | nil => exact ⟨rfl, h⟩
  | cons a as ih =>
    obtain ⟨hsame, hrel⟩ := h.coreInitiateMemoryAccessFast a.core a.useIcache a.op
      (has a List.mem_cons_self)
    obtain ⟨hsames, hrels⟩ := ih hrel fun b hb => has b (List.mem_cons_of_mem a hb)
    refine ⟨?_, hrels⟩
    rw [MemoryManager.run, MemoryManager.run]
    exact congrArg₂ List.cons hsame hsames

end MemoryManager

end Sniper.FastNehalem
