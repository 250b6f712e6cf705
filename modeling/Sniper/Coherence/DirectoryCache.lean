import Mathlib.Algebra.Group.Nat.Defs
import Sniper.Coherence.Directory
import Sniper.Lib.Machine
set_option autoImplicit false

/-! The directory cache of one home node, with the entries of all its addresses. -/

namespace Sniper.Coherence
open Sniper.Lib

abbrev Addr := BitVec 64

/-- A directory entry with its address, `none` for `INVALID_ADDRESS`. -/
structure CacheEntry (n : Nat) where
  address : Option Addr
  info : DirectoryEntry n

structure DirectoryGeometry where
  numSets : Nat
  logCacheBlockSize : Nat

/-- The set index of `DramDirectoryCache::splitAddress`. -/
def DirectoryGeometry.setIndex (g : DirectoryGeometry) (address : Addr) : Nat :=
  ((address >>> g.logCacheBlockSize).toNat % 2 ^ 32) &&& (g.numSets - 1)

inductive DirectoryCacheFault where
  | entryExists
  | noReplacementCandidate
  | replacedMissing
  | invalidatedMissing
  | noDirectoryEntry
  | queueNotEmpty
  | unsupportedState
  | notEnabled
  deriving DecidableEq, Repr

/-- What a `DirectoryEntry*` points at. -/
inductive Place (assoc : Nat) where
  | way (set : Nat) (i : Fin assoc)
  | replaced (k : Nat)
  deriving DecidableEq

structure DramDirectoryCache (n assoc : Nat) where
  ways : Nat → Fin assoc → CacheEntry n
  replacementPtrs : Nat → Nat
  replaced : List (CacheEntry n)

namespace DramDirectoryCache

variable {n assoc : Nat}

def setWay (c : DramDirectoryCache n assoc) (set : Nat) (i : Fin assoc) (e : CacheEntry n) :
    DramDirectoryCache n assoc :=
  { c with ways := Function.update c.ways set (Function.update (c.ways set) i e) }

/-- The first way of the set whose entry has this address. -/
def findWay (c : DramDirectoryCache n assoc) (set : Nat) (address : Option Addr) :
    Option (Fin assoc) :=
  (List.finRange assoc).find? fun i => (c.ways set i).address = address

/-- The ways are searched for the address, then for a free entry, which is claimed, and only then
the replaced entries. -/
def getDirectoryEntry (g : DirectoryGeometry) (c : DramDirectoryCache n assoc) (address : Addr) :
    Option (Place assoc) × DramDirectoryCache n assoc :=
  let set := g.setIndex address
  match c.findWay set (some address) with
  | some i => (some (.way set i), c)
  | none =>
    match c.findWay set none with
    | some i => (some (.way set i), c.setWay set i { c.ways set i with address := some address })
    | none =>
      match c.replaced.findIdx? fun e => e.address = some address with
      | some k => (some (.replaced k), c)
      | none => (none, c)

/-- The ways of the set from the replacement pointer on, in 32-bit arithmetic. -/
def getReplacementCandidates (g : DirectoryGeometry) (c : DramDirectoryCache n assoc)
    (address : Addr) : Except DirectoryCacheFault (List (Fin assoc) × DramDirectoryCache n assoc) :=
  match c.getDirectoryEntry g address with
  | (some _, _) => .error .entryExists
  | (none, c) =>
    let set := g.setIndex address
    let ptr := c.replacementPtrs set
    .ok ((List.finRange assoc).map fun i =>
        ⟨(i.val + ptr) % 2 ^ 32 % assoc, Nat.mod_lt _ (Nat.lt_of_le_of_lt (Nat.zero_le _) i.isLt)⟩,
      { c with replacementPtrs := Function.update c.replacementPtrs set ((ptr + 1) % 2 ^ 32) })

def replaceDirectoryEntry (g : DirectoryGeometry) (c : DramDirectoryCache n assoc)
    (replacedAddress address : Addr) (new : DirectoryEntry n) :
    Except DirectoryCacheFault (DramDirectoryCache n assoc) :=
  let set := g.setIndex replacedAddress
  match c.findWay set (some replacedAddress) with
  | none => .error .replacedMissing
  | some i =>
    .ok { c.setWay set i ⟨some address, new⟩ with replaced := c.replaced ++ [c.ways set i] }

def invalidateDirectoryEntry (c : DramDirectoryCache n assoc) (address : Addr) :
    Except DirectoryCacheFault (DramDirectoryCache n assoc) :=
  match c.replaced.findIdx? fun e => e.address = some address with
  | none => .error .invalidatedMissing
  | some k => .ok { c with replaced := c.replaced.eraseIdx k }

def entryAt (c : DramDirectoryCache n assoc) : Place assoc → Option (CacheEntry n)
  | .way set i => some (c.ways set i)
  | .replaced k => c.replaced[k]?

/-- A write through a pointer. -/
def setInfo (c : DramDirectoryCache n assoc) (info : DirectoryEntry n) :
    Place assoc → DramDirectoryCache n assoc
  | .way set i => c.setWay set i { c.ways set i with info := info }
  | .replaced k => { c with replaced := c.replaced.modify k fun e => { e with info := info } }

end DramDirectoryCache

/-- What the queue of an address holds: requests of the caches, or the nullification of a replaced
entry. -/
inductive ReqKind where
  | request
  | nullify
  deriving DecidableEq, Repr

/-- The directory controller as far as it manages entries. -/
structure DirectoryCntlr (n assoc : Nat) where
  cache : DramDirectoryCache n assoc
  queues : Addr → List ReqKind

/-- What the controller does to its entries and queues, call by call. The handlers of the
messages are made of these. -/
inductive CntlrAct (n : Nat) where
  /-- the lookup every message from a cache starts with -/
  | lookup (address : Addr)
  /-- a request joins its queue -/
  | enqueue (address : Addr)
  /-- the request at the head of the queue gets its entry, allocated if need be -/
  | serve (address : Addr) (forwarder : Option (Fin n))
  /-- a handler writes to the entry it looked up -/
  | update (address : Addr) (info : DirectoryEntry n)
  /-- the request at the head of the queue is done -/
  | complete (address : Addr)
  /-- the nullification at the head of the queue is processed -/
  | nullify (address : Addr)

namespace DirectoryCntlr

variable {n assoc : Nat}

def pushReq (s : DirectoryCntlr n assoc) (address : Addr) (req : ReqKind) :
    DirectoryCntlr n assoc :=
  { s with queues := Function.update s.queues address (s.queues address ++ [req]) }

def popReq (s : DirectoryCntlr n assoc) (address : Addr) : DirectoryCntlr n assoc :=
  { s with queues := Function.update s.queues address (s.queues address).tail }

/-- `processNullifyReq`: unless the line is cached somewhere, the entry goes and so does the
nullification. -/
def processNullifyReq (g : DirectoryGeometry) (s : DirectoryCntlr n assoc) (address : Addr) :
    Except DirectoryCacheFault (DirectoryCntlr n assoc) :=
  match s.cache.getDirectoryEntry g address with
  | (none, _) => .error .noDirectoryEntry
  | (some p, cache) =>
    match cache.entryAt p with
    | none => .error .noDirectoryEntry
    | some e =>
      match e.info.dstate with
      | .exclusive | .modified | .shared => .ok { s with cache := cache }
      | .uncached => do
        let cache ← cache.invalidateDirectoryEntry address
        return popReq { s with cache := cache } address
      | .owned => .error .unsupportedState

/-- The candidate with the fewest sharers among those with no request in their queue. -/
def pickCandidate (s : DirectoryCntlr n assoc) (set : Nat) (candidates : List (Fin assoc)) :
    Option (Fin assoc) :=
  candidates.foldl (fun best i =>
    let e := s.cache.ways set i
    if (best.all fun b => e.info.getNumSharers < (s.cache.ways set b).info.getNumSharers) &&
        (e.address.all fun a => (s.queues a).isEmpty)
    then some i else best) none

def processDirectoryEntryAllocationReq (g : DirectoryGeometry) (s : DirectoryCntlr n assoc)
    (address : Addr) (new : DirectoryEntry n) :
    Except DirectoryCacheFault (DirectoryCntlr n assoc) := do
  let (candidates, cache) ← s.cache.getReplacementCandidates g address
  let s := { s with cache := cache }
  match s.pickCandidate (g.setIndex address) candidates with
  | none => .error .noReplacementCandidate
  | some i =>
    match (s.cache.ways (g.setIndex address) i).address with
    | none => .error .replacedMissing
    | some replacedAddress => do
      let cache ← s.cache.replaceDirectoryEntry g replacedAddress address new
      let s := pushReq { s with cache := cache } replacedAddress .nullify
      if (s.queues replacedAddress).length ≠ 1 then .error .queueNotEmpty
      else s.processNullifyReq g replacedAddress

def step (g : DirectoryGeometry) (s : DirectoryCntlr n assoc) :
    CntlrAct n → Except DirectoryCacheFault (DirectoryCntlr n assoc)
  | .lookup a => .ok { s with cache := (s.cache.getDirectoryEntry g a).2 }
  | .enqueue a => .ok (s.pushReq a .request)
  | .serve a forwarder =>
    if (s.queues a).head? = some .request then
      match s.cache.getDirectoryEntry g a with
      | (some _, cache) => .ok { s with cache := cache }
      | (none, cache) =>
        processDirectoryEntryAllocationReq g { s with cache := cache } a (.new forwarder)
    else .error .notEnabled
  | .update a info =>
    match s.cache.getDirectoryEntry g a with
    | (some p, cache) => .ok { s with cache := cache.setInfo info p }
    | (none, _) => .error .noDirectoryEntry
  | .complete a =>
    if (s.queues a).head? = some .request then .ok (s.popReq a) else .error .notEnabled
  | .nullify a =>
    if (s.queues a).head? = some .nullify then s.processNullifyReq g a else .error .notEnabled

/-- An empty directory. The replacement pointers start as the allocation left them. -/
def Initial (s : DirectoryCntlr n assoc) : Prop :=
  (∀ set i, (s.cache.ways set i).address = none) ∧ s.cache.replaced = [] ∧ s.queues = fun _ => []

def machine (n assoc : Nat) (g : DirectoryGeometry) :
    Machine (DirectoryCntlr n assoc) (CntlrAct n) Unit where
  init s := s.Initial
  step s act _ s' := s.step g act = .ok s'

end DirectoryCntlr

/-! ## The discipline of entries -/

/-- How the entries and the queues fit together. -/
structure DirectoryCntlr.WF {n assoc : Nat} (g : DirectoryGeometry) (s : DirectoryCntlr n assoc) :
    Prop where
  /-- an entry is in the set of its address -/
  placed : ∀ set i a, (s.cache.ways set i).address = some a → g.setIndex a = set
  waysDistinct : ∀ set i j a, (s.cache.ways set i).address = some a →
    (s.cache.ways set j).address = some a → i = j
  replacedValid : ∀ e ∈ s.cache.replaced, e.address ≠ none
  replacedDistinct : (s.cache.replaced.map CacheEntry.address).Nodup
  disjoint : ∀ e ∈ s.cache.replaced, ∀ set i, (s.cache.ways set i).address ≠ e.address
  /-- an entry is only replaced in a full set, and a full set stays full -/
  full : ∀ a, some a ∈ s.cache.replaced.map CacheEntry.address →
    ∀ i, (s.cache.ways (g.setIndex a) i).address ≠ none
  /-- the replaced entries are those whose nullification heads their queue -/
  nullifying : ∀ a, some a ∈ s.cache.replaced.map CacheEntry.address ↔
    (s.queues a).head? = some .nullify
  nullifyFirst : ∀ a, .nullify ∉ (s.queues a).tail

namespace DramDirectoryCache

variable {n assoc : Nat} {g : DirectoryGeometry} {c : DramDirectoryCache n assoc}

theorem findWay_some {set : Nat} {address : Option Addr} {i : Fin assoc}
    (h : c.findWay set address = some i) : (c.ways set i).address = address := by
  simpa using List.find?_some h

theorem findWay_none {set : Nat} {address : Option Addr} (h : c.findWay set address = none)
    (i : Fin assoc) : (c.ways set i).address ≠ address := by
  have := List.find?_eq_none.mp h i (List.mem_finRange i)
  simpa using this

theorem findIdx_none {a : Addr} (h : (c.replaced.findIdx? fun e => e.address = some a) = none) :
    some a ∉ c.replaced.map CacheEntry.address := by
  rw [List.findIdx?_eq_none_iff] at h
  intro hm
  obtain ⟨e, he, ha⟩ := List.mem_map.mp hm
  have := h e he
  simp [ha] at this

theorem findIdx_some {a : Addr} {k : Nat}
    (h : (c.replaced.findIdx? fun e => e.address = some a) = some k) :
    ∃ e, c.replaced[k]? = some e ∧ e.address = some a := by
  obtain ⟨hk, he, -⟩ := List.findIdx?_eq_some_iff_getElem.mp h
  exact ⟨c.replaced[k], List.getElem?_eq_getElem hk, by simpa using he⟩

/-- What `getDirectoryEntry` can answer. -/
theorem getDirectoryEntry_cases (g : DirectoryGeometry) (c : DramDirectoryCache n assoc) (a : Addr) :
    (∃ i, (c.ways (g.setIndex a) i).address = some a ∧
      c.getDirectoryEntry g a = (some (.way (g.setIndex a) i), c)) ∨
    ((∀ i, (c.ways (g.setIndex a) i).address ≠ some a) ∧
      ∃ i, (c.ways (g.setIndex a) i).address = none ∧
        c.getDirectoryEntry g a = (some (.way (g.setIndex a) i), c.setWay (g.setIndex a) i
          { c.ways (g.setIndex a) i with address := some a })) ∨
    ((∀ i, (c.ways (g.setIndex a) i).address ≠ some a) ∧
      (∀ i, (c.ways (g.setIndex a) i).address ≠ none) ∧
      ((∃ k e, c.replaced[k]? = some e ∧ e.address = some a ∧
          c.getDirectoryEntry g a = (some (.replaced k), c)) ∨
        (some a ∉ c.replaced.map CacheEntry.address ∧ c.getDirectoryEntry g a = (none, c)))) := by
  unfold getDirectoryEntry
  dsimp only
  cases hw : c.findWay (g.setIndex a) (some a) with
  | some i => exact .inl ⟨i, findWay_some hw, rfl⟩
  | none =>
    refine .inr ?_
    cases hf : c.findWay (g.setIndex a) none with
    | some i => exact .inl ⟨findWay_none hw, i, findWay_some hf, rfl⟩
    | none =>
      refine .inr ⟨findWay_none hw, findWay_none hf, ?_⟩
      cases hr : c.replaced.findIdx? fun e => e.address = some a with
      | some k =>
        obtain ⟨e, he, ha⟩ := findIdx_some hr
        exact .inl ⟨k, e, he, ha, rfl⟩
      | none => exact .inr ⟨findIdx_none hr, rfl⟩

@[simp] theorem setWay_replaced (c : DramDirectoryCache n assoc) (set : Nat) (i : Fin assoc)
    (e : CacheEntry n) : (c.setWay set i e).replaced = c.replaced := rfl

theorem setWay_ways (c : DramDirectoryCache n assoc) (set : Nat) (i : Fin assoc)
    (e : CacheEntry n) (set' : Nat) (j : Fin assoc) :
    (c.setWay set i e).ways set' j = if set' = set ∧ j = i then e else c.ways set' j := by
  simp only [setWay, Function.update_apply]
  by_cases hs : set' = set
  · subst hs
    by_cases hj : j = i
    · simp [hj]
    · simp [hj]
  · simp [hs]

/-- An address in a way was there before, or is the one just put there. -/
theorem address_of_setWay {c : DramDirectoryCache n assoc} {set : Nat} {i : Fin assoc} {a : Addr}
    {info : DirectoryEntry n} {set' : Nat} {j : Fin assoc} {b : Addr}
    (h : ((c.setWay set i ⟨some a, info⟩).ways set' j).address = some b) :
    ((c.ways set' j).address = some b ∧ ¬(set' = set ∧ j = i)) ∨
      (set' = set ∧ j = i ∧ b = a) := by
  rw [setWay_ways] at h
  by_cases hp : set' = set ∧ j = i
  · rw [if_pos hp] at h
    exact .inr ⟨hp.1, hp.2, (Option.some.inj h).symm⟩
  · rw [if_neg hp] at h
    exact .inl ⟨h, hp⟩

theorem setWay_ne_none {c : DramDirectoryCache n assoc} {set : Nat} {i : Fin assoc} {a : Addr}
    {info : DirectoryEntry n} {set' : Nat} {j : Fin assoc} (h : (c.ways set' j).address ≠ none) :
    ((c.setWay set i ⟨some a, info⟩).ways set' j).address ≠ none := by
  rw [setWay_ways]
  split
  · exact Option.some_ne_none a
  · exact h

end DramDirectoryCache

namespace DirectoryCntlr

variable {n assoc : Nat} {g : DirectoryGeometry} {s s' : DirectoryCntlr n assoc}

theorem Initial.wf (h : s.Initial) : s.WF g where
  placed set i a ha := by rw [h.1] at ha; cases ha
  waysDistinct set i j a ha := by rw [h.1] at ha; cases ha
  replacedValid e he := by rw [h.2.1] at he; cases he
  replacedDistinct := by rw [h.2.1]; exact List.nodup_nil
  disjoint e he := by rw [h.2.1] at he; cases he
  full a ha := by rw [h.2.1] at ha; cases ha
  nullifying a := by rw [h.2.1, h.2.2]; simp
  nullifyFirst a := by rw [h.2.2]; simp

/-- Writes that leave every address in its place keep the discipline. -/
theorem WF.congr (h : s.WF g)
    (hw : ∀ set i, (s'.cache.ways set i).address = (s.cache.ways set i).address)
    (hr : s'.cache.replaced.map CacheEntry.address = s.cache.replaced.map CacheEntry.address)
    (hq : s'.queues = s.queues) : s'.WF g where
  placed set i a ha := h.placed set i a (by rw [← hw]; exact ha)
  waysDistinct set i j a hi hj :=
    h.waysDistinct set i j a (by rw [← hw]; exact hi) (by rw [← hw]; exact hj)
  replacedValid e he hn := by
    have hm : e.address ∈ s.cache.replaced.map CacheEntry.address := hr ▸ List.mem_map_of_mem he
    obtain ⟨f, hf, hfe⟩ := List.mem_map.mp hm
    exact h.replacedValid f hf (hfe.trans hn)
  replacedDistinct := hr ▸ h.replacedDistinct
  disjoint e he set i := by
    have hm : e.address ∈ s.cache.replaced.map CacheEntry.address := hr ▸ List.mem_map_of_mem he
    obtain ⟨f, hf, hfe⟩ := List.mem_map.mp hm
    rw [hw, ← hfe]
    exact h.disjoint f hf set i
  full a ha i := by
    rw [hw]
    exact h.full a (hr ▸ ha) i
  nullifying a := by
    rw [hr, hq]
    exact h.nullifying a
  nullifyFirst a := hq ▸ h.nullifyFirst a

/-- A way that takes a new address keeps the ways of a set distinct. -/
theorem waysDistinct_setWay (h : s.WF g) {a : Addr} {i : Fin assoc} {info : DirectoryEntry n}
    (hnone : ∀ j, (s.cache.ways (g.setIndex a) j).address ≠ some a) {set : Nat} {j k : Fin assoc}
    {b : Addr}
    (hj : ((s.cache.setWay (g.setIndex a) i ⟨some a, info⟩).ways set j).address = some b)
    (hk : ((s.cache.setWay (g.setIndex a) i ⟨some a, info⟩).ways set k).address = some b) :
    j = k := by
  rcases DramDirectoryCache.address_of_setWay hj with ⟨hold, -⟩ | ⟨rfl, rfl, rfl⟩
  · rcases DramDirectoryCache.address_of_setWay hk with ⟨hold', -⟩ | ⟨rfl, rfl, rfl⟩
    · exact h.waysDistinct set j k b hold hold'
    · exact absurd hold (hnone j)
  · rcases DramDirectoryCache.address_of_setWay hk with ⟨hold', -⟩ | ⟨-, rfl, -⟩
    · exact absurd hold' (hnone k)
    · rfl

/-- A free way is claimed only for an address that has no entry anywhere. -/
theorem WF.claim (h : s.WF g) {a : Addr} {i : Fin assoc}
    (hnone : ∀ j, (s.cache.ways (g.setIndex a) j).address ≠ some a)
    (hfree : (s.cache.ways (g.setIndex a) i).address = none) (info : DirectoryEntry n) :
    WF g { s with cache := s.cache.setWay (g.setIndex a) i ⟨some a, info⟩ } := by
  have hnew : some a ∉ s.cache.replaced.map CacheEntry.address := fun hm =>
    h.full a hm i hfree
  refine ⟨fun set j b hb => ?_, fun set j k b hj hk => ?_, h.replacedValid, h.replacedDistinct,
    fun e he set j heq => ?_, fun b hb j => DramDirectoryCache.setWay_ne_none (h.full b hb j),
    h.nullifying, h.nullifyFirst⟩
  · rcases DramDirectoryCache.address_of_setWay hb with ⟨hold, -⟩ | ⟨rfl, -, rfl⟩
    · exact h.placed set j b hold
    · rfl
  · exact waysDistinct_setWay h hnone hj hk
  · obtain ⟨b, hb⟩ := Option.ne_none_iff_exists'.mp (h.replacedValid e he)
    rcases DramDirectoryCache.address_of_setWay (heq.trans hb) with ⟨hold, -⟩ | ⟨-, -, rfl⟩
    · exact h.disjoint e he set j (hold.trans hb.symm)
    · exact hnew (hb ▸ List.mem_map_of_mem he)

theorem WF.getDirectoryEntry (h : s.WF g) (a : Addr) :
    WF g { s with cache := (s.cache.getDirectoryEntry g a).2 } := by
  rcases s.cache.getDirectoryEntry_cases g a with ⟨i, -, he⟩ | ⟨hnone, i, hfree, he⟩ |
    ⟨-, -, ⟨k, e, -, -, he⟩ | ⟨-, he⟩⟩
  · rw [he]
    exact h
  · rw [he]
    exact h.claim hnone hfree _
  · rw [he]
    exact h
  · rw [he]
    exact h

theorem WF.setInfo (h : s.WF g) (info : DirectoryEntry n) (p : Place assoc) :
    WF g { s with cache := s.cache.setInfo info p } := by
  cases p with
  | way set i =>
    refine h.congr (fun set' j => ?_) rfl rfl
    simp only [DramDirectoryCache.setInfo, DramDirectoryCache.setWay_ways]
    split
    · rename_i hp
      rw [hp.1, hp.2]
    · rfl
  | replaced k =>
    refine h.congr (fun _ _ => rfl) ?_ rfl
    simp only [DramDirectoryCache.setInfo]
    apply List.ext_getElem?
    intro j
    rw [List.getElem?_map, List.getElem?_map, List.getElem?_modify]
    cases s.cache.replaced[j]? with
    | none => rfl
    | some e => by_cases hk : k = j <;> simp [hk]

/-- Changing one queue needs its head and its tail checked, and nothing else. -/
theorem WF.setQueue (h : s.WF g) {a : Addr} {queue : List ReqKind}
    (hhead : some a ∈ s.cache.replaced.map CacheEntry.address ↔ queue.head? = some .nullify)
    (htail : .nullify ∉ queue.tail) :
    WF g { s with queues := Function.update s.queues a queue } := by
  refine ⟨h.placed, h.waysDistinct, h.replacedValid, h.replacedDistinct, h.disjoint, h.full,
    fun b => ?_, fun b => ?_⟩
  · by_cases hb : b = a
    · subst hb
      simpa using hhead
    · simp only [Function.update_of_ne hb]
      exact h.nullifying b
  · by_cases hb : b = a
    · subst hb
      simpa using htail
    · simp only [Function.update_of_ne hb]
      exact h.nullifyFirst b

theorem WF.pushRequest (h : s.WF g) (a : Addr) : (s.pushReq a .request).WF g := by
  refine h.setQueue ?_ ?_
  · rw [h.nullifying a]
    cases s.queues a with
    | nil => simp
    | cons r rest => simp
  · have ht := h.nullifyFirst a
    cases hq : s.queues a with
    | nil => simp
    | cons r rest =>
      rw [hq] at ht
      simpa using ht

theorem WF.popRequest (h : s.WF g) {a : Addr} (hq : (s.queues a).head? = some .request) :
    (s.popReq a).WF g := by
  have ht := h.nullifyFirst a
  refine h.setQueue ?_ fun hm => ht (List.mem_of_mem_tail hm)
  rw [h.nullifying a, hq]
  constructor
  · intro heq
    cases heq
  · intro heq
    exact absurd (List.mem_of_mem_head? heq) ht

/-- The entry of an address under nullification is the replaced one. -/
theorem WF.getDirectoryEntry_replaced (h : s.WF g) {a : Addr}
    (ha : some a ∈ s.cache.replaced.map CacheEntry.address) :
    ∃ k e, s.cache.replaced[k]? = some e ∧ e.address = some a ∧
      s.cache.getDirectoryEntry g a = (some (.replaced k), s.cache) := by
  obtain ⟨e, he, hea⟩ := List.mem_map.mp ha
  rcases s.cache.getDirectoryEntry_cases g a with ⟨i, hi, -⟩ | ⟨-, i, hfree, -⟩ |
    ⟨-, -, hk | ⟨hno, -⟩⟩
  · exact absurd (hi.trans hea.symm) (h.disjoint e he _ i)
  · exact absurd hfree (h.full a ha i)
  · exact hk
  · exact absurd ha hno

/-- The nullification ends: the entry leaves the replaced ones, and its address the queue. -/
theorem WF.invalidate (h : s.WF g) {a : Addr} {cache : DramDirectoryCache n assoc}
    (hc : s.cache.invalidateDirectoryEntry a = .ok cache) :
    (popReq { s with cache := cache } a).WF g := by
  unfold DramDirectoryCache.invalidateDirectoryEntry at hc
  cases hr : s.cache.replaced.findIdx? fun e => e.address = some a with
  | none =>
    rw [hr] at hc
    cases hc
  | some k =>
    rw [hr] at hc
    cases hc
    obtain ⟨e, hk, hea⟩ := DramDirectoryCache.findIdx_some hr
    have hmem : some a ∈ s.cache.replaced.map CacheEntry.address :=
      hea ▸ List.mem_map_of_mem (List.mem_of_getElem? hk)
    have hsub : s.cache.replaced.eraseIdx k ⊆ s.cache.replaced := (List.eraseIdx_sublist _ _).subset
    have hmap : (s.cache.replaced.eraseIdx k).map CacheEntry.address =
        (s.cache.replaced.map CacheEntry.address).erase (some a) := by
      obtain ⟨hlt, hget⟩ := List.getElem?_eq_some_iff.mp hk
      have hlt' : k < (s.cache.replaced.map CacheEntry.address).length := by simpa using hlt
      have hval : (s.cache.replaced.map CacheEntry.address)[k] = some a := by simp [hget, hea]
      rw [← List.eraseIdx_map, ← hval, h.replacedDistinct.erase_getElem k hlt']
    have hiff : ∀ b, some b ∈ (s.cache.replaced.eraseIdx k).map CacheEntry.address ↔
        b ≠ a ∧ some b ∈ s.cache.replaced.map CacheEntry.address := by
      intro b
      rw [hmap, h.replacedDistinct.mem_erase_iff]
      simp
    have hq := h.nullifyFirst a
    refine ⟨h.placed, h.waysDistinct, fun f hf => h.replacedValid f (hsub hf), ?_,
      fun f hf => h.disjoint f (hsub hf), fun b hb => h.full b ((hiff b).mp hb).2, fun b => ?_,
      fun b => ?_⟩
    · simp only [popReq, hmap]
      exact h.replacedDistinct.erase _
    · simp only [popReq, hiff]
      by_cases hb : b = a
      · subst hb
        simp only [ne_eq, not_true, false_and, false_iff, Function.update_self]
        exact fun heq => hq (List.mem_of_mem_head? heq)
      · simp only [ne_eq, hb, not_false_eq_true, true_and, Function.update_of_ne hb]
        exact h.nullifying b
    · simp only [popReq]
      by_cases hb : b = a
      · subst hb
        rw [Function.update_self]
        exact fun hm => hq (List.mem_of_mem_tail hm)
      · rw [Function.update_of_ne hb]
        exact h.nullifyFirst b

theorem WF.processNullifyReq (h : s.WF g) {a : Addr} (hr : s.processNullifyReq g a = .ok s') :
    s'.WF g := by
  have hget := h.getDirectoryEntry a
  unfold DirectoryCntlr.processNullifyReq at hr
  split at hr
  · cases hr
  rename_i p cache he
  rw [he] at hget
  dsimp only at hget
  split at hr
  · cases hr
  split at hr
  · cases hr
    exact hget
  · cases hr
    exact hget
  · cases hr
    exact hget
  · cases hc : cache.invalidateDirectoryEntry a with
    | error f =>
      rw [hc] at hr
      cases hr
    | ok cache' =>
      rw [hc] at hr
      cases hr
      exact hget.invalidate (s := { s with cache := cache }) hc
  · cases hr

/-- A candidate for replacement has no request in its queue. -/
theorem pickCandidate_idle {set : Nat} {candidates : List (Fin assoc)} {i : Fin assoc}
    (h : s.pickCandidate set candidates = some i) :
    ∀ a, (s.cache.ways set i).address = some a → s.queues a = [] := by
  -- what the scan holds at any time is idle
  have hscan : ∀ (l : List (Fin assoc)) (best : Option (Fin assoc)),
      (∀ j, best = some j → ∀ a, (s.cache.ways set j).address = some a → s.queues a = []) →
      ∀ j, l.foldl (fun best i =>
        let e := s.cache.ways set i
        if (best.all fun b => e.info.getNumSharers < (s.cache.ways set b).info.getNumSharers) &&
            (e.address.all fun a => (s.queues a).isEmpty)
        then some i else best) best = some j →
      ∀ a, (s.cache.ways set j).address = some a → s.queues a = [] := by
    intro l
    induction l with
    | nil => exact fun best hb j hj => hb j hj
    | cons k l ih =>
      intro best hb
      rw [List.foldl_cons]
      apply ih
      intro j hj a ha
      dsimp only at hj
      split at hj
      · rename_i hc
        cases hj
        rw [Bool.and_eq_true, ha] at hc
        simpa using hc.2
      · exact hb j hj a ha
  exact hscan candidates none (fun j hj => by cases hj) i h

/-- The replacement proper: `b`, whose queue is empty, leaves its way to `a`, which has no entry,
and its nullification is queued. -/
theorem WF.replace (h : s.WF g) {a b : Addr} {i : Fin assoc} (new : DirectoryEntry n)
    (hb : (s.cache.ways (g.setIndex a) i).address = some b) (hidle : s.queues b = [])
    (hway : ∀ j, (s.cache.ways (g.setIndex a) j).address ≠ some a)
    (hfull : ∀ j, (s.cache.ways (g.setIndex a) j).address ≠ none)
    (hrep : some a ∉ s.cache.replaced.map CacheEntry.address)
    (hw' : s'.cache.ways = (s.cache.setWay (g.setIndex a) i ⟨some a, new⟩).ways)
    (hr' : s'.cache.replaced = s.cache.replaced ++ [s.cache.ways (g.setIndex a) i])
    (hq' : s'.queues = Function.update s.queues b [.nullify]) : s'.WF g := by
  have hset : g.setIndex b = g.setIndex a := h.placed _ i b hb
  have hne : b ≠ a := fun hba => hway i (hba ▸ hb)
  have hbnew : some b ∉ s.cache.replaced.map CacheEntry.address := by
    rw [h.nullifying b, hidle]
    simp
  have hmap : s'.cache.replaced.map CacheEntry.address =
      s.cache.replaced.map CacheEntry.address ++ [some b] := by
    rw [hr', List.map_append, List.map_singleton, hb]
  have hmem : ∀ c, some c ∈ s'.cache.replaced.map CacheEntry.address ↔
      some c ∈ s.cache.replaced.map CacheEntry.address ∨ c = b := by
    intro c
    rw [hmap, List.mem_append, List.mem_singleton, Option.some.injEq]
  refine ⟨fun set j c hc => ?_, fun set j k c hj hk => ?_, fun e he => ?_, ?_,
    fun e he set j heq => ?_, fun c hc j => ?_, fun c => ?_, fun c => ?_⟩
  · rw [hw'] at hc
    rcases DramDirectoryCache.address_of_setWay hc with ⟨hold, -⟩ | ⟨rfl, -, rfl⟩
    · exact h.placed set j c hold
    · rfl
  · rw [hw'] at hj hk
    exact waysDistinct_setWay h hway hj hk
  · rw [hr'] at he
    rcases List.mem_append.mp he with he | he
    · exact h.replacedValid e he
    · rw [List.mem_singleton.mp he, hb]
      exact Option.some_ne_none b
  · rw [hmap]
    exact List.nodup_append.mpr ⟨h.replacedDistinct, List.nodup_singleton _, fun x hx y hy => by
      rw [List.mem_singleton.mp hy]
      exact fun hxy => hbnew (hxy ▸ hx)⟩
  · rw [hw'] at heq
    rw [hr'] at he
    rcases List.mem_append.mp he with hmem' | hlast
    · obtain ⟨c, hc⟩ := Option.ne_none_iff_exists'.mp (h.replacedValid e hmem')
      rcases DramDirectoryCache.address_of_setWay (heq.trans hc) with ⟨hold, -⟩ | ⟨-, -, rfl⟩
      · exact h.disjoint e hmem' set j (hold.trans hc.symm)
      · exact hrep (hc ▸ List.mem_map_of_mem hmem')
    · rw [List.mem_singleton.mp hlast, hb] at heq
      rcases DramDirectoryCache.address_of_setWay heq with ⟨hold, hnot⟩ | ⟨-, -, hba⟩
      · have hs : set = g.setIndex a := (h.placed set j b hold).symm.trans hset
        subst hs
        exact hnot ⟨rfl, h.waysDistinct _ j i b hold hb⟩
      · exact hne hba
  · rw [hw']
    apply DramDirectoryCache.setWay_ne_none
    rcases (hmem c).mp hc with hold | rfl
    · exact h.full c hold j
    · rw [hset]
      exact hfull j
  · rw [hmem c, hq']
    by_cases hcb : c = b
    · simp [hcb]
    · simp [hcb, h.nullifying c]
  · rw [hq']
    by_cases hcb : c = b
    · simp [hcb]
    · rw [Function.update_of_ne hcb]
      exact h.nullifyFirst c

/-- What the allocation of an entry does before it processes the nullification: some idle `b` of
the set of `a` is replaced. -/
theorem allocation_cases (h : s.WF g) {a : Addr} {new : DirectoryEntry n}
    (hr : s.processDirectoryEntryAllocationReq g a new = .ok s') :
    ∃ (b : Addr) (i : Fin assoc) (s₁ : DirectoryCntlr n assoc),
      (s.cache.ways (g.setIndex a) i).address = some b ∧ s.queues b = [] ∧ s₁.WF g ∧
      s₁.cache.ways = (s.cache.setWay (g.setIndex a) i ⟨some a, new⟩).ways ∧
      s₁.cache.replaced = s.cache.replaced ++ [s.cache.ways (g.setIndex a) i] ∧
      s₁.processNullifyReq g b = .ok s' := by
  unfold processDirectoryEntryAllocationReq DramDirectoryCache.getReplacementCandidates at hr
  rcases s.cache.getDirectoryEntry_cases g a with ⟨i, -, he⟩ | ⟨-, i, -, he⟩ |
    ⟨hway, hfull, ⟨k, e, -, -, he⟩ | ⟨hrep, he⟩⟩
  · rw [he] at hr
    cases hr
  · rw [he] at hr
    cases hr
  · rw [he] at hr
    cases hr
  rw [he] at hr
  simp only [bind, Except.bind] at hr
  split at hr
  · cases hr
  rename_i i hpick
  split at hr
  · cases hr
  rename_i b hb
  have hb' : (s.cache.ways (g.setIndex a) i).address = some b := hb
  have hset : g.setIndex b = g.setIndex a := h.placed _ i b hb'
  have hidle : s.queues b = [] := pickCandidate_idle hpick b hb
  have hfind : s.cache.findWay (g.setIndex a) (some b) = some i := by
    cases hf : s.cache.findWay (g.setIndex a) (some b) with
    | some j => rw [h.waysDistinct _ j i b (DramDirectoryCache.findWay_some hf) hb']
    | none => exact absurd hb' (DramDirectoryCache.findWay_none hf i)
  have hrepl : ∀ ptrs, DramDirectoryCache.replaceDirectoryEntry g
      { s.cache with replacementPtrs := ptrs } b a new =
        .ok { s.cache.setWay (g.setIndex a) i ⟨some a, new⟩ with
          replacementPtrs := ptrs
          replaced := s.cache.replaced ++ [s.cache.ways (g.setIndex a) i] } := by
    intro ptrs
    unfold DramDirectoryCache.replaceDirectoryEntry
    rw [hset]
    have hf : DramDirectoryCache.findWay { s.cache with replacementPtrs := ptrs } (g.setIndex a)
        (some b) = some i := hfind
    simp only [hf]
    rfl
  rw [hrepl] at hr
  dsimp only at hr
  split at hr
  · cases hr
  refine ⟨b, i, _, hb', hidle, ?_, rfl, rfl, hr⟩
  exact h.replace new hb' hidle hway hfull hrep rfl rfl (by simp [pushReq, hidle])

theorem WF.allocation (h : s.WF g) {a : Addr} {new : DirectoryEntry n}
    (hr : s.processDirectoryEntryAllocationReq g a new = .ok s') : s'.WF g := by
  obtain ⟨b, i, s₁, -, -, hwf, -, -, hn⟩ := allocation_cases h hr
  exact hwf.processNullifyReq hn

/-- Every call of the controller keeps the discipline. -/
theorem WF.step (h : s.WF g) {act : CntlrAct n} (hs : s.step g act = .ok s') : s'.WF g := by
  cases act with
  | lookup a =>
    cases hs
    exact h.getDirectoryEntry a
  | enqueue a =>
    cases hs
    exact h.pushRequest a
  | serve a forwarder =>
    have hget := h.getDirectoryEntry a
    simp only [DirectoryCntlr.step] at hs
    split at hs
    · split at hs
      · rename_i p cache he
        cases hs
        rw [he] at hget
        exact hget
      · rename_i cache he
        rw [he] at hget
        exact hget.allocation hs
    · cases hs
  | update a info =>
    have hget := h.getDirectoryEntry a
    simp only [DirectoryCntlr.step] at hs
    split at hs
    · rename_i p cache he
      cases hs
      rw [he] at hget
      exact hget.setInfo info p
    · cases hs
  | complete a =>
    simp only [DirectoryCntlr.step] at hs
    split at hs
    · rename_i hq
      cases hs
      exact h.popRequest hq
    · cases hs
  | nullify a =>
    simp only [DirectoryCntlr.step] at hs
    split at hs
    · exact h.processNullifyReq hs
    · cases hs

theorem reachable_wf (h : Reachable (machine n assoc g) s) : s.WF g :=
  h.invariant (I := fun s => s.WF g) (fun _ hi => Initial.wf hi)
    (fun _ _ _ _ hwf hs => hwf.step (by exact hs))

/-- No address has two entries. -/
theorem WF.place_unique (h : s.WF g) {p q : Place assoc} {e f : CacheEntry n} {a : Addr}
    (hp : s.cache.entryAt p = some e) (he : e.address = some a)
    (hq : s.cache.entryAt q = some f) (hf : f.address = some a) : p = q := by
  cases p with
  | way set i =>
    cases hp
    cases q with
    | way set' j =>
      cases hq
      have hset : set = set' := (h.placed set i a he).symm.trans (h.placed set' j a hf)
      subst hset
      rw [h.waysDistinct set i j a he hf]
    | replaced k =>
      exact absurd (he.trans hf.symm) (h.disjoint f (List.mem_of_getElem? hq) set i)
  | replaced k =>
    cases q with
    | way set' j =>
      cases hq
      exact absurd (hf.trans he.symm) (h.disjoint e (List.mem_of_getElem? hp) set' j)
    | replaced l =>
      have hk : (s.cache.replaced.map CacheEntry.address)[k]? = some (some a) := by
        rw [List.getElem?_map, show s.cache.replaced[k]? = some e from hp, Option.map_some, he]
      have hl : (s.cache.replaced.map CacheEntry.address)[l]? = some (some a) := by
        rw [List.getElem?_map, show s.cache.replaced[l]? = some f from hq, Option.map_some, hf]
      rw [(List.getElem?_inj (List.getElem?_eq_some_iff.mp hk).1 h.replacedDistinct).mp
        (hk.trans hl.symm)]

/-- The entry of an address is the one `getDirectoryEntry` answers. -/
theorem WF.getDirectoryEntry_live (h : s.WF g) {p : Place assoc} {e : CacheEntry n} {a : Addr}
    (hp : s.cache.entryAt p = some e) (he : e.address = some a) :
    s.cache.getDirectoryEntry g a = (some p, s.cache) := by
  cases p with
  | way set i =>
    cases hp
    have hset := h.placed set i a he
    subst hset
    rcases s.cache.getDirectoryEntry_cases g a with ⟨j, hj, hget⟩ | ⟨hnone, -⟩ | ⟨hnone, -⟩
    · rw [hget, h.waysDistinct _ j i a hj he]
    · exact absurd he (hnone i)
    · exact absurd he (hnone i)
  | replaced k =>
    have hmem : e.address ∈ s.cache.replaced.map CacheEntry.address :=
      List.mem_map_of_mem (List.mem_of_getElem? hp)
    rw [he] at hmem
    obtain ⟨l, f, hl, hf, hget⟩ := h.getDirectoryEntry_replaced hmem
    rw [hget, h.place_unique (p := .replaced k) (q := .replaced l) hp he hl hf]

/-- The entry of `a` is on the list of replaced entries, with this content. -/
def HoldsReplaced (s : DirectoryCntlr n assoc) (a : Addr) (info : DirectoryEntry n) : Prop :=
  ∃ e ∈ s.cache.replaced, e.address = some a ∧ e.info = info

/-- The entry of `a` is in a way, with this content. -/
def HoldsWay (s : DirectoryCntlr n assoc) (a : Addr) (info : DirectoryEntry n) : Prop :=
  ∃ set i, (s.cache.ways set i).address = some a ∧ (s.cache.ways set i).info = info

/-- What a call of the controller writes to the entry of `a`. -/
def written (a : Addr) (info : DirectoryEntry n) : CntlrAct n → DirectoryEntry n
  | .update b new => if b = a then new else info
  | _ => info

theorem HoldsReplaced.mem {a : Addr} {info : DirectoryEntry n} (h : s.HoldsReplaced a info) :
    some a ∈ s.cache.replaced.map CacheEntry.address := by
  obtain ⟨e, he, ha, -⟩ := h
  exact ha ▸ List.mem_map_of_mem he

theorem HoldsReplaced.congr {a : Addr} {info : DirectoryEntry n} (h : s.HoldsReplaced a info)
    (hr : s'.cache.replaced = s.cache.replaced) : s'.HoldsReplaced a info := by
  obtain ⟨e, he, hea⟩ := h
  exact ⟨e, hr ▸ he, hea⟩

@[simp] theorem getDirectoryEntry_replaced_eq (g : DirectoryGeometry)
    (c : DramDirectoryCache n assoc) (a : Addr) :
    (c.getDirectoryEntry g a).2.replaced = c.replaced := by
  rcases c.getDirectoryEntry_cases g a with ⟨i, -, he⟩ | ⟨-, i, -, he⟩ |
    ⟨-, -, ⟨k, e, -, -, he⟩ | ⟨-, he⟩⟩ <;> rw [he] <;> rfl

/-- The entry that is answered is that of the address. -/
theorem getDirectoryEntry_entryAt {c c' : DramDirectoryCache n assoc} {a : Addr} {p : Place assoc}
    (h : c.getDirectoryEntry g a = (some p, c')) :
    ∃ e, c'.entryAt p = some e ∧ e.address = some a := by
  rcases c.getDirectoryEntry_cases g a with ⟨i, hi, he⟩ | ⟨-, i, -, he⟩ |
    ⟨-, -, ⟨k, e, hk, ha, he⟩ | ⟨-, he⟩⟩
  · rw [he] at h
    cases h
    exact ⟨_, rfl, hi⟩
  · rw [he] at h
    cases h
    exact ⟨_, rfl, by simp [DramDirectoryCache.setWay_ways]⟩
  · rw [he] at h
    cases h
    exact ⟨e, hk, ha⟩
  · rw [he] at h
    cases h

/-- A claimed way was free. -/
theorem getDirectoryEntry_ways {c : DramDirectoryCache n assoc} {set : Nat} {i : Fin assoc} {b : Addr}
    (a : Addr) (hb : (c.ways set i).address = some b) :
    (c.getDirectoryEntry g a).2.ways set i = c.ways set i := by
  rcases c.getDirectoryEntry_cases g a with ⟨j, -, he⟩ | ⟨-, j, hfree, he⟩ |
    ⟨-, -, ⟨k, e, -, -, he⟩ | ⟨-, he⟩⟩
  · rw [he]
  · rw [he, DramDirectoryCache.setWay_ways, if_neg]
    rintro ⟨rfl, rfl⟩
    rw [hb] at hfree
    cases hfree
  · rw [he]
  · rw [he]

/-- A nullification takes at most its own entry off the list, and that only when no cache holds
the line. -/
theorem HoldsReplaced.processNullifyReq (hwf : s.WF g) {a b : Addr} {info : DirectoryEntry n}
    (h : s.HoldsReplaced a info) (hr : s.processNullifyReq g b = .ok s') :
    s'.HoldsReplaced a info ∨ (b = a ∧ info.dstate = .uncached) := by
  unfold DirectoryCntlr.processNullifyReq at hr
  have hrep := getDirectoryEntry_replaced_eq g s.cache b
  split at hr
  · cases hr
  rename_i p cache hget
  rw [hget] at hrep
  split at hr
  · cases hr
  rename_i e he
  have hkept : HoldsReplaced { s with cache := cache } a info := h.congr hrep
  split at hr
  · cases hr
    exact .inl hkept
  · cases hr
    exact .inl hkept
  · cases hr
    exact .inl hkept
  · rename_i hst
    obtain ⟨f, hf, hfa, hfi⟩ := h
    obtain ⟨l, hl⟩ := List.getElem?_of_mem hf
    by_cases hba : b = a
    · subst hba
      refine .inr ⟨rfl, ?_⟩
      have hlive := hwf.getDirectoryEntry_live (p := .replaced l) hl hfa
      rw [hget] at hlive
      cases hlive
      rw [show s.cache.replaced[l]? = some e from he] at hl
      cases hl
      rw [← hfi]
      exact hst
    · refine .inl ?_
      unfold DramDirectoryCache.invalidateDirectoryEntry at hr
      cases hidx : cache.replaced.findIdx? fun e => e.address = some b with
      | none =>
        rw [hidx] at hr
        cases hr
      | some k =>
        rw [hidx] at hr
        cases hr
        obtain ⟨x, hx, hxb⟩ := DramDirectoryCache.findIdx_some hidx
        rw [← show cache.replaced = s.cache.replaced from hrep] at hl
        have hlk : l ≠ k := by
          rintro rfl
          rw [hl] at hx
          cases hx
          rw [hfa] at hxb
          exact hba (Option.some.inj hxb).symm
        exact ⟨f, List.mem_eraseIdx_iff_getElem?.mpr ⟨l, hlk, hl⟩, hfa, hfi⟩
  · cases hr

/-- A write goes to the replaced entry of its own address only. -/
theorem HoldsReplaced.update (hwf : s.WF g) {a b : Addr} {info new : DirectoryEntry n}
    (h : s.HoldsReplaced a info) (hs : s.step g (.update b new) = .ok s') :
    s'.HoldsReplaced a (written a info (.update b new)) := by
  have hrep := getDirectoryEntry_replaced_eq g s.cache b
  obtain ⟨e, he, hea, hei⟩ := h
  obtain ⟨l, hl⟩ := List.getElem?_of_mem he
  simp only [DirectoryCntlr.step] at hs
  split at hs
  · rename_i p cache hget
    cases hs
    rw [hget] at hrep
    rw [← show cache.replaced = s.cache.replaced from hrep] at hl
    by_cases hba : b = a
    · subst hba
      have hlive := hwf.getDirectoryEntry_live (p := .replaced l) (by rw [← hl, hrep]; rfl) hea
      rw [hget] at hlive
      cases hlive
      refine ⟨{ e with info := new }, ?_, hea, by simp [written]⟩
      refine List.mem_of_getElem? (i := l) ?_
      simp only [DramDirectoryCache.setInfo, List.getElem?_modify]
      rw [hl]
      simp
    · have hw : written a info (.update b new) = info := by simp [written, hba]
      rw [hw]
      cases p with
      | way set i => exact ⟨e, List.mem_of_getElem? hl, hea, hei⟩
      | replaced k =>
        refine ⟨e, List.mem_of_getElem? (i := l) ?_, hea, hei⟩
        have hkl : k ≠ l := by
          rintro rfl
          obtain ⟨f, hf, hfb⟩ := getDirectoryEntry_entryAt hget
          rw [show cache.replaced[k]? = some f from hf] at hl
          cases hl
          exact hba (Option.some.inj (hfb.symm.trans hea))
        simp only [DramDirectoryCache.setInfo, List.getElem?_modify, hl]
        simp [hkl]
  · cases hs

/-- A replacement adds to the list, and the nullification it may run at once is that of the entry
it adds. -/
theorem HoldsReplaced.serve (hwf : s.WF g) {a b : Addr} {info : DirectoryEntry n}
    {forwarder : Option (Fin n)} (h : s.HoldsReplaced a info)
    (hs : s.step g (.serve b forwarder) = .ok s') : s'.HoldsReplaced a info := by
  have hwf' := hwf.getDirectoryEntry b
  have hrep := getDirectoryEntry_replaced_eq g s.cache b
  simp only [DirectoryCntlr.step] at hs
  split at hs
  · split at hs
    · rename_i p cache hget
      cases hs
      rw [hget] at hrep
      exact h.congr hrep
    · rename_i cache hget
      rw [hget] at hrep hwf'
      obtain ⟨c, i, s₁, -, hidle, hwf₁, -, hr₁, hn⟩ := allocation_cases hwf' hs
      have h₁ : s₁.HoldsReplaced a info := by
        obtain ⟨e, he, hea⟩ := h
        rw [← show cache.replaced = s.cache.replaced from hrep] at he
        exact ⟨e, hr₁ ▸ List.mem_append_left _ he, hea⟩
      rcases h₁.processNullifyReq hwf₁ hn with hkept | ⟨rfl, -⟩
      · exact hkept
      · -- the queue of the victim is empty, that of a replaced entry is not
        have hq := (hwf.nullifying c).mp h.mem
        rw [show s.queues c = [] from hidle] at hq
        cases hq
  · cases hs

/-- A replaced entry keeps its content but for what the handlers of its address write, and stays
until its nullification finds the line uncached. -/
theorem HoldsReplaced.step (hwf : s.WF g) {a : Addr} {info : DirectoryEntry n} {act : CntlrAct n}
    (h : s.HoldsReplaced a info) (hs : s.step g act = .ok s') :
    s'.HoldsReplaced a (written a info act) ∨ (act = .nullify a ∧ info.dstate = .uncached) := by
  cases act with
  | lookup b =>
    cases hs
    exact .inl (h.congr (getDirectoryEntry_replaced_eq g s.cache b))
  | enqueue b =>
    cases hs
    exact .inl (h.congr rfl)
  | complete b =>
    simp only [DirectoryCntlr.step] at hs
    split at hs
    · cases hs
      exact .inl (h.congr rfl)
    · cases hs
  | nullify b =>
    simp only [DirectoryCntlr.step] at hs
    split at hs
    · rcases h.processNullifyReq hwf hs with hkept | ⟨rfl, hst⟩
      · exact .inl hkept
      · exact .inr ⟨rfl, hst⟩
    · cases hs
  | serve b forwarder => exact .inl (h.serve hwf hs)
  | update b new => exact .inl (h.update hwf hs)

/-- The nullification of a replaced entry touches no way. -/
theorem processNullifyReq_ways (hwf : s.WF g) {b : Addr}
    (hb : some b ∈ s.cache.replaced.map CacheEntry.address)
    (hr : s.processNullifyReq g b = .ok s') : s'.cache.ways = s.cache.ways := by
  obtain ⟨k, e, he, -, hget⟩ := hwf.getDirectoryEntry_replaced hb
  unfold DirectoryCntlr.processNullifyReq at hr
  rw [hget] at hr
  simp only [DramDirectoryCache.entryAt, he] at hr
  split at hr
  · cases hr
    rfl
  · cases hr
    rfl
  · cases hr
    rfl
  · unfold DramDirectoryCache.invalidateDirectoryEntry at hr
    split at hr
    · cases hr
    · cases hr
      rfl
  · cases hr

/-- A write goes to the entry of its own address only. -/
theorem HoldsWay.update (hwf : s.WF g) {a b : Addr} {info new : DirectoryEntry n}
    (h : s.HoldsWay a info) (hs : s.step g (.update b new) = .ok s') :
    s'.HoldsWay a (written a info (.update b new)) := by
  obtain ⟨set, i, ha, hi⟩ := h
  refine ⟨set, i, ?_⟩
  have hlb := getDirectoryEntry_ways (g := g) b ha
  simp only [DirectoryCntlr.step] at hs
  split at hs
  · rename_i p cache hget
    cases hs
    rw [hget] at hlb
    by_cases hba : b = a
    · subst hba
      have hlive := hwf.getDirectoryEntry_live (p := .way set i) rfl ha
      rw [hget] at hlive
      cases hlive
      simp [DramDirectoryCache.setInfo, DramDirectoryCache.setWay_ways, ha, written]
    · cases p with
      | replaced k =>
        simp only [DramDirectoryCache.setInfo, written, hba, if_false]
        rw [hlb]
        exact ⟨ha, hi⟩
      | way set' j =>
        have hne : ¬(set = set' ∧ i = j) := by
          rintro ⟨rfl, rfl⟩
          obtain ⟨e, he, hb⟩ := getDirectoryEntry_entryAt hget
          cases he
          rw [hlb, ha] at hb
          exact hba (Option.some.inj hb).symm
        simp only [DramDirectoryCache.setInfo, DramDirectoryCache.setWay_ways, if_neg hne, written,
          hba, if_false]
        rw [hlb]
        exact ⟨ha, hi⟩
  · cases hs

/-- A replacement takes an entry with an empty queue out of its way, and nullifies it at once if no
cache holds the line. -/
theorem HoldsWay.serve (hwf : s.WF g) {a b : Addr} {info : DirectoryEntry n}
    {forwarder : Option (Fin n)} (h : s.HoldsWay a info)
    (hs : s.step g (.serve b forwarder) = .ok s') :
    s'.HoldsWay a info ∨
      (s.queues a = [] ∧ (s'.HoldsReplaced a info ∨ info.dstate = .uncached)) := by
  obtain ⟨set, i, ha, hi⟩ := h
  have hwf' := hwf.getDirectoryEntry b
  have hlb := getDirectoryEntry_ways (g := g) b ha
  simp only [DirectoryCntlr.step] at hs
  split at hs
  · split at hs
    · rename_i p cache hget
      cases hs
      rw [hget] at hlb
      exact .inl ⟨set, i, by rw [hlb]; exact ha, by rw [hlb]; exact hi⟩
    · rename_i cache hget
      rw [hget] at hlb hwf'
      obtain ⟨c, j, s₁, hc, hidle, hwf₁, hw₁, hr₁, hn⟩ := allocation_cases hwf' hs
      have hreplaced : some c ∈ s₁.cache.replaced.map CacheEntry.address := by
        rw [hr₁, List.map_append, List.map_singleton, hc]
        exact List.mem_append_right _ List.mem_cons_self
      by_cases hvictim : set = g.setIndex b ∧ i = j
      · obtain ⟨rfl, rfl⟩ := hvictim
        have hca : c = a := by
          rw [show cache.ways _ i = s.cache.ways _ i from hlb, ha] at hc
          exact (Option.some.inj hc).symm
        subst hca
        refine .inr ⟨hidle, ?_⟩
        have h₁ : s₁.HoldsReplaced c info :=
          ⟨_, hr₁ ▸ List.mem_append_right _ List.mem_cons_self, hc, by rw [hlb]; exact hi⟩
        rcases h₁.processNullifyReq hwf₁ hn with hkept | ⟨-, hst⟩
        · exact .inl hkept
        · exact .inr hst
      · refine .inl ⟨set, i, ?_, ?_⟩
        all_goals
          rw [processNullifyReq_ways hwf₁ hreplaced hn, hw₁, DramDirectoryCache.setWay_ways,
            if_neg hvictim, hlb]
        · exact ha
        · exact hi
  · cases hs

/-- An entry in a way keeps its content but for what the handlers of its address write, and leaves
its way only when its queue is empty: it is then on the list of replaced entries, unless no cache
holds the line. -/
theorem HoldsWay.step (hwf : s.WF g) {a : Addr} {info : DirectoryEntry n} {act : CntlrAct n}
    (h : s.HoldsWay a info) (hs : s.step g act = .ok s') :
    s'.HoldsWay a (written a info act) ∨
      (s.queues a = [] ∧ (s'.HoldsReplaced a info ∨ info.dstate = .uncached)) := by
  obtain ⟨set, i, ha, hi⟩ := h
  have hlook : ∀ b, (s.cache.getDirectoryEntry g b).2.ways set i = s.cache.ways set i := fun b =>
    getDirectoryEntry_ways b ha
  cases act with
  | lookup b =>
    cases hs
    exact .inl ⟨set, i, by rw [hlook]; exact ha, by rw [hlook]; exact hi⟩
  | enqueue b =>
    cases hs
    exact .inl ⟨set, i, ha, hi⟩
  | complete b =>
    simp only [DirectoryCntlr.step] at hs
    split at hs
    · cases hs
      exact .inl ⟨set, i, ha, hi⟩
    · cases hs
  | nullify b =>
    simp only [DirectoryCntlr.step] at hs
    split at hs
    · rename_i hq
      have hw := processNullifyReq_ways hwf ((hwf.nullifying b).mpr hq) hs
      exact .inl ⟨set, i, by rw [hw]; exact ha, by rw [hw]; exact hi⟩
    · cases hs
  | serve b forwarder => exact HoldsWay.serve hwf ⟨set, i, ha, hi⟩ hs
  | update b new => exact .inl (HoldsWay.update hwf ⟨set, i, ha, hi⟩ hs)

/-- A sequence of calls. -/
def runFrom (g : DirectoryGeometry) (s : DirectoryCntlr n assoc) :
    List (CntlrAct n) → Except DirectoryCacheFault (DirectoryCntlr n assoc)
  | [] => .ok s
  | act :: acts => do
    let s ← s.step g act
    s.runFrom g acts

/-- Somewhere in the sequence the nullification of `a` is processed and finds the line uncached. -/
def NullifiedIn (g : DirectoryGeometry) (s : DirectoryCntlr n assoc) (a : Addr)
    (acts : List (CntlrAct n)) : Prop :=
  ∃ acts₁ acts₂ s₁ info, acts = acts₁ ++ .nullify a :: acts₂ ∧ s.runFrom g acts₁ = .ok s₁ ∧
    s₁.HoldsReplaced a info ∧ info.dstate = .uncached

theorem HoldsReplaced.runFrom (hwf : s.WF g) {a : Addr} {info : DirectoryEntry n}
    {acts : List (CntlrAct n)} (h : s.HoldsReplaced a info) (hs : s.runFrom g acts = .ok s') :
    s'.HoldsReplaced a (acts.foldl (written a) info) ∨ NullifiedIn g s a acts := by
  induction acts generalizing s info with
  | nil =>
    cases hs
    exact .inl h
  | cons act acts ih =>
    rw [DirectoryCntlr.runFrom] at hs
    cases hstep : s.step g act with
    | error f =>
      rw [hstep] at hs
      cases hs
    | ok s₁ =>
      rw [hstep] at hs
      rcases h.step hwf hstep with h₁ | ⟨rfl, hst⟩
      · rcases ih (hwf.step hstep) h₁ hs with hend | ⟨acts₁, acts₂, s₂, info₂, rfl, hrun, hh⟩
        · exact .inl hend
        · refine .inr ⟨act :: acts₁, acts₂, s₂, info₂, rfl, ?_, hh⟩
          rw [DirectoryCntlr.runFrom, hstep]
          exact hrun
      · exact .inr ⟨[], acts, s, info, rfl, rfl, h, hst⟩

/-- After any sequence of calls of the controller: an address has at most one entry among the ways
and the replaced entries; an entry is what `getDirectoryEntry` answers for its address; a candidate
with a request in its queue is not chosen; a replaced entry stays, its content changed by nothing
but the writes of its own address's handlers, until its nullification finds the line uncached; and
an entry leaves its way only onto the list of replaced entries, with its content, or when no cache
holds the line. -/
theorem entries_unique_and_kept (g : DirectoryGeometry) (s : DirectoryCntlr n assoc)
    (h : Reachable (machine n assoc g) s) :
    (∀ (p q : Place assoc) (e f : CacheEntry n) (a : Addr), s.cache.entryAt p = some e →
      e.address = some a → s.cache.entryAt q = some f → f.address = some a → p = q) ∧
    (∀ (p : Place assoc) (e : CacheEntry n) (a : Addr), s.cache.entryAt p = some e →
      e.address = some a → s.cache.getDirectoryEntry g a = (some p, s.cache)) ∧
    (∀ (set : Nat) (candidates : List (Fin assoc)) (i : Fin assoc) (a : Addr),
      s.pickCandidate set candidates = some i → (s.cache.ways set i).address = some a →
      s.queues a = []) ∧
    (∀ (a : Addr) (info : DirectoryEntry n) (acts : List (CntlrAct n)) (s' : DirectoryCntlr n assoc),
      s.HoldsReplaced a info → s.runFrom g acts = .ok s' →
      s'.HoldsReplaced a (acts.foldl (written a) info) ∨ NullifiedIn g s a acts) ∧
    (∀ (a : Addr) (info : DirectoryEntry n) (act : CntlrAct n) (s' : DirectoryCntlr n assoc),
      s.HoldsWay a info → s.step g act = .ok s' →
      s'.HoldsWay a (written a info act) ∨
        (s.queues a = [] ∧ (s'.HoldsReplaced a info ∨ info.dstate = .uncached))) := by
  have hwf := reachable_wf h
  exact ⟨fun p q e f a hp he hq hf => hwf.place_unique hp he hq hf,
    fun p e a hp he => hwf.getDirectoryEntry_live hp he,
    fun set candidates i a hi ha => pickCandidate_idle hi a ha,
    fun a info acts s' hh hs => hh.runFrom hwf hs, fun a info act s' hh hs => hh.step hwf hs⟩

theorem reachable_runFrom {acts : List (CntlrAct n)} (h : Reachable (machine n assoc g) s)
    (hs : s.runFrom g acts = .ok s') : Reachable (machine n assoc g) s' := by
  induction acts generalizing s with
  | nil =>
    cases hs
    exact h
  | cons act acts ih =>
    rw [runFrom] at hs
    cases hstep : s.step g act with
    | error f =>
      rw [hstep] at hs
      cases hs
    | ok s₁ =>
      rw [hstep] at hs
      obtain ⟨tr, hrun⟩ := h
      exact ih ⟨tr ++ [(act, ())], .next hrun trivial hstep⟩ hs

/-- A directory of one set and one way, before the first message. -/
def single : DirectoryCntlr 2 1 :=
  ⟨⟨fun _ _ => ⟨none, .new none⟩, fun _ => 0, []⟩, fun _ => []⟩

/-- A shared line at address 0 is replaced by one at address 64. -/
def replacing : List (CntlrAct 2) :=
  [.enqueue 0, .serve 0 none, .update 0 ⟨.shared, {0, 1}, none, none⟩, .complete 0,
   .enqueue 64, .serve 64 none]

theorem entries_unique_and_kept_replacing :
    ∃ s : DirectoryCntlr 2 1, single.runFrom ⟨1, 6⟩ replacing = .ok s ∧
      s.cache.getDirectoryEntry ⟨1, 6⟩ 0 = (some (.replaced 0), s.cache) ∧
      s.cache.getDirectoryEntry ⟨1, 6⟩ 64 = (some (.way 0 0), s.cache) := by
  have hplaces : ((single.runFrom ⟨1, 6⟩ replacing).toOption.map fun s =>
      ((s.cache.entryAt (.replaced 0)).map CacheEntry.address,
        (s.cache.entryAt (.way 0 0)).map CacheEntry.address)) =
        some (some (some 0), some (some 64)) := by
    rfl
  cases hrun : single.runFrom ⟨1, 6⟩ replacing with
  | error f =>
    rw [hrun] at hplaces
    cases hplaces
  | ok s =>
    rw [hrun] at hplaces
    simp only [Except.toOption, Option.map_some, Option.some.injEq, Prod.mk.injEq,
      Option.map_eq_some_iff] at hplaces
    obtain ⟨⟨e, he, he0⟩, f, hf, hf64⟩ := hplaces
    have hstart : Reachable (machine 2 1 ⟨1, 6⟩) single :=
      ⟨[], .start ⟨fun _ _ => rfl, rfl, rfl⟩⟩
    obtain ⟨-, hlive, -⟩ := entries_unique_and_kept ⟨1, 6⟩ s (reachable_runFrom hstart hrun)
    exact ⟨s, rfl, hlive _ e 0 he he0, hlive _ f 64 hf hf64⟩

end DirectoryCntlr

end Sniper.Coherence
