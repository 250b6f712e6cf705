import Sniper.Coherence.Messages
import Mathlib.Logic.Function.Basic
set_option autoImplicit false

/-! The cache controllers of one core: `CacheCntlr` over several levels. Locks, time and
counters are left out, except the lock a controller holds while it evicts. -/

namespace Sniper.Levels
open Sniper.Coherence (MsgType ShmemMsg)

/-- What a cache set does with a line that is inserted, or stored to and then too large for
its place: it keeps the line, evicts the lines of a superblock for it, or passes it on. -/
inductive Placement (Addr : Type) where
  | inPlace
  | evicts (victims : List Addr)
  | bypassed

/-- The controllers of a core: `m_next_cache_cntlr` and `m_prev_cache_cntlrs`, only
first-level caches having the same next level. The replacement decisions are those of
`place`, one after the other, and `depth` bounds the calls inside calls. -/
structure Hierarchy (ι Addr : Type) where
  next : ι → Option ι
  prevs : ι → List ι
  level : ι → Nat
  last : ι
  mem_prevs : ∀ {i j : ι}, j ∈ prevs i ↔ next j = some i
  level_lt : ∀ {i j : ι}, next j = some i → level j < level i
  level_le : ∀ i : ι, level i ≤ level last
  next_eq_none : ∀ {i : ι}, next i = none ↔ i = last
  prevs_of_sibling : ∀ {i j k : ι}, next j = some i → next k = some i → j ≠ k → prevs j = []
  prevs_nodup : ∀ i : ι, (prevs i).Nodup
  place : Nat → Placement Addr
  depth : Nat

/-- The assertions of the controllers. -/
inductive Fault where
  /-- the action is not possible in this state (not a branch of the source) -/
  | notEnabled
  /-- more calls inside calls than `depth` (not a branch of the source) -/
  | depthExceeded
  /-- a controller takes its lock again while it evicts -/
  | selfLock
  /-- `out_buf passed in but never written to` -/
  | outBufUnwritten
  /-- `MODIFIED data is about to get lost!` -/
  | modifiedLost
  /-- `Cannot change block status to` -/
  | cannotChange
  /-- `writethrough expected a hit at next-level cache but got miss` -/
  | missAtNext
  /-- `Got writeback for non-MODIFIED line` -/
  | notModified
  /-- `Evicted block must be either S or E` -/
  | evictedState
  /-- `Evicted address did not become invalid` -/
  | stillValid
  /-- `assert(old_cstate != CacheState::MODIFIED)` of `invalidateCacheBlock` -/
  | invalidateModified
  /-- `Attempting to insert a cache block that is already resident in memory` -/
  | blockResident
  /-- `setCacheState` of a line that was not placed -/
  | noBlock
  /-- `Could not find the line just re-placed` -/
  | lineNotFound
  /-- `Tried to read from next-level cache, but data is already gone` -/
  | dataGone
  /-- `Expected block to be there but it wasn't` -/
  | blockExpected
  /-- `Expected %lx to be valid in L1` -/
  | notValidInL1
  /-- a request beyond the last level -/
  | noNextLevel
  /-- the state assertions of `processExReqToDirectory` -/
  | requestState
  /-- `m_directory_waiters.front` of an empty queue -/
  | noWaiter
  /-- `Trying to upgrade a block that is now INV and no data in the shmem_msg` -/
  | upgradeNoData
  /-- `Trying to upgrade a block that is not SHARED_UPGRADING` -/
  | upgradeNotUpgrading
  /-- `Unrecognized msg type` -/
  | unrecognizedMsg
deriving DecidableEq, Repr

abbrev Outcome (α : Type) := Except Fault α

/-- A line of a cache, or of a `WritebackLines` vector. -/
structure Line (D : Type) where
  cstate : CacheState
  data : D
deriving DecidableEq

/-- `Core::mem_op_t`, a write with what it makes of the line's contents. -/
inductive MemOp (D : Type) where
  | read
  | readEx
  | write (store : D → D)

def MemOp.exclusive {D : Type} : MemOp D → Bool
  | .read => false
  | .readEx | .write _ => true

/-- `CacheDirectoryWaiter`: the first-level cache whose user thread waits, and its access. -/
structure Waiter (ι D : Type) where
  cache : ι
  op : MemOp D

/-- The accesses under way: `m_directory_waiters`, the address whose waiters the network
thread is serving, and what each user thread waits for. `written` records the contents
last given to each line, by a store or by the reply that brought it. -/
structure Accesses (ι Addr D : Type) where
  waiters : Addr → List (Waiter ι D)
  serving : Option Addr
  blocked : ι → Option Addr
  written : Addr → D

/-- The lines of every cache, `m_evicting_address` with the contents of `m_evicting_buf`,
the messages sent to the directory, and how many placements have been decided. -/
structure Core (ι Addr D : Type) where
  lines : ι → Addr → Option (Line D)
  evicting : ι → Option (Addr × D)
  sent : List (Addr × ShmemMsg D)
  placements : Nat
  accesses : Accesses ι Addr D

variable {ι Addr D : Type}

/-- `operationPermissibleinCache`. -/
def permissible (op : MemOp D) : Option (Line D) → Bool
  | none => false
  | some l => if op.exclusive then l.cstate.writable else l.cstate.readable

namespace Core

variable [DecidableEq ι] [DecidableEq Addr]

def setLine (s : Core ι Addr D) (i : ι) (a : Addr) (line : Option (Line D)) : Core ι Addr D :=
  { s with lines := fun j b => if j = i ∧ b = a then line else s.lines j b }

/-- `setCState` on the block of a line; a line that is gone stays gone. -/
def setCState (s : Core ι Addr D) (i : ι) (a : Addr) (cstate : CacheState) : Core ι Addr D :=
  s.setLine i a ((s.lines i a).map fun l => { l with cstate := cstate })

def setEvicting (s : Core ι Addr D) (i : ι) (buf : Option (Addr × D)) : Core ι Addr D :=
  { s with evicting := Function.update s.evicting i buf }

def send (s : Core ι Addr D) (a : Addr) (msgType : MsgType) (dataBuf : Option D) :
    Core ι Addr D :=
  { s with sent := s.sent ++ [(a, ⟨msgType, dataBuf⟩)] }

/-- The lines of a superblock leave a cache for the `WritebackLines` vector. -/
def takeOut (i : ι) : List Addr → Core ι Addr D → List (Addr × Line D) × Core ι Addr D
  | [], s => ([], s)
  | a :: rest, s =>
    match s.lines i a with
    | none => takeOut i rest s
    | some l =>
      let (writebacks, s) := takeOut i rest (s.setLine i a none)
      ((a, l) :: writebacks, s)

/-- `CacheSet::insertLine` of a line the cache does not have. -/
def insertLine (place : Nat → Placement Addr) (i : ι) (a : Addr) (l : Line D)
    (s : Core ι Addr D) : List (Addr × Line D) × Core ι Addr D :=
  let placed := { s with placements := s.placements + 1 }
  match place s.placements with
  | .inPlace => ([], placed.setLine i a (some l))
  | .evicts victims =>
    let (writebacks, s) := takeOut i victims placed
    (writebacks, s.setLine i a (some l))
  | .bypassed => ([(a, l)], placed)

/-- `CacheSet::writeLine`: the line is stored in place, or leaves its place and is
inserted again. -/
def writeLine (place : Nat → Placement Addr) (i : ι) (a : Addr) (l : Line D)
    (s : Core ι Addr D) : List (Addr × Line D) × Core ι Addr D :=
  insertLine place i a l (s.setLine i a none)

/-- `invalidateCacheBlock`. -/
def invalidateCacheBlock (s : Core ι Addr D) (i : ι) (a : Addr) : Outcome (Core ι Addr D) :=
  match s.lines i a with
  | none => .ok s
  | some l => if l.cstate = .modified then .error .invalidateModified else .ok (s.setLine i a none)

/-- `retrieveCacheBlock`. -/
def retrieveCacheBlock (s : Core ι Addr D) (i : ι) (a : Addr) : Outcome D :=
  match s.lines i a with
  | none => .error .blockExpected
  | some l => .ok l.data

end Core

/-- The calls of one controller by another: `updateCacheBlock`, with whether an `out_buf`
is passed, and `writeCacheBlock` of a whole line. -/
inductive Call (ι Addr D : Type) where
  | update (self : ι) (a : Addr) (newCState : CacheState) (outBuf : Bool)
  | write (self : ι) (a : Addr) (data : D)

/-- What carries out a call: the state after it, and the `out_buf` it filled. -/
abbrev Handler (ι Addr D : Type) :=
  Call ι Addr D → Core ι Addr D → Outcome (Option D × Core ι Addr D)

/-- What happens to a core: an access of its user threads, a message of the directory (with
the program's memory and the contents of a buffer nobody wrote), or the network thread
going on with the waiters. -/
inductive Event (ι Addr D : Type) where
  | memOp (cache : ι) (op : MemOp D) (a : Addr)
  | message (a : Addr) (msg : ShmemMsg D) (memory unwritten : D)
  | finishWaiter

namespace Hierarchy

variable [DecidableEq ι] [DecidableEq Addr] (H : Hierarchy ι Addr)

section Handlers

variable (handler : Handler ι Addr D)

/-- `updateCacheBlock` of one previous-level cache after the other. -/
def updatePrevs (prevs : List ι) (a : Addr) (newCState : CacheState) (s : Core ι Addr D) :
    Outcome (Core ι Addr D) :=
  prevs.foldlM (fun s prev => Prod.snd <$> handler (.update prev a newCState false) s) s

/-- The MODIFIED line of `updateCacheBlock` goes to the next level, or into the `out_buf`. -/
def writeBack (self : ι) (a : Addr) (data : D) (outBuf : Bool) (s : Core ι Addr D) :
    Outcome (Core ι Addr D) :=
  match H.next self with
  | some up => do
    let (_, s) ← handler (.write up a data) s
    return s.setCState self a .shared
  | none => if outBuf then .ok (s.setCState self a .shared) else .error .modifiedLost

/-- The new state of `updateCacheBlock`, with the contents for the `out_buf`. -/
def changeCState (self : ι) (a : Addr) (newCState : CacheState) (outBuf : Bool)
    (written : Option D) (s : Core ι Addr D) : Outcome (Option D × Core ι Addr D) :=
  match newCState with
  | .invalid => do
    let out ← if outBuf then some <$> s.retrieveCacheBlock self a else .ok none
    return (out, ← s.invalidateCacheBlock self a)
  | .shared => do
    let out ← if outBuf then some <$> s.retrieveCacheBlock self a else .ok none
    return (out, s.setCState self a .shared)
  | .modified =>
    if outBuf = true ∧ written = none then .error .outBufUnwritten
    else .ok (written, s.setCState self a .modified)
  | .sharedUpgrading | .exclusive | .owned => .error .cannotChange

def updateOwn (self : ι) (a : Addr) (newCState : CacheState) (outBuf : Bool)
    (s : Core ι Addr D) : Outcome (Option D × Core ι Addr D) :=
  match s.lines self a with
  | none => if outBuf then .error .outBufUnwritten else .ok (none, s)
  | some l =>
    if l.cstate = newCState ∧ outBuf = true then .ok (some l.data, s)
    else if (s.evicting self).isSome then .error .selfLock
    else if l.cstate = .modified then do
      let s ← H.writeBack handler self a l.data outBuf s
      let written := if outBuf = true ∧ H.next self = none then some l.data else none
      changeCState self a newCState outBuf written s
    else changeCState self a newCState outBuf none s

/-- The previous levels first, they write MODIFIED contents back to this one. -/
def updateCacheBlock (self : ι) (a : Addr) (newCState : CacheState) (outBuf : Bool)
    (s : Core ι Addr D) : Outcome (Option D × Core ι Addr D) := do
  let s ← updatePrevs handler (H.prevs self) a newCState s
  H.updateOwn handler self a newCState outBuf s

/-- The previous levels give up an evicted line; a MODIFIED copy goes to the evicting
buffer. -/
def backInvalidate (self : ι) (a : Addr) (data : D) (s : Core ι Addr D) :
    Outcome (D × Core ι Addr D) :=
  if H.prevs self = [] then .ok (data, s)
  else do
    let s ← updatePrevs handler (H.prevs self) a .invalid (s.setEvicting self (some (a, data)))
    let buf := match s.evicting self with
      | some (_, buf) => buf
      | none => data
    return (buf, s.setEvicting self none)

/-- An evicted line leaves for the next level or for the directory. -/
def passOn (self : ι) (a : Addr) (cstate : CacheState) (data : D) (s : Core ι Addr D) :
    Outcome (Core ι Addr D) :=
  match H.next self with
  | some up =>
    if cstate = .modified then Prod.snd <$> handler (.write up a data) s else .ok s
  | none =>
    if cstate = .modified then .ok (s.send a .flushRep (some data))
    else if cstate = .shared ∨ cstate = .exclusive then .ok (s.send a .invRep none)
    else .error .evictedState

def handleWriteback (self : ι) (s : Core ι Addr D) (wb : Addr × Line D) :
    Outcome (Core ι Addr D) := do
  if (s.evicting self).isSome then .error .selfLock
  else
    let (data, s) ← H.backInvalidate handler self wb.1 wb.2.data s
    let s ← H.passOn handler self wb.1 wb.2.cstate data s
    if (s.lines self wb.1).isSome then .error .stillValid else .ok s

def handleWritebacks (self : ι) (writebacks : List (Addr × Line D)) (s : Core ι Addr D) :
    Outcome (Core ι Addr D) :=
  writebacks.foldlM (H.handleWriteback handler self) s

/-- A line that is being evicted takes the contents into the evicting buffer. -/
def writeCacheBlock (self : ι) (a : Addr) (data : D) (s : Core ι Addr D) :
    Outcome (Core ι Addr D) :=
  if (s.evicting self).map Prod.fst = some a then .ok (s.setEvicting self (some (a, data)))
  else
    match s.lines self a with
    | none => .error .missAtNext
    | some l =>
      let (writebacks, s) := s.writeLine H.place self a { l with data := data }
      if l.cstate = .modified then H.handleWritebacks handler self writebacks s
      else .error .notModified

end Handlers

/-- Calls with at most `n` calls inside calls. -/
def call : Nat → Handler ι Addr D
  | 0 => fun _ _ => .error .depthExceeded
  | n + 1 => fun c s =>
    match c with
    | .update self a newCState outBuf =>
      H.updateCacheBlock (call n) self a newCState outBuf s
    | .write self a data => do
      let s ← H.writeCacheBlock (call n) self a data s
      return (none, s)

/-- `insertCacheBlock`. -/
def insertCacheBlock (self : ι) (a : Addr) (cstate : CacheState) (data : D)
    (s : Core ι Addr D) : Outcome (Core ι Addr D) :=
  if (s.lines self a).isSome then .error .blockResident
  else
    let (writebacks, s) := s.insertLine H.place self a ⟨cstate, data⟩
    if (s.lines self a).isNone then .error .noBlock
    else H.handleWritebacks (H.call H.depth) self writebacks s

/-- `accessCache`, with the contents a load returns. -/
def accessCache (self : ι) (a : Addr) (op : MemOp D) (s : Core ι Addr D) :
    Outcome (Option D × Core ι Addr D) :=
  match s.lines self a, op with
  | none, _ => .ok (none, s)
  | some l, .read | some l, .readEx => .ok (some l.data, s)
  | some l, .write store => do
    let (writebacks, s) := s.writeLine H.place self a { l with data := store l.data }
    if (s.lines self a).isNone then .error .lineNotFound
    else
      let s ← H.handleWritebacks (H.call H.depth) self writebacks
        { s with accesses := { s.accesses with
            written := Function.update s.accesses.written a (store (s.accesses.written a)) } }
      return (none, s)

/-- `copyDataFromNextLevel`. -/
def copyDataFromNextLevel (self up : ι) (op : MemOp D) (a : Addr) (s : Core ι Addr D) :
    Outcome (Core ι Addr D) :=
  match s.lines up a with
  | none => .error .dataGone
  | some l =>
    if permissible op (some l) = false then .error .dataGone
    else if (s.lines self a).isSome then
      Prod.snd <$> H.call H.depth (.update self a l.cstate false) s
    else H.insertCacheBlock self a l.cstate l.data s

def processUpgradeReqToDirectory (a : Addr) (s : Core ι Addr D) : Core ι Addr D :=
  (s.setCState H.last a .sharedUpgrading).send a .upgradeReq none

/-- Only the first waiter of an address sends a request. -/
def initiateDirectoryAccess (waiter : Waiter ι D) (a : Addr) (s : Core ι Addr D) :
    Outcome (Core ι Addr D) :=
  let queued := { s with accesses := { s.accesses with
    waiters := Function.update s.accesses.waiters a (s.accesses.waiters a ++ [waiter]) } }
  match s.accesses.waiters a with
  | _ :: _ => .ok queued
  | [] =>
    if waiter.op.exclusive then
      match s.lines H.last a with
      | none => .ok (queued.send a .exReq none)
      | some l =>
        if l.cstate = .shared then .ok (H.processUpgradeReqToDirectory a queued)
        else .error .requestState
    else .ok (queued.send a .shReq none)

/-- The state the previous levels other than the requester get when an access hits. -/
def snoopState (op : MemOp D) (cstate : CacheState) : Option CacheState :=
  if op.exclusive then some .invalid
  else if cstate = .modified ∨ cstate = .exclusive then some .shared
  else none

/-- The previous levels other than the requester. -/
def updateSiblings (requester self : ι) (a : Addr) (newCState : CacheState)
    (s : Core ι Addr D) : Outcome (Core ι Addr D) :=
  updatePrevs (H.call H.depth) ((H.prevs self).filter (· ≠ requester)) a newCState s

/-- A hit of `processShmemReqFromPrevCache`. -/
def snoop (requester self : ι) (op : MemOp D) (a : Addr) (cstate : CacheState)
    (s : Core ι Addr D) : Outcome (Core ι Addr D) :=
  match snoopState op cstate with
  | some newCState => H.updateSiblings requester self a newCState s
  | none => .ok s

/-- A miss of `processShmemReqFromPrevCache` at the last level: an EXCLUSIVE line becomes
MODIFIED, anything else takes the directory. -/
def missAtLast (requester self : ι) (waiter : Waiter ι D) (a : Addr) (s : Core ι Addr D) :
    Outcome (Bool × Core ι Addr D) :=
  if (s.lines self a).map Line.cstate = some .exclusive then do
    let s ← H.updateSiblings requester self a .invalid s
    let s := s.setCState self a .modified
    let _ ← s.retrieveCacheBlock self a
    return (true, s)
  else do
    let s ← H.initiateDirectoryAccess waiter a s
    return (false, s)

/-- The next level handles the request, this one copies what it finds there. -/
def fetch (request : Core ι Addr D → Outcome (Bool × Core ι Addr D)) (self up : ι) (op : MemOp D)
    (a : Addr) (s : Core ι Addr D) : Outcome (Bool × Core ι Addr D) := do
  let (hit, s) ← request s
  if hit then
    let s ← H.copyDataFromNextLevel self up op a s
    let _ ← s.retrieveCacheBlock self a
    return (true, s)
  else return (false, s)

/-- `processShmemReqFromPrevCache`, with whether it found the line (anything but
`HitWhere::MISS`). -/
def processShmemReqFromPrevCache : Nat → ι → ι → Waiter ι D → Addr → Core ι Addr D →
    Outcome (Bool × Core ι Addr D)
  | 0, _, _, _, _, _ => .error .depthExceeded
  | n + 1, requester, self, waiter, a, s =>
    match s.lines self a with
    | some l =>
      if permissible waiter.op (some l) then do
        let s ← H.snoop requester self waiter.op a l.cstate s
        let _ ← s.retrieveCacheBlock self a
        return (true, s)
      else do
        -- a write on a SHARED block: upgrade
        let s ← if l.cstate = .shared then H.updateSiblings requester self a .invalid s else .ok s
        match H.next self with
        | some up => do
          let s ← s.invalidateCacheBlock self a
          H.fetch (processShmemReqFromPrevCache n self up waiter a) self up waiter.op a s
        | none => H.missAtLast requester self waiter a s
    | none =>
      match H.next self with
      | some up => H.fetch (processShmemReqFromPrevCache n self up waiter a) self up waiter.op a s
      | none => H.missAtLast requester self waiter a s

/-- The end of `processMemOpFromCore` once the next level has the line. -/
def fillAndAccess (self up : ι) (op : MemOp D) (a : Addr) (s : Core ι Addr D) :
    Outcome (Option D × Core ι Addr D) := do
  let s ← H.copyDataFromNextLevel self up op a s
  if permissible op (s.lines self a) then H.accessCache self a op s else .error .notValidInL1

/-- `processMemOpFromCore` up to its end, or until it waits for the directory. -/
def processMemOpFromCore (self : ι) (op : MemOp D) (a : Addr) (s : Core ι Addr D) :
    Outcome (Option D × Core ι Addr D) :=
  if H.prevs self ≠ [] ∨ (s.accesses.blocked self).isSome then .error .notEnabled
  else if permissible op (s.lines self a) then H.accessCache self a op s
  else
    match H.next self with
    | none => .error .noNextLevel
    | some up => do
      let s ← s.invalidateCacheBlock self a
      let (hit, s) ← H.processShmemReqFromPrevCache H.depth self up ⟨self, op⟩ a s
      if hit then H.fillAndAccess self up op a s
      else return (none, { s with accesses := { s.accesses with
        blocked := Function.update s.accesses.blocked self (some a) } })

/-- `processMemOpFromCore` after the network thread has woken its user thread. -/
def resume (waiter : Waiter ι D) (a : Addr) (s : Core ι Addr D) :
    Outcome (Option D × Core ι Addr D) :=
  match H.next waiter.cache with
  | none => .error .noNextLevel
  | some up => do
    let (hit, s) ← H.processShmemReqFromPrevCache H.depth waiter.cache up waiter a s
    if hit then H.fillAndAccess waiter.cache up waiter.op a s else .error .dataGone

/-- One round of the loop over the waiters in `handleMsgFromDramDirectory`: upgrade for an
exclusive waiter that finds the line SHARED, or wake the waiter. -/
def serveWaiters (a : Addr) (s : Core ι Addr D) : Outcome (Option D × Core ι Addr D) :=
  match s.accesses.waiters a with
  | [] => .ok (none, { s with accesses := { s.accesses with serving := none } })
  | waiter :: _ =>
    if waiter.op.exclusive = true ∧ (s.lines H.last a).map Line.cstate = some .shared then
      .ok (none, H.processUpgradeReqToDirectory a
        { s with accesses := { s.accesses with serving := none } })
    else
      H.resume waiter a { s with accesses := { s.accesses with
        serving := some a
        blocked := Function.update s.accesses.blocked waiter.cache none } }

/-- The network thread is back from the waiter it woke. -/
def finishWaiter (s : Core ι Addr D) : Outcome (Option D × Core ι Addr D) :=
  match s.accesses.serving with
  | none => .error .notEnabled
  | some a => H.serveWaiters a { s with accesses := { s.accesses with
      waiters := Function.update s.accesses.waiters a (s.accesses.waiters a).tail } }

/-- `processExRepFromDramDirectory` and `processShRepFromDramDirectory`: the line is
inserted with the program's memory, whatever the message carries. -/
def processRepFromDramDirectory (a : Addr) (cstate : CacheState) (memory : D)
    (s : Core ι Addr D) : Outcome (Core ι Addr D) :=
  H.insertCacheBlock H.last a cstate memory
    { s with accesses := { s.accesses with
      written := Function.update s.accesses.written a memory } }

/-- `processUpgradeRepFromDramDirectory`. -/
def processUpgradeRepFromDramDirectory (a : Addr) (dataBuf : Option D) (s : Core ι Addr D) :
    Outcome (Core ι Addr D) :=
  match s.lines H.last a with
  | none =>
    if dataBuf.isNone then .error .upgradeNoData
    else Prod.snd <$> H.call H.depth (.update H.last a .modified true) s
  | some l =>
    if l.cstate = .sharedUpgrading then
      Prod.snd <$> H.call H.depth (.update H.last a .modified false) s
    else .error .upgradeNotUpgrading

def processInvReqFromDramDirectory (a : Addr) (s : Core ι Addr D) : Outcome (Core ι Addr D) :=
  match s.lines H.last a with
  | none => .ok s
  | some _ => do
    let (_, s) ← H.call H.depth (.update H.last a .invalid false) s
    return s.send a .invRep none

def processFlushReqFromDramDirectory (a : Addr) (s : Core ι Addr D) : Outcome (Core ι Addr D) :=
  match s.lines H.last a with
  | none => .ok s
  | some _ => do
    let (out, s) ← H.call H.depth (.update H.last a .invalid true) s
    return s.send a .flushRep out

/-- A SHARED_UPGRADING line is not touched, so the buffer sent with the reply was never
written. -/
def processWbReqFromDramDirectory (a : Addr) (unwritten : D) (s : Core ι Addr D) :
    Outcome (Core ι Addr D) :=
  match s.lines H.last a with
  | none => .ok s
  | some l =>
    if l.cstate = .sharedUpgrading then .ok (s.send a .wbRep (some unwritten))
    else do
      let (out, s) ← H.call H.depth (.update H.last a .shared true) s
      return s.send a .wbRep out

/-- A reply needs a waiter, and ends in the loop over the waiters. -/
def processReply (a : Addr) (reply : Core ι Addr D → Outcome (Core ι Addr D))
    (s : Core ι Addr D) : Outcome (Option D × Core ι Addr D) :=
  match s.accesses.waiters a with
  | [] => .error .noWaiter
  | _ :: _ => do
    let s ← reply s
    H.serveWaiters a s

/-- `handleMsgFromDramDirectory`. The network thread handles no message while it serves
waiters. -/
def handleMsgFromDramDirectory (a : Addr) (msg : ShmemMsg D) (memory unwritten : D)
    (s : Core ι Addr D) : Outcome (Option D × Core ι Addr D) :=
  if s.accesses.serving.isSome then .error .notEnabled
  else
    match msg.msgType with
    | .exRep => H.processReply a (H.processRepFromDramDirectory a .exclusive memory) s
    | .shRep => H.processReply a (H.processRepFromDramDirectory a .shared memory) s
    | .upgradeRep => H.processReply a (H.processUpgradeRepFromDramDirectory a msg.dataBuf) s
    | .invReq => do return (none, ← H.processInvReqFromDramDirectory a s)
    | .flushReq => do return (none, ← H.processFlushReqFromDramDirectory a s)
    | .wbReq => do return (none, ← H.processWbReqFromDramDirectory a unwritten s)
    | _ => .error .unrecognizedMsg

/-- One event, with the contents a load returned. -/
def step (s : Core ι Addr D) : Event ι Addr D → Outcome (Option D × Core ι Addr D)
  | .memOp cache op a => H.processMemOpFromCore cache op a s
  | .message a msg memory unwritten => H.handleMsgFromDramDirectory a msg memory unwritten s
  | .finishWaiter => H.finishWaiter s

end Hierarchy

end Sniper.Levels
