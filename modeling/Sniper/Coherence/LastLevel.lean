import Sniper.Coherence.Messages
set_option autoImplicit false

namespace Sniper.Coherence

/-- One address at a last-level cache: the line's state and contents (the private levels
above it included), the queue `m_directory_waiters` with the `exclusive` flag of each
waiter, and whether the network thread has woken the first waiter and not yet removed it. -/
structure Cache (D : Type) where
  cstate : CacheState
  data : D
  waiters : List Bool
  serving : Bool
deriving DecidableEq

/-- A cache after a step, with the messages it sent to the directory. -/
abbrev CacheStep (D : Type) := Except Fault (Cache D × List (ShmemMsg D))

namespace Cache

variable {D : Type}

def processExReqToDirectory (cache : Cache D) : CacheStep D :=
  if cache.cstate = .invalid then .ok (cache, [⟨.exReq, none⟩]) else .error .requestState

def processUpgradeReqToDirectory (cache : Cache D) : CacheStep D :=
  if cache.cstate = .shared then
    .ok ({ cache with cstate := .sharedUpgrading }, [⟨.upgradeReq, none⟩])
  else .error .requestState

def processShReqToDirectory (cache : Cache D) : CacheStep D :=
  .ok (cache, [⟨.shReq, none⟩])

/-- Only the first waiter of an address sends a request. -/
def initiateDirectoryAccess (cache : Cache D) (exclusive : Bool) : CacheStep D :=
  let queued := { cache with waiters := cache.waiters ++ [exclusive] }
  match cache.waiters with
  | _ :: _ => .ok (queued, [])
  | [] =>
    if exclusive then
      if cache.cstate = .shared then queued.processUpgradeReqToDirectory
      else queued.processExReqToDirectory
    else queued.processShReqToDirectory

def read (cache : Cache D) : CacheStep D :=
  if cache.cstate.readable then .ok (cache, []) else cache.initiateDirectoryAccess false

/-- A write makes an EXCLUSIVE line MODIFIED without telling the directory. -/
def write (cache : Cache D) : CacheStep D :=
  if cache.cstate.writable then .ok (cache, [])
  else if cache.cstate = .exclusive then .ok ({ cache with cstate := .modified }, [])
  else cache.initiateDirectoryAccess true

/-- New contents for a line that may be written. -/
def store (cache : Cache D) (data : D) : CacheStep D :=
  if cache.cstate.writable then .ok ({ cache with data := data }, [])
  else .error .notEnabled

/-- `handleWritebacks` for this line; the replacement never selects a SHARED_UPGRADING
line. -/
def evict (cache : Cache D) : CacheStep D :=
  match cache.cstate with
  | .invalid | .sharedUpgrading => .error .notEnabled
  | .modified => .ok ({ cache with cstate := .invalid }, [⟨.flushRep, some cache.data⟩])
  | .shared | .exclusive => .ok ({ cache with cstate := .invalid }, [⟨.invRep, none⟩])
  | .owned => .error .evictedState

/-- One round of the loop over the waiters in `handleMsgFromDramDirectory`: upgrade for an
exclusive waiter that finds the line SHARED, or wake the waiter, which repeats its access. -/
def serveWaiters (cache : Cache D) : CacheStep D :=
  match cache.waiters with
  | [] => .ok ({ cache with serving := false }, [])
  | exclusive :: _ =>
    if exclusive = true ∧ cache.cstate = .shared then
      { cache with serving := false }.processUpgradeReqToDirectory
    else if exclusive then
      if cache.cstate = .exclusive ∨ cache.cstate = .modified then
        .ok ({ cache with cstate := .modified, serving := true }, [])
      else .error .dataGone
    else if cache.cstate.readable then .ok ({ cache with serving := true }, [])
    else .error .dataGone

/-- The network thread is back from the waiter it woke. -/
def finishWaiter (cache : Cache D) : CacheStep D :=
  if cache.serving then { cache with waiters := cache.waiters.tail }.serveWaiters
  else .error .notEnabled

/-- `insertCacheBlock`. -/
def insertCacheBlock (cache : Cache D) (cstate : CacheState) (data : D) :
    Except Fault (Cache D) :=
  if cache.cstate = .invalid then .ok { cache with cstate := cstate, data := data }
  else .error .blockResident

/-- The state a reply leaves the line in. `unwritten` stands for a buffer the reply does
not carry. -/
def processReply (cache : Cache D) (msg : ShmemMsg D) (unwritten : D) :
    Except Fault (Cache D) :=
  match msg.msgType with
  | .exRep => cache.insertCacheBlock .exclusive (msg.dataBuf.getD unwritten)
  | .shRep => cache.insertCacheBlock .shared (msg.dataBuf.getD unwritten)
  | .upgradeRep =>
    if cache.cstate = .invalid then .error .upgradeNoData
    else if cache.cstate = .sharedUpgrading then .ok { cache with cstate := .modified }
    else .error .upgradeNotUpgrading
  | _ => .error .unrecognizedMsg

def processInvReqFromDramDirectory (cache : Cache D) : CacheStep D :=
  match cache.cstate with
  | .invalid => .ok (cache, [])
  | .modified => .error .modifiedLost
  | .shared | .sharedUpgrading | .exclusive | .owned =>
    .ok ({ cache with cstate := .invalid }, [⟨.invRep, none⟩])

def processFlushReqFromDramDirectory (cache : Cache D) : CacheStep D :=
  match cache.cstate with
  | .invalid => .ok (cache, [])
  | .shared | .sharedUpgrading | .exclusive | .owned | .modified =>
    .ok ({ cache with cstate := .invalid }, [⟨.flushRep, some cache.data⟩])

/-- A SHARED_UPGRADING line is not touched, so the buffer sent with the reply was never
written. -/
def processWbReqFromDramDirectory (cache : Cache D) (unwritten : D) : CacheStep D :=
  match cache.cstate with
  | .invalid => .ok (cache, [])
  | .sharedUpgrading => .ok (cache, [⟨.wbRep, some unwritten⟩])
  | .shared | .exclusive | .owned | .modified =>
    .ok ({ cache with cstate := .shared }, [⟨.wbRep, some cache.data⟩])

/-- A reply needs a waiter, and ends in the loop over the waiters. -/
def processReplyAndServe (cache : Cache D) (msg : ShmemMsg D) (unwritten : D) : CacheStep D :=
  if cache.waiters = [] then .error .noWaiter
  else
    match cache.processReply msg unwritten with
    | .error fault => .error fault
    | .ok replied => replied.serveWaiters

def handleMsgFromDramDirectory (cache : Cache D) (msg : ShmemMsg D) (unwritten : D) :
    CacheStep D :=
  match msg.msgType with
  | .exRep | .shRep | .upgradeRep => cache.processReplyAndServe msg unwritten
  | .invReq => cache.processInvReqFromDramDirectory
  | .flushReq => cache.processFlushReqFromDramDirectory
  | .wbReq => cache.processWbReqFromDramDirectory unwritten
  | _ => .error .unrecognizedMsg

end Cache

end Sniper.Coherence
