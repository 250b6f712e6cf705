import Sniper.Cache.BlockInfo
import Mathlib.Data.Finset.Card
import Mathlib.Data.Fintype.Card
import Mathlib.Data.List.FinRange
set_option autoImplicit false

namespace Sniper.Coherence

inductive Protocol where
  | msi | mesi | mesif
deriving DecidableEq, Repr

inductive DirectoryType where
  | fullMap | limitedNoBroadcast
deriving DecidableEq, Repr

/-- `DirectoryState::dstate_t`; no handler ever stores `owned`. -/
inductive DirectoryState where
  | uncached | shared | owned | modified | exclusive
deriving DecidableEq, Repr

/-- `ShmemMsg::msg_t`. -/
inductive MsgType where
  | exReq | shReq | upgradeReq | invReq | flushReq | wbReq
  | exRep | shRep | upgradeRep | invRep | flushRep | wbRep
  | nullifyReq | dramReadReq | dramWriteReq | dramReadRep
deriving DecidableEq, Repr

namespace MsgType

/-- The requests a cache may queue at the directory. -/
def isRequest : MsgType → Bool
  | .exReq | .shReq | .upgradeReq => true
  | _ => false

/-- The replies that answer a request. -/
def isReply : MsgType → Bool
  | .exRep | .shRep | .upgradeRep => true
  | _ => false

/-- What the directory may ask of a cache. -/
def isDemand : MsgType → Bool
  | .invReq | .flushReq | .wbReq => true
  | _ => false

/-- Which replies may answer a request. -/
def answeredBy : MsgType → MsgType → Bool
  | .exReq, .exRep => true
  | .shReq, .shRep => true
  | .shReq, .exRep => true
  | .upgradeReq, .upgradeRep => true
  | .upgradeReq, .exRep => true
  | _, _ => false

end MsgType

/-- A message: its type and its data payload (`NULL` for most types). -/
structure ShmemMsg (D : Type) where
  msgType : MsgType
  dataBuf : Option D
deriving DecidableEq

/-- What identifies a queued request. -/
structure ReqKey (n : Nat) where
  msgType : MsgType
  requester : Fin n
deriving DecidableEq

/-- `ShmemReq` with the local copy of its message. -/
structure ShmemReq (D : Type) (n : Nat) where
  key : ReqKey n
  dataBuf : Option D
  waitForData : Bool
  forwardingFrom : Option (Fin n)
deriving DecidableEq

/-- A request as the constructor leaves it. -/
def ShmemReq.new {D : Type} {n : Nat} (msgType : MsgType) (requester : Fin n) : ShmemReq D n :=
  ⟨⟨msgType, requester⟩, none, false, none⟩

/-- The assertions and error branches of the two controllers. -/
inductive Fault where
  /-- the action is not possible in this state (not a branch of the source) -/
  | notEnabled
  /-- `assert(directory_entry)` -/
  | noDirectoryEntry
  /-- `assert(cached_data_buf == NULL)` -/
  | cachedDataBuf
  /-- a message addressed to `INVALID_CORE_ID` -/
  | noReceiver
  /-- the assertions of `addSharer`, `removeSharer`, `setOwner` and `getOneSharer` -/
  | sharerPresent
  | sharerAbsent
  | ownerNotSharer
  | noSharers
  /-- `assert(add_result == true)` -/
  | addSharerFailed
  /-- `assert(requester != directory_entry->getOwner())` of a SH_REQ in EXCLUSIVE -/
  | requesterIsOwner
  /-- `assert(directory_entry->getOwner() == requester)` of an UPGRADE_REQ -/
  | requesterNotOwner
  /-- `Unsupported Directory State` -/
  | unsupportedState
  /-- the size assertions on the request queue -/
  | queueEmpty
  /-- `Unrecognized Request` of `processNextReqFromL2Cache` -/
  | unrecognizedRequest
  /-- `Unrecognized Shmem Msg Type` -/
  | unrecognizedMsg
  /-- the state assertions of `processDRAMReply` -/
  | dramReplyState
  /-- `Unsupported request type` of `processDRAMReply` -/
  | dramReplyType
  /-- `Ooops`: an INV_REP in a state other than SHARED and EXCLUSIVE -/
  | invRepState
  /-- `assert(directory_entry->hasSharer(sender))` of a FLUSH_REP -/
  | flushRepNotSharer
  /-- sharers left after a FLUSH_REP in a state other than SHARED -/
  | flushRepState
  /-- `assert(directory_entry->hasSharer(sender))` of a WB_REP -/
  | wbRepNotSharer
  /-- the request a WB_REP finds at the head of the queue -/
  | wbRepType
  /-- `Should not reach here`: a WB_REP with no request queued -/
  | wbRepNoRequest
  /-- `m_directory_waiters.front` of an empty queue -/
  | noWaiter
  /-- `Attempting to insert a cache block that is already resident in memory` -/
  | blockResident
  /-- `Trying to upgrade a block that is now INV and no data in the shmem_msg` -/
  | upgradeNoData
  /-- `Trying to upgrade a block that is not SHARED_UPGRADING` -/
  | upgradeNotUpgrading
  /-- `MODIFIED data is about to get lost!` -/
  | modifiedLost
  /-- the state assertions of `processExReqToDirectory` and `processUpgradeReqToDirectory` -/
  | requestState
  /-- `Tried to read in next-level cache, but data is already gone` -/
  | dataGone
  /-- `Evicted block must be either S or E` -/
  | evictedState
deriving DecidableEq, Repr

/-- What a directory step does that is visible outside: queue operations, the first
processing of a request, and the messages sent. -/
inductive Event (D : Type) (n : Nat) where
  | enqueue (req : ReqKey n)
  | dispatch (req : ReqKey n)
  | dequeue (req : ReqKey n)
  | send (receiver : Fin n) (msg : ShmemMsg D)
  | sendDram (msg : ShmemMsg D)
deriving DecidableEq

/-- The messages of a log addressed to one cache, in order. -/
def sentTo {D : Type} {n : Nat} (c : Fin n) (log : List (Event D n)) : List (ShmemMsg D) :=
  log.filterMap fun
    | .send receiver msg => if receiver = c then some msg else none
    | _ => none

/-- The messages of a log addressed to the DRAM node, in order. -/
def sentToDram {D : Type} {n : Nat} (log : List (Event D n)) : List (ShmemMsg D) :=
  log.filterMap fun
    | .sendDram msg => some msg
    | _ => none

@[simp] theorem sentTo_nil {D : Type} {n : Nat} (c : Fin n) :
    sentTo c ([] : List (Event D n)) = [] := rfl

@[simp] theorem sentTo_append {D : Type} {n : Nat} (c : Fin n) (l m : List (Event D n)) :
    sentTo c (l ++ m) = sentTo c l ++ sentTo c m := by
  simp [sentTo]

@[simp] theorem sentToDram_nil {D : Type} {n : Nat} :
    sentToDram ([] : List (Event D n)) = [] := rfl

@[simp] theorem sentToDram_append {D : Type} {n : Nat} (l m : List (Event D n)) :
    sentToDram (l ++ m) = sentToDram l ++ sentToDram m := by
  simp [sentToDram]

theorem mem_sentTo {D : Type} {n : Nat} {c : Fin n} {msg : ShmemMsg D} {log : List (Event D n)} :
    msg ∈ sentTo c log ↔ .send c msg ∈ log := by
  simp only [sentTo, List.mem_filterMap]
  constructor
  · rintro ⟨event, hmem, he⟩
    cases event with
    | send receiver m =>
      simp only [Option.ite_none_right_eq_some, Option.some.injEq] at he
      obtain ⟨rfl, rfl⟩ := he
      exact hmem
    | enqueue | dispatch | dequeue | sendDram => simp at he
  · intro hmem
    exact ⟨_, hmem, by simp⟩

theorem mem_sentToDram {D : Type} {n : Nat} {msg : ShmemMsg D} {log : List (Event D n)} :
    msg ∈ sentToDram log ↔ .sendDram msg ∈ log := by
  simp only [sentToDram, List.mem_filterMap]
  constructor
  · rintro ⟨event, hmem, he⟩
    cases event with
    | sendDram m =>
      simp only [Option.some.injEq] at he
      exact he ▸ hmem
    | enqueue | dispatch | dequeue | send => simp at he
  · intro hmem
    exact ⟨_, hmem, by simp⟩

end Sniper.Coherence
