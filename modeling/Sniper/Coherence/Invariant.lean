import Sniper.Coherence.System
import Sniper.Coherence.CacheSteps
set_option autoImplicit false

namespace Sniper.Coherence

open MsgType

variable {D : Type} {n : Nat}

namespace DramDirectory

/-- The state of the entry; an absent entry is as good as an UNCACHED one. -/
def dstate (dir : DramDirectory D n) : DirectoryState :=
  match dir.entry with
  | none => .uncached
  | some entry => entry.dstate

def sharers (dir : DramDirectory D n) : Finset (Fin n) :=
  match dir.entry with
  | none => ∅
  | some entry => entry.sharers

def owner (dir : DramDirectory D n) : Option (Fin n) :=
  match dir.entry with
  | none => none
  | some entry => entry.owner

def forwarder (dir : DramDirectory D n) : Option (Fin n) :=
  match dir.entry with
  | none => none
  | some entry => entry.forwarder

variable (dir : DramDirectory D n) (entry : DirectoryEntry n)

@[simp] theorem setEntry_dstate : (dir.setEntry entry).dstate = entry.dstate := rfl
@[simp] theorem setEntry_sharers : (dir.setEntry entry).sharers = entry.sharers := rfl
@[simp] theorem setEntry_owner : (dir.setEntry entry).owner = entry.owner := rfl
@[simp] theorem setEntry_forwarder : (dir.setEntry entry).forwarder = entry.forwarder := rfl
@[simp] theorem setEntry_entry : (dir.setEntry entry).entry = some entry := rfl
@[simp] theorem setEntry_queue : (dir.setEntry entry).queue = dir.queue := rfl
@[simp] theorem setEntry_log : (dir.setEntry entry).log = dir.log := rfl

variable (event : Event D n)

@[simp] theorem emit_dstate : (dir.emit event).dstate = dir.dstate := rfl
@[simp] theorem emit_sharers : (dir.emit event).sharers = dir.sharers := rfl
@[simp] theorem emit_owner : (dir.emit event).owner = dir.owner := rfl
@[simp] theorem emit_forwarder : (dir.emit event).forwarder = dir.forwarder := rfl
@[simp] theorem emit_entry : (dir.emit event).entry = dir.entry := rfl
@[simp] theorem emit_queue : (dir.emit event).queue = dir.queue := rfl
@[simp] theorem emit_log : (dir.emit event).log = dir.log ++ [event] := rfl

variable (req : ShmemReq D n)

@[simp] theorem enqueue_dstate : (dir.enqueue req).dstate = dir.dstate := rfl
@[simp] theorem enqueue_sharers : (dir.enqueue req).sharers = dir.sharers := rfl
@[simp] theorem enqueue_queue : (dir.enqueue req).queue = dir.queue ++ [req] := rfl
@[simp] theorem enqueue_log : (dir.enqueue req).log = dir.log ++ [.enqueue req.key] := rfl

end DramDirectory

/-- A request that waits for data after its requester was made a sharer. -/
def ShmemReq.Flagged (req : ShmemReq D n) : Prop :=
  req.waitForData = true ∨ req.forwardingFrom ≠ none

/-- A request nothing was done for yet. -/
structure ShmemReq.Fresh (req : ShmemReq D n) : Prop where
  waitForData : req.waitForData = false
  forwardingFrom : req.forwardingFrom = none
  dataBuf : req.dataBuf = none

theorem ShmemReq.Fresh.not_flagged {req : ShmemReq D n} (h : req.Fresh) : ¬req.Flagged := by
  simp [ShmemReq.Flagged, h.waitForData, h.forwardingFrom]

/-- What the directory waits for. `idle` is between two requests, or inside a handler. -/
inductive Wait (n : Nat) where
  | idle
  | dram
  | wb (c : Fin n)
  | flush (c : Fin n)
  | invAll
  | invOthers (requester : Fin n)
  | invSome (c : Fin n)
deriving DecidableEq

namespace Wait

def asked (c : Fin n) : Wait n → Option MsgType
  | .wb o => if o = c then some wbReq else none
  | .flush o => if o = c then some flushReq else none
  | _ => none

def mustInv (c : Fin n) : Wait n → Prop
  | .invAll => True
  | .invOthers requester => c ≠ requester
  | .invSome o => o = c
  | _ => False

def mayFlush (sharers : Finset (Fin n)) : Wait n → Prop
  | .invOthers requester => requester ∉ sharers
  | _ => False

end Wait

/-- The types of the requests a core has in the queue. -/
def queuedBy (c : Fin n) (queue : List (ShmemReq D n)) : List MsgType :=
  (queue.filter fun req => req.key.requester = c ∧ req.key.msgType ≠ nullifyReq).map
    fun req => req.key.msgType

@[simp] theorem queuedBy_nil (c : Fin n) : queuedBy c ([] : List (ShmemReq D n)) = [] := rfl

theorem queuedBy_cons_self {c : Fin n} {req : ShmemReq D n} {rest : List (ShmemReq D n)}
    (hc : req.key.requester = c) (ht : req.key.msgType ≠ nullifyReq) :
    queuedBy c (req :: rest) = req.key.msgType :: queuedBy c rest := by
  simp [queuedBy, hc, ht]

theorem queuedBy_cons_ne {c : Fin n} {req : ShmemReq D n} {rest : List (ShmemReq D n)}
    (hc : req.key.requester ≠ c ∨ req.key.msgType = nullifyReq) :
    queuedBy c (req :: rest) = queuedBy c rest := by
  rcases hc with hc | hc <;> simp [queuedBy, hc]

theorem queuedBy_append (c : Fin n) (l m : List (ShmemReq D n)) :
    queuedBy c (l ++ m) = queuedBy c l ++ queuedBy c m := by
  simp [queuedBy]

/-- The queue is only seen through its keys. -/
theorem queuedBy_congr {c : Fin n} {l m : List (ShmemReq D n)}
    (h : l.map ShmemReq.key = m.map ShmemReq.key) : queuedBy c l = queuedBy c m := by
  have hkeys : ∀ l : List (ShmemReq D n), queuedBy c l =
      ((l.map ShmemReq.key).filter fun key => key.requester = c ∧ key.msgType ≠ nullifyReq).map
        fun key => key.msgType := fun l => by
    simp [queuedBy, List.filter_map, Function.comp_def]
  rw [hkeys, hkeys, h]

/-- The core whose request at the head has made it a sharer already. -/
def addedBy (c : Fin n) : List (ShmemReq D n) → Prop
  | [] => False
  | req :: _ => req.Flagged ∧ req.key.requester = c

/-- The demand on each core that the directory's state and its wait amount to. -/
def demand (dir : DramDirectory D n) (w : Wait n) (c : Fin n) : Demand where
  held := c ∈ dir.sharers
  dstate := dir.dstate
  asked := w.asked c
  mustInv := w.mustInv c
  mayFlush := w.mayFlush dir.sharers
  queued := queuedBy c dir.queue
  added := addedBy c dir.queue

@[simp] theorem demand_held (dir : DramDirectory D n) (w : Wait n) (c : Fin n) :
    (demand dir w c).held = (c ∈ dir.sharers) := rfl
@[simp] theorem demand_dstate (dir : DramDirectory D n) (w : Wait n) (c : Fin n) :
    (demand dir w c).dstate = dir.dstate := rfl
@[simp] theorem demand_asked (dir : DramDirectory D n) (w : Wait n) (c : Fin n) :
    (demand dir w c).asked = w.asked c := rfl
@[simp] theorem demand_mustInv (dir : DramDirectory D n) (w : Wait n) (c : Fin n) :
    (demand dir w c).mustInv = w.mustInv c := rfl
@[simp] theorem demand_mayFlush (dir : DramDirectory D n) (w : Wait n) (c : Fin n) :
    (demand dir w c).mayFlush = w.mayFlush dir.sharers := rfl
@[simp] theorem demand_queued (dir : DramDirectory D n) (w : Wait n) (c : Fin n) :
    (demand dir w c).queued = queuedBy c dir.queue := rfl
@[simp] theorem demand_added (dir : DramDirectory D n) (w : Wait n) (c : Fin n) :
    (demand dir w c).added = addedBy c dir.queue := rfl

/-- The request at the head of the queue and what the directory waits for on its behalf. -/
inductive HeadOk (cfg : Config) (dir : DramDirectory D n) (req : ShmemReq D n) : Wait n → Prop where
  | idle (kind : req.key.msgType.isRequest = true ∨ req.key.msgType = nullifyReq)
      (wait : req.waitForData = false)
      (forward : req.forwardingFrom = none ∨ req.key.msgType = shReq ∧ dir.dstate = .shared ∧
        req.key.requester ∈ dir.sharers ∧ 2 ≤ cfg.getMaxHwSharers n) : HeadOk cfg dir req .idle
  | dram (kind : req.key.msgType.isRequest = true) (wait : req.waitForData = true)
      (member : req.key.requester ∈ dir.sharers)
      (dstate : req.key.msgType = shReq ∧ (dir.dstate = .shared ∨ dir.dstate = .exclusive) ∨
        req.key.msgType ≠ shReq ∧ dir.dstate = .modified) : HeadOk cfg dir req .dram
  | forward {f : Fin n} (kind : req.key.msgType = shReq) (wait : req.waitForData = false)
      (forward : req.forwardingFrom = some f) (dstate : dir.dstate = .shared)
      (member : req.key.requester ∈ dir.sharers) (source : f ∈ dir.sharers)
      (other : f ≠ req.key.requester) (limit : 2 ≤ cfg.getMaxHwSharers n) :
      HeadOk cfg dir req (.wb f)
  | writeBack {o : Fin n} (kind : req.key.msgType = shReq) (flag : ¬req.Flagged)
      (dstate : dir.dstate = .exclusive ∨ dir.dstate = .modified) (owner : dir.owner = some o) :
      HeadOk cfg dir req (.wb o)
  | flush {o : Fin n} (kind : req.key.msgType = exReq ∨ req.key.msgType = upgradeReq ∨
        req.key.msgType = nullifyReq) (flag : ¬req.Flagged)
      (dstate : dir.dstate = .exclusive ∨ dir.dstate = .modified) (owner : dir.owner = some o) :
      HeadOk cfg dir req (.flush o)
  | invAll (kind : req.key.msgType = exReq ∨ req.key.msgType = nullifyReq) (flag : ¬req.Flagged)
      (dstate : dir.dstate = .shared) : HeadOk cfg dir req .invAll
  | invOthers (kind : req.key.msgType = upgradeReq) (flag : ¬req.Flagged)
      (dstate : dir.dstate = .shared) (others : dir.sharers ≠ {req.key.requester}) :
      HeadOk cfg dir req (.invOthers req.key.requester)
  | invSome {p : Fin n} (kind : req.key.msgType = shReq) (flag : ¬req.Flagged)
      (dstate : dir.dstate = .shared) (member : p ∈ dir.sharers) :
      HeadOk cfg dir req (.invSome p)

/-- The directory's own state. -/
structure DirOk (cfg : Config) (dir : DramDirectory D n) (w : Wait n) : Prop where
  supported : dir.dstate ≠ .owned
  uncached : dir.dstate = .uncached ↔ dir.sharers = ∅
  owner : dir.dstate = .exclusive ∨ dir.dstate = .modified →
    ∃ o, dir.owner = some o ∧ dir.sharers = {o}
  limit : dir.sharers.card ≤ cfg.getMaxHwSharers n
  tail : ∀ req ∈ dir.queue.tail, req.key.msgType.isRequest = true ∧ req.Fresh
  head : ∀ req rest, dir.queue = req :: rest → HeadOk cfg dir req w
  empty : dir.queue = [] → w = .idle

/-- MESIF forwards only from a sharer. Where one sharer is all the hardware allows nothing
is ever forwarded, and the forwarder of an entry may be left over. -/
def ForwarderOk (cfg : Config) (dir : DramDirectory D n) : Prop :=
  cfg.protocol = .mesif → dir.dstate = .shared → 2 ≤ cfg.getMaxHwSharers n →
    ∀ f, dir.forwarder = some f → f ∈ dir.sharers

namespace Sys

/-- A cache with its channels, the log of the current directory step included. -/
def view (s : Sys D n) (log : List (Event D n)) (c : Fin n) : View :=
  .of (s.cache c) (s.toDir c) (s.toCache c ++ sentTo c log)

/-- The DRAM reads under way. -/
def reads (s : Sys D n) (log : List (Event D n)) : Nat :=
  s.fromDram.length +
    (s.toDram ++ sentToDram log).countP fun msg => msg.msgType = dramReadReq

end Sys

/-- Every cache is in a shape that fits the directory's demand on it. -/
def Shapes (race : Prop) (s : Sys D n) (w : Wait n) (dir : DramDirectory D n) : Prop :=
  ∀ c, Shape race (demand dir w c) (s.view dir.log c)

/-- The invariant inside a directory step, for what the directory waits for then. -/
structure Good (race : Prop) (cfg : Config) (s : Sys D n) (w : Wait n) (dir : DramDirectory D n) :
    Prop where
  ok : DirOk cfg dir w
  shapes : Shapes race s w dir
  reads : s.reads dir.log = if w = .dram then 1 else 0

/-- The invariant between two steps: a queued request is being waited for. -/
def Settled (race : Prop) (cfg : Config) (s : Sys D n) (dir : DramDirectory D n) : Prop :=
  ∃ w, Good race cfg s w dir ∧ (w = .idle → dir.queue = []) ∧ ForwarderOk cfg dir

/-- The replies of a cache that come with the line carry it. -/
def PayloadOk (s : Sys D n) : Prop :=
  ∀ c, ∀ msg ∈ s.toDir c, msg.msgType = wbRep ∨ msg.msgType = flushRep → msg.dataBuf.isSome = true

/-- The invariant of the system. -/
structure Inv (race : Prop) (cfg : Config) (s : Sys D n) : Prop where
  log : s.dir.log = []
  payload : PayloadOk s
  settled : Settled race cfg s s.dir

end Sniper.Coherence
