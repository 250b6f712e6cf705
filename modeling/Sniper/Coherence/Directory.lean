import Sniper.Coherence.Messages
set_option autoImplicit false

namespace Sniper.Coherence

/-- The configuration one directory is built with. `maxHwSharers` is the configured
`max_hw_sharers`. -/
structure Config where
  protocol : Protocol
  directoryType : DirectoryType
  maxHwSharers : Nat
  maxHwSharers_pos : 0 < maxHwSharers

/-- `Directory::getMaxHwSharers`: a full map tracks every core. -/
def Config.getMaxHwSharers (cfg : Config) (n : Nat) : Nat :=
  match cfg.directoryType with
  | .fullMap => n
  | .limitedNoBroadcast => cfg.maxHwSharers

/-- The values a directory step reads that the source does not determine: the random
index of `getOneSharer`, the forwarder of a newly created entry (`m_forwarder_id` is not
initialised) and the contents behind a buffer that was already freed. -/
structure Choice (D : Type) (n : Nat) where
  oneSharer : Nat
  forwarder : Option (Fin n)
  freed : D

structure DirectoryEntry (n : Nat) where
  dstate : DirectoryState
  sharers : Finset (Fin n)
  owner : Option (Fin n)
  forwarder : Option (Fin n)
deriving DecidableEq

namespace DirectoryEntry

variable {n : Nat}

/-- `createDirectoryEntry`. -/
def new (forwarder : Option (Fin n)) : DirectoryEntry n :=
  ⟨.uncached, ∅, none, forwarder⟩

def hasSharer (entry : DirectoryEntry n) (sharer : Fin n) : Bool :=
  decide (sharer ∈ entry.sharers)

def getNumSharers (entry : DirectoryEntry n) : Nat :=
  entry.sharers.card

/-- The new entry, or `none` when the hardware limit refuses the sharer. -/
def addSharer (entry : DirectoryEntry n) (sharer : Fin n) (maxHwSharers : Nat) :
    Except Fault (Option (DirectoryEntry n)) :=
  if sharer ∈ entry.sharers then .error .sharerPresent
  else if maxHwSharers ≤ entry.getNumSharers then .ok none
  else .ok (some { entry with sharers := insert sharer entry.sharers })

def removeSharer (entry : DirectoryEntry n) (sharer : Fin n) :
    Except Fault (DirectoryEntry n) :=
  if sharer ∈ entry.sharers then .ok { entry with sharers := entry.sharers.erase sharer }
  else .error .sharerAbsent

def setOwner (entry : DirectoryEntry n) (owner : Fin n) : Except Fault (DirectoryEntry n) :=
  if owner ∈ entry.sharers then .ok { entry with owner := some owner }
  else .error .ownerNotSharer

/-- `getSharersList`: in increasing order of core. -/
def getSharersList (entry : DirectoryEntry n) : List (Fin n) :=
  (List.finRange n).filter fun sharer => decide (sharer ∈ entry.sharers)

def getOneSharer (entry : DirectoryEntry n) (index : Nat) : Except Fault (Fin n) :=
  match entry.getSharersList[index % entry.getSharersList.length]? with
  | none => .error .noSharers
  | some sharer => .ok sharer

/-- The sequence every request takes on an UNCACHED entry: add the requester, which must
succeed, make it the owner and set the new state. -/
def addFirstSharer (entry : DirectoryEntry n) (requester : Fin n) (maxHwSharers : Nat)
    (dstate : DirectoryState) : Except Fault (DirectoryEntry n) := do
  match ← entry.addSharer requester maxHwSharers with
  | none => .error .addSharerFailed
  | some added => do
    let owned ← added.setOwner requester
    .ok { owned with dstate := dstate }

/-- The entry once the sender of an INV_REP was removed. -/
def afterInvRep (removed : DirectoryEntry n) (sender : Fin n) : DirectoryEntry n :=
  { removed with
    forwarder := if removed.forwarder = some sender then none else removed.forwarder
    dstate := if removed.getNumSharers = 0 then .uncached else removed.dstate }

/-- The entry once the sender of a FLUSH_REP was removed. -/
def afterFlushRep (removed : DirectoryEntry n) : DirectoryEntry n :=
  { removed with
    forwarder := none
    owner := none
    dstate := if removed.getNumSharers = 0 then .uncached else removed.dstate }

end DirectoryEntry

/-- One address at its home directory: the entry (absent before the first request and
after a nullification), the request queue, and the log of the current step. -/
structure DramDirectory (D : Type) (n : Nat) where
  entry : Option (DirectoryEntry n)
  queue : List (ShmemReq D n)
  log : List (Event D n)
deriving DecidableEq

namespace DramDirectory

variable {D : Type} {n : Nat}

def emit (dir : DramDirectory D n) (event : Event D n) : DramDirectory D n :=
  { dir with log := dir.log ++ [event] }

/-- `m_dram_directory_req_queue_list->enqueue`. -/
def enqueue (dir : DramDirectory D n) (req : ShmemReq D n) : DramDirectory D n :=
  { dir with queue := dir.queue ++ [req] }.emit (.enqueue req.key)

def setEntry (dir : DramDirectory D n) (entry : DirectoryEntry n) : DramDirectory D n :=
  { dir with entry := some entry }

def sendMsg (dir : DramDirectory D n) (receiver : Fin n) (msgType : MsgType)
    (dataBuf : Option D) : DramDirectory D n :=
  dir.emit (.send receiver ⟨msgType, dataBuf⟩)

/-- A loop over a list of receivers. -/
def sendEach (dir : DramDirectory D n) (receivers : List (Fin n × MsgType)) :
    DramDirectory D n :=
  { dir with log := dir.log ++ receivers.map fun (c, t) => .send c ⟨t, none⟩ }

def sendToOwner (dir : DramDirectory D n) (entry : DirectoryEntry n) (msgType : MsgType) :
    Except Fault (DramDirectory D n) :=
  match entry.owner with
  | none => .error .noReceiver
  | some owner => .ok (dir.sendMsg owner msgType none)

def sendDataToDram (dir : DramDirectory D n) (dataBuf : Option D) : DramDirectory D n :=
  dir.emit (.sendDram ⟨.dramWriteReq, dataBuf⟩)

/-- `getDirectoryEntry`, or `processDirectoryEntryAllocationReq` when there is none. -/
def getOrAllocate (dir : DramDirectory D n) (ch : Choice D n) : DirectoryEntry n :=
  dir.entry.getD (.new ch.forwarder)

end DramDirectory

section Handlers

variable {D : Type} {n : Nat}
variable (next : DramDirectory D n → Except Fault (DramDirectory D n))
variable (cfg : Config) (ch : Choice D n)

/-- MESIF: the cache a SH_REQ is forwarded from, unless forwarding was already tried. -/
def forwarderFor (entry : DirectoryEntry n) (req : ShmemReq D n) : Option (Fin n) :=
  if cfg.protocol = .mesif ∧ req.forwardingFrom = none ∧ entry.dstate = .shared then
    entry.forwarder
  else none

def retrieveDataAndSendToL2Cache (reply : MsgType) (receiver : Fin n)
    (cachedDataBuf : Option D) (dir : DramDirectory D n) : Except Fault (DramDirectory D n) :=
  match dir.entry with
  | none => .error .noDirectoryEntry
  | some entry =>
    match cachedDataBuf with
    | some data =>
      next ((dir.setEntry { entry with forwarder := some receiver }).sendMsg receiver reply
        (some data))
    | none =>
      match dir.queue with
      | [] => .error .queueEmpty
      | req :: rest =>
        match forwarderFor cfg entry req with
        | some forwarder =>
          .ok ({ dir with queue := { req with forwardingFrom := some forwarder } :: rest }.sendMsg
            forwarder .wbReq none)
        | none =>
          .ok ({ dir with queue := { req with waitForData := true } :: rest }.emit
            (.sendDram ⟨.dramReadReq, none⟩))

def processExReqFromL2Cache (req : ShmemReq D n) (cachedDataBuf : Option D)
    (dir : DramDirectory D n) : Except Fault (DramDirectory D n) :=
  let entry := dir.getOrAllocate ch
  let dir := dir.setEntry entry
  match entry.dstate with
  | .exclusive | .modified =>
    -- the owner may have upgraded silently, so its data is asked for in both states
    if cachedDataBuf.isSome then .error .cachedDataBuf
    else dir.sendToOwner entry .flushReq
  | .shared =>
    if cachedDataBuf.isSome then .error .cachedDataBuf
    else .ok (dir.sendEach (entry.getSharersList.map fun sharer => (sharer, .invReq)))
  | .uncached => do
    let entry ← entry.addFirstSharer req.key.requester (cfg.getMaxHwSharers n) .modified
    retrieveDataAndSendToL2Cache next cfg .exRep req.key.requester cachedDataBuf
      (dir.setEntry entry)
  | .owned => .error .unsupportedState

/-- The SHARED case of `processShReqFromL2Cache`. -/
def processShReqShared (req : ShmemReq D n) (cachedDataBuf : Option D)
    (entry : DirectoryEntry n) (dir : DramDirectory D n) : Except Fault (DramDirectory D n) :=
  if entry.hasSharer req.key.requester then
    -- the forwarder answered, and the requester was added when the request was forwarded
    retrieveDataAndSendToL2Cache next cfg .shRep req.key.requester cachedDataBuf dir
  else do
    match ← entry.addSharer req.key.requester (cfg.getMaxHwSharers n) with
    | none => do
      let sharer ← entry.getOneSharer ch.oneSharer
      .ok (dir.sendMsg sharer .invReq none)
    | some entry =>
      retrieveDataAndSendToL2Cache next cfg .shRep req.key.requester cachedDataBuf
        (dir.setEntry entry)

def processShReqFromL2Cache (req : ShmemReq D n) (cachedDataBuf : Option D)
    (dir : DramDirectory D n) : Except Fault (DramDirectory D n) :=
  let entry := dir.getOrAllocate ch
  let dir := dir.setEntry entry
  match entry.dstate with
  | .exclusive =>
    if entry.owner = some req.key.requester then .error .requesterIsOwner
    else if cachedDataBuf.isSome then .error .cachedDataBuf
    else dir.sendToOwner entry .wbReq
  | .modified =>
    if cachedDataBuf.isSome then .error .cachedDataBuf
    else dir.sendToOwner entry .wbReq
  | .shared => processShReqShared next cfg ch req cachedDataBuf entry dir
  | .uncached =>
    match cfg.protocol with
    | .msi => do
      let entry ← entry.addFirstSharer req.key.requester (cfg.getMaxHwSharers n) .shared
      retrieveDataAndSendToL2Cache next cfg .shRep req.key.requester cachedDataBuf
        (dir.setEntry entry)
    | .mesi | .mesif => do
      let entry ← entry.addFirstSharer req.key.requester (cfg.getMaxHwSharers n) .exclusive
      retrieveDataAndSendToL2Cache next cfg .exRep req.key.requester cachedDataBuf
        (dir.setEntry entry)
  | .owned => .error .unsupportedState

/-- Whom an UPGRADE_REQ on a SHARED line invalidates. When the requester has lost its
copy, the first sharer is asked for the data with a FLUSH_REQ instead. -/
def upgradeTargets (entry : DirectoryEntry n) (requester : Fin n) : List (Fin n × MsgType) :=
  if entry.hasSharer requester then
    (entry.getSharersList.filter (· ≠ requester)).map fun sharer => (sharer, .invReq)
  else
    match entry.getSharersList with
    | [] => []
    | first :: others =>
      (first, .flushReq) :: others.map fun sharer => (sharer, .invReq)

/-- The EXCLUSIVE and MODIFIED case of `processUpgradeReqFromL2Cache`. -/
def processUpgradeReqOwned (requester : Fin n) (entry : DirectoryEntry n)
    (dir : DramDirectory D n) : Except Fault (DramDirectory D n) :=
  match entry.getSharersList with
  | [] => .error .noSharers
  | first :: _ =>
    if first = requester then
      if entry.owner = some requester then
        next ((dir.sendMsg requester .upgradeRep none).setEntry { entry with dstate := .modified })
      else .error .requesterNotOwner
    else dir.sendToOwner entry .flushReq

def processUpgradeReqFromL2Cache (req : ShmemReq D n) (cachedDataBuf : Option D)
    (dir : DramDirectory D n) : Except Fault (DramDirectory D n) :=
  let entry := dir.getOrAllocate ch
  let dir := dir.setEntry entry
  let requester := req.key.requester
  match entry.dstate with
  | .exclusive | .modified => processUpgradeReqOwned next requester entry dir
  | .shared =>
    if entry.getSharersList = [requester] then do
      let entry ← entry.setOwner requester
      next ((dir.setEntry { entry with dstate := .modified }).sendMsg requester .upgradeRep none)
    else .ok (dir.sendEach (upgradeTargets entry requester))
  | .uncached =>
    if entry.getSharersList ≠ [] then .error .sharerPresent
    else do
      let entry ← entry.addFirstSharer requester (cfg.getMaxHwSharers n) .modified
      -- data kept from an earlier FLUSH_REP serves when the caller has none
      retrieveDataAndSendToL2Cache next cfg .exRep requester
        (cachedDataBuf.or req.dataBuf) (dir.setEntry entry)
  | .owned => .error .unsupportedState

def processNullifyReq (dir : DramDirectory D n) : Except Fault (DramDirectory D n) :=
  match dir.entry with
  | none => .error .noDirectoryEntry
  | some entry =>
    match entry.dstate with
    | .exclusive | .modified => dir.sendToOwner entry .flushReq
    | .shared =>
      .ok (dir.sendEach (entry.getSharersList.map fun sharer => (sharer, .invReq)))
    | .uncached => next { dir with entry := none }
    | .owned => .error .unsupportedState

/-- The first processing of a request, by its type. -/
def dispatchReq (req : ShmemReq D n) (dir : DramDirectory D n) :
    Except Fault (DramDirectory D n) :=
  let dir := dir.emit (.dispatch req.key)
  match req.key.msgType with
  | .exReq => processExReqFromL2Cache next cfg ch req none dir
  | .shReq => processShReqFromL2Cache next cfg ch req none dir
  | .upgradeReq => processUpgradeReqFromL2Cache next cfg ch req none dir
  | _ => .error .unrecognizedRequest

end Handlers

section Controller

variable {D : Type} {n : Nat} (cfg : Config) (ch : Choice D n)

/-- The recursion through the handlers is bounded by the length of the queue, which each
round shortens by one. -/
def processNextReqFromL2CacheFuel : Nat → DramDirectory D n → Except Fault (DramDirectory D n)
  | 0, _ => .error .queueEmpty
  | fuel + 1, dir =>
    match dir.queue with
    | [] => .error .queueEmpty
    | completed :: rest =>
      let dir := { dir with queue := rest }.emit (.dequeue completed.key)
      match rest with
      | [] => .ok dir
      | req :: _ => dispatchReq (processNextReqFromL2CacheFuel fuel) cfg ch req dir

def processNextReqFromL2Cache (dir : DramDirectory D n) : Except Fault (DramDirectory D n) :=
  processNextReqFromL2CacheFuel cfg ch dir.queue.length dir

def processInvRepFromL2Cache (sender : Fin n) (dir : DramDirectory D n) :
    Except Fault (DramDirectory D n) :=
  match dir.entry with
  | none => .error .noDirectoryEntry
  | some entry =>
    if ¬(entry.dstate = .shared ∨ entry.dstate = .exclusive) then .error .invRepState
    else do
      let removed ← entry.removeSharer sender
      let entry := removed.afterInvRep sender
      let dir := dir.setEntry entry
      match dir.queue with
      | [] => .ok dir
      | req :: _ =>
        match req.key.msgType with
        | .exReq =>
          if entry.dstate = .uncached then
            processExReqFromL2Cache (processNextReqFromL2Cache cfg ch) cfg ch req none dir
          else .ok dir
        | .upgradeReq =>
          if entry.getNumSharers = 1 then
            if entry.hasSharer req.key.requester then
              processUpgradeReqFromL2Cache (processNextReqFromL2Cache cfg ch) cfg ch req none dir
            else .ok dir
          else if entry.getNumSharers = 0 then
            processUpgradeReqFromL2Cache (processNextReqFromL2Cache cfg ch) cfg ch req none dir
          else .ok dir
        | .shReq =>
          -- a voluntary invalidation does not wake a request that waits for its data
          if req.waitForData then .ok dir
          else if req.forwardingFrom ≠ none ∧ req.forwardingFrom ≠ some sender then .ok dir
          else processShReqFromL2Cache (processNextReqFromL2Cache cfg ch) cfg ch req none dir
        | _ =>
          if entry.dstate = .uncached then
            processNullifyReq (processNextReqFromL2Cache cfg ch) dir
          else .ok dir

def processFlushRepFromL2Cache (sender : Fin n) (dataBuf : Option D) (dir : DramDirectory D n) :
    Except Fault (DramDirectory D n) :=
  match dir.entry with
  | none => .error .noDirectoryEntry
  | some entry =>
    if ¬entry.hasSharer sender then .error .flushRepNotSharer
    else do
      let removed ← entry.removeSharer sender
      if removed.getNumSharers ≠ 0 ∧ removed.dstate ≠ .shared then .error .flushRepState
      else
        let entry := removed.afterFlushRep
        let dir := dir.setEntry entry
        match dir.queue with
        | [] => .ok (dir.sendDataToDram dataBuf)
        | req :: rest =>
          match req.key.msgType with
          | .exReq =>
            processExReqFromL2Cache (processNextReqFromL2Cache cfg ch) cfg ch req dataBuf dir
          | .shReq =>
            processShReqFromL2Cache (processNextReqFromL2Cache cfg ch) cfg ch req dataBuf
              (dir.sendDataToDram dataBuf)
          | .upgradeReq =>
            if entry.getNumSharers = 0 then
              processUpgradeReqFromL2Cache (processNextReqFromL2Cache cfg ch) cfg ch req dataBuf
                dir
            else
              -- the buffer belongs to the message and is freed with it
              .ok { dir with queue := { req with dataBuf := some ch.freed } :: rest }
          | _ =>
            processNullifyReq (processNextReqFromL2Cache cfg ch) (dir.sendDataToDram dataBuf)

def processWbRepFromL2Cache (sender : Fin n) (dataBuf : Option D) (dir : DramDirectory D n) :
    Except Fault (DramDirectory D n) :=
  match dir.entry with
  | none => .error .noDirectoryEntry
  | some entry =>
    if ¬entry.hasSharer sender then .error .wbRepNotSharer
    else
      let dir := dir.setEntry { entry with owner := none, dstate := .shared }
      match dir.queue with
      | [] => .error .wbRepNoRequest
      | req :: _ =>
        if req.key.msgType = .shReq then
          processShReqFromL2Cache (processNextReqFromL2Cache cfg ch) cfg ch req dataBuf dir
        else .error .wbRepType

/-- Which reply the data from DRAM is sent with. -/
def dramReplyType (req : ShmemReq D n) (dstate : DirectoryState) : Except Fault MsgType :=
  match req.key.msgType with
  | .shReq =>
    match dstate with
    | .exclusive => .ok .exRep
    | .shared => .ok .shRep
    | _ => .error .dramReplyState
  | .exReq => if dstate = .modified then .ok .exRep else .error .dramReplyState
  | .upgradeReq => .ok .exRep
  | _ => .error .dramReplyType

def processDRAMReply (dataBuf : Option D) (dir : DramDirectory D n) :
    Except Fault (DramDirectory D n) :=
  match dir.queue with
  | [] => .error .queueEmpty
  | req :: _ =>
    match dir.entry with
    | none => .error .noDirectoryEntry
    | some entry => do
      let reply ← dramReplyType req entry.dstate
      processNextReqFromL2Cache cfg ch (dir.sendMsg req.key.requester reply dataBuf)

/-- A request joins the queue and is processed at once when it is alone there. -/
def enqueueReq (msgType : MsgType) (requester : Fin n) (dir : DramDirectory D n) :
    Except Fault (DramDirectory D n) :=
  let req := ShmemReq.new msgType requester
  match dir.queue with
  | [] => dispatchReq (processNextReqFromL2Cache cfg ch) cfg ch req (dir.enqueue req)
  | _ :: _ => .ok (dir.enqueue req)

def handleMsgFromL2Cache (sender : Fin n) (msg : ShmemMsg D) (dir : DramDirectory D n) :
    Except Fault (DramDirectory D n) :=
  match msg.msgType with
  | .exReq | .shReq | .upgradeReq => enqueueReq cfg ch msg.msgType sender dir
  | .invRep => processInvRepFromL2Cache cfg ch sender dir
  | .flushRep => processFlushRepFromL2Cache cfg ch sender msg.dataBuf dir
  | .wbRep => processWbRepFromL2Cache cfg ch sender msg.dataBuf dir
  | _ => .error .unrecognizedMsg

def handleMsgFromDRAM (msg : ShmemMsg D) (dir : DramDirectory D n) :
    Except Fault (DramDirectory D n) :=
  match msg.msgType with
  | .dramReadRep => processDRAMReply cfg ch msg.dataBuf dir
  | _ => .error .unrecognizedMsg

/-- The allocation of an entry for another address replaces this one, which only an entry
with no request queued may be. -/
def nullify (requester : Fin n) (dir : DramDirectory D n) : Except Fault (DramDirectory D n) :=
  match dir.entry, dir.queue with
  | some _, [] =>
    let req := ShmemReq.new .nullifyReq requester
    processNullifyReq (processNextReqFromL2Cache cfg ch)
      ((dir.enqueue req).emit (.dispatch req.key))
  | _, _ => .error .notEnabled

end Controller

section Recursion

variable {D : Type} {n : Nat} {cfg : Config} {ch : Choice D n} {req : ShmemReq D n}
variable {queue : List (ShmemReq D n)} {dir : DramDirectory D n}
variable {next next' : DramDirectory D n → Except Fault (DramDirectory D n)} {buf : Option D}

/-- Two ways to end a request that agree on directories with this queue. -/
def SameNext (next next' : DramDirectory D n → Except Fault (DramDirectory D n))
    (queue : List (ShmemReq D n)) : Prop :=
  ∀ dir, dir.queue = queue → next dir = next' dir

theorem retrieveData_congr (h : SameNext next next' queue) (hq : dir.queue = queue)
    (reply : MsgType) (r : Fin n) :
    retrieveDataAndSendToL2Cache next cfg reply r buf dir =
      retrieveDataAndSendToL2Cache next' cfg reply r buf dir := by
  unfold retrieveDataAndSendToL2Cache
  split
  · rfl
  split
  · exact h _ hq
  · rfl

theorem processExReq_congr (h : SameNext next next' queue) (hq : dir.queue = queue) :
    processExReqFromL2Cache next cfg ch req buf dir =
      processExReqFromL2Cache next' cfg ch req buf dir := by
  unfold processExReqFromL2Cache
  dsimp only
  split
  · rfl
  · rfl
  · rfl
  · exact bind_congr fun _ => retrieveData_congr h (by exact hq) _ _
  · rfl

theorem processShReq_congr (h : SameNext next next' queue) (hq : dir.queue = queue) :
    processShReqFromL2Cache next cfg ch req buf dir =
      processShReqFromL2Cache next' cfg ch req buf dir := by
  unfold processShReqFromL2Cache
  dsimp only
  split
  · rfl
  · rfl
  · unfold processShReqShared
    split
    · exact retrieveData_congr h (by exact hq) _ _
    · refine bind_congr fun result => ?_
      cases result with
      | none => rfl
      | some added => exact retrieveData_congr h (by exact hq) _ _
  · split
    · exact bind_congr fun _ => retrieveData_congr h (by exact hq) _ _
    · exact bind_congr fun _ => retrieveData_congr h (by exact hq) _ _
    · exact bind_congr fun _ => retrieveData_congr h (by exact hq) _ _
  · rfl

theorem processUpgradeReq_congr (h : SameNext next next' queue) (hq : dir.queue = queue) :
    processUpgradeReqFromL2Cache next cfg ch req buf dir =
      processUpgradeReqFromL2Cache next' cfg ch req buf dir := by
  have howned : ∀ (r : Fin n) (entry : DirectoryEntry n) (dir : DramDirectory D n),
      dir.queue = queue →
      processUpgradeReqOwned next r entry dir = processUpgradeReqOwned next' r entry dir := by
    intro r entry dir hq
    unfold processUpgradeReqOwned
    split
    · rfl
    split
    · split
      · exact h _ hq
      · rfl
    · rfl
  unfold processUpgradeReqFromL2Cache
  dsimp only
  split
  · exact howned _ _ _ hq
  · exact howned _ _ _ hq
  · split
    · exact bind_congr fun _ => h _ hq
    · rfl
  · split
    · rfl
    · exact bind_congr fun _ => retrieveData_congr h (by exact hq) _ _
  · rfl

theorem dispatchReq_congr (h : SameNext next next' queue) (hq : dir.queue = queue) :
    dispatchReq next cfg ch req dir = dispatchReq next' cfg ch req dir := by
  unfold dispatchReq
  dsimp only
  split
  · exact processExReq_congr h (by exact hq)
  · exact processShReq_congr h (by exact hq)
  · exact processUpgradeReq_congr h (by exact hq)
  · rfl

/-- Fuel for the length of the queue is enough. -/
theorem processNextFuel_stable (fuel fuel' : Nat) (dir : DramDirectory D n)
    (hfuel : dir.queue.length ≤ fuel) (hfuel' : dir.queue.length ≤ fuel') :
    processNextReqFromL2CacheFuel cfg ch fuel dir =
      processNextReqFromL2CacheFuel cfg ch fuel' dir := by
  induction fuel generalizing dir fuel' with
  | zero =>
    have hnil : dir.queue = [] := List.length_eq_zero_iff.mp (by omega)
    cases fuel' with
    | zero => rfl
    | succ fuel' => simp [processNextReqFromL2CacheFuel, hnil]
  | succ fuel ih =>
    cases fuel' with
    | zero =>
      have hnil : dir.queue = [] := List.length_eq_zero_iff.mp (by omega)
      simp [processNextReqFromL2CacheFuel, hnil]
    | succ fuel' =>
      unfold processNextReqFromL2CacheFuel
      split
      · rfl
      rename_i completed rest hq
      dsimp only
      split
      · rfl
      rename_i req rest'
      refine dispatchReq_congr ?_ rfl
      intro dir' hq'
      have hlen : dir'.queue.length + 1 = dir.queue.length := by
        rw [hq', hq]
        simp [DramDirectory.emit]
      exact ih fuel' dir' (by omega) (by omega)

/-- `processNextReqFromL2Cache` as the source writes it: the completed request leaves the
queue and the next one, if there is one, is processed. -/
theorem processNext_eq (dir : DramDirectory D n) :
    processNextReqFromL2Cache cfg ch dir =
      match dir.queue with
      | [] => .error .queueEmpty
      | completed :: rest =>
        match rest with
        | [] => .ok ({ dir with queue := [] }.emit (.dequeue completed.key))
        | req :: _ =>
          dispatchReq (processNextReqFromL2Cache cfg ch) cfg ch req
            ({ dir with queue := rest }.emit (.dequeue completed.key)) := by
  rw [show processNextReqFromL2Cache cfg ch dir =
    processNextReqFromL2CacheFuel cfg ch dir.queue.length dir from rfl]
  cases hq : dir.queue with
  | nil => rfl
  | cons completed rest =>
    rw [List.length_cons]
    unfold processNextReqFromL2CacheFuel
    rw [hq]
    dsimp only
    cases rest with
    | nil => rfl
    | cons req rest' =>
      refine dispatchReq_congr ?_ rfl
      intro dir' hq'
      have hlen : dir'.queue.length ≤ (req :: rest').length := by rw [hq']; exact le_rfl
      exact processNextFuel_stable _ _ dir' hlen le_rfl

end Recursion

end Sniper.Coherence
