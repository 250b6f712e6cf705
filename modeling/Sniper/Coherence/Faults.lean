import Sniper.Coherence.Directory
set_option autoImplicit false
namespace Sniper.Coherence

open MsgType

variable {D : Type} {n : Nat} {cfg : Config} {ch : Choice D n}
variable {next : DramDirectory D n → Except Fault (DramDirectory D n)}
variable {queue : List (ShmemReq D n)} {dir : DramDirectory D n} {entry : DirectoryEntry n} {req : ShmemReq D n} {fault : Fault}

/-- A reply found its receiver in a state it does not expect. -/
def Fault.unexpected : Fault → Bool
  | .invRepState | .flushRepNotSharer | .flushRepState | .wbRepNotSharer | .wbRepType
  | .wbRepNoRequest | .blockResident | .upgradeNoData | .upgradeNotUpgrading => true
  | _ => false

/-- The assertions the processing of a request makes itself. -/
def Fault.ofRequest : Fault → Bool
  | .noDirectoryEntry | .cachedDataBuf | .noReceiver | .sharerPresent | .sharerAbsent
  | .ownerNotSharer | .noSharers | .addSharerFailed | .requesterIsOwner | .requesterNotOwner
  | .unsupportedState | .queueEmpty => true
  | _ => false

theorem Fault.ofRequest_of_unexpected (h : fault.unexpected = true) : fault.ofRequest = false := by
  cases fault <;> simp [Fault.unexpected, Fault.ofRequest] at h ⊢

/-- A computation that raises no other fault. -/
def Quiet {α : Type} (result : Except Fault α) : Prop :=
  ∀ fault, result = .error fault → fault.ofRequest = true

/-- The same of what ends a request, for every directory with this queue. -/
def QuietNext (next : DramDirectory D n → Except Fault (DramDirectory D n))
    (queue : List (ShmemReq D n)) : Prop :=
  ∀ dir, dir.queue = queue → Quiet (next dir)

theorem quiet_ok {α : Type} (a : α) : Quiet (.ok a) := by
  intro fault h
  cases h

theorem quiet_error {α : Type} (h : fault.ofRequest = true) :
    Quiet (.error fault : Except Fault α) := by
  intro fault' h'
  cases h'
  exact h

theorem Quiet.bind {α β : Type} {x : Except Fault α} {f : α → Except Fault β} (hx : Quiet x)
    (hf : ∀ a, Quiet (f a)) : Quiet (x >>= f) := by
  cases x with
  | error fault => exact quiet_error (hx fault rfl)
  | ok a => exact hf a

theorem addSharer_quiet (r : Fin n) (limit : Nat) : Quiet (entry.addSharer r limit) := by
  unfold DirectoryEntry.addSharer
  split
  · exact quiet_error rfl
  split
  · exact quiet_ok _
  · exact quiet_ok _

theorem setOwner_quiet (r : Fin n) : Quiet (entry.setOwner r) := by
  unfold DirectoryEntry.setOwner
  split
  · exact quiet_ok _
  · exact quiet_error rfl

theorem addFirstSharer_quiet (r : Fin n) (limit : Nat) (ds : DirectoryState) :
    Quiet (entry.addFirstSharer r limit ds) := by
  unfold DirectoryEntry.addFirstSharer
  refine (addSharer_quiet r limit).bind fun result => ?_
  cases result with
  | none => exact quiet_error rfl
  | some added => exact (setOwner_quiet r).bind fun _ => quiet_ok _

theorem getOneSharer_quiet (index : Nat) : Quiet (entry.getOneSharer index) := by
  unfold DirectoryEntry.getOneSharer
  split
  · exact quiet_error rfl
  · exact quiet_ok _

theorem removeSharer_quiet (r : Fin n) : Quiet (entry.removeSharer r) := by
  unfold DirectoryEntry.removeSharer
  split
  · exact quiet_ok _
  · exact quiet_error rfl

theorem sendToOwner_quiet (t : MsgType) : Quiet (dir.sendToOwner entry t) := by
  unfold DramDirectory.sendToOwner
  split
  · exact quiet_error rfl
  · exact quiet_ok _

theorem retrieveData_quiet (hnext : QuietNext next queue) (hq : dir.queue = queue) (reply : MsgType) (r : Fin n)
    (buf : Option D) : Quiet (retrieveDataAndSendToL2Cache next cfg reply r buf dir) := by
  unfold retrieveDataAndSendToL2Cache
  split
  · exact quiet_error rfl
  split
  · exact hnext _ hq
  split
  · exact quiet_error rfl
  split
  · exact quiet_ok _
  · exact quiet_ok _

theorem processExReq_quiet (hnext : QuietNext next queue) (hq : dir.queue = queue) (buf : Option D) :
    Quiet (processExReqFromL2Cache next cfg ch req buf dir) := by
  unfold processExReqFromL2Cache
  dsimp only
  split
  · split
    · exact quiet_error rfl
    · exact sendToOwner_quiet _
  · split
    · exact quiet_error rfl
    · exact sendToOwner_quiet _
  · split
    · exact quiet_error rfl
    · exact quiet_ok _
  · exact (addFirstSharer_quiet _ _ _).bind fun _ => retrieveData_quiet hnext (by exact hq) _ _ _
  · exact quiet_error rfl

theorem processShReqShared_quiet (hnext : QuietNext next queue) (hq : dir.queue = queue) (buf : Option D) :
    Quiet (processShReqShared next cfg ch req buf entry dir) := by
  unfold processShReqShared
  split
  · exact retrieveData_quiet hnext (by exact hq) _ _ _
  · refine (addSharer_quiet _ _).bind fun result => ?_
    cases result with
    | none => exact (getOneSharer_quiet _).bind fun _ => quiet_ok _
    | some entry =>
      dsimp only
      exact retrieveData_quiet hnext (by exact hq) _ _ _

theorem processShReq_quiet (hnext : QuietNext next queue) (hq : dir.queue = queue) (buf : Option D) :
    Quiet (processShReqFromL2Cache next cfg ch req buf dir) := by
  unfold processShReqFromL2Cache
  dsimp only
  split
  · split
    · exact quiet_error rfl
    split
    · exact quiet_error rfl
    · exact sendToOwner_quiet _
  · split
    · exact quiet_error rfl
    · exact sendToOwner_quiet _
  · exact processShReqShared_quiet hnext (by exact hq) _
  · split
    · exact (addFirstSharer_quiet _ _ _).bind fun _ => retrieveData_quiet hnext (by exact hq) _ _ _
    · exact (addFirstSharer_quiet _ _ _).bind fun _ => retrieveData_quiet hnext (by exact hq) _ _ _
    · exact (addFirstSharer_quiet _ _ _).bind fun _ => retrieveData_quiet hnext (by exact hq) _ _ _
  · exact quiet_error rfl

theorem processUpgradeReq_quiet (hnext : QuietNext next queue) (hq : dir.queue = queue) (buf : Option D) :
    Quiet (processUpgradeReqFromL2Cache next cfg ch req buf dir) := by
  have howned : ∀ (r : Fin n) (entry : DirectoryEntry n) (dir : DramDirectory D n),
      dir.queue = queue → Quiet (processUpgradeReqOwned next r entry dir) := by
    intro r entry dir hq
    unfold processUpgradeReqOwned
    split
    · exact quiet_error rfl
    split
    · split
      · exact hnext _ hq
      · exact quiet_error rfl
    · exact sendToOwner_quiet _
  unfold processUpgradeReqFromL2Cache
  dsimp only
  split
  · exact howned _ _ _ hq
  · exact howned _ _ _ hq
  · split
    · exact (setOwner_quiet _).bind fun _ => hnext _ hq
    · exact quiet_ok _
  · split
    · exact quiet_error rfl
    · exact (addFirstSharer_quiet _ _ _).bind fun _ => retrieveData_quiet hnext (by exact hq) _ _ _
  · exact quiet_error rfl

theorem processNullifyReq_quiet (hnext : QuietNext next queue) (hq : dir.queue = queue) :
    Quiet (processNullifyReq next dir) := by
  unfold processNullifyReq
  split
  · exact quiet_error rfl
  split
  · exact sendToOwner_quiet _
  · exact sendToOwner_quiet _
  · exact quiet_ok _
  · exact hnext _ hq
  · exact quiet_error rfl

theorem dispatchReq_quiet (hnext : QuietNext next queue) (hq : dir.queue = queue)
    (hkind : req.key.msgType.isRequest = true) : Quiet (dispatchReq next cfg ch req dir) := by
  unfold dispatchReq
  dsimp only
  split
  · exact processExReq_quiet hnext (by exact hq) _
  · exact processShReq_quiet hnext (by exact hq) _
  · exact processUpgradeReq_quiet hnext (by exact hq) _
  · rename_i hex hsh hup
    generalize req.key.msgType = t at hkind hex hsh hup
    cases t <;> simp_all [isRequest]

theorem processNextFuel_quiet (fuel : Nat) (dir : DramDirectory D n)
    (hkind : ∀ req ∈ dir.queue.tail, req.key.msgType.isRequest = true) :
    Quiet (processNextReqFromL2CacheFuel cfg ch fuel dir) := by
  induction fuel generalizing dir with
  | zero => exact quiet_error rfl
  | succ fuel ih =>
    unfold processNextReqFromL2CacheFuel
    split
    · exact quiet_error rfl
    · rename_i completed rest hq
      rw [hq, List.tail_cons] at hkind
      dsimp only
      split
      · exact quiet_ok _
      · rename_i req rest'
        refine dispatchReq_quiet ?_ rfl (hkind req (by simp))
        intro dir' hq'
        refine ih dir' fun req' hmem => hkind req' ?_
        rw [hq'] at hmem
        exact List.mem_cons_of_mem _ hmem

theorem processNext_quiet {queue : List (ShmemReq D n)}
    (hkind : ∀ req ∈ queue.tail, req.key.msgType.isRequest = true) :
    QuietNext (processNextReqFromL2Cache cfg ch) queue := by
  intro dir hq
  exact processNextFuel_quiet _ dir (hq ▸ hkind)

theorem Quiet.absurd {α : Type} {x : Except Fault α} {P : Prop} (hx : Quiet x)
    (h : x = .error fault) (hf : fault.ofRequest = false) : P := by
  have := hx fault h
  simp [hf] at this

variable {sender : Fin n} {buf : Option D}
variable (hkind : ∀ req ∈ dir.queue.tail, req.key.msgType.isRequest = true)

include hkind

theorem processInvRep_fault (h : processInvRepFromL2Cache cfg ch sender dir = .error fault)
    (hf : fault.ofRequest = false) :
    fault = .invRepState ∧
      ∃ entry, dir.entry = some entry ∧ ¬(entry.dstate = .shared ∨ entry.dstate = .exclusive) := by
  unfold processInvRepFromL2Cache at h
  split at h
  · cases h
    cases hf
  rename_i entry he
  split at h
  · rename_i hds
    cases h
    exact ⟨rfl, entry, he, hds⟩
  refine Quiet.absurd ((removeSharer_quiet sender).bind fun removed => ?_) h hf
  dsimp only
  split
  · exact quiet_ok _
  split
  · split
    · exact processExReq_quiet (processNext_quiet hkind) (by rfl) _
    · exact quiet_ok _
  · split
    · split
      · exact processUpgradeReq_quiet (processNext_quiet hkind) (by rfl) _
      · exact quiet_ok _
    split
    · exact processUpgradeReq_quiet (processNext_quiet hkind) (by rfl) _
    · exact quiet_ok _
  · split
    · exact quiet_ok _
    split
    · exact quiet_ok _
    · exact processShReq_quiet (processNext_quiet hkind) (by rfl) _
  · split
    · exact processNullifyReq_quiet (processNext_quiet hkind) (by rfl)
    · exact quiet_ok _

theorem processFlushRep_fault
    (h : processFlushRepFromL2Cache cfg ch sender buf dir = .error fault)
    (hf : fault.ofRequest = false) :
    (fault = .flushRepNotSharer ∧ ∃ entry, dir.entry = some entry ∧ sender ∉ entry.sharers) ∨
      (fault = .flushRepState ∧ ∃ entry, dir.entry = some entry ∧
        entry.sharers.erase sender ≠ ∅ ∧ entry.dstate ≠ .shared) := by
  unfold processFlushRepFromL2Cache at h
  split at h
  · cases h
    cases hf
  rename_i entry he
  split at h
  · rename_i hsh
    cases h
    exact .inl ⟨rfl, entry, he, by simpa [DirectoryEntry.hasSharer] using hsh⟩
  cases hrem : entry.removeSharer sender with
  | error fault' =>
    rw [hrem] at h
    cases h
    exact Quiet.absurd (removeSharer_quiet sender) hrem hf
  | ok removed =>
    simp only [hrem, bind, Except.bind] at h
    split at h
    · rename_i hstate
      cases h
      refine .inr ⟨rfl, entry, he, ?_⟩
      unfold DirectoryEntry.removeSharer at hrem
      split at hrem
      · cases hrem
        simpa [DirectoryEntry.getNumSharers] using hstate
      · cases hrem
    refine Quiet.absurd ?_ h hf
    split
    · exact quiet_ok _
    split
    · exact processExReq_quiet (processNext_quiet hkind) (by rfl) _
    · exact processShReq_quiet (processNext_quiet hkind) (by rfl) _
    · split
      · exact processUpgradeReq_quiet (processNext_quiet hkind) (by rfl) _
      · exact quiet_ok _
    · exact processNullifyReq_quiet (processNext_quiet hkind) (by rfl)

theorem processWbRep_fault (h : processWbRepFromL2Cache cfg ch sender buf dir = .error fault)
    (hf : fault.ofRequest = false) :
    (fault = .wbRepNotSharer ∧ ∃ entry, dir.entry = some entry ∧ sender ∉ entry.sharers) ∨
      (fault = .wbRepNoRequest ∧ dir.queue = []) ∨
      (fault = .wbRepType ∧ ∃ req rest, dir.queue = req :: rest ∧ req.key.msgType ≠ shReq) := by
  unfold processWbRepFromL2Cache at h
  split at h
  · cases h
    cases hf
  rename_i entry he
  split at h
  · rename_i hsh
    cases h
    exact .inl ⟨rfl, entry, he, by simpa [DirectoryEntry.hasSharer] using hsh⟩
  dsimp only at h
  split at h
  · rename_i hq
    cases h
    exact .inr (.inl ⟨rfl, hq⟩)
  rename_i req rest hq
  split at h
  · exact Quiet.absurd (processShReq_quiet (processNext_quiet hkind) (by rfl) _) h hf
  · rename_i ht
    cases h
    exact .inr (.inr ⟨rfl, req, rest, hq, ht⟩)

omit hkind in
/-- Which message such a fault answers. -/
theorem handleMsgFromL2Cache_fault {msg : ShmemMsg D}
    (h : handleMsgFromL2Cache cfg ch sender msg dir = .error fault) (hf : fault.ofRequest = false) :
    (msg.msgType = invRep ∧ processInvRepFromL2Cache cfg ch sender dir = .error fault) ∨
      (msg.msgType = flushRep ∧
        processFlushRepFromL2Cache cfg ch sender msg.dataBuf dir = .error fault) ∨
      (msg.msgType = wbRep ∧
        processWbRepFromL2Cache cfg ch sender msg.dataBuf dir = .error fault) ∨
      fault = .unrecognizedMsg := by
  have henqueue : msg.msgType.isRequest = true → Quiet (enqueueReq cfg ch msg.msgType sender dir) := by
    intro ht
    unfold enqueueReq
    dsimp only
    split
    · rename_i hq
      refine dispatchReq_quiet (processNext_quiet ?_) rfl ht
      simp [DramDirectory.enqueue, DramDirectory.emit, hq]
    · exact quiet_ok _
  unfold handleMsgFromL2Cache at h
  split at h
  case h_1 ht => exact Quiet.absurd (henqueue (by rw [ht]; rfl)) h hf
  case h_2 ht => exact Quiet.absurd (henqueue (by rw [ht]; rfl)) h hf
  case h_3 ht => exact Quiet.absurd (henqueue (by rw [ht]; rfl)) h hf
  case h_4 ht => exact .inl ⟨ht, h⟩
  case h_5 ht => exact .inr (.inl ⟨ht, h⟩)
  case h_6 ht => exact .inr (.inr (.inl ⟨ht, h⟩))
  case h_7 =>
    cases h
    exact .inr (.inr (.inr rfl))

theorem handleMsgFromDRAM_fault {msg : ShmemMsg D}
    (h : handleMsgFromDRAM cfg ch msg dir = .error fault) (hf : fault.ofRequest = false) :
    fault = .unrecognizedMsg ∨ fault = .dramReplyState ∨ fault = .dramReplyType := by
  unfold handleMsgFromDRAM at h
  split at h
  · unfold processDRAMReply at h
    split at h
    · cases h
      cases hf
    split at h
    · cases h
      cases hf
    rename_i req _ _ _ entry _
    cases hreply : dramReplyType req entry.dstate with
    | error fault' =>
      rw [hreply] at h
      cases h
      unfold dramReplyType at hreply
      grind
    | ok reply =>
      rw [hreply] at h
      exact Quiet.absurd (processNext_quiet hkind _ (by rfl)) h hf
  · cases h
    exact .inl rfl

omit hkind in
theorem nullify_fault {requester : Fin n} (h : nullify cfg ch requester dir = .error fault)
    (hf : fault.ofRequest = false) : fault = .notEnabled := by
  unfold nullify at h
  split at h
  · rename_i hq
    refine Quiet.absurd (processNullifyReq_quiet (processNext_quiet ?_) rfl) h hf
    simp [DramDirectory.enqueue, DramDirectory.emit, hq]
  · cases h
    rfl

end Sniper.Coherence
