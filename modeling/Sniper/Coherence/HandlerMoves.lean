import Sniper.Coherence.Directory
set_option autoImplicit false

/-! What the handlers of the directory do to it, one move at a time. -/

namespace Sniper.Coherence

open MsgType

variable {D : Type} {n : Nat}

/-- How far a handler is with the request at the head of the queue. -/
inductive Stage where
  | waiting | serving | answered | resting
deriving DecidableEq

/-- Where the handler of a message begins. -/
def Stage.ofQueue (queue : List (ShmemReq D n)) : Stage :=
  if queue = [] then .waiting else .serving

/-- One move. `held` is the buffer of the message that is being handled. -/
inductive Move (cfg : Config) (held : Option D) :
    Stage → DramDirectory D n → Stage → DramDirectory D n → Prop where
  | dispatch {dir : DramDirectory D n} {req : ShmemReq D n} {rest : List (ShmemReq D n)} :
      dir.queue = req :: rest →
      Move cfg held .waiting dir .serving (dir.emit (.dispatch req.key))
  | allocate {dir : DramDirectory D n} {req : ShmemReq D n} {rest : List (ShmemReq D n)}
      (forwarder : Option (Fin n)) :
      dir.queue = req :: rest → req.key.msgType.isRequest = true → dir.entry = none →
      Move cfg held .serving dir .serving (dir.setEntry (.new forwarder))
  | update {stage : Stage} {dir : DramDirectory D n} (entry : DirectoryEntry n) :
      stage = .waiting ∨ stage = .serving → dir.entry.isSome = true →
      Move cfg held stage dir stage (dir.setEntry entry)
  | write {stage : Stage} {dir : DramDirectory D n} :
      stage = .waiting ∨ stage = .serving →
      Move cfg held stage dir stage (dir.sendDataToDram held)
  | demand {dir : DramDirectory D n} (receivers : List (Fin n × MsgType)) :
      (∀ p ∈ receivers, p.2 = invReq ∨ p.2 = flushReq) →
      Move cfg held .serving dir .resting (dir.sendEach receivers)
  | askOwner {dir : DramDirectory D n} {entry : DirectoryEntry n} {req : ShmemReq D n}
      {rest : List (ShmemReq D n)} {o : Fin n} :
      dir.queue = req :: rest → req.key.msgType = shReq → dir.entry = some entry →
      entry.dstate = .exclusive ∨ entry.dstate = .modified → entry.owner = some o →
      Move cfg held .serving dir .resting (dir.sendMsg o wbReq none)
  | forward {dir : DramDirectory D n} {entry : DirectoryEntry n} {req : ShmemReq D n}
      {rest : List (ShmemReq D n)} {f : Fin n} :
      dir.queue = req :: rest → dir.entry = some entry → forwarderFor cfg entry req = some f →
      Move cfg held .serving dir .resting
        ({ dir with queue := { req with forwardingFrom := some f } :: rest }.sendMsg f wbReq none)
  | fetch {dir : DramDirectory D n} {req : ShmemReq D n} {rest : List (ShmemReq D n)} :
      dir.queue = req :: rest →
      Move cfg held .serving dir .resting
        ({ dir with queue := { req with waitForData := true } :: rest }.emit
          (.sendDram ⟨dramReadReq, none⟩))
  | answer {dir : DramDirectory D n} {req : ShmemReq D n} {rest : List (ShmemReq D n)}
      {t : MsgType} {buf : Option D} :
      dir.queue = req :: rest → req.key.msgType.answeredBy t = true →
      t = upgradeRep ∨ buf = held ∨ buf = req.dataBuf ∧ buf.isSome = true →
      Move cfg held .serving dir .answered (dir.sendMsg req.key.requester t buf)
  | vanish {dir : DramDirectory D n} {entry : DirectoryEntry n} {req : ShmemReq D n}
      {rest : List (ShmemReq D n)} :
      dir.queue = req :: rest → req.key.msgType.isRequest = false → dir.entry = some entry →
      entry.dstate = .uncached →
      Move cfg held .serving dir .answered { dir with entry := none }
  | dequeue {dir : DramDirectory D n} {req : ShmemReq D n} {rest : List (ShmemReq D n)} :
      dir.queue = req :: rest →
      Move cfg held .answered dir .waiting ({ dir with queue := rest }.emit (.dequeue req.key))
  | rest {stage : Stage} {dir : DramDirectory D n} :
      stage = .serving ∨ stage = .waiting ∧ dir.queue = [] → Move cfg held stage dir .resting dir

/-- Any number of moves from `base` on. -/
inductive Moves (cfg : Config) (held : Option D) (start : Stage) (base : DramDirectory D n) :
    Stage → DramDirectory D n → Prop where
  | refl : Moves cfg held start base start base
  | tail {stage stage' : Stage} {dir dir' : DramDirectory D n} :
      Moves cfg held start base stage dir → Move cfg held stage dir stage' dir' →
      Moves cfg held start base stage' dir'

theorem answeredBy_kinds {t reply : MsgType} (h : t.answeredBy reply = true) :
    t.isRequest = true ∧ reply.isReply = true := by
  unfold answeredBy at h
  split at h
  · exact ⟨rfl, rfl⟩
  · exact ⟨rfl, rfl⟩
  · exact ⟨rfl, rfl⟩
  · exact ⟨rfl, rfl⟩
  · exact ⟨rfl, rfl⟩
  · cases h

variable {cfg : Config} {ch : Choice D n} {held buf : Option D} {start stage : Stage}
variable {base dir dir' : DramDirectory D n} {entry : DirectoryEntry n}
variable {req : ShmemReq D n} {rest : List (ShmemReq D n)}
variable {next : DramDirectory D n → Except Fault (DramDirectory D n)}

/-- What every move keeps, the handlers keep. -/
theorem Moves.keeps {I : Stage → DramDirectory D n → Prop}
    (hmove : ∀ {stage dir stage' dir'}, I stage dir → Move cfg held stage dir stage' dir' →
      I stage' dir') (h : Moves cfg held start base stage dir) (hbase : I start base) :
    I stage dir := by
  induction h with
  | refl => exact hbase
  | tail _ hlast ih => exact hmove ih hlast

/-- The log only grows. -/
theorem Move.appends {stage' : Stage} (h : Move cfg held stage dir stage' dir') :
    dir.log <+: dir'.log := by
  cases h with
  | dispatch => exact List.prefix_append _ _
  | allocate => exact List.prefix_rfl
  | update => exact List.prefix_rfl
  | write => exact List.prefix_append _ _
  | demand => exact List.prefix_append _ _
  | askOwner => exact List.prefix_append _ _
  | forward => exact List.prefix_append _ _
  | fetch => exact List.prefix_append _ _
  | answer => exact List.prefix_append _ _
  | vanish => exact List.prefix_rfl
  | dequeue => exact List.prefix_append _ _
  | rest => exact List.prefix_rfl

theorem Moves.appends (h : Moves cfg held start base stage dir) : base.log <+: dir.log :=
  h.keeps (I := fun _ dir => base.log <+: dir.log) (fun hI hmove => hI.trans hmove.appends)
    List.prefix_rfl

/-- What ends a request does so by moves. -/
def MovesNext (cfg : Config) (held : Option D) (start : Stage) (base : DramDirectory D n)
    (next : DramDirectory D n → Except Fault (DramDirectory D n)) : Prop :=
  ∀ dir dir', next dir = .ok dir' → Moves cfg held start base .answered dir →
    Moves cfg held start base .resting dir'

section Handlers

theorem Moves.set (h : Moves cfg held start base .serving dir) (he : dir.entry.isSome = true)
    (entry : DirectoryEntry n) : Moves cfg held start base .serving (dir.setEntry entry) :=
  h.tail (.update entry (.inr rfl) he)

/-- A request handler starts by getting the entry. -/
theorem Moves.getOrAllocate (h : Moves cfg held start base .serving dir)
    (hq : dir.queue = req :: rest) (ht : req.key.msgType.isRequest = true) (ch : Choice D n) :
    Moves cfg held start base .serving (dir.setEntry (dir.getOrAllocate ch)) := by
  cases he : dir.entry with
  | none =>
    have hnew : dir.getOrAllocate ch = .new ch.forwarder := by
      simp [DramDirectory.getOrAllocate, he]
    rw [hnew]
    exact h.tail (.allocate ch.forwarder hq ht he)
  | some entry => exact h.set (by rw [he]; rfl) _

theorem flushOwner_moves (h : Moves cfg held start base .serving dir)
    (hr : dir.sendToOwner entry flushReq = .ok dir') : Moves cfg held start base .resting dir' := by
  unfold DramDirectory.sendToOwner at hr
  split at hr
  · cases hr
  · rename_i o _
    cases hr
    exact h.tail (.demand [(o, flushReq)] (by simp))

theorem writeBackOwner_moves (h : Moves cfg held start base .serving (dir.setEntry entry))
    (hq : dir.queue = req :: rest) (ht : req.key.msgType = shReq)
    (hds : entry.dstate = .exclusive ∨ entry.dstate = .modified)
    (hr : (dir.setEntry entry).sendToOwner entry wbReq = .ok dir') :
    Moves cfg held start base .resting dir' := by
  unfold DramDirectory.sendToOwner at hr
  split at hr
  · cases hr
  · rename_i o ho
    cases hr
    exact h.tail (.askOwner hq ht rfl hds ho)

theorem invalidate_moves (h : Moves cfg held start base .serving dir) (l : List (Fin n)) :
    Moves cfg held start base .resting (dir.sendEach (l.map fun sharer => (sharer, invReq))) := by
  refine h.tail (.demand _ ?_)
  intro p hp
  obtain ⟨c, -, rfl⟩ := List.mem_map.mp hp
  exact .inl rfl

theorem retrieveData_moves {reply : MsgType} (hnext : MovesNext cfg held start base next)
    (h : Moves cfg held start base .serving dir) (hq : dir.queue = req :: rest)
    (ht : req.key.msgType.answeredBy reply = true)
    (hbuf : buf = none ∨ buf = held ∨ buf = req.dataBuf)
    (hr : retrieveDataAndSendToL2Cache next cfg reply req.key.requester buf dir = .ok dir') :
    Moves cfg held start base .resting dir' := by
  unfold retrieveDataAndSendToL2Cache at hr
  split at hr
  · cases hr
  rename_i entry he
  split at hr
  · rename_i data
    have hset := h.set (by rw [he]; rfl) { entry with forwarder := some req.key.requester }
    refine hnext _ _ hr (hset.tail (.answer hq ht (.inr ?_)))
    rcases hbuf with hbuf | hbuf | hbuf
    · cases hbuf
    · exact .inl hbuf
    · exact .inr ⟨hbuf, rfl⟩
  rw [hq] at hr
  dsimp only at hr
  split at hr
  · rename_i f hf
    cases hr
    exact h.tail (.forward hq he hf)
  · cases hr
    exact h.tail (.fetch hq)

theorem addFirstSharer_moves {reply : MsgType} {ds : DirectoryState}
    (hnext : MovesNext cfg held start base next)
    (h : Moves cfg held start base .serving (dir.setEntry entry)) (hq : dir.queue = req :: rest)
    (ht : req.key.msgType.answeredBy reply = true)
    (hbuf : buf = none ∨ buf = held ∨ buf = req.dataBuf)
    (hr : (do
      let added ← entry.addFirstSharer req.key.requester (cfg.getMaxHwSharers n) ds
      retrieveDataAndSendToL2Cache next cfg reply req.key.requester buf
        ((dir.setEntry entry).setEntry added)) = .ok dir') :
    Moves cfg held start base .resting dir' := by
  cases hadd : entry.addFirstSharer req.key.requester (cfg.getMaxHwSharers n) ds with
  | error fault => simp [hadd, bind, Except.bind] at hr
  | ok added =>
    simp only [hadd, bind, Except.bind] at hr
    exact retrieveData_moves hnext (h.set rfl added) hq ht hbuf hr

theorem processExReq_moves (hnext : MovesNext cfg held start base next)
    (h : Moves cfg held start base .serving dir) (hq : dir.queue = req :: rest)
    (ht : req.key.msgType = exReq) (hbuf : buf = none ∨ buf = held)
    (hr : processExReqFromL2Cache next cfg ch req buf dir = .ok dir') :
    Moves cfg held start base .resting dir' := by
  have hget := h.getOrAllocate hq (by rw [ht]; rfl) ch
  unfold processExReqFromL2Cache at hr
  dsimp only at hr
  split at hr
  · split at hr
    · cases hr
    · exact flushOwner_moves hget hr
  · split at hr
    · cases hr
    · exact flushOwner_moves hget hr
  · split at hr
    · cases hr
    · cases hr
      exact invalidate_moves hget _
  · exact addFirstSharer_moves hnext hget hq (by rw [ht]; rfl) (hbuf.imp id .inl) hr
  · cases hr

theorem processShReqShared_moves (hnext : MovesNext cfg held start base next)
    (h : Moves cfg held start base .serving (dir.setEntry entry)) (hq : dir.queue = req :: rest)
    (ht : req.key.msgType = shReq) (hbuf : buf = none ∨ buf = held)
    (hr : processShReqShared next cfg ch req buf entry (dir.setEntry entry) = .ok dir') :
    Moves cfg held start base .resting dir' := by
  have hrep : req.key.msgType.answeredBy shRep = true := by rw [ht]; rfl
  unfold processShReqShared at hr
  split at hr
  · exact retrieveData_moves hnext h hq hrep (hbuf.imp id .inl) hr
  cases hadd : entry.addSharer req.key.requester (cfg.getMaxHwSharers n) with
  | error fault => simp [hadd, bind, Except.bind] at hr
  | ok result =>
    simp only [hadd, bind, Except.bind] at hr
    cases result with
    | none =>
      dsimp only at hr
      cases hone : entry.getOneSharer ch.oneSharer with
      | error fault => simp [hone] at hr
      | ok sharer =>
        simp only [hone] at hr
        cases hr
        exact invalidate_moves h [sharer]
    | some added =>
      dsimp only at hr
      exact retrieveData_moves hnext (h.set rfl added) hq hrep (hbuf.imp id .inl) hr

theorem processShReq_moves (hnext : MovesNext cfg held start base next)
    (h : Moves cfg held start base .serving dir) (hq : dir.queue = req :: rest)
    (ht : req.key.msgType = shReq) (hbuf : buf = none ∨ buf = held)
    (hr : processShReqFromL2Cache next cfg ch req buf dir = .ok dir') :
    Moves cfg held start base .resting dir' := by
  have hget := h.getOrAllocate hq (by rw [ht]; rfl) ch
  unfold processShReqFromL2Cache at hr
  dsimp only at hr
  split at hr
  · rename_i hds
    split at hr
    · cases hr
    split at hr
    · cases hr
    · exact writeBackOwner_moves hget hq ht (.inl hds) hr
  · rename_i hds
    split at hr
    · cases hr
    · exact writeBackOwner_moves hget hq ht (.inr hds) hr
  · exact processShReqShared_moves hnext hget hq ht hbuf hr
  · split at hr
    · exact addFirstSharer_moves hnext hget hq (by rw [ht]; rfl) (hbuf.imp id .inl) hr
    · exact addFirstSharer_moves hnext hget hq (by rw [ht]; rfl) (hbuf.imp id .inl) hr
    · exact addFirstSharer_moves hnext hget hq (by rw [ht]; rfl) (hbuf.imp id .inl) hr
  · cases hr

theorem upgradeTargets_kinds (entry : DirectoryEntry n) (r : Fin n) :
    ∀ p ∈ upgradeTargets entry r, p.2 = invReq ∨ p.2 = flushReq := by
  intro p hp
  unfold upgradeTargets at hp
  split at hp
  · obtain ⟨c, -, rfl⟩ := List.mem_map.mp hp
    exact .inl rfl
  split at hp
  · cases hp
  · rcases List.mem_cons.mp hp with rfl | hp
    · exact .inr rfl
    · obtain ⟨c, -, rfl⟩ := List.mem_map.mp hp
      exact .inl rfl

theorem processUpgradeReqOwned_moves (hnext : MovesNext cfg held start base next)
    (h : Moves cfg held start base .serving (dir.setEntry entry)) (hq : dir.queue = req :: rest)
    (ht : req.key.msgType = upgradeReq)
    (hr : processUpgradeReqOwned next req.key.requester entry (dir.setEntry entry) = .ok dir') :
    Moves cfg held start base .resting dir' := by
  unfold processUpgradeReqOwned at hr
  split at hr
  · cases hr
  split at hr
  · split at hr
    · -- the reply and the new state do not depend on each other
      have hset := h.set rfl { entry with dstate := .modified }
      exact hnext _ _ hr (hset.tail (.answer hq (by rw [ht]; rfl) (.inl rfl)))
    · cases hr
  · exact flushOwner_moves h hr

theorem processUpgradeReq_moves (hnext : MovesNext cfg held start base next)
    (h : Moves cfg held start base .serving dir) (hq : dir.queue = req :: rest)
    (ht : req.key.msgType = upgradeReq) (hbuf : buf = none ∨ buf = held)
    (hr : processUpgradeReqFromL2Cache next cfg ch req buf dir = .ok dir') :
    Moves cfg held start base .resting dir' := by
  have hget := h.getOrAllocate hq (by rw [ht]; rfl) ch
  unfold processUpgradeReqFromL2Cache at hr
  dsimp only at hr
  split at hr
  · exact processUpgradeReqOwned_moves hnext hget hq ht hr
  · exact processUpgradeReqOwned_moves hnext hget hq ht hr
  · split at hr
    · cases how : (dir.getOrAllocate ch).setOwner req.key.requester with
      | error fault => simp [how, bind, Except.bind] at hr
      | ok owned =>
        simp only [how, bind, Except.bind] at hr
        have hset := hget.set rfl { owned with dstate := .modified }
        exact hnext _ _ hr (hset.tail (.answer hq (by rw [ht]; rfl) (.inl rfl)))
    · cases hr
      exact hget.tail (.demand _ (upgradeTargets_kinds _ _))
  · split at hr
    · cases hr
    · refine addFirstSharer_moves hnext hget hq (by rw [ht]; rfl) ?_ hr
      rcases hbuf with rfl | rfl
      · exact .inr (.inr (Option.none_or))
      · cases buf with
        | none => exact .inr (.inr Option.none_or)
        | some data => exact .inr (.inl rfl)
  · cases hr

theorem processNullifyReq_moves (hnext : MovesNext cfg held start base next)
    (h : Moves cfg held start base .serving dir) (hq : dir.queue = req :: rest)
    (ht : req.key.msgType.isRequest = false)
    (hr : processNullifyReq next dir = .ok dir') : Moves cfg held start base .resting dir' := by
  unfold processNullifyReq at hr
  split at hr
  · cases hr
  rename_i entry he
  split at hr
  · exact flushOwner_moves h hr
  · exact flushOwner_moves h hr
  · cases hr
    exact invalidate_moves h _
  · rename_i hds
    exact hnext _ _ hr (h.tail (.vanish hq ht he hds))
  · cases hr

theorem dispatchReq_moves (hnext : MovesNext cfg held start base next)
    (h : Moves cfg held start base .waiting dir) (hq : dir.queue = req :: rest)
    (hr : dispatchReq next cfg ch req dir = .ok dir') : Moves cfg held start base .resting dir' := by
  have hserve := h.tail (.dispatch hq)
  unfold dispatchReq at hr
  dsimp only at hr
  split at hr
  case h_1 ht => exact processExReq_moves hnext hserve hq ht (.inl rfl) hr
  case h_2 ht => exact processShReq_moves hnext hserve hq ht (.inl rfl) hr
  case h_3 ht => exact processUpgradeReq_moves hnext hserve hq ht (.inl rfl) hr
  case h_4 => cases hr

theorem processNextFuel_moves (fuel : Nat) :
    MovesNext cfg held start base (processNextReqFromL2CacheFuel cfg ch fuel) := by
  induction fuel with
  | zero =>
    intro dir dir' hr
    cases hr
  | succ fuel ih =>
    intro dir dir' hr h
    unfold processNextReqFromL2CacheFuel at hr
    split at hr
    · cases hr
    rename_i completed rest hq
    have hdone := h.tail (.dequeue hq)
    dsimp only at hr
    split at hr
    · cases hr
      exact hdone.tail (.rest (.inr ⟨rfl, rfl⟩))
    · exact dispatchReq_moves ih hdone rfl hr

theorem processNext_moves : MovesNext cfg held start base (processNextReqFromL2Cache cfg ch) :=
  fun dir dir' hr => processNextFuel_moves dir.queue.length dir dir' hr

end Handlers

section Messages

theorem Stage.ofQueue_nil (hq : dir.queue = []) : Stage.ofQueue dir.queue = .waiting :=
  if_pos hq

theorem Stage.ofQueue_cons (hq : dir.queue = req :: rest) :
    Stage.ofQueue dir.queue = .serving := by
  simp [ofQueue, hq]

/-- A type that is none of the requests. -/
theorem not_request {t : MsgType} (hex : t ≠ exReq) (hsh : t ≠ shReq) (hup : t ≠ upgradeReq) :
    t.isRequest = false := by
  cases t <;> simp_all [isRequest]

/-- The handler of a notice takes its sender off the entry first. -/
theorem Moves.begin (cfg : Config) (held : Option D) (he : dir.entry = some entry)
    (entry' : DirectoryEntry n) :
    Moves cfg held (.ofQueue dir.queue) dir (.ofQueue dir.queue) (dir.setEntry entry') := by
  refine Moves.refl.tail (.update entry' ?_ (by rw [he]; rfl))
  unfold Stage.ofQueue
  split
  · exact .inl rfl
  · exact .inr rfl

theorem enqueueReq_moves {t : MsgType} {c : Fin n} (hr : enqueueReq cfg ch t c dir = .ok dir') :
    Moves cfg held (.ofQueue dir.queue) (dir.enqueue (.new t c)) .resting dir' := by
  unfold enqueueReq at hr
  dsimp only at hr
  split at hr
  · rename_i hq
    have hone : (dir.enqueue (.new t c)).queue = [.new t c] := by
      simp [DramDirectory.enqueue, DramDirectory.emit, hq]
    rw [Stage.ofQueue_nil hq]
    exact dispatchReq_moves processNext_moves .refl hone hr
  · rename_i hq
    cases hr
    rw [Stage.ofQueue_cons hq]
    exact Moves.refl.tail (.rest (.inl rfl))

theorem processInvRep_moves {c : Fin n} (hr : processInvRepFromL2Cache cfg ch c dir = .ok dir') :
    Moves cfg held (.ofQueue dir.queue) dir .resting dir' := by
  unfold processInvRepFromL2Cache at hr
  split at hr
  · cases hr
  rename_i entry he
  split at hr
  · cases hr
  cases hrem : entry.removeSharer c with
  | error fault => simp [hrem, bind, Except.bind] at hr
  | ok removed =>
    simp only [hrem, bind, Except.bind] at hr
    have hset := Moves.begin cfg held he (removed.afterInvRep c)
    split at hr
    · rename_i hq
      have hq : dir.queue = [] := hq
      cases hr
      rw [Stage.ofQueue_nil hq] at hset ⊢
      exact hset.tail (.rest (.inr ⟨rfl, hq⟩))
    rename_i req rest hq
    have hq : dir.queue = req :: rest := hq
    rw [Stage.ofQueue_cons hq] at hset ⊢
    have hstay := hset.tail (.rest (.inl rfl))
    split at hr
    case h_1 ht =>
      split at hr
      · exact processExReq_moves processNext_moves hset hq ht (.inl rfl) hr
      · cases hr
        exact hstay
    case h_2 ht =>
      split at hr
      · split at hr
        · exact processUpgradeReq_moves processNext_moves hset hq ht (.inl rfl) hr
        · cases hr
          exact hstay
      split at hr
      · exact processUpgradeReq_moves processNext_moves hset hq ht (.inl rfl) hr
      · cases hr
        exact hstay
    case h_3 ht =>
      split at hr
      · cases hr
        exact hstay
      split at hr
      · cases hr
        exact hstay
      · exact processShReq_moves processNext_moves hset hq ht (.inl rfl) hr
    case h_4 hex hup hsh =>
      split at hr
      · exact processNullifyReq_moves processNext_moves hset hq (not_request hex hsh hup) hr
      · cases hr
        exact hstay

/-- The buffer of a FLUSH_REP is kept for an UPGRADE_REQ that waits for other sharers. -/
inductive KeepsBuffer (ch : Choice D n) (c : Fin n) (dir dir' : DramDirectory D n) : Prop where
  | intro {entry removed : DirectoryEntry n} {req : ShmemReq D n} {rest : List (ShmemReq D n)}
      (present : dir.entry = some entry) (left : entry.removeSharer c = .ok removed)
      (queue : dir.queue = req :: rest) (upgrade : req.key.msgType = upgradeReq)
      (others : removed.getNumSharers ≠ 0)
      (kept : dir' = { dir.setEntry removed.afterFlushRep with
        queue := { req with dataBuf := some ch.freed } :: rest })

theorem processFlushRep_moves {c : Fin n}
    (hr : processFlushRepFromL2Cache cfg ch c held dir = .ok dir') :
    KeepsBuffer ch c dir dir' ∨ Moves cfg held (.ofQueue dir.queue) dir .resting dir' := by
  unfold processFlushRepFromL2Cache at hr
  split at hr
  · cases hr
  rename_i entry he
  split at hr
  · cases hr
  cases hrem : entry.removeSharer c with
  | error fault => simp [hrem, bind, Except.bind] at hr
  | ok removed =>
    simp only [hrem, bind, Except.bind] at hr
    split at hr
    · cases hr
    have hset := Moves.begin cfg held he removed.afterFlushRep
    split at hr
    · rename_i hq
      have hq : dir.queue = [] := hq
      cases hr
      rw [Stage.ofQueue_nil hq] at hset ⊢
      exact .inr ((hset.tail (.write (.inl rfl))).tail (.rest (.inr ⟨rfl, hq⟩)))
    rename_i req rest hq
    have hq : dir.queue = req :: rest := hq
    rw [Stage.ofQueue_cons hq] at hset ⊢
    have hwrite := hset.tail (.write (.inr rfl))
    split at hr
    case h_1 ht =>
      exact .inr (processExReq_moves processNext_moves hset hq ht (.inr rfl) hr)
    case h_2 ht =>
      exact .inr (processShReq_moves processNext_moves hwrite hq ht (.inr rfl) hr)
    case h_3 ht =>
      split at hr
      · exact .inr (processUpgradeReq_moves processNext_moves hset hq ht (.inr rfl) hr)
      · rename_i hothers
        cases hr
        exact .inl ⟨he, hrem, hq, ht, hothers, rfl⟩
    case h_4 hex hsh hup =>
      exact .inr (processNullifyReq_moves processNext_moves hwrite hq (not_request hex hsh hup) hr)

theorem processWbRep_moves {c : Fin n}
    (hr : processWbRepFromL2Cache cfg ch c held dir = .ok dir') :
    Moves cfg held (.ofQueue dir.queue) dir .resting dir' := by
  unfold processWbRepFromL2Cache at hr
  split at hr
  · cases hr
  rename_i entry he
  split at hr
  · cases hr
  dsimp only at hr
  split at hr
  · cases hr
  rename_i req rest hq
  have hq : dir.queue = req :: rest := hq
  have hset := Moves.begin cfg held he { entry with owner := none, dstate := .shared }
  rw [Stage.ofQueue_cons hq] at hset ⊢
  split at hr
  · rename_i ht
    exact processShReq_moves processNext_moves hset hq ht (.inr rfl) hr
  · cases hr

theorem dramReplyType_answers {ds : DirectoryState} {reply : MsgType}
    (h : dramReplyType req ds = .ok reply) : req.key.msgType.answeredBy reply = true := by
  unfold dramReplyType at h
  split at h
  case h_1 ht =>
    split at h <;> cases h
    · rw [ht]; rfl
    · rw [ht]; rfl
  case h_2 ht =>
    split at h <;> cases h
    rw [ht]; rfl
  case h_3 ht =>
    cases h
    rw [ht]; rfl
  case h_4 => cases h

theorem processDRAMReply_moves (hr : processDRAMReply cfg ch held dir = .ok dir') :
    Moves cfg held (.ofQueue dir.queue) dir .resting dir' := by
  unfold processDRAMReply at hr
  split at hr
  · cases hr
  rename_i req rest hq
  split at hr
  · cases hr
  rename_i entry _
  cases hreply : dramReplyType req entry.dstate with
  | error fault => simp [hreply, bind, Except.bind] at hr
  | ok reply =>
    simp only [hreply, bind, Except.bind] at hr
    rw [Stage.ofQueue_cons hq]
    exact processNext_moves _ _ hr
      (Moves.refl.tail (.answer hq (dramReplyType_answers hreply) (.inr (.inl rfl))))

theorem nullify_moves {requester : Fin n} (hr : nullify cfg ch requester dir = .ok dir') :
    dir.queue = [] ∧
      Moves cfg held .waiting (dir.enqueue (.new nullifyReq requester)) .resting dir' := by
  unfold nullify at hr
  split at hr
  · rename_i hq
    have hone : (dir.enqueue (.new nullifyReq requester)).queue = [.new nullifyReq requester] := by
      simp [DramDirectory.enqueue, DramDirectory.emit, hq]
    exact ⟨hq, processNullifyReq_moves processNext_moves (Moves.refl.tail (.dispatch hone)) hone rfl
      hr⟩
  · cases hr

end Messages

end Sniper.Coherence
