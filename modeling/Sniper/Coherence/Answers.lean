import Sniper.Lib.FifoServer
import Sniper.Coherence.Guarantees
import Sniper.Coherence.HandlerMoves
set_option autoImplicit false

namespace Sniper.Coherence

open MsgType Sniper.Lib

variable {D : Type} {n : Nat} {cfg : Config} {ch : Choice D n}

section Log

/-- A directory's events as those of a server: only EX_REP, SH_REP and UPGRADE_REP answer a
request. -/
def serverEvent : Event D n → Option (ServerEvent (ReqKey n) (Fin n × MsgType))
  | .enqueue req => some (.enqueue req)
  | .dispatch req => some (.dispatch req)
  | .dequeue req => some (.dequeue req)
  | .send receiver msg => if msg.msgType.isReply then some (.answer (receiver, msg.msgType)) else none
  | .sendDram _ => none

def serverLog (log : List (Event D n)) : List (ServerEvent (ReqKey n) (Fin n × MsgType)) :=
  log.filterMap serverEvent

@[simp] theorem serverLog_append (log more : List (Event D n)) :
    serverLog (log ++ more) = serverLog log ++ serverLog more := by
  simp [serverLog]

/-- A reply answers a request of its receiver, with a type that fits. -/
def answers (req : ReqKey n) (reply : Fin n × MsgType) : Bool :=
  decide (req.requester = reply.1) && req.msgType.answeredBy reply.2

/-- A nullification is not answered. -/
def silent (req : ReqKey n) : Bool := !req.msgType.isRequest

/-- The log of a step that began with the server in `st` leaves it with the directory's
queue, in this phase. -/
def At (st : Server (ReqKey n)) (dir : DramDirectory D n) (phase : Phase) : Prop :=
  st.acceptAll answers silent (serverLog dir.log) = some ⟨dir.queue.map ShmemReq.key, phase⟩

/-- Between two steps the request at the head is in service. -/
def settledPhase (queue : List (ShmemReq D n)) : Phase :=
  if queue = [] then .waiting else .serving

/-- When a request may be retired. -/
def donePhase (req : ReqKey n) : Phase := if silent req then .serving else .answered

variable {st : Server (ReqKey n)} {dir dir' : DramDirectory D n} {phase : Phase}
variable {req : ShmemReq D n} {rest : List (ShmemReq D n)}

/-- A part of the log that the server does not see. -/
theorem At.skip {more : List (Event D n)} (h : At st dir phase)
    (hlog : dir'.log = dir.log ++ more) (hmore : serverLog more = [])
    (hq : dir'.queue.map ShmemReq.key = dir.queue.map ShmemReq.key) : At st dir' phase := by
  unfold At
  rw [hlog, serverLog_append, hmore, List.append_nil, hq]
  exact h

/-- One event that it does see. -/
theorem At.event {event : Event D n} {e : ServerEvent (ReqKey n) (Fin n × MsgType)}
    {phase' : Phase} (h : At st dir phase) (hlog : dir'.log = dir.log ++ [event])
    (he : serverEvent event = some e)
    (hacc : Server.accept answers silent ⟨dir.queue.map ShmemReq.key, phase⟩ e =
      some ⟨dir'.queue.map ShmemReq.key, phase'⟩) : At st dir' phase' := by
  unfold At at h ⊢
  rw [hlog, serverLog_append, Server.acceptAll_append, h]
  simp [serverLog, he, Server.acceptAll, hacc]

theorem At.sendDemand {c : Fin n} {t : MsgType} {buf : Option D} (h : At st dir phase)
    (ht : t.isReply = false) : At st (dir.sendMsg c t buf) phase :=
  h.skip rfl (by simp [serverLog, serverEvent, ht]) rfl

theorem At.sendEach {receivers : List (Fin n × MsgType)} (h : At st dir phase)
    (ht : ∀ p ∈ receivers, p.2.isReply = false) : At st (dir.sendEach receivers) phase := by
  refine h.skip rfl ?_ rfl
  simp only [serverLog, List.filterMap_map, List.filterMap_eq_nil_iff]
  intro p hp
  simp [serverEvent, ht p hp]

theorem At.reply {c : Fin n} {t : MsgType} {buf : Option D} (h : At st dir .serving)
    (hq : dir.queue = req :: rest) (hc : c = req.key.requester)
    (ht : req.key.msgType.answeredBy t = true) : At st (dir.sendMsg c t buf) (donePhase req.key) := by
  have hkinds := answeredBy_kinds ht
  refine h.event (e := .answer (c, t)) rfl (by simp [serverEvent, hkinds.2]) ?_
  simp [Server.accept, hq, silent, answers, donePhase, hkinds.1, hc, ht, DramDirectory.sendMsg,
    DramDirectory.emit]

theorem At.dequeue (h : At st dir (donePhase req.key)) (hq : dir.queue = req :: rest) :
    At st ({ dir with queue := rest }.emit (.dequeue req.key)) .waiting := by
  refine h.event (e := .dequeue req.key) rfl rfl ?_
  simp [Server.accept, hq, donePhase]

theorem At.dispatch (h : At st dir .waiting) (hq : dir.queue = req :: rest) :
    At st (dir.emit (.dispatch req.key)) .serving := by
  refine h.event (e := .dispatch req.key) rfl rfl ?_
  simp [Server.accept, hq]

theorem At.enqueue (h : At st dir phase) (req : ShmemReq D n) : At st (dir.enqueue req) phase := by
  refine h.event (e := .enqueue req.key) rfl rfl ?_
  simp [Server.accept]

/-- The directory at rest. -/
def Rests (st : Server (ReqKey n)) (dir : DramDirectory D n) : Prop :=
  At st dir (settledPhase dir.queue)

theorem At.rests (h : At st dir .serving) (hq : dir.queue = req :: rest) : Rests st dir := by
  simpa [Rests, settledPhase, hq] using h

end Log

section Handlers

variable {st : Server (ReqKey n)} {dir dir' : DramDirectory D n} {stage stage' : Stage}
variable {req : ShmemReq D n} {rest : List (ShmemReq D n)} {held buf : Option D}

/-- What the server has seen at a stage of a handler. -/
def Served (st : Server (ReqKey n)) : Stage → DramDirectory D n → Prop
  | .waiting, dir => At st dir .waiting
  | .serving, dir => dir.queue ≠ [] ∧ At st dir .serving
  | .answered, dir => ∃ req rest, dir.queue = req :: rest ∧ At st dir (donePhase req.key)
  | .resting, dir => Rests st dir

/-- The queue did not change, and neither did what the server sees. -/
theorem Served.skip {more : List (Event D n)} (h : Served st stage dir)
    (hstage : stage = .waiting ∨ stage = .serving) (hlog : dir'.log = dir.log ++ more)
    (hmore : serverLog more = []) (hq : dir'.queue = dir.queue) : Served st stage dir' := by
  have hkeys : dir'.queue.map ShmemReq.key = dir.queue.map ShmemReq.key := by rw [hq]
  rcases hstage with rfl | rfl
  · exact At.skip h hlog hmore hkeys
  · exact ⟨hq ▸ h.1, h.2.skip hlog hmore hkeys⟩

theorem Served.rests (h : Served st .serving dir) : Rests st dir := by
  obtain ⟨hne, h⟩ := h
  obtain ⟨req, rest, hq⟩ := List.exists_cons_of_ne_nil hne
  exact h.rests hq

/-- The request at the head of the queue is rewritten, and a cache or DRAM is asked for the
data. -/
theorem Served.replace {more : List (Event D n)} {req' : ShmemReq D n}
    (h : Served st .serving dir) (hq : dir.queue = req :: rest) (hkey : req'.key = req.key)
    (hmore : serverLog more = []) :
    Rests st { dir with queue := req' :: rest, log := dir.log ++ more } := by
  refine At.rests (At.skip h.2 rfl hmore ?_) rfl
  simp [hq, hkey]

/-- Every move obeys the discipline of the server. -/
theorem Move.served (h : Served st stage dir) (hmove : Move cfg held stage dir stage' dir') :
    Served st stage' dir' := by
  cases hmove with
  | dispatch hq => exact ⟨by simp [hq], At.dispatch h hq⟩
  | allocate => exact h.skip (.inr rfl) (List.append_nil _).symm rfl rfl
  | update _ hstage => exact h.skip hstage (List.append_nil _).symm rfl rfl
  | write hstage => exact h.skip hstage rfl (by simp [serverLog, serverEvent]) rfl
  | demand receivers ht =>
    refine Served.rests ⟨h.1, h.2.sendEach fun p hp => ?_⟩
    rcases ht p hp with hp | hp <;> simp [hp, isReply]
  | askOwner => exact Served.rests ⟨h.1, h.2.sendDemand rfl⟩
  | forward hq => exact h.replace hq rfl (by simp [serverLog, serverEvent, isReply])
  | fetch hq => exact h.replace hq rfl (by simp [serverLog, serverEvent])
  | answer hq ht => exact ⟨_, _, hq, h.2.reply hq rfl ht⟩
  | @vanish _ entry req rest hq ht =>
    refine ⟨req, rest, hq, ?_⟩
    have hdone : donePhase req.key = .serving := by simp [donePhase, silent, ht]
    rw [hdone]
    exact h.2.skip (List.append_nil _).symm rfl rfl
  | @dequeue _ req rest hq =>
    obtain ⟨req', rest', hq', h⟩ := h
    rw [hq] at hq'
    cases hq'
    exact h.dequeue hq
  | rest hstage =>
    rcases hstage with rfl | ⟨rfl, hq⟩
    · exact h.rests
    · simpa [Served, Rests, settledPhase, hq] using h

theorem Moves.rests {start : Stage} {base : DramDirectory D n}
    (h : Moves cfg held start base .resting dir) (hbase : Served st start base) : Rests st dir :=
  h.keeps (I := Served st) Move.served hbase

theorem Rests.served (h : Rests st dir) : Served st (.ofQueue dir.queue) dir := by
  cases hq : dir.queue with
  | nil =>
    rw [Stage.ofQueue, if_pos rfl]
    show At st dir .waiting
    simpa [Rests, settledPhase, hq] using h
  | cons req rest =>
    rw [Stage.ofQueue, if_neg (List.cons_ne_nil req rest)]
    exact ⟨by simp [hq], by simpa [Rests, settledPhase, hq] using h⟩

/-- The server takes in a request as the directory does. -/
theorem Served.enqueue (h : Rests st dir) (t : MsgType) (c : Fin n) :
    Served st (.ofQueue dir.queue) (dir.enqueue (.new t c)) := by
  have hserved := h.served
  cases hq : dir.queue with
  | nil =>
    rw [Stage.ofQueue_nil hq] at hserved
    exact At.enqueue hserved _
  | cons req rest =>
    rw [Stage.ofQueue_cons hq] at hserved
    exact ⟨by simp, hserved.2.enqueue _⟩

theorem enqueueReq_rests {t : MsgType} {c : Fin n} (h : Rests st dir)
    (hr : enqueueReq cfg ch t c dir = .ok dir') : Rests st dir' := by
  have hmoves : Moves cfg none (.ofQueue dir.queue) (dir.enqueue (.new t c)) .resting dir' :=
    enqueueReq_moves hr
  exact hmoves.rests (Served.enqueue h t c)

theorem processInvRep_rests {c : Fin n} (h : Rests st dir)
    (hr : processInvRepFromL2Cache cfg ch c dir = .ok dir') : Rests st dir' := by
  have hmoves : Moves cfg none (.ofQueue dir.queue) dir .resting dir' := processInvRep_moves hr
  exact hmoves.rests h.served

/-- The buffer of a FLUSH_REP is kept for the request at the head. -/
theorem KeepsBuffer.rests {c : Fin n} (h : Rests st dir) (hkeep : KeepsBuffer ch c dir dir') :
    Rests st dir' := by
  obtain ⟨-, -, hq, -, -, rfl⟩ := hkeep
  have hserved := h.served
  rw [Stage.ofQueue_cons hq] at hserved
  refine At.rests (hserved.2.skip (List.append_nil _).symm rfl ?_) rfl
  simp [hq]

theorem handleMsgFromL2Cache_rests {c : Fin n} {msg : ShmemMsg D} (h : Rests st dir)
    (hr : handleMsgFromL2Cache cfg ch c msg dir = .ok dir') : Rests st dir' := by
  unfold handleMsgFromL2Cache at hr
  split at hr
  case h_1 => exact enqueueReq_rests h hr
  case h_2 => exact enqueueReq_rests h hr
  case h_3 => exact enqueueReq_rests h hr
  case h_4 => exact processInvRep_rests h hr
  case h_5 =>
    rcases processFlushRep_moves hr with hkeep | hmoves
    · exact hkeep.rests h
    · exact hmoves.rests h.served
  case h_6 => exact (processWbRep_moves hr).rests h.served
  case h_7 => cases hr

theorem processDRAMReply_rests (h : Rests st dir)
    (hr : processDRAMReply cfg ch buf dir = .ok dir') : Rests st dir' :=
  (processDRAMReply_moves hr).rests h.served

theorem nullify_rests {requester : Fin n} (h : Rests st dir)
    (hr : nullify cfg ch requester dir = .ok dir') : Rests st dir' := by
  have hmoves : dir.queue = [] ∧ Moves cfg none .waiting (dir.enqueue (.new nullifyReq requester))
    .resting dir' := nullify_moves hr
  exact hmoves.2.rests (Stage.ofQueue_nil hmoves.1 ▸ Served.enqueue h nullifyReq requester)

end Handlers

section System

variable {race : Prop} {s s' : Sys D n} {o : List (Event D n)}

/-- The directory as a server of its requests. -/
def Sys.server (s : Sys D n) : Server (ReqKey n) :=
  ⟨s.dir.queue.map ShmemReq.key, settledPhase s.dir.queue⟩

theorem Inv.rests (h : Inv race cfg s) : Rests s.server s.dir := by
  simp [Rests, At, h.log, serverLog, Server.acceptAll, Sys.server]

theorem dirStep_server {result : Except Fault (DramDirectory D n)} {st : Server (ReqKey n)}
    (hr : s.dirStep result = .ok (s', o)) (h : ∀ dir, result = .ok dir → Rests st dir) :
    st.acceptAll answers silent (serverLog o) = some s'.server := by
  unfold Sys.dirStep at hr
  split at hr
  · cases hr
  · rename_i dir
    cases hr
    exact h dir rfl

theorem cacheStep_server {c : Fin n} {result : CacheStep D}
    (hr : s.cacheStep c result = .ok (s', o)) :
    s.server.acceptAll answers silent (serverLog o) = some s'.server := by
  unfold Sys.cacheStep at hr
  split at hr
  · cases hr
  · cases hr
    rfl

/-- Every step of the system obeys the discipline of the server. -/
theorem Inv.step_server {a : Action D n} (h : Inv race cfg s)
    (hr : Coherence.step cfg s a = .ok (s', o)) :
    s.server.acceptAll answers silent (serverLog o) = some s'.server := by
  cases a with
  | read c => exact cacheStep_server hr
  | write c => exact cacheStep_server hr
  | store c data => exact cacheStep_server (s := { s with latest := data }) hr
  | evict c => exact cacheStep_server hr
  | finishWaiter c => exact cacheStep_server hr
  | deliverToCache c unwritten =>
    simp only [Coherence.step] at hr
    split at hr
    · cases hr
    split at hr
    · cases hr
    · rename_i msg rest _
      exact cacheStep_server (s := s.popToCache c rest) hr
  | deliverToDir c ch =>
    simp only [Coherence.step] at hr
    split at hr
    · cases hr
    · exact dirStep_server hr fun dir hres => handleMsgFromL2Cache_rests h.rests hres
  | accessDram =>
    simp only [Coherence.step, Sys.accessDram] at hr
    split at hr
    · cases hr
    split at hr
    · cases hr
      rfl
    · cases hr
      rfl
    · cases hr
  | deliverFromDram ch =>
    simp only [Coherence.step] at hr
    split at hr
    · cases hr
    · refine dirStep_server hr fun dir hres => ?_
      unfold handleMsgFromDRAM at hres
      split at hres
      · exact processDRAMReply_rests h.rests hres
      · cases hres
  | nullify requester ch => exact dirStep_server hr fun dir hres => nullify_rests h.rests hres

/-- What the directory did along a run, as the server sees it. -/
def runLog (tr : List (Action D n × List (Event D n))) :
    List (ServerEvent (ReqKey n) (Fin n × MsgType)) :=
  serverLog (tr.flatMap Prod.snd)

theorem run_server {tr : List (Action D n × List (Event D n))}
    (h : Run (machine D n cfg) anyStep tr s) :
    Server.acceptAll answers silent ⟨[], .waiting⟩ (runLog tr) = some s.server := by
  induction h with
  | start hinit =>
    obtain ⟨data, rfl⟩ := hinit
    rfl
  | next hrun _ hstep ih =>
    have hinv := Inv.of_reachable hrun.reachable
    simp only [runLog, List.flatMap_append, serverLog_append, Server.acceptAll_append]
    rw [show serverLog (List.flatMap Prod.snd _) = runLog _ from rfl, ih]
    simpa using hinv.step_server hstep

end System

section Progress

variable {race : Prop} {s : Sys D n} {q : Demand} {v : View}

theorem Asks.in_flight {wb : Bool} {dn : List MsgType} (h : Asks q wb dn)
    (hwait : q.asked = some wbReq ∨ q.asked = some flushReq ∨ q.mustInv) :
    wb = true ∨ dn ≠ [] := by
  rcases hwait with ha | ha | hm
  · rcases h.wbIff.mp ha with hwb | hmem
    · exact .inl hwb
    · exact .inr (List.ne_nil_of_mem hmem)
  · exact .inr (List.ne_nil_of_mem (h.flushed ha))
  · rcases h.inv hm with hmem | hmem
    · exact .inr (List.ne_nil_of_mem hmem)
    · exact .inr (List.ne_nil_of_mem hmem)

/-- What the directory waits for from a sharer is in flight. -/
theorem Shape.in_flight (h : Shape race q v) (hheld : q.held) (hadded : ¬q.added)
    (hwait : q.asked = some wbReq ∨ q.asked = some flushReq ∨ q.mustInv) :
    v.up ≠ [] ∨ v.dn ≠ [] := by
  cases h with
  | away hh => exact absurd hheld hh
  | added _ ha => exact absurd ha hadded
  | granted _ _ _ _ _ _ pre tail t hdn => exact .inr (by simp [hdn])
  | holding _ _ _ _ wb hup hasks =>
    refine (hasks.in_flight hwait).imp (fun hwb => ?_) id
    simp [hup, hwb, wbPart]
  | upgrading _ _ _ _ wb hasks _ hstage =>
    refine (hasks.in_flight hwait).imp (fun hwb => ?_) id
    cases hstage with
    | sent hup => simp [hup]
    | sentBefore hup => simp [hup]
    | waits hup => simp [hup, hwb, wbPart]
  | upgraded _ _ _ _ _ _ _ pre tail hdn => exact .inr (by simp [hdn])
  | leaving _ _ _ _ wb t _ _ _ _ hstage =>
    refine .inl ?_
    cases hstage with
    | none hup => simp [hup]
    | sentEx hup => simp [hup]
    | sentSh hup => simp [hup]
  | leavingUpgrade _ _ _ _ t _ _ _ _ hstage =>
    refine .inl ?_
    cases hstage with
    | sent hup => simp [hup]
    | waits hup => simp [hup]
  | doomed _ _ _ _ hup => exact .inl (by simp [hup])

/-- No message is in flight. -/
def Sys.Quiescent (s : Sys D n) : Prop :=
  (∀ c, s.toDir c = [] ∧ s.toCache c = []) ∧ s.toDram = [] ∧ s.fromDram = []

/-- The sharer from which the head request waits for something. -/
theorem DirOk.waits_for {dir : DramDirectory D n} {w : Wait n} {req : ShmemReq D n}
    {rest : List (ShmemReq D n)} (hok : DirOk cfg dir w) (hq : dir.queue = req :: rest)
    (hidle : w ≠ .idle) (hdram : w ≠ .dram) :
    ∃ c ∈ dir.sharers, ¬addedBy c dir.queue ∧
      (w.asked c = some wbReq ∨ w.asked c = some flushReq ∨ w.mustInv c) := by
  have hnot : ∀ c, ¬req.Flagged → ¬addedBy c dir.queue := by
    intro c hflag
    simp [hq, addedBy, hflag]
  have hsome : dir.dstate = .shared → dir.sharers.Nonempty := by
    intro hds
    rw [Finset.nonempty_iff_ne_empty]
    intro hempty
    simpa [hds] using hok.uncached.mpr hempty
  cases hok.head req rest hq with
  | idle => exact absurd rfl hidle
  | dram => exact absurd rfl hdram
  | @forward f _ _ _ _ _ hsource hother =>
    refine ⟨f, hsource, ?_, .inl (by simp [Wait.asked])⟩
    simpa [hq, addedBy] using fun _ => Ne.symm hother
  | @writeBack c _ hflag hds how =>
    obtain ⟨o, ho, hsh⟩ := hok.owner hds
    rw [how] at ho
    cases ho
    exact ⟨c, by simp [hsh], hnot c hflag, .inl (by simp [Wait.asked])⟩
  | @flush c _ hflag hds how =>
    obtain ⟨o, ho, hsh⟩ := hok.owner hds
    rw [how] at ho
    cases ho
    exact ⟨c, by simp [hsh], hnot c hflag, .inr (.inl (by simp [Wait.asked]))⟩
  | invAll _ hflag hds =>
    obtain ⟨c, hc⟩ := hsome hds
    exact ⟨c, hc, hnot c hflag, .inr (.inr trivial)⟩
  | invOthers _ hflag hds hothers =>
    obtain ⟨c, hc, hne⟩ : ∃ c ∈ dir.sharers, c ≠ req.key.requester := by
      by_contra hall
      push Not at hall
      refine hothers (Finset.eq_singleton_iff_unique_mem.mpr ⟨?_, hall⟩)
      obtain ⟨c, hc⟩ := hsome hds
      exact hall c hc ▸ hc
    exact ⟨c, hc, hnot c hflag, .inr (.inr hne)⟩
  | @invSome p _ hflag _ hmem => exact ⟨p, hmem, hnot p hflag, .inr (.inr rfl)⟩

/-- A request is never left behind: when nothing is in flight, nothing is queued. -/
theorem Inv.queue_empty (h : Inv race cfg s) (hquiet : s.Quiescent) : s.dir.queue = [] := by
  obtain ⟨w, hgood, hidle, -⟩ := h.settled
  obtain ⟨hchannels, htoDram, hfromDram⟩ := hquiet
  by_cases hw : w = .idle
  · exact hidle hw
  cases hq : s.dir.queue with
  | nil => rfl
  | cons req rest =>
    exfalso
    by_cases hd : w = .dram
    · have hreads := hgood.reads
      simp [Sys.reads, htoDram, hfromDram, h.log, hd] at hreads
    · obtain ⟨c, hc, hadded, hwait⟩ := hgood.ok.waits_for hq hw hd
      rcases (hgood.shapes c).in_flight hc hadded hwait with hup | hdn
      · exact hup (by simp [Sys.view, View.of, (hchannels c).1])
      · exact hdn (by simp [Sys.view, View.of, (hchannels c).2, h.log])

theorem serveWaiters_recognizes (cache : Cache D) :
    cache.serveWaiters ≠ .error .unrecognizedRequest := by
  unfold Cache.serveWaiters Cache.processUpgradeReqToDirectory
  grind

theorem initiateDirectoryAccess_recognizes (cache : Cache D) (exclusive : Bool) :
    cache.initiateDirectoryAccess exclusive ≠ .error .unrecognizedRequest := by
  unfold Cache.initiateDirectoryAccess Cache.processUpgradeReqToDirectory
    Cache.processExReqToDirectory Cache.processShReqToDirectory
  grind

theorem handleMsgFromDramDirectory_recognizes (cache : Cache D) (msg : ShmemMsg D) (unwritten : D) :
    cache.handleMsgFromDramDirectory msg unwritten ≠ .error .unrecognizedRequest := by
  have hreply : cache.processReplyAndServe msg unwritten ≠ .error .unrecognizedRequest := by
    intro hr
    unfold Cache.processReplyAndServe at hr
    split at hr
    · cases hr
    split at hr
    · rename_i hp
      cases hr
      unfold Cache.processReply Cache.insertCacheBlock at hp
      grind
    · exact serveWaiters_recognizes _ hr
  unfold Cache.handleMsgFromDramDirectory
  split
  · exact hreply
  · exact hreply
  · exact hreply
  · unfold Cache.processInvReqFromDramDirectory
    grind
  · unfold Cache.processFlushReqFromDramDirectory
    grind
  · unfold Cache.processWbReqFromDramDirectory
    grind
  · simp

/-- `processNextReqFromL2Cache` never meets a message type it does not know. -/
theorem Inv.recognizes {a : Action D n} (h : Inv race cfg s) :
    Coherence.step cfg s a ≠ .error .unrecognizedRequest := by
  intro hr
  cases h.fault_cases hr with
  | access hfail => exact initiateDirectoryAccess_recognizes _ _ hfail
  | finishWaiter _ hfail => exact serveWaiters_recognizes _ hfail
  | message _ hfail => exact handleMsgFromDramDirectory_recognizes _ _ _ hfail
  | request hreq => cases hreq
  | other hother => rcases hother with hf | hf | hf | hf | hf <;> cases hf
  | race hf => cases hf

end Progress

end Sniper.Coherence
