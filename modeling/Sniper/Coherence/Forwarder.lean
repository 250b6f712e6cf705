import Sniper.Lib.Fairness
import Sniper.Coherence.HandlerMoves
import Sniper.Coherence.Answers
import Mathlib.Data.List.GetD
import Mathlib.Data.Prod.Lex
set_option autoImplicit false

namespace Sniper.Coherence

open MsgType Sniper.Lib

variable {D : Type} {n : Nat} {race : Prop} {cfg : Config} {ch : Choice D n}
variable {s s' : Sys D n} {dir dir' base : DramDirectory D n} {entry : DirectoryEntry n}
variable {req : ShmemReq D n} {rest : List (ShmemReq D n)} {f : Fin n}
variable {held : Option D} {start stage stage' : Stage} {o : List (Event D n)}

section Log

/-- Events that ask no cache to write back and read nothing from DRAM. -/
def Event.Unasking : Event D n → Prop
  | .send _ msg => msg.msgType ≠ wbReq
  | .sendDram msg => msg.msgType ≠ dramReadReq
  | .enqueue _ | .dispatch _ | .dequeue _ => True

/-- The core the request at the head asks to write back: the forwarder of a SHARED entry or
the owner of another. -/
inductive Asked (cfg : Config) (dir : DramDirectory D n) (f : Fin n) : Prop where
  | forwarder {req : ShmemReq D n} {rest : List (ShmemReq D n)} {entry : DirectoryEntry n}
      (queue : dir.queue = req :: rest) (source : req.forwardingFrom = some f)
      (present : dir.entry = some entry) (dstate : entry.dstate = .shared)
      (forwarder : entry.forwarder = some f) : Asked cfg dir f
  | owner {req : ShmemReq D n} {rest : List (ShmemReq D n)} {entry : DirectoryEntry n}
      (queue : dir.queue = req :: rest) (kind : req.key.msgType = shReq)
      (present : dir.entry = some entry)
      (dstate : entry.dstate = .exclusive ∨ entry.dstate = .modified)
      (owner : entry.owner = some f) : Asked cfg dir f

/-- A WB_REQ is the last thing a handler does, and no read from DRAM comes with it. -/
structure AsksAtLast (cfg : Config) (stage : Stage) (dir : DramDirectory D n) : Prop where
  before : stage ≠ .resting → ∀ event ∈ dir.log, event.Unasking
  asked : ∀ f buf, .send f ⟨wbReq, buf⟩ ∈ dir.log →
    Asked cfg dir f ∧ ∀ msg, .sendDram msg ∈ dir.log → msg.msgType ≠ dramReadReq

theorem AsksAtLast.of_unasking (h : ∀ event ∈ dir.log, event.Unasking) :
    AsksAtLast cfg stage dir :=
  ⟨fun _ => h, fun _ _ hmem => absurd rfl (h _ hmem)⟩

/-- The log grows by what asks nothing. -/
theorem AsksAtLast.append {more : List (Event D n)} (h : AsksAtLast cfg stage dir)
    (hs : stage ≠ .resting) (hlog : dir'.log = dir.log ++ more)
    (hmore : ∀ event ∈ more, event.Unasking) : AsksAtLast cfg stage' dir' := by
  refine .of_unasking fun event hmem => ?_
  rw [hlog, List.mem_append] at hmem
  exact hmem.elim (h.before hs event) (hmore event)

/-- A WB_REQ joins the log of a handler that asked nothing before. -/
theorem AsksAtLast.ask {dir : DramDirectory D n} (h : ∀ event ∈ dir.log, event.Unasking)
    (hlog : dir'.log = dir.log ++ [.send f ⟨wbReq, none⟩]) (hasked : Asked cfg dir' f) :
    AsksAtLast cfg .resting dir' := by
  refine ⟨fun hs => absurd rfl hs, fun f' buf hmem => ?_⟩
  rw [hlog, List.mem_append, List.mem_singleton] at hmem
  rcases hmem with hmem | hmem
  · exact absurd rfl (h _ hmem)
  cases hmem
  refine ⟨hasked, fun msg hmem => ?_⟩
  rw [hlog, List.mem_append, List.mem_singleton] at hmem
  rcases hmem with hmem | hmem
  · exact h _ hmem
  · cases hmem

theorem unasking_demands {receivers : List (Fin n × MsgType)}
    (h : ∀ p ∈ receivers, p.2 = invReq ∨ p.2 = flushReq) :
    ∀ event ∈ receivers.map fun (c, t) => (Event.send c ⟨t, none⟩ : Event D n),
      event.Unasking := by
  intro event hmem
  obtain ⟨p, hp, rfl⟩ := List.mem_map.mp hmem
  show p.2 ≠ wbReq
  rcases h p hp with ht | ht <;> simp [ht]

theorem Move.asksAtLast (h : AsksAtLast cfg stage dir) (hmove : Move cfg held stage dir stage' dir') :
    AsksAtLast cfg stage' dir' := by
  cases hmove with
  | dispatch => exact h.append (by simp) rfl (by simp [Event.Unasking])
  | allocate => exact h.append (by simp) (List.append_nil _).symm (by simp)
  | update _ hs => exact h.append (by grind) (List.append_nil _).symm (by simp)
  | write hs => exact h.append (by grind) rfl (by simp [Event.Unasking])
  | demand receivers ht => exact h.append (by simp) rfl (unasking_demands ht)
  | askOwner hq ht he hds ho =>
    exact .ask (h.before (by simp)) rfl (.owner hq ht he hds ho)
  | forward hq he hf =>
    unfold forwarderFor at hf
    split at hf
    · rename_i hcond
      exact .ask (h.before (by simp)) rfl (.forwarder rfl rfl he hcond.2.2 hf)
    · cases hf
  | fetch =>
    refine ⟨fun hs => absurd rfl hs, fun f buf hmem => ?_⟩
    rcases List.mem_append.mp hmem with hmem | hmem
    · exact absurd rfl (h.before (by simp) _ hmem)
    · simp at hmem
  | answer _ ht =>
    refine h.append (by simp) rfl fun event hmem => ?_
    rw [List.mem_singleton.mp hmem]
    rintro rfl
    cases (answeredBy_kinds ht).2
  | vanish => exact h.append (by simp) (List.append_nil _).symm (by simp)
  | dequeue => exact h.append (by simp) rfl (by simp [Event.Unasking])
  | rest hs => exact h.append (by grind) (List.append_nil _).symm (by simp)

theorem Moves.asksAtLast (h : Moves cfg held start base stage dir)
    (hbase : ∀ event ∈ base.log, event.Unasking) : AsksAtLast cfg stage dir :=
  h.keeps (fun hI hmove => Move.asksAtLast hI hmove) (.of_unasking hbase)

end Log

section Handling

variable {w : Wait n} {c : Fin n} {msg : ShmemMsg D} {ups : List (ShmemMsg D)} {buf : Option D}

/-- A request whose requester was made a sharer waits for its forwarder or for DRAM. -/
theorem HeadOk.flagged (h : HeadOk cfg dir req w) (hf : req.Flagged) (hw : w ≠ .idle) :
    req.key.requester ∈ dir.sharers ∧
      (w = .dram ∧ req.waitForData = true ∧ (req.key.msgType = shReq ∨ dir.dstate = .modified) ∨
        ∃ f, w = .wb f ∧ req.waitForData = false ∧ req.forwardingFrom = some f ∧
          req.key.msgType = shReq ∧ dir.dstate = .shared) := by
  cases h with
  | idle => exact absurd rfl hw
  | dram _ hwait hm hds => exact ⟨hm, .inl ⟨rfl, hwait, hds.imp And.left And.right⟩⟩
  | @forward f hk hwait hsource hds hm => exact ⟨hm, .inr ⟨f, rfl, hwait, hsource, hk, hds⟩⟩
  | writeBack _ hflag => exact absurd hf hflag
  | flush _ hflag => exact absurd hf hflag
  | invAll _ hflag => exact absurd hf hflag
  | invOthers _ hflag => exact absurd hf hflag
  | invSome _ hflag => exact absurd hf hflag

/-- No message is sent. -/
def Silent (log : List (Event D n)) : Prop := (∀ c, sentTo c log = []) ∧ sentToDram log = []

/-- The request is answered and leaves the queue. -/
def Completed (key : ReqKey n) (log : List (Event D n)) : Prop :=
  (∃ reply buf, key.msgType.answeredBy reply = true ∧
    .send key.requester ⟨reply, buf⟩ ∈ log) ∧ .dequeue key ∈ log

/-- What a message of `c` does to a directory that waits for the data of a request. -/
inductive Handled (req : ShmemReq D n) (c : Fin n) (msg : ShmemMsg D)
    (dir' : DramDirectory D n) : Prop where
  | completed : req.waitForData = false → Completed req.key dir'.log → Handled req c msg dir'
  | fetched (rest : List (ShmemReq D n)) :
      req.waitForData = false → req.forwardingFrom = some c →
      dir'.queue = { req with waitForData := true } :: rest →
      dir'.log = [.sendDram ⟨dramReadReq, none⟩] → Handled req c msg dir'
  | stayed (rest : List (ShmemReq D n)) :
      req.waitForData = true ∨ req.forwardingFrom ≠ some c ∨ msg.msgType.isRequest = true →
      dir'.queue = req :: rest → Silent dir'.log → Handled req c msg dir'

/-- What is sent before a request ends, and its end, stays in the log. -/
theorem processNext_completes {reply : MsgType}
    (hq : dir.queue = req :: rest) (ht : req.key.msgType.answeredBy reply = true)
    (hr : processNextReqFromL2Cache cfg ch (dir.sendMsg req.key.requester reply buf) = .ok dir') :
    Completed req.key dir'.log := by
  have hsent : ∀ base : DramDirectory D n, dir.log ++ [.send req.key.requester ⟨reply, buf⟩] ++
      [.dequeue req.key] = base.log → base.log <+: dir'.log → Completed req.key dir'.log := by
    intro base hbase hprefix
    refine ⟨⟨reply, buf, ht, hprefix.subset ?_⟩, hprefix.subset ?_⟩
    · simp [← hbase]
    · simp [← hbase]
  rw [processNext_eq, show (dir.sendMsg req.key.requester reply buf).queue = req :: rest from hq]
    at hr
  dsimp only at hr
  split at hr
  · cases hr
    exact hsent _ rfl List.prefix_rfl
  · rename_i next _
    have hmoves : Moves cfg none .waiting ({ dir.sendMsg req.key.requester reply buf with
        queue := next :: _ }.emit (.dequeue req.key)) .resting dir' :=
      dispatchReq_moves processNext_moves .refl rfl hr
    exact hsent _ rfl hmoves.appends

theorem enqueueReq_handled {t : MsgType} (hlog : dir.log = []) (hq : dir.queue = req :: rest)
    (ht : msg.msgType.isRequest = true) (hr : enqueueReq cfg ch t c dir = .ok dir') :
    Handled req c msg dir' := by
  unfold enqueueReq at hr
  rw [hq] at hr
  cases hr
  refine .stayed (rest ++ [.new t c]) (.inr (.inr ht)) ?_ ⟨fun c' => ?_, ?_⟩
  · simp [hq]
  · simp [hlog, sentTo]
  · simp [hlog, sentToDram]

/-- The wait for the data of the head request. -/
theorem Inv.flagged (h : Inv race cfg s) (hq : s.dir.queue = req :: rest) (hf : req.Flagged) :
    ∃ w, Good race cfg s w s.dir ∧ req.key.requester ∈ s.dir.sharers ∧
      (w = .dram ∧ req.waitForData = true ∧
          (req.key.msgType = shReq ∨ s.dir.dstate = .modified) ∨
        ∃ f, w = .wb f ∧ req.waitForData = false ∧ req.forwardingFrom = some f ∧
          req.key.msgType = shReq ∧ s.dir.dstate = .shared) := by
  obtain ⟨w, hgood, hidle, -⟩ := h.settled
  refine ⟨w, hgood, (hgood.ok.head req rest hq).flagged hf ?_⟩
  intro hw
  simp [hidle hw] at hq

/-- A SH_REQ whose requester is a sharer already goes on where it stopped. -/
theorem processShReq_again {next : DramDirectory D n → Except Fault (DramDirectory D n)}
    (he : dir.entry = some entry) (hds : entry.dstate = .shared)
    (hmem : req.key.requester ∈ entry.sharers) :
    processShReqFromL2Cache next cfg ch req buf dir =
      retrieveDataAndSendToL2Cache next cfg shRep req.key.requester buf dir := by
  have hget : dir.getOrAllocate ch = entry := by simp [DramDirectory.getOrAllocate, he]
  unfold processShReqFromL2Cache
  rw [hget]
  dsimp only
  rw [← eq_setEntry he]
  simp only [hds, processShReqShared, DirectoryEntry.hasSharer, hmem, decide_true, if_true]

/-- The forwarder has given up its copy, so the data is read from DRAM. Other sharers may
leave meanwhile. -/
theorem Inv.invRep_handled (h : Inv race cfg s) (hq : s.dir.queue = req :: rest)
    (hf : req.Flagged) (hup : s.toDir c = msg :: ups) (ht : msg.msgType = invRep)
    (hr : processInvRepFromL2Cache cfg ch c s.dir = .ok dir') : Handled req c msg dir' := by
  obtain ⟨w, hgood, hmem, hwait⟩ := h.flagged hq hf
  have hne := hgood.notice_ne hup (.inl ht) hq hf
  have hquiet : Silent s.dir.log := by simp [Silent, h.log]
  unfold processInvRepFromL2Cache at hr
  split at hr
  · cases hr
  rename_i entry he
  rw [entry_sharers he] at hmem
  rw [entry_dstate he] at hwait
  split at hr
  · cases hr
  rename_i hds
  cases hrem : entry.removeSharer c with
  | error fault => simp [hrem, bind, Except.bind] at hr
  | ok removed =>
    obtain ⟨-, rfl⟩ := removeSharer_ok hrem
    have hleft : req.key.requester ∈ (entry.removed c).sharers := Finset.mem_erase.mpr ⟨hne, hmem⟩
    have hsome : ¬(entry.removed c).getNumSharers = 0 :=
      fun h0 => by simp [Finset.card_eq_zero.mp h0] at hleft
    have hkind : req.key.msgType = shReq := by
      rcases hwait with ⟨-, -, hk | hm⟩ | ⟨f, -, -, -, hk, -⟩
      · exact hk
      · simp [hm] at hds
      · exact hk
    simp only [hrem, bind, Except.bind, DramDirectory.setEntry_queue, hq, hkind] at hr
    rcases hwait with ⟨-, hwait, -⟩ | ⟨f, -, hwait, hsource, -, hshared⟩
    · simp only [hwait, if_true] at hr
      cases hr
      exact .stayed rest (.inl hwait) hq hquiet
    by_cases hc : f = c
    · subst hc
      simp only [hwait, hsource, Bool.false_eq_true, if_false, ne_eq, not_true_eq_false,
        and_false] at hr
      have hstill : ((entry.removed f).afterInvRep f).dstate = .shared := by
        simp only [DirectoryEntry.afterInvRep, hsome, if_false]
        exact hshared
      rw [processShReq_again (DramDirectory.setEntry_entry _ _) hstill hleft] at hr
      simp only [retrieveDataAndSendToL2Cache, DramDirectory.setEntry_entry,
        DramDirectory.setEntry_queue, hq, forwarderFor, hsource, reduceCtorEq, false_and,
        and_false, if_false] at hr
      cases hr
      exact .fetched rest hwait hsource (by simp [hsource]) (by simp [h.log])
    · simp only [hwait, hsource, Bool.false_eq_true, if_false] at hr
      rw [if_pos ⟨by simp, by simpa using hc⟩] at hr
      cases hr
      exact .stayed rest (.inr (.inl (by simpa [hsource] using hc))) hq hquiet

/-- Nobody flushes a line whose data a request waits for. -/
theorem Inv.no_flushRep (h : Inv race cfg s) (hq : s.dir.queue = req :: rest)
    (hf : req.Flagged) (hup : s.toDir c = msg :: ups) : msg.msgType ≠ flushRep := by
  intro ht
  obtain ⟨w, hgood, hmem, hwait⟩ := h.flagged hq hf
  have hne := hgood.notice_ne hup (.inr ht) hq hf
  obtain ⟨hheld, -, -, hdirty, -⟩ := (hgood.shapes c).notice (view_up hup _) (.inr ht)
  have hheld : c ∈ s.dir.sharers := hheld
  have howned : ¬(s.dir.dstate = .exclusive ∨ s.dir.dstate = .modified) := by
    intro hds
    obtain ⟨o, -, hsh⟩ := hgood.ok.owner hds
    rw [hsh, Finset.mem_singleton] at hmem hheld
    exact hne (hmem.trans hheld.symm)
  rcases hdirty ht with hds | hds | hflush
  · exact howned (.inl hds)
  · exact howned (.inr hds)
  · rcases hwait with ⟨rfl, -⟩ | ⟨f, rfl, -⟩
    · exact (calm_dram _ _).not_flushing hflush
    · rcases hflush with hasked | hmay
      · simp [Wait.asked] at hasked
      · exact hmay

/-- The data of the forwarder completes the request. -/
theorem Inv.wbRep_handled (h : Inv race cfg s) (hq : s.dir.queue = req :: rest)
    (hf : req.Flagged) (hup : s.toDir c = msg :: ups) (ht : msg.msgType = wbRep)
    (hr : processWbRepFromL2Cache cfg ch c msg.dataBuf s.dir = .ok dir') :
    Handled req c msg dir' := by
  obtain ⟨w, hgood, hmem, hwait⟩ := h.flagged hq hf
  have hasked : w.asked c = some wbReq :=
    ((hgood.shapes c).wroteBack (ht ▸ view_up hup s.dir.log)).2.2.1
  rcases hwait with ⟨rfl, -⟩ | ⟨f, -, hwait, -, hkind, -⟩
  · cases hasked
  have hdata := h.payload c msg (by simp [hup]) (.inl ht)
  unfold processWbRepFromL2Cache at hr
  split at hr
  · cases hr
  rename_i entry he
  rw [entry_sharers he] at hmem
  split at hr
  · cases hr
  simp only [DramDirectory.setEntry_queue, hq, hkind, if_true] at hr
  have hset : (s.dir.setEntry { entry with owner := none, dstate := .shared }).entry =
      some { entry with owner := none, dstate := .shared } := rfl
  rw [processShReq_again hset rfl hmem] at hr
  obtain ⟨data, hdata⟩ := Option.isSome_iff_exists.mp hdata
  simp only [retrieveDataAndSendToL2Cache, DramDirectory.setEntry_entry, hdata] at hr
  have hrep : req.key.msgType.answeredBy shRep = true := by rw [hkind]; rfl
  refine .completed hwait (processNext_completes (show _ = req :: rest from ?_) hrep hr)
  exact hq

theorem Inv.handleMsg_handled (h : Inv race cfg s) (hq : s.dir.queue = req :: rest)
    (hf : req.Flagged) (hup : s.toDir c = msg :: ups)
    (hr : handleMsgFromL2Cache cfg ch c msg s.dir = .ok dir') : Handled req c msg dir' := by
  unfold handleMsgFromL2Cache at hr
  split at hr
  case h_1 ht => exact enqueueReq_handled h.log hq (by rw [ht]; rfl) hr
  case h_2 ht => exact enqueueReq_handled h.log hq (by rw [ht]; rfl) hr
  case h_3 ht => exact enqueueReq_handled h.log hq (by rw [ht]; rfl) hr
  case h_4 ht => exact h.invRep_handled hq hf hup ht hr
  case h_5 ht => exact absurd ht (h.no_flushRep hq hf hup)
  case h_6 ht => exact h.wbRep_handled hq hf hup ht hr
  case h_7 => cases hr

/-- So does the data from DRAM. -/
theorem handleMsgFromDRAM_completes (hq : dir.queue = req :: rest)
    (hr : handleMsgFromDRAM cfg ch msg dir = .ok dir') : Completed req.key dir'.log := by
  unfold handleMsgFromDRAM at hr
  split at hr
  · unfold processDRAMReply at hr
    rw [hq] at hr
    dsimp only at hr
    split at hr
    · cases hr
    rename_i entry he
    cases hreply : dramReplyType req entry.dstate with
    | error fault => simp [hreply, bind, Except.bind] at hr
    | ok reply =>
      simp only [hreply, bind, Except.bind] at hr
      exact processNext_completes hq (dramReplyType_answers hreply) hr
  · cases hr

end Handling

section Sent

variable {w : Wait n} {c : Fin n} {msg : ShmemMsg D} {buf : Option D} {a : Action D n}

theorem handleMsgFromL2Cache_asks (hlog : dir.log = [])
    (hr : handleMsgFromL2Cache cfg ch c msg dir = .ok dir') : AsksAtLast cfg .resting dir' := by
  have hbase : ∀ event ∈ dir.log, event.Unasking := by simp [hlog]
  have hnew : ∀ t, ∀ event ∈ (dir.enqueue (.new t c)).log, event.Unasking := by
    simp [hlog, Event.Unasking]
  unfold handleMsgFromL2Cache at hr
  split at hr
  case h_1 => exact (enqueueReq_moves hr : Moves cfg none _ _ _ _).asksAtLast (hnew _)
  case h_2 => exact (enqueueReq_moves hr : Moves cfg none _ _ _ _).asksAtLast (hnew _)
  case h_3 => exact (enqueueReq_moves hr : Moves cfg none _ _ _ _).asksAtLast (hnew _)
  case h_4 => exact (processInvRep_moves hr : Moves cfg none _ _ _ _).asksAtLast hbase
  case h_5 =>
    rcases processFlushRep_moves hr with ⟨-, -, -, -, -, rfl⟩ | hmoves
    · exact .of_unasking hbase
    · exact hmoves.asksAtLast hbase
  case h_6 => exact (processWbRep_moves hr).asksAtLast hbase
  case h_7 => cases hr

/-- A WB_REQ on its way: the directory waits for the answer, for the request at the head. -/
theorem Inv.asked (dir : DramDirectory D n) (h : Inv race cfg s) (hdir : s.dir = { dir with log := [] })
    (hreads : s.reads [] = 0) (hasked : Asked cfg dir f) :
    Good race cfg s (.wb f) s.dir ∧ Asked cfg s.dir f := by
  obtain ⟨w, hgood, hidle, -⟩ := h.settled
  have hasked' : Asked cfg s.dir f := by
    rw [hdir]
    cases hasked with
    | forwarder hq hf he hds hread => exact .forwarder hq hf he hds hread
    | owner hq ht he hds ho => exact .owner hq ht he hds ho
  refine ⟨?_, hasked'⟩
  have hdram : w ≠ .dram := by
    rintro rfl
    have := hgood.reads
    rw [h.log, hreads] at this
    simp at this
  have hbusy : ∀ {req rest}, s.dir.queue = req :: rest → w ≠ .idle := by
    intro req rest hq hw
    simp [hidle hw] at hq
  cases hasked' with
  | forwarder hq hf _ _ _ =>
    obtain ⟨-, ⟨hw, -⟩ | ⟨f', rfl, -, hf', -⟩⟩ :=
      (hgood.ok.head _ _ hq).flagged (.inr (by simp [hf])) (hbusy hq)
    · exact absurd hw hdram
    · obtain rfl : f' = f := by simpa [hf'] using hf
      exact hgood
  | owner hq ht he hds ho =>
    rw [← entry_dstate he] at hds
    have ho' : s.dir.owner = some f := by simp [DramDirectory.owner, he, ho]
    rcases (hgood.ok.head _ _ hq).share ht (hbusy hq) with
      ⟨hw, -⟩ | ⟨f', -, -, -, hshared, -⟩ | ⟨-, ⟨o, rfl, -, howner⟩ | ⟨p, -, hshared⟩⟩
    · exact absurd hw hdram
    · simp [hshared] at hds
    · obtain rfl : o = f := by simpa [howner] using ho'
      exact hgood
    · simp [hshared] at hds

/-- Nothing is read from DRAM with a WB_REQ. -/
theorem reads_afterDir (hlast : AsksAtLast cfg .resting dir)
    (hsent : .send f ⟨wbReq, buf⟩ ∈ dir.log) : (s.afterDir dir).reads [] = s.reads [] := by
  have hnone : (sentToDram dir.log).countP (fun msg => msg.msgType = dramReadReq) = 0 := by
    rw [List.countP_eq_zero]
    intro msg hmem
    simpa using (hlast.asked f buf hsent).2 msg (mem_sentToDram.mp hmem)
  have hgrow : s.reads ([] ++ dir.log) = s.reads [] + _ := reads_append [] dir.log
  rw [List.nil_append, hnone] at hgrow
  simpa [Sys.reads, Sys.afterDir] using hgrow

theorem Inv.wbReq_sent (h : Inv race cfg s) (h' : Inv race cfg s')
    (hr : Coherence.step cfg s a = .ok (s', o)) (hsent : .send f ⟨wbReq, buf⟩ ∈ o) :
    Good race cfg s' (.wb f) s'.dir ∧ Asked cfg s'.dir f := by
  obtain ⟨w, hgood, hidle, -⟩ := h.settled
  have hreads := hgood.reads
  rw [h.log] at hreads
  cases stepCase hr with
  | access => simp at hsent
  | toCache => simp at hsent
  | dram => simp at hsent
  | @toDir c ch msg rest dir hup hres hs' =>
    have hlast := handleMsgFromL2Cache_asks h.log hres
    have hdram : w ≠ .dram := by
      rintro rfl
      -- the request that waits for DRAM is not the one the WB_REQ is sent for
      cases hq : s.dir.queue with
      | nil => simpa using hgood.ok.empty hq
      | cons req rest' =>
        have hwait : req.waitForData = true := by
          cases hgood.ok.head req rest' hq
          assumption
        cases h.handleMsg_handled hq (.inl hwait) hup hres with
        | completed hnot => simp [hwait] at hnot
        | fetched _ hnot => simp [hwait] at hnot
        | stayed _ _ _ hsilent =>
          have := mem_sentTo.mpr hsent
          simp [hsilent.1 f] at this
    rw [if_neg hdram] at hreads
    refine h'.asked dir (by rw [hs']; rfl) ?_ (hlast.asked f buf hsent).1
    rw [hs', reads_afterDir hlast hsent]
    exact hreads
  | @fromDram ch msg rest dir hfrom hres hs' =>
    have hlast : AsksAtLast cfg .resting dir := by
      unfold handleMsgFromDRAM at hres
      split at hres
      · exact (processDRAMReply_moves hres).asksAtLast (by simp [h.log])
      · cases hres
    refine h'.asked dir (by rw [hs']; rfl) ?_ (hlast.asked f buf hsent).1
    rw [hs', reads_afterDir hlast hsent]
    have hmore : s.reads [] = ({ s with fromDram := rest } : Sys D n).reads [] + 1 := by
      simp only [Sys.reads, hfrom, List.length_cons]
      omega
    split at hreads
    · omega
    · omega
  | @nullify requester ch dir hres hs' =>
    obtain ⟨hq, hmoves⟩ : _ ∧ Moves cfg none _ _ _ _ := nullify_moves hres
    have hlast := hmoves.asksAtLast (by simp [h.log, Event.Unasking])
    rw [hgood.ok.empty hq] at hreads
    refine h'.asked dir (by rw [hs']; rfl) ?_ (hlast.asked f buf hsent).1
    rw [hs', reads_afterDir hlast hsent]
    exact hreads

/-- The core has the line, or gets it before the WB_REQ, or has given it up with a notice
that is on its way. -/
def Sys.HasHeld (s : Sys D n) (c : Fin n) : Prop :=
  (s.cache c).cstate ≠ .invalid ∨
    (∃ msg ∈ s.toDir c, msg.msgType = invRep ∨ msg.msgType = flushRep) ∨
    ∃ before reply after, s.toCache c = before ++ reply :: after ∧ reply.msgType.isReply = true ∧
      ∃ msg ∈ after, msg.msgType = wbReq

theorem GrantFits.reply {v : View} {tail : List MsgType} {ds : DirectoryState} {t : MsgType}
    (h : GrantFits v tail ds t) : t.isReply = true := by
  cases h <;> rfl

/-- Only a core that has had the line is asked to write it back. -/
theorem Shape.has_held {q : Demand} {v : View} (h : Shape race q v) (hheld : q.held)
    (hadded : ¬q.added) (hasked : q.asked = some wbReq) :
    v.cstate ≠ .invalid ∨ (∃ t ∈ v.up, t = invRep ∨ t = flushRep) ∨
      ∃ before t after, v.dn = before ++ t :: after ∧ t.isReply = true ∧ wbReq ∈ after := by
  cases h with
  | away hh => exact absurd hheld hh
  | added _ ha => exact absurd ha hadded
  | granted _ _ _ _ _ _ pre tail t hdn _ hasks hfits =>
    refine .inr (.inr ⟨pre, t, tail, hdn, hfits.reply, ?_⟩)
    simpa using hasks.wbIff.mp hasked
  | holding _ _ _ _ _ _ _ hfits =>
    refine .inl ?_
    rcases hfits.isCopy with hc | hc | hc <;> simp [hc]
  | upgrading _ _ hc => exact .inl (by simp [hc])
  | upgraded _ _ hc => exact .inl (by simp [hc])
  | leaving _ _ _ _ wb t ht _ _ _ hstage =>
    refine .inr (.inl ⟨t, ?_, ht⟩)
    cases hstage with
    | none hup => simp [hup]
    | sentEx hup => simp [hup]
    | sentSh hup => simp [hup]
  | leavingUpgrade _ _ _ _ t ht _ _ _ hstage =>
    refine .inr (.inl ⟨t, ?_, ht⟩)
    cases hstage with
    | sent hup => simp [hup]
    | waits hup => simp [hup]
  | doomed _ _ _ _ hup => exact .inr (.inl ⟨invRep, by simp [hup], .inl rfl⟩)

/-- The sharer that is asked to write back, and has not been added by the same request. -/
theorem Good.wb_sharer (h : Good race cfg s (.wb f) s.dir) (hq : s.dir.queue = req :: rest) :
    f ∈ s.dir.sharers ∧ ¬addedBy f s.dir.queue := by
  rw [hq]
  cases h.ok.head req rest hq with
  | forward _ _ _ _ _ hmem hother => exact ⟨hmem, fun hadd => hother hadd.2.symm⟩
  | writeBack _ hflag hds howner =>
    exact ⟨by simp [h.ok.owner_mem hds howner], fun hadd => hflag hadd.1⟩

theorem Inv.has_held (h : Inv race cfg s) (hgood : Good race cfg s (.wb f) s.dir)
    (hq : s.dir.queue = req :: rest) : s.HasHeld f := by
  obtain ⟨hmem, hadded⟩ := hgood.wb_sharer hq
  have hshape := (hgood.shapes f).has_held hmem hadded (by simp [Wait.asked])
  simp only [Sys.view, View.of, h.log, sentTo_nil, List.append_nil, List.mem_map] at hshape
  refine hshape.imp id (Or.imp ?_ ?_)
  · rintro ⟨-, ⟨msg, hmsg, rfl⟩, ht⟩
    exact ⟨msg, hmsg, ht⟩
  · rintro ⟨before, t, after, hdn, ht, hwb⟩
    obtain ⟨l₁, l₂, hsplit, rfl, hl₂⟩ := List.map_eq_append_iff.mp hdn
    obtain ⟨reply, l₃, rfl, rfl, rfl⟩ := List.map_eq_cons_iff.mp hl₂
    obtain ⟨msg, hmsg, hwb⟩ := List.mem_map.mp hwb
    exact ⟨l₁, reply, l₃, hsplit, ht, msg, hmsg, hwb⟩

/-- The request at the head has `f` write the line back: its forwarder, which the entry
records as a sharer other than the requester, or the owner. -/
inductive WritesBack (s : Sys D n) (f : Fin n) : Prop where
  | forwarder {req : ShmemReq D n} {rest : List (ShmemReq D n)} {entry : DirectoryEntry n}
      (queue : s.dir.queue = req :: rest) (source : req.forwardingFrom = some f)
      (present : s.dir.entry = some entry) (dstate : entry.dstate = .shared)
      (forwarder : entry.forwarder = some f) (sharer : entry.hasSharer f = true)
      (other : f ≠ req.key.requester) : WritesBack s f
  | owner {req : ShmemReq D n} {rest : List (ShmemReq D n)} {entry : DirectoryEntry n}
      (queue : s.dir.queue = req :: rest) (kind : req.key.msgType = shReq)
      (present : s.dir.entry = some entry)
      (dstate : entry.dstate = .exclusive ∨ entry.dstate = .modified)
      (owner : entry.owner = some f) (sharer : entry.hasSharer f = true) : WritesBack s f

theorem Good.writesBack (h : Good race cfg s (.wb f) s.dir) (hasked : Asked cfg s.dir f) :
    WritesBack s f := by
  cases hasked with
  | @forwarder req rest entry hq hf he hds hread =>
    obtain ⟨hmem, -⟩ := h.wb_sharer hq
    rw [entry_sharers he] at hmem
    refine .forwarder hq hf he hds hread (by simpa [DirectoryEntry.hasSharer] using hmem) ?_
    cases h.ok.head req rest hq with
    | forward _ _ _ _ _ _ hother => exact hother
    | writeBack _ hflag => exact absurd (.inr (by simp [hf])) hflag
  | owner hq ht he hds ho =>
    obtain ⟨hmem, -⟩ := h.wb_sharer hq
    rw [entry_sharers he] at hmem
    exact .owner hq ht he hds ho (by simpa [DirectoryEntry.hasSharer] using hmem)

end Sent

section Completion

variable {w : Wait n} {c : Fin n} {a : Action D n} {key : ReqKey n}

/-- The request at the head of the queue is `key`, forwarded from `f`. -/
def Forwarded (key : ReqKey n) (f : Fin n) (s : Sys D n) : Prop :=
  ∃ req rest, s.dir.queue = req :: rest ∧ req.key = key ∧ req.forwardingFrom = some f

/-- The message a forwarded request waits for: the demand to its forwarder, the answer to
that, or the read from DRAM and its reply. -/
inductive Leg where
  | reply | dram | answer | demand
deriving DecidableEq

def Leg.rank : Leg → Nat
  | .reply => 0
  | .dram => 1
  | .answer => 2
  | .demand => 3

theorem Leg.rank_injective : Function.Injective Leg.rank := by
  intro l m h
  cases l <;> cases m <;> cases h <;> rfl

/-- No request: an INV_REP, a FLUSH_REP or a WB_REP. -/
def ShmemMsg.isAnswer (msg : ShmemMsg D) : Bool := !msg.msgType.isRequest

def ShmemMsg.isRead (msg : ShmemMsg D) : Bool := decide (msg.msgType = dramReadReq)

namespace Sys

def waitsForData (s : Sys D n) : Bool := s.dir.queue.head?.any fun req => req.waitForData

def leg (s : Sys D n) (f : Fin n) : Leg :=
  if s.waitsForData then
    if s.fromDram.isEmpty then .dram else .reply
  else if (s.toDir f).any ShmemMsg.isAnswer then .answer
  else .demand

/-- The messages that are delivered before. -/
def ahead (s : Sys D n) (f : Fin n) : Nat :=
  match s.leg f with
  | .reply => 0
  | .dram => s.toDram.findIdx ShmemMsg.isRead
  | .answer => (s.toDir f).findIdx ShmemMsg.isAnswer
  | .demand => (s.toCache f).length

/-- How far a forwarded request is from its end. -/
def distance (s : Sys D n) (f : Fin n) : ℕ ×ₗ ℕ := toLex ((s.leg f).rank, s.ahead f)

/-- The delivery that brings the request forward. -/
def isDue (s : Sys D n) (f : Fin n) (a : Action D n) : Prop :=
  match s.leg f with
  | .reply => ∃ ch, a = .deliverFromDram ch
  | .dram => a = .accessDram
  | .answer => ∃ ch, a = .deliverToDir f ch
  | .demand => ∃ unwritten, a = .deliverToCache f unwritten

theorem leg_of_waits (hw : s.waitsForData = true) :
    s.leg f = if s.fromDram.isEmpty then .dram else .reply := by
  simp only [leg, hw, if_true]

theorem leg_of_asks (hw : s.waitsForData = false) :
    s.leg f = if (s.toDir f).any ShmemMsg.isAnswer then .answer else .demand := by
  simp only [leg, hw, Bool.false_eq_true, if_false]

theorem rank_of_waits (hw : s.waitsForData = true) : (s.leg f).rank < 2 := by
  rw [leg_of_waits hw]
  split <;> simp [Leg.rank]

theorem rank_of_asks (hw : s.waitsForData = false) : 2 ≤ (s.leg f).rank := by
  rw [leg_of_asks hw]
  split <;> simp [Leg.rank]

theorem leg_of_distance (h : s'.distance f = s.distance f) : s'.leg f = s.leg f := by
  refine Leg.rank_injective ?_
  exact congrArg Prod.fst (toLex.injective h)

theorem distance_lt_of_leg (h : (s'.leg f).rank < (s.leg f).rank) : s'.distance f < s.distance f :=
  Prod.Lex.toLex_lt_toLex.mpr (.inl h)

theorem distance_lt_of_ahead (h : s'.leg f = s.leg f) (ha : s'.ahead f < s.ahead f) :
    s'.distance f < s.distance f :=
  Prod.Lex.toLex_lt_toLex.mpr (.inr ⟨by rw [h], ha⟩)

theorem distance_le_of_ahead (h : s'.leg f = s.leg f) (ha : s'.ahead f ≤ s.ahead f) :
    s'.distance f ≤ s.distance f :=
  Prod.Lex.toLex_le_toLex.mpr (.inr ⟨by rw [h], ha⟩)

/-- Messages that join the channel to the directory and leave the one to the cache bring
the request no further away. -/
theorem distance_le {more : List (ShmemMsg D)} (hwait : s'.waitsForData = s.waitsForData)
    (hdram : s'.toDram = s.toDram) (hfrom : s'.fromDram = s.fromDram)
    (hup : s'.toDir f = s.toDir f ++ more)
    (hdn : (s'.toCache f).length ≤ (s.toCache f).length) : s'.distance f ≤ s.distance f := by
  by_cases hw : s.waitsForData = true
  · have hleg : s'.leg f = s.leg f := by simp [leg, hwait, hw, hfrom]
    refine distance_le_of_ahead hleg (le_of_eq ?_)
    have hcases : s.leg f = .dram ∨ s.leg f = .reply := by
      simp only [leg, hw, if_true]
      split <;> simp
    rcases hcases with hl | hl <;> simp [ahead, hleg, hl, hdram]
  by_cases hany : (s.toDir f).any ShmemMsg.isAnswer = true
  · have hany' : (s'.toDir f).any ShmemMsg.isAnswer = true := by rw [hup, List.any_append, hany]; rfl
    have hleg : s.leg f = .answer := by simp [leg, hw, hany]
    have hleg' : s'.leg f = .answer := by simp [leg, hwait, hw, hany']
    refine distance_le_of_ahead (hleg'.trans hleg.symm) (le_of_eq ?_)
    simp only [ahead, hleg, hleg', hup, List.findIdx_append]
    exact if_pos (List.findIdx_lt_length.mpr (by simpa using hany))
  · have hleg : s.leg f = .demand := by simp [leg, hw, hany]
    by_cases hany' : (s'.toDir f).any ShmemMsg.isAnswer = true
    · have hleg' : s'.leg f = .answer := by simp [leg, hwait, hw, hany']
      exact (distance_lt_of_leg (by simp [hleg, hleg', Leg.rank])).le
    · have hleg' : s'.leg f = .demand := by simp [leg, hwait, hw, hany']
      refine distance_le_of_ahead (hleg'.trans hleg.symm) ?_
      simpa [ahead, hleg, hleg'] using hdn

/-- The demand to the forwarder comes closer with every message its cache takes. -/
theorem distance_lt_of_demand (hleg : s.leg f = .demand) (hwait : s'.waitsForData = s.waitsForData)
    (hdn : (s'.toCache f).length < (s.toCache f).length) : s'.distance f < s.distance f := by
  have hw : s.waitsForData = false := by
    by_contra hw
    have := rank_of_waits (f := f) (by simpa using hw)
    simp [hleg, Leg.rank] at this
  have hleg' := leg_of_asks (f := f) (hwait.trans hw)
  split at hleg'
  · exact distance_lt_of_leg (by rw [hleg, hleg']; decide)
  · refine distance_lt_of_ahead (hleg'.trans hleg.symm) ?_
    simpa [ahead, hleg, hleg'] using hdn

/-- The directory reads the data from DRAM instead. -/
theorem distance_lt_of_fetch (hw : s.waitsForData = false) (hw' : s'.waitsForData = true) :
    s'.distance f < s.distance f :=
  distance_lt_of_leg ((rank_of_waits hw').trans_le (rank_of_asks hw))

end Sys

/-- The DRAM node takes the first access: a read joins the replies. -/
theorem accessDram_ok (hr : s.accessDram = .ok (s', o)) :
    ∃ msg rest, s.toDram = msg :: rest ∧ s'.toDram = rest ∧ s'.dir = s.dir ∧ s'.toDir = s.toDir ∧
      s'.toCache = s.toCache ∧ (msg.isRead = true ∧ s'.fromDram.isEmpty = false ∨
        msg.isRead = false ∧ s'.fromDram = s.fromDram) := by
  unfold Sys.accessDram at hr
  split at hr
  · cases hr
  rename_i msg rest htd
  split at hr
  · rename_i ht
    cases hr
    exact ⟨msg, rest, htd, rfl, rfl, rfl, rfl, .inl ⟨by simp [ShmemMsg.isRead, ht], by simp⟩⟩
  · rename_i ht
    cases hr
    exact ⟨msg, rest, htd, rfl, rfl, rfl, rfl, .inr ⟨by simp [ShmemMsg.isRead, ht], rfl⟩⟩
  · cases hr

theorem accessDram_distance (hr : s.accessDram = .ok (s', o)) :
    s'.distance f ≤ s.distance f ∧ (s.leg f = .dram → s'.distance f < s.distance f) := by
  obtain ⟨msg, rest, htd, htd', hdir, hup, hdn, hread⟩ := accessDram_ok hr
  have hwait : s'.waitsForData = s.waitsForData := by simp [Sys.waitsForData, hdir]
  cases hw : s.waitsForData with
  | false =>
    have hleg := Sys.leg_of_asks (f := f) hw
    have hleg' : s'.leg f = s.leg f := by
      rw [hleg, Sys.leg_of_asks (hwait.trans hw), hup]
    refine ⟨Sys.distance_le_of_ahead hleg' (le_of_eq ?_), fun hl => ?_⟩
    · split at hleg <;> simp [Sys.ahead, hleg', hleg, hup, hdn]
    · split at hleg <;> simp [hleg] at hl
  | true =>
    have hleg := Sys.leg_of_waits (f := f) hw
    have hleg' := Sys.leg_of_waits (f := f) (hwait.trans hw)
    rcases hread with ⟨-, hfrom⟩ | ⟨hnot, hfrom⟩
    · rw [hfrom] at hleg'
      split at hleg
      · have hlt : s'.distance f < s.distance f :=
          Sys.distance_lt_of_leg (by rw [hleg, hleg']; decide)
        exact ⟨hlt.le, fun _ => hlt⟩
      · exact ⟨Sys.distance_le_of_ahead (hleg'.trans hleg.symm) (by simp [Sys.ahead, hleg, hleg']),
          fun hl => by simp [hleg] at hl⟩
    · rw [hfrom] at hleg'
      have hsame := hleg'.trans hleg.symm
      split at hleg
      · have hlt : s'.distance f < s.distance f := by
          refine Sys.distance_lt_of_ahead hsame ?_
          simp [Sys.ahead, hsame, hleg, htd, htd', List.findIdx_cons, hnot]
        exact ⟨hlt.le, fun _ => hlt⟩
      · exact ⟨Sys.distance_le_of_ahead hsame (by simp [Sys.ahead, hleg, hsame]),
          fun hl => by simp [hleg] at hl⟩

/-- The directory takes a message and goes on waiting. -/
theorem stayed_distance {msg : ShmemMsg D} {ups : List (ShmemMsg D)} {rest' : List (ShmemReq D n)}
    (hq : s.dir.queue = req :: rest) (hup : s.toDir c = msg :: ups)
    (hq' : dir.queue = req :: rest') (hsilent : Silent dir.log)
    (hother : req.waitForData = true ∨ c ≠ f ∨ msg.msgType.isRequest = true) :
    ((s.popToDir c ups).afterDir dir).distance f ≤ s.distance f ∧
      (s.isDue f (.deliverToDir c ch) →
        ((s.popToDir c ups).afterDir dir).distance f < s.distance f) := by
  generalize hs' : (s.popToDir c ups).afterDir dir = s'
  have hdir : s'.dir.queue = req :: rest' := by rw [← hs']; exact hq'
  have hdn : s'.toCache = s.toCache := by
    funext c'
    simp [← hs', Sys.afterDir, Sys.popToDir, hsilent.1 c']
  have hdram : s'.toDram = s.toDram := by simp [← hs', Sys.afterDir, Sys.popToDir, hsilent.2]
  have hfrom : s'.fromDram = s.fromDram := by rw [← hs']; rfl
  have hups : s'.toDir = Function.update s.toDir c ups := by rw [← hs']; rfl
  have hwait : s'.waitsForData = s.waitsForData := by simp [Sys.waitsForData, hdir, hq]
  have hnotdue : s.leg f ≠ .answer ∨ c ≠ f → ¬s.isDue f (.deliverToDir c ch) := by
    intro hnot hdue
    unfold Sys.isDue at hdue
    split at hdue
    · simp at hdue
    · cases hdue
    · rename_i hleg
      obtain ⟨ch', ⟨⟩⟩ := hdue
      exact hnot.elim (fun hne => hne hleg) (fun hne => hne rfl)
    · simp at hdue
  by_cases hc : c = f
  swap
  · have hsame : s'.toDir f = s.toDir f ++ [] := by
      rw [hups, Function.update_of_ne (Ne.symm hc), List.append_nil]
    exact ⟨Sys.distance_le hwait hdram hfrom hsame (by rw [hdn]),
      fun hdue => absurd hdue (hnotdue (.inr hc))⟩
  subst hc
  have hself : s'.toDir c = ups := by rw [hups, Function.update_self]
  cases hw : s.waitsForData with
  | true =>
    have hleg := Sys.leg_of_waits (f := c) hw
    have hleg' : s'.leg c = s.leg c := by rw [hleg, Sys.leg_of_waits (hwait.trans hw), hfrom]
    refine ⟨Sys.distance_le_of_ahead hleg' (le_of_eq ?_), fun hdue => absurd hdue (hnotdue (.inl ?_))⟩
    · split at hleg <;> simp [Sys.ahead, hleg', hleg, hdram]
    · split at hleg <;> simp [hleg]
  | false =>
    have hnot : msg.isAnswer = false := by
      have : req.waitForData = false := by simpa [Sys.waitsForData, hq] using hw
      simpa [this, ShmemMsg.isAnswer] using hother
    have hleg := Sys.leg_of_asks (f := c) hw
    have hleg' : s'.leg c = s.leg c := by
      rw [hleg, Sys.leg_of_asks (hwait.trans hw), hself, hup, List.any_cons, hnot, Bool.false_or]
    split at hleg
    · have hlt : s'.distance c < s.distance c := by
        refine Sys.distance_lt_of_ahead hleg' ?_
        simp [Sys.ahead, hleg', hleg, hself, hup, List.findIdx_cons, hnot]
      exact ⟨hlt.le, fun _ => hlt⟩
    · exact ⟨Sys.distance_le_of_ahead hleg' (by simp [Sys.ahead, hleg', hleg, hdn]),
        fun hdue => absurd hdue (hnotdue (.inl (by simp [hleg])))⟩

/-- A step of a cache. -/
theorem OfCache.distance_le {sent : List (ShmemMsg D)} (h : OfCache s s' c sent)
    (hdn : (s'.toCache f).length ≤ (s.toCache f).length) : s'.distance f ≤ s.distance f := by
  have hup : ∃ more, s'.toDir f = s.toDir f ++ more := by
    by_cases hc : f = c
    · exact ⟨sent, by rw [h.toDir, hc, Function.update_self]⟩
    · exact ⟨[], by rw [h.toDir, Function.update_of_ne hc, List.append_nil]⟩
  obtain ⟨more, hup⟩ := hup
  exact Sys.distance_le (by simp [Sys.waitsForData, h.dir]) h.toDram h.fromDram hup hdn

theorem Inv.forwarded_step (h : Inv race cfg s) (hf : Forwarded key f s)
    (hr : Coherence.step cfg s a = .ok (s', o)) :
    Completed key o ∨ Forwarded key f s' ∧ s'.distance f ≤ s.distance f ∧
      (s.isDue f a → s'.distance f < s.distance f) := by
  obtain ⟨req, rest, hq, rfl, hsource⟩ := hf
  have hflag : req.Flagged := .inr (by simp [hsource])
  cases stepCase hr with
  | @access _ c sent ha hof hdn =>
    refine .inr ⟨⟨req, rest, hof.dir ▸ hq, rfl, hsource⟩, ?_, ?_⟩
    · exact hof.distance_le (by rw [hdn])
    · intro hdue
      unfold Sys.isDue at hdue
      split at hdue
      · obtain ⟨ch, rfl⟩ := hdue
        cases ha
      · subst hdue
        cases ha
      · obtain ⟨ch, rfl⟩ := hdue
        cases ha
      · obtain ⟨u, rfl⟩ := hdue
        cases ha
  | @toCache c unwritten msg dns sent hdn hof hpop =>
    refine .inr ⟨⟨req, rest, hof.dir ▸ hq, rfl, hsource⟩, hof.distance_le ?_, fun hdue => ?_⟩
    · rw [hpop]
      by_cases hc : f = c
      · simp [hc, hdn]
      · rw [Function.update_of_ne hc]
    · unfold Sys.isDue at hdue
      split at hdue
      · simp at hdue
      · cases hdue
      · simp at hdue
      · rename_i hleg
        obtain ⟨u, ⟨⟩⟩ := hdue
        refine Sys.distance_lt_of_demand hleg (by simp [Sys.waitsForData, hof.dir]) ?_
        simp [hpop, hdn]
  | @toDir c ch msg ups dir hup hres hs' =>
    cases h.handleMsg_handled hq hflag hup hres with
    | completed _ hdone => exact .inl hdone
    | fetched rest' hwait hc hq' hlog =>
      have hlt : s'.distance f < s.distance f :=
        Sys.distance_lt_of_fetch (by simp [Sys.waitsForData, hq, hwait])
          (by simp [Sys.waitsForData, hs', Sys.afterDir, hq'])
      exact .inr ⟨⟨{ req with waitForData := true }, rest', by rw [hs']; exact hq', rfl, hsource⟩,
        hlt.le, fun _ => hlt⟩
    | stayed rest' hother hq' hsilent =>
      refine .inr ⟨⟨req, rest', by rw [hs']; exact hq', rfl, hsource⟩, ?_⟩
      rw [hs']
      exact stayed_distance hq hup hq' hsilent (hother.imp id (Or.imp (by rw [hsource]; grind) id))
  | dram hres =>
    obtain ⟨msg, rest', -, -, hdir, -⟩ := accessDram_ok hres
    obtain ⟨hle, hlt⟩ := accessDram_distance (f := f) hres
    refine .inr ⟨⟨req, rest, hdir ▸ hq, rfl, hsource⟩, hle, fun hdue => hlt ?_⟩
    unfold Sys.isDue at hdue
    split at hdue
    · simp at hdue
    · assumption
    · simp at hdue
    · simp at hdue
  | fromDram hfrom hres hs' => exact .inl (handleMsgFromDRAM_completes hq hres)
  | nullify hres hs' =>
    obtain ⟨hnil, -⟩ : _ ∧ Moves cfg none _ _ _ _ := nullify_moves hres
    simp [hq] at hnil

/-- The demand of a WB_REQ is on its way or answered. -/
theorem Shape.wb_answer {q : Demand} {v : View} (h : Shape race q v) (hheld : q.held)
    (hadded : ¬q.added) (hasked : q.asked = some wbReq) :
    (∃ t ∈ v.up, t.isRequest = false) ∨ wbReq ∈ v.dn := by
  have hnotice : ∀ {t}, t = invRep ∨ t = flushRep → t.isRequest = false := by
    rintro t (rfl | rfl) <;> rfl
  cases h with
  | away hh => exact absurd hheld hh
  | added _ ha => exact absurd ha hadded
  | granted _ _ _ _ _ _ pre tail t hdn _ hasks =>
    have := hasks.wbIff.mp hasked
    exact .inr (by simp_all)
  | holding _ _ _ _ wb hup hasks =>
    rcases hasks.wbIff.mp hasked with rfl | hdn
    · exact .inl ⟨wbRep, by simp [hup, wbPart], rfl⟩
    · exact .inr hdn
  | upgrading _ _ _ _ wb hasks _ hstage =>
    rcases hasks.wbIff.mp hasked with rfl | hdn
    · refine .inl ⟨wbRep, ?_, rfl⟩
      cases hstage with
      | sent hup => simp [hup, wbPart]
      | sentBefore hup => simp [hup]
      | waits hup => simp [hup, wbPart]
    · exact .inr hdn
  | upgraded _ _ _ _ _ _ _ pre tail hdn _ _ hasks =>
    have := hasks.wbIff.mp hasked
    exact .inr (by simp_all)
  | leaving _ _ _ _ wb t ht _ _ _ hstage =>
    refine .inl ⟨t, ?_, hnotice ht⟩
    cases hstage with
    | none hup => simp [hup]
    | sentEx hup => simp [hup]
    | sentSh hup => simp [hup]
  | leavingUpgrade _ _ _ _ t ht _ _ _ hstage =>
    refine .inl ⟨t, ?_, hnotice ht⟩
    cases hstage with
    | sent hup => simp [hup]
    | waits hup => simp [hup]
  | doomed _ _ _ _ hup => exact .inl ⟨invRep, by simp [hup], rfl⟩

/-- What the forwarded request waits for is in flight. -/
theorem Inv.forwarded_in_flight (h : Inv race cfg s) (hf : Forwarded key f s) :
    match s.leg f with
    | .reply => s.fromDram ≠ []
    | .dram => s.toDram ≠ []
    | .answer => s.toDir f ≠ []
    | .demand => s.toCache f ≠ [] := by
  obtain ⟨req, rest, hq, -, hsource⟩ := hf
  obtain ⟨w, hgood, -, hwait⟩ := h.flagged hq (.inr (by simp [hsource]))
  have hhead : s.waitsForData = req.waitForData := by simp [Sys.waitsForData, hq]
  cases hw : s.waitsForData with
  | true =>
    have hleg := Sys.leg_of_waits (f := f) hw
    rcases hwait with ⟨rfl, -⟩ | ⟨-, -, hnot, -⟩
    swap
    · simp [hhead, hnot] at hw
    have hreads := hgood.reads
    rw [h.log, if_pos rfl] at hreads
    split at hleg
    · rename_i hnone
      rw [hleg]
      intro hnil
      simp [Sys.reads, hnil, List.isEmpty_iff.mp hnone] at hreads
    · rename_i hsome
      rw [hleg]
      simpa using hsome
  | false =>
    have hleg := Sys.leg_of_asks (f := f) hw
    rcases hwait with ⟨-, hyes, -⟩ | ⟨f', rfl, -, hsource', -⟩
    · simp [hhead, hyes] at hw
    obtain rfl : f' = f := by simpa [hsource'] using hsource
    split at hleg
    · rename_i hany
      rw [hleg]
      rintro hnil
      simp [hnil] at hany
    · rename_i hany
      rw [hleg]
      obtain ⟨hmem, hadded⟩ := hgood.wb_sharer hq
      have hanswer := (hgood.shapes f').wb_answer hmem hadded (by simp [Wait.asked])
      simp only [Sys.view, View.of, h.log, sentTo_nil, List.append_nil, List.mem_map] at hanswer
      rcases hanswer with ⟨-, ⟨msg, hmsg, rfl⟩, ht⟩ | ⟨msg, hmsg, -⟩
      · exact absurd (List.any_eq_true.mpr ⟨msg, hmsg, by simp [ShmemMsg.isAnswer, ht]⟩) hany
      · exact List.ne_nil_of_mem hmsg

/-- Every message is delivered in the end. -/
structure Delivers (r : InfiniteRun (machine D n cfg)) : Prop where
  toCache : ∀ i c, (r.state i).toCache c ≠ [] →
    ∃ j, i ≤ j ∧ ∃ unwritten, r.input j = .deliverToCache c unwritten
  toDir : ∀ i c, (r.state i).toDir c ≠ [] → ∃ j, i ≤ j ∧ ∃ ch, r.input j = .deliverToDir c ch
  toDram : ∀ i, (r.state i).toDram ≠ [] → ∃ j, i ≤ j ∧ r.input j = .accessDram
  fromDram : ∀ i, (r.state i).fromDram ≠ [] → ∃ j, i ≤ j ∧ ∃ ch, r.input j = .deliverFromDram ch

variable {r : InfiniteRun (machine D n cfg)}

theorem Delivers.due (h : Delivers r) {i : Nat} (hf : Forwarded key f (r.state i)) :
    ∃ j, i ≤ j ∧ (r.state i).isDue f (r.input j) := by
  have hflight := (Inv.of_reachable (r.reachable i)).forwarded_in_flight hf
  unfold Sys.isDue
  split
  · rename_i hleg
    rw [hleg] at hflight
    exact h.fromDram i hflight
  · rename_i hleg
    rw [hleg] at hflight
    exact h.toDram i hflight
  · rename_i hleg
    rw [hleg] at hflight
    exact h.toDir i f hflight
  · rename_i hleg
    rw [hleg] at hflight
    exact h.toCache i f hflight

/-- Where messages are delivered, a forwarded request is completed. -/
theorem Delivers.completes (h : Delivers r) {i : Nat} (hf : Forwarded key f (r.state i)) :
    ∃ j, r.Until (Forwarded key f) (Completed key) i j := by
  have hinv := fun k => Inv.of_reachable (r.reachable k)
  refine InfiniteRun.until_of_rank (fun s => s.distance f) (fun k hk => ?_) (fun i hi => ?_) hf
  · exact ((hinv k).forwarded_step hk (r.steps k)).imp id fun hnext => ⟨hnext.1, hnext.2.1⟩
  · obtain ⟨j, hij, hdue⟩ := h.due hi
    refine ⟨j, hij, fun hj heq => ?_⟩
    refine ((hinv j).forwarded_step hj (r.steps j)).imp id fun hnext => hnext.2.2 ?_
    have hleg := Sys.leg_of_distance heq
    unfold Sys.isDue at hdue ⊢
    rw [hleg]
    exact hdue

/-- Only its delivery takes a message off a channel. -/
theorem StepCase.toCache_ne {s s' : Sys D n} (h : StepCase cfg s s' o a) (hne : s.toCache c ≠ [])
    (ha : ¬∃ unwritten, a = .deliverToCache c unwritten) : s'.toCache c ≠ [] := by
  cases h with
  | access _ _ hsame => rwa [hsame]
  | @toCache c' u msg rest sent hdn hof hpop =>
    have hc : c ≠ c' := fun hc => ha ⟨u, by rw [hc]⟩
    rwa [hpop, Function.update_of_ne hc]
  | toDir _ _ hs' => simp [hs', Sys.afterDir, Sys.popToDir, hne]
  | dram hres =>
    obtain ⟨-, -, -, -, -, -, hsame, -⟩ := accessDram_ok hres
    rwa [hsame]
  | fromDram _ _ hs' => simp [hs', Sys.afterDir, hne]
  | nullify _ hs' => simp [hs', Sys.afterDir, hne]

theorem OfCache.toDir_ne {sent : List (ShmemMsg D)} {c' : Fin n} (h : OfCache s s' c' sent)
    (hne : s.toDir c ≠ []) : s'.toDir c ≠ [] := by
  rw [h.toDir]
  by_cases hc : c = c'
  · subst hc
    simp [hne]
  · rwa [Function.update_of_ne hc]

theorem StepCase.toDir_ne {s s' : Sys D n} (h : StepCase cfg s s' o a) (hne : s.toDir c ≠ [])
    (ha : ¬∃ ch, a = .deliverToDir c ch) : s'.toDir c ≠ [] := by
  cases h with
  | access _ hof => exact hof.toDir_ne hne
  | toCache _ hof => exact hof.toDir_ne hne
  | @toDir c' ch msg rest dir _ _ hs' =>
    have hc : c ≠ c' := fun hc => ha ⟨ch, by rw [hc]⟩
    rw [hs']
    show Function.update s.toDir c' rest c ≠ []
    rwa [Function.update_of_ne hc]
  | dram hres =>
    obtain ⟨-, -, -, -, -, hsame, -⟩ := accessDram_ok hres
    rwa [hsame]
  | fromDram _ _ hs' => simpa [hs', Sys.afterDir] using hne
  | nullify _ hs' => simpa [hs', Sys.afterDir] using hne

theorem StepCase.toDram_ne {s s' : Sys D n} (h : StepCase cfg s s' o a) (hne : s.toDram ≠ [])
    (ha : a ≠ .accessDram) : s'.toDram ≠ [] := by
  cases h with
  | access _ hof => rwa [hof.toDram]
  | toCache _ hof => rwa [hof.toDram]
  | toDir _ _ hs' => simp [hs', Sys.afterDir, Sys.popToDir, hne]
  | dram => exact absurd rfl ha
  | fromDram _ _ hs' => simp [hs', Sys.afterDir, hne]
  | nullify _ hs' => simp [hs', Sys.afterDir, hne]

theorem StepCase.fromDram_ne {s s' : Sys D n} (h : StepCase cfg s s' o a) (hne : s.fromDram ≠ [])
    (ha : ¬∃ ch, a = .deliverFromDram ch) : s'.fromDram ≠ [] := by
  cases h with
  | access _ hof => rwa [hof.fromDram]
  | toCache _ hof => rwa [hof.fromDram]
  | toDir _ _ hs' => simpa [hs', Sys.afterDir, Sys.popToDir] using hne
  | dram hres =>
    obtain ⟨-, -, -, -, -, -, -, ⟨-, hsome⟩ | ⟨-, hsame⟩⟩ := accessDram_ok hres
    · simpa using hsome
    · rwa [hsame]
  | @fromDram ch => exact absurd ⟨ch, rfl⟩ ha
  | nullify _ hs' => simpa [hs', Sys.afterDir] using hne

/-- Where the channels are empty time and again, every message is delivered. -/
theorem Delivers.of_quiescent (h : ∀ i, ∃ j, i ≤ j ∧ (r.state j).Quiescent) : Delivers r where
  toCache i c hne := by
    obtain ⟨j, hij, hquiet⟩ := h i
    exact r.taken (fun s => s.toCache c ≠ []) (fun a => ∃ unwritten, a = .deliverToCache c unwritten)
      (fun k hk => (stepCase (r.steps k)).toCache_ne hk) hne hij (by simp [(hquiet.1 c).2])
  toDir i c hne := by
    obtain ⟨j, hij, hquiet⟩ := h i
    exact r.taken (fun s => s.toDir c ≠ []) (fun a => ∃ ch, a = .deliverToDir c ch)
      (fun k hk => (stepCase (r.steps k)).toDir_ne hk) hne hij (by simp [(hquiet.1 c).1])
  toDram i hne := by
    obtain ⟨j, hij, hquiet⟩ := h i
    exact r.taken (fun s => s.toDram ≠ []) (fun a => a = .accessDram)
      (fun k hk => (stepCase (r.steps k)).toDram_ne hk) hne hij (by simp [hquiet.2.1])
  fromDram i hne := by
    obtain ⟨j, hij, hquiet⟩ := h i
    exact r.taken (fun s => s.fromDram ≠ []) (fun a => ∃ ch, a = .deliverFromDram ch)
      (fun k hk => (stepCase (r.steps k)).fromDram_ne hk) hne hij (by simp [hquiet.2.2])

/-- The forwarder a request is sent to is a recorded sharer other than its requester, every
core that is asked to write back has had the line, and where messages are delivered a
forwarded request is completed. -/
theorem forwarder_always_sharer :
    (∀ (s s' : Sys D n) (a : Action D n) (o : List (Event D n)),
      Reachable (machine D n cfg) s → step cfg s a = .ok (s', o) →
        ∀ f buf, .send f ⟨wbReq, buf⟩ ∈ o → WritesBack s' f ∧ s'.HasHeld f) ∧
      ∀ r : InfiniteRun (machine D n cfg), Delivers r →
        ∀ i key f, Forwarded key f (r.state i) →
          ∃ j, r.Until (Forwarded key f) (Completed key) i j := by
  refine ⟨fun s s' a o hs hr f buf hsent => ?_, fun r hr i key f hf => hr.completes hf⟩
  have h := Inv.of_reachable hs
  have h' := h.step (.inl trivial) hr
  obtain ⟨hgood, hasked⟩ := h.wbReq_sent h' hr hsent
  refine ⟨hgood.writesBack hasked, ?_⟩
  cases hasked with
  | forwarder hq => exact h'.has_held hgood hq
  | owner hq => exact h'.has_held hgood hq

/-- The state after the first actions of a list that is performed to its end. -/
theorem execute_take {as : List (Action D n)} {t : Sys D n} (h : execute cfg s as = .ok t) (i : Nat) :
    ∃ u, execute cfg s (as.take i) = .ok u ∧ execute cfg u (as.drop i) = .ok t := by
  induction as generalizing s i with
  | nil => exact ⟨s, by simp [execute], by simpa using h⟩
  | cons a as ih =>
    cases i with
    | zero => exact ⟨s, rfl, h⟩
    | succ i =>
      simp only [execute, List.take_succ_cons, List.drop_succ_cons] at h ⊢
      split at h
      · cases h
      · rename_i s' o hstep
        exact ih h i

theorem execute_append {as bs : List (Action D n)} {u : Sys D n} (h : execute cfg s as = .ok u) :
    execute cfg s (as ++ bs) = execute cfg u bs := by
  induction as generalizing s with
  | nil =>
    cases h
    rfl
  | cons a as ih =>
    simp only [execute, List.cons_append] at h ⊢
    split at h
    · cases h
    · exact ih h

/-- A read that hits changes nothing. -/
theorem read_hit (hread : (s.cache c).cstate.readable = true) :
    step cfg s (.read c) = .ok (s, []) := by
  simp [step, Cache.read, hread, Sys.cacheStep]

/-- A list of actions is performed, and after it one core reads its copy for ever. -/
theorem exists_infiniteRun {data : D} {as : List (Action D n)} {t : Sys D n}
    (h : execute cfg (.init data) as = .ok t) (hread : (t.cache c).cstate.readable = true) :
    ∃ r : InfiniteRun (machine D n cfg),
      ∀ i, execute cfg (.init data) (as.take i) = .ok (r.state i) := by
  choose state hstate using fun i => execute_take h i
  have hlast : ∀ i, as.length ≤ i → state i = t := by
    intro i hi
    have := (hstate i).1
    rw [List.take_of_length_le hi, h] at this
    exact (Except.ok.inj this).symm
  have hstep : ∀ i, ∃ o, step cfg (state i) (as.getD i (.read c)) = .ok (state (i + 1), o) := by
    intro i
    by_cases hi : i < as.length
    · have hdrop := (hstate i).2
      rw [List.drop_eq_getElem_cons hi] at hdrop
      rw [List.getD_eq_getElem _ _ hi]
      cases hres : step cfg (state i) as[i] with
      | error fault => simp [execute, hres] at hdrop
      | ok next =>
        have hnext := (hstate (i + 1)).1
        rw [List.take_succ_eq_append_getElem hi, execute_append (hstate i).1] at hnext
        simp only [execute, hres, Except.ok.injEq] at hnext
        exact ⟨next.2, by rw [← hnext]⟩
    · have hi := Nat.not_lt.mp hi
      refine ⟨[], ?_⟩
      rw [List.getD_eq_default _ _ hi, hlast i hi, hlast (i + 1) (by omega)]
      exact read_hit hread
  choose output hout using hstep
  refine ⟨⟨state, fun i => as.getD i (.read c), output, ⟨data, ?_⟩, hout⟩, fun i => (hstate i).1⟩
  have hzero := (hstate 0).1
  simp only [List.take_zero, execute, Except.ok.injEq] at hzero
  exact hzero.symm

/-- Three cores and a full map. -/
def threeCores : Config := ⟨.mesif, .fullMap, 1, Nat.one_pos⟩

open scoped Lib.Literals in
/-- Core 0 gets the line from DRAM, core 1 from core 0, and core 2 from core 1, which is the
forwarder then. -/
def threeReaders : List (Action Nat 3) :=
  [.read 0, .deliverToDir 0 (pick 0), .accessDram, .deliverFromDram (pick 0),
    .deliverToCache 0 0, .finishWaiter 0, .read 1, .deliverToDir 1 (pick 0), .deliverToCache 0 0,
    .deliverToDir 0 (pick 0), .deliverToCache 1 0, .finishWaiter 1, .read 2,
    .deliverToDir 2 (pick 0), .deliverToCache 1 0, .deliverToDir 1 (pick 0), .deliverToCache 2 0,
    .finishWaiter 2]

theorem forwarder_always_sharer_threeReaders :
    (∃ s : Sys Nat 3, WritesBack s 1 ∧ s.HasHeld 1) ∧
      ∃ r : InfiniteRun (machine Nat 3 threeCores), Delivers r ∧
        ∃ j, r.Until (Forwarded ⟨shReq, 2⟩ 1) (Completed ⟨shReq, 2⟩) 14 j := by
  constructor
  · have hsent : (match step threeCores
          (runWhile (fun _ _ => true) threeCores (.init 0) (threeReaders.take 13))
          (.deliverToDir 2 (pick 0)) with
        | .ok (_, o) => decide (.send 1 ⟨wbReq, none⟩ ∈ o)
        | .error _ => false) = true := by rfl
    split at hsent
    · rename_i s' o hstep
      exact ⟨s', forwarder_always_sharer.1 _ s' _ o (reachable_runWhile _ 0 _) hstep 1 none
        (by simpa using hsent)⟩
    · cases hsent
  · have hdone : (match execute threeCores (.init 0) threeReaders with
        | .ok s => (s.cache 0).cstate.readable && decide ((∀ c, s.toDir c = [] ∧ s.toCache c = []) ∧
            s.toDram = [] ∧ s.fromDram = [])
        | .error _ => false) = true := by rfl
    split at hdone
    swap
    · cases hdone
    rename_i t ht
    rw [Bool.and_eq_true, decide_eq_true_eq] at hdone
    obtain ⟨r, hr⟩ := exists_infiniteRun ht hdone.1
    have hquiet : ∀ i, threeReaders.length ≤ i → (r.state i).Quiescent := by
      intro i hi
      have := hr i
      rw [List.take_of_length_le hi, ht] at this
      exact Except.ok.inj this ▸ hdone.2
    have hdelivers : Delivers r := .of_quiescent fun i =>
      ⟨max i threeReaders.length, le_max_left _ _, hquiet _ (le_max_right _ _)⟩
    refine ⟨r, hdelivers, forwarder_always_sharer.2 r hdelivers 14 ⟨shReq, 2⟩ 1 ?_⟩
    have hhead : (match execute threeCores (.init 0) (threeReaders.take 14) with
        | .ok s => decide (s.dir.queue.map (fun req => (req.key, req.forwardingFrom)) =
            [(⟨shReq, 2⟩, some 1)])
        | .error _ => false) = true := by rfl
    rw [hr 14] at hhead
    simp only [decide_eq_true_eq] at hhead
    obtain ⟨req, rest, hq, hreq, -⟩ := List.map_eq_cons_iff.mp hhead
    rw [Prod.mk.injEq] at hreq
    exact ⟨req, rest, hq, hreq⟩

end Completion

end Sniper.Coherence
