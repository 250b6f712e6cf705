import Sniper.Coherence.Guarantees
import Sniper.Coherence.Forwarding
set_option autoImplicit false

namespace Sniper.Coherence

open MsgType Sniper.Lib

variable {D : Type} {n : Nat} {cfg : Config} {race : Prop} {s s' : Sys D n}

section Memory

/-- What DRAM holds once it has taken these messages. -/
def written (dram : D) (msgs : List (ShmemMsg D)) : D :=
  msgs.foldl (fun data msg => if msg.msgType = dramWriteReq then msg.dataBuf.getD data else data)
    dram

@[simp] theorem written_nil (dram : D) : written dram [] = dram := rfl

theorem written_append (dram : D) (msgs more : List (ShmemMsg D)) :
    written dram (msgs ++ more) = written (written dram msgs) more := by
  simp [written]

theorem written_cons (dram : D) (msg : ShmemMsg D) (msgs : List (ShmemMsg D)) :
    written dram (msg :: msgs) =
      written (if msg.msgType = dramWriteReq then msg.dataBuf.getD dram else dram) msgs := rfl

/-- Writes of the current contents change nothing. -/
theorem written_same {x : D} {msgs : List (ShmemMsg D)}
    (h : ∀ msg ∈ msgs, msg.msgType = dramWriteReq → msg.dataBuf = some x) : written x msgs = x := by
  induction msgs with
  | nil => rfl
  | cons msg msgs ih =>
    rw [written_cons]
    have hrest := ih fun m hm => h m (List.mem_cons_of_mem _ hm)
    split
    · rename_i ht
      simpa [h msg (by simp) ht] using hrest
    · exact hrest

def Sys.memory (s : Sys D n) : D := written s.dram s.toDram

end Memory

/-- `c` owns the line, and its contents are on the way to it, at it or on the way back. -/
structure Sys.Dirty (s : Sys D n) (c : Fin n) : Prop where
  sharers : s.dir.sharers = {c}
  owned : s.dir.dstate = .exclusive ∨ s.dir.dstate = .modified
  where_ : (s.cache c).cstate = .modified ∨ (∃ msg ∈ s.toDir c, msg.msgType = flushRep) ∨
    (∃ msg ∈ s.toCache c, msg.msgType = exRep) ∧ (s.cache c).waiters.head? = some true ∧
      (s.cache c).serving = false

/-- Every copy and every message with data has the most recently written contents. -/
structure Current (s : Sys D n) : Prop where
  copies : ∀ c, (s.cache c).cstate ≠ .invalid → (s.cache c).data = s.latest
  toDir : ∀ c, ∀ msg ∈ s.toDir c, msg.msgType = flushRep ∨ msg.msgType = wbRep →
    msg.dataBuf = some s.latest
  toCache : ∀ c, ∀ msg ∈ s.toCache c, msg.msgType = exRep ∨ msg.msgType = shRep →
    msg.dataBuf = some s.latest
  fromDram : ∀ msg ∈ s.fromDram, msg.dataBuf = some s.latest
  buffers : ∀ req ∈ s.dir.queue, req.dataBuf = none
  reading : ∀ before msg after, s.toDram = before ++ msg :: after → msg.msgType = dramReadReq →
    written s.dram before = s.latest

/-- DRAM has the contents too, unless one cache owns them. -/
structure Values (s : Sys D n) : Prop where
  current : Current s
  backed : s.memory = s.latest ∨ ∃ c, s.Dirty c

/-- The steps that keep the contents: no WB_REQ reaches a MODIFIED line, whose data the
directory would not write to DRAM, or a SHARED_UPGRADING one, whose data is not sent, and
no FLUSH_REP is kept for an UPGRADE_REQ that waits for further sharers. -/
def keepsData (s : Sys D n) : Action D n → Prop
  | .deliverToCache c _ =>
    (s.toCache c).head?.map ShmemMsg.msgType = some wbReq →
      (s.cache c).cstate ≠ .modified ∧ (s.cache c).cstate ≠ .sharedUpgrading
  | .deliverToDir c _ =>
    (s.toDir c).head?.map ShmemMsg.msgType = some flushRep →
      s.dir.queue.head?.map (fun req => req.key.msgType) = some upgradeReq →
        s.dir.sharers.erase c = ∅
  | _ => True

section Dirty

variable {w : Wait n} {c c' : Fin n} {msg : ShmemMsg D} {rest : List (ShmemMsg D)}

/-- A cache that is not a sharer sends nothing but requests. -/
theorem Shape.request_of_not_held {q : Demand} {v : View} {t : MsgType} {ups : List MsgType}
    (h : Shape race q v) (hheld : ¬q.held) (hup : v.up = t :: ups) : t.isRequest = true := by
  cases h with
  | away _ _ _ _ hstage =>
    cases hstage with
    | none hu => simp [hu] at hup
    | sentEx hu => simp [hu] at hup; rw [← hup.1]; rfl
    | sentSh hu => simp [hu] at hup; rw [← hup.1]; rfl
    | waits _ hu => simp [hu] at hup
  | added hh => exact absurd hh hheld
  | granted hh => exact absurd hh hheld
  | holding hh => exact absurd hh hheld
  | upgrading hh => exact absurd hh hheld
  | upgraded hh => exact absurd hh hheld
  | leaving hh => exact absurd hh hheld
  | leavingUpgrade hh => exact absurd hh hheld
  | doomed _ hh => exact absurd hh hheld

theorem Noise.not_exRep {l : List MsgType} (h : Noise l) : exRep ∉ l := by
  intro hmem
  have := h exRep hmem
  simp [isDemand] at this

/-- What an owner with the contents has in flight to the directory begins with the
FLUSH_REP. -/
theorem Shape.dirty_up {q : Demand} {v : View} (h : Shape race q v)
    (hds : q.dstate = .exclusive ∨ q.dstate = .modified)
    (hwhere : v.cstate = .modified ∨ flushRep ∈ v.up ∨
      exRep ∈ v.dn ∧ v.PendingExclusive) :
    ¬q.added ∧ q.queued = [] ∧ (v.up = [] ∨ ∃ ups, v.up = flushRep :: ups) := by
  cases h with
  | away _ _ hc hn hstage =>
    exfalso
    rcases hwhere with hm | hm | ⟨hm, -⟩
    · simp [hc] at hm
    · cases hstage with
      | none hu => simp [hu] at hm
      | sentEx hu => simp [hu] at hm
      | sentSh hu => simp [hu] at hm
      | waits _ hu => simp [hu] at hm
    · exact hn.not_exRep hm
  | added _ _ hc hu hn =>
    exfalso
    rcases hwhere with hm | hm | ⟨hm, -⟩
    · simp [hc] at hm
    · simp [hu] at hm
    · exact hn.not_exRep hm
  | granted _ ha _ hu hq => exact ⟨ha, hq, .inl hu⟩
  | holding _ ha hq _ wb hu hasks hfits =>
    refine ⟨ha, hq, .inl ?_⟩
    rcases hwhere with hm | hm | ⟨hm, -⟩
    · rw [hu, (hfits.writable (.inr hm)).1]
      rfl
    · exfalso
      cases wb <;> simp [hu, wbPart] at hm
    · exact absurd hm hasks.list.noise.not_exRep
  | upgrading _ _ hc _ wb hasks _ hstage =>
    exfalso
    rcases hwhere with hm | hm | ⟨hm, -⟩
    · simp [hc] at hm
    · cases wb <;> cases hstage with
      | sent hu => simp [hu, wbPart] at hm
      | sentBefore hu => simp [hu] at hm
      | waits hu => simp [hu, wbPart] at hm
    · exact hasks.list.noise.not_exRep hm
  | upgraded _ _ hc _ hu _ _ pre tail hdn hi _ hasks =>
    exfalso
    rcases hwhere with hm | hm | ⟨hm, -⟩
    · simp [hc] at hm
    · simp [hu] at hm
    · simp only [hdn, List.mem_append, List.mem_cons, reduceCtorEq, false_or] at hm
      rcases hm with hm | hm
      · simpa using hi _ hm
      · exact hasks.list.noise.not_exRep hm
  | leaving _ ha hc hn wb t ht hwb _ _ hstage =>
    rcases hwhere with hm | hm | ⟨hm, -⟩
    · simp [hc] at hm
    · have htf : t = flushRep := by
        cases wb <;> cases hstage with
        | none hu => simpa [hu, wbPart, eq_comm] using hm
        | sentEx hu => simpa [hu, wbPart, eq_comm] using hm
        | sentSh hu => simpa [hu, wbPart, eq_comm] using hm
      have hb : wb = false := by
        cases wb
        · rfl
        · simpa [htf] using (hwb rfl).1
      rw [htf, hb] at hstage
      cases hstage with
      | none hu hq => exact ⟨ha, hq, .inr ⟨_, hu⟩⟩
      | sentEx hu hq => exact ⟨ha, hq, .inr ⟨_, hu⟩⟩
      | sentSh hu hq => exact ⟨ha, hq, .inr ⟨_, hu⟩⟩
    · exact absurd hm hn.not_exRep
  | leavingUpgrade _ _ _ _ _ _ _ hs => simp [hs] at hds
  | doomed _ _ _ hc hu _ _ _ pre tail hdn hn hn' =>
    exfalso
    rcases hwhere with hm | hm | ⟨hm, -⟩
    · simp [hc] at hm
    · simp [hu] at hm
    · simp only [hdn, List.mem_append, List.mem_cons, reduceCtorEq, false_or] at hm
      rcases hm with hm | hm
      · exact hn.not_exRep hm
      · exact hn'.not_exRep hm

theorem Sys.Dirty.shape (hd : s.Dirty c) (hlog : s.dir.log = []) :
    (s.view s.dir.log c).cstate = .modified ∨ flushRep ∈ (s.view s.dir.log c).up ∨
      exRep ∈ (s.view s.dir.log c).dn ∧ (s.view s.dir.log c).PendingExclusive := by
  rcases hd.where_ with hm | ⟨msg, hmem, ht⟩ | ⟨⟨msg, hmem, ht⟩, hw, hs⟩
  · exact .inl hm
  · exact .inr (.inl (List.mem_map.mpr ⟨msg, hmem, ht⟩))
  · refine .inr (.inr ⟨?_, hw, hs⟩)
    simp only [Sys.view, View.of, hlog, sentTo_nil, List.append_nil]
    exact List.mem_map.mpr ⟨msg, hmem, ht⟩

/-- While a cache owns the contents, the directory hears of nothing but requests of others
and that cache's FLUSH_REP, and waits for no DRAM data. -/
theorem Sys.Dirty.hears (hd : s.Dirty c) (hlog : s.dir.log = []) (hgood : Good race cfg s w s.dir)
    (hup : s.toDir c' = msg :: rest) :
    (c' ≠ c ∧ msg.msgType.isRequest = true) ∨ (c' = c ∧ msg.msgType = flushRep) := by
  by_cases hc : c' = c
  · subst hc
    obtain ⟨-, -, hu | ⟨ups, hu⟩⟩ := (hgood.shapes c').dirty_up hd.owned (hd.shape hlog)
    · rw [view_up hup] at hu
      cases hu
    · rw [view_up hup] at hu
      exact .inr ⟨rfl, (List.cons.inj hu).1⟩
  · have hheld : ¬(demand s.dir w c').held := by
      simp [hd.sharers, hc]
    exact .inl ⟨hc, (hgood.shapes c').request_of_not_held hheld (view_up hup s.dir.log)⟩

theorem Sys.Dirty.not_dram (hd : s.Dirty c) (hlog : s.dir.log = [])
    (hgood : Good race cfg s w s.dir) : w ≠ .dram := by
  rintro rfl
  have hadded := ((hgood.shapes c).dirty_up hd.owned (hd.shape hlog)).1
  cases hq : s.dir.queue with
  | nil => simpa using hgood.ok.empty hq
  | cons req reqs =>
    cases hgood.ok.head req reqs hq with
    | dram _ hwait hmem =>
      simp only [hd.sharers, Finset.mem_singleton] at hmem
      exact hadded (by simp [hq, addedBy, ShmemReq.Flagged, hwait, hmem])

end Dirty

section DirectoryStep

variable {o : List (Event D n)} {result : Except Fault (DramDirectory D n)}
variable {dir dir' : DramDirectory D n} {entry : DirectoryEntry n} {c r : Fin n}
variable {req : ShmemReq D n} {rest : List (ShmemReq D n)} {w : Wait n}

theorem Current.pop (h : Current s) {msg : ShmemMsg D} {msgs : List (ShmemMsg D)}
    (hup : s.toDir c = msg :: msgs) : Current (s.popToDir c msgs) := by
  refine ⟨h.copies, ?_, h.toCache, h.fromDram, h.buffers, h.reading⟩
  intro c' m hm
  by_cases hc : c' = c
  · subst hc
    simp only [Sys.popToDir, Function.update_self] at hm
    exact h.toDir c' m (by simp [hup, hm])
  · simp only [Sys.popToDir, Function.update_of_ne hc] at hm
    exact h.toDir c' m hm

/-- A directory step that hands on only the current contents, and reads DRAM only when
these are there. -/
theorem Current.dirStep (h : Current s) (hcar : Carries s.latest [] dir)
    (hread : ∀ before msg after, sentToDram dir.log = before ++ msg :: after →
      msg.msgType = dramReadReq → written s.memory before = s.latest)
    (hr : s.dirStep (.ok dir) = .ok (s', o)) : Current s' := by
  simp only [Sys.dirStep, Except.ok.injEq, Prod.mk.injEq] at hr
  obtain ⟨rfl, -⟩ := hr
  refine ⟨h.copies, h.toDir, ?_, h.fromDram, hcar.buffers, ?_⟩
  · intro c msg hmem ht
    simp only [List.mem_append] at hmem
    rcases hmem with hmem | hmem
    · exact h.toCache c msg hmem ht
    · exact hcar.events _ (mem_sentTo.mp hmem) ht
  · intro before msg after heq ht
    simp only at heq
    rcases List.append_eq_append_iff.mp heq with ⟨mid, hb, hm⟩ | ⟨mid, hb, hm⟩
    · rw [hb, written_append]
      exact hread mid msg after hm ht
    · cases mid with
      | nil =>
        simp only [List.append_nil, List.nil_append] at hb hm
        have := hread [] msg after (by simpa using hm.symm) ht
        rwa [← hb]
      | cons m mid =>
        simp only [List.cons_append, List.cons.injEq] at hm
        obtain ⟨rfl, rfl⟩ := hm
        exact h.reading before msg mid hb ht

/-- DRAM has the contents, or gets them first. -/
theorem Values.dirStep_clean {base : List (Event D n)} (h : Current s)
    (hcar : Carries s.latest base dir)
    (hbase : written s.memory (sentToDram base) = s.latest)
    (hnoread : ∀ msg ∈ sentToDram base, msg.msgType ≠ dramReadReq)
    (hr : s.dirStep (.ok dir) = .ok (s', o)) : Values s' := by
  obtain ⟨more, hlog⟩ := hcar.appends
  have hcar' : Carries s.latest [] dir := ⟨List.nil_prefix, hcar.events, hcar.buffers⟩
  have hmore : ∀ msg ∈ sentToDram more, msg.msgType = dramWriteReq → msg.dataBuf = some s.latest :=
    fun msg hmem => hcar.events (.sendDram msg)
      (hlog ▸ List.mem_append_right _ (mem_sentToDram.mp hmem))
  have hsent : sentToDram dir.log = sentToDram base ++ sentToDram more := by
    rw [← hlog, sentToDram_append]
  refine ⟨h.dirStep hcar' ?_ hr, .inl ?_⟩
  · intro before msg after heq ht
    rw [hsent] at heq
    rcases List.append_eq_append_iff.mp heq with ⟨mid, hb, hm⟩ | ⟨mid, hb, hm⟩
    · rw [hb, written_append, hbase]
      exact written_same fun m hmem => hmore m (by simp [hm, hmem])
    · cases mid with
      | nil =>
        simp only [List.append_nil] at hb
        rw [← hb]
        exact hbase
      | cons m mid =>
        simp only [List.cons_append, List.cons.injEq] at hm
        exact absurd ht (hm.1 ▸ hnoread m (by simp [hb]))
  · simp only [Sys.dirStep, Except.ok.injEq, Prod.mk.injEq] at hr
    obtain ⟨rfl, -⟩ := hr
    simp only [Sys.memory, written_append, hsent]
    rw [show written s.dram s.toDram = s.memory from rfl, hbase]
    exact written_same hmore

/-- Nothing is read or written while one cache owns the contents. -/
theorem Values.dirStep_dirty (h : Current s) (hcar : Carries s.latest [] dir)
    (hdram : sentToDram dir.log = [])
    (hdirty : ∀ s' o, s.dirStep (.ok dir) = .ok (s', o) → ∃ c, s'.Dirty c)
    (hr : s.dirStep (.ok dir) = .ok (s', o)) : Values s' := by
  refine ⟨h.dirStep hcar ?_ hr, .inr (hdirty s' o hr)⟩
  intro before msg after heq
  simp [hdram] at heq

/-- A request of another core leaves an owned entry alone and asks the owner. -/
structure AsksOwner (dir dir' : DramDirectory D n) : Prop where
  entry : dir'.entry = dir.entry
  appends : ∃ more, dir'.log = dir.log ++ more ∧ sentToDram more = []

theorem AsksOwner.trans {dir'' : DramDirectory D n} (h : AsksOwner dir dir')
    (h' : AsksOwner dir' dir'') : AsksOwner dir dir'' := by
  obtain ⟨hentry, more, hlog, hmore⟩ := h
  obtain ⟨hentry', more', hlog', hmore'⟩ := h'
  refine ⟨hentry'.trans hentry, more ++ more', ?_, ?_⟩
  · rw [hlog', hlog, List.append_assoc]
  · rw [sentToDram_append, hmore, hmore', List.append_nil]

theorem AsksOwner.setEntry (he : dir.entry = some entry) : AsksOwner dir (dir.setEntry entry) :=
  ⟨he.symm, [], by simp, rfl⟩

theorem AsksOwner.emit {event : Event D n} (h : sentToDram [event] = []) :
    AsksOwner dir (dir.emit event) :=
  ⟨rfl, [event], rfl, h⟩

theorem AsksOwner.enqueue : AsksOwner dir (dir.enqueue req) :=
  ⟨rfl, _, rfl, by simp⟩

theorem sendToOwner_asks {t : MsgType} (hr : dir.sendToOwner entry t = .ok dir') :
    AsksOwner dir dir' := by
  unfold DramDirectory.sendToOwner at hr
  split at hr
  · cases hr
  · cases hr
    exact .emit (by simp)

theorem dispatchReq_owned {next : DramDirectory D n → Except Fault (DramDirectory D n)}
    {ch : Choice D n} (he : dir.entry = some entry) (hsh : entry.sharers = {c})
    (hds : entry.dstate = .exclusive ∨ entry.dstate = .modified) (hne : req.key.requester ≠ c)
    (hr : dispatchReq next cfg ch req dir = .ok dir') : AsksOwner dir dir' := by
  have hget : ∀ event, (dir.emit event).getOrAllocate ch = entry := by
    intro event
    simp [DramDirectory.getOrAllocate, he]
  have hlist : entry.getSharersList = [c] := (getSharersList_eq_singleton entry c).mpr hsh
  have hasks : ∀ {dir' : DramDirectory D n} {t : MsgType},
      ((dir.emit (.dispatch req.key)).setEntry entry).sendToOwner entry t = .ok dir' →
        AsksOwner dir dir' := by
    intro dir' t hr
    have hdispatch : AsksOwner dir (dir.emit (.dispatch req.key)) := .emit (by simp)
    have hset : AsksOwner (dir.emit (.dispatch req.key))
        ((dir.emit (.dispatch req.key)).setEntry entry) := .setEntry he
    exact hdispatch.trans (hset.trans (sendToOwner_asks hr))
  unfold dispatchReq at hr
  dsimp only at hr
  split at hr
  · unfold processExReqFromL2Cache at hr
    simp only [hget] at hr
    rcases hds with hds | hds
    · simp only [hds, Option.isSome_none, Bool.false_eq_true, if_false] at hr
      exact hasks hr
    · simp only [hds, Option.isSome_none, Bool.false_eq_true, if_false] at hr
      exact hasks hr
  · unfold processShReqFromL2Cache at hr
    simp only [hget] at hr
    rcases hds with hds | hds
    · simp only [hds, Option.isSome_none, Bool.false_eq_true, if_false] at hr
      split at hr
      · cases hr
      · exact hasks hr
    · simp only [hds, Option.isSome_none, Bool.false_eq_true, if_false] at hr
      exact hasks hr
  · unfold processUpgradeReqFromL2Cache processUpgradeReqOwned at hr
    simp only [hget, hlist] at hr
    rcases hds with hds | hds
    · simp only [hds, Ne.symm hne, if_false] at hr
      exact hasks hr
    · simp only [hds, Ne.symm hne, if_false] at hr
      exact hasks hr
  · cases hr

theorem processNext_owned {ch : Choice D n}
    (hr : processNextReqFromL2Cache cfg ch dir = .ok dir') (he : dir.entry = some entry)
    (hsh : entry.sharers = {c}) (hds : entry.dstate = .exclusive ∨ entry.dstate = .modified)
    (hq : dir.queue = req :: rest) (hothers : ∀ req' ∈ rest, req'.key.requester ≠ c) :
    AsksOwner dir dir' := by
  rw [processNext_eq, hq] at hr
  dsimp only at hr
  have hdone : AsksOwner dir ({ dir with queue := rest }.emit (.dequeue req.key)) :=
    ⟨rfl, _, rfl, by simp⟩
  split at hr
  · cases hr
    exact hdone
  · rename_i req' rest'
    exact hdone.trans (dispatchReq_owned he hsh hds (hothers req' (by simp)) hr)

/-- The data of a FLUSH_REP goes to the requester, which owns the line then. -/
structure Granted (x : D) (r : Fin n) (dir dir' : DramDirectory D n) : Prop where
  sharers : dir'.sharers = {r}
  owned : dir'.dstate = .exclusive ∨ dir'.dstate = .modified
  reply : .send r ⟨exRep, some x⟩ ∈ dir'.log
  appends : ∃ more, dir'.log = dir.log ++ more ∧ sentToDram more = []

theorem addFirstSharer_granted {x : D} {ch : Choice D n} (hempty : entry.sharers = ∅)
    (hq : dir.queue = req :: rest)
    (hothers : ∀ req' ∈ rest, req'.key.requester ≠ req.key.requester)
    (hr : (do
      let entry ← entry.addFirstSharer req.key.requester (cfg.getMaxHwSharers n) .modified
      retrieveDataAndSendToL2Cache (processNextReqFromL2Cache cfg ch) cfg exRep req.key.requester
        (some x) (dir.setEntry entry)) = .ok dir') : Granted x req.key.requester dir dir' := by
  cases hadd : entry.addFirstSharer req.key.requester (cfg.getMaxHwSharers n) .modified with
  | error fault => simp [hadd, bind, Except.bind] at hr
  | ok added =>
    obtain ⟨-, -, rfl⟩ := addFirstSharer_ok hadd
    simp only [hadd, bind, Except.bind, retrieveDataAndSendToL2Cache,
      DramDirectory.setEntry_entry] at hr
    have hsh : insert req.key.requester entry.sharers = {req.key.requester} := by simp [hempty]
    obtain ⟨hentry, more, hlog, hmore⟩ :=
      processNext_owned hr rfl hsh (.inr rfl) hq hothers
    refine ⟨(entry_sharers hentry).trans hsh, .inr (entry_dstate hentry), ?_, ?_⟩
    · rw [hlog]
      exact List.mem_append_left _ (by simp [DramDirectory.sendMsg])
    · refine ⟨[.send req.key.requester ⟨exRep, some x⟩] ++ more, ?_, ?_⟩
      · simp [hlog, DramDirectory.sendMsg]
      · rw [sentToDram_append, hmore]
        rfl

/-- The FLUSH_REP of the only sharer: its data is written to DRAM first, or handed to the
core whose request is at the head. -/
theorem processFlushRep_owned {x : D} {ch : Choice D n} (hcar : Carries x [] dir)
    (hlog : dir.log = []) (he : dir.entry = some entry) (hsh : entry.sharers = {c})
    (hothers : ∀ req rest, dir.queue = req :: rest → req.key.msgType.isRequest = true →
      ∀ req' ∈ rest, req'.key.requester ≠ req.key.requester)
    (hr : processFlushRepFromL2Cache cfg ch c (some x) dir = .ok dir') :
    Carries x [.sendDram ⟨dramWriteReq, some x⟩] dir' ∨
      ∃ req rest, dir.queue = req :: rest ∧
        (req.key.msgType = exReq ∨ req.key.msgType = upgradeReq) ∧
        Granted x req.key.requester dir dir' := by
  unfold processFlushRepFromL2Cache at hr
  rw [he] at hr
  dsimp only at hr
  split at hr
  · cases hr
  cases hrem : entry.removeSharer c with
  | error fault => simp [hrem, bind, Except.bind] at hr
  | ok removed =>
    simp only [hrem, bind, Except.bind] at hr
    obtain ⟨-, rfl⟩ := removeSharer_ok hrem
    have hempty : (entry.removed c).afterFlushRep.sharers = ∅ := by
      simp [DirectoryEntry.afterFlushRep, DirectoryEntry.removed, hsh]
    have hds : (entry.removed c).afterFlushRep.dstate = .uncached := by
      simp [DirectoryEntry.afterFlushRep, DirectoryEntry.removed, DirectoryEntry.getNumSharers, hsh]
    have hset := hcar.setEntry (entry.removed c).afterFlushRep
    let written := (dir.setEntry (entry.removed c).afterFlushRep).sendDataToDram (some x)
    have hwrite : Carries x [.sendDram ⟨dramWriteReq, some x⟩] written :=
      ⟨by simp [written, DramDirectory.sendDataToDram, hlog], hset.write.events,
        hset.write.buffers⟩
    split at hr
    · cases hr
    split at hr
    · cases hr
      exact .inl hwrite
    rename_i req rest hq
    split at hr
    · rename_i ht
      refine .inr ⟨req, rest, hq, .inl ht, ?_⟩
      simp only [processExReqFromL2Cache, DramDirectory.getOrAllocate,
        DramDirectory.setEntry_entry, Option.getD_some, hds] at hr
      have hgrant := addFirstSharer_granted hempty hq (hothers req rest hq (by rw [ht]; rfl)) hr
      exact ⟨hgrant.sharers, hgrant.owned, hgrant.reply, hgrant.appends⟩
    · rename_i ht
      have hmoves : Moves cfg (some x) .serving written .resting dir' :=
        processShReq_moves processNext_moves .refl (show written.queue = _ from hq) ht (.inr rfl) hr
      exact .inl (hmoves.carries hwrite)
    · rename_i ht
      refine .inr ⟨req, rest, hq, .inr ht, ?_⟩
      simp only [DirectoryEntry.getNumSharers, hempty, Finset.card_empty, if_true] at hr
      have hlist : (entry.removed c).afterFlushRep.getSharersList = [] := by
        simp [DirectoryEntry.getSharersList, hempty]
      simp only [processUpgradeReqFromL2Cache, DramDirectory.getOrAllocate,
        DramDirectory.setEntry_entry, Option.getD_some, hds, hlist, ne_eq, not_true_eq_false,
        if_false, Option.some_or] at hr
      have hgrant := addFirstSharer_granted hempty hq (hothers req rest hq (by rw [ht]; rfl)) hr
      exact ⟨hgrant.sharers, hgrant.owned, hgrant.reply, hgrant.appends⟩
    · rename_i hex hsh hup
      have hmoves : Moves cfg (some x) .serving written .resting dir' :=
        processNullifyReq_moves processNext_moves .refl (show written.queue = _ from hq)
          (not_request hex hsh hup) hr
      exact .inl (hmoves.carries hwrite)

/-- The entry of the owner. -/
theorem Sys.Dirty.owner_entry (hd : s.Dirty c) (hok : DirOk cfg s.dir w) :
    ∃ entry, s.dir.entry = some entry ∧ entry.sharers = {c} ∧ entry.owner = some c ∧
      (entry.dstate = .exclusive ∨ entry.dstate = .modified) := by
  have hmem : c ∈ s.dir.sharers := by simp [hd.sharers]
  obtain ⟨entry, he, -⟩ := DirOk.mem_entry hmem
  have hwf := hok.wellFormed he
  have hds := hd.owned
  rw [entry_dstate he] at hds
  obtain ⟨o, ho, hsh⟩ := hwf.owned hds
  have hsh' := hd.sharers
  rw [entry_sharers he, hsh, Finset.singleton_inj] at hsh'
  exact ⟨entry, he, hsh' ▸ hsh, hsh' ▸ ho, hds⟩

/-- An owner stays the owner through a step that leaves the entry and its cache alone. -/
theorem Sys.Dirty.dirStep (hd : s.Dirty c) (he : dir.entry = s.dir.entry)
    (hr : s.dirStep (.ok dir) = .ok (s', o)) : s'.Dirty c := by
  simp only [Sys.dirStep, Except.ok.injEq, Prod.mk.injEq] at hr
  obtain ⟨rfl, -⟩ := hr
  have hsh : dir.sharers = s.dir.sharers := by simp [DramDirectory.sharers, he]
  have hds : dir.dstate = s.dir.dstate := by simp [DramDirectory.dstate, he]
  refine ⟨hsh.trans hd.sharers, hd.owned.imp hds.trans hds.trans, ?_⟩
  refine hd.where_.imp id (Or.imp id (And.imp ?_ id))
  rintro ⟨msg, hmem, ht⟩
  exact ⟨msg, List.mem_append_left _ hmem, ht⟩

variable {ch : Choice D n} {msg : ShmemMsg D} {msgs : List (ShmemMsg D)}

theorem handleMsgFromL2Cache_carries (h : Current s) (hlog : s.dir.log = [])
    (hup : s.toDir c = msg :: msgs) (hkeep : keepsData s (.deliverToDir c ch))
    (hr : handleMsgFromL2Cache cfg ch c msg s.dir = .ok dir') : Carries s.latest [] dir' := by
  have hstart : Carries s.latest [] s.dir := ⟨List.nil_prefix, by simp [hlog], h.buffers⟩
  unfold handleMsgFromL2Cache at hr
  split at hr
  case h_1 => exact enqueueReq_carries hstart hr
  case h_2 => exact enqueueReq_carries hstart hr
  case h_3 => exact enqueueReq_carries hstart hr
  case h_4 => exact processInvRep_carries hstart hr
  case h_5 ht =>
    have hdata := h.toDir c msg (by simp [hup]) (.inl ht)
    rw [hdata] at hr
    refine processFlushRep_carries hstart ?_ hr
    intro req rest hq hreq
    exact hkeep (by simp [hup, ht]) (by simp [hq, hreq])
  case h_6 ht =>
    have hdata := h.toDir c msg (by simp [hup]) (.inr ht)
    rw [hdata] at hr
    exact processWbRep_carries hstart hr
  case h_7 => cases hr

theorem enqueueReq_owned {t : MsgType} {r : Fin n} (he : dir.entry = some entry)
    (hsh : entry.sharers = {c}) (hds : entry.dstate = .exclusive ∨ entry.dstate = .modified)
    (hne : r ≠ c) (hr : enqueueReq cfg ch t r dir = .ok dir') : AsksOwner dir dir' := by
  unfold enqueueReq at hr
  dsimp only at hr
  split at hr
  · have he' : (dir.enqueue (.new t r)).entry = some entry := he
    exact AsksOwner.enqueue.trans (dispatchReq_owned he' hsh hds hne hr)
  · cases hr
    exact .enqueue

/-- A core has one request queued at most. -/
theorem Good.requester_once (hgood : Good race cfg s w s.dir) (hq : s.dir.queue = req :: rest)
    (hkind : req.key.msgType.isRequest = true) :
    ∀ req' ∈ rest, req'.key.requester ≠ req.key.requester := by
  intro req' hmem hsame
  have hqueued : (demand s.dir w req.key.requester).queued =
      req.key.msgType :: queuedBy req.key.requester rest := by
    rw [demand_queued, hq, queuedBy_cons_self rfl (not_nullify hkind)]
  have hnil := ((hgood.shapes req.key.requester).of_queued hqueued).1
  have htail := (hgood.ok.tail req' (by simp [hq, hmem])).1
  have := mem_queuedBy hmem htail
  rw [hsame, hnil] at this
  cases this

/-- The core whose EX_REQ or UPGRADE_REQ is answered with another core's data waits to
write. -/
theorem Good.requester_waits (hgood : Good race cfg s w s.dir) (hq : s.dir.queue = req :: rest)
    (ht : req.key.msgType = exReq ∨ req.key.msgType = upgradeReq)
    (hnot : req.key.requester ∉ s.dir.sharers) :
    (s.cache req.key.requester).waiters.head? = some true ∧
      (s.cache req.key.requester).serving = false := by
  have hkind : req.key.msgType.isRequest = true := by rcases ht with ht | ht <;> rw [ht] <;> rfl
  have hqueued : (demand s.dir w req.key.requester).queued =
      req.key.msgType :: queuedBy req.key.requester rest := by
    rw [demand_queued, hq, queuedBy_cons_self rfl (not_nullify hkind)]
  obtain ⟨-, ⟨hready, -⟩ | ⟨-, hheld, -⟩⟩ := (hgood.shapes req.key.requester).of_queued hqueued
  · refine hready.exclusive ?_
    rcases ht with ht | ht <;> simp [ht]
  · exact absurd hheld hnot

theorem Values.deliverToDir (h : Values s) (hinv : Inv race cfg s) (hup : s.toDir c = msg :: msgs)
    (hkeep : keepsData s (.deliverToDir c ch))
    (hr : (s.popToDir c msgs).dirStep (handleMsgFromL2Cache cfg ch c msg s.dir) = .ok (s', o)) :
    Values s' := by
  cases hres : handleMsgFromL2Cache cfg ch c msg s.dir with
  | error fault =>
    rw [hres] at hr
    cases hr
  | ok dir =>
    rw [hres] at hr
    have hpop := h.current.pop hup
    have hcar := handleMsgFromL2Cache_carries h.current hinv.log hup hkeep hres
    rcases h.backed with hmem | ⟨owner, hd⟩
    · exact Values.dirStep_clean hpop hcar hmem (by simp) hr
    obtain ⟨w, hgood, -, -⟩ := hinv.settled
    obtain ⟨entry, he, hsh, -, hds⟩ := hd.owner_entry hgood.ok
    rcases hd.hears hinv.log hgood hup with ⟨hc, hkind⟩ | ⟨rfl, ht⟩
    · -- a request of another core
      have hreq : enqueueReq cfg ch msg.msgType c s.dir = .ok dir := by
        unfold handleMsgFromL2Cache at hres
        split at hres
        case h_1 => exact hres
        case h_2 => exact hres
        case h_3 => exact hres
        case h_4 ht => simp [ht, isRequest] at hkind
        case h_5 ht => simp [ht, isRequest] at hkind
        case h_6 ht => simp [ht, isRequest] at hkind
        case h_7 => cases hres
      obtain ⟨hentry, more, hlog, hmore⟩ := enqueueReq_owned he hsh hds hc hreq
      refine Values.dirStep_dirty hpop hcar (by simp [hlog, hinv.log, hmore]) ?_ hr
      intro s' o hr
      have hd' : (s.popToDir c msgs).Dirty owner := by
        refine ⟨hd.sharers, hd.owned, ?_⟩
        simpa [Sys.popToDir, Function.update_of_ne (Ne.symm hc)] using hd.where_
      exact ⟨owner, hd'.dirStep hentry hr⟩
    · -- the owner gives its contents back
      have hdata := h.current.toDir c msg (by simp [hup]) (.inl ht)
      have hstart : Carries s.latest [] s.dir :=
        ⟨List.nil_prefix, by simp [hinv.log], h.current.buffers⟩
      have hflush : processFlushRepFromL2Cache cfg ch c (some s.latest) s.dir = .ok dir := by
        simpa [handleMsgFromL2Cache, ht, hdata] using hres
      rcases processFlushRep_owned hstart hinv.log he hsh
          (fun req rest hq hkind => hgood.requester_once hq hkind) hflush with
        hwrite | ⟨req, rest, hq, hkind, hgrant⟩
      · refine Values.dirStep_clean hpop hwrite ?_ ?_ hr
        · simp [written, Sys.popToDir]
        · simp
      · obtain ⟨more, hlog, hmore⟩ := hgrant.appends
        refine Values.dirStep_dirty hpop hcar (by simp [hlog, hinv.log, hmore]) ?_ hr
        intro s' o hr
        have hqueued := ((hgood.shapes c).dirty_up hd.owned (hd.shape hinv.log)).2.1
        have hnot : req.key.requester ∉ s.dir.sharers := by
          rw [hd.sharers, Finset.mem_singleton]
          intro hsame
          have hreq : req.key.msgType.isRequest = true := by
            rcases hkind with hkind | hkind <;> rw [hkind] <;> rfl
          rw [demand_queued, hq, queuedBy_cons_self hsame (not_nullify hreq)] at hqueued
          cases hqueued
        have hwaits := hgood.requester_waits hq hkind hnot
        simp only [Sys.dirStep, Except.ok.injEq, Prod.mk.injEq] at hr
        obtain ⟨rfl, -⟩ := hr
        refine ⟨req.key.requester, hgrant.sharers, hgrant.owned, .inr (.inr ⟨?_, hwaits⟩)⟩
        exact ⟨_, List.mem_append_right _ (mem_sentTo.mpr hgrant.reply), rfl⟩

theorem Values.deliverFromDram (h : Values s) (hinv : Inv race cfg s)
    (hfrom : s.fromDram = msg :: msgs)
    (hr : { s with fromDram := msgs }.dirStep (handleMsgFromDRAM cfg ch msg s.dir) = .ok (s', o)) :
    Values s' := by
  cases hres : handleMsgFromDRAM cfg ch msg s.dir with
  | error fault =>
    rw [hres] at hr
    cases hr
  | ok dir =>
    rw [hres] at hr
    obtain ⟨w, hgood, -, -⟩ := hinv.settled
    have hmem : s.memory = s.latest := by
      rcases h.backed with hmem | ⟨owner, hd⟩
      · exact hmem
      · have hreads := hgood.reads
        rw [if_neg (hd.not_dram hinv.log hgood)] at hreads
        simp [Sys.reads, hfrom] at hreads
    have hpop : Current { s with fromDram := msgs } :=
      ⟨h.current.copies, h.current.toDir, h.current.toCache,
        fun m hm => h.current.fromDram m (by simp [hfrom, hm]), h.current.buffers,
        h.current.reading⟩
    have hdata := h.current.fromDram msg (by simp [hfrom])
    have hstart : Carries s.latest [] s.dir :=
      ⟨List.nil_prefix, by simp [hinv.log], h.current.buffers⟩
    have hcar : Carries s.latest [] dir := by
      unfold handleMsgFromDRAM at hres
      split at hres
      · rw [hdata] at hres
        exact processDRAMReply_carries hstart hres
      · cases hres
    exact Values.dirStep_clean hpop hcar hmem (by simp) hr

theorem Values.nullify {requester : Fin n} (h : Values s) (hinv : Inv race cfg s)
    (hr : s.dirStep (Coherence.nullify cfg ch requester s.dir) = .ok (s', o)) : Values s' := by
  cases hres : Coherence.nullify cfg ch requester s.dir with
  | error fault =>
    rw [hres] at hr
    cases hr
  | ok dir =>
    rw [hres] at hr
    have hstart : Carries s.latest [] s.dir :=
      ⟨List.nil_prefix, by simp [hinv.log], h.current.buffers⟩
    have hcar := nullify_carries hstart hres
    rcases h.backed with hmem | ⟨owner, hd⟩
    · exact Values.dirStep_clean h.current hcar hmem (by simp) hr
    obtain ⟨w, hgood, -, -⟩ := hinv.settled
    obtain ⟨entry, he, hsh, -, hds⟩ := hd.owner_entry hgood.ok
    have hasks : AsksOwner s.dir dir := by
      unfold Coherence.nullify at hres
      split at hres
      · unfold processNullifyReq at hres
        simp only [DramDirectory.emit_entry] at hres
        rw [show (s.dir.enqueue (.new nullifyReq requester)).entry = some entry from he] at hres
        have hqueue : AsksOwner s.dir ((s.dir.enqueue (.new nullifyReq requester)).emit
            (.dispatch ⟨nullifyReq, requester⟩)) := AsksOwner.enqueue.trans (.emit (by simp))
        rcases hds with hds | hds
        · simp only [hds] at hres
          exact hqueue.trans (sendToOwner_asks hres)
        · simp only [hds] at hres
          exact hqueue.trans (sendToOwner_asks hres)
      · cases hres
    obtain ⟨hentry, more, hlog, hmore⟩ := hasks
    refine Values.dirStep_dirty h.current hcar (by simp [hlog, hinv.log, hmore]) ?_ hr
    intro s' o hr
    exact ⟨owner, hd.dirStep hentry hr⟩

theorem Values.accessDram (h : Values s) (hr : s.accessDram = .ok (s', o)) : Values s' := by
  unfold Sys.accessDram at hr
  split at hr
  · cases hr
  rename_i msg rest htd
  have hcur := h.current
  have hdirty : ∀ {toDram fromDram : List (ShmemMsg D)} {dram : D},
      written dram toDram = s.memory →
      { s with toDram := toDram, fromDram := fromDram, dram := dram }.memory = s.latest ∨
        ∃ c, { s with toDram := toDram, fromDram := fromDram, dram := dram }.Dirty c := by
    intro toDram fromDram dram hmem
    rcases h.backed with hclean | ⟨c, hd⟩
    · exact .inl (hmem.trans hclean)
    · exact .inr ⟨c, hd.sharers, hd.owned, hd.where_⟩
  split at hr
  · rename_i ht
    cases hr
    have hmem : written s.dram rest = s.memory := by simp [Sys.memory, htd, written_cons, ht]
    refine ⟨⟨hcur.copies, hcur.toDir, hcur.toCache, ?_, hcur.buffers, ?_⟩, hdirty hmem⟩
    · intro m hm
      simp only [List.mem_append, List.mem_singleton] at hm
      rcases hm with hm | rfl
      · exact hcur.fromDram m hm
      · simpa using hcur.reading [] msg rest htd ht
    · intro before m after heq
      have := hcur.reading (msg :: before) m after (by rw [htd, List.cons_append]; exact congrArg _ heq)
      simpa [written_cons, ht] using this
  · rename_i ht
    cases hr
    have hmem : written (msg.dataBuf.getD s.dram) rest = s.memory := by
      simp [Sys.memory, htd, written_cons, ht]
    refine ⟨⟨hcur.copies, hcur.toDir, hcur.toCache, hcur.fromDram, hcur.buffers, ?_⟩, hdirty hmem⟩
    intro before m after heq
    have := hcur.reading (msg :: before) m after (by rw [htd, List.cons_append]; exact congrArg _ heq)
    simpa [written_cons, ht] using this
  · cases hr

end DirectoryStep

section CacheStep

variable {cache cache' : Cache D} {sent : List (ShmemMsg D)} {x : D} {o : List (Event D n)}
variable {c c' : Fin n}

/-- A cache step that invents no data: what it holds and sends is `x`. -/
structure Holds (x : D) (cache' : Cache D) (sent : List (ShmemMsg D)) : Prop where
  copy : cache'.cstate ≠ .invalid → cache'.data = x
  sent : ∀ msg ∈ sent, msg.msgType = flushRep ∨ msg.msgType = wbRep → msg.dataBuf = some x

/-- A core that waits for a reply that lets it write. -/
def Cache.WaitsToWrite (cache : Cache D) : Prop :=
  cache.waiters.head? = some true ∧ cache.serving = false

/-- A cache step that loses no data: a MODIFIED line stays or leaves with a FLUSH_REP, and
a core that waits to write goes on waiting or has the line. -/
structure Keeps (cache cache' : Cache D) (sent : List (ShmemMsg D)) : Prop where
  modified : cache.cstate = .modified →
    cache'.cstate = .modified ∨ ∃ msg ∈ sent, msg.msgType = flushRep
  waits : cache.WaitsToWrite → cache'.cstate = .modified ∨ cache'.WaitsToWrite

theorem serveWaiters_holds (hr : cache.serveWaiters = .ok (cache', sent))
    (h : cache.cstate ≠ .invalid → cache.data = x) : Holds x cache' sent := by
  unfold Cache.serveWaiters Cache.processUpgradeReqToDirectory at hr
  constructor <;> grind

theorem serveWaiters_modified (hr : cache.serveWaiters = .ok (cache', sent))
    (hc : cache.cstate = .modified) : cache'.cstate = .modified := by
  unfold Cache.serveWaiters Cache.processUpgradeReqToDirectory at hr
  grind

/-- A waiting writer is woken with the line, or upgrades. -/
theorem serveWaiters_waits (hr : cache.serveWaiters = .ok (cache', sent))
    (hw : cache.waiters.head? = some true) :
    cache'.cstate = .modified ∨ cache.cstate = .shared ∧ cache'.WaitsToWrite := by
  unfold Cache.serveWaiters Cache.processUpgradeReqToDirectory at hr
  unfold Cache.WaitsToWrite
  grind

theorem initiateDirectoryAccess_holds {exclusive : Bool}
    (h : cache.cstate ≠ .invalid → cache.data = x)
    (hr : cache.initiateDirectoryAccess exclusive = .ok (cache', sent)) : Holds x cache' sent := by
  unfold Cache.initiateDirectoryAccess Cache.processUpgradeReqToDirectory
    Cache.processExReqToDirectory Cache.processShReqToDirectory at hr
  constructor <;> grind

theorem initiateDirectoryAccess_keeps {exclusive : Bool} (hc : cache.cstate ≠ .modified)
    (hr : cache.initiateDirectoryAccess exclusive = .ok (cache', sent)) :
    Keeps cache cache' sent := by
  refine ⟨fun h => absurd h hc, ?_⟩
  unfold Cache.initiateDirectoryAccess Cache.processUpgradeReqToDirectory
    Cache.processExReqToDirectory Cache.processShReqToDirectory at hr
  intro hw
  unfold Cache.WaitsToWrite at hw ⊢
  grind

theorem read_values (h : cache.cstate ≠ .invalid → cache.data = x)
    (hr : cache.read = .ok (cache', sent)) : Holds x cache' sent ∧ Keeps cache cache' sent := by
  unfold Cache.read at hr
  split at hr
  · cases hr
    exact ⟨⟨h, by simp⟩, .inl, .inr⟩
  · rename_i hc
    refine ⟨initiateDirectoryAccess_holds h hr, initiateDirectoryAccess_keeps ?_ hr⟩
    intro hm
    simp [hm, CacheState.readable] at hc

theorem write_values (h : cache.cstate ≠ .invalid → cache.data = x)
    (hr : cache.write = .ok (cache', sent)) : Holds x cache' sent ∧ Keeps cache cache' sent := by
  unfold Cache.write at hr
  split at hr
  · cases hr
    exact ⟨⟨h, by simp⟩, .inl, .inr⟩
  rename_i hc
  split at hr
  · rename_i he
    cases hr
    exact ⟨⟨fun _ => h (by simp [he]), by simp⟩, fun _ => .inl rfl, fun _ => .inl rfl⟩
  · refine ⟨initiateDirectoryAccess_holds h hr, initiateDirectoryAccess_keeps ?_ hr⟩
    intro hm
    simp [hm, CacheState.writable] at hc

theorem evict_values (h : cache.cstate ≠ .invalid → cache.data = x)
    (hr : cache.evict = .ok (cache', sent)) : Holds x cache' sent ∧ Keeps cache cache' sent := by
  unfold Cache.evict at hr
  split at hr
  · cases hr
  · cases hr
  · rename_i hc
    cases hr
    refine ⟨⟨by simp, ?_⟩, ?_, .inr⟩
    · simpa using h (by simp [hc])
    · exact fun _ => .inr ⟨_, List.mem_singleton_self _, rfl⟩
  · rename_i hc
    cases hr
    exact ⟨⟨by simp, by simp⟩, fun hm => by simp [hc] at hm, .inr⟩
  · rename_i hc
    cases hr
    exact ⟨⟨by simp, by simp⟩, fun hm => by simp [hc] at hm, .inr⟩
  · cases hr

theorem finishWaiter_values (h : cache.cstate ≠ .invalid → cache.data = x)
    (hr : cache.finishWaiter = .ok (cache', sent)) :
    Holds x cache' sent ∧ Keeps cache cache' sent := by
  unfold Cache.finishWaiter at hr
  split at hr
  · rename_i hs
    refine ⟨serveWaiters_holds hr h, fun hm => .inl (serveWaiters_modified hr hm), ?_⟩
    intro hw
    have := hw.2
    simp [hs] at this
  · cases hr

/-- A reply installs the contents it carries. -/
theorem processReply_values {msg : ShmemMsg D} {unwritten : D}
    (h : cache.cstate ≠ .invalid → cache.data = x)
    (hdata : msg.msgType = exRep ∨ msg.msgType = shRep → msg.dataBuf = some x)
    (hr : cache.processReply msg unwritten = .ok cache') :
    cache'.data = x ∧ cache'.waiters = cache.waiters ∧ cache.cstate ≠ .modified ∧
      (msg.msgType = exRep → cache'.cstate = .exclusive) := by
  unfold Cache.processReply Cache.insertCacheBlock at hr
  split at hr
  · rename_i ht
    split at hr
    · rename_i hc
      cases hr
      exact ⟨by simp [hdata (.inl ht)], rfl, by simp [hc], fun _ => rfl⟩
    · cases hr
  · rename_i ht
    split at hr
    · rename_i hc
      cases hr
      exact ⟨by simp [hdata (.inr ht)], rfl, by simp [hc], by simp [ht]⟩
    · cases hr
  · rename_i ht
    split at hr
    · cases hr
    split at hr
    · rename_i hc
      cases hr
      exact ⟨h (by simp [hc]), rfl, by simp [hc], by simp [ht]⟩
    · cases hr
  · cases hr

theorem processReplyAndServe_values {msg : ShmemMsg D} {unwritten : D}
    (h : cache.cstate ≠ .invalid → cache.data = x)
    (hdata : msg.msgType = exRep ∨ msg.msgType = shRep → msg.dataBuf = some x)
    (hr : cache.processReplyAndServe msg unwritten = .ok (cache', sent)) :
    Holds x cache' sent ∧ Keeps cache cache' sent ∧
      (cache.WaitsToWrite → msg.msgType = exRep → cache'.cstate = .modified) := by
  unfold Cache.processReplyAndServe at hr
  split at hr
  · cases hr
  split at hr
  · cases hr
  rename_i replied hp
  obtain ⟨hx, hw, hm, he⟩ := processReply_values h hdata hp
  refine ⟨serveWaiters_holds hr fun _ => hx, ⟨fun hc => absurd hc hm, ?_⟩, ?_⟩
  · intro hwaits
    exact (serveWaiters_waits hr (hw ▸ hwaits.1)).imp id And.right
  · intro hwaits ht
    rcases serveWaiters_waits hr (hw ▸ hwaits.1) with hc | ⟨hc, -⟩
    · exact hc
    · simp [he ht] at hc

theorem handleMsgFromDramDirectory_values {msg : ShmemMsg D} {unwritten : D}
    (h : cache.cstate ≠ .invalid → cache.data = x)
    (hdata : msg.msgType = exRep ∨ msg.msgType = shRep → msg.dataBuf = some x)
    (hkeep : msg.msgType = wbReq → cache.cstate ≠ .modified ∧ cache.cstate ≠ .sharedUpgrading)
    (hr : cache.handleMsgFromDramDirectory msg unwritten = .ok (cache', sent)) :
    Holds x cache' sent ∧ Keeps cache cache' sent ∧
      (cache.WaitsToWrite → msg.msgType = exRep → cache'.cstate = .modified) := by
  unfold Cache.handleMsgFromDramDirectory at hr
  split at hr
  · exact processReplyAndServe_values h hdata hr
  · exact processReplyAndServe_values h hdata hr
  · exact processReplyAndServe_values h hdata hr
  · rename_i ht
    unfold Cache.processInvReqFromDramDirectory at hr
    refine ⟨?_, ?_, by simp [ht]⟩
    · constructor <;> grind
    · constructor <;> grind [Cache.WaitsToWrite]
  · rename_i ht
    have hflush : cache' = cache ∧ sent = [] ∧ cache.cstate = .invalid ∨
        cache' = { cache with cstate := .invalid } ∧ sent = [⟨flushRep, some cache.data⟩] ∧
          cache.cstate ≠ .invalid := by
      unfold Cache.processFlushReqFromDramDirectory at hr
      grind
    refine ⟨?_, ?_, by simp [ht]⟩
    · rcases hflush with ⟨rfl, rfl, -⟩ | ⟨rfl, rfl, hc⟩
      · exact ⟨h, by simp⟩
      · exact ⟨by simp, by simpa using h hc⟩
    · rcases hflush with ⟨rfl, rfl, -⟩ | ⟨rfl, rfl, hc⟩
      · exact ⟨.inl, .inr⟩
      · exact ⟨fun _ => .inr ⟨_, List.mem_singleton_self _, rfl⟩, .inr⟩
  · rename_i ht
    have hc := hkeep ht
    unfold Cache.processWbReqFromDramDirectory at hr
    refine ⟨?_, ?_, by simp [ht]⟩
    · constructor <;> grind
    · constructor <;> grind [Cache.WaitsToWrite]
  · cases hr

theorem Current.cacheStep (h : Current s) (hholds : Holds s.latest cache' sent)
    (hr : s.cacheStep c (.ok (cache', sent)) = .ok (s', o)) : Current s' := by
  simp only [Sys.cacheStep, Except.ok.injEq, Prod.mk.injEq] at hr
  obtain ⟨rfl, -⟩ := hr
  refine ⟨?_, ?_, h.toCache, h.fromDram, h.buffers, h.reading⟩
  · intro c' hc'
    by_cases hc : c' = c
    · subst hc
      simp only [Function.update_self] at hc' ⊢
      exact hholds.copy hc'
    · simp only [Function.update_of_ne hc] at hc' ⊢
      exact h.copies c' hc'
  · intro c' msg hmem ht
    by_cases hc : c' = c
    · subst hc
      simp only [Function.update_self, List.mem_append] at hmem
      rcases hmem with hmem | hmem
      · exact h.toDir c' msg hmem ht
      · exact hholds.sent msg hmem ht
    · simp only [Function.update_of_ne hc] at hmem
      exact h.toDir c' msg hmem ht

/-- The owner's contents after a cache step, of the owner itself or of another cache. -/
theorem Sys.Dirty.cacheStep (hd : s.Dirty c') (hkeeps : Keeps (s.cache c) cache' sent)
    (hr : s.cacheStep c (.ok (cache', sent)) = .ok (s', o)) : s'.Dirty c' := by
  simp only [Sys.cacheStep, Except.ok.injEq, Prod.mk.injEq] at hr
  obtain ⟨rfl, -⟩ := hr
  refine ⟨hd.sharers, hd.owned, ?_⟩
  by_cases hc : c' = c
  · subst hc
    simp only [Function.update_self]
    rcases hd.where_ with hm | ⟨msg, hmem, ht⟩ | ⟨hex, hw⟩
    · rcases hkeeps.modified hm with hm' | ⟨msg, hmem, ht⟩
      · exact .inl hm'
      · exact .inr (.inl ⟨msg, List.mem_append_right _ hmem, ht⟩)
    · exact .inr (.inl ⟨msg, List.mem_append_left _ hmem, ht⟩)
    · rcases hkeeps.waits hw with hm' | hw'
      · exact .inl hm'
      · exact .inr (.inr ⟨hex, hw'⟩)
  · simpa only [Function.update_of_ne hc] using hd.where_

theorem Values.cacheStep {result : CacheStep D} (h : Values s)
    (hvalues : ∀ cache' sent, result = .ok (cache', sent) →
      Holds s.latest cache' sent ∧ Keeps (s.cache c) cache' sent)
    (hr : s.cacheStep c result = .ok (s', o)) : Values s' := by
  cases hres : result with
  | error fault =>
    rw [hres] at hr
    cases hr
  | ok p =>
    obtain ⟨cache', sent⟩ := p
    rw [hres] at hr
    obtain ⟨hholds, hkeeps⟩ := hvalues cache' sent hres
    refine ⟨h.current.cacheStep hholds hr, ?_⟩
    rcases h.backed with hmem | ⟨c', hd⟩
    · simp only [Sys.cacheStep, Except.ok.injEq, Prod.mk.injEq] at hr
      obtain ⟨rfl, -⟩ := hr
      exact .inl hmem
    · exact .inr ⟨c', hd.cacheStep hkeeps hr⟩

theorem Values.deliverToCache {msg : ShmemMsg D} {msgs : List (ShmemMsg D)} {unwritten : D}
    (h : Values s) (hdn : s.toCache c = msg :: msgs)
    (hkeep : keepsData s (.deliverToCache c unwritten))
    (hr : (s.popToCache c msgs).cacheStep c
      ((s.cache c).handleMsgFromDramDirectory msg unwritten) = .ok (s', o)) : Values s' := by
  cases hres : (s.cache c).handleMsgFromDramDirectory msg unwritten with
  | error fault =>
    rw [hres] at hr
    cases hr
  | ok p =>
    obtain ⟨cache', sent⟩ := p
    rw [hres] at hr
    have hdata := h.current.toCache c msg (by simp [hdn])
    obtain ⟨hholds, hkeeps, hgrant⟩ := handleMsgFromDramDirectory_values (h.current.copies c) hdata
      (fun ht => hkeep (by simp [hdn, ht])) hres
    have hpop : Current (s.popToCache c msgs) := by
      refine ⟨h.current.copies, h.current.toDir, ?_, h.current.fromDram, h.current.buffers,
        h.current.reading⟩
      intro c' m hm
      by_cases hc : c' = c
      · subst hc
        simp only [Sys.popToCache, Function.update_self] at hm
        exact h.current.toCache c' m (by simp [hdn, hm])
      · simp only [Sys.popToCache, Function.update_of_ne hc] at hm
        exact h.current.toCache c' m hm
    refine ⟨hpop.cacheStep hholds hr, ?_⟩
    rcases h.backed with hmem | ⟨c', hd⟩
    · simp only [Sys.cacheStep, Except.ok.injEq, Prod.mk.injEq] at hr
      obtain ⟨rfl, -⟩ := hr
      exact .inl hmem
    refine .inr ⟨c', ?_⟩
    -- the EX_REP itself may be what is delivered
    by_cases hex : c' = c ∧ (s.cache c).WaitsToWrite ∧ msg.msgType = exRep
    · obtain ⟨rfl, hw, ht⟩ := hex
      simp only [Sys.cacheStep, Except.ok.injEq, Prod.mk.injEq] at hr
      obtain ⟨rfl, -⟩ := hr
      exact ⟨hd.sharers, hd.owned, .inl (by simpa using hgrant hw ht)⟩
    · have hd' : (s.popToCache c msgs).Dirty c' := by
        refine ⟨hd.sharers, hd.owned, hd.where_.imp id (Or.imp id ?_)⟩
        rintro ⟨⟨m, hm, ht⟩, hw⟩
        refine ⟨?_, hw⟩
        by_cases hc : c' = c
        · subst hc
          simp only [hdn, List.mem_cons] at hm
          rcases hm with rfl | hm
          · exact absurd ⟨rfl, hw, ht⟩ hex
          · exact ⟨m, by simpa [Sys.popToCache] using hm, ht⟩
        · exact ⟨m, by simpa [Sys.popToCache, Function.update_of_ne hc] using hm, ht⟩
      exact hd'.cacheStep hkeeps hr

/-- No contents are in flight from or to a cache that is no sharer. -/
theorem Shape.silent_of_not_held {q : Demand} {v : View} (h : Shape race q v) (hheld : ¬q.held) :
    flushRep ∉ v.up ∧ wbRep ∉ v.up ∧ Noise v.dn := by
  cases h with
  | away _ _ _ hn hstage =>
    cases hstage with
    | none hu => simp [hu, hn]
    | sentEx hu => simp [hu, hn]
    | sentSh hu => simp [hu, hn]
    | waits _ hu => simp [hu, hn]
  | added hh => exact absurd hh hheld
  | granted hh => exact absurd hh hheld
  | holding hh => exact absurd hh hheld
  | upgrading hh => exact absurd hh hheld
  | upgraded hh => exact absurd hh hheld
  | leaving hh => exact absurd hh hheld
  | leavingUpgrade hh => exact absurd hh hheld
  | doomed _ hh => exact absurd hh hheld

/-- Nor from or to a cache with a MODIFIED line. -/
theorem Shape.silent_of_modified {q : Demand} {v : View} (h : Shape race q v)
    (hc : v.cstate = .modified) : flushRep ∉ v.up ∧ wbRep ∉ v.up ∧ Noise v.dn := by
  obtain ⟨-, -, -, -, wb, hu, hasks, hfits⟩ := h.copy (by simp [hc]) (by simp [hc])
  have hwb := (hfits.writable (.inr hc)).1
  simp [hu, hwb, wbPart, hasks.list.noise]

theorem Inv.dirty_of_modified (h : Inv race cfg s) (hc : (s.cache c).cstate = .modified) :
    s.Dirty c := by
  obtain ⟨w, hgood, -, -⟩ := h.settled
  obtain ⟨hmem, hds⟩ := (hgood.shapes c).owned_of_writable (.inr hc)
  obtain ⟨owner, -, hsh⟩ := hgood.ok.owner hds
  have hmem : c ∈ s.dir.sharers := hmem
  rw [hsh, Finset.mem_singleton] at hmem
  exact ⟨hmem ▸ hsh, hds, .inl hc⟩

/-- While a line is MODIFIED its contents are nowhere in flight. -/
theorem Inv.silent_of_modified (h : Inv race cfg s) (hc : (s.cache c).cstate = .modified) :
    (∀ c', ∀ msg ∈ s.toDir c', msg.msgType ≠ flushRep ∧ msg.msgType ≠ wbRep) ∧
      (∀ c', ∀ msg ∈ s.toCache c', msg.msgType ≠ exRep ∧ msg.msgType ≠ shRep) ∧
      s.fromDram = [] ∧ ∀ msg ∈ s.toDram, msg.msgType ≠ dramReadReq := by
  have hd := h.dirty_of_modified hc
  obtain ⟨w, hgood, -, -⟩ := h.settled
  have hsilent : ∀ c', flushRep ∉ (s.view s.dir.log c').up ∧ wbRep ∉ (s.view s.dir.log c').up ∧
      Noise (s.view s.dir.log c').dn := by
    intro c'
    by_cases hcc : c' = c
    · exact (hgood.shapes c').silent_of_modified (hcc ▸ hc)
    · have hheld : ¬(demand s.dir w c').held := by simp [hd.sharers, hcc]
      exact (hgood.shapes c').silent_of_not_held hheld
  have hreads := hgood.reads
  rw [if_neg (hd.not_dram h.log hgood)] at hreads
  simp only [Sys.reads, h.log, sentToDram_nil, List.append_nil, Nat.add_eq_zero_iff,
    List.length_eq_zero_iff, List.countP_eq_zero, decide_eq_true_eq] at hreads
  refine ⟨?_, ?_, hreads.1, hreads.2⟩
  · intro c' msg hmem
    obtain ⟨hflush, hwb, -⟩ := hsilent c'
    exact ⟨fun ht => hflush (List.mem_map.mpr ⟨msg, hmem, ht⟩),
      fun ht => hwb (List.mem_map.mpr ⟨msg, hmem, ht⟩)⟩
  · intro c' msg hmem
    have hnoise := (hsilent c').2.2 msg.msgType
      (List.mem_map_of_mem (List.mem_append_left _ hmem))
    exact ⟨fun ht => by simp [ht, isDemand] at hnoise, fun ht => by simp [ht, isDemand] at hnoise⟩

theorem Values.store {data : D} (h : Values s) (hinv : Inv race cfg s)
    (hr : { s with latest := data }.cacheStep c ((s.cache c).store data) = .ok (s', o)) :
    Values s' := by
  unfold Cache.store at hr
  split at hr
  · rename_i hw
    have hc : (s.cache c).cstate = .modified := by
      cases hcs : (s.cache c).cstate <;> simp [hcs, CacheState.writable] at hw ⊢
    obtain ⟨hdir, hcache, hfrom, hread⟩ := hinv.silent_of_modified hc
    have hd := hinv.dirty_of_modified hc
    simp only [Sys.cacheStep, Except.ok.injEq, Prod.mk.injEq] at hr
    obtain ⟨rfl, -⟩ := hr
    refine ⟨⟨?_, ?_, ?_, ?_, h.current.buffers, ?_⟩, .inr ⟨c, hd.sharers, hd.owned, .inl ?_⟩⟩
    · intro c' hc'
      by_cases hcc : c' = c
      · subst hcc
        simp
      · simp only [Function.update_of_ne hcc] at hc'
        exact absurd (hinv.settled.single_writer (.inr hc) hcc) hc'
    · intro c' msg hmem ht
      have hmem : msg ∈ s.toDir c' := by
        by_cases hcc : c' = c
        · subst hcc
          simpa using hmem
        · simpa [Function.update_of_ne hcc] using hmem
      obtain ⟨hflush, hwb⟩ := hdir c' msg hmem
      exact absurd ht (by simp [hflush, hwb])
    · intro c' msg hmem ht
      obtain ⟨hex, hsh⟩ := hcache c' msg hmem
      exact absurd ht (by simp [hex, hsh])
    · simp [hfrom]
    · intro before msg after heq ht
      exact absurd ht (hread msg (by simp [show s.toDram = before ++ msg :: after from heq]))
    · simp [hc]
  · cases hr

end CacheStep

theorem Values.init (data : D) : Values (.init data : Sys D n) := by
  refine ⟨⟨?_, ?_, ?_, ?_, ?_, ?_⟩, .inl rfl⟩
  · simp [Sys.init]
  · simp [Sys.init]
  · simp [Sys.init]
  · simp [Sys.init]
  · simp [Sys.init]
  · simp [Sys.init]

theorem Values.step {a : Action D n} {o : List (Event D n)} (h : Values s) (hinv : Inv race cfg s)
    (hkeep : keepsData s a) (hr : Coherence.step cfg s a = .ok (s', o)) : Values s' := by
  cases a with
  | read c => exact h.cacheStep (fun _ _ hres => read_values (h.current.copies c) hres) hr
  | write c => exact h.cacheStep (fun _ _ hres => write_values (h.current.copies c) hres) hr
  | store c data => exact h.store hinv hr
  | evict c => exact h.cacheStep (fun _ _ hres => evict_values (h.current.copies c) hres) hr
  | finishWaiter c =>
    exact h.cacheStep (fun _ _ hres => finishWaiter_values (h.current.copies c) hres) hr
  | deliverToCache c unwritten =>
    simp only [Coherence.step] at hr
    split at hr
    · cases hr
    split at hr
    · cases hr
    · rename_i hdn
      exact h.deliverToCache hdn hkeep hr
  | deliverToDir c ch =>
    simp only [Coherence.step] at hr
    split at hr
    · cases hr
    · rename_i hup
      exact h.deliverToDir hinv hup hkeep hr
  | accessDram => exact h.accessDram hr
  | deliverFromDram ch =>
    simp only [Coherence.step] at hr
    split at hr
    · cases hr
    · rename_i hfrom
      exact h.deliverFromDram hinv hfrom hr
  | nullify requester ch => exact h.nullify hinv hr

theorem Values.of_run {tr : List (Action D n × List (Event D n))}
    (h : Run (machine D n cfg) keepsData tr s) : Values s := by
  have hboth : Inv True cfg s ∧ Values s := by
    refine h.invariant (I := fun s => Inv True cfg s ∧ Values s) ?_ ?_
    · rintro s ⟨data, rfl⟩
      exact ⟨Inv.init data, Values.init data⟩
    · rintro s a o s' ⟨hinv, hvalues⟩ hkeep hstep
      exact ⟨hinv.step (.inl trivial) hstep, hvalues.step hinv hkeep hstep⟩
  exact hboth.2

section DataValue

/-- A message in flight whose data DRAM does not have. -/
def Sys.CarriesDirty (s : Sys D n) (msg : ShmemMsg D) : Prop :=
  ∃ data, msg.dataBuf = some data ∧ data ≠ s.dram

/-- No FLUSH_REP, WB_REP, EX_REP or DRAM_WRITE_REQ with dirty data is in flight. -/
structure Sys.NoDirtyInFlight (s : Sys D n) : Prop where
  toDir : ∀ c, ∀ msg ∈ s.toDir c, msg.msgType = flushRep ∨ msg.msgType = wbRep →
    ¬s.CarriesDirty msg
  toCache : ∀ c, ∀ msg ∈ s.toCache c, msg.msgType = exRep → ¬s.CarriesDirty msg
  toDram : ∀ msg ∈ s.toDram, msg.msgType = dramWriteReq → ¬s.CarriesDirty msg

theorem written_clean {dram : D} {msgs : List (ShmemMsg D)}
    (h : ∀ msg ∈ msgs, msg.msgType = dramWriteReq → ¬∃ data, msg.dataBuf = some data ∧ data ≠ dram) :
    written dram msgs = dram := by
  induction msgs with
  | nil => rfl
  | cons msg msgs ih =>
    have hrest := ih fun m hm => h m (List.mem_cons_of_mem _ hm)
    rw [written_cons]
    split
    · rename_i ht
      have hmsg := h msg (by simp) ht
      cases hb : msg.dataBuf with
      | none => simpa [hb] using hrest
      | some data =>
        have : data = dram := by
          by_contra hne
          exact hmsg ⟨data, hb, hne⟩
        simpa [this] using hrest
    · exact hrest

/-- Along runs that keep the data, DRAM has the most recently written contents whenever no
MODIFIED line and no message with dirty data is left, and the directory's replies carry
them always. -/
theorem data_value {tr : List (Action D n × List (Event D n))}
    (h : Run (machine D n cfg) keepsData tr s) :
    ((∀ c, (s.cache c).cstate ≠ .modified) → s.NoDirtyInFlight → s.dram = s.latest) ∧
      ∀ c, ∀ msg ∈ s.toCache c, msg.msgType = exRep ∨ msg.msgType = shRep →
        msg.dataBuf = some s.latest := by
  have hv := Values.of_run h
  refine ⟨?_, hv.current.toCache⟩
  intro hmod hclean
  have hmemory : s.memory = s.dram := written_clean fun msg hmem ht => hclean.toDram msg hmem ht
  have hpayload : ∀ msg : ShmemMsg D, msg.dataBuf = some s.latest → ¬s.CarriesDirty msg →
      s.dram = s.latest := by
    intro msg hdata hnot
    by_contra hne
    exact hnot ⟨s.latest, hdata, Ne.symm hne⟩
  rcases hv.backed with hmem | ⟨c, hd⟩
  · rw [← hmemory, hmem]
  · rcases hd.where_ with hm | ⟨msg, hmem, ht⟩ | ⟨⟨msg, hmem, ht⟩, -⟩
    · exact absurd hm (hmod c)
    · exact hpayload msg (hv.current.toDir c msg hmem (.inl ht))
        (hclean.toDir c msg hmem (.inl ht))
    · exact hpayload msg (hv.current.toCache c msg hmem (.inl ht)) (hclean.toCache c msg hmem ht)

instance (s : Sys D n) : (a : Action D n) → Decidable (keepsData s a)
  | .deliverToCache c _ => inferInstanceAs (Decidable
      ((s.toCache c).head?.map ShmemMsg.msgType = some wbReq →
        (s.cache c).cstate ≠ .modified ∧ (s.cache c).cstate ≠ .sharedUpgrading))
  | .deliverToDir c _ => inferInstanceAs (Decidable
      ((s.toDir c).head?.map ShmemMsg.msgType = some flushRep →
        s.dir.queue.head?.map (fun req => req.key.msgType) = some upgradeReq →
          s.dir.sharers.erase c = ∅))
  | .read _ | .write _ | .store _ _ | .evict _ | .finishWaiter _
  | .accessDram | .deliverFromDram _ | .nullify _ _ => .isTrue trivial

open scoped Lib.Literals in
/-- Core 0 writes 7 and evicts the line, and core 1 reads it. -/
def writeEvictRead : List (Action Nat 2) :=
  [.write 0, .deliverToDir 0 noChoice, .accessDram, .deliverFromDram noChoice,
    .deliverToCache 0 0, .store 0 7, .finishWaiter 0, .evict 0, .deliverToDir 0 noChoice,
    .accessDram, .read 1, .deliverToDir 1 noChoice, .accessDram, .deliverFromDram noChoice]

/-- The state after the actions, performed as long as the data is kept. -/
def keepingData (cfg : Config) (as : List (Action Nat 2)) : Sys Nat 2 :=
  runWhile (fun s a => decide (keepsData s a)) cfg (.init 0) as

theorem data_value_writeEvictRead :
    (keepingData (pair .msi) writeEvictRead).latest = 7 ∧
      (keepingData (pair .msi) writeEvictRead).toCache 1 = [⟨shRep, some 7⟩] ∧
      ∀ msg ∈ (keepingData (pair .msi) writeEvictRead).toCache 1, msg.dataBuf = some 7 := by
  have hlatest : (keepingData (pair .msi) writeEvictRead).latest = 7 := by rfl
  have hdn : (keepingData (pair .msi) writeEvictRead).toCache 1 = [⟨shRep, some 7⟩] := by
    rfl
  obtain ⟨tr, hrun⟩ : ∃ tr, Run (machine Nat 2 (pair .msi)) keepsData tr
      (keepingData (pair .msi) writeEvictRead) :=
    run_runWhile (fun _ _ => of_decide_eq_true) writeEvictRead (.start ⟨0, rfl⟩)
  refine ⟨hlatest, hdn, ?_⟩
  intro msg hmem
  have ht : msg.msgType = shRep := by
    rw [hdn, List.mem_singleton] at hmem
    rw [hmem]
  rw [← hlatest]
  exact (data_value hrun).2 1 msg hmem (.inr ht)

open scoped Lib.Literals in
/-- Core 1 writes 7 and is asked for a copy by the read of core 0. -/
def downgrade : List (Action Nat 2) :=
  [.read 0, .write 1, .deliverToDir 1 noChoice, .deliverToDir 0 noChoice, .accessDram,
    .deliverFromDram noChoice, .deliverToCache 1 0, .store 1 7, .finishWaiter 1,
    .deliverToCache 1 0, .deliverToDir 1 noChoice]

def downgraded : Sys Nat 2 := runWhile (fun _ _ => true) (pair .msi) (.init 0) downgrade

/-- The WB_REP of a MODIFIED line never reaches DRAM. -/
theorem dram_stale_after_writeBack :
    ¬∀ s : Sys Nat 2, Reachable (machine Nat 2 (pair .msi)) s →
      (∀ c, (s.cache c).cstate ≠ .modified) → s.NoDirtyInFlight → s.dram = s.latest := by
  intro h
  have hmod : ∀ c, (downgraded.cache c).cstate ≠ .modified := by decide
  have hup : ∀ c, downgraded.toDir c = [] := by decide
  have hdn : ∀ c, ∀ msg ∈ downgraded.toCache c, msg.msgType ≠ exRep := by decide
  have hdram : downgraded.toDram = [] := by rfl
  have hstale : downgraded.dram ≠ downgraded.latest := by decide
  refine hstale (h downgraded (reachable_runWhile _ 0 downgrade) hmod ⟨?_, ?_, ?_⟩)
  · simp [hup]
  · exact fun c msg hmem ht => absurd ht (hdn c msg hmem)
  · simp [hdram]

end DataValue

end Sniper.Coherence
