import Sniper.Coherence.Safety
import Sniper.Coherence.Faults
set_option autoImplicit false

namespace Sniper.Coherence

open MsgType Sniper.Lib

variable {D : Type} {n : Nat} {race : Prop} {cfg : Config} {s s' : Sys D n}
variable {q : Demand} {v : View} {t : MsgType}

section Runs

/-- Performs actions as long as they are allowed and possible. -/
def runWhile (ok : Sys D n → Action D n → Bool) (cfg : Config) (s : Sys D n) :
    List (Action D n) → Sys D n
  | [] => s
  | a :: as =>
    if ok s a then
      match step cfg s a with
      | .error _ => s
      | .ok (s', _) => runWhile ok cfg s' as
    else s

theorem run_runWhile {ok : Sys D n → Action D n → Bool} {ok' : Sys D n → Action D n → Prop}
    (hok : ∀ s a, ok s a = true → ok' s a) (as : List (Action D n))
    {tr : List (Action D n × List (Event D n))} (h : Run (machine D n cfg) ok' tr s) :
    ∃ tr', Run (machine D n cfg) ok' tr' (runWhile ok cfg s as) := by
  induction as generalizing tr s with
  | nil => exact ⟨tr, h⟩
  | cons a as ih =>
    unfold runWhile
    split
    · rename_i ha
      split
      · exact ⟨tr, h⟩
      · rename_i s' o hstep
        exact ih (.next h (hok s a ha) hstep)
    · exact ⟨tr, h⟩

theorem reachable_runWhile (cfg : Config) (data : D) (as : List (Action D n)) :
    Reachable (machine D n cfg) (runWhile (fun _ _ => true) cfg (.init data) as) :=
  run_runWhile (fun _ _ _ => trivial) as (.start ⟨data, rfl⟩)

end Runs

section Copies

/-- A cache with a copy, or a reply with one in flight to it, is a recorded sharer. -/
theorem Shape.held_of_copy (h : Shape race q v)
    (hcopy : v.cstate ≠ .invalid ∨ ∃ t ∈ v.dn, t.isReply = true) : q.held := by
  cases h with
  | away _ _ hc hn =>
    rcases hcopy with hcs | ⟨t, ht, hreply⟩
    · exact absurd hc hcs
    · have := hn t ht
      cases t <;> simp [isReply, isDemand] at hreply this
  | added hh => exact hh
  | granted hh => exact hh
  | holding hh => exact hh
  | upgrading hh => exact hh
  | upgraded hh => exact hh
  | leaving hh => exact hh
  | leavingUpgrade hh => exact hh
  | doomed _ hh => exact hh

/-- A copy that may be written is the owner's. -/
theorem Shape.owned_of_writable (h : Shape race q v)
    (hcs : v.cstate = .exclusive ∨ v.cstate = .modified) :
    q.held ∧ (q.dstate = .exclusive ∨ q.dstate = .modified) := by
  obtain ⟨hheld, -, -, -, wb, -, -, hfits⟩ := h.copy (by grind) (by grind)
  exact ⟨hheld, (hfits.writable hcs).2.2.1⟩

theorem Settled.single_writer {dir : DramDirectory D n} (h : Settled race cfg s dir) {c c' : Fin n}
    (hc : (s.cache c).cstate = .exclusive ∨ (s.cache c).cstate = .modified) (hne : c' ≠ c) :
    (s.cache c').cstate = .invalid := by
  obtain ⟨w, hgood, -, -⟩ := h
  obtain ⟨hmem, hds⟩ := (hgood.shapes c).owned_of_writable hc
  obtain ⟨o, -, hsh⟩ := hgood.ok.owner hds
  have hco : c ∈ dir.sharers := hmem
  by_contra hcopy
  have hmem' : c' ∈ dir.sharers := (hgood.shapes c').held_of_copy (.inl hcopy)
  rw [hsh, Finset.mem_singleton] at hco hmem'
  exact hne (hmem'.trans hco.symm)

/-- At most one last-level cache has the line EXCLUSIVE or MODIFIED, and when one does, no
other has it in any valid state. -/
theorem single_writer_multiple_reader (h : Reachable (machine D n cfg) s) (c c' : Fin n)
    (hc : (s.cache c).cstate = .exclusive ∨ (s.cache c).cstate = .modified) (hne : c' ≠ c) :
    (s.cache c').cstate = .invalid :=
  (Inv.of_reachable h).settled.single_writer hc hne

/-- Two cores and a full map. -/
def pair (protocol : Protocol) : Config := ⟨protocol, .fullMap, 1, by decide⟩

/-- Nothing is left open by a directory step of these runs. -/
def noChoice : Choice Nat 2 := ⟨0, none, 0⟩

open scoped Lib.Literals in
/-- Core 1 reads, then core 0 writes. -/
def takeOver : List (Action Nat 2) :=
  [.read 1, .deliverToDir 1 noChoice, .accessDram, .deliverFromDram noChoice,
    .deliverToCache 1 0, .finishWaiter 1, .write 0, .deliverToDir 0 noChoice,
    .deliverToCache 1 0, .deliverToDir 1 noChoice, .deliverToCache 0 0]

theorem single_writer_after_takeOver :
    ((runWhile (fun _ _ => true) (pair .mesi) (.init 0) takeOver).cache 0).cstate = .modified ∧
      ((runWhile (fun _ _ => true) (pair .mesi) (.init 0) takeOver).cache 1).cstate = .invalid := by
  have hm : ((runWhile (fun _ _ => true) (pair .mesi) (.init 0) takeOver).cache 0).cstate =
      .modified := by rfl
  exact ⟨hm, single_writer_multiple_reader (reachable_runWhile _ 0 takeOver) 0 1 (.inr hm)
    (by decide)⟩

end Copies

section Entry

/-- What every directory entry satisfies. `limit` is the sharer limit in force. -/
structure DirectoryEntry.WellFormed (entry : DirectoryEntry n) (limit : Nat) : Prop where
  uncached : entry.dstate = .uncached ↔ entry.sharers = ∅
  owned : entry.dstate = .exclusive ∨ entry.dstate = .modified →
    ∃ owner, entry.owner = some owner ∧ entry.sharers = {owner}
  shared : entry.dstate = .shared → entry.sharers.Nonempty
  bounded : entry.getNumSharers ≤ limit

theorem DirOk.wellFormed {dir : DramDirectory D n} {w : Wait n} {entry : DirectoryEntry n}
    (h : DirOk cfg dir w) (he : dir.entry = some entry) :
    entry.WellFormed (cfg.getMaxHwSharers n) := by
  have hds : dir.dstate = entry.dstate := by simp [DramDirectory.dstate, he]
  have hsh : dir.sharers = entry.sharers := by simp [DramDirectory.sharers, he]
  have how : dir.owner = entry.owner := by simp [DramDirectory.owner, he]
  have hlimit := h.limit
  rw [hsh] at hlimit
  refine ⟨hds ▸ hsh ▸ h.uncached, hds ▸ hsh ▸ how ▸ h.owner, ?_, hlimit⟩
  intro hshared
  rw [Finset.nonempty_iff_ne_empty, ← hsh]
  intro hempty
  have := h.uncached.mpr hempty
  rw [hds, hshared] at this
  cases this

/-- Every entry is well formed, in the middle of a request too, and every cache that has
the line, or a reply granting it in flight, is recorded. -/
theorem entry_wellFormed (h : Reachable (machine D n cfg) s) :
    (∀ entry, s.dir.entry = some entry → entry.WellFormed (cfg.getMaxHwSharers n)) ∧
      ∀ c, ((s.cache c).cstate ≠ .invalid ∨ ∃ msg ∈ s.toCache c, msg.msgType.isReply = true) →
        ∃ entry, s.dir.entry = some entry ∧ entry.hasSharer c = true := by
  have hinv := Inv.of_reachable h
  obtain ⟨w, hgood, -, -⟩ := hinv.settled
  refine ⟨fun entry he => hgood.ok.wellFormed he, ?_⟩
  intro c hcopy
  have hheld : c ∈ s.dir.sharers := by
    refine (hgood.shapes c).held_of_copy (hcopy.imp id ?_)
    rintro ⟨msg, hmem, hreply⟩
    exact ⟨msg.msgType, List.mem_map_of_mem (List.mem_append_left _ hmem), hreply⟩
  unfold DramDirectory.sharers at hheld
  split at hheld
  · simp at hheld
  · rename_i entry he
    exact ⟨entry, he, by simpa [DirectoryEntry.hasSharer] using hheld⟩

open scoped Lib.Literals in
/-- Two reads of two cores. -/
def bothRead : List (Action Nat 2) :=
  [.read 0, .deliverToDir 0 noChoice, .accessDram, .deliverFromDram noChoice, .read 1,
    .deliverToDir 1 noChoice, .accessDram, .deliverFromDram noChoice]

theorem entry_wellFormed_bothRead :
    ∃ entry, (runWhile (fun _ _ => true) (pair .msi) (.init 0) bothRead).dir.entry = some entry ∧
      entry.WellFormed 2 ∧ entry.hasSharer 0 = true := by
  obtain ⟨hwf, hrec⟩ := entry_wellFormed (reachable_runWhile (pair .msi) 0 bothRead)
  obtain ⟨entry, he, hsh⟩ := hrec 0 (.inr (by decide))
  exact ⟨entry, he, hwf entry he, hsh⟩

/-- A full map does not keep to the configured `max_hw_sharers`. -/
theorem fullMap_exceeds_maxHwSharers :
    ¬∀ s : Sys Nat 2, Reachable (machine Nat 2 (pair .msi)) s → ∀ entry, s.dir.entry = some entry →
      entry.getNumSharers ≤ (pair .msi).maxHwSharers := by
  intro h
  have hall := h _ (reachable_runWhile _ 0 bothRead)
  have htwo : ((runWhile (fun _ _ => true) (pair .msi) (.init 0) bothRead).dir.entry.map
      DirectoryEntry.getNumSharers) = some 2 := by rfl
  cases he : (runWhile (fun _ _ => true) (pair .msi) (.init 0) bothRead).dir.entry with
  | none => simp [he] at htwo
  | some entry =>
    have := hall entry he
    simp only [he, Option.map_some, Option.some.injEq] at htwo
    simp [pair, htwo] at this

end Entry

section Replies

/-- The message at the head of the channel to a cache, as its shape sees it. -/
theorem Settled.head_dn {c : Fin n} {msg : ShmemMsg D} {rest : List (ShmemMsg D)}
    (hlog : s.dir.log = []) (hdn : s.toCache c = msg :: rest) :
    (s.view s.dir.log c).dn = msg.msgType :: rest.map ShmemMsg.msgType := by
  simp [Sys.view, View.of, hlog, hdn]

theorem Inv.granted_invalid {c : Fin n} {msg : ShmemMsg D} {rest : List (ShmemMsg D)}
    (h : Inv race cfg s) (hdn : s.toCache c = msg :: rest)
    (ht : msg.msgType = exRep ∨ msg.msgType = shRep) : (s.cache c).cstate = .invalid := by
  obtain ⟨w, hgood, -, -⟩ := h.settled
  have hdemand : msg.msgType.isDemand = false := by rcases ht with ht | ht <;> simp [ht, isDemand]
  rcases (hgood.shapes c).reply (Settled.head_dn h.log hdn) hdemand with
    ⟨_, _, hc, -⟩ | ⟨hu, -⟩ | ⟨hu, -⟩
  · exact hc
  · rcases ht with ht | ht <;> simp [ht] at hu
  · rcases ht with ht | ht <;> simp [ht] at hu

theorem Inv.upgraded_upgrading {c : Fin n} {msg : ShmemMsg D} {rest : List (ShmemMsg D)}
    (h : Inv race cfg s) (hdn : s.toCache c = msg :: rest) (ht : msg.msgType = upgradeRep) :
    (s.cache c).cstate = .sharedUpgrading ∨ race ∧ (s.cache c).cstate = .invalid := by
  obtain ⟨w, hgood, -, -⟩ := h.settled
  rcases (hgood.shapes c).reply (Settled.head_dn h.log hdn) (by simp [ht, isDemand]) with
    ⟨_, _, _, _, _, _, _, hfits⟩ | ⟨_, _, _, hc, -⟩ | ⟨_, hrace, hc⟩
  · rw [ht] at hfits
    generalize (demand s.dir w c).dstate = ds at hfits
    cases hfits
  · exact .inl hc
  · exact .inr ⟨hrace, hc⟩

/-- The sender of a notice or of a WB_REP is a recorded sharer. -/
theorem Inv.sender_sharer {c : Fin n} {msg : ShmemMsg D} {rest : List (ShmemMsg D)}
    (h : Inv race cfg s) (hup : s.toDir c = msg :: rest)
    (ht : msg.msgType = invRep ∨ msg.msgType = flushRep ∨ msg.msgType = wbRep) :
    c ∈ s.dir.sharers := by
  obtain ⟨w, hgood, -, -⟩ := h.settled
  have hview := view_up hup s.dir.log
  rcases ht with ht | ht | ht
  · exact ((hgood.shapes c).notice hview (.inl ht)).1
  · exact ((hgood.shapes c).notice hview (.inr ht)).1
  · exact ((hgood.shapes c).wroteBack (ht ▸ hview)).1

theorem Inv.invRep_clean {c : Fin n} {msg : ShmemMsg D} {rest : List (ShmemMsg D)}
    (h : Inv race cfg s) (hup : s.toDir c = msg :: rest) (ht : msg.msgType = invRep) :
    race ∨ s.dir.dstate = .shared ∨ s.dir.dstate = .exclusive := by
  obtain ⟨w, hgood, -, -⟩ := h.settled
  by_cases hrace : race
  · exact .inl hrace
  · exact .inr (((hgood.shapes c).notice (view_up hup s.dir.log) (.inl ht)).2.2.1 ht hrace)

/-- A WB_REP finds the SH_REQ at the head of the queue that asked for it. -/
theorem Inv.wbRep_request {c : Fin n} {msg : ShmemMsg D} {rest : List (ShmemMsg D)}
    (h : Inv race cfg s) (hup : s.toDir c = msg :: rest) (ht : msg.msgType = wbRep) :
    ∃ req reqs, s.dir.queue = req :: reqs ∧ req.key.msgType = shReq := by
  obtain ⟨w, hgood, -, -⟩ := h.settled
  have hasked : w.asked c = some wbReq :=
    ((hgood.shapes c).wroteBack (ht ▸ view_up hup s.dir.log)).2.2.1
  cases hq : s.dir.queue with
  | nil =>
    rw [hgood.ok.empty hq] at hasked
    simp [Wait.asked] at hasked
  | cons req reqs =>
    refine ⟨req, reqs, rfl, ?_⟩
    have hhead := hgood.ok.head req reqs hq
    cases hhead with
    | forward hkind => exact hkind
    | writeBack hkind => exact hkind
    | flush =>
      simp only [Wait.asked] at hasked
      split at hasked <;> cases hasked
    | idle => simp [Wait.asked] at hasked
    | dram => simp [Wait.asked] at hasked
    | invAll => simp [Wait.asked] at hasked
    | invOthers => simp [Wait.asked] at hasked
    | invSome => simp [Wait.asked] at hasked

theorem DirOk.mem_entry {c : Fin n} {dir : DramDirectory D n} (h : c ∈ dir.sharers) :
    ∃ entry, dir.entry = some entry ∧ c ∈ entry.sharers := by
  unfold DramDirectory.sharers at h
  split at h
  · simp at h
  · rename_i entry he
    exact ⟨entry, he, h⟩

theorem entry_sharers {dir : DramDirectory D n} {entry : DirectoryEntry n}
    (he : dir.entry = some entry) : dir.sharers = entry.sharers := by
  simp [DramDirectory.sharers, he]

theorem entry_dstate {dir : DramDirectory D n} {entry : DirectoryEntry n}
    (he : dir.entry = some entry) : dir.dstate = entry.dstate := by
  simp [DramDirectory.dstate, he]

/-- Only a SHARED entry has a second sharer. -/
theorem DirOk.shared_of_others {dir : DramDirectory D n} {w : Wait n} {entry : DirectoryEntry n}
    {c : Fin n} (h : DirOk cfg dir w) (he : dir.entry = some entry) (hmem : c ∈ entry.sharers)
    (hne : entry.sharers.erase c ≠ ∅) : entry.dstate = .shared := by
  have hwf := h.wellFormed he
  have hsupported := h.supported
  rw [entry_dstate he] at hsupported
  have howned : ¬(entry.dstate = .exclusive ∨ entry.dstate = .modified) := by
    intro hds
    obtain ⟨o, -, hsh⟩ := hwf.owned hds
    simp only [hsh, Finset.mem_singleton] at hmem
    simp [hsh, hmem] at hne
  cases hds : entry.dstate with
  | uncached => simp [hwf.uncached.mp hds] at hmem
  | shared => rfl
  | owned => exact absurd hds hsupported
  | modified => exact absurd (.inr hds) howned
  | exclusive => exact absurd (.inl hds) howned

/-- Only the request at the head may be a nullification. -/
theorem Inv.tail_requests (h : Inv race cfg s) :
    ∀ req ∈ s.dir.queue.tail, req.key.msgType.isRequest = true := by
  obtain ⟨w, hgood, -, -⟩ := h.settled
  exact fun req hmem => (hgood.ok.tail req hmem).1

/-- A directory step fails only by an assertion of a request, by a message of a type no
cache sends, and by the INV_REP in the race. -/
theorem Inv.handleMsg_fault {c : Fin n} {ch : Choice D n} {msg : ShmemMsg D}
    {rest : List (ShmemMsg D)} {fault : Fault} (h : Inv race cfg s)
    (hup : s.toDir c = msg :: rest)
    (hr : handleMsgFromL2Cache cfg ch c msg s.dir = .error fault)
    (hf : fault.ofRequest = false) :
    fault = .unrecognizedMsg ∨ fault = .invRepState ∧ race := by
  obtain ⟨w, hgood, -, -⟩ := h.settled
  have hkind := h.tail_requests
  rcases handleMsgFromL2Cache_fault hr hf with ⟨ht, hr⟩ | ⟨ht, hr⟩ | ⟨ht, hr⟩ | hr
  · obtain ⟨rfl, entry, he, hds⟩ := processInvRep_fault hkind hr hf
    rcases h.invRep_clean hup ht with hrace | hclean
    · exact .inr ⟨rfl, hrace⟩
    · rw [entry_dstate he] at hclean
      exact absurd hclean hds
  · have hmem := h.sender_sharer hup (.inr (.inl ht))
    rcases processFlushRep_fault hkind hr hf with ⟨-, entry, he, hnot⟩ | ⟨-, entry, he, hne, hds⟩
    · rw [entry_sharers he] at hmem
      exact absurd hmem hnot
    · rw [entry_sharers he] at hmem
      exact absurd (hgood.ok.shared_of_others he hmem hne) hds
  · have hmem := h.sender_sharer hup (.inr (.inr ht))
    obtain ⟨req, reqs, hq, hsh⟩ := h.wbRep_request hup ht
    rcases processWbRep_fault hkind hr hf with
      ⟨-, entry, he, hnot⟩ | ⟨-, hnil⟩ | ⟨-, req', rest', hq', ht'⟩
    · rw [entry_sharers he] at hmem
      exact absurd hmem hnot
    · simp [hq] at hnil
    · rw [hq] at hq'
      cases hq'
      exact absurd hsh ht'
  · exact .inl hr

theorem serveWaiters_fault {cache : Cache D} {fault : Fault}
    (hr : cache.serveWaiters = .error fault) : fault.unexpected = false := by
  unfold Cache.serveWaiters Cache.processUpgradeReqToDirectory at hr
  grind [Fault.unexpected]

theorem initiateDirectoryAccess_fault {cache : Cache D} {exclusive : Bool} {fault : Fault}
    (hr : cache.initiateDirectoryAccess exclusive = .error fault) :
    fault.unexpected = false := by
  unfold Cache.initiateDirectoryAccess Cache.processUpgradeReqToDirectory
    Cache.processExReqToDirectory Cache.processShReqToDirectory at hr
  grind [Fault.unexpected]

/-- Which reply a cache refuses, and in which state of its line. -/
def Cache.Refuses (cache : Cache D) (msg : ShmemMsg D) : Prop :=
  (msg.msgType = exRep ∨ msg.msgType = shRep) ∧ cache.cstate ≠ .invalid ∨
    msg.msgType = upgradeRep ∧ cache.cstate ≠ .sharedUpgrading

theorem processReplyAndServe_fault {cache : Cache D} {msg : ShmemMsg D} {unwritten : D}
    {fault : Fault} (hr : cache.processReplyAndServe msg unwritten = .error fault)
    (hf : fault.unexpected = true) : cache.Refuses msg := by
  unfold Cache.processReplyAndServe at hr
  split at hr
  · cases hr
    cases hf
  split at hr
  · rename_i hp
    cases hr
    unfold Cache.processReply Cache.insertCacheBlock at hp
    grind [Cache.Refuses, Fault.unexpected]
  · simp [serveWaiters_fault hr] at hf

theorem handleMsgFromDramDirectory_fault {cache : Cache D} {msg : ShmemMsg D} {unwritten : D}
    {fault : Fault} (hr : cache.handleMsgFromDramDirectory msg unwritten = .error fault)
    (hf : fault.unexpected = true) : cache.Refuses msg := by
  unfold Cache.handleMsgFromDramDirectory at hr
  split at hr
  · exact processReplyAndServe_fault hr hf
  · exact processReplyAndServe_fault hr hf
  · exact processReplyAndServe_fault hr hf
  · unfold Cache.processInvReqFromDramDirectory at hr
    grind [Fault.unexpected]
  · unfold Cache.processFlushReqFromDramDirectory at hr
    grind [Fault.unexpected]
  · unfold Cache.processWbReqFromDramDirectory at hr
    grind [Fault.unexpected]
  · cases hr
    cases hf

theorem cacheStep_fault {c : Fin n} {result : CacheStep D} {fault : Fault}
    (hr : s.cacheStep c result = .error fault) : result = .error fault := by
  unfold Sys.cacheStep at hr
  split at hr
  · cases hr
    rfl
  · cases hr

theorem dirStep_fault {result : Except Fault (DramDirectory D n)} {fault : Fault}
    (hr : s.dirStep result = .error fault) : result = .error fault := by
  unfold Sys.dirStep at hr
  split at hr
  · cases hr
    rfl
  · cases hr

/-- Where a failing step fails. -/
inductive FaultCase (race : Prop) (s : Sys D n) (fault : Fault) : Action D n → Prop where
  | access {a : Action D n} {c : Fin n} {exclusive : Bool} :
      (s.cache c).initiateDirectoryAccess exclusive = .error fault → FaultCase race s fault a
  | finishWaiter {c : Fin n} : (s.cache c).serving = true →
      (⟨(s.cache c).cstate, (s.cache c).data, (s.cache c).waiters.tail, true⟩ :
        Cache D).serveWaiters = .error fault → FaultCase race s fault (.finishWaiter c)
  | message {c : Fin n} {msg : ShmemMsg D} {rest : List (ShmemMsg D)} {unwritten : D} :
      s.toCache c = msg :: rest →
      (s.cache c).handleMsgFromDramDirectory msg unwritten = .error fault →
      FaultCase race s fault (.deliverToCache c unwritten)
  | request {a : Action D n} : fault.ofRequest = true → FaultCase race s fault a
  | other {a : Action D n} : fault = .notEnabled ∨ fault = .evictedState ∨
      fault = .unrecognizedMsg ∨ fault = .dramReplyState ∨ fault = .dramReplyType →
      FaultCase race s fault a
  | race {a : Action D n} : fault = .invRepState → race → FaultCase race s fault a

theorem Inv.fault_cases {a : Action D n} {fault : Fault} (h : Inv race cfg s)
    (hr : Coherence.step cfg s a = .error fault) : FaultCase race s fault a := by
  by_cases hreq : fault.ofRequest = true
  · exact .request hreq
  have hreq : fault.ofRequest = false := by simpa using hreq
  have hdisabled : Except.error Fault.notEnabled =
      (Except.error fault : Except Fault (Sys D n × List (Event D n))) → FaultCase race s fault a := by
    rintro ⟨⟩
    exact .other (.inl rfl)
  cases a with
  | read c =>
    have hr := cacheStep_fault hr
    unfold Cache.read at hr
    split at hr
    · cases hr
    · exact .access hr
  | write c =>
    have hr := cacheStep_fault hr
    unfold Cache.write at hr
    split at hr
    · cases hr
    split at hr
    · cases hr
    · exact .access hr
  | store c data =>
    have hr := cacheStep_fault hr
    unfold Cache.store at hr
    exact .other (by grind)
  | evict c =>
    have hr := cacheStep_fault hr
    unfold Cache.evict at hr
    exact .other (by grind)
  | finishWaiter c =>
    have hr := cacheStep_fault hr
    unfold Cache.finishWaiter at hr
    split at hr
    · rename_i hserving
      rw [hserving] at hr
      exact .finishWaiter hserving hr
    · cases hr
      exact .other (.inl rfl)
  | deliverToCache c unwritten =>
    simp only [Coherence.step] at hr
    split at hr
    · exact hdisabled hr
    split at hr
    · exact hdisabled hr
    · rename_i hdn
      exact .message hdn (cacheStep_fault hr)
  | deliverToDir c ch =>
    simp only [Coherence.step] at hr
    split at hr
    · exact hdisabled hr
    · rename_i msg rest hup
      rcases h.handleMsg_fault hup (dirStep_fault hr) hreq with hf | ⟨hf, hrace⟩
      · exact .other (.inr (.inr (.inl hf)))
      · exact .race hf hrace
  | accessDram =>
    simp only [Coherence.step, Sys.accessDram] at hr
    exact .other (by grind)
  | deliverFromDram ch =>
    simp only [Coherence.step] at hr
    split at hr
    · exact hdisabled hr
    · exact .other (.inr (.inr (handleMsgFromDRAM_fault h.tail_requests (dirStep_fault hr) hreq)))
  | nullify requester ch => exact .other (.inl (nullify_fault (dirStep_fault hr) hreq))

/-- Only the race makes a reply meet a state it does not expect. -/
theorem Inv.step_fault {a : Action D n} {fault : Fault} (h : Inv race cfg s)
    (hr : Coherence.step cfg s a = .error fault) (hf : fault.unexpected = true) : race := by
  cases h.fault_cases hr with
  | access hfail => simp [initiateDirectoryAccess_fault hfail] at hf
  | finishWaiter _ hfail => simp [serveWaiters_fault hfail] at hf
  | message hdn hfail =>
    rcases handleMsgFromDramDirectory_fault hfail hf with ⟨ht, hc⟩ | ⟨ht, hc⟩
    · exact absurd (h.granted_invalid hdn ht) hc
    · exact ((h.upgraded_upgrading hdn ht).resolve_left hc).1
  | request hreq => simp [Fault.ofRequest_of_unexpected hf] at hreq
  | other hother => rcases hother with rfl | rfl | rfl | rfl | rfl <;> cases hf
  | race _ hrace => exact hrace

/-- Along runs without the race, replies find the line in the state they expect. -/
theorem replies_meet_expected_state {tr : List (Action D n × List (Event D n))}
    (h : Run (machine D n cfg) noUpgradeRace tr s) :
    (∀ c msg rest, s.toCache c = msg :: rest →
      (msg.msgType = upgradeRep → (s.cache c).cstate = .sharedUpgrading) ∧
        (msg.msgType = exRep ∨ msg.msgType = shRep → (s.cache c).cstate = .invalid)) ∧
    (∀ c msg rest, s.toDir c = msg :: rest → msg.msgType = flushRep ∨ msg.msgType = wbRep →
      ∃ entry, s.dir.entry = some entry ∧ entry.hasSharer c = true) ∧
    ∀ a fault, step cfg s a = .error fault → fault.unexpected = false := by
  have hinv := Inv.of_run h
  refine ⟨?_, ?_, ?_⟩
  · intro c msg rest hdn
    refine ⟨fun ht => ?_, hinv.granted_invalid hdn⟩
    exact (hinv.upgraded_upgrading hdn ht).resolve_right fun hrace => hrace.1
  · intro c msg rest hup ht
    obtain ⟨entry, he, hmem⟩ := DirOk.mem_entry (hinv.sender_sharer hup (.inr ht))
    exact ⟨entry, he, by simpa [DirectoryEntry.hasSharer] using hmem⟩
  · intro a fault hr
    by_contra hf
    exact hinv.step_fault hr (by simpa using hf)

instance (s : Sys D n) : (a : Action D n) → Decidable (noUpgradeRace s a)
  | .deliverToDir c _ =>
    inferInstanceAs (Decidable (∀ r, s.grantsUpgrade c r = true → s.invalidating r = false))
  | .read _ | .write _ | .store _ _ | .evict _ | .finishWaiter _ | .deliverToCache _ _
  | .accessDram | .deliverFromDram _ | .nullify _ _ => .isTrue trivial

open scoped Lib.Literals in
/-- Both cores have read, and the write of core 0 has invalidated core 1. -/
def upgrade : List (Action Nat 2) :=
  [.read 0, .deliverToDir 0 noChoice, .accessDram, .deliverFromDram noChoice,
    .deliverToCache 0 0, .finishWaiter 0, .read 1, .deliverToDir 1 noChoice, .accessDram,
    .deliverFromDram noChoice, .deliverToCache 1 0, .finishWaiter 1, .write 0,
    .deliverToDir 0 noChoice, .deliverToCache 1 0, .deliverToDir 1 noChoice]

/-- The state after the actions, performed as long as there is no race. -/
def withoutRace (cfg : Config) (as : List (Action Nat 2)) : Sys Nat 2 :=
  runWhile (fun s a => decide (noUpgradeRace s a)) cfg (.init 0) as

theorem run_withoutRace (cfg : Config) (as : List (Action Nat 2)) :
    ∃ tr, Run (machine Nat 2 cfg) noUpgradeRace tr (withoutRace cfg as) :=
  run_runWhile (fun _ _ => of_decide_eq_true) as (.start ⟨0, rfl⟩)

theorem replies_meet_expected_state_upgrade :
    (withoutRace (pair .msi) upgrade).toCache 0 = [⟨upgradeRep, none⟩] ∧
      ((withoutRace (pair .msi) upgrade).cache 0).cstate = .sharedUpgrading := by
  have hdn : (withoutRace (pair .msi) upgrade).toCache 0 = [⟨upgradeRep, none⟩] := by
    rfl
  obtain ⟨tr, hrun⟩ := run_withoutRace (pair .msi) upgrade
  exact ⟨hdn, ((replies_meet_expected_state hrun).1 0 _ _ hdn).1 rfl⟩

/-- Three cores and entries of at most two sharers. -/
def limited : Config := ⟨.msi, .limitedNoBroadcast, 2, by decide⟩

/-- The sharer that `getOneSharer` picks. -/
def pick (index : Nat) : Choice Nat 3 := ⟨index, none, 0⟩

/-- Core 2 asks for the line that cores 0 and 1 share, so core 1 is to be invalidated. The
eviction of core 0 makes room before that, and core 1 upgrades: its INV_REP is in flight
when the eviction of core 2 leaves it the only recorded sharer. -/
def crossing : List (Action Nat 3) :=
  [.read 0, .deliverToDir 0 (pick 0), .read 1, .deliverToDir 1 (pick 0), .read 2,
    .deliverToDir 2 (pick 0), .accessDram, .deliverFromDram (pick 0), .deliverToCache 0 0,
    .finishWaiter 0, .evict 0, .accessDram, .deliverFromDram (pick 1), .deliverToDir 0 (pick 0),
    .deliverToCache 1 0, .finishWaiter 1, .write 1, .deliverToCache 1 0, .deliverToDir 1 (pick 0),
    .accessDram, .deliverFromDram (pick 0), .deliverToCache 2 0, .finishWaiter 2, .evict 2,
    .deliverToDir 2 (pick 0)]

/-- The state after `crossing`. -/
def crossed : Sys Nat 3 := runWhile (fun _ _ => true) limited (.init 0) crossing

/-- The UPGRADE_REP reaches an invalid line, which the cache does not survive. -/
theorem upgradeRep_meets_invalid :
    ¬∀ s : Sys Nat 3, Reachable (machine Nat 3 limited) s → ∀ c msg rest,
      s.toCache c = msg :: rest → msg.msgType = upgradeRep →
        (s.cache c).cstate = .sharedUpgrading := by
  intro h
  have hdn : crossed.toCache 1 = [⟨upgradeRep, none⟩] := by rfl
  have hc : (crossed.cache 1).cstate = .invalid := by rfl
  have := h crossed (reachable_runWhile _ 0 crossing) 1 _ _ hdn rfl
  simp [hc] at this

/-- Along runs without the race, an INV_REP never meets a MODIFIED entry. -/
theorem invRep_never_meets_modified {tr : List (Action D n × List (Event D n))}
    (h : Run (machine D n cfg) noUpgradeRace tr s) :
    (∀ c msg rest, s.toDir c = msg :: rest → msg.msgType = invRep →
      ∀ entry, s.dir.entry = some entry → entry.dstate ≠ .modified) ∧
    ∀ a, step cfg s a ≠ .error .invRepState := by
  have hinv := Inv.of_run h
  constructor
  · intro c msg rest hup ht entry he hds
    rw [← entry_dstate he] at hds
    rcases hinv.invRep_clean hup ht with hrace | hclean | hclean
    · exact hrace
    · simp [hds] at hclean
    · simp [hds] at hclean
  · intro a hr
    exact hinv.step_fault hr rfl

theorem invRep_never_meets_modified_takeOver :
    (withoutRace (pair .msi) (takeOver.take 9)).toDir 1 = [⟨invRep, none⟩] ∧
      ∀ entry, (withoutRace (pair .msi) (takeOver.take 9)).dir.entry = some entry →
        entry.dstate ≠ .modified := by
  have hup : (withoutRace (pair .msi) (takeOver.take 9)).toDir 1 = [⟨invRep, none⟩] := by
    rfl
  obtain ⟨tr, hrun⟩ := run_withoutRace (pair .msi) (takeOver.take 9)
  exact ⟨hup, (invRep_never_meets_modified hrun).1 1 _ _ hup rfl⟩

/-- The INV_REP of the core that was just given the line MODIFIED. -/
theorem invRep_meets_modified :
    ¬∀ s : Sys Nat 3, Reachable (machine Nat 3 limited) s → ∀ c msg rest,
      s.toDir c = msg :: rest → msg.msgType = invRep →
        ∀ entry, s.dir.entry = some entry → entry.dstate ≠ .modified := by
  intro h
  have hup : crossed.toDir 1 = [⟨invRep, none⟩] := by rfl
  have hds : crossed.dir.entry.map DirectoryEntry.dstate = some .modified := by rfl
  have hall := h crossed (reachable_runWhile _ 0 crossing) 1 _ _ hup rfl
  cases he : crossed.dir.entry with
  | none => simp [he] at hds
  | some entry =>
    simp only [he, Option.map_some, Option.some.injEq] at hds
    exact hall entry he hds

end Replies

end Sniper.Coherence
