import Sniper.Coherence.Preservation
set_option autoImplicit false

namespace Sniper.Coherence

open MsgType Sniper.Lib

variable {D : Type} {n : Nat} {race : Prop} {cfg : Config} {s s' : Sys D n}
variable {o : List (Event D n)}

/-- Whether the message at the head of the channel from `c` makes the directory answer the
UPGRADE_REQ of `r` with an UPGRADE_REP: it is that request, and finds `r` alone, or it is
the INV_REP of the last other sharer. -/
def Sys.grantsUpgrade (s : Sys D n) (c r : Fin n) : Bool :=
  match s.toDir c with
  | [] => false
  | msg :: _ =>
    match msg.msgType, s.dir.queue with
    | .upgradeReq, [] => decide (c = r ∧ s.dir.dstate = .shared ∧ s.dir.sharers = {r})
    | .invRep, req :: _ => decide (req.key = ⟨.upgradeReq, r⟩ ∧ s.dir.sharers.erase c = {r})
    | _, _ => false

/-- An invalidation of `r` is under way: an INV_REQ to it or an INV_REP from it. -/
def Sys.invalidating (s : Sys D n) (r : Fin n) : Bool :=
  (s.toCache r).any (fun msg => msg.msgType = invReq) ||
    (s.toDir r).any (fun msg => msg.msgType = invRep)

/-- No UPGRADE_REP is sent to a core that is being invalidated. -/
def noUpgradeRace (s : Sys D n) : Action D n → Prop
  | .deliverToDir c _ => ∀ r, s.grantsUpgrade c r = true → s.invalidating r = false
  | _ => True

section Payload

variable {D : Type} {cache cache' : Cache D} {sent : List (ShmemMsg D)}

/-- The replies that come with the line carry it. -/
def Carried (sent : List (ShmemMsg D)) : Prop :=
  ∀ msg ∈ sent, msg.msgType = wbRep ∨ msg.msgType = flushRep → msg.dataBuf.isSome = true

theorem serveWaiters_carried (hr : cache.serveWaiters = .ok (cache', sent)) : Carried sent := by
  unfold Carried
  grind [Cache.serveWaiters, Cache.processUpgradeReqToDirectory]

theorem initiateDirectoryAccess_carried {exclusive : Bool}
    (hr : cache.initiateDirectoryAccess exclusive = .ok (cache', sent)) : Carried sent := by
  unfold Carried
  grind [Cache.initiateDirectoryAccess, Cache.processUpgradeReqToDirectory,
    Cache.processExReqToDirectory, Cache.processShReqToDirectory]

theorem carried_nil : Carried ([] : List (ShmemMsg D)) := by
  simp [Carried]

theorem read_carried (hr : cache.read = .ok (cache', sent)) : Carried sent := by
  unfold Cache.read at hr
  split at hr
  · cases hr
    exact carried_nil
  · exact initiateDirectoryAccess_carried hr

theorem write_carried (hr : cache.write = .ok (cache', sent)) : Carried sent := by
  unfold Cache.write at hr
  split at hr
  · cases hr
    exact carried_nil
  split at hr
  · cases hr
    exact carried_nil
  · exact initiateDirectoryAccess_carried hr

theorem store_carried {data : D} (hr : cache.store data = .ok (cache', sent)) : Carried sent := by
  unfold Cache.store at hr
  split at hr
  · cases hr
    exact carried_nil
  · cases hr

theorem evict_carried (hr : cache.evict = .ok (cache', sent)) : Carried sent := by
  unfold Carried
  grind [Cache.evict]

theorem finishWaiter_carried (hr : cache.finishWaiter = .ok (cache', sent)) : Carried sent := by
  unfold Cache.finishWaiter at hr
  split at hr
  · exact serveWaiters_carried hr
  · cases hr

theorem processReplyAndServe_carried {msg : ShmemMsg D} {unwritten : D}
    (hr : cache.processReplyAndServe msg unwritten = .ok (cache', sent)) : Carried sent := by
  unfold Cache.processReplyAndServe at hr
  split at hr
  · cases hr
  split at hr
  · cases hr
  · exact serveWaiters_carried hr

theorem handleMsgFromDramDirectory_carried {msg : ShmemMsg D} {unwritten : D}
    (hr : cache.handleMsgFromDramDirectory msg unwritten = .ok (cache', sent)) : Carried sent := by
  unfold Cache.handleMsgFromDramDirectory at hr
  split at hr
  · exact processReplyAndServe_carried hr
  · exact processReplyAndServe_carried hr
  · exact processReplyAndServe_carried hr
  · unfold Carried
    grind [Cache.processInvReqFromDramDirectory]
  · unfold Carried
    grind [Cache.processFlushReqFromDramDirectory]
  · unfold Carried
    grind [Cache.processWbReqFromDramDirectory]
  · cases hr

end Payload

section Step

/-- A directory step is committed: its log becomes messages in flight. -/
theorem Inv.of_dirStep {result : Except Fault (DramDirectory D n)}
    (hr : s.dirStep result = .ok (s', o)) (hpay : PayloadOk s)
    (h : ∀ dir, result = .ok dir → Settled race cfg s dir) : Inv race cfg s' := by
  unfold Sys.dirStep at hr
  split at hr
  · cases hr
  · rename_i dir
    cases hr
    obtain ⟨w, hgood, hidle, hf⟩ := h dir rfl
    refine ⟨rfl, hpay, w, ⟨hgood.ok.congr rfl rfl rfl rfl, ?_, ?_⟩, hidle, hf⟩
    · intro c
      have hview : s.view dir.log c = Sys.view { s with
          dir := { dir with log := [] }
          toCache := fun c => s.toCache c ++ sentTo c dir.log
          toDram := s.toDram ++ sentToDram dir.log } [] c := by
        simp [Sys.view]
      exact hview ▸ hgood.shapes c
    · rw [← hgood.reads]
      simp [Sys.reads]

/-- A cache step keeps the invariant when it keeps the shape of the cache. -/
theorem Inv.of_cacheStep {c : Fin n} {result : CacheStep D} (hlog : s.dir.log = [])
    (hr : s.cacheStep c result = .ok (s', o)) (hpay : PayloadOk s)
    (hsent : ∀ cache sent, result = .ok (cache, sent) → Carried sent)
    (w : Wait n) (hok : DirOk cfg s.dir w) (hreads : s.reads s.dir.log = if w = .dram then 1 else 0)
    (hothers : ∀ c', c' ≠ c → Shape race (demand s.dir w c') (s.view s.dir.log c'))
    (hself : ∀ cache sent, result = .ok (cache, sent) →
      Shape race (demand s.dir w c) (.of cache (s.toDir c ++ sent) (s.toCache c)))
    (hidle : w = .idle → s.dir.queue = []) (hf : ForwarderOk cfg s.dir) : Inv race cfg s' := by
  unfold Sys.cacheStep at hr
  split at hr
  · cases hr
  · rename_i cache sent
    cases hr
    refine ⟨hlog, ?_, w, ⟨hok, ?_, hreads⟩, hidle, hf⟩
    · intro c' msg hmsg hdata
      by_cases hc : c' = c
      · subst hc
        simp only [Function.update_self, List.mem_append] at hmsg
        rcases hmsg with hmsg | hmsg
        · exact hpay c' msg hmsg hdata
        · exact hsent cache sent rfl msg hmsg hdata
      · simp only [Function.update_of_ne hc] at hmsg
        exact hpay c' msg hmsg hdata
    · intro c'
      by_cases hc : c' = c
      · subst hc
        have := hself cache sent rfl
        simpa [Sys.view, hlog] using this
      · have := hothers c' hc
        simpa [Sys.view, Function.update_of_ne hc] using this

theorem Inv.init (data : D) : Inv race cfg (.init data : Sys D n) := by
  refine ⟨rfl, ?_, .idle, ⟨⟨?_, ?_, ?_, ?_, ?_, ?_, ?_⟩, ?_, ?_⟩, fun _ => rfl, ?_⟩
  · simp [PayloadOk, Sys.init]
  · simp [Sys.init, DramDirectory.dstate]
  · simp [Sys.init, DramDirectory.dstate, DramDirectory.sharers]
  · simp [Sys.init, DramDirectory.dstate]
  · simp [Sys.init, DramDirectory.sharers]
  · simp [Sys.init]
  · simp [Sys.init]
  · exact fun _ => rfl
  · intro c
    refine .away ?_ ?_ rfl ?_ (.none rfl rfl ?_)
    · simp [Sys.init, DramDirectory.sharers]
    · simp [Sys.init, addedBy]
    · simp [Noise, Sys.view, View.of, Sys.init]
    · simp [View.Idle, Sys.view, View.of, Sys.init]
  · simp [Sys.reads, Sys.init]
  · intro _ hds
    simp [Sys.init, DramDirectory.dstate] at hds

/-- A step of one cache that leaves the messages to it alone. -/
theorem Inv.cacheStep {c : Fin n} {result : CacheStep D} (h : Inv race cfg s)
    (hr : s.cacheStep c result = .ok (s', o))
    (hsent : ∀ cache sent, result = .ok (cache, sent) → Carried sent)
    (hshape : ∀ w cache sent, result = .ok (cache, sent) →
      Shape race (demand s.dir w c) (.of (s.cache c) (s.toDir c) (s.toCache c)) →
        Shape race (demand s.dir w c) (.of cache (s.toDir c ++ sent) (s.toCache c))) :
    Inv race cfg s' := by
  obtain ⟨w, hgood, hidle, hf⟩ := h.settled
  refine Inv.of_cacheStep h.log hr h.payload hsent w hgood.ok hgood.reads
    (fun c' _ => hgood.shapes c') ?_ hidle hf
  intro cache sent hres
  refine hshape w cache sent hres ?_
  simpa [Sys.view, h.log] using hgood.shapes c

theorem Inv.deliverToCache {c : Fin n} {msg : ShmemMsg D} {rest : List (ShmemMsg D)}
    {unwritten : D} (h : Inv race cfg s) (hdn : s.toCache c = msg :: rest)
    (hr : (s.popToCache c rest).cacheStep c
      ((s.cache c).handleMsgFromDramDirectory msg unwritten) = .ok (s', o)) :
    Inv race cfg s' := by
  obtain ⟨w, hgood, hidle, hf⟩ := h.settled
  have hlog : (s.popToCache c rest).dir.log = [] := h.log
  refine Inv.of_cacheStep hlog hr h.payload (fun _ _ => handleMsgFromDramDirectory_carried) w
    hgood.ok hgood.reads ?_ ?_ hidle hf
  · intro c' hc
    have := hgood.shapes c'
    simpa [Sys.view, Sys.popToCache, Function.update_of_ne hc] using this
  · intro cache sent hres
    have hshape := hgood.shapes c
    simp only [Sys.view, h.log, sentTo_nil, List.append_nil, hdn] at hshape
    have := hshape.handleMsgFromDramDirectory hres
    simpa [Sys.popToCache] using this

theorem PayloadOk.pop {c : Fin n} {msg : ShmemMsg D} {rest : List (ShmemMsg D)}
    (h : PayloadOk s) (hup : s.toDir c = msg :: rest) : PayloadOk (s.popToDir c rest) := by
  intro c' m hm
  by_cases hc : c' = c
  · subst hc
    simp only [Sys.popToDir, Function.update_self] at hm
    exact h c' m (by simp [hup, hm])
  · simp only [Sys.popToDir, Function.update_of_ne hc] at hm
    exact h c' m hm

/-- The condition on a step says what the handlers need of an UPGRADE_REP. -/
theorem not_invalidating {r : Fin n} (hlog : s.dir.log = []) (h : s.invalidating r = false) :
    invReq ∉ (s.view s.dir.log r).dn ∧ invRep ∉ (s.view s.dir.log r).up := by
  simp only [Sys.invalidating, Bool.or_eq_false_iff, List.any_eq_false, decide_eq_true_eq] at h
  simp only [Sys.view, View.of, hlog, sentTo_nil, List.append_nil, List.mem_map, not_exists,
    not_and]
  exact ⟨h.1, h.2⟩

theorem Inv.deliverToDir {c : Fin n} {ch : Choice D n} {msg : ShmemMsg D}
    {rest : List (ShmemMsg D)} (h : Inv race cfg s) (hup : s.toDir c = msg :: rest)
    (hcond : race ∨ noUpgradeRace s (.deliverToDir c ch))
    (hr : (s.popToDir c rest).dirStep (handleMsgFromL2Cache cfg ch c msg s.dir) = .ok (s', o)) :
    Inv race cfg s' := by
  refine Inv.of_dirStep hr (h.payload.pop hup) ?_
  intro dir' hres
  have hgrant : ∀ r, s.grantsUpgrade c r = true →
      race ∨ invReq ∉ (s.view s.dir.log r).dn ∧ invRep ∉ (s.view s.dir.log r).up := by
    intro r hg
    rcases hcond with hrace | hno
    · exact .inl hrace
    · exact .inr (not_invalidating h.log (hno r hg))
  have henqueue : ∀ {t : MsgType}, msg.msgType = t → t.isRequest = true →
      enqueueReq cfg ch msg.msgType c s.dir = .ok dir' →
        Settled race cfg (s.popToDir c rest) dir' := by
    intro t ht hkind hres
    refine enqueueReq_settled h.settled hup (by rw [ht]; exact hkind) ?_ hres
    intro hq req tail hq' hreq hds hsh
    obtain ⟨rfl, -⟩ : req = .new msg.msgType c ∧ tail = [] := by
      simp only [DramDirectory.enqueue_queue, hq, List.nil_append, List.cons.injEq] at hq'
      exact ⟨hq'.1.symm, hq'.2.symm⟩
    have hmsg : msg.msgType = upgradeReq := hreq
    have hgrants : s.grantsUpgrade c c = true := by
      have hsh' : s.dir.sharers = {c} := hsh
      have hds' : s.dir.dstate = .shared := hds
      simp [Sys.grantsUpgrade, hup, hmsg, hq, hds', hsh']
    refine (hgrant c hgrants).imp id fun ⟨hdn, hups⟩ => ?_
    constructor
    · simpa [Sys.view, View.of, Sys.popToDir, h.log, ShmemReq.new] using hdn
    · simpa [Sys.view, View.of, Sys.popToDir, h.log, ShmemReq.new, hup, hmsg] using hups
  unfold handleMsgFromL2Cache at hres
  split at hres
  case h_1 ht => exact henqueue ht rfl hres
  case h_2 ht => exact henqueue ht rfl hres
  case h_3 ht => exact henqueue ht rfl hres
  case h_4 ht =>
    refine processInvRep_settled h.settled hup ht ?_ hres
    intro req rest' hq hreq hlone
    refine hgrant req.key.requester ?_
    have hkey : req.key = ⟨upgradeReq, req.key.requester⟩ := by rw [← hreq]
    simp only [Sys.grantsUpgrade, hup, ht, hq, decide_eq_true_eq]
    exact ⟨hkey, hlone⟩
  case h_5 ht => exact processFlushRep_settled h.settled hup ht hres
  case h_6 ht =>
    exact processWbRep_settled h.settled hup ht
      (h.payload c msg (by simp [hup]) (.inl ht)) hres
  case h_7 => cases hres

theorem Inv.accessDram (h : Inv race cfg s) (hr : s.accessDram = .ok (s', o)) :
    Inv race cfg s' := by
  obtain ⟨w, hgood, hidle, hf⟩ := h.settled
  have hreads := hgood.reads
  unfold Sys.accessDram at hr
  split at hr
  · cases hr
  rename_i msg rest htd
  split at hr
  · rename_i ht
    cases hr
    refine ⟨h.log, h.payload, w, ⟨hgood.ok, hgood.shapes, ?_⟩, hidle, hf⟩
    rw [← hreads]
    simp only [Sys.reads, htd, List.length_append, List.length_singleton, List.cons_append,
      List.countP_cons, ht, decide_true, if_true]
    omega
  · rename_i ht
    cases hr
    refine ⟨h.log, h.payload, w, ⟨hgood.ok, hgood.shapes, ?_⟩, hidle, hf⟩
    rw [← hreads]
    simp [Sys.reads, htd, ht]
  · cases hr

theorem Inv.deliverFromDram {ch : Choice D n} {msg : ShmemMsg D} {rest : List (ShmemMsg D)}
    (h : Inv race cfg s) (hfrom : s.fromDram = msg :: rest)
    (hr : { s with fromDram := rest }.dirStep (handleMsgFromDRAM cfg ch msg s.dir) =
      .ok (s', o)) : Inv race cfg s' := by
  refine Inv.of_dirStep hr h.payload ?_
  intro dir' hres
  unfold handleMsgFromDRAM at hres
  split at hres
  · exact processDRAMReply_settled h.settled hfrom hres
  · cases hres

/-- Every step keeps the invariant. Without the race it needs the condition on the step. -/
theorem Inv.step {a : Action D n} (h : Inv race cfg s) (hcond : race ∨ noUpgradeRace s a)
    (hr : Coherence.step cfg s a = .ok (s', o)) : Inv race cfg s' := by
  cases a with
  | read c => exact h.cacheStep hr (fun _ _ => read_carried) (fun _ _ _ hres hs => hs.read hres)
  | write c => exact h.cacheStep hr (fun _ _ => write_carried) (fun _ _ _ hres hs => hs.write hres)
  | store c data =>
    obtain ⟨w, hgood, hidle, hf⟩ := h.settled
    have h' : Inv race cfg { s with latest := data } :=
      ⟨h.log, h.payload, w, ⟨hgood.ok, hgood.shapes, hgood.reads⟩, hidle, hf⟩
    exact h'.cacheStep hr (fun _ _ => store_carried) (fun _ _ _ hres hs => hs.store hres)
  | evict c => exact h.cacheStep hr (fun _ _ => evict_carried) (fun _ _ _ hres hs => hs.evict hres)
  | finishWaiter c =>
    exact h.cacheStep hr (fun _ _ => finishWaiter_carried)
      (fun _ _ _ hres hs => hs.finishWaiter hres)
  | deliverToCache c unwritten =>
    simp only [Coherence.step] at hr
    split at hr
    · cases hr
    split at hr
    · cases hr
    · rename_i msg rest hdn
      exact h.deliverToCache hdn hr
  | deliverToDir c ch =>
    simp only [Coherence.step] at hr
    split at hr
    · cases hr
    · rename_i msg rest hup
      exact h.deliverToDir hup hcond hr
  | accessDram => exact h.accessDram hr
  | deliverFromDram ch =>
    simp only [Coherence.step] at hr
    split at hr
    · cases hr
    · rename_i msg rest hfrom
      exact h.deliverFromDram hfrom hr
  | nullify requester ch =>
    exact Inv.of_dirStep hr h.payload (fun _ => nullify_settled h.settled)

end Step

/-- The invariant of every reachable state. -/
theorem Inv.of_reachable (h : Reachable (machine D n cfg) s) : Inv True cfg s := by
  refine h.invariant ?_ ?_
  · rintro s ⟨data, rfl⟩
    exact Inv.init data
  · intro s a o s' hinv hstep
    exact hinv.step (.inl trivial) hstep

/-- The invariant along the runs without the race. -/
theorem Inv.of_run {tr : List (Action D n × List (Event D n))}
    (h : Run (machine D n cfg) noUpgradeRace tr s) : Inv False cfg s := by
  refine h.invariant ?_ ?_
  · rintro s ⟨data, rfl⟩
    exact Inv.init data
  · intro s a o s' hinv hcond hstep
    exact hinv.step (.inr hcond) hstep

end Sniper.Coherence
