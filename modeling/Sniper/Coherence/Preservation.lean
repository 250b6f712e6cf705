import Sniper.Coherence.DirectorySteps
set_option autoImplicit false

namespace Sniper.Coherence

open MsgType

variable {D : Type} {n : Nat} {race : Prop} {cfg : Config} {s : Sys D n}
variable {dir dir' : DramDirectory D n} {w w' : Wait n} {ch : Choice D n}
variable {c : Fin n} {msg : ShmemMsg D} {ups : List (ShmemMsg D)}

section Pop

theorem view_popToDir_ne {c' : Fin n} (hc : c' ≠ c) (log : List (Event D n)) :
    (s.popToDir c ups).view log c' = s.view log c' := by
  simp [Sys.popToDir, Sys.view, Function.update_of_ne hc]

theorem view_popToDir_self (log : List (Event D n)) :
    (s.popToDir c ups).view log c =
      { s.view log c with up := ups.map ShmemMsg.msgType } := by
  simp [Sys.popToDir, Sys.view, View.of]

theorem reads_popToDir (log : List (Event D n)) :
    (s.popToDir c ups).reads log = s.reads log := rfl

theorem view_up (hup : s.toDir c = msg :: ups) (log : List (Event D n)) :
    (s.view log c).up = msg.msgType :: ups.map ShmemMsg.msgType := by
  simp [Sys.view, View.of, hup]

end Pop

section Enqueue

/-- A request joins the queue. -/
theorem Good.enqueue (h : Good race cfg s w dir) (hup : s.toDir c = msg :: ups)
    (hkind : msg.msgType.isRequest = true) :
    Good race cfg (s.popToDir c ups) w (dir.enqueue (.new msg.msgType c)) := by
  have hnew : (ShmemReq.new msg.msgType c : ShmemReq D n).Fresh := ⟨rfl, rfl, rfl⟩
  have hadded : ∀ c', addedBy c' (dir.enqueue (.new msg.msgType c)).queue ↔
      addedBy c' dir.queue := by
    intro c'
    rw [DramDirectory.enqueue_queue]
    cases dir.queue with
    | nil => simp [addedBy, hnew.not_flagged]
    | cons r rest => simp [addedBy]
  have hqueued : ∀ c', queuedBy c' (dir.enqueue (.new msg.msgType c)).queue =
      queuedBy c' dir.queue ++ if c = c' then [msg.msgType] else [] := by
    intro c'
    rw [DramDirectory.enqueue_queue, queuedBy_append]
    by_cases hc : c = c'
    · rw [queuedBy_cons_self (by simpa [ShmemReq.new] using hc) (not_nullify hkind)]
      simp [hc, ShmemReq.new]
    · rw [queuedBy_cons_ne (.inl (by simpa [ShmemReq.new] using hc))]
      simp [hc]
  refine ⟨⟨h.ok.supported, h.ok.uncached, h.ok.owner, h.ok.limit, ?_, ?_, by simp⟩, ?_, ?_⟩
  · intro req hreq
    cases hq : dir.queue with
    | nil => simp [hq] at hreq
    | cons r rest =>
      simp only [DramDirectory.enqueue_queue, hq, List.cons_append, List.tail_cons,
        List.mem_append, List.mem_singleton] at hreq
      rcases hreq with hreq | rfl
      · exact h.ok.tail req (by simp [hq, hreq])
      · exact ⟨hkind, hnew⟩
  · intro req rest hq
    cases hq' : dir.queue with
    | nil =>
      simp only [DramDirectory.enqueue_queue, hq', List.nil_append, List.cons.injEq] at hq
      rw [← hq.1, h.ok.empty hq']
      exact .fresh hkind hnew
    | cons r rest' =>
      simp only [DramDirectory.enqueue_queue, hq', List.cons_append, List.cons.injEq] at hq
      exact hq.1 ▸ (h.ok.head r rest' hq').congr rfl rfl rfl
  · intro c'
    rw [DramDirectory.enqueue_log, view_same (by rfl)]
    by_cases hc : c' = c
    · subst hc
      rw [view_popToDir_self]
      obtain ⟨hnone, hadd, hshape⟩ := (h.shapes c').requested (view_up hup _) hkind
      refine hshape _ Iff.rfl (mt (hadded c').mp hadd) ?_ rfl rfl id id
      rw [demand_queued, hqueued c', if_pos rfl, show queuedBy c' dir.queue = [] from hnone]
      rfl
    · rw [view_popToDir_ne hc]
      refine (h.shapes c').relax Iff.rfl (hadded c') ?_ rfl rfl id id
      rw [demand_queued, hqueued c', if_neg (Ne.symm hc), List.append_nil]
      rfl
  · rw [DramDirectory.enqueue_log, reads_append, reads_popToDir]
    exact h.reads

theorem enqueueReq_settled (h : Settled race cfg s dir) (hup : s.toDir c = msg :: ups)
    (hkind : msg.msgType.isRequest = true)
    (hlone : dir.queue = [] →
      UpgradeOk race (s.popToDir c ups) (dir.enqueue (.new msg.msgType c)))
    (hr : enqueueReq cfg ch msg.msgType c dir = .ok dir') :
    Settled race cfg (s.popToDir c ups) dir' := by
  obtain ⟨w, hgood, hidle, hf⟩ := h
  have henq := hgood.enqueue hup hkind
  unfold enqueueReq at hr
  dsimp only at hr
  split at hr
  · rename_i hq
    obtain rfl : w = .idle := hgood.ok.empty hq
    have hq' : (dir.enqueue (.new msg.msgType c)).queue = [.new msg.msgType c] := by
      rw [DramDirectory.enqueue_queue, hq, List.nil_append]
    exact dispatchReq_settled processNext_ok henq hq' hf (hlone hq) hr
  · rename_i r rest hq
    cases hr
    refine ⟨w, henq, ?_, hf⟩
    intro hw
    have := hidle hw
    simp [hq] at this

end Enqueue

section Drop

variable {entry entry' : DirectoryEntry n}

/-- The entry after the sharer `c` gave up its copy. -/
structure Drops (entry : DirectoryEntry n) (c : Fin n) (entry' : DirectoryEntry n) : Prop where
  sharers : entry'.sharers = entry.sharers.erase c
  uncached : entry'.sharers = ∅ → entry'.dstate = .uncached
  same : entry'.sharers ≠ ∅ → entry'.dstate = entry.dstate

/-- What is left of an EXCLUSIVE or MODIFIED entry is UNCACHED. -/
theorem Drops.dstate (hd : Drops entry c entry') (hok : DirOk cfg (dir.setEntry entry) w)
    (hc : c ∈ entry.sharers) :
    entry'.dstate = .uncached ∧ entry'.sharers = ∅ ∨
      entry'.dstate = .shared ∧ entry.dstate = .shared ∧ entry'.sharers ≠ ∅ := by
  by_cases he : entry'.sharers = ∅
  · exact .inl ⟨hd.uncached he, he⟩
  · have hsame := hd.same he
    have hne : entry.sharers ≠ {c} := fun h => he (by simp [hd.sharers, h])
    have howned : ¬(entry.dstate = .exclusive ∨ entry.dstate = .modified) := fun hds => by
      obtain ⟨o, -, hsh⟩ := hok.owner hds
      have hsh : entry.sharers = {o} := hsh
      obtain rfl : c = o := by simpa [hsh] using hc
      exact hne hsh
    have hu : entry.dstate ≠ .uncached := fun h => by
      have : entry.sharers = ∅ := hok.uncached.mp h
      simp [this] at hc
    have hs : entry.dstate ≠ .owned := hok.supported
    refine .inr ⟨?_, ?_, he⟩
    · rw [hsame]
      cases hds : entry.dstate <;> simp_all
    · cases hds : entry.dstate <;> simp_all

/-- A notice is heard. The directory goes on waiting, or stops where nobody left is asked
for anything. -/
theorem Good.drop (h : Good race cfg s w (dir.setEntry entry)) (hd : Drops entry c entry')
    (hup : s.toDir c = msg :: ups) (ht : msg.msgType = invRep ∨ msg.msgType = flushRep)
    (hdirty : msg.msgType = invRep → entry.dstate ≠ .modified)
    (hhead : ∀ req rest, dir.queue = req :: rest → HeadOk cfg (dir.setEntry entry') req w')
    (hempty : dir.queue = [] → w' = .idle) (hdram : w' = .dram ↔ w = .dram)
    (hothers : ∀ c' ∈ entry'.sharers, w'.asked c' = w.asked c' ∧ (w'.mustInv c' → w.mustInv c') ∧
      (w.mayFlush entry.sharers → w'.mayFlush entry'.sharers)) :
    Good race cfg (s.popToDir c ups) w' (dir.setEntry entry') := by
  obtain ⟨hheld, hadded, -, -, hshape⟩ := (h.shapes c).notice (view_up hup _) ht
  have hc : c ∈ entry.sharers := hheld
  have hds := hd.dstate h.ok hc
  refine ⟨⟨?_, ?_, ?_, ?_, h.ok.tail, hhead, hempty⟩, ?_, ?_⟩
  · show entry'.dstate ≠ .owned
    rcases hds with ⟨hds, -⟩ | ⟨hds, -⟩ <;> simp [hds]
  · show entry'.dstate = .uncached ↔ entry'.sharers = ∅
    rcases hds with ⟨hds, he⟩ | ⟨hds, -, he⟩ <;> simp [hds, he]
  · intro hcon
    have hcon : entry'.dstate = .exclusive ∨ entry'.dstate = .modified := hcon
    rcases hds with ⟨hds, -⟩ | ⟨hds, -⟩ <;> simp [hds] at hcon
  · show entry'.sharers.card ≤ _
    rw [hd.sharers]
    exact le_trans (Finset.card_le_card (Finset.erase_subset _ _)) h.ok.limit
  · intro c'
    by_cases hcc : c' = c
    · subst hcc
      rw [view_popToDir_self]
      refine hshape hdirty _ ?_ hadded rfl
      show c' ∉ entry'.sharers
      simp [hd.sharers]
    · rw [view_popToDir_ne hcc]
      have hiff : c' ∈ entry'.sharers ↔ c' ∈ entry.sharers := by simp [hd.sharers, hcc]
      by_cases hm : c' ∈ entry'.sharers
      · obtain ⟨hasked, hmust, hmay⟩ := hothers c' hm
        exact (h.shapes c').relax hiff Iff.rfl rfl
          (hd.same (Finset.ne_empty_of_mem hm)) hasked hmust hmay
      · refine (h.shapes c').of_not_held (mt hiff.mpr hm) hm ?_ rfl
        -- a core that waits for data was made a sharer already
        intro hadd
        cases hq : dir.queue with
        | nil => simp [hq, addedBy] at hadd
        | cons req rest =>
          have hadd : addedBy c' dir.queue := hadd
          rw [hq] at hadd
          obtain ⟨hflag, rfl⟩ := hadd
          have hhead := hhead req rest hq
          cases hhead with
          | idle _ hw hf =>
            rcases hf with hf | ⟨-, -, hm', -⟩
            · simp [ShmemReq.Flagged, hw, hf] at hflag
            · exact hm hm'
          | dram _ _ hm' => exact hm hm'
          | forward _ _ _ _ hm' => exact hm hm'
          | writeBack _ hf => exact hf hflag
          | flush _ hf => exact hf hflag
          | invAll _ hf => exact hf hflag
          | invOthers _ hf => exact hf hflag
          | invSome _ hf => exact hf hflag
  · rw [reads_popToDir]
    have := h.reads
    simpa [hdram] using this

theorem eq_setEntry (h : dir.entry = some entry) : dir = dir.setEntry entry := by
  cases dir
  simp only at h
  simp [DramDirectory.setEntry, h]

/-- A core whose request waits for data has sent no notice. -/
theorem Good.notice_ne {req : ShmemReq D n} {rest : List (ShmemReq D n)}
    (h : Good race cfg s w dir) (hup : s.toDir c = msg :: ups)
    (ht : msg.msgType = invRep ∨ msg.msgType = flushRep) (hq : dir.queue = req :: rest)
    (hflag : req.Flagged) : req.key.requester ≠ c := by
  intro he
  have hadd := ((h.shapes c).notice (view_up hup _) ht).2.1
  rw [demand_added, hq] at hadd
  exact hadd ⟨hflag, he⟩

theorem HeadOk.kind {req : ShmemReq D n} (h : HeadOk cfg dir req w) :
    req.key.msgType.isRequest = true ∨ req.key.msgType = nullifyReq := by
  cases h with
  | idle hk => exact hk
  | dram hk => exact .inl hk
  | forward hk => simp [hk, isRequest]
  | writeBack hk => simp [hk, isRequest]
  | flush hk => rcases hk with hk | hk | hk <;> simp [hk, isRequest]
  | invAll hk => rcases hk with hk | hk <;> simp [hk, isRequest]
  | invOthers hk => simp [hk, isRequest]
  | invSome hk => simp [hk, isRequest]

/-- An UPGRADE_REQ on a SHARED line waits for the other sharers. -/
theorem HeadOk.upgrade {req : ShmemReq D n} (h : HeadOk cfg dir req w)
    (ht : req.key.msgType = upgradeReq) (hds : dir.dstate = .shared) (hw : w ≠ .idle) :
    w = .invOthers req.key.requester ∧ ¬req.Flagged := by
  cases h with
  | idle => exact absurd rfl hw
  | dram _ _ _ hd => simp [ht, hds] at hd
  | forward hk => simp [ht] at hk
  | writeBack hk => simp [ht] at hk
  | flush _ _ hd => simp [hds] at hd
  | invAll hk => simp [ht] at hk
  | invOthers _ hf => exact ⟨rfl, hf⟩
  | invSome hk => simp [ht] at hk

/-- The waits on behalf of a SH_REQ. -/
theorem HeadOk.share {req : ShmemReq D n} (h : HeadOk cfg dir req w)
    (ht : req.key.msgType = shReq) (hw : w ≠ .idle) :
    (w = .dram ∧ req.waitForData = true ∧ req.key.requester ∈ dir.sharers) ∨
      (∃ f, w = .wb f ∧ req.waitForData = false ∧ req.forwardingFrom = some f ∧
        dir.dstate = .shared ∧ req.key.requester ∈ dir.sharers ∧ 2 ≤ cfg.getMaxHwSharers n) ∨
      (¬req.Flagged ∧ ((∃ o, w = .wb o ∧ (dir.dstate = .exclusive ∨ dir.dstate = .modified) ∧
        dir.owner = some o) ∨ ∃ p, w = .invSome p ∧ dir.dstate = .shared)) := by
  cases h with
  | idle => exact absurd rfl hw
  | dram _ hwait hm => exact .inl ⟨rfl, hwait, hm⟩
  | forward _ hwait hf hd hm _ _ hl => exact .inr (.inl ⟨_, rfl, hwait, hf, hd, hm, hl⟩)
  | writeBack _ hf hd ho => exact .inr (.inr ⟨hf, .inl ⟨_, rfl, hd, ho⟩⟩)
  | flush hk => simp [ht] at hk
  | invAll hk => simp [ht] at hk
  | invOthers hk => simp [ht] at hk
  | invSome _ hf hd => exact .inr (.inr ⟨hf, .inr ⟨_, rfl, hd⟩⟩)

theorem HeadOk.idle_of_not_flagged {req : ShmemReq D n} (h : HeadOk cfg dir req w)
    (hflag : ¬req.Flagged) : HeadOk cfg dir' req .idle := by
  refine .idle h.kind (by simpa using fun hw => hflag (.inl hw)) (.inl ?_)
  by_contra hf
  exact hflag (.inr hf)

/-- Nobody is left, so the directory stops waiting. -/
theorem Good.dropLast {req : ShmemReq D n} {rest : List (ShmemReq D n)}
    (h : Good race cfg s w (dir.setEntry entry)) (hd : Drops entry c entry')
    (hup : s.toDir c = msg :: ups) (ht : msg.msgType = invRep ∨ msg.msgType = flushRep)
    (hdirty : msg.msgType = invRep → entry.dstate ≠ .modified) (hq : dir.queue = req :: rest)
    (hempty : entry'.sharers = ∅) :
    Good race cfg (s.popToDir c ups) .idle (dir.setEntry entry') := by
  have hhead := h.ok.head req rest hq
  have hflag : ¬req.Flagged := by
    intro hflag
    have hne := h.notice_ne hup ht hq hflag
    have hnot : req.key.requester ∉ entry.sharers := fun hm => by
      have : req.key.requester ∈ entry'.sharers := by simp [hd.sharers, hne, hm]
      simp [hempty] at this
    cases hhead with
    | idle _ hw hf =>
      rcases hf with hf | ⟨-, -, hm, -⟩
      · simp [ShmemReq.Flagged, hw, hf] at hflag
      · exact hnot hm
    | dram _ _ hm => exact hnot hm
    | forward _ _ _ _ hm => exact hnot hm
    | writeBack _ hf => exact hf hflag
    | flush _ hf => exact hf hflag
    | invAll _ hf => exact hf hflag
    | invOthers _ hf => exact hf hflag
    | invSome _ hf => exact hf hflag
  have hw : w ≠ .dram := by
    rintro rfl
    cases hhead with
    | dram _ hw => exact hflag (.inl hw)
  refine h.drop hd hup ht hdirty ?_ (fun _ => rfl) (by simp [hw]) ?_
  · intro req' rest' hq'
    obtain rfl : req' = req := by simp_all
    exact hhead.idle_of_not_flagged hflag
  · intro c' hc'
    simp [hempty] at hc'

/-- The wait for the head request goes on without the sharer `c`. -/
theorem HeadOk.stay {req : ShmemReq D n} (h : HeadOk cfg (dir.setEntry entry) req w)
    (hd : Drops entry c entry') (hds : entry.dstate = .shared) (hds' : entry'.dstate = .shared)
    (hflag : req.Flagged → req.key.requester ≠ c) (hwb : w ≠ .wb c) (hsome : w ≠ .invSome c)
    (hothers : req.key.msgType = upgradeReq → entry'.sharers ≠ {req.key.requester}) :
    HeadOk cfg (dir.setEntry entry') req w := by
  have hmem : ∀ {c' : Fin n}, c' ≠ c → c' ∈ entry.sharers → c' ∈ entry'.sharers :=
    fun hne hm => by simp [hd.sharers, hne, hm]
  cases h with
  | idle hk hw hf =>
    refine .idle hk hw ?_
    by_cases hnone : req.forwardingFrom = none
    · exact .inl hnone
    · rcases hf with hf | ⟨hsh, -, hm, hl⟩
      · exact .inl hf
      · exact .inr ⟨hsh, hds', hmem (hflag (.inr hnone)) hm, hl⟩
  | dram hk hw hm hd' =>
    refine .dram hk hw (hmem (hflag (.inl hw)) hm) ?_
    have hsame : (dir.setEntry entry').dstate = (dir.setEntry entry).dstate := hds'.trans hds.symm
    rw [hsame]
    exact hd'
  | @forward f hk hw hf _ hm hs ho hl =>
    exact .forward hk hw hf hds' (hmem (hflag (.inr (by simp [hf]))) hm)
      (hmem (fun he => hwb (by rw [he])) hs) ho hl
  | writeBack _ _ hd' => simp [hds] at hd'
  | flush _ _ hd' => simp [hds] at hd'
  | invAll hk hf _ => exact .invAll hk hf hds'
  | invOthers hk hf _ _ => exact .invOthers hk hf hds' (hothers hk)
  | @invSome p hk hf _ hm => exact .invSome hk hf hds' (hmem (fun he => hsome (by rw [he])) hm)

/-- A notice is heard and the directory goes on waiting. -/
theorem Good.dropStay {req : ShmemReq D n} {rest : List (ShmemReq D n)}
    (h : Good race cfg s w (dir.setEntry entry)) (hd : Drops entry c entry')
    (hup : s.toDir c = msg :: ups) (ht : msg.msgType = invRep ∨ msg.msgType = flushRep)
    (hq : dir.queue = req :: rest) (hds : entry.dstate = .shared)
    (hds' : entry'.dstate = .shared) (hwb : w ≠ .wb c) (hsome : w ≠ .invSome c)
    (hothers : req.key.msgType = upgradeReq → entry'.sharers ≠ {req.key.requester}) :
    Good race cfg (s.popToDir c ups) w (dir.setEntry entry') := by
  refine h.drop hd hup ht (fun _ => by simp [hds]) ?_ (by simp [hq]) Iff.rfl ?_
  · intro req' rest' hq'
    obtain rfl : req' = req := by simp_all
    exact (h.ok.head req' rest hq).stay hd hds hds' (h.notice_ne hup ht hq) hwb hsome hothers
  · intro c' _
    refine ⟨rfl, id, ?_⟩
    cases w with
    | invOthers r =>
      intro hr hm
      rw [hd.sharers] at hm
      exact hr (Finset.mem_of_mem_erase hm)
    | idle => exact id
    | dram => exact id
    | wb => exact id
    | flush => exact id
    | invAll => exact id
    | invSome => exact id

end Drop

section InvRep

variable {entry : DirectoryEntry n}

theorem afterInvRep_drops (entry : DirectoryEntry n) (c : Fin n) :
    Drops entry c ((entry.removed c).afterInvRep c) := by
  refine ⟨rfl, ?_, ?_⟩
  · intro h
    exact if_pos (Finset.card_eq_zero.mpr h)
  · intro h
    exact if_neg (mt Finset.card_eq_zero.mp h)

theorem afterInvRep_forwarderOk (h : ForwarderOk cfg (dir.setEntry entry))
    (hd : entry.dstate = .shared ∨ ((entry.removed c).afterInvRep c).dstate ≠ .shared) :
    ForwarderOk cfg (dir.setEntry ((entry.removed c).afterInvRep c)) := by
  intro hm hds hl f hf
  have hds' : entry.dstate = .shared := by
    rcases hd with hd | hd
    · exact hd
    · exact absurd hds hd
  have hf' : (if entry.forwarder = some c then none else entry.forwarder) = some f := hf
  split at hf'
  · cases hf'
  · rename_i hne
    have hmem : f ∈ entry.sharers := h hm hds' hl f hf'
    show f ∈ entry.sharers.erase c
    refine Finset.mem_erase.mpr ⟨?_, hmem⟩
    rintro rfl
    exact hne hf'

/-- A clean sharer has given notice while the request `req` waits; `entry'` is what is left. -/
structure Noticed (race : Prop) (cfg : Config) (s : Sys D n) (w : Wait n) (dir : DramDirectory D n)
    (c : Fin n) (msg : ShmemMsg D) (ups : List (ShmemMsg D)) (entry entry' : DirectoryEntry n)
    (req : ShmemReq D n) (rest : List (ShmemReq D n)) : Prop where
  good : Good race cfg s w (dir.setEntry entry)
  up : s.toDir c = msg :: ups
  type : msg.msgType = invRep
  clean : entry.dstate ≠ .modified
  member : c ∈ entry.sharers
  drops : Drops entry c entry'
  queue : dir.queue = req :: rest
  busy : w ≠ .idle
  forwarder : ForwarderOk cfg (dir.setEntry entry')

namespace Noticed

variable {entry' : DirectoryEntry n} {req : ShmemReq D n} {rest : List (ShmemReq D n)}
variable (h : Noticed race cfg s w dir c msg ups entry entry' req rest)

include h

theorem head : HeadOk cfg (dir.setEntry entry) req w := h.good.ok.head req rest h.queue

theorem left : entry'.dstate = .uncached ∧ entry'.sharers = ∅ ∨
    entry'.dstate = .shared ∧ entry.dstate = .shared := by
  rcases h.drops.dstate h.good.ok h.member with hempty | ⟨hs', hs, -⟩
  · exact .inl hempty
  · exact .inr ⟨hs', hs⟩

theorem last (hempty : entry'.sharers = ∅) :
    Good race cfg (s.popToDir c ups) .idle (dir.setEntry entry') :=
  h.good.dropLast h.drops h.up (.inl h.type) (fun _ => h.clean) h.queue hempty

/-- What is left is SHARED when the handler does nothing more. -/
theorem stay (hu : entry'.dstate ≠ .uncached) (hwb : w ≠ .wb c) (hsome : w ≠ .invSome c)
    (hothers : req.key.msgType = upgradeReq → entry'.sharers ≠ {req.key.requester}) :
    Settled race cfg (s.popToDir c ups) (dir.setEntry entry') := by
  obtain ⟨hds', hds⟩ := h.left.resolve_left fun hleft => hu hleft.1
  exact ⟨w, h.good.dropStay h.drops h.up (.inl h.type) h.queue hds hds' hwb hsome hothers,
    fun hw => absurd hw h.busy, h.forwarder⟩

/-- Only a SH_REQ waits for a single sharer. -/
theorem not_shReq (hsh : req.key.msgType ≠ shReq) : w ≠ .wb c ∧ w ≠ .invSome c := by
  have hhead := h.head
  constructor <;> rintro rfl <;> cases hhead <;> exact hsh ‹_›

theorem empty (hu : entry'.dstate = .uncached) : entry'.sharers = ∅ := by
  rcases h.left with ⟨-, he⟩ | ⟨hs, -⟩
  · exact he
  · simp [hs] at hu

theorem dstate {r : Fin n} (hm : r ∈ entry'.sharers) :
    entry'.dstate = .shared ∧ entry.dstate = .shared := by
  rcases h.left with ⟨-, he⟩ | hs
  · simp [he] at hm
  · exact hs

/-- Only the requester is left. -/
theorem lone (htype : req.key.msgType = upgradeReq) (hone : entry'.sharers = {req.key.requester})
    (hlone : dir.sharers.erase c = {req.key.requester} →
      race ∨ invReq ∉ (s.view dir.log req.key.requester).dn ∧
        invRep ∉ (s.view dir.log req.key.requester).up)
    (hsharers : dir.sharers = entry.sharers)
    (hr : processUpgradeReqFromL2Cache (processNextReqFromL2Cache cfg ch) cfg ch req none
      (dir.setEntry entry') = .ok dir') : Settled race cfg (s.popToDir c ups) dir' := by
  have hleft : req.key.requester ∈ entry.sharers.erase c := by
    rw [← h.drops.sharers, hone]
    exact Finset.mem_singleton_self _
  have hrc : req.key.requester ≠ c := Finset.ne_of_mem_erase hleft
  have hshared := (h.dstate (by rw [hone]; exact Finset.mem_singleton_self _)).2
  obtain ⟨rfl, hflag⟩ := h.head.upgrade htype hshared h.busy
  have hgood' : Good race cfg (s.popToDir c ups) .idle (dir.setEntry entry') := by
    refine h.good.drop h.drops h.up (.inl h.type) (fun _ => h.clean) ?_ (fun _ => rfl) (by simp) ?_
    · intro req' rest' hq'
      obtain rfl : req' = req := by simp_all [h.queue]
      exact h.head.idle_of_not_flagged hflag
    · intro c' _
      exact ⟨rfl, False.elim, fun hm => absurd (Finset.mem_of_mem_erase hleft) hm⟩
  refine processUpgradeReq_settled processNext_ok hgood' h.queue htype h.forwarder ?_ hr
  intro req' rest' hq' _ _ _
  obtain rfl : req' = req := by simp_all [h.queue]
  rw [view_popToDir_ne hrc]
  refine hlone ?_
  rw [hsharers, ← h.drops.sharers, hone]

/-- A SH_REQ goes on when the notice is what it waits for. -/
theorem shReq_settled (htype : req.key.msgType = shReq)
    (hr : (if req.waitForData = true then .ok (dir.setEntry entry')
      else if req.forwardingFrom ≠ none ∧ req.forwardingFrom ≠ some c then .ok (dir.setEntry entry')
      else processShReqFromL2Cache (processNextReqFromL2Cache cfg ch) cfg ch req none
        (dir.setEntry entry')) = .ok dir') : Settled race cfg (s.popToDir c ups) dir' := by
  have hleft : req.Flagged → req.key.requester ∈ entry.sharers →
      req.key.requester ∈ entry'.sharers := fun hflag hm => by
    simp [h.drops.sharers, h.good.notice_ne h.up (.inl h.type) h.queue hflag, hm]
  rcases h.head.share htype h.busy with ⟨rfl, hwait, hm⟩ |
    ⟨f, rfl, hwait, hfrom, hds, hm, hlimit⟩ | ⟨hflag, hwaits⟩
  · simp only [hwait, if_true] at hr
    cases hr
    have hds' := (h.dstate (hleft (.inl hwait) hm)).1
    exact h.stay (by simp [hds']) (by simp) (by simp) (by simp [htype])
  · have hm' := hleft (.inr (by simp [hfrom])) hm
    have hds' := (h.dstate hm').1
    simp only [hwait, hfrom, Bool.false_eq_true, if_false] at hr
    split at hr
    · rename_i hfc
      cases hr
      exact h.stay (by simp [hds']) (by simpa using hfc) (by simp) (by simp [htype])
    · rename_i hfc
      obtain rfl : f = c := by simpa using hfc
      have hgood' : Good race cfg (s.popToDir f ups) .idle (dir.setEntry entry') := by
        refine h.good.drop h.drops h.up (.inl h.type) (fun _ => h.clean) ?_ (fun _ => rfl)
          (by simp) ?_
        · intro req' rest' hq'
          obtain rfl : req' = req := by simp_all [h.queue]
          exact .idle (.inl (by simp [htype, isRequest])) hwait
            (.inr ⟨htype, hds', hm', hlimit⟩)
        · intro c' hc'
          have hne : f ≠ c' := by
            rintro rfl
            simp [h.drops.sharers] at hc'
          exact ⟨by simp [Wait.asked, hne], False.elim, False.elim⟩
      exact processShReq_settled processNext_ok hgood' h.queue htype (.inl h.forwarder) hr
  · have hwait : req.waitForData = false := by simpa using fun hw => hflag (.inl hw)
    have hfrom : req.forwardingFrom = none := by
      by_contra hf
      exact hflag (.inr hf)
    simp only [hwait, hfrom, Bool.false_eq_true, if_false, ne_eq, not_true_eq_false,
      false_and] at hr
    have hgood' : Good race cfg (s.popToDir c ups) .idle (dir.setEntry entry') := by
      refine h.good.drop h.drops h.up (.inl h.type) (fun _ => h.clean) ?_ (fun _ => rfl) ?_ ?_
      · intro req' rest' hq'
        obtain rfl : req' = req := by simp_all [h.queue]
        exact h.head.idle_of_not_flagged hflag
      · rcases hwaits with ⟨o, rfl, -⟩ | ⟨p, rfl, -⟩ <;> simp
      · intro c' hc'
        rcases hwaits with ⟨o, rfl, hds, ho⟩ | ⟨p, rfl, -⟩
        · have hsh : entry.sharers = {o} := h.good.ok.owner_mem hds ho
          have hco : c = o := by simpa [hsh] using h.member
          rw [h.drops.sharers, hsh] at hc'
          simp [hco] at hc'
        · exact ⟨rfl, False.elim, False.elim⟩
    exact processShReq_settled processNext_ok hgood' h.queue htype (.inl h.forwarder) hr

end Noticed

theorem processInvRep_settled (h : Settled race cfg s dir) (hup : s.toDir c = msg :: ups)
    (ht : msg.msgType = invRep)
    (hlone : ∀ req rest, dir.queue = req :: rest → req.key.msgType = upgradeReq →
      dir.sharers.erase c = {req.key.requester} →
        race ∨ invReq ∉ (s.view dir.log req.key.requester).dn ∧
          invRep ∉ (s.view dir.log req.key.requester).up)
    (hr : processInvRepFromL2Cache cfg ch c dir = .ok dir') :
    Settled race cfg (s.popToDir c ups) dir' := by
  obtain ⟨w, hgood, hidle, hf⟩ := h
  unfold processInvRepFromL2Cache at hr
  split at hr
  · cases hr
  rename_i entry he
  have hsharers : dir.sharers = entry.sharers := by simp [DramDirectory.sharers, he]
  rw [eq_setEntry he] at hgood hf
  split at hr
  · cases hr
  rename_i hds
  have hds : entry.dstate = .shared ∨ entry.dstate = .exclusive := not_not.mp hds
  have hclean : entry.dstate ≠ .modified := by
    rcases hds with hds | hds <;> simp [hds]
  cases hrem : entry.removeSharer c with
  | error fault => simp [hrem, bind, Except.bind] at hr
  | ok removed =>
  obtain ⟨hmem, rfl⟩ := removeSharer_ok hrem
  simp only [hrem, bind, Except.bind] at hr
  have hdrop := afterInvRep_drops entry c
  have hf' : ForwarderOk cfg (dir.setEntry ((entry.removed c).afterInvRep c)) := by
    refine afterInvRep_forwarderOk hf ?_
    rcases hdrop.dstate hgood.ok hmem with ⟨hu, -⟩ | ⟨-, hs, -⟩
    · exact .inr (by simp [hu])
    · exact .inl hs
  generalize (entry.removed c).afterInvRep c = entry' at hr hdrop hf'
  split at hr
  · rename_i hq
    have hq : dir.queue = [] := hq
    cases hr
    obtain rfl : w = .idle := hgood.ok.empty hq
    refine ⟨.idle, ?_, fun _ => hq, hf'⟩
    exact hgood.drop hdrop hup (.inl ht) (fun _ => hclean) (by simp [hq]) (fun _ => rfl) Iff.rfl
      (fun _ _ => ⟨rfl, id, id⟩)
  · rename_i req rest hq
    have hbusy : w ≠ .idle := fun hw => by
      have : dir.queue = [] := hidle hw
      simp [show dir.queue = req :: rest from hq] at this
    have hn : Noticed race cfg s w dir c msg ups entry entry' req rest :=
      ⟨hgood, hup, ht, hclean, hmem, hdrop, hq, hbusy, hf'⟩
    split at hr
    · rename_i htype
      have hw := hn.not_shReq (by simp [htype])
      split at hr
      · rename_i hu
        exact processExReq_settled processNext_ok (hn.last (hn.empty hu)) hn.queue htype hf' hr
      · rename_i hu
        cases hr
        exact hn.stay hu hw.1 hw.2 (by simp [htype])
    · rename_i htype
      have hw := hn.not_shReq (by simp [htype])
      split at hr
      · rename_i hone
        split at hr
        · rename_i hhas
          have hmem' : req.key.requester ∈ entry'.sharers := by
            simpa [DirectoryEntry.hasSharer] using hhas
          obtain ⟨r, hr'⟩ := Finset.card_eq_one.mp hone
          have hlast : entry'.sharers = {req.key.requester} := by
            rw [hr', Finset.mem_singleton] at hmem'
            rw [hr', hmem']
          exact hn.lone htype hlast (hlone req rest hn.queue htype) hsharers hr
        · rename_i hhas
          cases hr
          refine hn.stay (fun hu => ?_) hw.1 hw.2 ?_
          · simp [DirectoryEntry.getNumSharers, hn.empty hu] at hone
          · rintro - he
            simp [DirectoryEntry.hasSharer, he] at hhas
      · rename_i hone
        split at hr
        · rename_i hzero
          have hempty : entry'.sharers = ∅ := Finset.card_eq_zero.mp hzero
          refine processUpgradeReq_settled processNext_ok (hn.last hempty) hn.queue htype hf' ?_ hr
          intro _ _ _ _ hds'
          simp [hdrop.uncached hempty] at hds'
        · rename_i hzero
          cases hr
          refine hn.stay (fun hu => ?_) hw.1 hw.2 ?_
          · exact hzero (Finset.card_eq_zero.mpr (hn.empty hu))
          · rintro - he
            simp [DirectoryEntry.getNumSharers, he] at hone
    · rename_i htype
      exact hn.shReq_settled htype hr
    · rename_i hex hupg hsh
      have hnull : req.key.msgType = nullifyReq := by
        rcases hn.head.kind with hk | hk
        · cases htype : req.key.msgType <;> simp_all [isRequest]
        · exact hk
      have hw := hn.not_shReq (by simp [hnull])
      split at hr
      · rename_i hu
        exact processNullifyReq_settled processNext_ok (hn.last (hn.empty hu)) hn.queue hnull hf' hr
      · rename_i hu
        cases hr
        exact hn.stay hu hw.1 hw.2 (by simp [hnull])

end InvRep

section FlushRep

variable {entry : DirectoryEntry n} {req : ShmemReq D n} {rest : List (ShmemReq D n)}

theorem afterFlushRep_drops (entry : DirectoryEntry n) (c : Fin n) :
    Drops entry c (entry.removed c).afterFlushRep := by
  refine ⟨rfl, ?_, ?_⟩
  · intro h
    exact if_pos (Finset.card_eq_zero.mpr h)
  · intro h
    exact if_neg (mt Finset.card_eq_zero.mp h)

theorem HeadOk.setDataBuf {buf : Option D} (h : HeadOk cfg dir req w) :
    HeadOk cfg dir { req with dataBuf := buf } w := by
  cases h with
  | idle hk hw hf => exact .idle hk hw hf
  | dram hk hw hm hd => exact .dram hk hw hm hd
  | forward hk hw hf hd hm hs ho hl => exact .forward hk hw hf hd hm hs ho hl
  | writeBack hk hf hd ho => exact .writeBack hk hf hd ho
  | flush hk hf hd ho => exact .flush hk hf hd ho
  | invAll hk hf hd => exact .invAll hk hf hd
  | invOthers hk hf hd ho => exact HeadOk.invOthers hk hf hd ho
  | invSome hk hf hd hm => exact .invSome hk hf hd hm

theorem Good.setDataBuf {buf : Option D} (h : Good race cfg s w dir)
    (hq : dir.queue = req :: rest) :
    Good race cfg s w { dir with queue := { req with dataBuf := buf } :: rest } := by
  refine ⟨⟨h.ok.supported, h.ok.uncached, h.ok.owner, h.ok.limit, ?_, ?_, by simp⟩, ?_, h.reads⟩
  · have := h.ok.tail
    simpa [hq] using this
  · intro req' rest' hq'
    obtain ⟨rfl, -⟩ : { req with dataBuf := buf } = req' ∧ rest = rest' := by simpa using hq'
    exact ((h.ok.head req rest hq).setDataBuf).congr rfl rfl rfl
  · intro c'
    refine (h.shapes c').relax Iff.rfl ?_ ?_ rfl rfl id id
    · show addedBy c' (_ :: rest) ↔ addedBy c' dir.queue
      rw [hq]
      exact Iff.rfl
    · show queuedBy c' (_ :: rest) = queuedBy c' dir.queue
      rw [hq]
      exact queuedBy_congr (by simp)

/-- A flush of a SHARED line was asked for by an UPGRADE_REQ whose requester has no copy. -/
theorem Good.flush_shared (h : Good race cfg s w dir) (hup : s.toDir c = msg :: ups)
    (ht : msg.msgType = flushRep) (hds : dir.dstate = .shared) (hq : dir.queue = req :: rest) :
    req.key.msgType = upgradeReq ∧ w = .invOthers req.key.requester ∧
      req.key.requester ∉ dir.sharers := by
  have hflush := ((h.shapes c).notice (view_up hup _) (.inr ht)).2.2.2.1 ht
  rw [demand_dstate, hds] at hflush
  have hhead := h.ok.head req rest hq
  rcases hflush with hcon | hcon | hasked | hmay
  · cases hcon
  · cases hcon
  · cases hhead with
    | flush _ _ hd => simp [hds] at hd
    | idle => cases hasked
    | dram => cases hasked
    | forward => simp [Wait.asked] at hasked
    | writeBack => simp [Wait.asked] at hasked
    | invAll => cases hasked
    | invOthers => cases hasked
    | invSome => cases hasked
  · cases hhead with
    | invOthers hk => exact ⟨hk, rfl, hmay⟩
    | idle => cases hmay
    | dram => cases hmay
    | forward => cases hmay
    | writeBack => cases hmay
    | flush => cases hmay
    | invAll => cases hmay
    | invSome => cases hmay

theorem processFlushRep_settled (h : Settled race cfg s dir) (hup : s.toDir c = msg :: ups)
    (ht : msg.msgType = flushRep)
    (hr : processFlushRepFromL2Cache cfg ch c msg.dataBuf dir = .ok dir') :
    Settled race cfg (s.popToDir c ups) dir' := by
  obtain ⟨w, hgood, hidle, hf⟩ := h
  unfold processFlushRepFromL2Cache at hr
  split at hr
  · cases hr
  rename_i entry he
  rw [eq_setEntry he] at hgood
  split at hr
  · cases hr
  cases hrem : entry.removeSharer c with
  | error fault => simp [hrem, bind, Except.bind] at hr
  | ok removed =>
  obtain ⟨hmem, rfl⟩ := removeSharer_ok hrem
  simp only [hrem, bind, Except.bind] at hr
  split at hr
  · cases hr
  have hdrop := afterFlushRep_drops entry c
  have hcases := hdrop.dstate hgood.ok hmem
  have hinv : msg.msgType = invRep → entry.dstate ≠ .modified := by simp [ht]
  have hf' : ForwarderOk cfg (dir.setEntry (entry.removed c).afterFlushRep) := by
    intro _ _ _ f hf
    cases hf
  generalize (entry.removed c).afterFlushRep = entry' at hr hdrop hcases hf'
  split at hr
  · rename_i hq
    have hq : dir.queue = [] := hq
    cases hr
    obtain rfl : w = .idle := hgood.ok.empty hq
    have hgood' : Good race cfg (s.popToDir c ups) .idle (dir.setEntry entry') :=
      hgood.drop hdrop hup (.inr ht) hinv (by simp [hq]) (fun _ => rfl) Iff.rfl
        (fun _ _ => ⟨rfl, id, id⟩)
    exact ⟨.idle, hgood'.emit _ (fun _ => rfl) rfl, fun _ => hq, hf'⟩
  · rename_i req rest hq
    have hq : dir.queue = req :: rest := hq
    have hhead := hgood.ok.head req rest hq
    have hnotidle : w ≠ .idle := fun hw => by
      have : dir.queue = [] := hidle hw
      simp [hq] at this
    have hlast : req.key.msgType ≠ upgradeReq ∨ entry'.getNumSharers = 0 →
        entry'.dstate = .uncached ∧
          Good race cfg (s.popToDir c ups) .idle (dir.setEntry entry') := by
      intro hor
      have hempty : entry'.sharers = ∅ := by
        rcases hcases with ⟨-, he⟩ | ⟨-, hs, -⟩
        · exact he
        · rcases hor with hne | hzero
          · exact absurd (hgood.flush_shared hup ht hs hq).1 hne
          · exact Finset.card_eq_zero.mp hzero
      exact ⟨hdrop.uncached hempty, hgood.dropLast hdrop hup (.inr ht) hinv hq hempty⟩
    split at hr
    · rename_i htype
      exact processExReq_settled processNext_ok (hlast (.inl (by simp [htype]))).2 hq htype hf' hr
    · rename_i htype
      have hgood' := (hlast (.inl (by simp [htype]))).2.emit
        (.sendDram ⟨dramWriteReq, msg.dataBuf⟩) (fun _ => rfl) rfl
      exact processShReq_settled processNext_ok hgood' hq htype (.inl hf') hr
    · rename_i htype
      split at hr
      · rename_i hzero
        obtain ⟨hu, hgood'⟩ := hlast (.inr hzero)
        refine processUpgradeReq_settled processNext_ok hgood' hq htype hf' ?_ hr
        intro _ _ _ _ hds'
        simp [hu] at hds'
      · rename_i hzero
        cases hr
        obtain ⟨hds', hds, -⟩ := hcases.resolve_left fun h =>
          hzero (Finset.card_eq_zero.mpr h.2)
        obtain ⟨-, hw, haway⟩ := hgood.flush_shared hup ht hds hq
        have haway : req.key.requester ∉ entry.sharers := haway
        have hstay := hgood.dropStay hdrop hup (.inr ht) hq hds hds' (by simp [hw]) (by simp [hw])
          (fun _ he => by
            have : req.key.requester ∈ entry'.sharers := by simp [he]
            rw [hdrop.sharers] at this
            exact haway (Finset.mem_of_mem_erase this))
        exact ⟨w, hstay.setDataBuf hq, fun hw => absurd hw hnotidle, hf'⟩
    · rename_i hex hsh hupg
      have hnull : req.key.msgType = nullifyReq := by
        rcases hhead.kind with hk | hk
        · cases htype : req.key.msgType <;> simp_all [isRequest]
        · exact hk
      have hgood' := (hlast (.inl (by simp [hnull]))).2.emit
        (.sendDram ⟨dramWriteReq, msg.dataBuf⟩) (fun _ => rfl) rfl
      exact processNullifyReq_settled processNext_ok hgood' hq hnull hf' hr

end FlushRep

section WbRep

variable {entry : DirectoryEntry n} {req : ShmemReq D n} {rest : List (ShmemReq D n)}

/-- A WB_REP is what the directory waits for, from the forwarder or from the owner. -/
theorem Good.writtenBack (h : Good race cfg s w (dir.setEntry entry))
    (hup : s.toDir c = msg :: ups) (ht : msg.msgType = wbRep) (hq : dir.queue = req :: rest) :
    Good race cfg (s.popToDir c ups) .idle
        (dir.setEntry { entry with owner := none, dstate := .shared }) ∧
      (entry.dstate = .shared ∨ entry.sharers.card ≤ 1) := by
  obtain ⟨hheld, hadded, hasked, hshape⟩ := (h.shapes c).wroteBack (ht ▸ view_up hup _)
  have hmem : c ∈ entry.sharers := hheld
  obtain rfl : w = .wb c := by
    cases w with
    | wb o =>
      have : o = c := by simpa [Wait.asked] using hasked
      rw [this]
    | flush o => simp [Wait.asked] at hasked
    | idle => cases hasked
    | dram => cases hasked
    | invAll => cases hasked
    | invOthers => cases hasked
    | invSome => cases hasked
  have hhead := h.ok.head req rest hq
  have hcases : (entry.dstate = .shared ∨ entry.sharers = {c}) ∧
      HeadOk cfg (dir.setEntry { entry with owner := none, dstate := .shared }) req .idle := by
    cases hhead with
    | forward hk hw hf hd hm _ _ hl =>
      exact ⟨.inl hd, .idle (.inl (by simp [hk, isRequest])) hw (.inr ⟨hk, rfl, hm, hl⟩)⟩
    | writeBack hk hflag hd ho =>
      refine ⟨.inr (h.ok.owner_mem hd ho), ?_⟩
      have hwrite : HeadOk cfg (dir.setEntry entry) req (.wb _) := .writeBack hk hflag hd ho
      exact hwrite.idle_of_not_flagged hflag
  refine ⟨⟨⟨?_, ?_, ?_, h.ok.limit, h.ok.tail, ?_, fun _ => rfl⟩, ?_, ?_⟩, ?_⟩
  · simp
  · show DirectoryState.shared = .uncached ↔ entry.sharers = ∅
    simp [Finset.ne_empty_of_mem hmem]
  · simp
  · intro req' rest' hq'
    obtain rfl : req' = req := by simp_all
    exact hcases.2
  · intro c'
    by_cases hc : c' = c
    · subst hc
      rw [view_popToDir_self]
      exact hshape _ hmem hadded rfl (calm_idle _ _) rfl
    · rw [view_popToDir_ne hc]
      by_cases hm : c' ∈ entry.sharers
      · refine (h.shapes c').relax Iff.rfl Iff.rfl rfl ?_ ?_ False.elim False.elim
        · rcases hcases.1 with hd | hs
          · exact hd.symm
          · simp [hs, hc] at hm
        · simp [Wait.asked, Ne.symm hc]
      · refine (h.shapes c').of_not_held hm hm ?_ rfl
        intro hadd
        have hadd : addedBy c' dir.queue := hadd
        rw [hq] at hadd
        obtain ⟨hflag, rfl⟩ := hadd
        cases hhead with
        | forward _ _ _ _ hm' => exact hm hm'
        | writeBack _ hf => exact hf hflag
  · have := h.reads
    simpa [reads_popToDir] using this
  · rcases hcases.1 with hd | hs
    · exact .inl hd
    · exact .inr (by simp [hs])

theorem processWbRep_settled (h : Settled race cfg s dir) (hup : s.toDir c = msg :: ups)
    (ht : msg.msgType = wbRep) (hdata : msg.dataBuf.isSome = true)
    (hr : processWbRepFromL2Cache cfg ch c msg.dataBuf dir = .ok dir') :
    Settled race cfg (s.popToDir c ups) dir' := by
  obtain ⟨w, hgood, -, hf⟩ := h
  unfold processWbRepFromL2Cache at hr
  split at hr
  · cases hr
  rename_i entry he
  rw [eq_setEntry he] at hgood hf
  split at hr
  · cases hr
  dsimp only at hr
  split at hr
  · cases hr
  rename_i req rest hq
  have hq : dir.queue = req :: rest := hq
  split at hr
  · rename_i htype
    obtain ⟨hgood', hor⟩ := hgood.writtenBack hup ht hq
    refine processShReq_settled processNext_ok hgood' hq htype ?_ hr
    rcases hor with hds | hcard
    · refine .inl fun hm _ hl f hf' => ?_
      exact hf hm hds hl f hf'
    · exact .inr ⟨hdata, hcard⟩
  · cases hr

end WbRep

section Dram

variable {rest : List (ShmemMsg D)}

theorem dramReplyType_ok {req : ShmemReq D n} {ds : DirectoryState} {reply : MsgType}
    (h : dramReplyType req ds = .ok reply) (hkind : req.key.msgType.isRequest = true)
    (hds : req.key.msgType = shReq ∧ (ds = .shared ∨ ds = .exclusive) ∨
      req.key.msgType ≠ shReq ∧ ds = .modified) :
    reply = exRep ∧ (ds = .exclusive ∧ req.key.msgType = shReq ∨
        ds = .modified ∧ req.key.msgType ≠ shReq) ∨
      reply = shRep ∧ ds = .shared ∧ req.key.msgType = shReq := by
  unfold dramReplyType at h
  rcases hds with ⟨ht, rfl | rfl⟩ | ⟨ht, rfl⟩
  · simp_all
  · simp_all
  · cases hk : req.key.msgType <;> simp_all [isRequest]

theorem processDRAMReply_settled (h : Settled race cfg s dir) (hfrom : s.fromDram = msg :: rest)
    (hr : processDRAMReply cfg ch msg.dataBuf dir = .ok dir') :
    Settled race cfg { s with fromDram := rest } dir' := by
  obtain ⟨w, hgood, -, hf⟩ := h
  have hreads := hgood.reads
  have hone : s.reads dir.log = ({ s with fromDram := rest } : Sys D n).reads dir.log + 1 := by
    simp only [Sys.reads, hfrom, List.length_cons]
    omega
  obtain rfl : w = .dram := by
    by_contra hw
    rw [if_neg hw] at hreads
    omega
  have hzero : ({ s with fromDram := rest } : Sys D n).reads dir.log = 0 := by
    rw [if_pos rfl] at hreads
    omega
  unfold processDRAMReply at hr
  split at hr
  · cases hr
  rename_i req rest' hq
  split at hr
  · cases hr
  rename_i entry he
  rw [eq_setEntry he] at hgood hf hzero
  cases hreply : dramReplyType req entry.dstate with
  | error fault => simp [hreply, bind, Except.bind] at hr
  | ok reply =>
  simp only [hreply, bind, Except.bind] at hr
  have hhead := hgood.ok.head req rest' hq
  obtain ⟨hkind, hwait, hmem, hds⟩ : req.key.msgType.isRequest = true ∧ req.waitForData = true ∧
      req.key.requester ∈ entry.sharers ∧
      (req.key.msgType = shReq ∧ (entry.dstate = .shared ∨ entry.dstate = .exclusive) ∨
        req.key.msgType ≠ shReq ∧ entry.dstate = .modified) := by
    cases hhead with
    | dram hk hw hm hd => exact ⟨hk, hw, hm, hd⟩
  have hj : Joins cfg (dir.setEntry entry) req entry reply :=
    ⟨(Finset.insert_eq_self.mpr hmem).symm, fun _ _ _ => rfl, hgood.ok.owner, hgood.ok.limit,
      dramReplyType_ok hreply hkind hds⟩
  have hgrant := hj.grant msg.dataBuf (s := { s with fromDram := rest }) hgood.ok
    hgood.shapes (.inr rfl) hzero hq hkind (.inr (.inl hwait))
  obtain ⟨-, hnil⟩ := hgood.shapes.ready hq hkind (.inr (.inl hwait))
  rw [eq_setEntry he] at hr
  exact processNext_ok ((dir.setEntry entry).sendMsg req.key.requester reply msg.dataBuf) req rest'
    dir' hq hgrant hf (upgradeOk_of_other hmem hnil) hr

end Dram

section Nullify

theorem nullify_settled {requester : Fin n} (h : Settled race cfg s dir)
    (hr : nullify cfg ch requester dir = .ok dir') : Settled race cfg s dir' := by
  obtain ⟨w, hgood, -, hf⟩ := h
  unfold nullify at hr
  split at hr
  · rename_i entry _ he hq
    obtain rfl : w = .idle := hgood.ok.empty hq
    let req : ShmemReq D n := .new nullifyReq requester
    have hq' : (dir.enqueue req).queue = [req] := by simp [hq]
    have hgood' : Good race cfg s .idle (dir.enqueue req) := by
      refine ⟨⟨hgood.ok.supported, hgood.ok.uncached, hgood.ok.owner, hgood.ok.limit, ?_, ?_,
        fun _ => rfl⟩, ?_, ?_⟩
      · simp [hq]
      · intro req' rest' hq''
        obtain rfl : req' = req := by simp_all
        exact .idle (.inr rfl) rfl (.inl rfl)
      · intro c'
        rw [DramDirectory.enqueue_log, view_same (by rfl)]
        refine (hgood.shapes c').relax Iff.rfl ?_ ?_ rfl rfl id id
        · rw [demand_added, demand_added, hq', hq]
          exact iff_of_false (by simp [req, ShmemReq.new, addedBy, ShmemReq.Flagged]) id
        · rw [demand_queued, demand_queued, hq', hq]
          exact queuedBy_cons_ne (.inr rfl)
      · rw [DramDirectory.enqueue_log, reads_append]
        exact hgood.reads
    exact processNullifyReq_settled processNext_ok
      (hgood'.emit (.dispatch req.key) (fun _ => rfl) rfl) hq' rfl hf hr
  · cases hr

end Nullify

end Sniper.Coherence
