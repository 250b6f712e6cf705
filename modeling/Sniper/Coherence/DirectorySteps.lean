import Sniper.Coherence.Invariant
import Sniper.Coherence.Requester
set_option autoImplicit false

namespace Sniper.Coherence

open MsgType

variable {D : Type} {n : Nat} {race : Prop} {cfg : Config} {s : Sys D n}
variable {dir dir' : DramDirectory D n} {w w' : Wait n} {req : ShmemReq D n}
variable {rest : List (ShmemReq D n)} {ch : Choice D n}

section Views

variable (c : Fin n) (log more : List (Event D n))

theorem sentTo_send (receiver : Fin n) (msg : ShmemMsg D) :
    sentTo c [.send receiver msg] = if receiver = c then [msg] else [] := by
  by_cases h : receiver = c <;> simp [sentTo, h]

@[simp] theorem sentTo_enqueue (key : ReqKey n) :
    sentTo c ([.enqueue key] : List (Event D n)) = [] := rfl
@[simp] theorem sentTo_dispatch (key : ReqKey n) :
    sentTo c ([.dispatch key] : List (Event D n)) = [] := rfl
@[simp] theorem sentTo_dequeue (key : ReqKey n) :
    sentTo c ([.dequeue key] : List (Event D n)) = [] := rfl
@[simp] theorem sentTo_sendDram (msg : ShmemMsg D) :
    sentTo c ([.sendDram msg] : List (Event D n)) = [] := rfl

@[simp] theorem sentToDram_send (receiver : Fin n) (msg : ShmemMsg D) :
    sentToDram ([.send receiver msg] : List (Event D n)) = [] := rfl
@[simp] theorem sentToDram_enqueue (key : ReqKey n) :
    sentToDram ([.enqueue key] : List (Event D n)) = [] := rfl
@[simp] theorem sentToDram_dispatch (key : ReqKey n) :
    sentToDram ([.dispatch key] : List (Event D n)) = [] := rfl
@[simp] theorem sentToDram_dequeue (key : ReqKey n) :
    sentToDram ([.dequeue key] : List (Event D n)) = [] := rfl
@[simp] theorem sentToDram_sendDram (msg : ShmemMsg D) :
    sentToDram ([.sendDram msg] : List (Event D n)) = [msg] := rfl

theorem view_same {c : Fin n} {log more : List (Event D n)} (h : sentTo c more = []) :
    s.view (log ++ more) c = s.view log c := by
  simp [Sys.view, h]

theorem view_push {c : Fin n} {log more : List (Event D n)} {msg : ShmemMsg D}
    (h : sentTo c more = [msg]) : s.view (log ++ more) c = (s.view log c).push msg.msgType := by
  simp [Sys.view, View.of, View.push, h]

theorem reads_append {s : Sys D n} :
    s.reads (log ++ more) =
      s.reads log + (sentToDram more).countP fun msg => msg.msgType = dramReadReq := by
  simp [Sys.reads, Nat.add_assoc]

end Views

section Entries

variable {entry entry' : DirectoryEntry n} {r : Fin n} {max : Nat}

theorem mem_getSharersList (entry : DirectoryEntry n) (c : Fin n) :
    c ∈ entry.getSharersList ↔ c ∈ entry.sharers := by
  simp [DirectoryEntry.getSharersList]

theorem nodup_getSharersList (entry : DirectoryEntry n) : entry.getSharersList.Nodup :=
  (List.nodup_finRange n).filter _

theorem getSharersList_eq_singleton (entry : DirectoryEntry n) (r : Fin n) :
    entry.getSharersList = [r] ↔ entry.sharers = {r} := by
  constructor
  · intro h
    ext c
    rw [← mem_getSharersList, h]
    simp
  · intro h
    have hnodup := nodup_getSharersList entry
    have hmem : ∀ c, c ∈ entry.getSharersList ↔ c = r := fun c => by
      rw [mem_getSharersList, h, Finset.mem_singleton]
    match hl : entry.getSharersList with
    | [] => simp [hl] at hmem
    | [a] => rw [(hmem a).mp (by simp [hl])]
    | a :: b :: l =>
      have ha := (hmem a).mp (by simp [hl])
      have hb := (hmem b).mp (by simp [hl])
      simp [hl, ha, hb] at hnodup

theorem addSharer_ok {result : Option (DirectoryEntry n)}
    (h : entry.addSharer r max = .ok result) :
    r ∉ entry.sharers ∧ (max ≤ entry.sharers.card ∧ result = none ∨
      entry.sharers.card < max ∧
        result = some { entry with sharers := insert r entry.sharers }) := by
  unfold DirectoryEntry.addSharer at h
  split at h
  · cases h
  · rename_i hr
    split at h
    · rename_i hle
      cases h
      exact ⟨hr, .inl ⟨hle, rfl⟩⟩
    · rename_i hlt
      cases h
      exact ⟨hr, .inr ⟨by simpa [DirectoryEntry.getNumSharers] using hlt, rfl⟩⟩

theorem addFirstSharer_ok {ds : DirectoryState}
    (h : entry.addFirstSharer r max ds = .ok entry') :
    r ∉ entry.sharers ∧ entry.sharers.card < max ∧
      entry' = { entry with sharers := insert r entry.sharers, owner := some r, dstate := ds } := by
  unfold DirectoryEntry.addFirstSharer at h
  cases ha : entry.addSharer r max with
  | error fault => simp [ha, bind, Except.bind] at h
  | ok result =>
    obtain ⟨hr, ⟨-, rfl⟩ | ⟨hlt, rfl⟩⟩ := addSharer_ok ha
    · simp [ha, bind, Except.bind] at h
    · simp only [ha, bind, Except.bind, DirectoryEntry.setOwner, Finset.mem_insert, true_or,
        if_true, Except.ok.injEq] at h
      exact ⟨hr, hlt, h.symm⟩

theorem getOneSharer_ok {index : Nat} (h : entry.getOneSharer index = .ok r) :
    r ∈ entry.sharers := by
  unfold DirectoryEntry.getOneSharer at h
  split at h
  · cases h
  · rename_i sharer hs
    cases h
    exact (mem_getSharersList entry r).mp (List.mem_of_getElem? hs)

/-- The entry without the sharer `c`, before its state is looked at. -/
def DirectoryEntry.removed (entry : DirectoryEntry n) (c : Fin n) : DirectoryEntry n :=
  { entry with sharers := entry.sharers.erase c }

theorem removeSharer_ok (h : entry.removeSharer r = .ok entry') :
    r ∈ entry.sharers ∧ entry' = entry.removed r := by
  unfold DirectoryEntry.removeSharer at h
  split at h
  · cases h
    exact ⟨‹_›, rfl⟩
  · cases h

/-- Whom an UPGRADE_REQ asks: every sharer but the requester, for its data only when the
requester has none. -/
theorem upgradeTargets_eq (entry : DirectoryEntry n) (r : Fin n) :
    ∃ (l : List (Fin n)) (g : Fin n → MsgType),
      upgradeTargets entry r = l.map (fun c => (c, g c)) ∧ l.Nodup ∧
      (∀ c, c ∈ l ↔ c ∈ entry.sharers ∧ c ≠ r) ∧
      ∀ c ∈ l, g c = invReq ∨ g c = flushReq ∧ r ∉ entry.sharers := by
  unfold upgradeTargets
  by_cases hr : entry.hasSharer r = true
  · refine ⟨entry.getSharersList.filter (· ≠ r), fun _ => invReq, by simp [hr],
      (nodup_getSharersList entry).filter _, ?_, fun _ _ => .inl rfl⟩
    intro c
    simp [mem_getSharersList]
  · have hr' : r ∉ entry.sharers := by simpa [DirectoryEntry.hasSharer] using hr
    have hmem : ∀ c, c ∈ entry.getSharersList ↔ c ∈ entry.sharers ∧ c ≠ r := fun c => by
      rw [mem_getSharersList]
      exact ⟨fun hc => ⟨hc, fun he => hr' (he ▸ hc)⟩, And.left⟩
    have hnodup := nodup_getSharersList entry
    simp only [hr]
    cases hl : entry.getSharersList with
    | nil => exact ⟨[], fun _ => invReq, rfl, .nil, by simpa [hl] using hmem, by simp⟩
    | cons first others =>
      refine ⟨first :: others, fun c => if c = first then flushReq else invReq, ?_, hl ▸ hnodup,
        hl ▸ hmem, ?_⟩
      · have hne : ∀ c ∈ others, c ≠ first := fun c hc he => by
          rw [hl, he.symm] at hnodup
          exact (List.nodup_cons.mp hnodup).1 hc
        simpa using fun c hc he => absurd he (hne c hc)
      · intro c _
        by_cases hc : c = first
        · exact .inr ⟨if_pos hc, hr'⟩
        · exact .inl (if_neg hc)

theorem sentTo_sendEach {l : List (Fin n)} (g : Fin n → MsgType) (hnodup : l.Nodup) (c : Fin n) :
    sentTo c ((l.map fun x => (x, g x)).map fun p =>
      (Event.send p.1 ⟨p.2, none⟩ : Event D n)) = if c ∈ l then [⟨g c, none⟩] else [] := by
  induction l with
  | nil => rfl
  | cons a l ih =>
    obtain ⟨ha, hl⟩ := List.nodup_cons.mp hnodup
    rw [List.map_cons, List.map_cons, ← List.singleton_append, sentTo_append, sentTo_send, ih hl]
    by_cases hac : a = c
    · subst hac
      simp [ha]
    · simp [hac, Ne.symm hac]

theorem sentToDram_sendEach (l : List (Fin n × MsgType)) :
    sentToDram (l.map fun p => (Event.send p.1 ⟨p.2, none⟩ : Event D n)) = [] := by
  induction l with
  | nil => rfl
  | cons a l ih =>
    rw [List.map_cons, ← List.singleton_append, sentToDram_append, ih]
    rfl

end Entries

section Congruence

/-- The invariant reads the entry through its state, its sharers and its owner. -/
theorem HeadOk.congr (h : HeadOk cfg dir req w) (hds : dir'.dstate = dir.dstate)
    (hsh : dir'.sharers = dir.sharers) (how : dir'.owner = dir.owner) : HeadOk cfg dir' req w := by
  cases h with
  | idle hk hw hf => exact .idle hk hw (by rw [hds, hsh]; exact hf)
  | dram hk hw hm hd => exact .dram hk hw (hsh ▸ hm) (by rw [hds]; exact hd)
  | forward hk hw hf hd hm hs ho hl =>
    exact .forward hk hw hf (hds.trans hd) (hsh ▸ hm) (hsh ▸ hs) ho hl
  | writeBack hk hf hd ho => exact .writeBack hk hf (by rw [hds]; exact hd) (how.trans ho)
  | flush hk hf hd ho => exact .flush hk hf (by rw [hds]; exact hd) (how.trans ho)
  | invAll hk hf hd => exact .invAll hk hf (hds.trans hd)
  | invOthers hk hf hd ho => exact .invOthers hk hf (hds.trans hd) (hsh ▸ ho)
  | invSome hk hf hd hm => exact .invSome hk hf (hds.trans hd) (hsh ▸ hm)

theorem DirOk.congr (h : DirOk cfg dir w) (hds : dir'.dstate = dir.dstate)
    (hsh : dir'.sharers = dir.sharers) (how : dir'.owner = dir.owner)
    (hq : dir'.queue = dir.queue) : DirOk cfg dir' w where
  supported := hds ▸ h.supported
  uncached := by rw [hds, hsh]; exact h.uncached
  owner := by rw [hds, hsh, how]; exact h.owner
  limit := hsh ▸ h.limit
  tail := hq ▸ h.tail
  head req rest hreq := (h.head req rest (hq ▸ hreq)).congr hds hsh how
  empty := hq ▸ h.empty

theorem demand_congr (hds : dir'.dstate = dir.dstate) (hsh : dir'.sharers = dir.sharers)
    (hq : dir'.queue = dir.queue) (c : Fin n) : demand dir' w c = demand dir w c := by
  simp [demand, hds, hsh, hq]

theorem Good.congr (h : Good race cfg s w dir) (hds : dir'.dstate = dir.dstate)
    (hsh : dir'.sharers = dir.sharers) (how : dir'.owner = dir.owner)
    (hq : dir'.queue = dir.queue) (hlog : dir'.log = dir.log) : Good race cfg s w dir' where
  ok := h.ok.congr hds hsh how hq
  shapes c := by
    rw [demand_congr hds hsh hq c, hlog]
    exact h.shapes c
  reads := hlog ▸ h.reads

theorem getOrAllocate_dstate (dir : DramDirectory D n) (ch : Choice D n) :
    (dir.getOrAllocate ch).dstate = dir.dstate := by
  cases he : dir.entry <;>
    simp [DramDirectory.getOrAllocate, he, DirectoryEntry.new, DramDirectory.dstate]

theorem getOrAllocate_sharers (dir : DramDirectory D n) (ch : Choice D n) :
    (dir.getOrAllocate ch).sharers = dir.sharers := by
  cases he : dir.entry <;>
    simp [DramDirectory.getOrAllocate, he, DirectoryEntry.new, DramDirectory.sharers]

theorem getOrAllocate_owner (dir : DramDirectory D n) (ch : Choice D n) :
    (dir.getOrAllocate ch).owner = dir.owner := by
  cases he : dir.entry <;>
    simp [DramDirectory.getOrAllocate, he, DirectoryEntry.new, DramDirectory.owner]

/-- An allocated entry says what the absent one did. -/
theorem Good.allocate (h : Good race cfg s w dir) (ch : Choice D n) :
    Good race cfg s w (dir.setEntry (dir.getOrAllocate ch)) :=
  h.congr (getOrAllocate_dstate dir ch) (getOrAllocate_sharers dir ch)
    (getOrAllocate_owner dir ch) rfl rfl

theorem ForwarderOk.allocate (h : ForwarderOk cfg dir) (ch : Choice D n) :
    ForwarderOk cfg (dir.setEntry (dir.getOrAllocate ch)) := by
  cases he : dir.entry with
  | none =>
    intro _ hds
    simp [DramDirectory.getOrAllocate, he, DirectoryEntry.new] at hds
  | some entry =>
    simpa [ForwarderOk, DramDirectory.getOrAllocate, he, DramDirectory.dstate,
      DramDirectory.sharers, DramDirectory.forwarder] using h

/-- An event that sends nothing to a cache and reads nothing from DRAM is not seen. -/
theorem Good.emit (h : Good race cfg s w dir) (event : Event D n)
    (hto : ∀ c, sentTo c [event] = [])
    (hdram : (sentToDram [event]).countP (fun msg => msg.msgType = dramReadReq) = 0) :
    Good race cfg s w (dir.emit event) where
  ok := h.ok.congr rfl rfl rfl rfl
  shapes c := by
    show Shape race (demand dir w c) (s.view (dir.log ++ [event]) c)
    rw [view_same (hto c)]
    exact h.shapes c
  reads := by
    rw [DramDirectory.emit_log, reads_append, hdram]
    exact h.reads

end Congruence

section Idle

theorem calm_idle (dir : DramDirectory D n) (c : Fin n) : (demand dir .idle c).Calm :=
  ⟨rfl, id, id⟩

theorem calm_dram (dir : DramDirectory D n) (c : Fin n) : (demand dir .dram c).Calm :=
  ⟨rfl, id, id⟩

theorem not_added (hflag : ∀ req rest, dir.queue = req :: rest → ¬req.Flagged) (c : Fin n) :
    ¬addedBy c dir.queue := by
  cases hq : dir.queue with
  | nil => exact id
  | cons req rest => exact fun h => hflag req rest hq h.1

/-- A core the new wait asks nothing of keeps its shape. -/
theorem Shape.unasked {v : View} {c : Fin n} (h : Shape race (demand dir w c) v)
    (hcalm : (demand dir w c).Calm)
    (hds : c ∈ dir.sharers → dir'.dstate = dir.dstate)
    (hsh : c ∈ dir'.sharers ↔ c ∈ dir.sharers)
    (hq : queuedBy c dir'.queue = queuedBy c dir.queue)
    (hadd : ¬addedBy c dir.queue) (hadd' : ¬addedBy c dir'.queue)
    (hw : c ∈ dir.sharers → w'.asked c = none ∧ ¬w'.mustInv c) :
    Shape race (demand dir' w' c) v := by
  by_cases hc : c ∈ dir.sharers
  · obtain ⟨hasked, hmust⟩ := hw hc
    exact h.relax hsh (iff_of_false hadd' hadd) hq (hds hc) (hasked.trans hcalm.asked.symm)
      (absurd · hmust) (absurd · hcalm.mayFlush)
  · exact h.of_not_held hc (mt hsh.mp hc) hadd' hq

/-- The directory starts to wait for what it asks for in the same step. -/
theorem Good.ask {more : List (Event D n)} (h : Good race cfg s .idle dir)
    (hq : dir.queue = req :: rest) (hflag : ¬req.Flagged) (hhead : HeadOk cfg dir req w')
    (hdram : sentToDram more = []) (hw : w' ≠ .dram)
    (hsend : ∀ c, sentTo c more = [] ∧ (c ∈ dir.sharers → w'.asked c = none ∧ ¬w'.mustInv c) ∨
      ∃ msg, sentTo c more = [msg] ∧ c ∈ dir.sharers ∧
        Pushes msg.msgType (demand dir .idle c) (demand dir w' c)) :
    Good race cfg s w' { dir with log := dir.log ++ more } := by
  have hadd : ∀ c, ¬addedBy c dir.queue := not_added (by grind)
  refine ⟨⟨h.ok.supported, h.ok.uncached, h.ok.owner, h.ok.limit, h.ok.tail, ?_, ?_⟩, ?_, ?_⟩
  · intro req' rest' hq'
    have : req' = req := by grind
    exact this ▸ hhead.congr rfl rfl rfl
  · intro hnil
    simp [hq] at hnil
  · intro c
    show Shape race (demand dir w' c) (s.view (dir.log ++ more) c)
    rcases hsend c with ⟨hnone, hask⟩ | ⟨msg, hone, hmem, hpush⟩
    · rw [view_same hnone]
      exact (h.shapes c).unasked (calm_idle dir c) (fun _ => rfl) Iff.rfl rfl (hadd c) (hadd c) hask
    · rw [view_push hone]
      exact (h.shapes c).push hmem (hadd c) (calm_idle dir c) hpush
  · rw [reads_append, hdram, if_neg hw]
    exact h.reads

end Idle

section Join

/-- The requester of the head request has become a sharer: the entry after that, and the
reply that tells it. -/
structure Joins (cfg : Config) (dir : DramDirectory D n) (req : ShmemReq D n)
    (entry : DirectoryEntry n) (reply : MsgType) : Prop where
  sharers : entry.sharers = insert req.key.requester dir.sharers
  same : ∀ c ∈ dir.sharers, c ≠ req.key.requester → entry.dstate = dir.dstate
  owner : entry.dstate = .exclusive ∨ entry.dstate = .modified →
    ∃ o, entry.owner = some o ∧ entry.sharers = {o}
  limit : entry.sharers.card ≤ cfg.getMaxHwSharers n
  reply : reply = exRep ∧ (entry.dstate = .exclusive ∧ req.key.msgType = shReq ∨
      entry.dstate = .modified ∧ req.key.msgType ≠ shReq) ∨
    reply = shRep ∧ entry.dstate = .shared ∧ req.key.msgType = shReq

variable {entry : DirectoryEntry n} {reply : MsgType}

theorem Joins.dirOk {queue : List (ShmemReq D n)} {log : List (Event D n)}
    (hj : Joins cfg dir req entry reply) (htail : ∀ r ∈ queue.tail, r.key.msgType.isRequest = true ∧ r.Fresh)
    (hhead : ∀ r rest, queue = r :: rest → HeadOk cfg ⟨some entry, queue, log⟩ r w')
    (hempty : queue = [] → w' = .idle) : DirOk cfg ⟨some entry, queue, log⟩ w' where
  supported := by
    show entry.dstate ≠ .owned
    have := hj.reply
    grind
  uncached := by
    show entry.dstate = .uncached ↔ entry.sharers = ∅
    have := hj.reply
    rw [hj.sharers]
    simp only [Finset.insert_ne_empty, iff_false]
    grind
  owner := hj.owner
  limit := hj.limit
  tail := htail
  head := hhead
  empty := hempty

theorem addedBy_fresh {queue : List (ShmemReq D n)}
    (h : ∀ r ∈ queue, r.key.msgType.isRequest = true ∧ r.Fresh) (c : Fin n) : ¬addedBy c queue := by
  cases queue with
  | nil => exact id
  | cons r rest => exact fun ha => (h r (by simp)).2.not_flagged ha.1

theorem HeadOk.fresh (hk : req.key.msgType.isRequest = true) (hf : req.Fresh) :
    HeadOk cfg dir req .idle :=
  .idle (.inl hk) hf.waitForData (.inl hf.forwardingFrom)

theorem not_nullify {t : MsgType} (h : t.isRequest = true) : t ≠ nullifyReq := by
  rintro rfl
  cases h

theorem queuedBy_single {req' : ShmemReq D n} (hkey : req'.key = req.key)
    (hkind : req.key.msgType.isRequest = true) (hnil : queuedBy req.key.requester rest = []) :
    queuedBy req.key.requester (req' :: rest) = [req.key.msgType] := by
  rw [queuedBy_cons_self (by rw [hkey]) (hkey ▸ not_nullify hkind), hkey, hnil]

/-- The requester of the head request, when it has no copy or was made a sharer already. -/
theorem Shapes.ready (h : Shapes race s w dir) (hq : dir.queue = req :: rest)
    (hkind : req.key.msgType.isRequest = true)
    (hready : req.key.requester ∉ dir.sharers ∨ req.Flagged) :
    Ready req.key.msgType (s.view dir.log req.key.requester) ∧
      queuedBy req.key.requester rest = [] := by
  have hqueued : (demand dir w req.key.requester).queued =
      req.key.msgType :: queuedBy req.key.requester rest := by
    rw [demand_queued, hq, queuedBy_cons_self rfl (not_nullify hkind)]
  obtain ⟨hnil, ⟨hr, -⟩ | ⟨-, hheld, hadd⟩⟩ := (h req.key.requester).of_queued hqueued
  · exact ⟨hr, hnil⟩
  · rcases hready with hr | hr
    · exact absurd hheld hr
    · exact absurd (show addedBy _ dir.queue by rw [hq]; exact ⟨hr, rfl⟩) hadd

/-- The other cores keep their shapes when a requester joins. -/
theorem Shapes.others {c : Fin n} (h : Shapes race s w dir)
    (hw : w = .idle ∨ w = .dram) (hq : dir.queue = req :: rest) (hc : c ≠ req.key.requester)
    (hj : Joins cfg dir req entry reply) {queue : List (ShmemReq D n)} {log : List (Event D n)}
    (hqueue : queuedBy c queue = queuedBy c rest) (hadd : ¬addedBy c queue)
    (hask : c ∈ dir.sharers → w'.asked c = none ∧ ¬w'.mustInv c) :
    Shape race (demand ⟨some entry, queue, log⟩ w' c) (s.view dir.log c) := by
  have hcalm : (demand dir w c).Calm := by
    rcases hw with rfl | rfl
    · exact calm_idle dir c
    · exact calm_dram dir c
  refine (h c).unasked hcalm (fun hm => hj.same c hm hc) ?_ ?_ ?_ hadd hask
  · show c ∈ entry.sharers ↔ c ∈ dir.sharers
    simp [hj.sharers, hc]
  · show queuedBy c queue = queuedBy c dir.queue
    rw [hq, hqueue, queuedBy_cons_ne (.inl (Ne.symm hc))]
  · rw [hq]
    exact fun ha => hc ha.2.symm

/-- The head request is answered and leaves the queue. -/
theorem Joins.grant (buf : Option D) (hj : Joins cfg dir req entry reply) (hok : DirOk cfg dir w)
    (hshapes : Shapes race s w dir) (hw : w = .idle ∨ w = .dram) (hreads : s.reads dir.log = 0)
    (hq : dir.queue = req :: rest) (hkind : req.key.msgType.isRequest = true)
    (hready : req.key.requester ∉ dir.sharers ∨ req.Flagged) :
    Good race cfg s .idle ⟨some entry, rest,
      dir.log ++ [.send req.key.requester ⟨reply, buf⟩] ++ [.dequeue req.key]⟩ := by
  have htail : ∀ r ∈ rest, r.key.msgType.isRequest = true ∧ r.Fresh := by
    simpa [hq] using hok.tail
  refine ⟨hj.dirOk (fun r hr => htail r (List.mem_of_mem_tail hr)) ?_ (fun _ => rfl), ?_, ?_⟩
  · rintro r rest' rfl
    have := htail r (by simp)
    exact .fresh this.1 this.2
  · intro c
    show Shape race _ (s.view (dir.log ++ [_] ++ [_]) c)
    rw [view_same (by simp)]
    by_cases hc : c = req.key.requester
    · subst hc
      obtain ⟨hr, hnil⟩ := hshapes.ready hq hkind hready
      rw [view_push (by rw [sentTo_send, if_pos rfl])]
      refine hr.granted ?_ (addedBy_fresh htail _) hnil (calm_idle _ _) ?_
      · show req.key.requester ∈ entry.sharers
        simp [hj.sharers]
      · show reply = exRep ∧ (entry.dstate = .exclusive ∨ entry.dstate = .modified ∧ _) ∨
          reply = shRep ∧ entry.dstate = .shared
        have := hj.reply
        grind
    · rw [view_same (by rw [sentTo_send, if_neg (Ne.symm hc)])]
      exact hshapes.others hw hq hc hj rfl (addedBy_fresh htail c) (fun _ => ⟨rfl, id⟩)
  · rw [reads_append, reads_append, hreads]
    simp

/-- The head request is sent to DRAM for its data. -/
theorem Joins.waitForData (hj : Joins cfg dir req entry reply) (h : Good race cfg s .idle dir)
    (hq : dir.queue = req :: rest) (hkind : req.key.msgType.isRequest = true)
    (hready : req.key.requester ∉ dir.sharers ∨ req.Flagged) :
    Good race cfg s .dram ⟨some entry, { req with waitForData := true } :: rest,
      dir.log ++ [.sendDram ⟨dramReadReq, none⟩]⟩ := by
  have htail : ∀ r ∈ rest, r.key.msgType.isRequest = true ∧ r.Fresh := by
    simpa [hq] using h.ok.tail
  have hmem : req.key.requester ∈ entry.sharers := by simp [hj.sharers]
  refine ⟨hj.dirOk htail ?_ (by simp), ?_, ?_⟩
  · intro r rest' heq
    obtain ⟨rfl, rfl⟩ : { req with waitForData := true } = r ∧ rest = rest' := by simpa using heq
    refine .dram hkind rfl hmem ?_
    show _ ∧ (entry.dstate = .shared ∨ entry.dstate = .exclusive) ∨ _ ∧ entry.dstate = .modified
    have := hj.reply
    grind
  · intro c
    show Shape race _ (s.view (dir.log ++ [_]) c)
    rw [view_same (by simp)]
    by_cases hc : c = req.key.requester
    · subst hc
      obtain ⟨hr, hnil⟩ := h.shapes.ready hq hkind hready
      refine hr.added hmem ⟨.inl rfl, rfl⟩ ?_
      exact queuedBy_single rfl hkind hnil
    · exact h.shapes.others (.inl rfl) hq hc hj (queuedBy_cons_ne (.inl (Ne.symm hc)))
        (fun ha => hc ha.2.symm) (fun _ => ⟨rfl, id⟩)
  · rw [reads_append, h.reads]
    simp

/-- The head request is forwarded from another sharer. -/
theorem Joins.forward {f : Fin n} (hj : Joins cfg dir req entry reply)
    (h : Good race cfg s .idle dir) (hq : dir.queue = req :: rest)
    (hkind : req.key.msgType.isRequest = true) (hready : req.key.requester ∉ dir.sharers)
    (hwait : req.waitForData = false) (hds : entry.dstate = .shared) (hf : f ∈ dir.sharers)
    (hlimit : 2 ≤ cfg.getMaxHwSharers n) :
    Good race cfg s (.wb f) ⟨some entry, { req with forwardingFrom := some f } :: rest,
      dir.log ++ [.send f ⟨wbReq, none⟩]⟩ := by
  have htail : ∀ r ∈ rest, r.key.msgType.isRequest = true ∧ r.Fresh := by
    simpa [hq] using h.ok.tail
  have hmem : req.key.requester ∈ entry.sharers := by simp [hj.sharers]
  have hfr : f ≠ req.key.requester := fun he => hready (he ▸ hf)
  refine ⟨hj.dirOk htail ?_ (by simp), ?_, ?_⟩
  · intro r rest' heq
    obtain ⟨rfl, rfl⟩ : { req with forwardingFrom := some f } = r ∧ rest = rest' := by
      simpa using heq
    have hsh : req.key.msgType = shReq := by
      have := hj.reply
      grind
    exact .forward hsh hwait rfl hds hmem (by show f ∈ entry.sharers; simp [hj.sharers, hf]) hfr
      hlimit
  · intro c
    show Shape race _ (s.view (dir.log ++ [_]) c)
    by_cases hc : c = req.key.requester
    · subst hc
      rw [view_same (by rw [sentTo_send, if_neg hfr])]
      obtain ⟨hr, hnil⟩ := h.shapes.ready hq hkind (.inl hready)
      refine hr.added hmem ⟨.inr (by simp), rfl⟩ ?_
      exact queuedBy_single rfl hkind hnil
    · have hqueue : queuedBy c ({ req with forwardingFrom := some f } :: rest) =
          queuedBy c rest := queuedBy_cons_ne (.inl (Ne.symm hc))
      have hadd : ¬addedBy c ({ req with forwardingFrom := some f } :: rest) :=
        fun ha => hc ha.2.symm
      by_cases hcf : f = c
      · subst hcf
        rw [view_push (by rw [sentTo_send, if_pos rfl])]
        refine (h.shapes f).push hf ?_ (calm_idle dir f) ?_
        · show ¬addedBy f dir.queue
          rw [hq]
          exact fun ha => hc ha.2.symm
        · refine ⟨rfl, hj.same f hf hc, ?_, ?_, hadd, ?_, by simp, ?_, ?_, by simp⟩
          · show queuedBy f _ = queuedBy f dir.queue
            rw [hqueue, hq, queuedBy_cons_ne (.inl (Ne.symm hc))]
          · show f ∈ entry.sharers
            simp [hj.sharers, hf]
          · simp [Wait.asked]
          · simp [Wait.asked]
          · exact False.elim
      · rw [view_same (by rw [sentTo_send, if_neg hcf])]
        exact h.shapes.others (.inl rfl) hq hc hj hqueue hadd
          (fun _ => ⟨by simp [Wait.asked, hcf], id⟩)
  · rw [reads_append, h.reads]
    simp

end Join

section Ask

/-- The owner of an EXCLUSIVE or MODIFIED line is asked for its data. -/
theorem Good.askOwner {o : Fin n} {t : MsgType} (h : Good race cfg s .idle dir)
    (hq : dir.queue = req :: rest) (hflag : ¬req.Flagged) (hhead : HeadOk cfg dir req w')
    (hmem : o ∈ dir.sharers) (hw : w' = .flush o ∧ t = flushReq ∨ w' = .wb o ∧ t = wbReq) :
    Good race cfg s w' (dir.sendMsg o t none) := by
  have hadd : ¬addedBy o dir.queue := not_added (by grind) o
  refine h.ask hq hflag hhead (by rfl) ?_ ?_
  · rcases hw with ⟨rfl, -⟩ | ⟨rfl, -⟩ <;> simp
  · intro c
    by_cases hc : o = c
    · subst hc
      refine .inr ⟨_, by rw [sentTo_send, if_pos rfl], hmem, ?_⟩
      rcases hw with ⟨rfl, rfl⟩ | ⟨rfl, rfl⟩ <;>
        exact ⟨rfl, rfl, rfl, hmem, hadd, by simp [Wait.asked],
          by simp [Demand.Flushing, Wait.asked], by simp [Wait.asked], False.elim, by simp⟩
    · refine .inl ⟨by rw [sentTo_send, if_neg hc], fun _ => ?_⟩
      rcases hw with ⟨rfl, -⟩ | ⟨rfl, -⟩ <;> exact ⟨by simp [Wait.asked, hc], id⟩

/-- Sharers of a SHARED line are invalidated, one of them perhaps flushed. -/
theorem Good.invalidate {l : List (Fin n)} {g : Fin n → MsgType} (h : Good race cfg s .idle dir)
    (hq : dir.queue = req :: rest) (hflag : ¬req.Flagged) (hhead : HeadOk cfg dir req w')
    (hds : dir.dstate = .shared) (hw : w' ≠ .dram) (hnodup : l.Nodup)
    (hmem : ∀ c ∈ l, c ∈ dir.sharers)
    (hg : ∀ c ∈ l, g c = invReq ∨ g c = flushReq ∧ w'.mayFlush dir.sharers)
    (hasked : ∀ c, w'.asked c = none) (hmust : ∀ c ∈ dir.sharers, c ∉ l → ¬w'.mustInv c) :
    Good race cfg s w' (dir.sendEach (l.map fun c => (c, g c))) := by
  have hadd : ∀ c, ¬addedBy c dir.queue := not_added (by grind)
  refine h.ask hq hflag hhead (sentToDram_sendEach _) hw ?_
  intro c
  by_cases hc : c ∈ l
  · refine .inr ⟨⟨g c, none⟩, by rw [sentTo_sendEach g hnodup, if_pos hc], hmem c hc, ?_⟩
    rcases hg c hc with ht | ⟨ht, hmay⟩ <;> rw [ht]
    · exact ⟨rfl, rfl, rfl, hmem c hc, hadd c, by simp [hasked c], by simp, by simp [hasked c],
        fun _ => .inl rfl, fun _ => hds⟩
    · exact ⟨rfl, rfl, rfl, hmem c hc, hadd c, by simp [hasked c], fun _ => .inr hmay,
        by simp [hasked c], fun _ => .inr rfl, by simp⟩
  · exact .inl ⟨by rw [sentTo_sendEach g hnodup, if_neg hc], fun hm => ⟨hasked c, hmust c hm hc⟩⟩

end Ask

/-- An UPGRADE_REQ of the only sharer is granted while an invalidation of it is in flight
only where that is allowed. -/
def UpgradeOk (race : Prop) (s : Sys D n) (dir : DramDirectory D n) : Prop :=
  ∀ req rest, dir.queue = req :: rest → req.key.msgType = upgradeReq → dir.dstate = .shared →
    dir.sharers = {req.key.requester} →
      race ∨ invReq ∉ (s.view dir.log req.key.requester).dn ∧
        invRep ∉ (s.view dir.log req.key.requester).up

/-- What the handlers rely on when they end a request. -/
def NextOk (race : Prop) (cfg : Config) (s : Sys D n)
    (next : DramDirectory D n → Except Fault (DramDirectory D n)) : Prop :=
  ∀ dir req rest dir', dir.queue = req :: rest →
    Good race cfg s .idle ({ dir with queue := rest }.emit (.dequeue req.key)) →
    ForwarderOk cfg dir → UpgradeOk race s ({ dir with queue := rest }.emit (.dequeue req.key)) →
    next dir = .ok dir' → Settled race cfg s dir'

section Handlers

variable {next : DramDirectory D n → Except Fault (DramDirectory D n)}
variable {buf : Option D} {entry : DirectoryEntry n} {reply : MsgType}

theorem Joins.setForwarder (hj : Joins cfg dir req entry reply) (f : Option (Fin n)) :
    Joins cfg dir req { entry with forwarder := f } reply :=
  ⟨hj.sharers, hj.same, hj.owner, hj.limit, hj.reply⟩

theorem mem_queuedBy {queue : List (ShmemReq D n)} (hmem : req ∈ queue)
    (hkind : req.key.msgType.isRequest = true) :
    req.key.msgType ∈ queuedBy req.key.requester queue := by
  simp only [queuedBy, List.mem_map, List.mem_filter]
  exact ⟨req, ⟨hmem, by simpa using not_nullify hkind⟩, rfl⟩

/-- Nobody is alone in the directory right after another core was answered. -/
theorem upgradeOk_of_other {dir : DramDirectory D n} {r : Fin n} (hmem : r ∈ dir.sharers)
    (hnil : queuedBy r dir.queue = []) : UpgradeOk race s dir := by
  intro req rest hq ht _ hsh
  have hr : r = req.key.requester := by simpa [hsh] using hmem
  have hmem' : req ∈ dir.queue := by simp [hq]
  have := mem_queuedBy hmem' (by simp [ht, isRequest])
  simp [← hr, hnil] at this

theorem retrieveData_settled (hnext : NextOk race cfg s next) (h : Good race cfg s .idle dir)
    (hq : dir.queue = req :: rest) (hkind : req.key.msgType.isRequest = true)
    (hready : req.key.requester ∉ dir.sharers ∨ req.Flagged)
    (hj : Joins cfg dir req entry reply)
    (hfwd : buf = none → cfg.protocol = .mesif → entry.dstate = .shared →
      2 ≤ cfg.getMaxHwSharers n ∧ ∀ f, entry.forwarder = some f → f ∈ dir.sharers)
    (hr : retrieveDataAndSendToL2Cache next cfg reply req.key.requester buf
      (dir.setEntry entry) = .ok dir') : Settled race cfg s dir' := by
  unfold retrieveDataAndSendToL2Cache at hr
  simp only [DramDirectory.setEntry_entry] at hr
  split at hr
  · rename_i data
    have hgrant := (hj.setForwarder (some req.key.requester)).grant (some data) h.ok
      h.shapes (.inl rfl) h.reads hq hkind hready
    obtain ⟨-, hnil⟩ := h.shapes.ready hq hkind hready
    refine hnext ((dir.setEntry { entry with forwarder := some req.key.requester }).sendMsg
      req.key.requester reply (some data)) req rest dir' hq hgrant ?_
      (upgradeOk_of_other ?_ hnil) hr
    · intro _ _ _ f hf
      have hf' : req.key.requester = f := Option.some.inj hf
      show f ∈ entry.sharers
      simp [← hf', hj.sharers]
    · show req.key.requester ∈ entry.sharers
      simp [hj.sharers]
  · simp only [DramDirectory.setEntry_queue, hq] at hr
    have hhead := h.ok.head req rest hq
    split at hr
    · rename_i f hf
      cases hr
      unfold forwarderFor at hf
      split at hf
      · rename_i hcond
        obtain ⟨hm, hnone, hds⟩ := hcond
        obtain ⟨hlimit, hmem⟩ := hfwd rfl hm hds
        have hwait : req.waitForData = false := by cases hhead; assumption
        have hready' : req.key.requester ∉ dir.sharers := by
          rcases hready with hr | hr
          · exact hr
          · simp [ShmemReq.Flagged, hwait, hnone] at hr
        refine ⟨.wb f, hj.forward h hq hkind hready' hwait hds (hmem f hf) hlimit, by simp, ?_⟩
        intro _ _ _ f' hf'
        show f' ∈ entry.sharers
        rw [hj.sharers]
        exact Finset.mem_insert_of_mem (hmem f' hf')
      · cases hf
    · cases hr
      refine ⟨.dram, hj.waitForData h hq hkind hready, by simp, ?_⟩
      intro hm hds _ f' hf'
      show f' ∈ entry.sharers
      rw [hj.sharers]
      exact Finset.mem_insert_of_mem ((hfwd rfl hm hds).2 f' hf')

/-- The request at the head, between two waits. -/
theorem Good.head (h : Good race cfg s .idle dir) (hq : dir.queue = req :: rest) :
    req.waitForData = false ∧ (req.forwardingFrom = none ∨ req.key.msgType = shReq ∧
      dir.dstate = .shared ∧ req.key.requester ∈ dir.sharers ∧ 2 ≤ cfg.getMaxHwSharers n) := by
  have hhead := h.ok.head req rest hq
  cases hhead with
  | idle _ hw hf => exact ⟨hw, hf⟩

theorem Good.not_flagged (h : Good race cfg s .idle dir) (hq : dir.queue = req :: rest)
    (ht : req.key.msgType ≠ shReq ∨ req.key.requester ∉ dir.sharers) : ¬req.Flagged := by
  obtain ⟨hw, hf⟩ := h.head hq
  rintro (hw' | hf')
  · simp [hw] at hw'
  · rcases hf with hf | ⟨hsh, -, hmem, -⟩
    · exact hf' hf
    · rcases ht with ht | ht
      · exact ht hsh
      · exact ht hmem

/-- Unless it upgrades, the requester of a request nothing was done for has no copy. -/
theorem Good.requester_away (h : Good race cfg s .idle dir) (hq : dir.queue = req :: rest)
    (hkind : req.key.msgType.isRequest = true) (ht : req.key.msgType ≠ upgradeReq)
    (hflag : ¬req.Flagged) : req.key.requester ∉ dir.sharers := by
  have hqueued : (demand dir .idle req.key.requester).queued =
      req.key.msgType :: queuedBy req.key.requester rest := by
    rw [demand_queued, hq, queuedBy_cons_self rfl (not_nullify hkind)]
  obtain ⟨-, ⟨-, ⟨hh, -⟩ | ⟨-, ha⟩⟩ | ⟨ht', -⟩⟩ := (h.shapes req.key.requester).of_queued hqueued
  · exact hh
  · rw [demand_added, hq] at ha
    exact absurd ha.1 hflag
  · exact absurd ht' ht

/-- An UNCACHED entry gets its first sharer. -/
theorem Joins.first {entry' : DirectoryEntry n} {ds : DirectoryState}
    (huncached : entry.sharers = ∅)
    (hadd : entry.addFirstSharer req.key.requester (cfg.getMaxHwSharers n) ds = .ok entry')
    (hreply : reply = exRep ∧ (ds = .exclusive ∧ req.key.msgType = shReq ∨
        ds = .modified ∧ req.key.msgType ≠ shReq) ∨
      reply = shRep ∧ ds = .shared ∧ req.key.msgType = shReq) :
    Joins cfg (dir.setEntry entry) req entry' reply := by
  obtain ⟨hr, hlt, rfl⟩ := addFirstSharer_ok hadd
  refine ⟨rfl, ?_, ?_, ?_, hreply⟩
  · intro c hc
    simp [huncached] at hc
  · intro _
    exact ⟨req.key.requester, rfl, by simp [huncached]⟩
  · show (insert req.key.requester entry.sharers).card ≤ _
    rw [Finset.card_insert_of_notMem hr]
    omega

theorem sendToOwner_ok {t : MsgType} (h : dir.sendToOwner entry t = .ok dir') :
    ∃ o, entry.owner = some o ∧ dir' = dir.sendMsg o t none := by
  unfold DramDirectory.sendToOwner at h
  split at h
  · cases h
  · rename_i o ho
    cases h
    exact ⟨o, ho, rfl⟩

/-- The owner of the entry is its only sharer. -/
theorem DirOk.owner_mem {o : Fin n} (h : DirOk cfg dir w)
    (hds : dir.dstate = .exclusive ∨ dir.dstate = .modified) (ho : dir.owner = some o) :
    dir.sharers = {o} := by
  obtain ⟨o', ho', hsh⟩ := h.owner hds
  obtain rfl : o' = o := by simpa [ho'] using ho
  exact hsh

/-- A request asks the owner for its data. -/
theorem askOwner_settled {t : MsgType} (h : Good race cfg s .idle (dir.setEntry entry))
    (hq : dir.queue = req :: rest) (hflag : ¬req.Flagged)
    (hds : entry.dstate = .exclusive ∨ entry.dstate = .modified)
    (ht : t = flushReq ∧ (req.key.msgType = exReq ∨ req.key.msgType = upgradeReq ∨
        req.key.msgType = nullifyReq) ∨ t = wbReq ∧ req.key.msgType = shReq)
    (hr : (dir.setEntry entry).sendToOwner entry t = .ok dir') : Settled race cfg s dir' := by
  obtain ⟨o, ho, rfl⟩ := sendToOwner_ok hr
  have hmem : o ∈ entry.sharers := by
    have : entry.sharers = {o} := h.ok.owner_mem hds ho
    simp [this]
  have hfwd : ∀ d : DramDirectory D n, d.dstate = entry.dstate → ForwarderOk cfg d := by
    intro d hd _ hd'
    rcases hds with hds | hds <;> simp [hd, hds] at hd'
  rcases ht with ⟨rfl, hk⟩ | ⟨rfl, hk⟩
  · exact ⟨.flush o, h.askOwner hq hflag (.flush hk hflag hds ho) hmem (.inl ⟨rfl, rfl⟩), by simp,
      hfwd _ rfl⟩
  · exact ⟨.wb o, h.askOwner hq hflag (.writeBack hk hflag hds ho) hmem (.inr ⟨rfl, rfl⟩), by simp,
      hfwd _ rfl⟩

/-- A request invalidates every sharer. -/
theorem invalidateAll_settled (h : Good race cfg s .idle (dir.setEntry entry))
    (hq : dir.queue = req :: rest) (hflag : ¬req.Flagged) (hds : entry.dstate = .shared)
    (hk : req.key.msgType = exReq ∨ req.key.msgType = nullifyReq)
    (hf : ForwarderOk cfg (dir.setEntry entry)) :
    Settled race cfg s ((dir.setEntry entry).sendEach
      (entry.getSharersList.map fun sharer => (sharer, invReq))) := by
  refine ⟨.invAll, ?_, by simp, hf⟩
  refine h.invalidate (g := fun _ => invReq) hq hflag (.invAll hk hflag hds) hds (by simp)
    (nodup_getSharersList entry) (fun c hc => (mem_getSharersList entry c).mp hc)
    (fun _ _ => .inl rfl) (fun _ => rfl) ?_
  intro c hc hnot
  exact absurd ((mem_getSharersList entry c).mpr hc) hnot

theorem processExReq_settled (hnext : NextOk race cfg s next) (h : Good race cfg s .idle dir)
    (hq : dir.queue = req :: rest) (ht : req.key.msgType = exReq)
    (hf : ForwarderOk cfg dir)
    (hr : processExReqFromL2Cache next cfg ch req buf dir = .ok dir') :
    Settled race cfg s dir' := by
  have h' := h.allocate ch
  have hf' := hf.allocate ch
  have hkind : req.key.msgType.isRequest = true := by simp [ht, isRequest]
  have hflag := h.not_flagged hq (.inl (by simp [ht]))
  unfold processExReqFromL2Cache at hr
  generalize dir.getOrAllocate ch = entry at h' hf' hr
  dsimp only at hr
  have haway : req.key.requester ∉ entry.sharers :=
    h'.requester_away hq hkind (by simp [ht]) hflag
  split at hr
  · rename_i hds
    split at hr
    · cases hr
    · exact askOwner_settled h' hq hflag (.inl hds) (.inl ⟨rfl, .inl ht⟩) hr
  · rename_i hds
    split at hr
    · cases hr
    · exact askOwner_settled h' hq hflag (.inr hds) (.inl ⟨rfl, .inl ht⟩) hr
  · rename_i hds
    split at hr
    · cases hr
    · cases hr
      exact invalidateAll_settled h' hq hflag hds (.inl ht) hf'
  · rename_i hds
    cases hadd : entry.addFirstSharer req.key.requester (cfg.getMaxHwSharers n) .modified with
    | error fault => simp [hadd, bind, Except.bind] at hr
    | ok entry' =>
      simp only [hadd, bind, Except.bind] at hr
      have hempty : entry.sharers = ∅ := h'.ok.uncached.mp hds
      have hj : Joins cfg (dir.setEntry entry) req entry' exRep :=
        .first hempty hadd (.inl ⟨rfl, .inr ⟨rfl, by simp [ht]⟩⟩)
      refine retrieveData_settled hnext h' hq hkind (.inl haway) hj ?_ hr
      intro _ _ hds'
      obtain ⟨-, -, rfl⟩ := addFirstSharer_ok hadd
      simp at hds'
  · cases hr

/-- The SHARED case of a SH_REQ. -/
theorem processShReqShared_settled (hnext : NextOk race cfg s next)
    (h : Good race cfg s .idle (dir.setEntry entry)) (hq : dir.queue = req :: rest)
    (ht : req.key.msgType = shReq) (hds : entry.dstate = .shared)
    (hf : ForwarderOk cfg (dir.setEntry entry) ∨ buf.isSome = true ∧ entry.sharers.card ≤ 1)
    (hr : processShReqShared next cfg ch req buf entry (dir.setEntry entry) = .ok dir') :
    Settled race cfg s dir' := by
  have hkind : req.key.msgType.isRequest = true := by simp [ht, isRequest]
  have hne : entry.sharers ≠ ∅ := fun he => by
    have := h.ok.uncached.mpr he
    simp [hds] at this
  have hfwd : buf = none → ForwarderOk cfg (dir.setEntry entry) := fun hb => by
    rcases hf with hf | ⟨hb', -⟩
    · exact hf
    · simp [hb] at hb'
  unfold processShReqShared at hr
  split at hr
  · rename_i hmem
    have hmem' : req.key.requester ∈ entry.sharers := by
      simpa [DirectoryEntry.hasSharer] using hmem
    -- the requester is a sharer already: the request was forwarded before
    have hflag : req.Flagged := by
      by_contra hflag
      exact h.requester_away hq hkind (by simp [ht]) hflag hmem'
    have hlimit : 2 ≤ cfg.getMaxHwSharers n := by
      obtain ⟨hw, hf | ⟨-, -, -, hl⟩⟩ := h.head hq
      · simp [ShmemReq.Flagged, hw, hf] at hflag
      · exact hl
    have hj : Joins cfg (dir.setEntry entry) req entry shRep :=
      ⟨(Finset.insert_eq_self.mpr hmem').symm, fun _ _ _ => rfl, by simp [hds], h.ok.limit,
        .inr ⟨rfl, hds, ht⟩⟩
    exact retrieveData_settled hnext h hq hkind (.inr hflag) hj
      (fun hb hm hd => ⟨hlimit, hfwd hb hm hd hlimit⟩) hr
  · rename_i hmem
    have haway : req.key.requester ∉ entry.sharers := by
      simpa [DirectoryEntry.hasSharer] using hmem
    have hflag := h.not_flagged hq (.inr haway)
    cases hadd : entry.addSharer req.key.requester (cfg.getMaxHwSharers n) with
    | error fault => simp [hadd, bind, Except.bind] at hr
    | ok result =>
      obtain ⟨-, ⟨hfull, rfl⟩ | ⟨hlt, rfl⟩⟩ := addSharer_ok hadd
      · cases hone : entry.getOneSharer ch.oneSharer with
        | error fault => simp [hadd, hone, bind, Except.bind] at hr
        | ok p =>
          simp only [hadd, hone, bind, Except.bind, Except.ok.injEq] at hr
          subst hr
          have hp := getOneSharer_ok hone
          refine ⟨.invSome p, ?_, by simp, ?_⟩
          · refine h.invalidate (l := [p]) (g := fun _ => invReq) hq hflag
              (.invSome ht hflag hds hp) hds (by simp) (List.nodup_singleton p) ?_
              (fun _ _ => .inl rfl) (fun _ => rfl) ?_
            · intro c hc
              rw [List.mem_singleton.mp hc]
              exact hp
            · intro c _ hc hm
              exact hc (by simpa [Wait.mustInv, eq_comm] using hm)
          · rcases hf with hf | ⟨-, hcard⟩
            · exact hf
            · intro _ _ hlimit
              omega
      · simp only [hadd, bind, Except.bind] at hr
        have hlimit : 2 ≤ cfg.getMaxHwSharers n := by
          have := Finset.card_pos.mpr (Finset.nonempty_iff_ne_empty.mpr hne)
          omega
        have hj : Joins cfg (dir.setEntry entry) req
            { entry with sharers := insert req.key.requester entry.sharers } shRep := by
          refine ⟨rfl, fun _ _ _ => rfl, by simp [hds], ?_, .inr ⟨rfl, hds, ht⟩⟩
          show (insert req.key.requester entry.sharers).card ≤ _
          rw [Finset.card_insert_of_notMem haway]
          omega
        exact retrieveData_settled hnext h hq hkind (.inl haway) hj
          (fun hb hm hd => ⟨hlimit, hfwd hb hm hd hlimit⟩) hr

theorem processShReq_settled (hnext : NextOk race cfg s next) (h : Good race cfg s .idle dir)
    (hq : dir.queue = req :: rest) (ht : req.key.msgType = shReq)
    (hf : ForwarderOk cfg dir ∨ buf.isSome = true ∧ dir.sharers.card ≤ 1)
    (hr : processShReqFromL2Cache next cfg ch req buf dir = .ok dir') :
    Settled race cfg s dir' := by
  have h' := h.allocate ch
  have hf' : ForwarderOk cfg (dir.setEntry (dir.getOrAllocate ch)) ∨
      buf.isSome = true ∧ (dir.getOrAllocate ch).sharers.card ≤ 1 := by
    rcases hf with hf | ⟨hb, hcard⟩
    · exact .inl (hf.allocate ch)
    · exact .inr ⟨hb, (getOrAllocate_sharers dir ch).symm ▸ hcard⟩
  have hkind : req.key.msgType.isRequest = true := by simp [ht, isRequest]
  have hunflagged : dir.dstate ≠ .shared → ¬req.Flagged := by
    intro hds
    obtain ⟨hw, hf | ⟨-, hd, -⟩⟩ := h.head hq
    · simp [ShmemReq.Flagged, hw, hf]
    · exact absurd hd hds
  rw [← getOrAllocate_dstate dir ch] at hunflagged
  unfold processShReqFromL2Cache at hr
  generalize dir.getOrAllocate ch = entry at h' hf' hr hunflagged
  dsimp only at hr
  split at hr
  · rename_i hds
    split at hr
    · cases hr
    · split at hr
      · cases hr
      · exact askOwner_settled h' hq (hunflagged (by simp [hds])) (.inl hds) (.inr ⟨rfl, ht⟩) hr
  · rename_i hds
    split at hr
    · cases hr
    · exact askOwner_settled h' hq (hunflagged (by simp [hds])) (.inr hds) (.inr ⟨rfl, ht⟩) hr
  · rename_i hds
    exact processShReqShared_settled hnext h' hq ht hds hf' hr
  · rename_i hds
    have hempty : entry.sharers = ∅ := h'.ok.uncached.mp hds
    have haway : req.key.requester ∉ entry.sharers := by simp [hempty]
    split at hr
    · rename_i hproto
      cases hadd : entry.addFirstSharer req.key.requester (cfg.getMaxHwSharers n) .shared with
      | error fault => simp [hadd, bind, Except.bind] at hr
      | ok entry' =>
        simp only [hadd, bind, Except.bind] at hr
        exact retrieveData_settled hnext h' hq hkind (.inl haway)
          (.first hempty hadd (.inr ⟨rfl, rfl, ht⟩)) (fun _ hm => by simp [hproto] at hm) hr
    all_goals
      cases hadd : entry.addFirstSharer req.key.requester (cfg.getMaxHwSharers n) .exclusive with
      | error fault => simp [hadd, bind, Except.bind] at hr
      | ok entry' =>
        simp only [hadd, bind, Except.bind] at hr
        refine retrieveData_settled hnext h' hq hkind (.inl haway)
          (.first hempty hadd (.inl ⟨rfl, .inl ⟨rfl, ht⟩⟩)) ?_ hr
        intro _ _ hds'
        obtain ⟨-, -, rfl⟩ := addFirstSharer_ok hadd
        simp at hds'
  · cases hr

/-- The UPGRADE_REQ of the only sharer is granted and leaves the queue. -/
theorem Good.grantUpgrade (entry : DirectoryEntry n) (h : Good race cfg s .idle dir) (hq : dir.queue = req :: rest)
    (ht : req.key.msgType = upgradeReq) (hds : dir.dstate = .shared)
    (hsh : dir.sharers = {req.key.requester}) (hup : UpgradeOk race s dir)
    (hds' : entry.dstate = .modified) (hsh' : entry.sharers = {req.key.requester})
    (how' : entry.owner = some req.key.requester) :
    Good race cfg s .idle ⟨some entry, rest,
      dir.log ++ [.send req.key.requester ⟨upgradeRep, none⟩] ++ [.dequeue req.key]⟩ ∧
      queuedBy req.key.requester rest = [] := by
  have hkind : req.key.msgType.isRequest = true := by simp [ht, isRequest]
  have hflag := h.not_flagged hq (.inl (by simp [ht]))
  have htail : ∀ r ∈ rest, r.key.msgType.isRequest = true ∧ r.Fresh := by
    simpa [hq] using h.ok.tail
  have hqueued : (demand dir .idle req.key.requester).queued =
      upgradeReq :: queuedBy req.key.requester rest := by
    rw [demand_queued, hq, queuedBy_cons_self rfl (not_nullify hkind), ht]
  have hnil := ((h.shapes req.key.requester).of_queued hqueued).1
  have hadd : ∀ c, ¬addedBy c dir.queue := not_added (by grind)
  refine ⟨⟨⟨?_, ?_, ?_, ?_, ?_, ?_, fun _ => rfl⟩, ?_, ?_⟩, hnil⟩
  · show entry.dstate ≠ .owned
    simp [hds']
  · show entry.dstate = .uncached ↔ entry.sharers = ∅
    simp [hds', hsh']
  · intro _
    exact ⟨req.key.requester, how', hsh'⟩
  · show entry.sharers.card ≤ _
    rw [hsh', ← hsh]
    exact h.ok.limit
  · exact fun r hr => htail r (List.mem_of_mem_tail hr)
  · rintro r rest' rfl
    have := htail r (by simp)
    exact .fresh this.1 this.2
  · intro c
    show Shape race _ (s.view (dir.log ++ [_] ++ [_]) c)
    rw [view_same (by simp)]
    by_cases hc : c = req.key.requester
    · subst hc
      rw [view_push (by rw [sentTo_send, if_pos rfl])]
      refine (h.shapes req.key.requester).grantUpgrade ?_ (hadd _) (by rw [hqueued, hnil])
        (calm_idle _ _) ?_ (addedBy_fresh htail _) hnil (calm_idle _ _) hds' ?_
      · show req.key.requester ∈ dir.sharers
        simp [hsh]
      · show req.key.requester ∈ entry.sharers
        simp [hsh']
      · exact hup req rest hq ht hds hsh
    · rw [view_same (by rw [sentTo_send, if_neg (Ne.symm hc)])]
      refine (h.shapes c).of_not_held ?_ ?_ (addedBy_fresh htail c) ?_
      · show c ∉ dir.sharers
        simpa [hsh] using hc
      · show c ∉ entry.sharers
        simpa [hsh'] using hc
      · show queuedBy c rest = queuedBy c dir.queue
        rw [hq, queuedBy_cons_ne (.inl (Ne.symm hc))]
  · rw [reads_append, reads_append, h.reads]
    simp

theorem UpgradeOk.allocate (h : UpgradeOk race s dir) (ch : Choice D n) :
    UpgradeOk race s (dir.setEntry (dir.getOrAllocate ch)) := by
  intro req rest hq ht hds hsh
  exact h req rest hq ht ((getOrAllocate_dstate dir ch).symm.trans hds)
    ((getOrAllocate_sharers dir ch).symm.trans hsh)

/-- The owner is asked for its data: it never asks for an upgrade itself. -/
theorem processUpgradeReqOwned_settled (h : Good race cfg s .idle (dir.setEntry entry))
    (hq : dir.queue = req :: rest) (ht : req.key.msgType = upgradeReq) (hflag : ¬req.Flagged)
    (hds : entry.dstate = .exclusive ∨ entry.dstate = .modified)
    (hr : processUpgradeReqOwned next req.key.requester entry (dir.setEntry entry) = .ok dir') :
    Settled race cfg s dir' := by
  obtain ⟨o, -, hsh⟩ := h.ok.owner hds
  have hsh : entry.sharers = {o} := hsh
  unfold processUpgradeReqOwned at hr
  rw [(getSharersList_eq_singleton entry o).mpr hsh] at hr
  dsimp only at hr
  split at hr
  · -- a queued UPGRADE_REQ of a sharer is about a SHARED line
    rename_i ho
    have hkind : req.key.msgType.isRequest = true := by simp [ht, isRequest]
    have hqueued : (demand (dir.setEntry entry) .idle req.key.requester).queued =
        upgradeReq :: queuedBy req.key.requester rest := by
      show queuedBy _ dir.queue = _
      rw [hq, queuedBy_cons_self rfl (not_nullify hkind), ht]
    have hnil := ((h.shapes req.key.requester).of_queued hqueued).1
    have hadd : ¬addedBy req.key.requester dir.queue := by
      rw [hq]
      exact fun ha => hflag ha.1
    have hshared : entry.dstate = .shared := (h.shapes req.key.requester).upgrade_shared
      (show req.key.requester ∈ entry.sharers by simp [hsh, ho]) hadd (by rw [hqueued, hnil])
      (calm_idle _ _)
    rcases hds with hds | hds <;> simp [hds] at hshared
  · exact askOwner_settled h hq hflag hds (.inl ⟨rfl, .inr (.inl ht)⟩) hr

theorem processUpgradeReq_settled (hnext : NextOk race cfg s next) (h : Good race cfg s .idle dir)
    (hq : dir.queue = req :: rest) (ht : req.key.msgType = upgradeReq)
    (hf : ForwarderOk cfg dir) (hup : UpgradeOk race s dir)
    (hr : processUpgradeReqFromL2Cache next cfg ch req buf dir = .ok dir') :
    Settled race cfg s dir' := by
  have h' := h.allocate ch
  have hf' := hf.allocate ch
  have hup' := hup.allocate ch
  have hkind : req.key.msgType.isRequest = true := by simp [ht, isRequest]
  have hflag := h.not_flagged hq (.inl (by simp [ht]))
  unfold processUpgradeReqFromL2Cache at hr
  generalize dir.getOrAllocate ch = entry at h' hf' hup' hr
  dsimp only at hr
  split at hr
  · rename_i hds
    exact processUpgradeReqOwned_settled h' hq ht hflag (.inl hds) hr
  · rename_i hds
    exact processUpgradeReqOwned_settled h' hq ht hflag (.inr hds) hr
  · rename_i hds
    split at hr
    · rename_i hlist
      have hsh : entry.sharers = {req.key.requester} :=
        (getSharersList_eq_singleton entry _).mp hlist
      have hmem : req.key.requester ∈ entry.sharers := by simp [hsh]
      simp only [DirectoryEntry.setOwner, hmem, if_true, bind, Except.bind] at hr
      obtain ⟨hgrant, hnil⟩ := h'.grantUpgrade { entry with
        owner := some req.key.requester, dstate := .modified } hq ht hds hsh hup' rfl hsh rfl
      refine hnext ((dir.setEntry { entry with
        owner := some req.key.requester, dstate := .modified }).sendMsg req.key.requester upgradeRep
          none) req rest dir' hq hgrant ?_ (upgradeOk_of_other hmem hnil) hr
      intro _ hds'
      cases hds'
    · rename_i hlist
      cases hr
      obtain ⟨l, g, heq, hnodup, hmem, hg⟩ := upgradeTargets_eq entry req.key.requester
      rw [heq]
      refine ⟨.invOthers req.key.requester, ?_, by simp, hf'⟩
      refine h'.invalidate hq hflag (.invOthers ht hflag hds ?_) hds (by simp) hnodup
        (fun c hc => ((hmem c).mp hc).1) (fun c hc => hg c hc) (fun _ => rfl) ?_
      · exact mt (getSharersList_eq_singleton entry _).mpr hlist
      · intro c hc hnot hm
        exact hnot ((hmem c).mpr ⟨hc, hm⟩)
  · rename_i hds
    split at hr
    · cases hr
    · have hempty : entry.sharers = ∅ := h'.ok.uncached.mp hds
      cases hadd : entry.addFirstSharer req.key.requester (cfg.getMaxHwSharers n) .modified with
      | error fault => simp [hadd, bind, Except.bind] at hr
      | ok entry' =>
        simp only [hadd, bind, Except.bind] at hr
        refine retrieveData_settled hnext h' hq hkind (.inl (by simp [hempty]))
          (.first hempty hadd (.inl ⟨rfl, .inr ⟨rfl, by simp [ht]⟩⟩)) ?_ hr
        intro _ _ hds'
        obtain ⟨-, -, rfl⟩ := addFirstSharer_ok hadd
        simp at hds'
  · cases hr

theorem processNullifyReq_settled (hnext : NextOk race cfg s next) (h : Good race cfg s .idle dir)
    (hq : dir.queue = req :: rest) (ht : req.key.msgType = nullifyReq)
    (hf : ForwarderOk cfg dir) (hr : processNullifyReq next dir = .ok dir') :
    Settled race cfg s dir' := by
  have hflag := h.not_flagged hq (.inl (by simp [ht]))
  unfold processNullifyReq at hr
  split at hr
  · cases hr
  · rename_i entry he
    have hdir : dir = dir.setEntry entry := by
      cases dir
      simp only at he
      simp [DramDirectory.setEntry, he]
    rw [hdir] at h hf hr
    split at hr
    · rename_i hds
      exact askOwner_settled h hq hflag (.inl hds) (.inl ⟨rfl, .inr (.inr ht)⟩) hr
    · rename_i hds
      exact askOwner_settled h hq hflag (.inr hds) (.inl ⟨rfl, .inr (.inr ht)⟩) hr
    · rename_i hds
      cases hr
      exact invalidateAll_settled h hq hflag hds (.inr ht) hf
    · rename_i hds
      have hempty : entry.sharers = ∅ := h.ok.uncached.mp hds
      have htail : ∀ r ∈ rest, r.key.msgType.isRequest = true ∧ r.Fresh := by
        have := h.ok.tail
        simpa [hq] using this
      refine hnext { dir.setEntry entry with entry := none } req rest dir' hq
        ⟨⟨by simp [DramDirectory.dstate], ?_, ?_, ?_, ?_, ?_, fun _ => rfl⟩, ?_, ?_⟩ ?_ ?_ hr
      · exact iff_of_true rfl rfl
      · intro hds'
        rcases hds' with hds' | hds' <;> cases hds'
      · exact Nat.zero_le _
      · exact fun r hr => htail r (List.mem_of_mem_tail hr)
      · rintro r rest' hrest
        have := htail r (by
          have : rest = r :: rest' := hrest
          simp [this])
        exact .fresh this.1 this.2
      · intro c
        show Shape race _ (s.view (dir.log ++ [_]) c)
        rw [view_same (by simp)]
        refine (h.shapes c).of_not_held ?_ ?_ (addedBy_fresh htail c) ?_
        · show c ∉ entry.sharers
          simp [hempty]
        · exact Finset.notMem_empty c
        · show queuedBy c rest = queuedBy c dir.queue
          rw [hq, queuedBy_cons_ne (.inr ht)]
      · rw [DramDirectory.emit_log, reads_append]
        exact h.reads
      · intro _ hds'
        cases hds'
      · intro _ _ _ _ hds'
        cases hds'
    · cases hr

end Handlers

section Next

theorem dispatchReq_settled {next : DramDirectory D n → Except Fault (DramDirectory D n)}
    (hnext : NextOk race cfg s next) (h : Good race cfg s .idle dir)
    (hq : dir.queue = req :: rest) (hf : ForwarderOk cfg dir) (hup : UpgradeOk race s dir)
    (hr : dispatchReq next cfg ch req dir = .ok dir') : Settled race cfg s dir' := by
  have h' : Good race cfg s .idle (dir.emit (.dispatch req.key)) :=
    h.emit _ (fun _ => rfl) rfl
  have hup' : UpgradeOk race s (dir.emit (.dispatch req.key)) := by
    intro req' rest' hq' ht hds hsh
    rw [DramDirectory.emit_log, view_same (by rfl)]
    exact hup req' rest' hq' ht hds hsh
  unfold dispatchReq at hr
  dsimp only at hr
  split at hr
  · rename_i ht
    exact processExReq_settled hnext h' hq ht hf hr
  · rename_i ht
    exact processShReq_settled hnext h' hq ht (.inl hf) hr
  · rename_i ht
    exact processUpgradeReq_settled hnext h' hq ht hf hup' hr
  · cases hr

/-- Ending a request keeps the invariant, however many of the requests behind it are
answered at once. -/
theorem processNextFuel_ok (fuel : Nat) :
    NextOk race cfg s (processNextReqFromL2CacheFuel cfg ch fuel) := by
  induction fuel with
  | zero =>
    intro dir req rest dir' _ _ _ _ hr
    cases hr
  | succ fuel ih =>
    intro dir req rest dir' hq h hf hup hr
    unfold processNextReqFromL2CacheFuel at hr
    simp only [hq] at hr
    split at hr
    · cases hr
      exact ⟨.idle, h, fun _ => rfl, hf⟩
    · exact dispatchReq_settled ih h rfl hf hup hr

theorem processNext_ok : NextOk race cfg s (processNextReqFromL2Cache cfg ch) := by
  intro dir req rest dir' hq h hf hup hr
  exact processNextFuel_ok dir.queue.length dir req rest dir' hq h hf hup hr

end Next

end Sniper.Coherence
