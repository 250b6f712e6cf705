import Sniper.Coherence.Shape
set_option autoImplicit false

namespace Sniper.Coherence

open MsgType

namespace Shape

variable {race : Prop} {q : Demand} {v v' : View} {t : MsgType}

theorem idle_or_pending (h : Shape race q v) : v.Idle ∨ v.Pending := by
  cases h with
  | away _ _ _ _ hstage =>
    cases hstage with
    | none _ _ hi => exact .inl hi
    | sentEx _ _ hp => exact .inr hp.pending
    | sentSh _ _ hp => exact .inr hp
    | waits _ _ _ hp => exact .inr hp
  | added _ _ _ _ _ _ _ hp => exact .inr hp
  | granted _ _ _ _ _ hp => exact .inr hp
  | holding _ _ _ hi => exact .inl hi
  | upgrading _ _ _ hp => exact .inr hp.pending
  | upgraded _ _ _ hp => exact .inr hp.pending
  | leaving _ _ _ _ _ _ _ _ _ _ hstage =>
    cases hstage with
    | none _ _ hi => exact .inl hi
    | sentEx _ _ hp => exact .inr hp.pending
    | sentSh _ _ hp => exact .inr hp
  | leavingUpgrade _ _ _ _ _ _ _ _ hp => exact .inr hp.pending
  | doomed _ _ _ _ _ _ hp => exact .inr hp.pending

theorem not_serving (h : Shape race q v) (hw : v.waiters = []) : v.serving = false := by
  rcases h.idle_or_pending with hi | hp
  · exact hi.mp hw
  · exact absurd hw hp.1

/-- The waiters may change while the line and the channels do not. -/
theorem rewait (h : Shape race q v) (hc : v'.cstate = v.cstate) (hup : v'.up = v.up)
    (hdn : v'.dn = v.dn) (hidle : v.Idle → v'.Idle) (hpd : v.Pending → v'.Pending)
    (hex : v.PendingExclusive → v'.PendingExclusive) : Shape race q v' := by
  cases h with
  | away hh ha hcs hn hstage =>
    refine .away hh ha (hc.trans hcs) (hdn ▸ hn) ?_
    cases hstage with
    | none hu hq hi => exact .none (hup.trans hu) hq (hidle hi)
    | sentEx hu hq hp => exact .sentEx (hup.trans hu) hq (hex hp)
    | sentSh hu hq hp => exact .sentSh (hup.trans hu) hq (hpd hp)
    | waits t hu hq hp he => exact .waits t (hup.trans hu) hq (hpd hp) fun ht => hex (he ht)
  | added hh ha hcs hu hn t hq hp he =>
    exact .added hh ha (hc.trans hcs) (hup.trans hu) (hdn ▸ hn) t hq (hpd hp)
      fun ht => hex (he ht)
  | granted hh ha hcs hu hq hp pre tail t hd hn hasks hfits =>
    exact .granted hh ha (hc.trans hcs) (hup.trans hu) hq (hpd hp) pre tail t (hdn.trans hd) hn
      hasks (hfits.mono hex)
  | holding hh ha hq hi wb hu hasks hfits =>
    exact .holding hh ha hq (hidle hi) wb (hup.trans hu) (hdn ▸ hasks) (hdn ▸ hc ▸ hfits)
  | upgrading hh ha hcs hp wb hasks hs hstage =>
    refine .upgrading hh ha (hc.trans hcs) (hex hp) wb (hdn ▸ hasks) hs ?_
    cases hstage with
    | sent hu hq => exact .sent (hup.trans hu) hq
    | sentBefore hu hb hq => exact .sentBefore (hup.trans hu) hb hq
    | waits hu hq => exact .waits (hup.trans hu) hq
  | upgraded hh ha hcs hp hu hq hds pre tail hd hi hr hasks hni =>
    exact .upgraded hh ha (hc.trans hcs) (hex hp) (hup.trans hu) hq hds pre tail (hdn.trans hd) hi
      hr hasks hni
  | leaving hh ha hcs hn wb t ht hwb hcl hdt hstage =>
    refine .leaving hh ha (hc.trans hcs) (hdn ▸ hn) wb t ht hwb hcl hdt ?_
    cases hstage with
    | none hu hq hi => exact .none (hup.trans hu) hq (hidle hi)
    | sentEx hu hq hp => exact .sentEx (hup.trans hu) hq (hex hp)
    | sentSh hu hq hp => exact .sentSh (hup.trans hu) hq (hpd hp)
  | leavingUpgrade hh ha hcs hn t ht hf hs hp hstage =>
    refine .leavingUpgrade hh ha (hc.trans hcs) (hdn ▸ hn) t ht hf hs (hex hp) ?_
    cases hstage with
    | sent hu hq => exact .sent (hup.trans hu) hq
    | waits hu hq => exact .waits (hup.trans hu) hq
  | doomed hr hh ha hcs hu hq hp hds pre tail hd hn hn' =>
    exact .doomed hr hh ha (hc.trans hcs) (hup.trans hu) hq (hex hp) hds pre tail (hdn.trans hd)
      hn hn'

/-- The first waiter of a cache without a copy sends its request. -/
theorem request (h : Shape race q v) (hcs : v.cstate = .invalid) (hw : v.waiters = [])
    (hc : v'.cstate = .invalid) (hdn : v'.dn = v.dn) (hup : v'.up = v.up ++ [t])
    (ht : t = exReq ∧ v'.PendingExclusive ∨ t = shReq ∧ v'.Pending) : Shape race q v' := by
  cases h with
  | away hh ha _ hn hstage =>
    refine .away hh ha hc (hdn ▸ hn) ?_
    cases hstage with
    | none hu hq _ =>
      rcases ht with ⟨rfl, hp⟩ | ⟨rfl, hp⟩
      · exact .sentEx (by simp [hup, hu]) hq hp
      · exact .sentSh (by simp [hup, hu]) hq hp
    | sentEx _ _ hp => exact absurd hw hp.pending.1
    | sentSh _ _ hp => exact absurd hw hp.1
    | waits _ _ _ hp => exact absurd hw hp.1
  | leaving hh ha _ hn wb u hu hwb hcl hdt hstage =>
    refine .leaving hh ha hc (hdn ▸ hn) wb u hu hwb hcl hdt ?_
    cases hstage with
    | none hu hq _ =>
      rcases ht with ⟨rfl, hp⟩ | ⟨rfl, hp⟩
      · exact .sentEx (by simp [hup, hu]) hq hp
      · exact .sentSh (by simp [hup, hu]) hq hp
    | sentEx _ _ hp => exact absurd hw hp.pending.1
    | sentSh _ _ hp => exact absurd hw hp.1
  | added _ _ _ _ _ _ _ hp => exact absurd hw hp.1
  | granted _ _ _ _ _ hp => exact absurd hw hp.1
  | holding _ _ _ _ _ _ _ hfits => simpa [hcs] using hfits.isCopy
  | upgrading _ _ _ hp => exact absurd hw hp.pending.1
  | upgraded _ _ _ hp => exact absurd hw hp.pending.1
  | leavingUpgrade _ _ _ _ _ _ _ _ hp => exact absurd hw hp.pending.1
  | doomed _ _ _ _ _ _ hp => exact absurd hw hp.pending.1

/-- A copy that is not being upgraded is in the one shape for it. -/
theorem copy (h : Shape race q v) (hi : v.cstate ≠ .invalid) (hu : v.cstate ≠ .sharedUpgrading) :
    q.held ∧ ¬q.added ∧ q.queued = [] ∧ v.Idle ∧
      ∃ wb, v.up = wbPart wb ∧ Asks q wb v.dn ∧ CopyFits v.dn wb q.dstate v.cstate := by
  cases h with
  | holding hh ha hq hidle wb hup hasks hfits => exact ⟨hh, ha, hq, hidle, wb, hup, hasks, hfits⟩
  | away _ _ hc => exact absurd hc hi
  | added _ _ hc => exact absurd hc hi
  | granted _ _ hc => exact absurd hc hi
  | upgrading _ _ hc => exact absurd hc hu
  | upgraded _ _ hc => exact absurd hc hu
  | leaving _ _ hc => exact absurd hc hi
  | leavingUpgrade _ _ hc => exact absurd hc hi
  | doomed _ _ _ hc => exact absurd hc hi

/-- The first waiter of a SHARED copy asks to upgrade it. -/
theorem upgrade (h : Shape race q v) (hcs : v.cstate = .shared)
    (hc : v'.cstate = .sharedUpgrading) (hdn : v'.dn = v.dn) (hup : v'.up = v.up ++ [upgradeReq])
    (hp : v'.PendingExclusive) : Shape race q v' := by
  obtain ⟨hh, ha, hq, -, wb, hu, hasks, hfits⟩ := h.copy (by simp [hcs]) (by simp [hcs])
  refine .upgrading hh ha hc hp wb (hdn ▸ hasks) ?_ (.sent (by rw [hup, hu]) hq)
  exact fun hwb => (hcs ▸ hfits).down hwb

/-- The silent upgrade. -/
theorem toModified (h : Shape race q v) (hcs : v.cstate = .exclusive ∨ v.cstate = .modified) :
    Shape race q { v with cstate := .modified } := by
  obtain ⟨hh, ha, hq, hidle, wb, hu, hasks, hfits⟩ := h.copy (by grind) (by grind)
  exact .holding hh ha hq hidle wb hu hasks (hfits.writable hcs).2.2.2

/-- A copy is given up with a notice, by an eviction or on a demand. -/
theorem leave (h : Shape race q v) (hi : v.cstate ≠ .invalid) (hu : v.cstate ≠ .sharedUpgrading)
    (hc : v'.cstate = .invalid) (hdn : ∀ m ∈ v'.dn, m ∈ v.dn) (hup : v'.up = v.up ++ [t])
    (ht : t = invRep ∧ v.cstate ≠ .modified ∨
      t = flushRep ∧ (v.cstate = .modified ∨ flushReq ∈ v.dn))
    (hidle' : v.Idle → v'.Idle) : Shape race q v' := by
  obtain ⟨hh, ha, hq, hidle, wb, hu, hasks, hfits⟩ := h.copy hi hu
  refine .leaving hh ha hc (fun m hm => hasks.list.noise m (hdn m hm)) wb t (by grind) ?_ ?_ ?_
    (.none (by rw [hup, hu]) hq (hidle' hidle))
  · rintro rfl
    refine ⟨?_, hasks.wbIff.mpr (.inl rfl)⟩
    rcases ht with ⟨rfl, -⟩ | ⟨-, hm | hm⟩
    · rfl
    · simpa using (hfits.writable (.inr hm)).1
    · simp [hasks.wbLast rfl] at hm
  · rintro rfl hb
    exact hfits.clean (by simpa using ht) hb
  · rintro rfl
    rcases ht with ⟨hcon, -⟩ | ⟨-, hm | hm⟩
    · cases hcon
    · exact (hfits.writable (.inr hm)).2.2.1.imp id .inl
    · exact .inr (.inr (hasks.flush hm))

/-- A demand that finds no copy is dropped. -/
theorem ignore {dn : List MsgType} (h : Shape race q v) (hcs : v.cstate = .invalid)
    (hdn : v.dn = t :: dn) (ht : t.isDemand = true) : Shape race q { v with dn := dn } := by
  have hnoise : ∀ {pre tail : List MsgType} {u : MsgType}, v.dn = pre ++ u :: tail →
      u.isDemand = false → Noise pre → ∃ pre', dn = pre' ++ u :: tail ∧ Noise pre' := by
    intro pre tail u hd hu hn
    cases pre with
    | nil => simp_all
    | cons m pre =>
      rw [hdn] at hd
      simp only [List.cons_append, List.cons.injEq] at hd
      exact ⟨pre, hd.2, hn.tail⟩
  cases h with
  | away hh ha _ hn hstage =>
    refine .away hh ha hcs (hdn ▸ hn : Noise (t :: dn)).tail ?_
    cases hstage with
    | none hu hq hi => exact .none hu hq hi
    | sentEx hu hq hp => exact .sentEx hu hq hp
    | sentSh hu hq hp => exact .sentSh hu hq hp
    | waits t hu hq hp he => exact .waits t hu hq hp he
  | added hh ha _ hu hn t hq hp he =>
    exact .added hh ha hcs hu (hdn ▸ hn : Noise (_ :: dn)).tail t hq hp he
  | granted hh ha _ hu hq hp pre tail u hd hn hasks hfits =>
    obtain ⟨pre', hd', hn'⟩ := hnoise hd hfits.notDemand hn
    exact .granted hh ha hcs hu hq hp pre' tail u hd' hn' hasks (hfits.mono id)
  | holding _ _ _ _ _ _ _ hfits => simpa [hcs] using hfits.isCopy
  | upgrading _ _ hc => simp [hcs] at hc
  | upgraded _ _ hc => simp [hcs] at hc
  | leaving hh ha _ hn wb u hu hwb hcl hdt hstage =>
    refine .leaving hh ha hcs (hdn ▸ hn : Noise (_ :: dn)).tail wb u hu hwb hcl hdt ?_
    cases hstage with
    | none hu hq hi => exact .none hu hq hi
    | sentEx hu hq hp => exact .sentEx hu hq hp
    | sentSh hu hq hp => exact .sentSh hu hq hp
  | leavingUpgrade hh ha _ hn u hu hf hs hp hstage =>
    refine .leavingUpgrade hh ha hcs (hdn ▸ hn : Noise (_ :: dn)).tail u hu hf hs hp ?_
    cases hstage with
    | sent hu hq => exact .sent hu hq
    | waits hu hq => exact .waits hu hq
  | doomed hr hh ha _ hu hq hp hds pre tail hd hn hn' =>
    obtain ⟨pre', hd', hn''⟩ := hnoise hd rfl hn
    exact .doomed hr hh ha hcs hu hq hp hds pre' tail hd' hn'' hn'

/-- An upgrading cache loses its copy to a demand. -/
theorem leaveUpgrading {dn : List MsgType} (h : Shape race q v)
    (hcs : v.cstate = .sharedUpgrading) (hdn : v.dn = t :: dn) {notice : MsgType}
    (ht : t = invReq ∧ notice = invRep ∨ t = flushReq ∧ notice = flushRep) :
    Shape race q { v with cstate := .invalid, dn := dn, up := v.up ++ [notice] } := by
  cases h with
  | upgrading hh ha _ hp wb hasks hs hstage =>
    have hwb : wb = false := by
      cases wb
      · rfl
      · simp [hdn] at hasks; exact absurd (hasks.wbLast rfl) (by simp)
    subst hwb
    refine .leavingUpgrade hh ha rfl (fun m hm => hasks.list.noise m (by simp_all)) notice
      (by grind) ?_ (hs rfl) hp ?_
    · rintro rfl
      exact hasks.flush (by grind)
    · cases hstage with
      | sent hu hq => exact .sent (by simp [hu, wbPart]) hq
      | sentBefore _ hb => simp at hb
      | waits hu hq => exact .waits (by simp [hu, wbPart]) hq
  | upgraded hh ha _ hp hu hq hds pre tail hd hi hr hasks hni =>
    cases pre with
    | nil => grind
    | cons m pre =>
      rw [hdn] at hd
      simp only [List.cons_append, List.cons.injEq] at hd
      have hm := hi m (by simp)
      obtain ⟨rfl, rfl⟩ : t = invReq ∧ notice = invRep := by grind
      refine .doomed (hr (by simp)) hh ha rfl (by simp [hu]) hq hp hds pre tail hd.2 ?_
        hasks.list.noise
      intro u hu
      rw [hi u (by simp [hu])]
      rfl
  | away _ _ hc => simp [hcs] at hc
  | added _ _ hc => simp [hcs] at hc
  | granted _ _ hc => simp [hcs] at hc
  | holding _ _ _ _ _ _ _ hfits => simpa [hcs] using hfits.isCopy
  | leaving _ _ hc => simp [hcs] at hc
  | leavingUpgrade _ _ hc => simp [hcs] at hc
  | doomed _ _ _ hc => simp [hcs] at hc

end Shape

/-- The WB_REQ at the head is the last demand, and its answer takes its place. -/
theorem Asks.answer {q : Demand} {wb : Bool} {dn : List MsgType} (h : Asks q wb (wbReq :: dn)) :
    wb = false ∧ dn = [] ∧ Asks q true [] := by
  have hasked : q.asked = some wbReq := h.wbIff.mpr (.inr (by simp))
  have hdn : dn = [] := h.list.cons_wb
  subst hdn
  refine ⟨?_, rfl, .nil, by simp [hasked], by simp, by simp, by simp [hasked], ?_, by simp⟩
  · cases wb
    · rfl
    · exact absurd (h.wbLast rfl) (by simp)
  · intro hm
    rcases h.inv hm with hi | hi <;> simp at hi

namespace Shape

variable {race : Prop} {q : Demand} {v : View}

/-- A copy is downgraded by a WB_REQ. -/
theorem writeBack {dn : List MsgType} (h : Shape race q v) (hi : v.cstate ≠ .invalid)
    (hu : v.cstate ≠ .sharedUpgrading) (hdn : v.dn = wbReq :: dn) :
    Shape race q { v with cstate := .shared, dn := dn, up := v.up ++ [wbRep] } := by
  obtain ⟨hh, ha, hq, hidle, wb, hu, hasks, hfits⟩ := h.copy hi hu
  rw [hdn] at hasks
  obtain ⟨rfl, rfl, hanswer⟩ := hasks.answer
  exact .holding hh ha hq hidle true (by simp [hu, wbPart]) hanswer (.shared (by simp))

/-- An upgrading copy answers a WB_REQ and stays. -/
theorem writeBackUpgrading {dn : List MsgType} (h : Shape race q v)
    (hcs : v.cstate = .sharedUpgrading) (hdn : v.dn = wbReq :: dn) :
    Shape race q { v with dn := dn, up := v.up ++ [wbRep] } := by
  cases h with
  | upgrading hh ha _ hp wb hasks hs hstage =>
    rw [hdn] at hasks
    obtain ⟨rfl, rfl, hanswer⟩ := hasks.answer
    refine .upgrading hh ha hcs hp true hanswer (by simp) ?_
    cases hstage with
    | sent hu hq => exact .sentBefore (by simp [hu, wbPart]) rfl hq
    | sentBefore _ hb => simp at hb
    | waits hu hq => exact .waits (by simp [hu, wbPart]) hq
  | upgraded _ _ _ _ _ _ _ pre tail hd hi =>
    cases pre with
    | nil => simp [hdn] at hd
    | cons m pre =>
      rw [hdn] at hd
      simp only [List.cons_append, List.cons.injEq] at hd
      simpa [← hd.1] using hi m (by simp)
  | away _ _ hc => simp [hcs] at hc
  | added _ _ hc => simp [hcs] at hc
  | granted _ _ hc => simp [hcs] at hc
  | holding _ _ _ _ _ _ _ hfits => simpa [hcs] using hfits.isCopy
  | leaving _ _ hc => simp [hcs] at hc
  | leavingUpgrade _ _ hc => simp [hcs] at hc
  | doomed _ _ _ hc => simp [hcs] at hc

/-- A reply at the head of the channel is the one that was granted. -/
theorem reply {dn : List MsgType} {t : MsgType} (h : Shape race q v) (hdn : v.dn = t :: dn)
    (ht : t.isDemand = false) :
    (q.held ∧ ¬q.added ∧ v.cstate = .invalid ∧ v.up = [] ∧ q.queued = [] ∧ v.Pending ∧
        Asks q false dn ∧ GrantFits v dn q.dstate t) ∨
      (t = upgradeRep ∧ q.held ∧ ¬q.added ∧ v.cstate = .sharedUpgrading ∧ v.up = [] ∧
        q.queued = [] ∧ v.PendingExclusive ∧ q.dstate = .modified ∧ Asks q false dn ∧
        invReq ∉ dn) ∨
      (t = upgradeRep ∧ race ∧ v.cstate = .invalid) := by
  have hnoise : ¬Noise (t :: dn) := fun hn => by simpa [ht] using hn t (by simp)
  have hfirst : ∀ {pre tail : List MsgType} {u : MsgType}, v.dn = pre ++ u :: tail →
      Noise pre → u = t ∧ tail = dn ∧ pre = [] := by
    intro pre tail u hd hn
    cases pre with
    | nil => simp_all
    | cons m pre =>
      rw [hdn] at hd
      simp only [List.cons_append, List.cons.injEq] at hd
      exact absurd (hn m (by simp)) (by simp [← hd.1, ht])
  cases h with
  | away _ _ _ hn => exact absurd (hdn ▸ hn) hnoise
  | added _ _ _ _ hn => exact absurd (hdn ▸ hn) hnoise
  | granted hh ha hc hup hq hp pre tail u hd hn hasks hfits =>
    obtain ⟨rfl, rfl, -⟩ := hfirst hd hn
    exact .inl ⟨hh, ha, hc, hup, hq, hp, hasks, hfits⟩
  | holding _ _ _ _ _ _ hasks => exact absurd (hdn ▸ hasks.list.noise) hnoise
  | upgrading _ _ _ _ _ hasks => exact absurd (hdn ▸ hasks.list.noise) hnoise
  | upgraded hh ha hc hp hup hq hds pre tail hd hi _ hasks hni =>
    obtain ⟨rfl, rfl, -⟩ := hfirst hd fun u hu => by rw [hi u hu]; rfl
    exact .inr (.inl ⟨rfl, hh, ha, hc, hup, hq, hp, hds, hasks, hni⟩)
  | leaving _ _ _ hn => exact absurd (hdn ▸ hn) hnoise
  | leavingUpgrade _ _ _ hn => exact absurd (hdn ▸ hn) hnoise
  | doomed hr _ _ hc _ _ _ _ pre tail hd hn =>
    obtain ⟨rfl, -, -⟩ := hfirst hd hn
    exact .inr (.inr ⟨rfl, hr, hc⟩)

end Shape

namespace Shape

variable {D : Type} {race : Prop} {q : Demand} {cache cache' : Cache D}
variable {up dn sent : List (ShmemMsg D)}

/-- The loop over the waiters, on a line no reply is awaited for. -/
theorem serveWaiters (ws : List Bool) (hr : cache.serveWaiters = .ok (cache', sent))
    (h : Shape race q (.of { cache with waiters := ws, serving := true } up dn)) :
    Shape race q (.of cache' (up ++ sent) dn) := by
  have hpd : ¬(View.of { cache with waiters := ws, serving := true } up dn).Pending := by
    simp [View.of, View.Pending]
  have hex : ¬(View.of { cache with waiters := ws, serving := true } up dn).PendingExclusive :=
    fun he => hpd he.pending
  unfold Cache.serveWaiters at hr
  split at hr
  · rename_i hw
    cases hr
    exact h.rewait rfl (by simp [View.of]) rfl (by simp [View.of, View.Idle, hw])
      (absurd · hpd) (absurd · hex)
  · rename_i exclusive rest hw
    split at hr
    · rename_i hup
      simp only [Cache.processUpgradeReqToDirectory, hup.2] at hr
      cases hr
      exact h.upgrade hup.2 rfl rfl (by simp [View.of])
        (by simp [View.of, View.PendingExclusive, hw, hup.1])
    · split at hr
      · split at hr
        · rename_i hcs
          cases hr
          exact (h.toModified hcs).rewait rfl (by simp [View.of]) rfl
            (by simp [View.of, View.Idle, hw]) (by simp [View.of, View.Pending])
            (by simp [View.of, View.PendingExclusive])
        · cases hr
      · split at hr
        · cases hr
          exact h.rewait rfl (by simp [View.of]) rfl (by simp [View.of, View.Idle, hw])
            (absurd · hpd) (absurd · hex)
        · cases hr

theorem finishWaiter (h : Shape race q (.of cache up dn))
    (hr : cache.finishWaiter = .ok (cache', sent)) :
    Shape race q (.of cache' (up ++ sent) dn) := by
  unfold Cache.finishWaiter at hr
  split at hr
  · rename_i hs
    obtain ⟨cs, d, ws, serving⟩ := cache
    subst hs
    exact serveWaiters ws hr h
  · cases hr

/-- A line that is neither readable nor being upgraded is not there. -/
theorem invalid_of_not_readable (h : Shape race q (.of cache up dn)) (hw : cache.waiters = [])
    (hcs : cache.cstate.readable = false) : cache.cstate = .invalid := by
  cases hc : cache.cstate with
  | invalid => rfl
  | sharedUpgrading =>
    cases h with
    | upgrading _ _ _ hp => exact absurd hw hp.pending.1
    | upgraded _ _ _ hp => exact absurd hw hp.pending.1
    | away _ _ h => simp [View.of, hc] at h
    | added _ _ h => simp [View.of, hc] at h
    | granted _ _ h => simp [View.of, hc] at h
    | holding _ _ _ _ _ _ _ hfits => simpa [View.of, hc] using hfits.isCopy
    | leaving _ _ h => simp [View.of, hc] at h
    | leavingUpgrade _ _ h => simp [View.of, hc] at h
    | doomed _ _ _ h => simp [View.of, hc] at h
  | shared => simp [hc, CacheState.readable] at hcs
  | exclusive => simp [hc, CacheState.readable] at hcs
  | owned => simp [hc, CacheState.readable] at hcs
  | modified => simp [hc, CacheState.readable] at hcs

/-- A new waiter joins the queue, and sends the request when it is the first. -/
theorem initiateDirectoryAccess {exclusive : Bool} (h : Shape race q (.of cache up dn))
    (hcs : exclusive = false → cache.cstate.readable = false)
    (hr : cache.initiateDirectoryAccess exclusive = .ok (cache', sent)) :
    Shape race q (.of cache' (up ++ sent) dn) := by
  unfold Cache.initiateDirectoryAccess at hr
  split at hr
  · rename_i w ws hw
    cases hr
    exact h.rewait rfl (by simp [View.of]) rfl (by simp [View.of, View.Idle, hw])
      (by simp [View.of, View.Pending]) (by simp [View.of, View.PendingExclusive, hw])
  · rename_i hw
    have hserving : cache.serving = false := h.not_serving hw
    split at hr
    · rename_i hex
      subst hex
      split at hr
      · rename_i hsh
        simp only [Cache.processUpgradeReqToDirectory, hsh] at hr
        cases hr
        exact h.upgrade hsh rfl rfl (by simp [View.of])
          (by simp [View.of, View.PendingExclusive, hw, hserving])
      · simp only [Cache.processExReqToDirectory] at hr
        split at hr
        · rename_i hc
          cases hr
          exact h.request hc hw hc rfl (by simp [View.of])
            (.inl ⟨rfl, by simp [View.PendingExclusive, View.of, hw, hserving]⟩)
        · cases hr
    · rename_i hex
      have hc := h.invalid_of_not_readable hw (hcs (by simpa using hex))
      simp only [Cache.processShReqToDirectory] at hr
      cases hr
      exact h.request hc hw hc rfl (by simp [View.of])
        (.inr ⟨rfl, by simp [View.Pending, View.of, hserving]⟩)

theorem read (h : Shape race q (.of cache up dn)) (hr : cache.read = .ok (cache', sent)) :
    Shape race q (.of cache' (up ++ sent) dn) := by
  unfold Cache.read at hr
  split at hr
  · cases hr
    simpa using h
  · rename_i hcs
    exact h.initiateDirectoryAccess (fun _ => by simpa using hcs) hr

theorem write (h : Shape race q (.of cache up dn)) (hr : cache.write = .ok (cache', sent)) :
    Shape race q (.of cache' (up ++ sent) dn) := by
  unfold Cache.write at hr
  split at hr
  · cases hr
    simpa using h
  · split at hr
    · rename_i hcs
      cases hr
      simpa [View.of] using h.toModified (.inl hcs)
    · exact h.initiateDirectoryAccess (by simp) hr

theorem store {data : D} (h : Shape race q (.of cache up dn))
    (hr : cache.store data = .ok (cache', sent)) : Shape race q (.of cache' (up ++ sent) dn) := by
  unfold Cache.store at hr
  split at hr
  · cases hr
    simpa [View.of] using h
  · cases hr

theorem evict (h : Shape race q (.of cache up dn)) (hr : cache.evict = .ok (cache', sent)) :
    Shape race q (.of cache' (up ++ sent) dn) := by
  unfold Cache.evict at hr
  split at hr
  · cases hr
  · cases hr
  · rename_i hc
    cases hr
    exact h.leave (by simp [View.of, hc]) (by simp [View.of, hc]) rfl (fun _ => id)
      (by simp [View.of]) (.inr ⟨rfl, .inl hc⟩) id
  · rename_i hc
    cases hr
    exact h.leave (by simp [View.of, hc]) (by simp [View.of, hc]) rfl (fun _ => id)
      (by simp [View.of]) (.inl ⟨rfl, by simp [View.of, hc]⟩) id
  · rename_i hc
    cases hr
    exact h.leave (by simp [View.of, hc]) (by simp [View.of, hc]) rfl (fun _ => id)
      (by simp [View.of]) (.inl ⟨rfl, by simp [View.of, hc]⟩) id
  · cases hr

/-- An EX_REP installs the line EXCLUSIVE; an exclusive waiter modifies it at once. -/
theorem onExRep {v : View} {dn : List MsgType} (h : Shape race q v) (hdn : v.dn = exRep :: dn) :
    (v.PendingExclusive ∧ Shape race q { v with cstate := .modified, serving := true, dn := dn }) ∨
      Shape race q { v with cstate := .exclusive, serving := true, dn := dn } := by
  rcases h.reply hdn rfl with ⟨hh, ha, hc, hup, hq, hp, hasks, hfits⟩ | ⟨hcon, -⟩ | ⟨hcon, -⟩
  · have hidle : { v with serving := true }.Idle := by simpa [View.Idle] using hp.1
    generalize hds : q.dstate = ds at hfits
    cases hfits with
    | exclusive hi =>
      exact .inr (.holding hh ha hq hidle false hup hasks (hds ▸ .exclusive rfl hi))
    | modified hi hpe =>
      exact .inl ⟨hpe, .holding hh ha hq hidle false hup hasks (hds ▸ .modified rfl hi)⟩
  · cases hcon
  · cases hcon

theorem onShRep {v : View} {dn : List MsgType} (h : Shape race q v) (hdn : v.dn = shRep :: dn) :
    Shape race q { v with cstate := .shared, serving := true, dn := dn } := by
  rcases h.reply hdn rfl with ⟨hh, ha, hc, hup, hq, hp, hasks, hfits⟩ | ⟨hcon, -⟩ | ⟨hcon, -⟩
  · have hidle : { v with serving := true }.Idle := by simpa [View.Idle] using hp.1
    generalize hds : q.dstate = ds at hfits
    cases hfits with
    | shared => exact .holding hh ha hq hidle false hup hasks (hds ▸ .shared fun _ => rfl)
  · cases hcon
  · cases hcon

theorem onUpgradeRep {v : View} {dn : List MsgType} (h : Shape race q v)
    (hdn : v.dn = upgradeRep :: dn) (hcs : v.cstate = .sharedUpgrading) :
    Shape race q { v with cstate := .modified, serving := true, dn := dn } := by
  rcases h.reply hdn rfl with ⟨_, _, hc, -⟩ | ⟨-, hh, ha, -, hup, hq, hp, hds, hasks, hni⟩ |
    ⟨_, _, hc⟩
  · simp [hcs] at hc
  · have hidle : { v with serving := true }.Idle := by simpa [View.Idle] using hp.pending.1
    exact .holding hh ha hq hidle false hup hasks (hds ▸ .modified rfl hni)
  · simp [hcs] at hc

theorem of_dn {msg : ShmemMsg D} {t : MsgType} (ht : msg.msgType = t) :
    (View.of cache up (msg :: dn)).dn = t :: dn.map ShmemMsg.msgType := by
  simp [View.of, ht]

theorem processReplyAndServe {msg : ShmemMsg D} {unwritten : D}
    (h : Shape race q (.of cache up (msg :: dn)))
    (hr : cache.processReplyAndServe msg unwritten = .ok (cache', sent)) :
    Shape race q (.of cache' (up ++ sent) dn) := by
  unfold Cache.processReplyAndServe at hr
  split at hr
  · cases hr
  · rename_i hw
    split at hr
    · cases hr
    · rename_i replied hreply
      unfold Cache.processReply at hreply
      split at hreply
      · rename_i ht
        unfold Cache.insertCacheBlock at hreply
        split at hreply
        · cases hreply
          rcases h.onExRep (of_dn ht) with ⟨hpe, hmod⟩ | hexcl
          · -- the waiter is exclusive, so the line never stays EXCLUSIVE here
            cases hws : cache.waiters with
            | nil => exact absurd hws hw
            | cons w ws =>
              have hwt : w = true := by simpa [View.of, View.PendingExclusive, hws] using hpe.1
              simp only [Cache.serveWaiters, hws, hwt, reduceCtorEq, and_false, if_false, true_or,
                if_true, Except.ok.injEq, Prod.mk.injEq] at hr
              obtain ⟨hcache, hsent⟩ := hr
              subst hcache hsent
              simpa [View.of, hws, hwt] using hmod
          · exact serveWaiters cache.waiters hr hexcl
        · cases hreply
      · rename_i ht
        unfold Cache.insertCacheBlock at hreply
        split at hreply
        · cases hreply
          exact serveWaiters cache.waiters hr (h.onShRep (of_dn ht))
        · cases hreply
      · rename_i ht
        split at hreply
        · cases hreply
        · split at hreply
          · rename_i hcs
            cases hreply
            exact serveWaiters cache.waiters hr (h.onUpgradeRep (of_dn ht) hcs)
          · cases hreply
      · cases hreply

/-- Every message the directory sends to a cache keeps its shape. -/
theorem handleMsgFromDramDirectory {msg : ShmemMsg D} {unwritten : D}
    (h : Shape race q (.of cache up (msg :: dn)))
    (hr : cache.handleMsgFromDramDirectory msg unwritten = .ok (cache', sent)) :
    Shape race q (.of cache' (up ++ sent) dn) := by
  have hrest : ∀ m ∈ dn.map ShmemMsg.msgType, m ∈ (View.of cache up (msg :: dn)).dn :=
    fun m hm => by simp only [View.of, List.map_cons]; exact List.mem_cons_of_mem _ hm
  unfold Cache.handleMsgFromDramDirectory at hr
  split at hr
  · exact h.processReplyAndServe hr
  · exact h.processReplyAndServe hr
  · exact h.processReplyAndServe hr
  · rename_i ht
    unfold Cache.processInvReqFromDramDirectory at hr
    split at hr <;> rename_i hc <;> cases hr
    · simpa [View.of] using h.ignore hc (of_dn ht) rfl
    · exact h.leave (by simp [View.of, hc]) (by simp [View.of, hc]) rfl hrest (by simp [View.of])
        (.inl ⟨rfl, by simp [View.of, hc]⟩) id
    · simpa [View.of] using h.leaveUpgrading hc (of_dn ht) (.inl ⟨rfl, rfl⟩)
    · exact h.leave (by simp [View.of, hc]) (by simp [View.of, hc]) rfl hrest (by simp [View.of])
        (.inl ⟨rfl, by simp [View.of, hc]⟩) id
    · exact h.leave (by simp [View.of, hc]) (by simp [View.of, hc]) rfl hrest (by simp [View.of])
        (.inl ⟨rfl, by simp [View.of, hc]⟩) id
  · rename_i ht
    unfold Cache.processFlushReqFromDramDirectory at hr
    split at hr <;> rename_i hc <;> cases hr
    · simpa [View.of] using h.ignore hc (of_dn ht) rfl
    · exact h.leave (by simp [View.of, hc]) (by simp [View.of, hc]) rfl hrest (by simp [View.of])
        (.inr ⟨rfl, .inr (by simp [View.of, ht])⟩) id
    · simpa [View.of] using h.leaveUpgrading hc (of_dn ht) (.inr ⟨rfl, rfl⟩)
    · exact h.leave (by simp [View.of, hc]) (by simp [View.of, hc]) rfl hrest (by simp [View.of])
        (.inr ⟨rfl, .inr (by simp [View.of, ht])⟩) id
    · exact h.leave (by simp [View.of, hc]) (by simp [View.of, hc]) rfl hrest (by simp [View.of])
        (.inr ⟨rfl, .inr (by simp [View.of, ht])⟩) id
    · exact h.leave (by simp [View.of, hc]) (by simp [View.of, hc]) rfl hrest (by simp [View.of])
        (.inr ⟨rfl, .inr (by simp [View.of, ht])⟩) id
  · rename_i ht
    unfold Cache.processWbReqFromDramDirectory at hr
    split at hr <;> rename_i hc <;> cases hr
    · simpa [View.of] using h.ignore hc (of_dn ht) rfl
    · simpa [View.of] using h.writeBackUpgrading hc (of_dn ht)
    · simpa [View.of] using h.writeBack (by simp [View.of, hc]) (by simp [View.of, hc]) (of_dn ht)
    · simpa [View.of] using h.writeBack (by simp [View.of, hc]) (by simp [View.of, hc]) (of_dn ht)
    · simpa [View.of] using h.writeBack (by simp [View.of, hc]) (by simp [View.of, hc]) (of_dn ht)
    · simpa [View.of] using h.writeBack (by simp [View.of, hc]) (by simp [View.of, hc]) (of_dn ht)
  · cases hr

end Shape

end Sniper.Coherence
