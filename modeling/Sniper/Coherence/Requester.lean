import Sniper.Coherence.Shape
set_option autoImplicit false

namespace Sniper.Coherence

open MsgType

variable {race : Prop} {q q' : Demand} {v : View} {t : MsgType}

/-- A cache without a copy whose request `t` is queued. -/
structure Ready (t : MsgType) (v : View) : Prop where
  cstate : v.cstate = .invalid
  up : v.up = []
  noise : Noise v.dn
  pending : v.Pending
  exclusive : t ≠ shReq → v.PendingExclusive

/-- The request waits for data. -/
theorem Ready.added (h : Ready t v) (hheld : q.held) (hadded : q.added) (hq : q.queued = [t]) :
    Shape race q v :=
  .added hheld hadded h.cstate h.up h.noise t hq h.pending h.exclusive

/-- The request is answered. -/
theorem Ready.granted {reply : MsgType} (h : Ready t v) (hheld : q.held) (hadded : ¬q.added)
    (hq : q.queued = []) (hcalm : q.Calm)
    (hreply : reply = exRep ∧ (q.dstate = .exclusive ∨ q.dstate = .modified ∧ t ≠ shReq) ∨
      reply = shRep ∧ q.dstate = .shared) : Shape race q (v.push reply) := by
  refine .granted hheld hadded h.cstate h.up hq h.pending v.dn [] reply rfl h.noise (.nil hcalm) ?_
  rcases hreply with ⟨rfl, hd | ⟨hd, ht⟩⟩ | ⟨rfl, hd⟩ <;> rw [hd]
  · exact .exclusive (by simp)
  · exact .modified (by simp) (h.exclusive ht)
  · exact .shared

namespace Shape

/-- A cache has at most one request queued; unless it upgrades, it has no copy then. -/
theorem of_queued {ts : List MsgType} (h : Shape race q v) (hq : q.queued = t :: ts) :
    ts = [] ∧ (Ready t v ∧ (¬q.held ∧ ¬q.added ∨ q.held ∧ q.added) ∨
      t = upgradeReq ∧ q.held ∧ ¬q.added) := by
  cases h with
  | away hh ha hc hn hstage =>
    cases hstage with
    | waits u hup hw hp hex =>
      rw [hq] at hw
      obtain ⟨rfl, rfl⟩ : t = u ∧ ts = [] := by simpa using hw
      exact ⟨rfl, .inl ⟨⟨hc, hup, hn, hp, hex⟩, .inl ⟨hh, ha⟩⟩⟩
    | none _ hw => simp [hq] at hw
    | sentEx _ hw => simp [hq] at hw
    | sentSh _ hw => simp [hq] at hw
  | added hh ha hc hup hn u hw hp hex =>
    rw [hq] at hw
    obtain ⟨rfl, rfl⟩ : t = u ∧ ts = [] := by simpa using hw
    exact ⟨rfl, .inl ⟨⟨hc, hup, hn, hp, hex⟩, .inr ⟨hh, ha⟩⟩⟩
  | upgrading hh ha _ _ _ _ _ hstage =>
    cases hstage with
    | waits _ hw =>
      rw [hq] at hw
      obtain ⟨rfl, rfl⟩ : t = upgradeReq ∧ ts = [] := by simpa using hw
      exact ⟨rfl, .inr ⟨rfl, hh, ha⟩⟩
    | sent _ hw => simp [hq] at hw
    | sentBefore _ _ hw => simp [hq] at hw
  | leavingUpgrade hh ha _ _ _ _ _ _ _ hstage =>
    cases hstage with
    | waits _ hw =>
      rw [hq] at hw
      obtain ⟨rfl, rfl⟩ : t = upgradeReq ∧ ts = [] := by simpa using hw
      exact ⟨rfl, .inr ⟨rfl, hh, ha⟩⟩
    | sent _ hw => simp [hq] at hw
  | granted _ _ _ _ hw => simp [hq] at hw
  | holding _ _ hw => simp [hq] at hw
  | upgraded _ _ _ _ _ hw => simp [hq] at hw
  | leaving _ _ _ _ _ _ _ _ _ _ hstage =>
    cases hstage with
    | none _ hw => simp [hq] at hw
    | sentEx _ hw => simp [hq] at hw
    | sentSh _ hw => simp [hq] at hw
  | doomed _ _ _ _ _ hw => simp [hq] at hw

/-- An UPGRADE_REP for the only sharer. It crosses an invalidation when one is in flight
either way. -/
theorem grantUpgrade (h : Shape race q v) (hheld : q.held) (hadded : ¬q.added)
    (hq : q.queued = [upgradeReq]) (hcalm : q.Calm) (hheld' : q'.held) (hadded' : ¬q'.added)
    (hq' : q'.queued = []) (hcalm' : q'.Calm) (hds' : q'.dstate = .modified)
    (hrace : race ∨ invReq ∉ v.dn ∧ invRep ∉ v.up) : Shape race q' (v.push upgradeRep) := by
  cases h with
  | upgrading _ _ hc hp wb hasks _ hstage =>
    obtain ⟨rfl, hwb, hflush⟩ := hasks.calm hcalm
    have hinvs := hasks.list.inv_of_mem hwb hflush
    have hup : v.up = [] := by
      cases hstage with
      | waits hup => exact hup
      | sent _ hw => simp [hq] at hw
      | sentBefore _ hb => simp at hb
    refine .upgraded hheld' hadded' hc hp hup hq' hds' v.dn [] rfl hinvs ?_ (.nil hcalm') (by simp)
    intro hne
    rcases hrace with hr | ⟨hi, -⟩
    · exact hr
    · obtain ⟨m, hm⟩ := List.exists_mem_of_ne_nil _ hne
      exact absurd (hinvs m hm ▸ hm) hi
  | leavingUpgrade _ _ hc hn u hu hf _ hp hstage =>
    have hu' : u = invRep := by
      rcases hu with rfl | rfl
      · rfl
      · exact absurd (hf rfl) hcalm.not_flushing
    subst hu'
    have hup : v.up = [invRep] := by
      cases hstage with
      | waits hup => exact hup
      | sent _ hw => simp [hq] at hw
    have hr : race := by
      rcases hrace with hr | ⟨-, hi⟩
      · exact hr
      · simp [hup] at hi
    exact .doomed hr hheld' hadded' hc hup hq' hp hds' v.dn [] rfl hn (by simp [Noise])
  | away hh => exact absurd hheld hh
  | added _ ha => exact absurd ha hadded
  | granted _ _ _ _ hw => simp [hq] at hw
  | holding _ _ hw => simp [hq] at hw
  | upgraded _ _ _ _ _ hw => simp [hq] at hw
  | leaving _ _ _ _ _ _ _ _ _ _ hstage =>
    cases hstage with
    | none _ hw => simp [hq] at hw
    | sentEx _ hw => simp [hq] at hw
    | sentSh _ hw => simp [hq] at hw
  | doomed _ _ _ _ _ hw => simp [hq] at hw

/-- The queued UPGRADE_REQ of a sharer is about a SHARED line. -/
theorem upgrade_shared (h : Shape race q v) (hheld : q.held) (hadded : ¬q.added)
    (hq : q.queued = [upgradeReq]) (hcalm : q.Calm) : q.dstate = .shared := by
  cases h with
  | upgrading _ _ _ _ _ hasks hs => exact hs (hasks.calm hcalm).1
  | leavingUpgrade _ _ _ _ _ _ _ hs => exact hs
  | away hh => exact absurd hheld hh
  | added _ ha => exact absurd ha hadded
  | granted _ _ _ _ hw => simp [hq] at hw
  | holding _ _ hw => simp [hq] at hw
  | upgraded _ _ _ _ _ hw => simp [hq] at hw
  | leaving _ _ _ _ _ _ _ _ _ _ hstage =>
    cases hstage with
    | none _ hw => simp [hq] at hw
    | sentEx _ hw => simp [hq] at hw
    | sentSh _ hw => simp [hq] at hw
  | doomed _ _ _ _ _ hw => simp [hq] at hw

/-- The sender of a notice is a sharer until the directory hears of it. -/
theorem notice {ups : List MsgType} (h : Shape race q v) (hup : v.up = t :: ups)
    (ht : t = invRep ∨ t = flushRep) :
    q.held ∧ ¬q.added ∧
      (t = invRep → ¬race → q.dstate = .shared ∨ q.dstate = .exclusive) ∧
      (t = flushRep → q.dstate = .exclusive ∨ q.dstate = .modified ∨ q.Flushing) ∧
      ((t = invRep → q.dstate ≠ .modified) → ∀ q' : Demand, ¬q'.held → ¬q'.added →
        q'.queued = q.queued → Shape race q' { v with up := ups }) := by
  cases h with
  | leaving hh ha hc hn wb u hu _ hcl hdt hstage =>
    have hwb : wb = false := by
      cases wb with
      | false => rfl
      | true =>
        cases hstage with
        | none hu' => simp [hu', wbPart] at hup; simp [← hup.1] at ht
        | sentEx hu' => simp [hu', wbPart] at hup; simp [← hup.1] at ht
        | sentSh hu' => simp [hu', wbPart] at hup; simp [← hup.1] at ht
    subst hwb
    have htu : u = t := by
      cases hstage with
      | none hu' => simp [hu', wbPart] at hup; exact hup.1
      | sentEx hu' => simp [hu', wbPart] at hup; exact hup.1
      | sentSh hu' => simp [hu', wbPart] at hup; exact hup.1
    subst htu
    refine ⟨hh, ha, fun hu _ => hcl hu rfl, hdt, ?_⟩
    intro _ q' hh' ha' hq'
    refine .away hh' ha' hc hn ?_
    rw [hq']
    cases hstage with
    | none hu' hw hi =>
      simp only [hu', wbPart, List.nil_append, List.cons.injEq] at hup
      exact .none hup.2.symm hw hi
    | sentEx hu' hw hp =>
      simp only [hu', wbPart, List.nil_append, List.cons.injEq] at hup
      exact .sentEx hup.2.symm hw hp
    | sentSh hu' hw hp =>
      simp only [hu', wbPart, List.nil_append, List.cons.injEq] at hup
      exact .sentSh hup.2.symm hw hp
  | leavingUpgrade hh ha hc hn u hu hf hs hp hstage =>
    have htu : u = t := by
      cases hstage with
      | sent hu' => simp [hu'] at hup; simp [← hup.1] at ht
      | waits hu' => simp [hu'] at hup; exact hup.1
    subst htu
    refine ⟨hh, ha, fun _ _ => .inl hs, fun hu => .inr (.inr (hf hu)), ?_⟩
    intro _ q' hh' ha' hq'
    refine .away hh' ha' hc hn ?_
    rw [hq']
    cases hstage with
    | sent hu' => simp [hu'] at hup; simp [← hup.1] at ht
    | waits hu' hw =>
      simp only [hu', List.cons.injEq] at hup
      exact .waits upgradeReq hup.2.symm hw hp.pending fun _ => hp
  | doomed hr hh ha _ hu' _ _ hds =>
    simp only [hu', List.cons.injEq] at hup
    obtain ⟨rfl, rfl⟩ := hup
    exact ⟨hh, ha, fun _ hnr => absurd hr hnr, by simp, fun hm => absurd hds (hm rfl)⟩
  | away _ _ _ _ hstage =>
    cases hstage with
    | none hu' => simp [hu'] at hup
    | sentEx hu' => simp [hu'] at hup; simp [← hup.1] at ht
    | sentSh hu' => simp [hu'] at hup; simp [← hup.1] at ht
    | waits _ hu' => simp [hu'] at hup
  | added _ _ _ hu' => simp [hu'] at hup
  | granted _ _ _ hu' => simp [hu'] at hup
  | holding _ _ _ _ wb hu' =>
    cases wb with
    | false => simp [hu', wbPart] at hup
    | true => simp [hu', wbPart] at hup; simp [← hup.1] at ht
  | upgrading _ _ _ _ wb _ _ hstage =>
    cases wb <;> cases hstage with
    | sent hu' => simp [hu', wbPart] at hup; simp [← hup.1] at ht
    | sentBefore hu' => simp [hu'] at hup; simp [← hup.1] at ht
    | waits hu' => simp [hu', wbPart] at hup <;> simp [← hup.1] at ht
  | upgraded _ _ _ _ hu' => simp [hu'] at hup

/-- The sender of a WB_REP was asked for it, and is a plain sharer once it is heard. -/
theorem wroteBack {ups : List MsgType} (h : Shape race q v) (hup : v.up = wbRep :: ups) :
    q.held ∧ ¬q.added ∧ q.asked = some wbReq ∧
      ∀ q' : Demand, q'.held → ¬q'.added → q'.queued = q.queued → q'.Calm →
        q'.dstate = .shared → Shape race q' { v with up := ups } := by
  cases h with
  | holding hh ha hq hidle wb hu hasks hfits =>
    cases wb with
    | false => simp [hu, wbPart] at hup
    | true =>
      refine ⟨hh, ha, hasks.wbIff.mpr (.inl rfl), ?_⟩
      intro q' hh' ha' hq' hcalm hds
      have hshared : v.cstate = .shared := by
        rcases hfits.isCopy with hc | hc
        · exact hc
        · simpa using (hfits.writable hc).1
      have hdn := hasks.wbLast rfl
      simp only [hu, wbPart, List.cons.injEq, true_and] at hup
      exact .holding hh' ha' (hq'.trans hq) hidle false hup.symm (hdn ▸ .nil hcalm)
        (hshared ▸ hds ▸ .shared fun _ => rfl)
  | upgrading hh ha hc hp wb hasks _ hstage =>
    cases wb with
    | false =>
      cases hstage with
      | sent hu => simp [hu, wbPart] at hup
      | sentBefore _ hb => simp at hb
      | waits hu => simp [hu, wbPart] at hup
    | true =>
      refine ⟨hh, ha, hasks.wbIff.mpr (.inl rfl), ?_⟩
      intro q' hh' ha' hq' hcalm hds
      have hdn := hasks.wbLast rfl
      refine .upgrading hh' ha' hc hp false (hdn ▸ .nil hcalm) (fun _ => hds) (hq' ▸ ?_)
      cases hstage with
      | sent hu hw =>
        simp only [hu, wbPart, List.cons_append, List.nil_append, List.cons.injEq, true_and] at hup
        exact .sent hup.symm hw
      | sentBefore hu => simp [hu] at hup
      | waits hu hw =>
        simp only [hu, wbPart, List.cons.injEq, true_and] at hup
        exact .waits hup.symm hw
  | leaving hh ha hc hn wb u hu hwb _ hdt hstage =>
    cases wb with
    | false =>
      cases hstage with
      | none hu' => simp [hu', wbPart] at hup; simp [hup.1] at hu
      | sentEx hu' => simp [hu', wbPart] at hup; simp [hup.1] at hu
      | sentSh hu' => simp [hu', wbPart] at hup; simp [hup.1] at hu
    | true =>
      obtain ⟨rfl, hasked⟩ := hwb rfl
      refine ⟨hh, ha, hasked, ?_⟩
      intro q' hh' ha' hq' _ hds
      refine .leaving hh' ha' hc hn false invRep hu (by simp) (fun _ _ => .inl hds) (by simp)
        (hq' ▸ ?_)
      cases hstage with
      | none hu' hw hi =>
        simp only [hu', wbPart, List.cons_append, List.nil_append, List.cons.injEq, true_and] at hup
        exact .none hup.symm hw hi
      | sentEx hu' hw hp =>
        simp only [hu', wbPart, List.cons_append, List.nil_append, List.cons.injEq, true_and] at hup
        exact .sentEx hup.symm hw hp
      | sentSh hu' hw hp =>
        simp only [hu', wbPart, List.cons_append, List.nil_append, List.cons.injEq, true_and] at hup
        exact .sentSh hup.symm hw hp
  | away _ _ _ _ hstage =>
    cases hstage with
    | none hu => simp [hu] at hup
    | sentEx hu => simp [hu] at hup
    | sentSh hu => simp [hu] at hup
    | waits _ hu => simp [hu] at hup
  | added _ _ _ hu => simp [hu] at hup
  | granted _ _ _ hu => simp [hu] at hup
  | upgraded _ _ _ _ hu => simp [hu] at hup
  | leavingUpgrade _ _ _ _ u hu _ _ _ hstage =>
    cases hstage with
    | sent hu' => simp [hu'] at hup
    | waits hu' => simp [hu'] at hup; simp [hup.1] at hu
  | doomed _ _ _ _ hu => simp [hu] at hup

/-- A request that arrives is queued. -/
theorem requested {ups : List MsgType} (h : Shape race q v) (hup : v.up = t :: ups)
    (ht : t.isRequest = true) :
    q.queued = [] ∧ ¬q.added ∧
      ∀ q' : Demand, (q'.held ↔ q.held) → ¬q'.added → q'.queued = [t] → q'.dstate = q.dstate →
        q'.asked = q.asked → (q'.mustInv → q.mustInv) → (q.mayFlush → q'.mayFlush) →
        Shape race q' { v with up := ups } := by
  have hnot : ∀ {u : MsgType}, u.isRequest = false → u ≠ t := by
    rintro u hu rfl
    simp [hu] at ht
  cases h with
  | away hh ha hc hn hstage =>
    cases hstage with
    | none hu => simp [hu] at hup
    | sentEx hu hw hp =>
      simp only [hu, List.cons.injEq] at hup
      obtain ⟨rfl, rfl⟩ := hup
      refine ⟨hw, ha, fun q' hh' ha' hq' _ _ _ _ => ?_⟩
      exact .away (mt hh'.mp hh) ha' hc hn (.waits exReq rfl hq' hp.pending fun _ => hp)
    | sentSh hu hw hp =>
      simp only [hu, List.cons.injEq] at hup
      obtain ⟨rfl, rfl⟩ := hup
      refine ⟨hw, ha, fun q' hh' ha' hq' _ _ _ _ => ?_⟩
      exact .away (mt hh'.mp hh) ha' hc hn (.waits shReq rfl hq' hp fun h => absurd rfl h)
    | waits _ hu => simp [hu] at hup
  | upgrading hh ha hc hp wb hasks hs hstage =>
    cases hstage with
    | sent hu hw =>
      cases wb with
      | true => simp [hu, wbPart] at hup; exact absurd hup.1 (hnot rfl)
      | false =>
        simp only [hu, wbPart, List.nil_append, List.cons.injEq] at hup
        obtain ⟨rfl, rfl⟩ := hup
        refine ⟨hw, ha, fun q' hh' ha' hq' hds hak hmu hma => ?_⟩
        exact .upgrading (hh'.mpr hh) ha' hc hp false (hasks.relax hds hak hmu hma) (hds ▸ hs)
          (.waits rfl hq')
    | sentBefore hu hb hw =>
      simp only [hu, List.cons.injEq] at hup
      obtain ⟨rfl, rfl⟩ := hup
      refine ⟨hw, ha, fun q' hh' ha' hq' hds hak hmu hma => ?_⟩
      exact .upgrading (hh'.mpr hh) ha' hc hp wb (hasks.relax hds hak hmu hma) (hds ▸ hs)
        (.waits (by simp [hb, wbPart]) hq')
    | waits hu =>
      cases wb with
      | true => simp [hu, wbPart] at hup; exact absurd hup.1 (hnot rfl)
      | false => simp [hu, wbPart] at hup
  | leavingUpgrade hh ha hc hn u hu hf hs hp hstage =>
    cases hstage with
    | sent hu' hw =>
      simp only [hu', List.cons.injEq] at hup
      obtain ⟨rfl, rfl⟩ := hup
      refine ⟨hw, ha, fun q' hh' ha' hq' hds hak _ hma => ?_⟩
      exact .leavingUpgrade (hh'.mpr hh) ha' hc hn u hu (fun h => (hf h).mono hak hma)
        (hds.trans hs) hp (.waits rfl hq')
    | waits hu' =>
      simp only [hu', List.cons.injEq] at hup
      rcases hu with rfl | rfl <;> exact absurd hup.1 (hnot rfl)
  | added _ _ _ hu => simp [hu] at hup
  | granted _ _ _ hu => simp [hu] at hup
  | holding _ _ _ _ wb hu =>
    cases wb with
    | true => simp [hu, wbPart] at hup; exact absurd hup.1 (hnot rfl)
    | false => simp [hu, wbPart] at hup
  | upgraded _ _ _ _ hu => simp [hu] at hup
  | leaving _ _ _ _ wb u hu _ _ _ hstage =>
    have hu' : u ≠ t := by
      rcases hu with rfl | rfl <;> exact hnot rfl
    cases wb with
    | true =>
      cases hstage with
      | none h => simp [h, wbPart] at hup; exact absurd hup.1 (hnot rfl)
      | sentEx h => simp [h, wbPart] at hup; exact absurd hup.1 (hnot rfl)
      | sentSh h => simp [h, wbPart] at hup; exact absurd hup.1 (hnot rfl)
    | false =>
      cases hstage with
      | none h => simp [h, wbPart] at hup; exact absurd hup.1 hu'
      | sentEx h => simp [h, wbPart] at hup; exact absurd hup.1 hu'
      | sentSh h => simp [h, wbPart] at hup; exact absurd hup.1 hu'
  | doomed _ _ _ _ hu =>
    simp only [hu, List.cons.injEq] at hup
    exact absurd hup.1 (hnot rfl)

end Shape

end Sniper.Coherence
