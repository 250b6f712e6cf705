import Sniper.Performance.EnteringProgress
set_option autoImplicit false

/-! What can fail in a cycle: nothing but the dispatch of a micro-operation that has not come yet. -/

namespace Sniper.Performance
open Sniper.Lib DynamicMicroOp

namespace RobTimer

variable {σ μ : Type} {cfg : RobConfig σ μ} {start s s' : RobTimer μ} {now : Nat}

/-! ### Dispatch -/

theorem dispatchLoop_error {left : Nat} {nextEvent : Time} {a : RobAbort}
    (h : dispatchLoop cfg now left s nextEvent = .error a) : a = .noUops := by
  induction left generalizing s nextEvent with
  | zero =>
    rw [RobTimer.dispatchLoop] at h
    split at h
    · cases hentry : s.rob[s.numInRob]? with
      | none =>
        simp only [hentry] at h
        exact (Except.error.inj h).symm
      | some entry => simp [hentry] at h
    · cases h
  | succ left ih =>
    rw [RobTimer.dispatchLoop] at h
    split at h
    · cases hentry : s.rob[s.numInRob]? with
      | none =>
        simp only [hentry] at h
        exact (Except.error.inj h).symm
      | some entry =>
        simp only [hentry] at h
        split at h
        · cases h
        · split at h
          · cases h
          · split at h
            · cases h
            · exact ih h
    · cases h

theorem doDispatch_error {a : RobAbort} (h : doDispatch cfg now s = .error a) : a = .noUops := by
  rcases except_bind_eq_error.mp h with h | ⟨state, -, h⟩
  · split at h
    · exact dispatchLoop_error h
    · cases h
  · cases h

/-! ### Issue -/

theorem Bookkept.issue (h : Bookkept cfg start s) {i : Nat} {c : σ} {e : RobEntry}
    (he : s.rob[i]? = some e) (hdone : e.done = ⊤) (hready : e.ready ≤ (now : Time)) :
    ∃ s' c' done, issueInstruction cfg now s c i e = .ok (s', c', done) ∧
      Bookkept cfg start s' := by
  obtain ⟨history, -, hexact⟩ := h.history.history
  have hmax := hexact.readyMax_le_ready (List.mem_of_getElem? he)
  have hsoon : e.ready ≠ ⊤ := ne_top_of_le_ne_top WithTop.coe_ne_top hready
  obtain ⟨s', c', done, hissue, hsound⟩ :=
    issueInstruction_progress cfg now c h.history.links h.sound he hdone hsoon hmax
  exact ⟨s', c', done, hissue,
    (hasHistory_survives cfg start).issue h.history he hdone hready hissue,
    (tablesKnown_survives cfg).issue h.tables he hdone hready hissue, hsound⟩

theorem bookkept_survives (cfg : RobConfig σ μ) (start : RobTimer μ) :
    Survives cfg (Bookkept cfg start) where
  core := by
    intro s t h hcore
    refine ⟨(hasHistory_survives cfg start).core h.history hcore,
      (tablesKnown_survives cfg).core h.tables hcore, fun e he => ?_⟩
    rw [hcore.rob] at he
    exact (h.sound e he).mono hcore.next.ge fun q _ => (undone_congr hcore.rob q).mp
  dispatch := by
    intro s now h
    refine ⟨(hasHistory_survives cfg start).dispatch now h.history,
      (tablesKnown_survives cfg).dispatch now h.tables, fun e' he' => ?_⟩
    have hundone : ∀ q, (s.modifyEntry s.numInRob (dispatchEntry now)).Undone q → s.Undone q := by
      rintro q ⟨j, x', hx', hnumber, htop⟩
      obtain ⟨x, hx, rfl⟩ := modifyEntry_some hx'
      refine ⟨j, x, hx, ?_⟩
      split at hnumber
      · next hij =>
        rw [if_pos hij] at htop
        exact ⟨hnumber, htop⟩
      · next hij =>
        rw [if_neg hij] at htop
        exact ⟨hnumber, htop⟩
    obtain ⟨j, e, he, rfl⟩ := mem_modifyEntry he'
    have hold : Sound (s.modifyEntry s.numInRob (dispatchEntry now)) e :=
      (h.sound e (List.mem_of_getElem? he)).mono (Nat.le_refl _) fun q _ => hundone q
    split
    · refine ⟨hold.tidy, fun hnil => ?_, hold.earlier, hold.finite, hold.bound, hold.address,
        hold.waits, hold.undone⟩
      exact (max_lt (lt_top_iff_ne_top.mpr (hold.resolved hnil)) (WithTop.coe_lt_top (now + 1))).ne
    · exact hold
  issue := by
    intro s s' now i done c c' e h he hdone hready hissue
    obtain ⟨t, c1, done1, hissue1, ht⟩ := @Bookkept.issue _ _ cfg start s now h i c e he hdone hready
    obtain ⟨rfl, -⟩ := Prod.mk.inj (Except.ok.inj (hissue.symm.trans hissue1))
    exact ht
  commit := by
    intro s e rest h hrob hdone
    refine ⟨(hasHistory_survives cfg start).commit h.history hrob hdone,
      (tablesKnown_survives cfg).commit h.tables hrob hdone, fun x hx => ?_⟩
    have hmem : ∀ y ∈ rest, y ∈ s.rob := fun y hy => hrob ▸ List.mem_cons_of_mem e hy
    refine (h.sound x (hmem x hx)).mono (Nat.le_refl _) ?_
    intro q _
    rintro ⟨j, y, hy, hnumber, htop⟩
    obtain ⟨k, hk⟩ := List.mem_iff_getElem?.mp (hmem y (List.mem_of_getElem? hy))
    exact ⟨k, y, hk, hnumber, htop⟩

theorem Bookkept.issueLoop_error {left i : Nat} {scan : Scan} {c : σ} {a : RobAbort}
    (hs : Bookkept cfg start s) (h : issueLoop cfg now left i scan s c = .error a) :
    a = .noUops := by
  induction left generalizing i scan s c with
  | zero => cases h
  | succ left ih =>
    rw [RobTimer.issueLoop] at h
    cases hentry : s.rob[i]? with
    | none =>
      simp only [hentry] at h
      exact (Except.error.inj h).symm
    | some entry =>
      simp only [hentry] at h
      split at h
      · exact ih hs h
      · next hdone =>
        split at h
        · cases h
        · split at h
          · next hcan =>
            have hready := ready_of_tryIssue (Prod.ext hcan rfl)
            obtain ⟨s1, c1, done, hissue, hs1⟩ := @Bookkept.issue _ _ cfg start s now hs i
              (tryIssue cfg c _ entry.uop).2 entry hentry (not_not.mp hdone) hready
            rcases except_bind_eq_error.mp h with h | ⟨state, hstate, h⟩
            · cases hissue.symm.trans h
            obtain rfl := Except.ok.inj (hissue.symm.trans hstate)
            dsimp only at h
            split at h
            · cases h
            · exact ih hs1 h
          · split at h
            · cases h
            · exact ih hs h

/-- Only micro-operations that have not come yet are missed. -/
theorem Bookkept.cycle_error (hs : Bookkept cfg start s) {c : σ} {a : RobAbort}
    (h : cycle cfg now s c = .error a) : a = .noUops := by
  rcases except_bind_eq_error.mp h with h | ⟨⟨s1, e1⟩, hdispatch, h⟩
  · exact doDispatch_error h
  rcases except_bind_eq_error.mp h with h | ⟨state, -, h⟩
  · exact ((bookkept_survives cfg start).doDispatch hs hdispatch).issueLoop_error h
  · cases h

end RobTimer

end Sniper.Performance
