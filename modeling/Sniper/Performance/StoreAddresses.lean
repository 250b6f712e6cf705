import Sniper.Performance.Removals
import Sniper.Performance.RemovalBuffer
import Sniper.Performance.ReadyHistory
set_option autoImplicit false

/-! The address of a store is ready no later than the store, and waking a dependant cannot fail. -/

namespace Sniper.Performance
open Sniper.Lib DynamicMicroOp

namespace RobTimer

variable {σ μ : Type} {cfg : RobConfig σ μ}

/-- The dependencies of an entry can be removed, and what is known of its address is not later than
what is known of its dependencies: an address producer that is not done is one of them. -/
structure Sound (s : RobTimer μ) (e : RobEntry) : Prop where
  tidy : e.uop.Tidy
  resolved : e.uop.allDependencies = [] → e.ready ≠ ⊤
  earlier : ∀ q ∈ e.addressProducers, q < s.nextSequenceNumber
  finite : e.readyMax ≠ ⊤
  bound : e.addressReadyMax ≤ e.readyMax
  address : e.addressReady ≠ ⊤ → e.addressReady ≤ e.readyMax
  waits : e.uop.microOp.isStore = true → e.addressReady = ⊤ →
    ∃ q ∈ e.addressProducers, q ∈ e.uop.allDependencies
  undone : ∀ q ∈ e.addressProducers, s.Undone q → q ∈ e.uop.allDependencies

theorem Sound.mono {s t : RobTimer μ} {e : RobEntry} (h : Sound s e)
    (hnext : s.nextSequenceNumber ≤ t.nextSequenceNumber)
    (hundone : ∀ q, q < s.nextSequenceNumber → t.Undone q → s.Undone q) : Sound t e where
  tidy := h.tidy
  resolved := h.resolved
  earlier := fun q hq => (h.earlier q hq).trans_le hnext
  finite := h.finite
  bound := h.bound
  address := h.address
  waits := h.waits
  undone := fun q hq htop => h.undone q hq (hundone q (h.earlier q hq) htop)

theorem undone_congr {s t : RobTimer μ} (hrob : t.rob = s.rob) (n : Nat) :
    t.Undone n ↔ s.Undone n := by rw [Undone, Undone, hrob]

/-! ### Waking -/

def isUndone (s : RobTimer μ) (n : Nat) : Bool := s.entryIs (fun e => decide (e.done = ⊤)) n

theorem isUndone_iff {s : RobTimer μ} {n : Nat} : s.isUndone n = true ↔ s.Undone n := by
  rw [isUndone, entryIs, List.any_eq_true]
  constructor
  · rintro ⟨e, he, hand⟩
    rw [Bool.and_eq_true, decide_eq_true_eq, decide_eq_true_eq] at hand
    obtain ⟨i, hi⟩ := List.mem_iff_getElem?.mp he
    exact ⟨i, e, hi, hand.1, hand.2⟩
  · rintro ⟨i, e, he, hnumber, htop⟩
    refine ⟨e, List.mem_of_getElem? he, ?_⟩
    rw [Bool.and_eq_true, decide_eq_true_eq, decide_eq_true_eq]
    exact ⟨hnumber, htop⟩

theorem lowest_of_head {s : RobTimer μ} {first : RobEntry} (hfirst : s.rob.head? = some first) :
    s.lowest = first.uop.sequenceNumber := by rw [lowest, hfirst]

theorem Numbered.lowest_le {s : RobTimer μ} (h : Numbered s) {n : Nat} (hn : s.Holds n) :
    s.lowest ≤ n := by
  obtain ⟨i, e, he, rfl⟩ := hn
  cases hfirst : s.rob.head? with
  | none =>
    rw [List.head?_eq_none_iff.mp hfirst] at he
    cases he
  | some first =>
    rw [lowest_of_head hfirst]
    rw [List.head?_eq_getElem?] at hfirst
    have hzero := h 0 first hfirst
    have hi := h i e he
    omega

theorem addressPending_eq {s : RobTimer μ} (h : Numbered s) (hrob : s.rob ≠ []) {q : Nat}
    (hq : q < s.nextSequenceNumber) : s.addressPending q = .ok (s.isUndone q) := by
  cases hfirst : s.rob.head? with
  | none => exact absurd (List.head?_eq_none_iff.mp hfirst) hrob
  | some first =>
    have hlow := lowest_of_head hfirst
    rw [addressPending, hfirst]
    simp only
    split
    · next hle =>
      obtain ⟨i, e, he, rfl⟩ := holds_of_window h (hlow.trans_le hle) hq
      rw [isUndone, h.entryIs _ he, findEntryBySequenceNumber,
        (findPosition_iff h).mpr ⟨e, he, rfl⟩]
      change (s.entryAt i >>= _) = _
      rw [entryAt_iff.mpr he]
      rfl
    · next hlt =>
      have hnone : s.isUndone q = false := by
        refine eq_false_of_ne_true fun htrue => hlt ?_
        rw [← hlow]
        exact h.lowest_le (isUndone_iff.mp htrue).holds
      rw [hnone]

/-- What the address of a dependant is after it has been told. -/
theorem resolveAddress_progress (producer : Nat) {s : RobTimer μ} (h : Numbered s)
    (hrob : s.rob ≠ []) {cycleDepend : Nat} {e : RobEntry}
    (hearlier : ∀ q ∈ e.addressProducers, q < s.nextSequenceNumber)
    (hfinite : e.readyMax ≠ ⊤) (hbound : e.addressReadyMax ≤ e.readyMax)
    (htold : (cycleDepend : Time) ≤ e.readyMax)
    (haddress : e.addressReady ≠ ⊤ → e.addressReady ≤ e.readyMax) :
    ∃ e', s.resolveAddress producer cycleDepend e = .ok e' ∧
      e'.addressReadyMax ≤ e.readyMax ∧
      (e'.addressReady ≠ ⊤ → e'.addressReady ≤ e.readyMax) ∧
      (e.uop.microOp.isStore = true → e'.addressReady = ⊤ →
        ∃ q ∈ e.addressProducers, s.Undone q) := by
  by_cases hresolve : (e.uop.microOp.isStore && decide (e.addressReady = ⊤)) = true
  · have htop : e.addressReady = ⊤ := of_decide_eq_true (Bool.and_eq_true_iff.mp hresolve).2
    have hpending := mapM_ok_map fun q hq => addressPending_eq h hrob (hearlier q hq)
    have hmax : (if producer ∈ e.addressProducers then max e.addressReadyMax (cycleDepend : Time)
        else e.addressReadyMax) ≤ e.readyMax := by
      split
      · exact max_le hbound htold
      · exact hbound
    rw [resolveAddress, if_pos hresolve, hpending]
    refine ⟨_, rfl, hmax, ?_, ?_⟩
    · intro hready
      simp only at hready ⊢
      split at hready
      · exact absurd htop hready
      · next hnone => exact (if_neg hnone).trans_le hmax
    · intro hstore hready
      simp only at hready
      by_cases hany : (e.addressProducers.map s.isUndone).any id = true
      · rw [List.any_map, List.any_eq_true] at hany
        obtain ⟨q, hq, hundone⟩ := hany
        exact ⟨q, hq, isUndone_iff.mp hundone⟩
      · rw [if_neg hany] at hready
        exact absurd (top_le_iff.mp (hready ▸ hmax)) hfinite
  · refine ⟨e, by rw [resolveAddress, if_neg hresolve], hbound, haddress, ?_⟩
    intro hstore htop
    exact absurd (Bool.and_eq_true_iff.mpr ⟨hstore, decide_eq_true htop⟩) hresolve

/-- A dependant that depends on the producer can be told, and only its entry changes. -/
theorem wakeDependant_progress {s : RobTimer μ} (h : Numbered s) {producer i : Nat} {e : RobEntry}
    (he : s.rob[i]? = some e) (hsound : Sound s e) (hissued : ¬s.Undone producer)
    (hmem : producer ∈ e.uop.allDependencies) (cycleDepend : Nat) :
    ∃ s' e', wakeDependant producer cycleDepend s e.uop.sequenceNumber = .ok s' ∧
      s'.rob = s.rob.modify i (fun _ => e') ∧ Keeps e e' ∧ Sound s e' := by
  obtain ⟨uop, hremove, htidy⟩ := hsound.tidy.removeDependency hmem
  have hdrop := removeDependency_drops hsound.tidy.small hremove
  have hlen : e.uop.getDependenciesLength ≠ 0 := fun hzero =>
    absurd (allDependencies_eq_nil.mpr hzero) (List.ne_nil_of_mem hmem)
  let told : RobEntry := { e with
    uop := uop
    readyMax := max e.readyMax (cycleDepend : Time)
    ready := if uop.getDependenciesLength = 0 then max e.readyMax (cycleDepend : Time) else e.ready }
  have hgrow : e.readyMax ≤ told.readyMax := le_max_left _ _
  have hfinite : told.readyMax ≠ ⊤ :=
    (max_lt (lt_top_iff_ne_top.mpr hsound.finite) (WithTop.coe_lt_top cycleDepend)).ne
  obtain ⟨resolved, hresolve, hbound, haddress, hwaits⟩ := resolveAddress_progress (e := told)
    producer h (List.ne_nil_of_mem (List.mem_of_getElem? he)) hsound.earlier hfinite
    (hsound.bound.trans hgrow) (le_max_right _ _) fun hready => (hsound.address hready).trans hgrow
  obtain ⟨huop, hreadyMax, hready⟩ := resolveAddress_spec hresolve
  have hstays : ∀ q ∈ e.addressProducers, s.Undone q → q ∈ uop.allDependencies := by
    intro q hq hundone
    have hold := hdrop.perm.symm.subset (hsound.undone q hq hundone)
    rcases List.mem_cons.mp hold with rfl | hold
    · exact absurd hundone hissued
    · exact hold
  let woken : RobTimer μ := s.modifyEntry i fun e => { e with
    uop := resolved.uop
    readyMax := resolved.readyMax
    ready := resolved.ready
    addressReadyMax := resolved.addressReadyMax
    addressReady := resolved.addressReady }
  have hstep : wakeDependant producer cycleDepend s e.uop.sequenceNumber = .ok woken := by
    refine except_bind_eq_ok.mpr ⟨i, (findPosition_iff h).mpr ⟨e, he, rfl⟩,
      except_bind_eq_ok.mpr ⟨e, entryAt_iff.mpr he, ?_⟩⟩
    rw [if_neg hlen]
    exact except_bind_eq_ok.mpr ⟨uop, hremove, except_bind_eq_ok.mpr ⟨resolved, hresolve, rfl⟩⟩
  refine ⟨woken, { told with
    addressReadyMax := resolved.addressReadyMax
    addressReady := resolved.addressReady }, hstep, ?_, ⟨hdrop.rewired.sequenceNumber, rfl, rfl⟩, ?_⟩
  · refine (modify_at he _).trans ?_
    rw [huop, hreadyMax, hready]
  · refine ⟨htidy, ?_, hsound.earlier, hfinite, hbound, haddress, ?_, hstays⟩
    · intro hnil
      exact (if_pos (allDependencies_eq_nil.mp hnil)).trans_ne hfinite
    · intro hstore htop
      obtain ⟨q, hq, hundone⟩ := hwaits hstore htop
      exact ⟨q, hq, hstays q hq hundone⟩

/-- All dependants can be told. -/
theorem wakeAll_progress {producer cycleDepend : Nat} (woken : List Nat) : ∀ {s : RobTimer μ},
    Waking producer woken s → (∀ d ∈ woken, s.Holds d) → (∀ e ∈ s.rob, Sound s e) →
    ∃ s', woken.foldlM (wakeDependant producer cycleDepend) s = .ok s' ∧
      ∀ e ∈ s'.rob, Sound s' e := by
  induction woken with
  | nil => exact fun _ _ hsound => ⟨_, rfl, hsound⟩
  | cons d woken ih =>
    intro s h hholds hsound
    obtain ⟨i, e, he, rfl⟩ := hholds d List.mem_cons_self
    have hmem := List.mem_of_getElem? he
    have hproducer : producer ∈ e.uop.allDependencies := by
      rw [← List.count_pos_iff, h.waiting e hmem, List.count_cons_self]
      exact Nat.succ_pos _
    obtain ⟨t, e', hwake, hrob, hkeeps, hsound'⟩ := wakeDependant_progress
      h.links.numbered he (hsound e hmem) h.issued hproducer cycleDepend
    have hnext := wakeDependant_next hwake
    have hundone : ∀ n, t.Undone n ↔ s.Undone n := fun n =>
      (undone_congr (t := t) (s := s.modifyEntry i fun _ => e') hrob n).trans
        (undone_modifyEntry he hkeeps n)
    have hstill : ∀ x, Sound s x → Sound t x := fun x hx =>
      hx.mono hnext.ge fun q _ => (hundone q).mp
    have hholds' : ∀ n ∈ woken, t.Holds n := by
      intro n hn
      have hold := holds_modifyEntry (f := fun _ => e') he hkeeps.number
        (hholds n (List.mem_cons_of_mem _ hn))
      rwa [Holds, modifyEntry, ← hrob, ← Holds] at hold
    have hsounds : ∀ x ∈ t.rob, Sound t x := by
      intro x' hx'
      rw [hrob] at hx'
      obtain ⟨j, x, hx, rfl⟩ := mem_modifyEntry (s := s) hx'
      split
      · exact hstill e' hsound'
      · exact hstill x (hsound x (List.mem_of_getElem? hx))
    obtain ⟨u, hfold, hu⟩ := ih (h.wake hwake) hholds' hsounds
    refine ⟨u, ?_, hu⟩
    rw [List.foldlM_cons, hwake]
    exact hfold

/-! ### Issue -/

theorem markIssued_sound {s : RobTimer μ} (hsound : ∀ x ∈ s.rob, Sound s x)
    {now i cycleDone : Nat} {e : RobEntry} {uop : DynamicMicroOp} (he : s.rob[i]? = some e)
    (huop : SameDependencies e.uop uop) (hmicroOp : uop.microOp = e.uop.microOp) :
    ∀ x ∈ (s.markIssued now i uop cycleDone).rob, Sound (s.markIssued now i uop cycleDone) x := by
  let f : RobEntry → RobEntry := fun x => { x with uop := uop, issued := now, done := cycleDone }
  have hundone : ∀ n, (s.modifyEntry i f).Undone n → s.Undone n := by
    rintro n ⟨j, x', hx', hnumber, htop⟩
    obtain ⟨x, hx, rfl⟩ := modifyEntry_some hx'
    by_cases hij : i = j
    · rw [if_pos hij] at htop
      cases htop
    · rw [if_neg hij] at hnumber htop
      exact ⟨j, x, hx, hnumber, htop⟩
  have hstill : ∀ x ∈ s.rob, Sound (s.modifyEntry i f) x := fun x hx =>
    (hsound x hx).mono (Nat.le_refl _) fun q _ => hundone q
  have hall : ∀ x ∈ (s.modifyEntry i f).rob, Sound (s.modifyEntry i f) x := by
    intro x' hx'
    obtain ⟨j, x, hx, rfl⟩ := mem_modifyEntry hx'
    by_cases hij : i = j
    · subst hij
      rw [he] at hx
      obtain rfl := Option.some.inj hx
      have hold := hstill e (List.mem_of_getElem? he)
      rw [if_pos rfl]
      refine ⟨hold.tidy.congr huop.number huop.intra huop.offset huop.list, ?_, hold.earlier,
        hold.finite, hold.bound, hold.address, ?_, ?_⟩
      · change uop.allDependencies = [] → e.ready ≠ ⊤
        rw [huop.all]
        exact hold.resolved
      · change uop.microOp.isStore = true → _ → ∃ q ∈ e.addressProducers, q ∈ uop.allDependencies
        rw [hmicroOp, huop.all]
        exact hold.waits
      · change ∀ q ∈ e.addressProducers, _ → q ∈ uop.allDependencies
        rw [huop.all]
        exact hold.undone
    · rw [if_neg hij]
      exact hstill x (List.mem_of_getElem? hx)
  intro x hx
  exact (hall x hx).mono (Nat.le_refl _) fun q _ => id

/-- What can be issued is issued, and its dependants are told. -/
theorem issueInstruction_progress (cfg : RobConfig σ μ) (now : Nat) (c : σ) {s : RobTimer μ}
    (h : Links none s) (hsound : ∀ e ∈ s.rob, Sound s e) {i : Nat} {e : RobEntry}
    (he : s.rob[i]? = some e) (hdone : e.done = ⊤) (hready : e.ready ≠ ⊤)
    (hmax : e.readyMax ≤ e.ready) :
    ∃ s' c' done, issueInstruction cfg now s c i e = .ok (s', c', done) ∧
      ∀ x ∈ s'.rob, Sound s' x := by
  have hmem := List.mem_of_getElem? he
  have hsame := hsound e hmem
  have hmicroOp := access_microOp cfg s e.uop
  obtain ⟨hrob, hnext, huop⟩ := access_spec cfg s e.uop
  rw [RobTimer.issueInstruction]
  generalize s.access cfg e.uop = accessed at hrob hnext huop hmicroOp
  obtain ⟨s1, uop⟩ := accessed
  obtain ⟨hrob', hnext'⟩ := enterQueues_spec s1 now uop
  dsimp only at hrob hnext huop hmicroOp ⊢
  split
  · next hlate =>
    rw [Bool.and_eq_true, decide_eq_true_eq, hmicroOp] at hlate
    have hnil := allDependencies_eq_nil.mpr (h.ready e hmem (.inl hready))
    have hknown : e.addressReady ≠ ⊤ := by
      intro htop
      obtain ⟨q, -, hq⟩ := hsame.waits hlate.1 htop
      rw [hnil] at hq
      cases hq
    exact absurd hlate.2 (((hsame.address hknown).trans hmax).not_gt)
  · let t : RobTimer μ := (s1.enterQueue now uop).storeIssued now uop
    have hentry : t.rob[i]? = some e := by
      rw [hrob', hrob]
      exact he
    have hsound' : ∀ x ∈ t.rob, Sound t x := by
      intro x hx
      rw [hrob', hrob] at hx
      exact (hsound x hx).mono (hnext'.trans hnext).ge fun q _ =>
        (undone_congr (hrob'.trans hrob) q).mp
    have hlinks : Links none t := h.congr (hrob'.trans hrob) (hnext'.trans hnext)
    have hholds : ∀ d ∈ e.dependants, (t.markIssued now i uop (completion now uop).2).Holds d :=
      fun d hd => holds_modifyEntry hentry huop.number
        (hlinks.dependants e (List.mem_of_getElem? hentry) hdone d hd)
    obtain ⟨u, hfold, hu⟩ := wakeAll_progress e.dependants
      (hlinks.issue hentry hdone hready huop) hholds (markIssued_sound hsound' hentry huop hmicroOp)
    refine ⟨_, _, _, except_bind_eq_ok.mpr ⟨u, hfold, rfl⟩, ?_⟩
    split
    · exact fun x hx => (hu x hx).mono (Nat.le_refl _) fun q _ => id
    · exact hu

end RobTimer

end Sniper.Performance
