import Mathlib.Order.Lattice.Nat
import Sniper.Performance.RobEntering
import Sniper.Performance.CycleSkipping
set_option autoImplicit false

/-! Who waits for whom in the reorder buffer: the dependencies that remain and the dependants. -/

namespace Sniper.Performance
open Sniper.Lib DynamicMicroOp

namespace RobTimer

variable {σ μ : Type} {cfg : RobConfig σ μ}

/-! ### The two sides of a dependency agree -/

/-- The dependencies that remain are on entries that are not done, but for one number perhaps, and
the entries that are not done list their dependants. What can be issued has none that remain. -/
structure Links (except : Option Nat) (s : RobTimer μ) : Prop where
  numbered : Numbered s
  small : ∀ e ∈ s.rob, e.uop.Small
  known : ∀ e ∈ s.rob, ∀ n ∈ e.uop.allDependencies, except ≠ some n → s.Undone n
  counts : ∀ e ∈ s.rob, ∀ p ∈ s.rob, p.done = ⊤ →
    e.uop.allDependencies.count p.uop.sequenceNumber = p.dependants.count e.uop.sequenceNumber
  dependants : ∀ p ∈ s.rob, p.done = ⊤ → ∀ n ∈ p.dependants, s.Holds n
  ready : ∀ e ∈ s.rob, e.ready ≠ ⊤ ∨ e.done ≠ ⊤ → e.uop.getDependenciesLength = 0

theorem mem_modifyEntry {s : RobTimer μ} {i : Nat} {f : RobEntry → RobEntry} {e' : RobEntry}
    (h : e' ∈ (s.modifyEntry i f).rob) :
    ∃ j e, s.rob[j]? = some e ∧ e' = if i = j then f e else e := by
  obtain ⟨j, hj⟩ := List.mem_iff_getElem?.mp h
  obtain ⟨e, he⟩ := modifyEntry_some hj
  exact ⟨j, e, he⟩

/-- What an entry that changes keeps. -/
structure Keeps (e e' : RobEntry) : Prop where
  number : e'.uop.sequenceNumber = e.uop.sequenceNumber
  done : e'.done = e.done
  dependants : e'.dependants = e.dependants

theorem Keeps.refl (e : RobEntry) : Keeps e e := ⟨rfl, rfl, rfl⟩

theorem keeps_ite {e e' : RobEntry} {c : Prop} [Decidable c] (h : c → Keeps e e') :
    Keeps e (if c then e' else e) := by
  split
  · next hc => exact h hc
  · exact Keeps.refl e

section Modify

variable {s : RobTimer μ} {i : Nat} {e : RobEntry} {f : RobEntry → RobEntry}

theorem Numbered.modifyEntry (h : Numbered s) (he : s.rob[i]? = some e)
    (hf : (f e).uop.sequenceNumber = e.uop.sequenceNumber) : Numbered (s.modifyEntry i f) := by
  intro j e' he'
  obtain ⟨x, hx, rfl⟩ := modifyEntry_some he'
  have hj := h j x hx
  have hlength : (s.modifyEntry i f).rob.length = s.rob.length := by simp [RobTimer.modifyEntry]
  rw [hlength]
  split
  · next hij =>
    subst hij
    rw [he] at hx
    obtain rfl := Option.some.inj hx
    rw [hf]
    exact hj
  · exact hj

theorem holds_modifyEntry (he : s.rob[i]? = some e)
    (hf : (f e).uop.sequenceNumber = e.uop.sequenceNumber) {n : Nat} (h : s.Holds n) :
    (s.modifyEntry i f).Holds n := by
  obtain ⟨j, x, hx, rfl⟩ := h
  refine ⟨j, if i = j then f x else x, by rw [getElem?_modifyEntry, hx]; rfl, ?_⟩
  split
  · next hij =>
    subst hij
    rw [he] at hx
    obtain rfl := Option.some.inj hx
    exact hf
  · rfl

theorem undone_modifyEntry (he : s.rob[i]? = some e) (hf : Keeps e (f e)) (n : Nat) :
    (s.modifyEntry i f).Undone n ↔ s.Undone n := by
  have hkeep : ∀ j x, s.rob[j]? = some x → Keeps x (if i = j then f x else x) := by
    intro j x hx
    refine keeps_ite fun hij => ?_
    subst hij
    rw [he] at hx
    obtain rfl := Option.some.inj hx
    exact hf
  constructor
  · rintro ⟨j, x', hx', hnumber, hdone⟩
    obtain ⟨x, hx, rfl⟩ := modifyEntry_some hx'
    have hk := hkeep j x hx
    exact ⟨j, x, hx, hk.number.symm.trans hnumber, hk.done.symm.trans hdone⟩
  · rintro ⟨j, x, hx, hnumber, hdone⟩
    have hk := hkeep j x hx
    exact ⟨j, _, by rw [getElem?_modifyEntry, hx]; rfl, hk.number.trans hnumber,
      hk.done.trans hdone⟩

/-- An entry changes, but for its dependants and whether it is done. -/
theorem Links.modifyEntry {except : Option Nat} (h : Links except s) (he : s.rob[i]? = some e)
    (hf : Keeps e (f e)) (hsmall : (f e).uop.Small)
    (hcount : ∀ n, s.Undone n → (f e).uop.allDependencies.count n = e.uop.allDependencies.count n)
    (hsub : ∀ n ∈ (f e).uop.allDependencies, n ∈ e.uop.allDependencies)
    (hready : (f e).ready ≠ ⊤ ∨ (f e).done ≠ ⊤ → (f e).uop.getDependenciesLength = 0) :
    Links except (s.modifyEntry i f) := by
  -- each entry is one of before or the one that has changed
  have hmem : ∀ x' ∈ (s.modifyEntry i f).rob, ∃ x ∈ s.rob, Keeps x x' ∧ (x' = x ∨ x = e ∧ x' = f e) := by
    intro x' hx'
    obtain ⟨j, x, hx, rfl⟩ := mem_modifyEntry hx'
    refine ⟨x, List.mem_of_getElem? hx, ?_⟩
    by_cases hij : i = j
    · subst hij
      rw [he] at hx
      obtain rfl := Option.some.inj hx
      rw [if_pos rfl]
      exact ⟨hf, .inr ⟨rfl, rfl⟩⟩
    · rw [if_neg hij]
      exact ⟨Keeps.refl x, .inl rfl⟩
  refine ⟨h.numbered.modifyEntry he hf.number, ?_, ?_, ?_, ?_, ?_⟩
  · intro x' hx'
    obtain ⟨x, hx, -, rfl | ⟨rfl, rfl⟩⟩ := hmem x' hx'
    · exact h.small x' hx
    · exact hsmall
  · intro x' hx' n hn hexcept
    rw [undone_modifyEntry he hf]
    obtain ⟨x, hx, -, rfl | ⟨rfl, rfl⟩⟩ := hmem x' hx'
    · exact h.known x' hx n hn hexcept
    · exact h.known x hx n (hsub n hn) hexcept
  · intro x' hx' p' hp' hdone
    obtain ⟨p, hp, hkp, -⟩ := hmem p' hp'
    rw [hkp.done] at hdone
    rw [hkp.number, hkp.dependants]
    obtain ⟨x, hx, hkx, hcase⟩ := hmem x' hx'
    rw [hkx.number, ← h.counts x hx p hp hdone]
    obtain rfl | ⟨rfl, rfl⟩ := hcase
    · rfl
    · obtain ⟨j, hj⟩ := List.mem_iff_getElem?.mp hp
      exact hcount _ ⟨j, p, hj, rfl, hdone⟩
  · intro p' hp' hdone n hn
    obtain ⟨p, hp, hkp, -⟩ := hmem p' hp'
    rw [hkp.done] at hdone
    rw [hkp.dependants] at hn
    exact holds_modifyEntry he hf.number (h.dependants p hp hdone n hn)
  · intro x' hx'
    obtain ⟨x, hx, -, rfl | ⟨rfl, rfl⟩⟩ := hmem x' hx'
    · exact h.ready x' hx
    · exact hready

end Modify

theorem Links.dispatch {s : RobTimer μ} (h : Links none s) (now i : Nat) :
    Links none (s.modifyEntry i (dispatchEntry now)) := by
  cases he : s.rob[i]? with
  | none =>
    have hsame : s.modifyEntry i (dispatchEntry now) = s := by
      rw [RobTimer.modifyEntry, List.modify_eq_self (by simpa using he)]
    rw [hsame]
    exact h
  | some e =>
    have hmem := List.mem_of_getElem? he
    refine h.modifyEntry he ⟨rfl, rfl, rfl⟩ (h.small e hmem) (fun _ _ => rfl) (fun _ hn => hn) ?_
    intro hready
    refine h.ready e hmem (hready.imp_left fun hne heq => hne ?_)
    rw [dispatchEntry, heq]
    exact max_eq_left le_top

/-! ### Issue -/

theorem resolveAddress_spec {s : RobTimer μ} {producer cycleDepend : Nat} {e e' : RobEntry}
    (h : s.resolveAddress producer cycleDepend e = .ok e') :
    e'.uop = e.uop ∧ e'.readyMax = e.readyMax ∧ e'.ready = e.ready := by
  rw [resolveAddress] at h
  split at h
  · obtain ⟨pending, -, h⟩ := except_bind_eq_ok.mp h
    cases h
    exact ⟨rfl, rfl, rfl⟩
  · cases h
    exact ⟨rfl, rfl, rfl⟩

/-- What waking a dependant does. -/
theorem wakeDependant_spec {s s' : RobTimer μ} (hn : Numbered s) {producer cycleDepend d : Nat}
    (h : wakeDependant producer cycleDepend s d = .ok s') :
    ∃ i e uop addressReadyMax addressReady, s.rob[i]? = some e ∧ e.uop.sequenceNumber = d ∧
      e.uop.getDependenciesLength ≠ 0 ∧ e.uop.removeDependency producer = .ok uop ∧
      s' = s.modifyEntry i fun e => { e with
        uop := uop
        readyMax := max e.readyMax (cycleDepend : Time)
        ready := if uop.getDependenciesLength = 0 then max e.readyMax (cycleDepend : Time)
          else e.ready
        addressReadyMax := addressReadyMax
        addressReady := addressReady } := by
  obtain ⟨i, hfind, h⟩ := except_bind_eq_ok.mp h
  obtain ⟨e, hentry, h⟩ := except_bind_eq_ok.mp h
  obtain ⟨e', he, rfl⟩ := (findPosition_iff hn).mp hfind
  rw [entryAt_iff, he] at hentry
  obtain rfl := Option.some.inj hentry
  split at h
  · cases h
  · next hlen =>
    obtain ⟨uop, hremove, h⟩ := except_bind_eq_ok.mp h
    obtain ⟨resolved, hresolve, h⟩ := except_bind_eq_ok.mp h
    obtain ⟨huop, hreadyMax, hready⟩ := resolveAddress_spec hresolve
    refine ⟨i, e', uop, resolved.addressReadyMax, resolved.addressReady, he, rfl, hlen, hremove, ?_⟩
    cases h
    refine congrArg (fun rob => { s with rob := rob })
      ((modify_at he _).trans (Eq.trans ?_ (modify_at he _).symm))
    rw [huop, hreadyMax, hready]

/-- The dependants of `producer` that are still to be woken are those that still depend on it. -/
structure Waking (producer : Nat) (woken : List Nat) (s : RobTimer μ) : Prop where
  links : Links (some producer) s
  issued : ¬s.Undone producer
  waiting : ∀ e ∈ s.rob, e.uop.allDependencies.count producer = woken.count e.uop.sequenceNumber

theorem Waking.wake {s s' : RobTimer μ} {producer cycleDepend d : Nat} {woken : List Nat}
    (h : Waking producer (d :: woken) s) (hstep : wakeDependant producer cycleDepend s d = .ok s') :
    Waking producer woken s' := by
  obtain ⟨i, e, uop, addressReadyMax, addressReady, he, rfl, hlen, hremove, rfl⟩ :=
    wakeDependant_spec h.links.numbered hstep
  have hmem := List.mem_of_getElem? he
  have hdrop := removeDependency_drops (h.links.small e hmem) hremove
  have hkeeps : Keeps e { e with
      uop := uop
      readyMax := max e.readyMax (cycleDepend : Time)
      ready := if uop.getDependenciesLength = 0 then max e.readyMax (cycleDepend : Time)
        else e.ready
      addressReadyMax := addressReadyMax
      addressReady := addressReady } := ⟨hdrop.rewired.sequenceNumber, rfl, rfl⟩
  refine ⟨h.links.modifyEntry he hkeeps (hdrop.rewired.small (h.links.small e hmem)) ?_ ?_ ?_, ?_, ?_⟩
  · intro n hn
    have hne : producer ≠ n := by
      rintro rfl
      exact h.issued hn
    have hcount := hdrop.count n
    rw [if_neg hne] at hcount
    exact hcount
  · intro n hn
    exact hdrop.perm.subset (List.mem_cons_of_mem _ hn)
  · intro hready
    dsimp only at hready
    by_cases hzero : uop.getDependenciesLength = 0
    · exact hzero
    · rw [if_neg hzero] at hready
      exact absurd (h.links.ready e hmem hready) hlen
  · rw [undone_modifyEntry he hkeeps]
    exact h.issued
  · intro x' hx'
    obtain ⟨j, x, hx, rfl⟩ := mem_modifyEntry hx'
    have hold := h.waiting x (List.mem_of_getElem? hx)
    rw [List.count_cons] at hold
    by_cases hij : i = j
    · subst hij
      rw [he] at hx
      obtain rfl := Option.some.inj hx
      rw [if_pos rfl]
      have hcount := hdrop.count producer
      have hnumber := hdrop.rewired.sequenceNumber
      simp only [beq_self_eq_true, if_true] at hold hcount ⊢
      rw [hnumber]
      omega
    · have hne : e.uop.sequenceNumber ≠ x.uop.sequenceNumber :=
        fun hsame => hij (h.links.numbered.unique he hx hsame)
      rw [if_neg hij]
      simpa [hne] using hold

theorem Links.congr {except : Option Nat} {s t : RobTimer μ} (h : Links except s)
    (hrob : t.rob = s.rob) (hnext : t.nextSequenceNumber = s.nextSequenceNumber) :
    Links except t := by
  have hnumbered := h.numbered
  have hknown := h.known
  have hdependants := h.dependants
  unfold Numbered at hnumbered
  unfold Undone at hknown
  unfold Holds at hdependants
  rw [← hrob] at hnumbered hknown hdependants
  rw [← hnext] at hnumbered
  exact ⟨hnumbered, hrob ▸ h.small, hknown, hrob ▸ h.counts, hdependants, hrob ▸ h.ready⟩

/-- The micro-operation has the same dependencies, and they are of the same kind. -/
structure SameDependencies (uop uop' : DynamicMicroOp) : Prop where
  number : uop'.sequenceNumber = uop.sequenceNumber
  intra : uop'.intraInstructionDependencies = uop.intraInstructionDependencies
  offset : uop'.microOpTypeOffset = uop.microOpTypeOffset
  list : uop'.dependencies = uop.dependencies

theorem SameDependencies.all {uop uop' : DynamicMicroOp} (h : SameDependencies uop uop') :
    uop'.allDependencies = uop.allDependencies := by
  rw [allDependencies, allDependencies, firstIntra, firstIntra, h.number, h.intra, h.offset, h.list]

theorem SameDependencies.small {uop uop' : DynamicMicroOp} (h : SameDependencies uop uop')
    (hs : uop.Small) : uop'.Small := ⟨h.intra ▸ hs.intra, h.offset ▸ hs.offset⟩

/-- The entry is done, and its dependants have not been told yet. -/
theorem Links.issue {s : RobTimer μ} (h : Links none s) {i now cycleDone : Nat} {e : RobEntry}
    {uop : DynamicMicroOp} (he : s.rob[i]? = some e) (hdone : e.done = ⊤) (hready : e.ready ≠ ⊤)
    (huop : SameDependencies e.uop uop) :
    Waking uop.sequenceNumber e.dependants (s.markIssued now i uop cycleDone) := by
  have hmem := List.mem_of_getElem? he
  have hempty := h.ready e hmem (.inl hready)
  let f : RobEntry → RobEntry := fun x => { x with uop := uop, issued := now, done := cycleDone }
  have hnumbered : Numbered (s.modifyEntry i f) := h.numbered.modifyEntry he huop.number
  have hholds : ∀ n, s.Holds n → (s.modifyEntry i f).Holds n := fun n =>
    holds_modifyEntry he huop.number
  -- what is not done has not changed
  have hcases : ∀ j x', (s.modifyEntry i f).rob[j]? = some x' → ∃ x, s.rob[j]? = some x ∧
      SameDependencies x.uop x'.uop ∧ (i = j ∧ x = e ∧ x' = f e ∨ i ≠ j ∧ x' = x) := by
    intro j x' hx'
    obtain ⟨x, hx, rfl⟩ := modifyEntry_some hx'
    refine ⟨x, hx, ?_⟩
    by_cases hij : i = j
    · subst hij
      rw [he] at hx
      obtain rfl := Option.some.inj hx
      rw [if_pos rfl]
      exact ⟨huop, .inl ⟨rfl, rfl, rfl⟩⟩
    · rw [if_neg hij]
      exact ⟨⟨rfl, rfl, rfl, rfl⟩, .inr ⟨hij, rfl⟩⟩
  have hundone : ∀ n, n ≠ e.uop.sequenceNumber → s.Undone n → (s.modifyEntry i f).Undone n := by
    rintro n hne ⟨j, x, hx, hnumber, hx'⟩
    have hij : i ≠ j := by
      rintro rfl
      rw [he] at hx
      obtain rfl := Option.some.inj hx
      exact hne hnumber.symm
    exact ⟨j, x, by rw [getElem?_modifyEntry, hx]; simp [hij], hnumber, hx'⟩
  have hmems : ∀ x' ∈ (s.modifyEntry i f).rob, ∃ j x, s.rob[j]? = some x ∧
      SameDependencies x.uop x'.uop ∧ (i = j ∧ x = e ∧ x' = f e ∨ i ≠ j ∧ x' = x) := by
    intro x' hx'
    obtain ⟨j, hj⟩ := List.mem_iff_getElem?.mp hx'
    exact ⟨j, hcases j x' hj⟩
  have hstill : ∀ p' ∈ (s.modifyEntry i f).rob, p'.done = ⊤ → p' ∈ s.rob := by
    intro p' hp' htop
    obtain ⟨j, p, hp, -, ⟨-, -, rfl⟩ | ⟨-, rfl⟩⟩ := hmems p' hp'
    · cases htop
    · exact List.mem_of_getElem? hp
  have hlinks : Links (some uop.sequenceNumber) (s.modifyEntry i f) := by
    refine ⟨hnumbered, ?_, ?_, ?_, ?_, ?_⟩
    · intro x' hx'
      obtain ⟨j, x, hx, hsame, -⟩ := hmems x' hx'
      exact hsame.small (h.small x (List.mem_of_getElem? hx))
    · intro x' hx' n hn hexcept
      obtain ⟨j, x, hx, hsame, -⟩ := hmems x' hx'
      rw [hsame.all] at hn
      refine hundone n ?_ (h.known x (List.mem_of_getElem? hx) n hn nofun)
      rintro rfl
      exact hexcept (congrArg some huop.number)
    · intro x' hx' p' hp' htop
      obtain ⟨j, x, hx, hsame, -⟩ := hmems x' hx'
      rw [hsame.all, hsame.number]
      exact h.counts x (List.mem_of_getElem? hx) p' (hstill p' hp' htop) htop
    · intro p' hp' htop n hn
      exact hholds n (h.dependants p' (hstill p' hp' htop) htop n hn)
    · intro x' hx' hsoon
      obtain ⟨j, x, hx, hsame, ⟨-, rfl, -⟩ | ⟨-, rfl⟩⟩ := hmems x' hx'
      · rw [getDependenciesLength, hsame.intra, hsame.list]
        exact hempty
      · exact h.ready x' (List.mem_of_getElem? hx) hsoon
  refine ⟨hlinks.congr rfl rfl, ?_, ?_⟩
  · rintro ⟨j, x', hx', hnumber, htop⟩
    obtain ⟨x, hx, -, ⟨-, -, rfl⟩ | ⟨hij, rfl⟩⟩ := hcases j x' hx'
    · cases htop
    · exact hij (h.numbered.unique he hx (huop.number.symm.trans hnumber.symm))
  · intro x' hx'
    obtain ⟨j, x, hx, hsame, -⟩ := hmems x' hx'
    rw [hsame.all, hsame.number, huop.number]
    exact h.counts x (List.mem_of_getElem? hx) e hmem hdone

theorem Waking.finish {s : RobTimer μ} {producer : Nat} (h : Waking producer [] s) :
    Links none s := by
  refine { h.links with known := fun e he n hn _ => h.links.known e he n hn ?_ }
  intro hsame
  have hzero := h.waiting e he
  rw [List.count_nil, List.count_eq_zero, Option.some.inj hsame] at hzero
  exact hzero hn

theorem Waking.wakeAll {producer cycleDepend : Nat} (woken : List Nat) :
    ∀ {s s' : RobTimer μ}, Waking producer woken s →
    woken.foldlM (wakeDependant producer cycleDepend) s = .ok s' → Links none s' := by
  induction woken with
  | nil =>
    intro s s' h hfold
    rw [List.foldlM_nil] at hfold
    obtain rfl := Except.ok.inj hfold
    exact h.finish
  | cons d woken ih =>
    intro s s' h hfold
    rw [List.foldlM_cons] at hfold
    obtain ⟨t, hwake, hfold⟩ := except_bind_eq_ok.mp hfold
    exact ih (h.wake hwake) hfold

theorem access_spec (cfg : RobConfig σ μ) (s : RobTimer μ) (uop : DynamicMicroOp) :
    (s.access cfg uop).1.rob = s.rob ∧
      (s.access cfg uop).1.nextSequenceNumber = s.nextSequenceNumber ∧
      SameDependencies uop (s.access cfg uop).2 := by
  rw [access]
  split
  · exact ⟨rfl, rfl, rfl, rfl, rfl, rfl⟩
  · exact ⟨rfl, rfl, rfl, rfl, rfl, rfl⟩

theorem enterQueues_spec (s : RobTimer μ) (now : Nat) (uop : DynamicMicroOp) :
    ((s.enterQueue now uop).storeIssued now uop).rob = s.rob ∧
      ((s.enterQueue now uop).storeIssued now uop).nextSequenceNumber = s.nextSequenceNumber := by
  rw [enterQueue, storeIssued]
  cases uop.microOp.isLoad <;> cases uop.microOp.isStore <;> exact ⟨rfl, rfl⟩

theorem Links.issueInstruction {s s' : RobTimer μ} {now i done : Nat} {c c' : σ} {e : RobEntry}
    (h : Links none s) (he : s.rob[i]? = some e) (hdone : e.done = ⊤) (hready : e.ready ≠ ⊤)
    (hissue : issueInstruction cfg now s c i e = .ok (s', c', done)) : Links none s' := by
  rw [RobTimer.issueInstruction] at hissue
  obtain ⟨hrob, hnext, huop⟩ := access_spec cfg s e.uop
  generalize s.access cfg e.uop = accessed at hissue hrob hnext huop
  obtain ⟨s1, uop⟩ := accessed
  obtain ⟨hrob', hnext'⟩ := enterQueues_spec s1 now uop
  dsimp only at hissue hrob hnext huop
  split at hissue
  · cases hissue
  · obtain ⟨s2, hfold, hissue⟩ := except_bind_eq_ok.mp hissue
    have hqueued := h.congr (hrob'.trans hrob) (hnext'.trans hnext)
    have hentry : (RobTimer.storeIssued (s1.enterQueue now uop) now uop).rob[i]? = some e := by
      rw [hrob', hrob]
      exact he
    have hwaking : Waking uop.sequenceNumber e.dependants
        ((RobTimer.storeIssued (s1.enterQueue now uop) now uop).markIssued now i uop
          (completion now uop).2) := hqueued.issue hentry hdone hready huop
    have hwoken := hwaking.wakeAll e.dependants hfold
    cases hissue
    split
    · exact hwoken.congr rfl rfl
    · exact hwoken

/-! ### Commit and entering -/

theorem Links.commit {s : RobTimer μ} (h : Links none s) {e : RobEntry} {rest : List RobEntry}
    (hrob : s.rob = e :: rest) (hdone : e.done ≠ ⊤) : Links none { s with rob := rest } := by
  have hmem : ∀ x ∈ rest, x ∈ s.rob := fun x hx => hrob ▸ List.mem_cons_of_mem e hx
  have hempty : e.uop.allDependencies = [] :=
    allDependencies_eq_nil.mpr (h.ready e (hrob ▸ List.mem_cons_self) (.inr hdone))
  refine ⟨?_, fun x hx => h.small x (hmem x hx), ?_, fun x hx p hp => ?_, ?_, fun x hx => ?_⟩
  · intro i x hx
    have hi := h.numbered (i + 1) x (by rw [hrob]; exact hx)
    rw [hrob, List.length_cons] at hi
    simp only
    omega
  · intro x hx n hn hexcept
    obtain ⟨j, p, hp, hnumber, htop⟩ := h.known x (hmem x hx) n hn hexcept
    cases j with
    | zero =>
      rw [hrob] at hp
      obtain rfl := Option.some.inj hp
      exact absurd htop hdone
    | succ j => exact ⟨j, p, by rw [hrob] at hp; exact hp, hnumber, htop⟩
  · exact h.counts x (hmem x hx) p (hmem p hp)
  · intro p hp htop n hn
    obtain ⟨j, x, hx, rfl⟩ := h.dependants p (hmem p hp) htop n hn
    cases j with
    | zero =>
      -- what is committed waits for nobody
      rw [hrob] at hx
      obtain rfl := Option.some.inj hx
      have hcount := h.counts e (hrob ▸ List.mem_cons_self) p (hmem p hp) htop
      rw [hempty, List.count_nil] at hcount
      exact absurd hn (List.count_eq_zero.mp hcount.symm)
    | succ j => exact ⟨j, x, by rw [hrob] at hx; exact hx, rfl⟩
  · exact h.ready x (hmem x hx)

theorem Numbered.lt {s : RobTimer μ} (h : Numbered s) {n : Nat} (hn : s.Holds n) :
    n < s.nextSequenceNumber := by
  obtain ⟨i, e, he, rfl⟩ := hn
  have hi := h i e he
  have hlt := (List.getElem?_eq_some_iff.mp he).1
  omega

theorem Undone.holds {s : RobTimer μ} {n : Nat} (h : s.Undone n) : s.Holds n := by
  obtain ⟨i, e, he, hnumber, -⟩ := h
  exact ⟨i, e, he, hnumber⟩

theorem Undone.not_isDone {s : RobTimer μ} (hn : Numbered s) {n : Nat} (h : s.Undone n) :
    s.isDone n = false := by
  obtain ⟨i, e, he, rfl, htop⟩ := h
  rw [hn.isDone he]
  exact decide_eq_false (not_not.mpr htop)

theorem isDone_of_not_holds {s : RobTimer μ} {n : Nat} (h : ¬s.Holds n) : s.isDone n = false := by
  rw [isDone, entryIs, List.any_eq_false]
  intro e he hand
  rw [Bool.and_eq_true, decide_eq_true_eq] at hand
  obtain ⟨i, hi⟩ := List.mem_iff_getElem?.mp he
  exact h ⟨i, e, hi, hand.1⟩

section Entered

variable {s s' : RobTimer μ} {uop : DynamicMicroOp} {dependencies : List Nat} {final : RobEntry}

/-- What remains are the dependencies that are not done. -/
theorem Entered.count (h : Entered s s' uop dependencies final) (m : Nat) :
    final.uop.allDependencies.count m = if s.isDone m then 0 else dependencies.count m := by
  have hperm := h.remaining.count_eq m
  rw [List.count_append] at hperm
  by_cases hdone : s.isDone m = true
  · rw [List.count_filter hdone] at hperm
    rw [if_pos hdone]
    omega
  · have hnone : (dependencies.filter s.isDone).count m = 0 :=
      List.count_eq_zero.mpr fun hm => hdone (List.mem_filter.mp hm).2
    rw [if_neg hdone]
    omega

theorem Entered.mem (h : Entered s s' uop dependencies final) {x' : RobEntry} (hx' : x' ∈ s'.rob) :
    (∃ x ∈ s.rob, x' = linked s.nextSequenceNumber dependencies x) ∨ x' = final := by
  rw [h.rob, List.mem_append, List.mem_map, List.mem_singleton] at hx'
  exact hx'.imp_left fun ⟨x, hx, heq⟩ => ⟨x, hx, heq.symm⟩

theorem Entered.old (h : Entered s s' uop dependencies final) {i : Nat} {x : RobEntry}
    (hx : s.rob[i]? = some x) :
    s'.rob[i]? = some (linked s.nextSequenceNumber dependencies x) := by
  have hlt := (List.getElem?_eq_some_iff.mp hx).1
  rw [h.rob, List.getElem?_append_left (by simpa using hlt), List.getElem?_map, hx, Option.map_some]

theorem Entered.new (h : Entered s s' uop dependencies final) :
    s'.rob[s.rob.length]? = some final := by
  have hlength : s.rob.length = (s.rob.map (linked s.nextSequenceNumber dependencies)).length := by
    simp
  rw [h.rob, hlength, List.getElem?_concat_length]

/-- What can be issued at once has no dependencies that remain. -/
theorem Entered.resolved (h : Entered s s' uop dependencies final) (hready : final.ready ≠ ⊤) :
    final.uop.getDependenciesLength = 0 := by
  by_contra hlen
  exact hready (h.ready.trans (if_neg hlen))

theorem Entered.number (h : Entered s s' uop dependencies final) :
    final.uop.sequenceNumber = s.nextSequenceNumber := h.rewired.sequenceNumber

theorem Entered.holds (h : Entered s s' uop dependencies final) {n : Nat}
    (hn : s.Holds n ∨ n = s.nextSequenceNumber) : s'.Holds n := by
  rcases hn with ⟨i, x, hx, rfl⟩ | rfl
  · exact ⟨i, _, h.old hx, rfl⟩
  · exact ⟨_, final, h.new, h.number⟩

theorem Entered.numbered (h : Entered s s' uop dependencies final) (hn : Numbered s) :
    Numbered s' := by
  have hlinked := hn.linked s.nextSequenceNumber dependencies
  exact hlinked.append h.number h.rob h.next

/-- The number of a dependency on an entry that is not done is the number of times that the entry
lists the dependant, whether the one or the other is new. -/
theorem Entered.counts (he : Entered s s' uop dependencies final) (h : Links none s) :
    ∀ x' ∈ s'.rob, ∀ p' ∈ s'.rob, p'.done = ⊤ →
      x'.uop.allDependencies.count p'.uop.sequenceNumber =
        p'.dependants.count x'.uop.sequenceNumber := by
  have hnew : ¬s.Holds s.nextSequenceNumber := fun hn => absurd (h.numbered.lt hn) (lt_irrefl _)
  have hne : ∀ x ∈ s.rob, s.nextSequenceNumber ≠ x.uop.sequenceNumber := by
    intro x hx hsame
    obtain ⟨i, hi⟩ := List.mem_iff_getElem?.mp hx
    exact hnew ⟨i, x, hi, hsame.symm⟩
  intro x' hx' p' hp' htop
  rcases he.mem hx' with ⟨x, hx, rfl⟩ | rfl
  · rcases he.mem hp' with ⟨p, hp, rfl⟩ | rfl
    · have hold := h.counts x hx p hp htop
      rw [linked_dependants (e := p) htop]
      simp only [linked]
      rw [List.count_append, List.count_replicate, hold]
      simp [hne x hx]
    · rw [he.dependants, he.number]
      have hzero : x.uop.allDependencies.count s.nextSequenceNumber = 0 :=
        List.count_eq_zero.mpr fun hn => hnew (h.known x hx _ hn (Option.some_ne_none _).symm).holds
      simp only [linked, newDependants, if_true]
      rw [List.count_replicate, hzero]
      simp [hne x hx]
  · rcases he.mem hp' with ⟨p, hp, rfl⟩ | rfl
    · obtain ⟨i, hi⟩ := List.mem_iff_getElem?.mp hp
      have hundone : s.Undone p.uop.sequenceNumber := ⟨i, p, hi, rfl, htop⟩
      have hcount : x'.uop.allDependencies.count p.uop.sequenceNumber =
          dependencies.count p.uop.sequenceNumber := by
        rw [he.count, hundone.not_isDone h.numbered]
        rfl
      have hzero : p.dependants.count s.nextSequenceNumber = 0 :=
        List.count_eq_zero.mpr fun hn => hnew (h.dependants p hp htop _ hn)
      refine hcount.trans ?_
      rw [linked_dependants (e := p) htop, he.number, List.count_append, List.count_replicate_self,
        hzero, Nat.zero_add]
    · rw [he.count, he.dependants, he.number, isDone_of_not_holds hnew]
      simp [newDependants]

theorem Entered.links (he : Entered s s' uop dependencies final) (hs : uop.Small)
    (h : Links none s) : Links none s' := by
  refine ⟨he.numbered h.numbered, ?_, ?_, he.counts h, ?_, ?_⟩
  · intro x' hx'
    rcases he.mem hx' with ⟨x, hx, rfl⟩ | rfl
    · exact h.small x hx
    · exact he.rewired.small ⟨hs.intra, hs.offset⟩
  · intro x' hx' n hn hexcept
    rcases he.mem hx' with ⟨x, hx, rfl⟩ | rfl
    · obtain ⟨i, p, hp, hnumber, htop⟩ := h.known x hx n hn hexcept
      exact ⟨i, _, he.old hp, hnumber, htop⟩
    · have hpos := List.count_pos_iff.mpr hn
      rw [he.count] at hpos
      by_cases hdone : s.isDone n = true
      · simp [hdone] at hpos
      · rw [if_neg hdone] at hpos
        rcases he.found n (List.count_pos_iff.mp hpos) with ⟨i, p, hp, rfl⟩ | rfl
        · refine ⟨i, _, he.old hp, rfl, ?_⟩
          rw [h.numbered.isDone hp, decide_eq_true_eq, not_not] at hdone
          exact hdone
        · exact ⟨_, _, he.new, he.number, he.done⟩
  · intro p' hp' htop n hn
    refine he.holds ?_
    rcases he.mem hp' with ⟨p, hp, rfl⟩ | rfl
    · rw [linked_dependants (e := p) htop, List.mem_append] at hn
      rcases hn with hn | hn
      · exact .inl (h.dependants p hp htop n hn)
      · exact .inr (List.eq_of_mem_replicate hn)
    · rw [he.dependants, newDependants, if_pos rfl] at hn
      exact .inr (List.eq_of_mem_replicate hn)
  · intro x' hx' hsoon
    rcases he.mem hx' with ⟨x, hx, rfl⟩ | rfl
    · exact h.ready x hx hsoon
    · rcases hsoon with hready | hdone
      · exact he.resolved hready
      · exact absurd he.done hdone

end Entered

theorem Links.enqueue {s s' : RobTimer μ} {uop : DynamicMicroOp} (h : Links none s)
    (hs : uop.Small) (henqueue : enqueue cfg s uop = .ok s') : Links none s' := by
  rcases enqueue_entered h.numbered hs henqueue with rfl | ⟨_, _, _, _, -, he, -⟩
  · exact h
  · exact he.links hs h

/-! ### Whole runs -/

/-- The parts of the state that are the same for all who wait. -/
structure SameCore (s t : RobTimer μ) : Prop where
  rob : t.rob = s.rob
  next : t.nextSequenceNumber = s.nextSequenceNumber
  registers : t.registerDependencies = s.registerDependencies
  memory : t.memoryDependencies = s.memoryDependencies

/-- What survives each change that a cycle makes to the entries. -/
structure Survives (cfg : RobConfig σ μ) (I : RobTimer μ → Prop) : Prop where
  core : ∀ {s t : RobTimer μ}, I s → SameCore s t → I t
  dispatch : ∀ {s : RobTimer μ} (now : Nat), I s → I (s.modifyEntry s.numInRob (dispatchEntry now))
  issue : ∀ {s s' : RobTimer μ} {now i done : Nat} {c c' : σ} {e : RobEntry}, I s →
    s.rob[i]? = some e → e.done = ⊤ → e.ready ≤ (now : Time) →
    issueInstruction cfg now s c i e = .ok (s', c', done) → I s'
  commit : ∀ {s : RobTimer μ} {e : RobEntry} {rest : List RobEntry}, I s → s.rob = e :: rest →
    e.done ≠ ⊤ → I { s with rob := rest }

section Survives

variable {I : RobTimer μ → Prop} {s s' : RobTimer μ} {now : Nat}

theorem Survives.fetched (h : Survives cfg I) (hs : I s) (entry : RobEntry) :
    I (s.fetched entry) := by
  rw [RobTimer.fetched]
  split
  · exact h.core hs ⟨rfl, rfl, rfl, rfl⟩
  · exact hs

theorem Survives.dispatchNext (h : Survives cfg I) (hs : I s) : I (s.dispatchNext now) :=
  h.core (h.dispatch now hs) ⟨rfl, rfl, rfl, rfl⟩

theorem Survives.dispatchLoop (h : Survives cfg I) {left : Nat} {nextEvent e : Time} (hs : I s)
    (hloop : dispatchLoop cfg now left s nextEvent = .ok (s', e)) : I s' := by
  induction left generalizing s nextEvent with
  | zero =>
    rw [RobTimer.dispatchLoop] at hloop
    split at hloop
    · split at hloop
      · cases hloop
      · cases hloop
        exact hs
    · cases hloop
      exact hs
  | succ left ih =>
    rw [RobTimer.dispatchLoop] at hloop
    split at hloop
    · cases hentry : s.rob[s.numInRob]? with
      | none => simp [hentry] at hloop
      | some entry =>
        simp only [hentry] at hloop
        have hf := h.fetched hs entry
        split at hloop
        · cases hloop
          exact h.core hs ⟨rfl, rfl, rfl, rfl⟩
        · split at hloop
          · cases hloop
            exact hf
          · split at hloop
            · cases hloop
              exact h.core (h.dispatchNext hf) ⟨rfl, rfl, rfl, rfl⟩
            · exact ih (h.dispatchNext hf) hloop
    · cases hloop
      exact hs

theorem Survives.doDispatch (h : Survives cfg I) {e : Time} (hs : I s)
    (hdispatch : doDispatch cfg now s = .ok (s', e)) : I s' := by
  obtain ⟨⟨t, nextEvent⟩, hloop, hdispatch⟩ := except_bind_eq_ok.mp hdispatch
  cases hdispatch
  split at hloop
  · exact h.dispatchLoop hs hloop
  · cases hloop
    exact hs

/-- Only what is ready can be issued. -/
theorem ready_of_tryIssue {scan : Scan} {c c' : σ} {entry : RobEntry}
    (h : tryIssue cfg c (verdict cfg now s scan entry) entry.uop = (true, c')) :
    entry.ready ≤ (now : Time) := by
  by_contra hlate
  rw [verdict_wait (lt_of_not_ge hlate), tryIssue_wait] at h
  cases h

theorem Survives.issueLoop (h : Survives cfg I) {left i : Nat} {scan : Scan} {c c' : σ} {e : Time}
    (hs : I s) (hloop : issueLoop cfg now left i scan s c = .ok (s', c', e)) : I s' := by
  induction left generalizing i scan s c with
  | zero =>
    cases hloop
    exact hs
  | succ left ih =>
    rw [RobTimer.issueLoop] at hloop
    cases hentry : s.rob[i]? with
    | none => simp [hentry] at hloop
    | some entry =>
      simp only [hentry] at hloop
      split at hloop
      · exact ih hs hloop
      · next hdone =>
        split at hloop
        · cases hloop
          exact hs
        · split at hloop
          · next hcan =>
            obtain ⟨⟨s1, c1, done⟩, hissue, hloop⟩ := except_bind_eq_ok.mp hloop
            have hready := ready_of_tryIssue (Prod.ext hcan rfl)
            have hs1 := h.issue hs hentry (not_not.mp hdone) hready hissue
            dsimp only at hloop
            split at hloop
            · cases hloop
              exact hs1
            · exact ih hs1 hloop
          · split at hloop
            · cases hloop
              exact hs
            · exact ih hs hloop

theorem Survives.commitLoop (h : Survives cfg I) {committed : Nat} {rob : List RobEntry}
    (hs : I s) (hrob : s.rob = rob) : I (commitLoop cfg now rob committed s) := by
  induction rob generalizing committed s with
  | nil => exact hs
  | cons entry rest ih =>
    rw [RobTimer.commitLoop]
    split
    · next hle =>
      have hnext : I (commitEntry now s entry rest) :=
        h.core (h.commit hs hrob (ne_top_of_le_ne_top WithTop.coe_ne_top hle))
          ⟨rfl, rfl, rfl, rfl⟩
      split
      · exact hnext
      · exact ih hnext rfl
    · exact hs

theorem Survives.cycle (h : Survives cfg I) {c c' : σ} {e : Time} (hs : I s)
    (hcycle : cycle cfg now s c = .ok (s', c', e)) : I s' := by
  obtain ⟨⟨s1, e1⟩, hdispatch, hcycle⟩ := except_bind_eq_ok.mp hcycle
  obtain ⟨⟨s2, c2, e2⟩, hissue, hcycle⟩ := except_bind_eq_ok.mp hcycle
  cases hcycle
  exact h.commitLoop (h.issueLoop (h.doDispatch hs hdispatch) hissue) rfl

end Survives

theorem Survives.and {I J : RobTimer μ → Prop} (hI : Survives cfg I) (hJ : Survives cfg J) :
    Survives cfg fun s => I s ∧ J s where
  core h hcore := ⟨hI.core h.1 hcore, hJ.core h.2 hcore⟩
  dispatch now h := ⟨hI.dispatch now h.1, hJ.dispatch now h.2⟩
  issue h he hdone hready hissue :=
    ⟨hI.issue h.1 he hdone hready hissue, hJ.issue h.2 he hdone hready hissue⟩
  commit h hrob hdone := ⟨hI.commit h.1 hrob hdone, hJ.commit h.2 hrob hdone⟩

theorem links_survives (cfg : RobConfig σ μ) : Survives cfg (Links none) where
  core h hcore := h.congr hcore.rob hcore.next
  dispatch now h := h.dispatch now _
  issue h he hdone hready hissue :=
    h.issueInstruction he hdone (ne_top_of_le_ne_top WithTop.coe_ne_top hready) hissue
  commit h hrob hdone := h.commit hrob hdone

end RobTimer

/-- A micro-operation as it comes from the decoder: it has no dependencies yet but those on its own
instruction. -/
structure DynamicMicroOp.Fresh (uop : DynamicMicroOp) : Prop where
  small : uop.Small
  dependencies : uop.dependencies = []

namespace RobState

variable {σ μ : Type} {cfg : RobConfig σ μ} {mode : Mode} {start : RobState σ μ}

/-- The states in which the timer can be, whatever micro-operations come, and when. -/
inductive Reachable (cfg : RobConfig σ μ) (mode : Mode) (start : RobState σ μ) :
    RobState σ μ → Prop where
  | start : Reachable cfg mode start start
  | enqueue {s : RobState σ μ} {uop : DynamicMicroOp} {timer : RobTimer μ} :
      Reachable cfg mode start s → uop.Fresh → s.timer.enqueue cfg uop = .ok timer →
      Reachable cfg mode start { s with timer := timer }
  | execute {s t : RobState σ μ} : Reachable cfg mode start s →
      s.execute cfg mode = .ok (some t) → Reachable cfg mode start t

theorem Reachable.invariant {I : RobTimer μ → Prop} (hI : RobTimer.Survives cfg I)
    (henqueue : ∀ {s s' : RobTimer μ} {uop : DynamicMicroOp}, I s → uop.Fresh →
      s.enqueue cfg uop = .ok s' → I s') (hstart : I start.timer) {s : RobState σ μ}
    (h : Reachable cfg mode start s) : I s.timer := by
  induction h with
  | start => exact hstart
  | enqueue _ hfresh hstep ih => exact henqueue ih hfresh hstep
  | execute _ hstep ih =>
    obtain ⟨-, timer, c, e, hcycle, rfl⟩ := execute_some.mp hstep
    exact hI.cycle ih hcycle

theorem links_new (loads stores : Nat) (memory : μ) (contention : σ) :
    RobTimer.Links none (new loads stores memory contention).timer := by
  have hempty : ∀ e : RobEntry, e ∉ (new loads stores memory contention).timer.rob :=
    fun _ => List.not_mem_nil
  exact ⟨fun i e he => absurd (List.mem_of_getElem? he) (hempty e),
    fun e he => absurd he (hempty e), fun e he => absurd he (hempty e),
    fun e he => absurd he (hempty e), fun e he => absurd he (hempty e),
    fun e he => absurd he (hempty e)⟩

theorem Reachable.links {loads stores : Nat} {memory : μ} {contention : σ} {s : RobState σ μ}
    (h : Reachable cfg mode (new loads stores memory contention) s) :
    RobTimer.Links none s.timer :=
  h.invariant (RobTimer.links_survives cfg) (fun hs hfresh => hs.enqueue hfresh.small)
    (links_new loads stores memory contention)

end RobState

end Sniper.Performance
