import Sniper.Performance.StoreAddresses
set_option autoImplicit false

/-! When a micro-operation can enter the reorder buffer: which assertions can fail. -/

namespace Sniper.Performance
open Sniper.Lib DynamicMicroOp

theorem DynamicMicroOp.addDependency_error {uop : DynamicMicroOp} {x : Nat} {a : RobAbort}
    (h : uop.addDependency x = .error a) : a = .tooManyDependencies := by
  rw [addDependency] at h
  split at h
  · cases h
  · split at h
    · cases h
    · exact (Except.error.inj h).symm

theorem DynamicMicroOp.addDependencies_error {uop : DynamicMicroOp} {l : List Nat} {a : RobAbort}
    (h : l.foldlM addDependency uop = .error a) : a = .tooManyDependencies := by
  obtain ⟨u, x, -, herror⟩ := foldlM_error (I := fun _ => True) (fun _ _ _ _ _ => trivial) trivial h
  exact addDependency_error herror

theorem length_foldl_addNew (l : List Nat) :
    ∀ acc : List Nat, (l.foldl addNew acc).length ≤ acc.length + l.length := by
  induction l with
  | nil => exact fun _ => Nat.le_refl _
  | cons x l ih =>
    intro acc
    rw [List.foldl_cons, List.length_cons]
    refine (ih _).trans ?_
    rw [addNew]
    split
    · omega
    · rw [List.length_append, List.length_singleton]
      omega

namespace RobTimer

variable {σ μ : Type} {cfg : RobConfig σ μ} {start s : RobTimer μ} {uop : DynamicMicroOp}

/-- What a micro-operation must be so that its dependencies can be removed again: the tables name
only earlier instructions, or what it depends on in its own. -/
structure Fits (s : RobTimer μ) (uop : DynamicMicroOp) : Prop where
  fresh : uop.Fresh
  squashed : uop.squashed = false
  start : uop.microOpTypeOffset + uop.intraInstructionDependencies ≤ s.nextSequenceNumber
  bounded : s.nextSequenceNumber < 2 ^ 64
  own : ∀ d ∈ s.ownProducers uop, s.Holds d
  separate : ∀ n ∈ s.announced uop, (s.renumbered uop).firstIntra ≤ n → n ∈ s.ownProducers uop
  room : 2 ≤ uop.intraInstructionDependencies →
    uop.intraInstructionDependencies + (s.announced uop).length ≤ maximumNumberOfDependencies
  load : uop.microOp.isLoad = true → uop.intraInstructionDependencies = 0
  address : uop.microOp.isStore = true → ∀ reg, some reg ∈ uop.microOp.addressRegisters →
    reg ∈ uop.microOp.sourceRegisters

/-- What holds of the buffer between two steps of a run. -/
structure Bookkept (cfg : RobConfig σ μ) (start s : RobTimer μ) : Prop where
  history : HasHistory cfg start s
  tables : TablesKnown s
  sound : ∀ e ∈ s.rob, Sound s e

/-! ### The dependencies of a new entry -/

theorem Fits.tidy (h : Fits s uop) : ((s.renumbered uop).addAll (s.announced uop)).Tidy := by
  have hdeps : ((s.renumbered uop).addAll (s.announced uop)).dependencies =
      (s.announced uop).foldl addNew [] := by
    rw [← h.fresh.dependencies]
    rfl
  refine ⟨⟨h.fresh.small.intra, h.fresh.small.offset⟩, h.start, h.bounded, ?_, ?_⟩
  · intro n hn hle
    rw [hdeps, mem_foldl_addNew] at hn
    exact h.separate n (hn.resolve_left List.not_mem_nil) hle
  · intro htwo
    rw [length_allDependencies, getDependenciesLength, hdeps]
    have hlength := length_foldl_addNew (s.announced uop) []
    rw [List.length_nil, Nat.zero_add] at hlength
    exact (Nat.add_le_add_left hlength _).trans (h.room htwo)

theorem Fits.all_eq (h : Fits s uop) :
    ((s.renumbered uop).addAll (s.announced uop)).allDependencies = s.producers uop := by
  rw [producers, ← h.fresh.dependencies]
  rfl

theorem Fits.holds (h : Fits s uop) (hbook : Bookkept cfg start s) {n : Nat}
    (hn : n ∈ ((s.renumbered uop).addAll (s.announced uop)).allDependencies) : s.Holds n :=
  producers_hold hbook.history.links.numbered hbook.tables h.own n (h.all_eq ▸ hn)

/-- What the load depends on in the place of the store is before the store. -/
theorem Fits.forwarded_tidy (h : Fits s uop) (hbook : Bookkept cfg start s) {uop' : DynamicMicroOp}
    (hforward : (s.withEntry uop).forwardStore cfg
      ((s.renumbered uop).addAll (s.announced uop)) = .ok uop') : uop'.Tidy := by
  have htidy := h.tidy
  rw [forwardStore] at hforward
  split at hforward
  · next hload =>
    have hintra := h.load (Bool.and_eq_true_iff.mp hload).2
    have hn := withEntry_numbered hbook.history.links.numbered uop
    rcases forward_spec hn htidy.small hforward with
      ⟨-, rfl⟩ | ⟨d, i, e, uop1, hfind, he, hnumber, hdrop, rfl⟩
    · exact htidy
    · have hd := List.mem_of_find?_eq_some hfind
      have hplain := fun n hn => htidy.lt_firstIntra hintra (n := n) hn
      obtain ⟨j, x, hx, hxd⟩ := h.holds hbook hd
      obtain rfl : i = j := hn.unique he (withEntry_some hx) (hnumber.trans hxd.symm)
      rw [withEntry_some hx] at he
      obtain rfl := Option.some.inj he
      have hstore := (hbook.sound x (List.mem_of_getElem? hx)).tidy
      have hrewired := hdrop.rewired
      have hintra1 : uop1.intraInstructionDependencies = 0 :=
        Nat.le_zero.mp (hintra ▸ hrewired.intra)
      have hfirst : uop1.firstIntra = ((s.renumbered uop).addAll (s.announced uop)).firstIntra := by
        rw [firstIntra, firstIntra, hrewired.sequenceNumber, hrewired.offset, hintra1, ← hintra]
        rfl
      have hsmall := hrewired.small htidy.small
      refine Tidy.of_plain ⟨hsmall.intra, hsmall.offset⟩ hintra1 ?_ ?_ ?_
      · change uop1.microOpTypeOffset ≤ uop1.sequenceNumber
        rw [hrewired.offset, hrewired.sequenceNumber]
        exact (Nat.le_add_right _ _).trans htidy.start
      · exact hrewired.sequenceNumber.trans_lt htidy.bounded
      · intro m hm
        refine Nat.lt_of_lt_of_eq ?_ hfirst.symm
        rcases mem_addAll (List.mem_append_right _ hm) with hm | hm
        · exact hplain m (hdrop.perm.subset (List.mem_cons_of_mem d hm))
        · exact (hnumber ▸ hstore.lt hm).trans (hplain d hd)
  · cases hforward
    exact htidy

/-! ### The address of a new store -/

theorem le_latestDone (hn : Numbered s) {l : List Nat} {i : Nat} {e : RobEntry}
    (he : s.rob[i]? = some e) (hdone : e.done ≠ ⊤) (hmem : e.uop.sequenceNumber ∈ l) :
    e.done ≤ s.latestDone l := by
  have hin : e.uop.sequenceNumber ∈ l.toFinset.filter fun d => s.isDone d := by
    rw [Finset.mem_filter, List.mem_toFinset, hn.isDone he]
    exact ⟨hmem, decide_eq_true hdone⟩
  rw [← hn.doneTime he]
  exact Finset.le_sup hin

theorem latestDone_ne_top (hn : Numbered s) (l : List Nat) : s.latestDone l ≠ ⊤ := by
  refine ne_of_lt ((Finset.sup_lt_iff bot_lt_top).mpr fun d hd => ?_)
  exact lt_top_iff_ne_top.mpr ((isDone_iff s hn d).mp (Finset.mem_filter.mp hd).2)

theorem latestDone_mono {l l' : List Nat} (h : ∀ n ∈ l, n ∈ l') :
    s.latestDone l ≤ s.latestDone l' := by
  refine Finset.sup_mono fun d hd => ?_
  rw [Finset.mem_filter, List.mem_toFinset] at hd ⊢
  exact ⟨h d hd.1, hd.2⟩

/-- The producers of an address that are left, and how long the others have been done. -/
structure AddressOf (s : RobTimer μ) (l : List Nat) (entry : RobEntry) : Prop where
  producers : ∀ q ∈ entry.addressProducers, q ∈ l ∧ s.Undone q
  bound : entry.addressReadyMax ≤ s.latestDone l

theorem addressRegister_progress (hn : Numbered s) (uop : DynamicMicroOp) {l : List Nat}
    {entry : RobEntry} (h : AddressOf s l entry) {reg : Option Nat} {lowest : Nat}
    (hreg : ∀ q, s.registerDependencies.peekProducer reg lowest = some q → q ∈ l ∧ s.Holds q) :
    ∃ entry', (s.withEntry uop).addressRegister lowest entry reg = .ok entry' ∧
      AddressOf s l entry' ∧ entry'.addressReady = entry.addressReady := by
  rw [addressRegister]
  cases hproducer : (s.withEntry uop).registerDependencies.peekProducer reg lowest with
  | none => exact ⟨entry, rfl, h, rfl⟩
  | some q =>
    obtain ⟨hmem, i, e, he, rfl⟩ := hreg q hproducer
    have hfind : (s.withEntry uop).findEntryBySequenceNumber e.uop.sequenceNumber = .ok e :=
      except_bind_eq_ok.mpr ⟨i, (findPosition_iff (withEntry_numbered hn uop)).mpr
        ⟨e, withEntry_some he, rfl⟩, entryAt_iff.mpr (withEntry_some he)⟩
    simp only [hfind, bind, Except.bind]
    by_cases hdone : e.done = ⊤
    · rw [if_neg (not_not.mpr hdone)]
      refine ⟨_, rfl, ⟨fun q hq => ?_, h.bound⟩, rfl⟩
      rcases List.mem_append.mp hq with hq | hq
      · exact h.producers q hq
      · rw [List.mem_singleton.mp hq]
        exact ⟨hmem, i, e, he, rfl, hdone⟩
    · rw [if_pos hdone]
      exact ⟨_, rfl, ⟨h.producers, max_le h.bound (le_latestDone hn he hdone hmem)⟩, rfl⟩

theorem addressRegisters_progress (hn : Numbered s) (lowest : Nat) (uop : DynamicMicroOp)
    {l : List Nat} (registers : List (Option Nat)) : ∀ {entry : RobEntry}, AddressOf s l entry →
    (∀ reg ∈ registers, ∀ q, s.registerDependencies.peekProducer reg lowest = some q →
      q ∈ l ∧ s.Holds q) →
    ∃ entry', registers.foldlM ((s.withEntry uop).addressRegister lowest) entry = .ok entry' ∧
      AddressOf s l entry' ∧ entry'.addressReady = entry.addressReady := by
  induction registers with
  | nil => exact fun h _ => ⟨_, rfl, h, rfl⟩
  | cons reg registers ih =>
    intro entry h hregs
    obtain ⟨entry1, hstep, h1, hready1⟩ :=
      addressRegister_progress hn uop h (hregs reg List.mem_cons_self)
    obtain ⟨entry2, hrest, h2, hready2⟩ :=
      ih h1 fun other hother => hregs other (List.mem_cons_of_mem reg hother)
    exact ⟨entry2, except_bind_eq_ok.mpr ⟨entry1, hstep, hrest⟩, h2, hready2.trans hready1⟩

/-- The producers of the address of a store are among those of the store. -/
theorem addressDependencies_progress (hn : Numbered s) (ht : TablesKnown s) (h : Fits s uop) :
    ∃ entry, (s.withEntry uop).addressDependencies s.lowest
        (RobEntry.init uop s.nextSequenceNumber) = .ok entry ∧
      AddressOf s (s.announced uop) entry ∧
      (uop.microOp.isStore = false → entry = RobEntry.init uop s.nextSequenceNumber) ∧
      (entry.addressReady ≠ ⊤ → entry.addressReady = entry.addressReadyMax) ∧
      (uop.microOp.isStore = true → entry.addressReady = ⊤ → entry.addressProducers ≠ []) := by
  have hinit : AddressOf s (s.announced uop) (RobEntry.init uop s.nextSequenceNumber) :=
    ⟨fun q hq => absurd hq List.not_mem_nil, bot_le⟩
  rw [addressDependencies]
  cases hstore : uop.microOp.isStore with
  | false =>
    rw [if_neg (by exact ne_true_of_eq_false hstore)]
    exact ⟨_, rfl, hinit, fun _ => rfl, fun hne => absurd rfl hne,
      fun htrue => absurd htrue Bool.false_ne_true⟩
  | true =>
    rw [if_pos (by exact hstore)]
    obtain ⟨entry, hfold, haddress, hready⟩ := addressRegisters_progress hn s.lowest uop
      uop.microOp.addressRegisters hinit (by
        intro reg hreg q hq
        cases reg with
        | none => cases hq
        | some reg =>
          have hmem : q ∈ s.announced uop := List.mem_append_left _ (List.mem_append_left _
            (List.mem_filterMap.mpr ⟨reg, h.address hstore reg hreg, hq⟩))
          exact ⟨hmem, holds_announced hn ht hmem⟩)
    refine ⟨_, except_bind_eq_ok.mpr ⟨entry, hfold, rfl⟩, ?_⟩
    split
    · refine ⟨⟨haddress.producers, haddress.bound⟩, fun hload => ?_, fun _ => rfl,
        fun _ htop => ?_⟩
      · cases hload
      have hbound := haddress.bound
      rw [show entry.addressReadyMax = ⊤ from htop, top_le_iff] at hbound
      exact absurd hbound (latestDone_ne_top hn _)
    · next hnone =>
      refine ⟨haddress, fun hload => ?_, fun hne => absurd hready hne, fun _ _ => hnone⟩
      cases hload

/-! ### The assertions on the way into the buffer -/

theorem registers_error {deps : RegisterDependencies} {uop : DynamicMicroOp} {lowest : Nat}
    {a : RobAbort} (h : deps.setDependencies uop lowest = .error a) : a = .tooManyDependencies := by
  rcases except_bind_eq_error.mp h with h | ⟨state, -, h⟩
  · obtain ⟨u, reg, -, herror⟩ :=
      foldlM_error (I := fun _ => True) (fun _ _ _ _ _ => trivial) trivial h
    rw [RegisterDependencies.source] at herror
    split at herror
    · cases herror
    · split at herror
      · rcases except_bind_eq_error.mp herror with herror | ⟨v, -, herror⟩
        · exact addDependency_error herror
        · cases herror
      · cases herror
  · cases h

theorem addMembar_error {deps : MemoryDependencies} {uop : DynamicMicroOp} {lowest : Nat}
    {a : RobAbort} (h : deps.addMembar uop lowest = .error a) : a = .tooManyDependencies := by
  rw [MemoryDependencies.addMembar] at h
  split at h
  · split at h
    · exact addDependency_error h
    · cases h
  · cases h

theorem memory_error {deps : MemoryDependencies} {uop : DynamicMicroOp} {lowest : Nat}
    {a : RobAbort} (h : deps.setDependencies uop lowest = .error a) :
    a = .queueFull ∨ a = .tooManyDependencies := by
  rw [MemoryDependencies.setDependencies] at h
  dsimp only at h
  split at h
  · cases hfind : (deps.clean lowest).find uop.phys with
    | none =>
      simp only [hfind] at h
      rcases except_bind_eq_error.mp h with h | ⟨found, -, h⟩
      · cases h
      · rcases except_bind_eq_error.mp h with h | ⟨u, -, h⟩
        · exact .inr (addMembar_error h)
        · cases h
    | some producer =>
      simp only [hfind] at h
      rcases except_bind_eq_error.mp h with h | ⟨found, -, h⟩
      · exact .inr (addDependency_error h)
      · rcases except_bind_eq_error.mp h with h | ⟨u, -, h⟩
        · exact .inr (addMembar_error h)
        · cases h
  · split at h
    · split at h
      · rcases except_bind_eq_error.mp h with h | ⟨u, -, h⟩
        · exact .inr (addMembar_error h)
        · cases h
      · exact .inl (Except.error.inj h).symm
    · split at h
      · rcases except_bind_eq_error.mp h with h | ⟨u, -, h⟩
        · exact .inr (addMembar_error h)
        · cases h
      · cases h

/-- The store whose value is forwarded can be found and removed. -/
theorem forward_error {t : RobTimer μ} (hn : Numbered t) {uop : DynamicMicroOp} (htidy : uop.Tidy)
    {l : List Nat} (hl : ∀ d ∈ l, d ∈ uop.allDependencies ∧ t.Holds d) {a : RobAbort}
    (h : t.forward uop l = .error a) : a = .tooManyDependencies := by
  induction l with
  | nil =>
    rw [forward] at h
    cases h
  | cons d l ih =>
    obtain ⟨hmem, i, e, he, rfl⟩ := hl d List.mem_cons_self
    have hfind : t.findEntryBySequenceNumber e.uop.sequenceNumber = .ok e :=
      except_bind_eq_ok.mpr ⟨i, (findPosition_iff hn).mpr ⟨e, he, rfl⟩, entryAt_iff.mpr he⟩
    rw [forward, hfind] at h
    rcases except_bind_eq_error.mp h with h | ⟨e', he', h⟩
    · cases h
    · obtain rfl := Except.ok.inj he'
      split at h
      · obtain ⟨uop1, hremove, -⟩ := htidy.removeDependency hmem
        rw [hremove] at h
        rcases except_bind_eq_error.mp h with h | ⟨uop2, -, h⟩
        · cases h
        · exact addDependencies_error h
      · exact ih (fun d hd => hl d (List.mem_cons_of_mem _ hd)) h

theorem prepare_eq (cfg : RobConfig σ μ) (s : RobTimer μ) (uop : DynamicMicroOp) :
    prepare cfg s uop = (do
      let entry ← (s.withEntry uop).addressDependencies s.lowest
        (RobEntry.init uop s.nextSequenceNumber)
      let (t, uop) ← (s.withEntry uop).dependencies cfg s.lowest entry
      return (t, entry, uop)) := by
  rw [← lowest_withEntry s uop]
  rfl

/-- Before the producers are looked up only the room for dependencies and for stores can run out. -/
theorem prepare_error (h : Fits s uop) (hbook : Bookkept cfg start s) {a : RobAbort}
    (herror : prepare cfg s uop = .error a) : a = .queueFull ∨ a = .tooManyDependencies := by
  have hlinks := hbook.history.links
  obtain ⟨entry, haddress, -⟩ := addressDependencies_progress hlinks.numbered hbook.tables h
  have huop : entry.uop = s.renumbered uop := (addressDependencies_uop haddress).1
  rw [prepare_eq, haddress] at herror
  rcases except_bind_eq_error.mp herror with herror | ⟨entry', hentry, herror⟩
  · cases herror
  obtain rfl := Except.ok.inj hentry
  rcases except_bind_eq_error.mp herror with herror | ⟨state, -, herror⟩
  swap
  · cases herror
  rcases except_bind_eq_error.mp herror with herror | ⟨⟨registers, uop1⟩, hregisters, herror⟩
  · exact .inr (registers_error herror)
  rcases except_bind_eq_error.mp herror with herror | ⟨⟨memory, uop2⟩, hmemory, herror⟩
  · exact memory_error herror
  rw [huop] at hregisters
  obtain ⟨rfl, hall⟩ := announced_dependencies h.fresh hregisters hmemory
  rcases except_bind_eq_error.mp herror with herror | ⟨uop3, -, herror⟩
  swap
  · cases herror
  rw [forwardStore] at herror
  split at herror
  · refine .inr (forward_error (withEntry_numbered hlinks.numbered uop) h.tidy ?_ herror)
    intro d hd
    obtain ⟨i, e, he, hnumber⟩ := h.holds hbook hd
    exact ⟨hd, i, e, withEntry_some he, hnumber⟩
  · cases herror

theorem prepare_tidy (h : Fits s uop) (hbook : Bookkept cfg start s) {t : RobTimer μ}
    {entry : RobEntry} {uop' : DynamicMicroOp}
    (hprepare : prepare cfg s uop = .ok (t, entry, uop')) : uop'.Tidy := by
  obtain ⟨uop1, uop2, hregisters, hmemory, hforward⟩ := prepare_steps hprepare
  obtain ⟨rfl, -⟩ := announced_dependencies h.fresh hregisters hmemory
  exact h.forwarded_tidy hbook hforward

/-- What is done is removed from the dependencies. -/
theorem removals_tidy (h : Fits s uop) (hbook : Bookkept cfg start s) {t u : RobTimer μ}
    {entry : RobEntry} {uop' : DynamicMicroOp} {readyMax readyMax' : Time} {done : List Nat}
    (hprepare : prepare cfg s uop = .ok (t, entry, uop'))
    (hfold : uop'.allDependencies.foldlM (dependOn entry.uop.sequenceNumber) (t, readyMax, []) =
      .ok (u, readyMax', done)) :
    ∃ final, done.foldlM removeDependency uop' = .ok final ∧ final.Tidy := by
  have ha := prepare_spec h.fresh.small hprepare
  have hnumbered := hbook.history.links.numbered.append rfl ha.rob ha.next
  obtain ⟨-, -, rfl, -⟩ := dependOn_all _ hnumbered hfold
  exact (prepare_tidy h hbook hprepare).removeAll fun n => List.filter_sublist.count_le n

/-- The way into the buffer: the dependencies, the producers, and what is done is removed. -/
theorem enqueue_eq (hsquashed : uop.squashed = false)
    (hroom : ¬cfg.windowSize + 255 ≤ s.rob.length) :
    enqueue cfg s uop = (do
      let (t, entry, uop1) ← prepare cfg s uop
      let (u, readyMax, done) ← uop1.allDependencies.foldlM (dependOn entry.uop.sequenceNumber)
        (t, entry.readyMax, [])
      if 8 < done.length then .error .tooManyDependencies
      else
        let uop2 ← done.foldlM removeDependency uop1
        return u.modifyEntry s.rob.length fun e => { e with
          uop := uop2
          addressReady := entry.addressReady
          addressReadyMax := entry.addressReadyMax
          addressProducers := entry.addressProducers
          readyMax := readyMax
          ready := if uop2.getDependenciesLength = 0 then readyMax else ⊤ }) := by
  rw [enqueue, if_neg (ne_true_of_eq_false hsquashed), if_neg hroom, prepare]
  simp only [bind_assoc, pure_bind] <;> rfl

/-- What can fail when a micro-operation enters the buffer: there is no room for it, or for its
dependencies, or for those on producers that are done. -/
theorem enqueue_error (h : Fits s uop) (hbook : Bookkept cfg start s) {a : RobAbort}
    (herror : enqueue cfg s uop = .error a) : a = .queueFull ∨ a = .tooManyDependencies ∧
      (prepare cfg s uop = .error .tooManyDependencies ∨ 8 < doneProducers cfg s uop) := by
  have hlinks := hbook.history.links
  by_cases hfull : cfg.windowSize + 255 ≤ s.rob.length
  · rw [enqueue, if_neg (ne_true_of_eq_false h.squashed), if_pos hfull] at herror
    exact .inl (Except.error.inj herror).symm
  rw [enqueue_eq h.squashed hfull] at herror
  rcases except_bind_eq_error.mp herror with hprepare | ⟨⟨t, entry, uop1⟩, hprepare, herror⟩
  · rcases prepare_error h hbook hprepare with rfl | rfl
    · exact .inl rfl
    · exact .inr ⟨rfl, .inl hprepare⟩
  obtain ⟨removed, hremoved, hlength⟩ :=
    depsToRemove_length hlinks hbook.tables h.fresh h.own hprepare
  obtain ⟨prepared, hprepared, hremoved⟩ := except_bind_eq_ok.mp hremoved
  obtain rfl := Except.ok.inj (hprepare.symm.trans hprepared)
  obtain ⟨⟨u, readyMax, done⟩, hfold, hremoved⟩ := except_bind_eq_ok.mp hremoved
  obtain rfl := Except.ok.inj hremoved
  rcases except_bind_eq_error.mp herror with herror | ⟨looked, hlooked, herror⟩
  · cases hfold.symm.trans herror
  obtain rfl := Except.ok.inj (hfold.symm.trans hlooked)
  dsimp only at herror
  split at herror
  · next hmany => exact .inr ⟨(Except.error.inj herror).symm, .inr (hlength ▸ hmany)⟩
  obtain ⟨final, hall, -⟩ := removals_tidy h hbook hprepare hfold
  rcases except_bind_eq_error.mp herror with herror | ⟨uop3, -, herror⟩
  · cases hall.symm.trans herror
  · cases herror

/-- The address of the new entry, as it was looked up in the tables. -/
theorem prepare_address (h : Fits s uop) (hbook : Bookkept cfg start s) {t : RobTimer μ}
    {entry : RobEntry} {uop' : DynamicMicroOp}
    (hprepare : prepare cfg s uop = .ok (t, entry, uop')) :
    AddressOf s (s.announced uop) entry ∧
      (uop.microOp.isStore = false → entry = RobEntry.init uop s.nextSequenceNumber) ∧
      (entry.addressReady ≠ ⊤ → entry.addressReady = entry.addressReadyMax) ∧
      (uop.microOp.isStore = true → entry.addressReady = ⊤ → entry.addressProducers ≠ []) := by
  obtain ⟨entry1, haddress, hfacts⟩ :=
    addressDependencies_progress hbook.history.links.numbered hbook.tables h
  rw [prepare_eq, haddress] at hprepare
  obtain ⟨entry2, hsame, hprepare⟩ := except_bind_eq_ok.mp hprepare
  obtain rfl := Except.ok.inj hsame
  obtain ⟨deps, -, hsame⟩ := except_bind_eq_ok.mp hprepare
  cases hsame
  exact hfacts

/-- A store depends on all that the tables have for it. -/
theorem prepare_store (h : Fits s uop) (hstore : uop.microOp.isStore = true) {t : RobTimer μ}
    {entry : RobEntry} {uop' : DynamicMicroOp}
    (hprepare : prepare cfg s uop = .ok (t, entry, uop')) :
    ∀ n ∈ s.announced uop, n ∈ uop'.allDependencies := by
  obtain ⟨uop1, uop2, hregisters, hmemory, hforward⟩ := prepare_steps hprepare
  obtain ⟨rfl, hall⟩ := announced_dependencies h.fresh hregisters hmemory
  have hload : uop.microOp.isLoad = false := by
    rw [MicroOp.isLoad, of_decide_eq_true hstore]
    rfl
  rw [forwardStore, if_neg (by
    rw [Bool.and_eq_true]
    exact fun hand => ne_true_of_eq_false hload hand.2)] at hforward
  cases hforward
  intro n hn
  rw [hall, producers]
  exact List.mem_append_right _ ((mem_foldl_addNew _ _).mpr (.inr hn))

theorem entered_tidy (h : Fits s uop) (hbook : Bookkept cfg start s) {s' : RobTimer μ}
    (henqueue : enqueue cfg s uop = .ok s') {final : RobEntry}
    (hfinal : s'.rob[s.rob.length]? = some final) : final.uop.Tidy := by
  rcases enqueue_cases henqueue with ⟨hsquashed, -⟩ |
    ⟨-, t, entry, uop1, u, readyMax, done, uop2, hprepare, hfold, -, hremove, rfl⟩
  · rw [h.squashed] at hsquashed
    cases hsquashed
  · obtain ⟨final', hremove', htidy⟩ := removals_tidy h hbook hprepare hfold
    obtain rfl := Except.ok.inj (hremove.symm.trans hremove')
    obtain ⟨x, -, rfl⟩ := modifyEntry_some hfinal
    rw [if_pos rfl]
    exact htidy

theorem Bookkept.enqueue (hbook : Bookkept cfg start s) (h : Fits s uop) {s' : RobTimer μ}
    (henqueue : enqueue cfg s uop = .ok s') : Bookkept cfg start s' := by
  have hlinks := hbook.history.links
  refine ⟨hbook.history.enqueue h.fresh.small henqueue,
    hbook.tables.enqueue hlinks.numbered h.fresh.small henqueue, ?_⟩
  rcases enqueue_entered hlinks.numbered h.fresh.small henqueue with
    rfl | ⟨t, entry, uop', final, hprepare, hentered, hsame⟩
  · exact hbook.sound
  obtain ⟨haddress, hplain, hready, hwaits⟩ := prepare_address h hbook hprepare
  have hundone : ∀ q, q < s.nextSequenceNumber → s'.Undone q → s.Undone q := by
    rintro q hq ⟨i, e, he, rfl, htop⟩
    rcases hentered.mem (List.mem_of_getElem? he) with ⟨x, hx, rfl⟩ | rfl
    · obtain ⟨j, hj⟩ := List.mem_iff_getElem?.mp hx
      exact ⟨j, x, hj, rfl, htop⟩
    · rw [hentered.number] at hq
      exact absurd hq (lt_irrefl _)
  have hnext : s.nextSequenceNumber ≤ s'.nextSequenceNumber := by
    rw [hentered.next]
    exact Nat.le_succ _
  intro x' hx'
  rcases hentered.mem hx' with ⟨x, hx, rfl⟩ | rfl
  · have hold := (hbook.sound x hx).mono hnext hundone
    exact ⟨hold.tidy, hold.resolved, hold.earlier, hold.finite, hold.bound, hold.address,
      hold.waits, hold.undone⟩
  have hop : x'.uop.microOp = uop.microOp := hentered.rewired.microOp
  have hbound : x'.addressReadyMax ≤ x'.readyMax := by
    rw [hsame.readyMax, hentered.readyMax]
    cases hstore : uop.microOp.isStore with
    | false =>
      rw [hplain hstore]
      exact bot_le
    | true => exact haddress.bound.trans (latestDone_mono (prepare_store h hstore hprepare))
  -- the producers of the address that are left are left in the dependencies
  have hleft : ∀ q ∈ x'.addressProducers, q ∈ x'.uop.allDependencies := by
    intro q hq
    rw [hsame.producers] at hq
    cases hstore : uop.microOp.isStore with
    | false =>
      rw [hplain hstore] at hq
      cases hq
    | true =>
      obtain ⟨hmem, hwait⟩ := haddress.producers q hq
      rw [← List.count_pos_iff, hentered.count, hwait.not_isDone hlinks.numbered]
      exact List.count_pos_iff.mpr (prepare_store h hstore hprepare q hmem)
  have hfinite : x'.readyMax ≠ ⊤ := by
    rw [hentered.readyMax]
    exact latestDone_ne_top hlinks.numbered _
  refine ⟨entered_tidy h hbook henqueue hentered.new, ?_, ?_, hfinite, hbound, ?_, ?_,
    fun q hq _ => hleft q hq⟩
  · intro hnil
    rw [hentered.ready, if_pos (allDependencies_eq_nil.mp hnil)]
    exact hfinite
  · intro q hq
    rw [hsame.producers] at hq
    exact (hlinks.numbered.lt (haddress.producers q hq).2.holds).trans_le hnext
  · intro hne
    rw [hsame.ready] at hne ⊢
    rw [hready hne, ← hsame.readyMax]
    exact hbound
  · intro hstore htop
    rw [hop] at hstore
    rw [hsame.ready] at htop
    obtain ⟨q, hq⟩ := List.exists_mem_of_ne_nil _ (hwaits hstore htop)
    rw [← hsame.producers] at hq
    exact ⟨q, hq, hleft q hq⟩

end RobTimer

end Sniper.Performance
