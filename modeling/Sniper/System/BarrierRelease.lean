import Sniper.System.BarrierSyncServer
import Mathlib.Data.Fintype.Card
set_option autoImplicit false

/-! Who waits at the barrier, who is still to be released, and who holds the barrier up. -/

namespace Sniper.System.Barrier

variable {n : Nat}

namespace BarrierSyncServer

/-! ### Releases from the list -/

@[simp] theorem note_note (s : BarrierSyncServer n) (l m : List (BarrierEvent n)) :
    (s.note l).note m = s.note (l ++ m) := by
  simp [note]

theorem releaseBack_eq (s : BarrierSyncServer n) (k : Nat) :
    s.releaseBack k = { s with toRelease := s.toRelease.take (s.toRelease.length - k) }.note
      ((s.toRelease.drop (s.toRelease.length - k)).reverse.map BarrierEvent.signals) := by
  induction k generalizing s with
  | zero => simp [releaseBack, note]
  | succ k ih =>
    rcases List.eq_nil_or_concat s.toRelease with hnil | ⟨l, core, hl⟩
    · simp [releaseBack, hnil, note]
      rw [← hnil]
    · have hlen : s.toRelease.length - (k + 1) = l.length - k := by simp [hl]
      have hle : l.length - k ≤ l.length := Nat.sub_le _ _
      simp only [releaseBack, hl, List.concat_eq_append, List.getLast?_concat, ih,
        List.dropLast_concat, List.length_append, List.length_singleton, Nat.add_sub_add_right]
      simp [note, List.take_append_of_le_length hle, List.drop_append_of_le_length hle]

/-- Some of the list, from its back, is signalled. -/
theorem doRelease_eq (s : BarrierSyncServer n) (m : Option Nat) :
    s.doRelease m = { s with
        toRelease := s.toRelease.take (s.toRelease.length - m.getD s.toRelease.length) }.note
      ((s.toRelease.drop (s.toRelease.length - m.getD s.toRelease.length)).reverse.map
        BarrierEvent.signals) := by
  cases m with
  | none => exact releaseBack_eq s _
  | some k => exact releaseBack_eq s k

/-! ### What the moves and the actions leave alone -/

/-- What is so between two states when only clocks of waiting cores are reset, cores are released
or aborted, and the barrier moves on. -/
structure Led (s s' : BarrierSyncServer n) : Prop where
  interval : s'.barrierInterval = s.barrierInterval
  group : s'.coreGroup = s.coreGroup
  hosts : s'.hostCores = s.hostCores
  thread : s'.coreThread = s.coreThread
  next : s.nextBarrierTime ≤ s'.nextBarrierTime
  clock : ∀ c, s'.localClock c ≤ s.localClock c
  acquire : ∀ c, s'.acquire c = true → s.acquire c = true
  toRelease : s'.toRelease <+: s.toRelease
  passes : ∀ c, s'.log.count (.passes c) = s.log.count (.passes c)

theorem Led.refl (s : BarrierSyncServer n) : Led s s :=
  ⟨rfl, rfl, rfl, rfl, Nat.le_refl _, fun _ => Nat.le_refl _, fun _ h => h, List.prefix_rfl,
    fun _ => rfl⟩

theorem Led.trans {s t u : BarrierSyncServer n} (h : Led s t) (h' : Led t u) : Led s u where
  interval := h'.interval.trans h.interval
  group := h'.group.trans h.group
  hosts := h'.hosts.trans h.hosts
  thread := h'.thread.trans h.thread
  next := h.next.trans h'.next
  clock c := (h'.clock c).trans (h.clock c)
  acquire c hc := h.acquire c (h'.acquire c hc)
  toRelease := h'.toRelease.trans h.toRelease
  passes c := (h'.passes c).trans (h.passes c)

theorem Led.empty {s s' : BarrierSyncServer n} (h : Led s s') (hs : s.toRelease = []) :
    s'.toRelease = [] := by
  have hpre := h.toRelease
  rw [hs] at hpre
  exact List.prefix_nil.mp hpre

theorem count_passes_map (c : Fin n) (l : List (Fin n)) :
    (l.map BarrierEvent.signals).count (.passes c) = 0 := by
  simp [List.count_eq_zero]

theorem led_doRelease (s : BarrierSyncServer n) (m : Option Nat) : Led s (s.doRelease m) := by
  rw [doRelease_eq]
  exact ⟨rfl, rfl, rfl, rfl, Nat.le_refl _, fun _ => Nat.le_refl _, fun _ h => h,
    List.take_prefix _ _, fun c => by simp [note, -List.map_reverse, count_passes_map]⟩

theorem led_releaseThread (s : BarrierSyncServer n) (thread : ThreadId) :
    Led s (s.releaseThread thread) := by
  refine Led.trans ?_ (led_doRelease _ _)
  refine ⟨rfl, rfl, rfl, rfl, Nat.le_refl _, fun c => ?_, fun _ h => h, List.prefix_rfl,
    fun _ => rfl⟩
  dsimp only
  split
  · exact Nat.zero_le _
  · exact Nat.le_refl _

theorem led_abortBarrier (s : BarrierSyncServer n) : Led s s.abortBarrier :=
  ⟨rfl, rfl, rfl, rfl, Nat.le_refl _, fun _ => Nat.le_refl _, fun _ h => by simp [abortBarrier, note] at h,
    List.prefix_rfl, fun c => by simp [abortBarrier, note, count_passes_map]⟩

theorem led_running (s : BarrierSyncServer n) (running : Fin n → Bool) :
    Led s { s with running := running } :=
  ⟨rfl, rfl, rfl, rfl, Nat.le_refl _, fun _ => Nat.le_refl _, fun _ h => h, List.prefix_rfl,
    fun _ => rfl⟩

theorem led_moves (s : BarrierSyncServer n) (m : Move n) : Led s (s.moves m) := by
  cases m with
  | resume running => exact led_running s running
  | migrate thread running => exact (led_running s running).trans (led_releaseThread _ thread)

theorem led_act (s : BarrierSyncServer n) (a : Action n) : Led s (s.act a) := by
  cases a with
  | move m => exact led_moves s m
  | setDisable disable =>
    have h : Led s { s with disable := disable } :=
      ⟨rfl, rfl, rfl, rfl, Nat.le_refl _, fun _ => Nat.le_refl _, fun _ h => h, List.prefix_rfl,
        fun _ => rfl⟩
    cases disable with
    | false => exact h
    | true => exact h.trans (led_abortBarrier _)
  | setFastForward fastforward next =>
    exact ⟨rfl, rfl, rfl, rfl, Nat.le_max_left _ _, fun _ => Nat.le_refl _, fun _ h => h,
      List.prefix_rfl, fun _ => rfl⟩
  | release => exact led_abortBarrier s

theorem led_foldl {α : Type} {f : BarrierSyncServer n → α → BarrierSyncServer n}
    (hf : ∀ s a, Led s (f s a)) (l : List α) (s : BarrierSyncServer n) : Led s (l.foldl f s) := by
  induction l generalizing s with
  | nil => exact Led.refl s
  | cons a l ih => exact (hf s a).trans (ih (f s a))

theorem led_periodic (s : BarrierSyncServer n) (hooks : Hooks n) (k : Nat) :
    Led s (s.periodic hooks k) := by
  have h : Led s { s with globalTime := s.nextBarrierTime } :=
    ⟨rfl, rfl, rfl, rfl, Nat.le_refl _, fun _ => Nat.le_refl _, fun _ h => h, List.prefix_rfl,
      fun _ => rfl⟩
  exact h.trans (led_foldl led_act _ _)

theorem led_bump (s : BarrierSyncServer n) : Led s s.bump :=
  ⟨rfl, rfl, rfl, rfl, Nat.le_add_right _ _, fun _ => Nat.le_refl _, fun _ h => h,
    List.prefix_rfl, fun _ => rfl⟩

theorem le_latest (s : BarrierSyncServer n) (time : SubsecondTime) : time ≤ s.latest time := by
  have h : ∀ (l : List (Fin n)) (t : SubsecondTime), t ≤ l.foldl
      (fun next c => if s.localClock c > next then s.localClock c else next) t := by
    intro l
    induction l with
    | nil => exact fun t => Nat.le_refl t
    | cons c l ih =>
      intro t
      refine Nat.le_trans ?_ (ih _)
      by_cases hlt : s.localClock c > t
      · simpa [hlt] using Nat.le_of_lt hlt
      · simp [hlt]
  exact h _ time

theorem led_skip (s : BarrierSyncServer n) : Led s s.skip := by
  unfold skip
  split
  · exact ⟨rfl, rfl, rfl, rfl, le_latest s _, fun _ => Nat.le_refl _, fun _ h => h,
      List.prefix_rfl, fun _ => rfl⟩
  · exact Led.refl s

/-! ### Every arrival is answered once -/

/-- How often a core is still owed a signal. -/
def owed (s : BarrierSyncServer n) (c : Fin n) : Nat := (s.acquire c).toNat + s.toRelease.count c

/-- Every arrival of a core was answered by one signal or one passage, or is still owed one; no
core is twice in the list; and no core was released before its time. -/
structure Accounted (s : BarrierSyncServer n) : Prop where
  answered : ∀ c, s.log.count (.arrives c) =
    s.log.count (.signals c) + s.log.count (.passes c) + s.owed c
  nodup : s.toRelease.Nodup
  below : ∀ c localClock next, .released c localClock next ∈ s.log → localClock < next

theorem count_signals_map (c : Fin n) (l : List (Fin n)) :
    (l.map BarrierEvent.signals).count (.signals c) = l.count c :=
  List.count_map_of_injective l _ (fun _ _ h => BarrierEvent.signals.inj h) c

theorem count_arrives_map (c : Fin n) (l : List (Fin n)) :
    (l.map BarrierEvent.signals).count (.arrives c) = 0 := by
  simp [List.count_eq_zero]

theorem count_finRange_filter (p : Fin n → Bool) (c : Fin n) :
    ((List.finRange n).filter p).count c = (p c).toNat := by
  cases hp : p c with
  | false => exact List.count_eq_zero.mpr fun h => by simp [hp] at h
  | true =>
    exact List.count_eq_one_of_mem ((List.nodup_finRange n).filter _) (by simp [hp])

theorem mem_due {s : BarrierSyncServer n} {c : Fin n} :
    c ∈ s.due ↔ s.localClock c < s.nextBarrierTime ∧ s.acquire c = true := by
  simp [due]

theorem Accounted.doRelease {s : BarrierSyncServer n} (h : Accounted s) (m : Option Nat) :
    Accounted (s.doRelease m) := by
  rw [doRelease_eq]
  generalize s.toRelease.length - m.getD s.toRelease.length = k
  refine ⟨fun c => ?_, h.nodup.sublist (List.take_sublist _ _), fun c t u hmem => ?_⟩
  · have hans := h.answered c
    have hsplit : s.toRelease.count c =
        (s.toRelease.take k).count c + (s.toRelease.drop k).count c := by
      rw [← List.count_append, List.take_append_drop]
    simp only [owed, note, List.count_append, count_signals_map, count_arrives_map,
      count_passes_map, List.count_reverse] at hans ⊢
    omega
  · refine h.below c t u ?_
    simpa [note, ← List.map_reverse, -List.map_drop, -List.mem_reverse] using hmem

theorem Accounted.clocks {s : BarrierSyncServer n} (h : Accounted s)
    (clock : Fin n → SubsecondTime) : Accounted { s with localClock := clock } :=
  ⟨h.answered, h.nodup, h.below⟩

theorem Accounted.releaseThread {s : BarrierSyncServer n} (h : Accounted s) (thread : ThreadId) :
    Accounted (s.releaseThread thread) :=
  (h.clocks _).doRelease _

theorem Accounted.abortBarrier {s : BarrierSyncServer n} (h : Accounted s) :
    Accounted s.abortBarrier := by
  refine ⟨fun c => ?_, h.nodup, fun c t u hmem => ?_⟩
  · have hans := h.answered c
    simp only [owed, BarrierSyncServer.abortBarrier, note, List.count_append, count_signals_map,
      count_arrives_map, count_passes_map, count_finRange_filter, Bool.toNat_false] at hans ⊢
    omega
  · exact h.below c t u (by simpa [BarrierSyncServer.abortBarrier, note] using hmem)

theorem Accounted.moves {s : BarrierSyncServer n} (h : Accounted s) (m : Move n) :
    Accounted (s.moves m) := by
  have hrun : ∀ running, Accounted { s with running := running } :=
    fun _ => ⟨h.answered, h.nodup, h.below⟩
  cases m with
  | resume running => exact hrun running
  | migrate thread running => exact (hrun running).releaseThread thread

theorem Accounted.act {s : BarrierSyncServer n} (h : Accounted s) (a : Action n) :
    Accounted (s.act a) := by
  cases a with
  | move m => exact h.moves m
  | setDisable disable =>
    have hset : Accounted { s with disable := disable } := ⟨h.answered, h.nodup, h.below⟩
    cases disable with
    | false => exact hset
    | true => exact hset.abortBarrier
  | setFastForward fastforward next => exact ⟨h.answered, h.nodup, h.below⟩
  | release => exact h.abortBarrier

theorem Accounted.foldl {α : Type} {f : BarrierSyncServer n → α → BarrierSyncServer n}
    (hf : ∀ s a, Accounted s → Accounted (f s a)) (l : List α) {s : BarrierSyncServer n}
    (h : Accounted s) : Accounted (l.foldl f s) := by
  induction l generalizing s with
  | nil => exact h
  | cons a l ih => exact ih (hf s a h)

theorem Accounted.bump {s : BarrierSyncServer n} (h : Accounted s) : Accounted s.bump :=
  ⟨h.answered, h.nodup, h.below⟩

theorem Accounted.arrive {s : BarrierSyncServer n} (h : Accounted s) {master : Fin n}
    (hfree : s.acquire master = false) (thread : ThreadId) (time : SubsecondTime) :
    Accounted (s.arrive master thread time) := by
  have hrel := h.doRelease (some 1)
  have hacq : (s.doRelease (some 1)).acquire master = false := by
    rw [doRelease_eq]
    exact hfree
  refine ⟨fun c => ?_, hrel.nodup, fun c t u hmem => ?_⟩
  · have hans := hrel.answered c
    by_cases hc : c = master
    · subst hc
      simp [BarrierSyncServer.arrive, note, owed, hacq, List.count_append] at hans ⊢
      omega
    · have hne : BarrierEvent.arrives master ≠ BarrierEvent.arrives c :=
        fun heq => hc (BarrierEvent.arrives.inj heq).symm
      simpa [BarrierSyncServer.arrive, note, owed, hc, List.count_append, List.count_cons, hne]
        using hans
  · exact hrel.below c t u (by simpa [BarrierSyncServer.arrive, note] using hmem)

/-- The cores that are due move from waiting to the list, or pass. -/
theorem Accounted.releaseDue {s : BarrierSyncServer n} (h : Accounted s)
    (hempty : s.toRelease = []) (caller : Option ThreadId) : Accounted (s.releaseDue caller) := by
  have hdue : s.due.Nodup := (List.nodup_finRange n).filter _
  refine ⟨fun c => ?_, ?_, fun c t u hmem => ?_⟩
  · have hans := h.answered c
    have hcount : s.due.count c =
        (decide (s.localClock c < s.nextBarrierTime) && s.acquire c).toNat :=
      count_finRange_filter _ c
    have hsplit : (s.due.filter fun c => s.coreThread c ≠ caller).count c +
        (s.due.filter fun c => s.coreThread c = caller).count c = s.due.count c := by
      by_cases hc : s.coreThread c = caller <;> simp [List.count_filter, List.count_eq_zero, hc]
    have hwait : (s.acquire c).toNat = s.due.count c +
        (s.acquire c && !decide (s.localClock c < s.nextBarrierTime)).toNat := by
      rw [hcount]
      cases s.acquire c <;> by_cases hlt : s.localClock c < s.nextBarrierTime <;> simp [hlt]
    have hpass : ∀ l : List (Fin n), (l.map BarrierEvent.passes).count (.passes c) = l.count c :=
      fun l => List.count_map_of_injective l _ (fun _ _ h => BarrierEvent.passes.inj h) c
    have hzero : ∀ e : BarrierEvent n, (∀ d t u, e ≠ .released d t u) → (s.due.map fun d =>
        BarrierEvent.released d (s.localClock d) s.nextBarrierTime).count e = 0 := by
      intro e he
      exact List.count_eq_zero.mpr fun hmem => by
        obtain ⟨d, -, hd⟩ := List.mem_map.mp hmem
        exact he _ _ _ hd.symm
    have hzero' : ∀ e : BarrierEvent n, (∀ d, e ≠ .passes d) → ∀ l : List (Fin n),
        (l.map BarrierEvent.passes).count e = 0 := by
      intro e he l
      exact List.count_eq_zero.mpr fun hmem => by
        obtain ⟨d, -, hd⟩ := List.mem_map.mp hmem
        exact he _ hd.symm
    simp only [owed, BarrierSyncServer.releaseDue, note, hempty, List.nil_append,
      List.count_append, List.count_nil, hpass] at hans ⊢
    rw [hzero _ (by simp), hzero _ (by simp), hzero _ (by simp), hzero' _ (by simp),
      hzero' _ (by simp)]
    omega
  · simpa [BarrierSyncServer.releaseDue, note, hempty] using hdue.filter _
  · simp only [BarrierSyncServer.releaseDue, note, List.mem_append, List.mem_map] at hmem
    rcases hmem with hold | ⟨d, hd, heq⟩ | ⟨d, -, heq⟩
    · exact h.below c t u hold
    · obtain ⟨rfl, rfl, rfl⟩ := BarrierEvent.released.inj heq
      exact (mem_due.mp hd).1
    · cases heq

/-! ### Who holds the barrier up -/

/-- A thread of the core, or of one of its siblings, runs. -/
def GroupRuns (group : Fin n → Option (Fin n)) (running : Fin n → Bool) (c : Fin n) : Prop :=
  ∃ d, (d = c ∨ group d = some c) ∧ running d = true

instance (group : Fin n → Option (Fin n)) (running : Fin n → Bool) (c : Fin n) :
    Decidable (GroupRuns group running c) :=
  inferInstanceAs (Decidable (∃ d, (d = c ∨ group d = some c) ∧ running d = true))

/-- A core that runs, does not wait and has not come to the barrier yet: until it does, the
barrier is not reached. -/
def Blocks (s : BarrierSyncServer n) (c : Fin n) : Prop :=
  s.coreGroup c = none ∧ GroupRuns s.coreGroup s.running c ∧ s.acquire c = false ∧
    s.localClock c < s.nextBarrierTime

instance (s : BarrierSyncServer n) (c : Fin n) : Decidable (s.Blocks c) :=
  inferInstanceAs (Decidable (_ ∧ _ ∧ _ ∧ _))

def blockers (s : BarrierSyncServer n) : Finset (Fin n) :=
  Finset.univ.filter s.Blocks

/-- But for so many cores, each core in the list has a blocker. -/
def Held (slack : Nat) (s : BarrierSyncServer n) : Prop :=
  s.toRelease.length ≤ s.blockers.card + slack

theorem blockers_mono {s s' : BarrierSyncServer n} (h : ∀ c, s.Blocks c → s'.Blocks c) :
    s.blockers.card ≤ s'.blockers.card := by
  refine Finset.card_le_card fun c hc => ?_
  simp only [blockers, Finset.mem_filter, Finset.mem_univ, true_and] at hc ⊢
  exact h c hc

theorem blockers_lose {s s' : BarrierSyncServer n} {x : Fin n}
    (h : ∀ c, c ≠ x → s.Blocks c → s'.Blocks c) :
    s.blockers.card ≤ s'.blockers.card + 1 := by
  classical
  refine Nat.le_trans (Finset.card_le_card (t := insert x s'.blockers) fun c hc => ?_)
    (Finset.card_insert_le _ _)
  simp only [blockers, Finset.mem_insert, Finset.mem_filter, Finset.mem_univ, true_and] at hc ⊢
  by_cases hx : c = x
  · exact Or.inl hx
  · exact Or.inr (h c hx hc)

theorem Held.mono {s s' : BarrierSyncServer n} {slack : Nat} (h : Held slack s)
    (hblocks : ∀ c, s.Blocks c → s'.Blocks c) (hlen : s'.toRelease.length ≤ s.toRelease.length) :
    Held slack s' := by
  have := blockers_mono hblocks
  simp only [Held] at h ⊢
  omega

theorem Held.empty {s : BarrierSyncServer n} {slack : Nat} (h : s.toRelease = []) :
    Held slack s := by
  simp [Held, h]

theorem blocks_doRelease {s : BarrierSyncServer n} {m : Option Nat} {c : Fin n} :
    (s.doRelease m).Blocks c ↔ s.Blocks c := by
  rw [doRelease_eq]
  exact Iff.rfl

/-- One release makes up for one blocker that is gone. -/
theorem Held.doRelease {s : BarrierSyncServer n} {slack : Nat} (h : Held (slack + 1) s) :
    Held slack (s.doRelease (some 1)) := by
  have hblock : s.blockers.card ≤ (s.doRelease (some 1)).blockers.card :=
    blockers_mono fun c hc => blocks_doRelease.mpr hc
  have hlen : (s.doRelease (some 1)).toRelease.length = s.toRelease.length - 1 := by
    rw [doRelease_eq]
    simp [note]
  simp only [Held, hlen] at h ⊢
  omega

/-- The clocks of waiting cores do not matter. -/
theorem Held.releaseThread {s : BarrierSyncServer n} {slack : Nat} (h : Held (slack + 1) s)
    (thread : ThreadId) : Held slack (s.releaseThread thread) := by
  refine Held.doRelease (Held.mono h (fun c hc => ?_) (Nat.le_refl _))
  obtain ⟨hgroup, hruns, hacq, hclock⟩ := hc
  exact ⟨hgroup, hruns, hacq, by simpa [hacq] using hclock⟩

/-- When one core stops, at most one group stops. -/
theorem StopsOne.group {running running' : Fin n → Bool} (h : StopsOne running running')
    (s : BarrierSyncServer n) (hs : s.running = running) :
    s.blockers.card ≤ { s with running := running' }.blockers.card + 1 := by
  classical
  by_cases hlost : ∃ x, s.coreGroup x = none ∧ GroupRuns s.coreGroup running x ∧
      ¬ GroupRuns s.coreGroup running' x
  · obtain ⟨x, hxgroup, ⟨d, hd, hdrun⟩, hxlost⟩ := hlost
    refine blockers_lose (x := x) fun c hcx hc => ?_
    obtain ⟨hgroup, ⟨e, he, herun⟩, hacq, hclock⟩ := hc
    refine ⟨hgroup, ?_, hacq, hclock⟩
    by_contra hclost
    have hdstop : running' d = false := by
      by_contra hne
      exact hxlost ⟨d, hd, by simpa using hne⟩
    have hestop : running' e = false := by
      by_contra hne
      exact hclost ⟨e, he, by simpa using hne⟩
    have hde : d = e := h d e hdrun hdstop (hs ▸ herun) hestop
    subst hde
    rcases hd with rfl | hd <;> rcases he with rfl | he <;> simp_all
  · refine Nat.le_trans (blockers_mono fun c hc => ?_) (Nat.le_add_right _ _)
    obtain ⟨hgroup, hruns, hacq, hclock⟩ := hc
    refine ⟨hgroup, ?_, hacq, hclock⟩
    by_contra hclost
    exact hlost ⟨c, hgroup, hs ▸ hruns, hclost⟩

theorem Held.stops {s : BarrierSyncServer n} {slack : Nat} {running : Fin n → Bool}
    (h : Held slack s) (hstop : StopsOne s.running running) :
    Held (slack + 1) { s with running := running } := by
  have := hstop.group s rfl
  simp only [Held] at h ⊢
  omega

theorem Held.moves {s : BarrierSyncServer n} {slack : Nat} (h : Held slack s) {m : Move n}
    (hlegal : Move.Legal s.running m) : Held slack (s.moves m) := by
  cases m with
  | resume running =>
    refine h.mono (fun c hc => ?_) (Nat.le_refl _)
    obtain ⟨hgroup, ⟨d, hd, hdrun⟩, hacq, hclock⟩ := hc
    exact ⟨hgroup, ⟨d, hd, hlegal d hdrun⟩, hacq, hclock⟩
  | migrate thread running => exact (h.stops hlegal).releaseThread thread

theorem running_moves (s : BarrierSyncServer n) (m : Move n) :
    (s.moves m).running = Move.after m := by
  cases m with
  | resume running => rfl
  | migrate thread running =>
    simp only [BarrierSyncServer.moves, releaseThread]
    rw [doRelease_eq]
    rfl

theorem Held.foldlMoves {slack : Nat} (ms : List (Move n)) {s : BarrierSyncServer n}
    (h : Held slack s) (hlegal : LegalMoves s.running ms) : Held slack (ms.foldl BarrierSyncServer.moves s) := by
  induction ms generalizing s with
  | nil => exact h
  | cons m ms ih =>
    refine ih (h.moves hlegal.1) ?_
    rw [running_moves]
    exact hlegal.2

theorem Held.abortBarrier {s : BarrierSyncServer n} {slack : Nat} (h : Held slack s) :
    Held slack s.abortBarrier :=
  h.mono (fun _ hc => ⟨hc.1, hc.2.1, rfl, hc.2.2.2⟩) (Nat.le_refl _)

/-- A core that arrives no longer blocks, and one is released. -/
theorem Held.arrive {s : BarrierSyncServer n} (h : Held 0 s) (master : Fin n) (thread : ThreadId)
    (time : SubsecondTime) : Held 0 (s.arrive master thread time) := by
  have hlose : s.blockers.card ≤ (s.arrive master thread time).blockers.card + 1 := by
    refine blockers_lose (x := master) fun c hc hblocks => ?_
    obtain ⟨hgroup, hruns, hacq, hclock⟩ := blocks_doRelease (m := some 1).mpr hblocks
    exact ⟨hgroup, hruns, by simpa [BarrierSyncServer.arrive, note, hc] using hacq,
      by simpa [BarrierSyncServer.arrive, note, hc] using hclock⟩
  have hlen : (s.arrive master thread time).toRelease.length = s.toRelease.length - 1 := by
    simp [BarrierSyncServer.arrive, doRelease_eq, note]
  simp only [Held, hlen] at h ⊢
  omega

theorem isCoreRunning_iff (s : BarrierSyncServer n) (c : Fin n)
    (h : s.fastforward = false ∨ ∀ d, s.coreGroup d = none) :
    s.isCoreRunning c = true ↔ GroupRuns s.coreGroup s.running c := by
  constructor
  · intro hrun
    simp only [isCoreRunning, Bool.or_eq_true, Bool.and_eq_true, List.any_eq_true] at hrun
    rcases hrun with hself | ⟨-, d, -, hd⟩
    · exact ⟨c, Or.inl rfl, hself⟩
    · simp only [decide_eq_true_eq] at hd
      exact ⟨d, Or.inr hd.1, hd.2⟩
  · rintro ⟨d, rfl | hgroup, hrun⟩
    · simp [isCoreRunning, hrun]
    · rcases h with hff | hnone
      · simp only [isCoreRunning, hff, Bool.not_false, Bool.true_and, Bool.or_eq_true,
          List.any_eq_true]
        exact Or.inr ⟨d, List.mem_finRange d, by simp [hgroup, hrun]⟩
      · simp [hnone d] at hgroup

/-- When the barrier is reached, each core in turn held it up no longer. -/
theorem scan_sound {s : BarrierSyncServer n} {cs : List (Fin n)} {reached : Bool}
    (h : s.scan cs reached = true) : ∀ c ∈ cs, s.isCoreRunning c = true →
      if s.fastforward then s.acquire c = true
      else s.coreGroup c = none → s.nextBarrierTime ≤ s.localClock c := by
  induction cs generalizing reached with
  | nil => simp
  | cons d cs ih =>
    intro c hc hrun
    rw [scan] at h
    rcases List.mem_cons.mp hc with rfl | hc
    · split at h <;> rename_i hff
      · simp only [hff, if_true]
        by_contra hacq
        simp [hacq] at h
      · simp only [hff, if_false, Bool.false_eq_true]
        intro hgroup
        by_contra hclock
        simp [hgroup, Nat.lt_of_not_le hclock] at h
    · split at h
      · split at h
        · exact ih h c hc hrun
        · split at h
          · cases h
          · exact ih h c hc hrun
      · split at h
        · exact ih h c hc hrun
        · split at h
          · split at h
            · cases h
            · exact ih h c hc hrun
          · exact ih h c hc hrun

theorem not_blocks_of_reached {s : BarrierSyncServer n} (h : s.isBarrierReached = true)
    (hmode : s.fastforward = false ∨ ∀ d, s.coreGroup d = none) (c : Fin n) : ¬ s.Blocks c := by
  rintro ⟨hgroup, hruns, hacq, hclock⟩
  have hc := scan_sound h c (List.mem_finRange c) ((isCoreRunning_iff s c hmode).mpr hruns)
  by_cases hff : s.fastforward = true
  · simp [hff, hacq] at hc
  · simp only [hff, if_false, Bool.false_eq_true] at hc
    exact Nat.not_lt.mpr (hc hgroup) hclock

theorem Held.empty_of_not_blocks {s : BarrierSyncServer n} (h : Held 0 s)
    (hblocks : ∀ c, ¬ s.Blocks c) : s.toRelease = [] := by
  have hnone : s.blockers = ∅ := by
    ext c
    simp [blockers, hblocks c]
  simpa [Held, hnone] using h

/-- The waiting cores that are no masters, or whose group runs no thread. -/
def strays (s : BarrierSyncServer n) : Finset (Fin n) :=
  Finset.univ.filter fun c => s.acquire c = true ∧
    ¬ (s.coreGroup c = none ∧ GroupRuns s.coreGroup s.running c)

/-- Those that are released last block the barrier, but for the strays. -/
theorem Held.releaseDue {s : BarrierSyncServer n} (hempty : s.toRelease = [])
    (caller : Option ThreadId) : Held s.strays.card (s.releaseDue caller) := by
  have hsub : s.due.toFinset ⊆ (s.releaseDue caller).blockers ∪ s.strays := by
    intro c hc
    obtain ⟨hclock, hacq⟩ := mem_due.mp (List.mem_toFinset.mp hc)
    by_cases hmaster : s.coreGroup c = none ∧ GroupRuns s.coreGroup s.running c
    · refine Finset.mem_union_left _ ?_
      simp only [blockers, Finset.mem_filter, Finset.mem_univ, true_and]
      refine ⟨hmaster.1, hmaster.2, ?_, hclock⟩
      simpa [BarrierSyncServer.releaseDue, note, hacq] using hclock
    · refine Finset.mem_union_right _ ?_
      simpa [strays, hacq] using hmaster
  have hdue : s.due.Nodup := (List.nodup_finRange n).filter _
  have hcard : s.due.length ≤ (s.releaseDue caller).blockers.card + s.strays.card := by
    rw [← List.toFinset_card_of_nodup hdue]
    exact (Finset.card_le_card hsub).trans (Finset.card_union_le _ _)
  have hlen : (s.releaseDue caller).toRelease.length ≤ s.due.length := by
    simpa [BarrierSyncServer.releaseDue, note, hempty] using
      List.length_filter_le (fun c => !decide (s.coreThread c = caller)) s.due
  exact hlen.trans hcard

/-- The hosts take the strays. -/
theorem Held.throttle {s : BarrierSyncServer n} {slack : Nat} (h : Held slack s)
    (hhosts : s.fastforward = true ∨ ∀ hosts, s.hostCores = some hosts → slack ≤ hosts)
    (hooks : Hooks n) : Held 0 (s.throttle hooks) := by
  have hblock : s.blockers.card ≤ (s.throttle hooks).blockers.card :=
    blockers_mono fun c hc => blocks_doRelease.mpr hc
  have hlen := (hooks.shuffle_perm s.toRelease).length_eq
  by_cases hall : s.fastforward = true ∨ s.hostCores = none
  · refine Held.empty ?_
    have hnone : (if s.fastforward then none else s.hostCores) = none := by
      rcases hall with h | h <;> simp [h]
    simp [BarrierSyncServer.throttle, hnone, doRelease_eq, note]
  · rw [not_or] at hall
    obtain ⟨hosts, hh⟩ := Option.ne_none_iff_exists'.mp hall.2
    have hslack := (hhosts.resolve_left hall.1) hosts hh
    have hto : (s.throttle hooks).toRelease.length = s.toRelease.length - hosts := by
      simp [BarrierSyncServer.throttle, hall.1, hh, doRelease_eq, note, hlen]
    simp only [Held, hto] at h ⊢
    omega

theorem Accounted.throttle {s : BarrierSyncServer n} (h : Accounted s) (hooks : Hooks n) :
    Accounted (s.throttle hooks) := by
  have hperm := hooks.shuffle_perm s.toRelease
  have hshuffled : Accounted { s with toRelease := hooks.shuffle s.toRelease } := by
    refine ⟨fun c => ?_, hperm.nodup_iff.mpr h.nodup, h.below⟩
    have hans := h.answered c
    simpa only [owed, hperm.count_eq c] using hans
  exact hshuffled.doRelease _

end BarrierSyncServer

end Sniper.System.Barrier
