import Sniper.Tlb.Tlb
set_option autoImplicit false

/-! A first-level TLB whose victims go to a second level. -/

namespace Sniper.Tlb
open Sniper.Lib Sniper.Cache

variable {a₁ a₂ : Nat} {g₁ g₂ : CacheGeometry 1} {o : Order}

/-- A lookup on the first level; `order` is that of an unordered container. -/
structure LookupCall where
  address : Addr
  allocateOnMiss : Bool
  order : Order

def LookupCall.page (call : LookupCall) : Addr := pageOf call.address

/-- What a lookup on the first level reports: its allocation reports those of the second level. -/
abbrev Report : Type := Lookup (Allocation Unit)

namespace Report

/-- The pages a lookup evicted from the first level. -/
def evicted (r : Report) : List Addr := r.allocation.elim [] Allocation.evicted

/-- What it evicted from the second level. -/
def evictedBelow (r : Report) : List Addr :=
  r.allocation.elim [] fun a => a.below.flatMap Allocation.evicted

end Report

abbrev TwoLevels (a₁ a₂ : Nat) : Type := PageCache a₁ × (PageCache a₂ × Unit)

namespace TwoLevels

def fresh : TwoLevels a₁ a₂ := (.fresh, (.fresh, ()))

def perform (g₁ g₂ : CacheGeometry 1) (t : TwoLevels a₁ a₂) (call : LookupCall) :
    Outcome (Report × TwoLevels a₁ a₂) :=
  lookup g₁ call.order (asNext g₂ call.order noNext) t call.address call.allocateOnMiss

def machine (a₁ a₂ : Nat) (g₁ g₂ : CacheGeometry 1) : Machine (TwoLevels a₁ a₂) LookupCall Report where
  init t := t = fresh
  step t call r t' := t.perform g₁ g₂ call = .ok (r, t')

end TwoLevels

/-! ### One level -/

/-- What an allocation without error does to the pages of a level. -/
structure Allocates (g : CacheGeometry 1) (c c' : PageCache a₁) (page number : Addr)
    (evicted : List Addr) : Prop where
  sound : c'.Sound g
  number_eq : number = page
  there : c'.Has g page
  kept : ∀ p, c.Has g p → c'.Has g p ∨ p ∈ evicted
  victims : ∀ p ∈ evicted, p ∈ c.victims g page

theorem allocateAll_noNext (u : Unit) (vs : List Addr) :
    ∃ rs, allocateAll noNext u vs = .ok (rs, ()) := by
  induction vs generalizing u with
  | nil => exact ⟨[], rfl⟩
  | cons v vs ih =>
    obtain ⟨rs, hrs⟩ := ih ()
    refine ⟨() :: rs, ?_⟩
    simp [allocateAll, noNext, bind, Except.bind, pure, Except.pure] at hrs ⊢
    rw [hrs]

/-- An allocation is that of the level itself, whatever the next one does with the victims. -/
theorem allocate_eq {σ ρ : Type} {next : NextLevel σ ρ} {t : PageCache a₁ × σ} {address : Addr}
    (hassoc : 0 < a₁) (h : t.1.Sound g₁)
    (hnext : ∀ vs, ∃ rs n', allocateAll next t.2 vs = .ok (rs, n')) :
    ∃ a t', allocate g₁ o next t address = .ok (a, t') ∧
      Allocates g₁ t.1 t'.1 (pageOf address) a.number a.evicted ∧
      allocateAll next t.2 a.evicted = .ok (a.below, t'.2) := by
  obtain ⟨wbs, c', hins, hsound, hthere, hkept, -, hvictims⟩ :=
    h.insert hassoc o (pageOf_valid address)
  obtain ⟨rs, n', hall⟩ := hnext (wbs.map Writeback.addr)
  refine ⟨⟨pageOf address, wbs.map Writeback.addr, rs⟩, (c', n'), ?_,
    ⟨hsound, rfl, hthere, hkept, hvictims⟩, hall⟩
  simp [allocate, hins, hall, bind, Except.bind, pure, Except.pure]

/-- The second level takes the victims of the first, each under the number of the page at it. -/
theorem allocateAll_victims (hassoc : 0 < a₂) {n : PageCache a₂ × Unit} (h : n.1.Sound g₂)
    (vs : List Addr) :
    ∃ rs n', allocateAll (asNext g₂ o noNext) n vs = .ok (rs, n') ∧ n'.1.Sound g₂ ∧
      rs.map Allocation.number = vs.map pageOf ∧
      ∀ p, n.1.Has g₂ p ∨ p ∈ vs.map pageOf → n'.1.Has g₂ p ∨ p ∈ rs.flatMap Allocation.evicted := by
  induction vs generalizing n with
  | nil =>
    refine ⟨[], n, rfl, h, rfl, fun p hp => ?_⟩
    simpa using hp
  | cons v vs ih =>
    obtain ⟨a, n₁, hone, halloc, -⟩ := allocate_eq (o := o) hassoc h
      fun vs => ⟨_, (), (allocateAll_noNext n.2 vs).choose_spec⟩
    obtain ⟨rs, n', hrest, hsound, hnumbers, hkept⟩ := ih halloc.sound
    have hone' : (asNext g₂ o noNext).allocate n v = .ok (a, n₁) := hone
    refine ⟨a :: rs, n', ?_, hsound, ?_, fun p hp => ?_⟩
    · simp [allocateAll, hone', hrest, bind, Except.bind, pure, Except.pure]
    · simp [hnumbers, halloc.number_eq]
    · have hfirst : n₁.1.Has g₂ p ∨ p ∈ a.evicted ∨ p ∈ vs.map pageOf := by
        rcases hp with hp | hp
        · rcases halloc.kept p hp with hp | hp
          · exact .inl hp
          · exact .inr (.inl hp)
        · rw [List.map_cons, List.mem_cons] at hp
          rcases hp with rfl | hp
          · exact .inl halloc.there
          · exact .inr (.inr hp)
      have hlater : n₁.1.Has g₂ p ∨ p ∈ vs.map pageOf →
          n'.1.Has g₂ p ∨ p ∈ (a :: rs).flatMap Allocation.evicted := by
        intro hp
        rcases hkept p hp with hp | hp
        · exact .inl hp
        · exact .inr (by rw [List.flatMap_cons]; exact List.mem_append_right _ hp)
      rcases hfirst with hp | hp | hp
      · exact hlater (.inl hp)
      · exact .inr (by rw [List.flatMap_cons]; exact List.mem_append_left _ hp)
      · exact hlater (.inr hp)

/-- The last level says whether it has the page. -/
theorem lookup_noNext {n : PageCache a₂ × Unit} (h : n.1.Sound g₂) (address : Addr) :
    ∃ hit n', (asNext g₂ o noNext).lookup n address = .ok (hit, n') ∧
      (hit = true ↔ n.1.Has g₂ (pageOf address)) ∧ n'.1.Sound g₂ ∧
      ∀ p, n'.1.Has g₂ p ↔ n.1.Has g₂ p := by
  obtain ⟨here, c', haccess, hhere, -, hsound, hsame⟩ := h.access (pageOf address)
  refine ⟨here, (c', n.2), ?_, hhere, hsound, hsame⟩
  cases here with
  | true => simp [asNext, lookup, haccess, bind, Except.bind, pure, Except.pure]
  | false => simp [asNext, lookup, noNext, haccess, bind, Except.bind, pure, Except.pure]

/-! ### Two levels -/

/-- What a lookup without error does to the pages of both levels. -/
structure LooksUp (g₁ g₂ : CacheGeometry 1) (t t' : TwoLevels a₁ a₂) (call : LookupCall)
    (r : Report) : Prop where
  sound : t'.1.Sound g₁
  soundBelow : t'.2.1.Sound g₂
  here_iff : r.here = true ↔ t.1.Has g₁ call.page
  hit_iff : r.hit = true ↔ t.1.Has g₁ call.page ∨ t.2.1.Has g₂ call.page
  there : r.here = true ∨ call.allocateOnMiss = true → t'.1.Has g₁ call.page
  kept : ∀ p, t.1.Has g₁ p → t'.1.Has g₁ p ∨ p ∈ r.evicted
  keptBelow : ∀ p, t.2.1.Has g₂ p ∨ p ∈ r.evicted.map pageOf → t'.2.1.Has g₂ p ∨ p ∈ r.evictedBelow
  victims : ∀ p ∈ r.evicted,
    call.allocateOnMiss = true ∧ ¬t.1.Has g₁ call.page ∧ p ∈ t.1.victims g₁ call.page
  numbers : ∀ a, r.allocation = some a →
    a.number = call.page ∧ a.below.map Allocation.number = a.evicted.map pageOf

namespace TwoLevels

structure Sound (g₁ g₂ : CacheGeometry 1) (t : TwoLevels a₁ a₂) : Prop where
  first : t.1.Sound g₁
  second : t.2.1.Sound g₂

variable {t t' : TwoLevels a₁ a₂} {r : Report}

/-- Every lookup completes. -/
theorem perform_looksUp (h₁ : 0 < a₁) (h₂ : 0 < a₂) (ht : t.Sound g₁ g₂) (call : LookupCall) :
    ∃ r t', t.perform g₁ g₂ call = .ok (r, t') ∧ LooksUp g₁ g₂ t t' call r := by
  obtain ⟨address, allocateOnMiss, order⟩ := call
  obtain ⟨c, n⟩ := t
  obtain ⟨here, c', haccess, hhere, hmiss, hsound, hsame⟩ := ht.first.access (pageOf address)
  cases here with
  | true =>
    -- the next level is not asked
    have hthere := hhere.mp rfl
    refine ⟨⟨true, true, none⟩, (c', n), ?_, hsound, ht.second, hhere, iff_of_true rfl (.inl hthere),
      fun _ => (hsame _).mpr hthere, fun p hp => .inl ((hsame p).mpr hp), fun p hp => ?_, ?_, ?_⟩
    · simp [perform, lookup, haccess, bind, Except.bind, pure, Except.pure]
    · rcases hp with hp | hp
      · exact .inl hp
      · cases hp
    · intro p hp
      cases hp
    · intro a ha
      cases ha
  | false =>
    obtain rfl : c = c' := (hmiss rfl).symm
    have hnot : ¬c.Has g₁ (pageOf address) := fun hthere => by cases hhere.mpr hthere
    obtain ⟨hit, n', hlookup, hhit, hsound', hsame'⟩ :=
      lookup_noNext (o := order) ht.second address
    have hhit' : hit = true ↔ c.Has g₁ (pageOf address) ∨ n.1.Has g₂ (pageOf address) := by
      rw [hhit, or_iff_right hnot]
    cases allocateOnMiss with
    | false =>
      refine ⟨⟨false, hit, none⟩, (c, n'), ?_, ht.first, hsound', hhere, hhit', ?_, fun p hp => .inl hp,
        fun p hp => ?_, ?_, ?_⟩
      · simp [perform, lookup, haccess, hlookup, bind, Except.bind, pure, Except.pure]
      · rintro (hno | hno)
        · cases hno
        · cases hno
      · rcases hp with hp | hp
        · exact .inl ((hsame' p).mpr hp)
        · cases hp
      · intro p hp
        cases hp
      · intro a ha
        cases ha
    | true =>
      have hnext : ∀ vs, ∃ rs n₁, allocateAll (asNext g₂ order noNext) n' vs = .ok (rs, n₁) := by
        intro vs
        obtain ⟨rs, n₁, hall, -⟩ := allocateAll_victims (o := order) h₂ hsound' vs
        exact ⟨rs, n₁, hall⟩
      obtain ⟨a, t', hdone, halloc, hbelow⟩ :=
        allocate_eq (o := order) (t := (c, n')) h₁ ht.first hnext
      obtain ⟨rs, n₁, hall, hsoundBelow, hnumbers, hkept⟩ :=
        allocateAll_victims (o := order) h₂ hsound' a.evicted
      rw [hall] at hbelow
      obtain ⟨hrs, hn⟩ := Prod.mk.inj (Except.ok.inj hbelow)
      rw [hn] at hsoundBelow
      refine ⟨⟨false, hit, some a⟩, t', ?_, halloc.sound, hsoundBelow, hhere, hhit',
        fun _ => halloc.there, halloc.kept, fun p hp => ?_, fun p hp => ?_, ?_⟩
      · simp [perform, lookup, haccess, hlookup, hdone, bind, Except.bind, pure, Except.pure]
      · have hp' : n'.1.Has g₂ p ∨ p ∈ a.evicted.map pageOf := by
          rcases hp with hp | hp
          · exact .inl ((hsame' p).mpr hp)
          · exact .inr hp
        have hlater := hkept p hp'
        rw [hn, hrs] at hlater
        exact hlater
      · exact ⟨rfl, hnot, halloc.victims p hp⟩
      · rintro a' ha
        obtain rfl := Option.some.inj ha
        exact ⟨halloc.number_eq, by rw [← hrs, hnumbers]⟩

theorem fresh_sound : (fresh : TwoLevels a₁ a₂).Sound g₁ g₂ :=
  ⟨PageCache.fresh_sound, PageCache.fresh_sound⟩

theorem perform_spec (h₁ : 0 < a₁) (h₂ : 0 < a₂) (ht : t.Sound g₁ g₂) {call : LookupCall}
    (h : t.perform g₁ g₂ call = .ok (r, t')) : LooksUp g₁ g₂ t t' call r := by
  obtain ⟨r', u, hdone, hlooks⟩ := perform_looksUp h₁ h₂ ht call
  rw [h] at hdone
  obtain ⟨rfl, rfl⟩ := Prod.mk.inj (Except.ok.inj hdone)
  exact hlooks

/-! ### Runs -/

/-- A page looked up before is found in the first level, unless it has been evicted there since. -/
def HitsAgain (g₁ g₂ : CacheGeometry 1) (tr : List (LookupCall × Report)) (t : TwoLevels a₁ a₂) :
    Prop :=
  ∀ before e after, tr = before ++ e :: after → e.2.here = true ∨ e.1.allocateOnMiss = true →
    (∀ e' ∈ after, e.1.page ∉ e'.2.evicted) → ∀ call : LookupCall, call.page = e.1.page →
    ∃ r t', t.perform g₁ g₂ call = .ok (r, t') ∧ r.here = true

/-- A page evicted from the first level is found, unless it has since been evicted from the second. -/
def FindsVictims (g₁ g₂ : CacheGeometry 1) (tr : List (LookupCall × Report)) (t : TwoLevels a₁ a₂) :
    Prop :=
  ∀ before e after, tr = before ++ e :: after → ∀ p ∈ e.2.evicted,
    (∀ e' ∈ e :: after, p ∉ e'.2.evictedBelow) → ∀ call : LookupCall, call.page = p →
    ∃ r t', t.perform g₁ g₂ call = .ok (r, t') ∧ r.hit = true

/-- Every page is stored under its own number, the victims in the second level too. -/
def KeepsNumbers (tr : List (LookupCall × Report)) : Prop :=
  ∀ e ∈ tr, ∀ a, e.2.allocation = some a →
    a.number = e.1.page ∧ a.below.map Allocation.number = a.evicted

/-- A lookup that needs room in the first level only evicts page zero there. -/
def EvictsZero (g₁ : CacheGeometry 1) (t : TwoLevels a₁ a₂) (call : LookupCall) : Prop :=
  call.allocateOnMiss = true → ¬t.1.Has g₁ call.page → ∀ v ∈ t.1.victims g₁ call.page, v = 0

variable {tr : List (LookupCall × Report)} {ok : TwoLevels a₁ a₂ → LookupCall → Prop}

theorem reached_sound (h₁ : 0 < a₁) (h₂ : 0 < a₂) (h : Run (machine a₁ a₂ g₁ g₂) ok tr t) :
    t.Sound g₁ g₂ := by
  refine h.invariant (fun t ht => ?_) (fun t call r t' ht _ hstep => ?_)
  · rw [ht]
    exact fresh_sound
  · have hlooks := perform_spec h₁ h₂ ht hstep
    exact ⟨hlooks.sound, hlooks.soundBelow⟩

theorem run_hitsAgain (h₁ : 0 < a₁) (h₂ : 0 < a₂) (h : Run (machine a₁ a₂ g₁ g₂) ok tr t) :
    HitsAgain g₁ g₂ tr t := by
  intro before e after htr he hstays call hcall
  have hstep : ∀ t call r t', t.Sound g₁ g₂ → ok t call → (machine a₁ a₂ g₁ g₂).step t call r t' →
      t'.Sound g₁ g₂ ∧
      (call.page = e.1.page ∧ (r.here = true ∨ call.allocateOnMiss = true) → t'.1.Has g₁ e.1.page) ∧
      (t.1.Has g₁ e.1.page → e.1.page ∉ r.evicted → t'.1.Has g₁ e.1.page) := by
    intro t call r t' ht _ hstep
    have hlooks := perform_spec h₁ h₂ ht hstep
    refine ⟨⟨hlooks.sound, hlooks.soundBelow⟩, fun hbrings => ?_, fun hthere hends => ?_⟩
    · rw [← hbrings.1]
      exact hlooks.there hbrings.2
    · exact (hlooks.kept _ hthere).resolve_right hends
  obtain ⟨hsound, hsince⟩ := h.since (I := Sound g₁ g₂) (P := fun t => t.1.Has g₁ e.1.page)
    (B := fun e' => e'.1.page = e.1.page ∧ (e'.2.here = true ∨ e'.1.allocateOnMiss = true))
    (E := fun e' => e.1.page ∈ e'.2.evicted) (fun t ht => by rw [ht]; exact fresh_sound) hstep
  have hthere := hsince before e after htr ⟨rfl, he⟩ hstays
  obtain ⟨r, t', hdone, hlooks⟩ := perform_looksUp h₁ h₂ hsound call
  refine ⟨r, t', hdone, hlooks.here_iff.mpr ?_⟩
  rw [hcall]
  exact hthere

/-- Page zero is the only page whose number does not change when it is taken for an address. -/
theorem evicted_zero {call : LookupCall} (h : LooksUp g₁ g₂ t t' call r)
    (hzero : EvictsZero g₁ t call) {p : Addr} (hp : p ∈ r.evicted) : p = 0 := by
  obtain ⟨halloc, hmiss, hvictim⟩ := h.victims p hp
  exact hzero halloc hmiss p hvictim

theorem run_findsVictims (h₁ : 0 < a₁) (h₂ : 0 < a₂)
    (h : Run (machine a₁ a₂ g₁ g₂) (EvictsZero g₁) tr t) : FindsVictims g₁ g₂ tr t := by
  intro before e after htr p hp hstays call hcall
  have hstep : ∀ t call r t', t.Sound g₁ g₂ → EvictsZero g₁ t call →
      (machine a₁ a₂ g₁ g₂).step t call r t' → t'.Sound g₁ g₂ ∧
      (p ∈ r.evicted ∧ p ∉ r.evictedBelow → t'.2.1.Has g₂ p) ∧
      (t.2.1.Has g₂ p → p ∉ r.evictedBelow → t'.2.1.Has g₂ p) := by
    intro t call r t' ht hzero hstep
    have hlooks := perform_spec h₁ h₂ ht hstep
    refine ⟨⟨hlooks.sound, hlooks.soundBelow⟩, fun hbrings => ?_, fun hthere hends => ?_⟩
    · have hdown : p ∈ r.evicted.map pageOf := by
        obtain rfl := evicted_zero hlooks hzero hbrings.1
        exact List.mem_map.mpr ⟨0, hbrings.1, rfl⟩
      exact (hlooks.keptBelow p (.inr hdown)).resolve_right hbrings.2
    · exact (hlooks.keptBelow p (.inl hthere)).resolve_right hends
  obtain ⟨hsound, hsince⟩ := h.since (I := Sound g₁ g₂) (P := fun t => t.2.1.Has g₂ p)
    (B := fun e' => p ∈ e'.2.evicted ∧ p ∉ e'.2.evictedBelow)
    (E := fun e' => p ∈ e'.2.evictedBelow) (fun t ht => by rw [ht]; exact fresh_sound) hstep
  have hthere := hsince before e after htr ⟨hp, hstays e (List.mem_cons_self ..)⟩
    fun e' he' => hstays e' (List.mem_cons_of_mem _ he')
  obtain ⟨r, t', hdone, hlooks⟩ := perform_looksUp h₁ h₂ hsound call
  refine ⟨r, t', hdone, hlooks.hit_iff.mpr (.inr ?_)⟩
  rw [hcall]
  exact hthere

theorem run_keepsNumbers (h₁ : 0 < a₁) (h₂ : 0 < a₂)
    (h : Run (machine a₁ a₂ g₁ g₂) (EvictsZero g₁) tr t) : KeepsNumbers tr := by
  induction h with
  | start _ =>
    intro e he
    cases he
  | next hrun hzero hstep ih =>
    intro e he a ha
    rcases List.mem_append.mp he with he | he
    · exact ih e he a ha
    · obtain rfl := List.mem_singleton.mp he
      have hlooks := perform_spec h₁ h₂ (reached_sound h₁ h₂ hrun) hstep
      obtain ⟨hnumber, hbelow⟩ := hlooks.numbers a ha
      refine ⟨hnumber, hbelow.trans ?_⟩
      conv_rhs => rw [← List.map_id a.evicted]
      refine List.map_congr_left fun p hp => ?_
      have hevicted : p = 0 := by
        refine evicted_zero hlooks hzero ?_
        rw [Report.evicted, ha]
        exact hp
      rw [hevicted]
      rfl

/-- What a first-level hit promises holds in every run, and what the victims promise as long as only page
zero is ever a victim: the second level shifts the page number once more. -/
theorem pages_found (h₁ : 0 < a₁) (h₂ : 0 < a₂) :
    (Run (machine a₁ a₂ g₁ g₂) anyStep tr t → HitsAgain g₁ g₂ tr t) ∧
    (Run (machine a₁ a₂ g₁ g₂) (EvictsZero g₁) tr t →
      FindsVictims g₁ g₂ tr t ∧ KeepsNumbers tr) :=
  ⟨run_hitsAgain h₁ h₂, fun h => ⟨run_findsVictims h₁ h₂ h, run_keepsNumbers h₁ h₂ h⟩⟩

/-- A load from a page, and one set of one way. -/
def loadFrom (page : Addr) : LookupCall := ⟨page <<< pageShift, true, .greatest⟩

def oneSet : CacheGeometry 1 := ⟨1, none⟩

/-- Page zero makes room for page 16, and is found in the second level. -/
theorem pages_found_zero : ∃ tr, ∃ t : TwoLevels 1 1,
    Run (machine 1 1 oneSet oneSet) (EvictsZero oneSet) tr t ∧ (∃ e ∈ tr, 0 ∈ e.2.evicted) ∧
    HitsAgain oneSet oneSet tr t ∧ FindsVictims oneSet oneSet tr t ∧ KeepsNumbers tr := by
  have heval : Outcome.test ((fresh : TwoLevels 1 1).perform oneSet oneSet (loadFrom 0)) (fun x =>
      (fresh : TwoLevels 1 1).1.victims oneSet (loadFrom 0).page == [] &&
      x.2.1.victims oneSet (loadFrom 16).page == [0] &&
      Outcome.test (x.2.perform oneSet oneSet (loadFrom 16)) fun y => y.1.evicted == [0]) = true := by
    rfl
  obtain ⟨⟨r₁, t₁⟩, hfirst, heval⟩ := Outcome.test_eq_true heval
  simp only [Bool.and_eq_true, beq_iff_eq] at heval
  obtain ⟨⟨hnone, hzero⟩, heval⟩ := heval
  obtain ⟨⟨r₂, t₂⟩, hsecond, heval⟩ := Outcome.test_eq_true heval
  have hevicted : r₂.evicted = [0] := beq_iff_eq.mp heval
  have hrun : Run (machine 1 1 oneSet oneSet) (EvictsZero oneSet)
      [(loadFrom 0, r₁), (loadFrom 16, r₂)] t₂ :=
    ((Run.start rfl).next (fun _ _ v hv => by rw [hnone] at hv; cases hv) hfirst).next
      (fun _ _ v hv => by rw [hzero] at hv; exact List.mem_singleton.mp hv) hsecond
  have hlaws := @pages_found 1 1 oneSet oneSet t₂ [(loadFrom 0, r₁), (loadFrom 16, r₂)] (by decide) (by decide)
  obtain ⟨hvictims, hnumbers⟩ := hlaws.2 hrun
  refine ⟨_, t₂, hrun, ⟨(loadFrom 16, r₂), by simp, ?_⟩,
    hlaws.1 (hrun.weaken fun _ _ _ => trivial), hvictims, hnumbers⟩
  rw [hevicted]
  exact List.mem_singleton_self 0

/-- Page 16 makes room for page 32, is stored as page zero and not found again. -/
theorem pages_found_fails : ∃ tr, ∃ t : TwoLevels 1 1, Run (machine 1 1 oneSet oneSet) anyStep tr t ∧
    ¬FindsVictims oneSet oneSet tr t ∧ ¬KeepsNumbers tr := by
  have heval : Outcome.test ((fresh : TwoLevels 1 1).perform oneSet oneSet (loadFrom 16)) (fun x =>
      Outcome.test (x.2.perform oneSet oneSet (loadFrom 32)) fun y =>
        y.1.evicted == [16] && y.1.evictedBelow == [] &&
        y.1.allocation.any (fun a => a.evicted == [16] && a.below.map Allocation.number == [0]) &&
        Outcome.test (y.2.perform oneSet oneSet (loadFrom 16)) fun z => !z.1.hit) = true := by
    rfl
  obtain ⟨⟨r₁, t₁⟩, hfirst, heval⟩ := Outcome.test_eq_true heval
  obtain ⟨⟨r₂, t₂⟩, hsecond, heval⟩ := Outcome.test_eq_true heval
  simp only [Bool.and_eq_true, beq_iff_eq] at heval
  obtain ⟨⟨⟨hevicted, hbelow⟩, hstored⟩, heval⟩ := heval
  obtain ⟨⟨r₃, t₃⟩, hthird, hmiss⟩ := Outcome.test_eq_true heval
  have hrun : Run (machine 1 1 oneSet oneSet) anyStep
      [(loadFrom 16, r₁), (loadFrom 32, r₂)] t₂ :=
    ((Run.start rfl).next trivial hfirst).next trivial hsecond
  refine ⟨_, t₂, hrun, fun hfinds => ?_, fun hkeeps => ?_⟩
  · obtain ⟨r, t, hdone, hhit⟩ := hfinds [(loadFrom 16, r₁)] (loadFrom 32, r₂) [] rfl 16
      (by rw [hevicted]; exact List.mem_singleton_self 16)
      (fun e' he' => by
        obtain rfl := List.mem_singleton.mp he'
        rw [hbelow]
        exact List.not_mem_nil)
      (loadFrom 16) (by decide)
    rw [hthird] at hdone
    obtain ⟨rfl, rfl⟩ := Prod.mk.inj (Except.ok.inj hdone)
    rw [hhit] at hmiss
    cases hmiss
  · obtain ⟨a, ha, hnumbers⟩ := (Option.any_eq_true _ _).mp hstored
    rw [Bool.and_eq_true, beq_iff_eq, beq_iff_eq] at hnumbers
    have hsame := (hkeeps (loadFrom 32, r₂) (by simp) a ha).2
    rw [hnumbers.1, hnumbers.2] at hsame
    exact absurd hsame (by decide)

end TwoLevels

end Sniper.Tlb
