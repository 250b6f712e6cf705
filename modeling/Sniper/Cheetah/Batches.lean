import Sniper.Cheetah.Manager
set_option autoImplicit false

/-! Which addresses the simulators of a processor have seen, and what their statistics say. -/

namespace Sniper.Cheetah
open Sniper.Lib CheetahSACLRU

/-! ### Sharing -/

namespace CheetahType

variable {t : CheetahType}

theorem modelCount_succ (t : CheetahType) (cores : Nat) :
    t.modelCount (cores + 1) = t.modelCount cores + if t.makesModel cores = true then 1 else 0 := by
  rw [modelCount, List.range_succ, List.filter_append, List.length_append, List.filter_singleton,
    modelCount]
  congr 1
  split <;> simp [*]

theorem makesModel_iff {size : Nat} (h : t.groupSize = some size) (coreId : Nat) :
    t.makesModel coreId = true ↔ coreId % size = 0 := by
  have hby2 : coreId &&& 1 = coreId % 2 := Nat.and_two_pow_sub_one_eq_mod coreId 1
  have hby4 : coreId &&& 3 = coreId % 4 := Nat.and_two_pow_sub_one_eq_mod coreId 2
  have hby8 : coreId &&& 7 = coreId % 8 := Nat.and_two_pow_sub_one_eq_mod coreId 3
  cases t <;> cases h
  case cheetahLocal => simp [makesModel, Nat.mod_one]
  case cheetahBy2 => rw [makesModel, decide_eq_true_iff, hby2]
  case cheetahBy4 => rw [makesModel, decide_eq_true_iff, hby4]
  case cheetahBy8 => rw [makesModel, decide_eq_true_iff, hby8]

theorem groupSize_pos {size : Nat} (h : t.groupSize = some size) : 0 < size := by
  cases t <;> cases h <;> decide

theorem modelCount_eq {size : Nat} (h : t.groupSize = some size) (cores : Nat) :
    t.modelCount cores = (cores + size - 1) / size := by
  have hpos := groupSize_pos h
  induction cores with
  | zero =>
    rw [modelCount, Nat.zero_add, Nat.div_eq_of_lt (by omega)]
    rfl
  | succ cores ih =>
    have hdiv : (cores + 1 + size - 1) / size = cores / size + 1 := by
      rw [show cores + 1 + size - 1 = cores + size by omega, Nat.add_div_right _ hpos]
    rw [modelCount_succ, ih, hdiv]
    by_cases hmod : cores % size = 0
    · obtain ⟨q, rfl⟩ := Nat.dvd_of_mod_eq_zero hmod
      rw [if_pos ((makesModel_iff h _).mpr hmod), Nat.mul_div_cancel_left q hpos,
        show size * q + size - 1 = size - 1 + size * q by omega, Nat.add_mul_div_left _ _ hpos,
        Nat.div_eq_of_lt (by omega), Nat.zero_add]
    · rw [if_neg fun hm => hmod ((makesModel_iff h _).mp hm), Nat.add_zero]
      have hsplit := Nat.div_add_mod cores size
      have hlt := Nat.mod_lt cores hpos
      have hnum : cores + size - 1 = (cores % size - 1) + size * (cores / size + 1) := by
        rw [Nat.mul_add, Nat.mul_one]
        omega
      rw [hnum, Nat.add_mul_div_left _ _ hpos, Nat.div_eq_of_lt (by omega), Nat.zero_add]

/-- Cores whose numbers agree but for the low bits share a simulator. -/
theorem modelIndex_eq {size : Nat} (h : t.groupSize = some size) (coreId : Nat) :
    t.modelIndex coreId = coreId / size := by
  rw [modelIndex, modelCount_eq h, show coreId + 1 + size - 1 = coreId + size by omega,
    Nat.add_div_right _ (groupSize_pos h), Nat.add_sub_cancel]

theorem modelIndex_global (coreId : Nat) : cheetahGlobal.modelIndex coreId = 0 := by
  have hone : ∀ m, cheetahGlobal.modelCount (m + 1) = 1 := by
    intro m
    induction m with
    | zero => rfl
    | succ m ih => rw [modelCount_succ, ih]; rfl
  rw [modelIndex, hone]

/-- The simulator of a core is one of those made. -/
theorem modelIndex_lt {coreId cores : Nat} (h : coreId < cores) :
    t.modelIndex coreId < t.modelCount cores := by
  have hmono : ∀ a b, a ≤ b → t.modelCount a ≤ t.modelCount b := by
    intro a b hab
    induction hab with
    | refl => exact Nat.le_refl _
    | step _ ih => exact ih.trans (by rw [modelCount_succ]; exact Nat.le_add_right _ _)
  have hfirst : 0 < t.modelCount 1 := by cases t <;> decide
  have hpos := hfirst.trans_le (hmono 1 (coreId + 1) (Nat.le_add_left 1 coreId))
  have hle : t.modelCount (coreId + 1) ≤ t.modelCount cores := hmono _ _ h
  rw [modelIndex]
  omega

end CheetahType

namespace CheetahManager

variable {n : Nat} {k : ManagerConfig} {s s' : CheetahManager n} {tr : List (Input n × Output)}
variable {t : CheetahType} {g : Nat} {core : Fin n}

/-! ### Addresses -/

theorem Simulates.accesses {c : Config} {before : List (BitVec 64)} {m : CheetahSACLRU}
    (h : Simulates c before m) (addrs : List (BitVec 64)) :
    Simulates c (before ++ addrs) (accesses c addrs m) := by
  induction addrs generalizing before m with
  | nil =>
    rw [List.append_nil]
    exact h
  | cons addr addrs ih =>
    have hrest := ih (h.sacnmulWoarr addr)
    rwa [List.append_assoc, List.singleton_append] at hrest

def Input.address (core : Fin n) : Input n → Option (BitVec 64)
  | .access c addr => if c = core then some addr else none
  | .flush _ => none
  | .update => none

/-- The addresses a core has accessed. -/
def accessed (tr : List (Input n × Output)) (core : Fin n) : List (BitVec 64) :=
  tr.filterMap fun e => e.1.address core

/-- The addresses of a core that a kind of simulator has not seen yet. -/
def pending (s : CheetahManager n) (t : CheetahType) (core : Fin n) : List (BitVec 64) :=
  if s.flushing core = [] ∨ t ∈ s.flushing core then s.addressBuffer core else []

/-- What a simulator has been fed, address by address with the core it is from. -/
structure Fed (k : ManagerConfig) (tr : List (Input n × Output)) (s : CheetahManager n)
    (t : CheetahType) (g : Nat) (fed : List (Fin n × BitVec 64)) : Prop where
  simulates : Simulates (k.config t) (fed.map Prod.snd) (s.models t g)
  group : ∀ p ∈ fed, t.modelIndex p.1 = g
  complete : ∀ core : Fin n, t.modelIndex core = g →
    accessed tr core = (fed.filter fun p => decide (p.1 = core)).map Prod.snd ++ s.pending t core

/-- A buffer is either being filled or full and on its way to the simulators. -/
structure Buffers (s : CheetahManager n) : Prop where
  nodup : ∀ core, (s.flushing core).Nodup
  filling : ∀ core, s.flushing core = [] → (s.addressBuffer core).length < addressBufferSize
  full : ∀ core, s.flushing core ≠ [] → (s.addressBuffer core).length = addressBufferSize

theorem accessed_append (tr : List (Input n × Output)) (i : Input n) (o : Output) (core : Fin n) :
    accessed (tr ++ [(i, o)]) core = accessed tr core ++ (i.address core).toList := by
  rw [accessed, List.filterMap_append, accessed]
  congr 1

/-! ### Statistics of one simulator -/

/-- The levels of a simulator, by the sizes it answers for. -/
theorem config_levels (k : ManagerConfig) (t : CheetahType) :
    (k.config t).A + 10 = k.minBits ∧ (k.config t).B + 10 = k.maxBits t := by
  have hmin : 10 ≤ k.minBits := k.min_le
  have hmax := hmin.trans (k.le_maxBits t)
  constructor
  · change k.minBits - 4 - 6 + 10 = k.minBits
    omega
  · change k.maxBits t - 4 - 6 + 10 = k.maxBits t
    omega

/-- Every query of a cache leaves the simulation as it is, and adds what has been counted. -/
theorem foldl_addHits {c : Config} {addrs : List (BitVec 64)} {m : CheetahSACLRU}
    (h : Simulates c addrs m) (stats : Nat → Nat) (levels : Nat) (hlevels : levels ≤ c.maxDepth + 1) :
    let r := (List.range' c.A levels).foldl (addHits c) (stats, m)
    Simulates c addrs r.2 ∧ ∀ b, r.1 b = stats b +
      if c.N + c.A + c.L ≤ b ∧ b < c.N + c.A + levels + c.L then
        c.foundCount (b - (c.N + c.A + c.L)) (2 ^ c.N) (fun _ => initStack c) addrs else 0 := by
  induction levels with
  | zero =>
    refine ⟨h, fun b => ?_⟩
    rw [if_neg (by omega)]
    rfl
  | succ levels ih =>
    obtain ⟨hsim, hstats⟩ := ih (Nat.le_of_succ_le hlevels)
    rw [List.range'_concat, List.foldl_append, List.foldl_cons, List.foldl_nil, Nat.one_mul]
    generalize (List.range' c.A levels).foldl (addHits c) (stats, m) = r at hsim hstats ⊢
    have hle : c.A + levels - c.A ≤ c.maxDepth := by omega
    refine ⟨hsim.hits (c.A + levels) (2 ^ c.N), fun b => ?_⟩
    simp only [addHits]
    rw [hits_eq _ hle, Nat.add_sub_cancel_left, hsim.counts levels (by omega) (2 ^ c.N) (Nat.le_refl _)]
    by_cases hb : b = c.N + (c.A + levels) + c.L
    · rw [hb, poke_self, hstats, if_neg (by omega), if_pos (by omega), Nat.add_zero,
        show c.N + (c.A + levels) + c.L - (c.N + c.A + c.L) = levels by omega]
    · rw [poke_of_ne _ hb, hstats]
      congr 1
      exact if_congr (by omega) rfl rfl

theorem updateStats_spec {addrs : List (BitVec 64)} {m : CheetahSACLRU}
    (h : Simulates (k.config t) addrs m) (stats : Nat → Nat) :
    Simulates (k.config t) addrs (updateStats (k.config t) (stats, m)).2 ∧
      ∀ b, (updateStats (k.config t) (stats, m)).1 b = stats b + share k t m b := by
  have hmin : 10 ≤ k.minBits := k.min_le
  have hmax := k.le_maxBits t
  obtain ⟨hA, hB⟩ := config_levels k t
  have hN : (k.config t).N = 4 := rfl
  have hL : (k.config t).L = 6 := rfl
  have hD : (k.config t).maxDepth = (k.config t).B - (k.config t).A := rfl
  obtain ⟨hsim, hstats⟩ := foldl_addHits h stats ((k.config t).B + 1 - (k.config t).A) (by omega)
  refine ⟨⟨hsim.tree, hsim.outside, hsim.depths, hsim.tEntries, hsim.counts⟩, fun b => ?_⟩
  simp only [updateStats]
  rw [share]
  by_cases hb : b = 0
  · rw [hb, poke_self, if_pos rfl, hstats, if_neg (by omega), Nat.add_zero, hsim.tEntries,
      h.tEntries]
  · rw [poke_of_ne _ hb, hstats, if_neg hb]
    congr 1
    refine if_ctx_congr (by omega) (fun hin => ?_) fun _ => rfl
    have hcount := h.counts (b - k.minBits) (by omega) (2 ^ associativityLog2) (Nat.le_refl _)
    rw [hcount, show b - ((k.config t).N + (k.config t).A + (k.config t).L) = b - k.minBits by omega]
    rfl

/-! ### Statistics of a kind -/

theorem foldl_addModel {models : Nat → CheetahSACLRU} {fed : Nat → List (BitVec 64)}
    (h : ∀ g, Simulates (k.config t) (fed g) (models g)) (stats : Nat → Nat) (count : Nat) :
    let r := (List.range count).foldl (addModel k t) (stats, models)
    (∀ g, Simulates (k.config t) (fed g) (r.2 g)) ∧ (∀ g, count ≤ g → r.2 g = models g) ∧
      ∀ b, r.1 b = stats b + ((List.range count).map fun g => share k t (models g) b).sum := by
  induction count with
  | zero => exact ⟨h, fun _ _ => rfl, fun _ => rfl⟩
  | succ count ih =>
    obtain ⟨hsim, hsame, hstats⟩ := ih
    rw [List.range_succ, List.foldl_append, List.foldl_cons, List.foldl_nil]
    generalize (List.range count).foldl (addModel k t) (stats, models) = r at hsim hsame hstats ⊢
    obtain ⟨hupdated, hadded⟩ := updateStats_spec (hsim count) r.1
    refine ⟨fun g => ?_, fun g hg => ?_, fun b => ?_⟩
    · by_cases hg : g = count
      · subst hg
        simp only [addModel, Function.update_self]
        exact hupdated
      · simp only [addModel, Function.update_of_ne hg]
        exact hsim g
    · have hne : g ≠ count := by omega
      simp only [addModel, Function.update_of_ne hne]
      exact hsame g (Nat.le_of_succ_le hg)
    · simp only [addModel]
      rw [hadded, hstats, hsame count (Nat.le_refl count), List.map_append, List.sum_append,
        List.map_singleton, List.sum_singleton, Nat.add_assoc]

/-! ### Runs -/

theorem Buffers.step {i : Input n} {o : Output} (h : Buffers s) (hstep : Step k s i o s') :
    Buffers s' := by
  cases hstep with
  | @access core addr hidle =>
    have hlen := h.filling core hidle
    have hgrown : (s.addressBuffer core ++ [addr]).length = (s.addressBuffer core).length + 1 :=
      List.length_append
    constructor
    · intro c
      by_cases hc : c = core
      · subst hc
        simp only [CheetahManager.access, Function.update_self]
        split
        · decide
        · exact List.nodup_nil
      · simp only [CheetahManager.access, Function.update_of_ne hc]
        exact h.nodup c
    · intro c hf
      by_cases hc : c = core
      · subst hc
        simp only [CheetahManager.access, Function.update_self] at hf ⊢
        by_cases hfull : addressBufferSize ≤ (s.addressBuffer c ++ [addr]).length
        · rw [if_pos hfull] at hf
          cases hf
        · exact Nat.lt_of_not_le hfull
      · simp only [CheetahManager.access, Function.update_of_ne hc] at hf ⊢
        exact h.filling c hf
    · intro c hf
      by_cases hc : c = core
      · subst hc
        simp only [CheetahManager.access, Function.update_self] at hf ⊢
        by_cases hfull : addressBufferSize ≤ (s.addressBuffer c ++ [addr]).length
        · omega
        · rw [if_neg hfull] at hf
          exact absurd rfl hf
      · simp only [CheetahManager.access, Function.update_of_ne hc] at hf ⊢
        exact h.full c hf
  | @flush core t rest hbusy =>
    have hfull := h.full core (by rw [hbusy]; exact List.cons_ne_nil _ _)
    have hnodup := h.nodup core
    rw [hbusy] at hnodup
    constructor
    · intro c
      by_cases hc : c = core
      · subst hc
        simp only [CheetahManager.flush, Function.update_self]
        exact hnodup.of_cons
      · simp only [CheetahManager.flush, Function.update_of_ne hc]
        exact h.nodup c
    · intro c hf
      by_cases hc : c = core
      · subst hc
        simp only [CheetahManager.flush, Function.update_self] at hf ⊢
        rw [if_pos hf]
        decide
      · simp only [CheetahManager.flush, Function.update_of_ne hc] at hf ⊢
        exact h.filling c hf
    · intro c hf
      by_cases hc : c = core
      · subst hc
        simp only [CheetahManager.flush, Function.update_self] at hf ⊢
        rw [if_neg hf]
        exact hfull
      · simp only [CheetahManager.flush, Function.update_of_ne hc] at hf ⊢
        exact h.full c hf
  | update => exact ⟨h.nodup, h.filling, h.full⟩

theorem Run.buffers (h : Run (machine k n) anyStep tr s) : Buffers s :=
  h.invariant (fun _ hs => by
    subst hs
    exact ⟨fun _ => List.nodup_nil, fun _ _ => Nat.zero_lt_succ 255, fun _ hne => absurd rfl hne⟩)
    fun _ _ _ _ hI _ hstep => hI.step hstep

/-- An access waits in its buffer. -/
theorem Fed.access {fed : List (Fin n × BitVec 64)} (h : Fed k tr s t g fed) (addr : BitVec 64)
    (hidle : s.flushing core = []) (o : Output) :
    Fed k (tr ++ [(.access core addr, o)]) (s.access core addr) t g fed := by
  refine ⟨h.simulates, h.group, fun c hg => ?_⟩
  rw [accessed_append, h.complete c hg, Input.address]
  by_cases hc : c = core
  · subst hc
    have hall : t ∈ CheetahType.all := by cases t <;> decide
    have hbefore : s.pending t c = s.addressBuffer c := if_pos (Or.inl hidle)
    have hafter : (s.access c addr).pending t c = s.addressBuffer c ++ [addr] := by
      simp only [pending, CheetahManager.access, Function.update_self]
      split
      · rw [if_pos (Or.inr hall)]
      · rw [if_pos (Or.inl rfl)]
    rw [hbefore, hafter, if_pos rfl, Option.toList_some, List.append_assoc]
  · have hsame : (s.access core addr).pending t c = s.pending t c := by
      simp only [pending, CheetahManager.access, Function.update_of_ne hc]
    rw [if_neg fun heq => hc heq.symm, Option.toList_none, List.append_nil, hsame]

/-- A buffer that is handed to a simulator comes behind what it has been fed. -/
theorem Fed.flush {fed : List (Fin n × BitVec 64)} {t' : CheetahType} {rest : List CheetahType}
    (h : Fed k tr s t g fed) (hnodup : (s.flushing core).Nodup) (hbusy : s.flushing core = t' :: rest)
    (o : Output) :
    ∃ fed', Fed k (tr ++ [(.flush core, o)]) (s.flush k core t' rest) t g fed' := by
  have htrace : ∀ c, accessed (tr ++ [(Input.flush core, o)]) c = accessed tr c := by
    intro c
    rw [accessed_append, Input.address, Option.toList_none, List.append_nil]
  have hother : ∀ c, c ≠ core → (s.flush k core t' rest).pending t c = s.pending t c := by
    intro c hc
    simp only [pending, CheetahManager.flush, Function.update_of_ne hc]
  rw [hbusy] at hnodup
  have hfresh := (List.nodup_cons.mp hnodup).1
  have hown : (s.flush k core t' rest).pending t core = if t ∈ rest then s.addressBuffer core else [] := by
    simp only [pending, CheetahManager.flush, Function.update_self]
    by_cases hrest : rest = []
    · subst hrest
      simp
    · simp [hrest]
  have hown' : s.pending t core = if t ∈ t' :: rest then s.addressBuffer core else [] := by
    simp only [pending, hbusy]
    simp
  by_cases ht : t = t' ∧ t'.modelIndex core = g
  · obtain ⟨rfl, hg⟩ := ht
    refine ⟨fed ++ (s.addressBuffer core).map fun addr => (core, addr), ?_, ?_, fun c hcg => ?_⟩
    · rw [List.map_append, List.map_map]
      simp only [CheetahManager.flush, Function.update_self, hg]
      have hid : (Prod.snd ∘ fun addr : BitVec 64 => (core, addr)) = id := rfl
      rw [hid, List.map_id]
      exact Simulates.accesses h.simulates _
    · intro p hp
      rcases List.mem_append.mp hp with hp | hp
      · exact h.group p hp
      · obtain ⟨addr, -, rfl⟩ := List.mem_map.mp hp
        exact hg
    · rw [htrace, h.complete c hcg, List.filter_append, List.map_append, List.append_assoc]
      congr 1
      by_cases hc : c = core
      · subst hc
        have hall : ((s.addressBuffer c).map fun addr => (c, addr)).filter
            (fun p => decide (p.1 = c)) = (s.addressBuffer c).map fun addr => (c, addr) := by
          refine List.filter_eq_self.mpr fun p hp => ?_
          obtain ⟨addr, -, rfl⟩ := List.mem_map.mp hp
          exact decide_eq_true rfl
        have hid : (Prod.snd ∘ fun addr : BitVec 64 => (c, addr)) = id := rfl
        rw [hown, hown', if_pos List.mem_cons_self, if_neg hfresh, hall, List.map_map, hid,
          List.map_id, List.append_nil]
      · have hnone : ((s.addressBuffer core).map fun addr => (core, addr)).filter
            (fun p => decide (p.1 = c)) = [] := by
          refine List.filter_eq_nil_iff.mpr fun p hp => ?_
          obtain ⟨addr, -, rfl⟩ := List.mem_map.mp hp
          simpa using fun heq => hc (Eq.symm heq)
        rw [hother c hc, hnone, List.map_nil, List.nil_append]
  · refine ⟨fed, ?_, h.group, fun c hcg => ?_⟩
    · have hmodel : (s.flush k core t' rest).models t g = s.models t g := by
        simp only [CheetahManager.flush]
        by_cases htt : t = t'
        · subst htt
          rw [Function.update_self, Function.update_of_ne fun heq => ht ⟨rfl, heq.symm⟩]
        · rw [Function.update_of_ne htt]
      rw [hmodel]
      exact h.simulates
    · rw [htrace, h.complete c hcg]
      congr 1
      by_cases hc : c = core
      · subst hc
        have hne : t ≠ t' := fun heq => ht ⟨heq, heq ▸ hcg⟩
        have hiff : t ∈ t' :: rest ↔ t ∈ rest := List.mem_cons.trans (or_iff_right hne)
        rw [hown, hown']
        exact if_congr hiff rfl rfl
      · exact (hother c hc).symm

theorem Fed.update {fed : Nat → List (Fin n × BitVec 64)} (h : ∀ g, Fed k tr s t g (fed g))
    (o : Output) (g : Nat) : Fed k (tr ++ [(.update, o)]) (s.update k) t g (fed g) := by
  have hsim := (foldl_addModel (fun g => (h g).simulates)
    (fun b => if b < CheetahType.all.length then 0 else s.stats t b) (t.modelCount n)).1 g
  refine ⟨hsim, (h g).group, fun c hg => ?_⟩
  rw [accessed_append, (h g).complete c hg, Input.address, Option.toList_none, List.append_nil]
  rfl

/-- Every simulator has been fed the addresses of its cores, but for those still in a buffer. -/
theorem Run.fed (h : Run (machine k n) anyStep tr s) (t : CheetahType) :
    ∃ fed : Nat → List (Fin n × BitVec 64), ∀ g, Fed k tr s t g (fed g) := by
  induction h with
  | start hinit =>
    subst hinit
    refine ⟨fun _ => [], fun g => ⟨Simulates.init _, fun p hp => absurd hp List.not_mem_nil, ?_⟩⟩
    intro c _
    have hnone : (init k : CheetahManager n).pending t c = [] := if_pos (Or.inl rfl)
    rw [hnone]
    rfl
  | @next tr s s' i o hrun _ hstep ih =>
    obtain ⟨fed, hfed⟩ := ih
    cases hstep with
    | @access core addr hidle => exact ⟨fed, fun g => (hfed g).access addr hidle _⟩
    | @flush core t' rest hbusy =>
      have hnodup := (Run.buffers hrun).nodup core
      choose fed' hfed' using fun g => (hfed g).flush hnodup hbusy none
      exact ⟨fed', hfed'⟩
    | update => exact ⟨fed, Fed.update hfed _⟩

open scoped Lib.Literals

def sampleManager : ManagerConfig :=
  ⟨10, 10, 11, by decide, Nat.le_refl 10, Nat.le_succ 10, by decide, by decide⟩

def sampleState : CheetahManager 1 :=
  ((init sampleManager : CheetahManager 1).access 0 64#64).update sampleManager

def sampleTrace : List (Input 1 × Output) :=
  [(.access 0 64#64, none),
    (.update, some fun t b =>
      ((init sampleManager : CheetahManager 1).access 0 64#64).totals sampleManager t b)]

theorem sample_run : Run (machine sampleManager 1) anyStep sampleTrace sampleState := by
  have hstart : Run (machine sampleManager 1) anyStep [] (init sampleManager) := .start rfl
  exact (hstart.next trivial (Step.access 64#64 rfl)).next trivial Step.update

/-- The totals at the writes of the statistics so far. -/
def writes (tr : List (Input n × Output)) : List (CheetahType → Nat → Nat) := tr.filterMap Prod.snd

/-- Statistics after any run: those of the first few positions, the accesses among them, are the totals
at the last write, all others the sum of the totals at all writes. -/
theorem stats_run (h : Run (machine k n) anyStep tr s) (t : CheetahType) (b : Nat) :
    s.stats t b =
      if b < CheetahType.all.length then ((writes tr).map fun w => w t b).getLastD 0
      else ((writes tr).map fun w => w t b).sum := by
  induction h with
  | start hinit =>
    subst hinit
    split <;> rfl
  | @next tr s s' i o hrun _ hstep ih =>
    have hwrites : writes (tr ++ [(i, o)]) = writes tr ++ o.toList := by
      rw [writes, List.filterMap_append, writes]
      cases o <;> rfl
    rw [hwrites]
    cases hstep with
    | access addr hidle =>
      rw [Option.toList_none, List.append_nil]
      exact ih
    | flush hbusy =>
      rw [Option.toList_none, List.append_nil]
      exact ih
    | update =>
      obtain ⟨fed, hfed⟩ := Run.fed hrun t
      have hadded := (foldl_addModel (fun g => (hfed g).simulates)
        (fun b => if b < CheetahType.all.length then 0 else s.stats t b) (t.modelCount n)).2.2 b
      have hstats : (s.update k).stats t b =
          (if b < CheetahType.all.length then 0 else s.stats t b) + s.totals k t b := hadded
      rw [hstats, ih, Option.toList_some, List.map_append]
      by_cases hb : b < CheetahType.all.length
      · rw [if_pos hb, if_pos hb, Nat.zero_add, List.map_singleton, List.getLastD_concat]
      · rw [if_neg hb, if_neg hb, if_neg hb, List.sum_append, List.map_singleton, List.sum_singleton]

theorem stats_run_sample :
    sampleState.stats .cheetahGlobal 11 =
      if 11 < CheetahType.all.length then
        ((writes sampleTrace).map fun w => w .cheetahGlobal 11).getLastD 0
      else ((writes sampleTrace).map fun w => w .cheetahGlobal 11).sum :=
  stats_run sample_run .cheetahGlobal 11

end CheetahManager

end Sniper.Cheetah
