import Sniper.Cheetah.Init
set_option autoImplicit false

/-! What the simulator answers after any sequence of accesses and queries. -/

namespace Sniper.Cheetah
open Sniper.Lib Holds

namespace Config

variable (c : Config)

/-- The stacks of the trees. -/
abbrev Stacks : Type := Nat → List Nat

def accessStacks (R : Stacks) (addr : BitVec 64) : Stacks :=
  Function.update R (c.setNo addr) (moveToFront (R (c.setNo addr)) (c.origTag addr))

def stacksAfter (addrs : List (BitVec 64)) : Stacks :=
  addrs.foldl c.accessStacks fun _ => initStack c

/-- Whether an access finds its tag among the first `ways` of its class on a level. -/
def found (R : Stacks) (level ways : Nat) (addr : BitVec 64) : Bool :=
  decide (c.origTag addr ∈
    (tagClasses.part (R (c.setNo addr)) level (c.origTag addr)).take ways)

def foundCount (level ways : Nat) : Stacks → List (BitVec 64) → Nat
  | _, [] => 0
  | R, addr :: addrs =>
    (if c.found R level ways addr = true then 1 else 0) +
      foundCount level ways (c.accessStacks R addr) addrs

end Config

namespace CheetahSACLRU

variable (c : Config)

/-- An access, or a query for the hits of one cache. -/
inductive Op where
  | access (addr : BitVec 64)
  | hits (setsLog2 assoc : Nat)

def apply (s : CheetahSACLRU) : Op → CheetahSACLRU
  | .access addr => s.sacnmulWoarr c addr
  | .hits setsLog2 assoc => (s.hits c setsLog2 assoc).2

def run (ops : List Op) : CheetahSACLRU := ops.foldl (apply c) (initSaclru c)

def Op.address : Op → Option (BitVec 64)
  | .access addr => some addr
  | .hits _ _ => none

/-- The addresses accessed by a sequence. -/
def addresses (ops : List Op) : List (BitVec 64) := ops.filterMap Op.address

/-- The hits counted so far for `assoc` ways on a level. -/
def hitCount (s : CheetahSACLRU) (level assoc : Nat) : Nat :=
  ((List.range assoc).map fun j => s.sacHits j level).sum + if 0 < assoc then s.hitarr0 else 0

/-- The state after a sequence of accesses. -/
structure Simulates (addrs : List (BitVec 64)) (s : CheetahSACLRU) : Prop where
  tree : ∀ i < 2 ^ c.A, Tree c s.arr i (stackNode c (c.stacksAfter addrs i))
  outside : ∀ p, 2 ^ c.A * c.sizeOfTree ≤ p → s.arr p = 0
  depths : ∀ t, s.depths t = 0
  tEntries : s.tEntries = addrs.length
  counts : ∀ level ≤ c.maxDepth, ∀ assoc ≤ c.twoPwrN,
    s.hitCount level assoc = c.foundCount level assoc (fun _ => initStack c) addrs

variable {c} {x i : Nat} {R : List Nat} {s : CheetahSACLRU} {addrs : List (BitVec 64)}
variable {addr : BitVec 64}

theorem foundCount_append (level ways : Nat) (R : Config.Stacks) (addrs : List (BitVec 64))
    (addr : BitVec 64) :
    c.foundCount level ways R (addrs ++ [addr]) = c.foundCount level ways R addrs +
      if c.found (addrs.foldl c.accessStacks R) level ways addr = true then 1 else 0 := by
  induction addrs generalizing R with
  | nil => exact Nat.add_comm _ 0
  | cons a addrs ih =>
    rw [List.cons_append, Config.foundCount, ih, Config.foundCount, List.foldl_cons, Nat.add_assoc]

theorem stacksAfter_append (addrs : List (BitVec 64)) (addr : BitVec 64) :
    c.stacksAfter (addrs ++ [addr]) = c.accessStacks (c.stacksAfter addrs) addr := by
  rw [Config.stacksAfter, List.foldl_append]
  rfl

theorem full_stacksAfter (addrs : List (BitVec 64)) (i x : Nat) :
    Classes.Full tagClasses c.twoPwrN (c.stacksAfter addrs i) x c.maxDepth := by
  induction addrs using List.reverseRecOn with
  | nil => exact full_initStack c x
  | append_singleton addrs addr ih =>
    rw [stacksAfter_append, Config.accessStacks]
    by_cases hi : i = c.setNo addr
    · subst hi
      rw [Function.update_self]
      exact ih.moveToFront _
    · rw [Function.update_of_ne hi]
      exact ih

/-! ### One access of a tree -/

theorem sum_map_ite_eq (n a r : Nat) :
    ((List.range a).map fun m => if m = r then n else 0).sum = if r < a then n else 0 := by
  induction a with
  | zero => simp
  | succ a ih =>
    rw [List.range_succ, List.map_append, List.sum_append, ih]
    by_cases hr : r = a
    · simp [hr]
    · have hlt : r < a + 1 ↔ r < a := by omega
      have hne : a ≠ r := fun h => hr h.symm
      simp [hlt, hne]

theorem Accessed.hitCount {s' : CheetahSACLRU} (h : Accessed c R x i s s') {level assoc : Nat}
    (hlevel : level ≤ c.maxDepth) (hassoc : assoc ≤ c.twoPwrN) :
    s'.hitCount level assoc = s.hitCount level assoc +
      if x ∈ (tagClasses.part R level x).take assoc then 1 else 0 := by
  have hsum : ((List.range assoc).map fun j => s'.sacHits j level).sum =
      ((List.range assoc).map fun j => s.sacHits j level).sum +
        if x ∈ (tagClasses.part R level x).take assoc then 1 else 0 := by
    have hsplit : (fun j => s'.sacHits j level) = fun j => s.sacHits j level +
        if j = (tagClasses.part R level x).idxOf x then
          (if x ∈ tagClasses.top c.twoPwrN R level x then 1 else 0) else 0 := by
      funext j
      rw [h.sacHits]
      by_cases hj : j = (tagClasses.part R level x).idxOf x
      · by_cases hin : x ∈ tagClasses.top c.twoPwrN R level x
        · simp [hlevel, hin, hj]
        · simp [hin]
      · simp [hj]
    rw [hsplit, List.sum_map_add, sum_map_ite_eq]
    congr 1
    rw [Classes.top]
    by_cases hin : x ∈ (tagClasses.part R level x).take assoc
    · have hidx := LruStack.mem_take_iff_idxOf.mp hin
      rw [if_pos hin, if_pos hidx.2, if_pos]
      exact LruStack.mem_take_iff_idxOf.mpr ⟨hidx.1, hidx.2.trans_le hassoc⟩
    · rw [if_neg hin]
      split
      · next hlt =>
        rw [if_neg]
        intro htop
        exact hin (LruStack.mem_take_iff_idxOf.mpr ⟨(LruStack.mem_take_iff_idxOf.mp htop).1, hlt⟩)
      · rfl
  rw [CheetahSACLRU.hitCount, CheetahSACLRU.hitCount, hsum, h.hitarr0]
  omega

/-! ### Addresses -/

theorem a_lt (c : Config) : c.A < 30 := by
  by_contra hge
  have hpow : 2 ^ 30 ≤ 2 ^ c.A := Nat.pow_le_pow_right Nat.two_pos (Nat.le_of_not_lt hge)
  have hD := Nat.two_pow_pos (c.B - c.A)
  have hN := Nat.two_pow_pos c.N
  have hfits := c.fits
  have hle : 2 ^ 30 * 1 * 2 * (1 + 1) ≤ 2 ^ c.A * 2 ^ (c.B - c.A) * 2 * (2 ^ c.N + 1) :=
    Nat.mul_le_mul (Nat.mul_le_mul_right 2 (Nat.mul_le_mul hpow hD)) (Nat.succ_le_succ hN)
  exact absurd (hle.trans_lt hfits) (by decide)

theorem setNo_eq (addr : BitVec 64) : c.setNo addr = (c.line addr).toNat % 2 ^ c.A := by
  have hA := a_lt c
  have hlt : 2 ^ c.A - 1 < 2 ^ 64 :=
    (Nat.sub_le _ _).trans_lt (Nat.pow_lt_pow_right (by decide) (by omega))
  rw [Config.setNo, BitVec.toNat_and, BitVec.toNat_ofNat, Nat.mod_eq_of_lt hlt,
    Nat.and_two_pow_sub_one_eq_mod]

theorem setNo_lt (addr : BitVec 64) : c.setNo addr < 2 ^ c.A := by
  rw [setNo_eq]
  exact Nat.mod_lt _ (Nat.two_pow_pos _)

/-! ### One access -/

theorem Simulates.init (c : Config) : Simulates c [] (initSaclru c) where
  tree i hi := tree_initArr c hi
  outside _ hp := initArr_outside hp
  depths _ := rfl
  tEntries := rfl
  counts level _ assoc _ := by
    have hzero : (initSaclru c).hitCount level assoc = 0 := by
      simp [CheetahSACLRU.hitCount, initSaclru]
    rw [hzero, Config.foundCount]

/-- An access changes the tree of its address only. -/
theorem Simulates.access {s' : CheetahSACLRU} (h : Simulates c addrs s)
    (htree : Tree c s'.arr (c.setNo addr)
      (stackNode c (moveToFront (c.stacksAfter addrs (c.setNo addr)) (c.origTag addr))))
    (hframe : ∀ p, p < c.setNo addr * c.sizeOfTree ∨ (c.setNo addr + 1) * c.sizeOfTree ≤ p →
      s'.arr p = s.arr p)
    (hdepths : ∀ t, s'.depths t = 0) (htEntries : s'.tEntries = s.tEntries + 1)
    (hcount : ∀ level ≤ c.maxDepth, ∀ assoc ≤ c.twoPwrN,
      s'.hitCount level assoc = s.hitCount level assoc +
        if c.found (c.stacksAfter addrs) level assoc addr = true then 1 else 0) :
    Simulates c (addrs ++ [addr]) s' := by
  constructor
  · intro i hi
    rw [stacksAfter_append, Config.accessStacks]
    by_cases hset : i = c.setNo addr
    · subst hset
      rw [Function.update_self]
      exact htree
    · rw [Function.update_of_ne hset]
      refine (h.tree i hi).frame fun p hp₁ hp₂ => hframe p ?_
      rcases Nat.lt_or_gt_of_ne hset with hlt | hgt
      · left
        exact hp₂.trans_le (Nat.mul_le_mul_right _ hlt)
      · right
        exact (Nat.mul_le_mul_right _ hgt).trans hp₁
  · intro p hp
    rw [hframe p (Or.inr ((Nat.mul_le_mul_right _ (setNo_lt addr)).trans hp))]
    exact h.outside p hp
  · exact hdepths
  · rw [htEntries, List.length_append, List.length_singleton, ← h.tEntries]
  · intro level hlevel assoc hassoc
    rw [hcount level hlevel assoc hassoc, foundCount_append, h.counts level hlevel assoc hassoc]
    rfl

/-- A tag that is on top of its tree. -/
theorem accessed_root (hfull : Classes.Full tagClasses c.twoPwrN R x c.maxDepth)
    (htree : Tree c s.arr i (stackNode c R)) (hx : s.arr (i * c.sizeOfTree + 1) = x) :
    Tree c s.arr i (stackNode c (moveToFront R x)) ∧ ∀ level ≤ c.maxDepth,
      x ∈ tagClasses.part R level x ∧ (tagClasses.part R level x).idxOf x = 0 := by
  have hpos := c.twoPwrN_pos
  have hroot := htree 0 (Nat.zero_le _) 0 Nat.one_pos
  have hslot : c.slotAt i 0 0 = i * c.sizeOfTree := slotAt_root i 0
  have hnode : stackNode c R 0 0 = R.take c.twoPwrN := by
    have hall : tagClasses.part R 0 0 = R :=
      List.filter_eq_self.mpr fun y _ => Classes.same_iff.mpr (tagClasses.whole y 0)
    rw [stackNode, Classes.node, Classes.above, List.drop_zero, Classes.top, hall]
  have hlen : c.twoPwrN ≤ R.length := by
    have hpart := hfull 0 (Nat.zero_le _)
    exact hpart.trans (List.length_filter_le _ _)
  have hheader := hroot.header
  have hfirst := hroot.entries 0 (by rw [hnode, List.length_take]; omega)
  rw [hslot, hnode, List.length_take, Nat.min_eq_left hlen] at hheader
  have hone : s.arr (i * c.sizeOfTree) = 1 := by omega
  obtain ⟨y, rest, rfl⟩ : ∃ y rest, R = y :: rest := by
    cases R with
    | nil => exact absurd hlen (Nat.not_le.mpr hpos)
    | cons y rest => exact ⟨y, rest, rfl⟩
  have hy : y = x := by
    simp only [hslot, hone, hnode, List.getElem_take, List.getElem_cons_zero, Nat.add_zero] at hfirst
    rw [← hx, hfirst]
  subst hy
  have hsame : moveToFront (y :: rest) y = y :: rest := by rw [moveToFront, List.erase_cons_head]
  rw [hsame]
  refine ⟨htree, fun level _ => ?_⟩
  have hpart : tagClasses.part (y :: rest) level y = y :: tagClasses.part rest level y :=
    List.filter_cons_of_pos (Classes.same_iff.mpr rfl)
  rw [hpart]
  exact ⟨List.mem_cons_self, List.idxOf_cons_self⟩

theorem found_iff {R : Config.Stacks} {level ways : Nat} :
    c.found R level ways addr = true ↔
      c.origTag addr ∈ (tagClasses.part (R (c.setNo addr)) level (c.origTag addr)).take ways :=
  decide_eq_true_iff

/-- One access keeps the correspondence, on the short way and on the long one. -/
theorem Simulates.sacnmulWoarr (h : Simulates c addrs s) (addr : BitVec 64) :
    Simulates c (addrs ++ [addr]) (s.sacnmulWoarr c addr) := by
  have htree := h.tree _ (setNo_lt addr)
  have hfull := full_stacksAfter (c := c) addrs (c.setNo addr) (c.origTag addr)
  by_cases hroot : s.arr (c.setNo addr * c.sizeOfTree + 1) = c.origTag addr
  · obtain ⟨htop, hfirst⟩ := accessed_root hfull htree hroot
    have hs : s.sacnmulWoarr c addr =
        { s with tEntries := s.tEntries + 1, hitarr0 := s.hitarr0 + 1 } := by
      rw [CheetahSACLRU.sacnmulWoarr]
      exact if_pos hroot
    rw [hs]
    refine h.access htop (fun _ _ => rfl) h.depths rfl fun level hlevel assoc _ => ?_
    rw [CheetahSACLRU.hitCount, CheetahSACLRU.hitCount]
    by_cases hpos : 0 < assoc
    · rw [if_pos hpos, if_pos hpos, if_pos, Nat.add_assoc]
      obtain ⟨hin, hidx⟩ := hfirst level hlevel
      exact found_iff.mpr (LruStack.mem_take_iff_idxOf.mpr ⟨hin, by rw [hidx]; exact hpos⟩)
    · rw [if_neg hpos, if_neg hpos, if_neg]
      rw [found_iff, Nat.eq_zero_of_not_pos hpos, List.take_zero]
      exact List.not_mem_nil
  · have hnode : stackNode c (c.stacksAfter addrs (c.setNo addr)) 0 (c.origTag addr % 2 ^ 0) =
        tagClasses.top c.twoPwrN (c.stacksAfter addrs (c.setNo addr)) 0 (c.origTag addr) := by
      rw [stackNode_mod, Classes.node, Classes.above, List.drop_zero]
    have hheader := (htree 0 (Nat.zero_le _) _ (mod_lt 0 (c.origTag addr))).header
    rw [hnode, hfull.length_top (Nat.zero_le _)] at hheader
    have hlevel : AtLevel c (c.stacksAfter addrs (c.setNo addr)) (c.origTag addr) (c.setNo addr) 0
        (c.origTag addr) { s with tEntries := s.tEntries + 1 } := by
      refine ⟨Nat.zero_le _, htree, rfl, trivial, fun _ => ?_, fun t => ?_⟩
      · rw [← stackNode_mod, hnode]
        exact hfull.top_ne_nil (Nat.zero_le _) c.twoPwrN_pos
      · rw [Classes.before, List.countP_nil]
        exact h.depths t
    have hwalk := walk_spec hfull (c.maxDepth + 1) hlevel (Nat.le_add_left _ _)
    rw [slotAt_root] at hheader hwalk
    have hone : s.arr (c.setNo addr * c.sizeOfTree) = 1 := by omega
    simp only [hone] at hwalk
    have hs : s.sacnmulWoarr c addr =
        { walk c (c.setNo addr * c.sizeOfTree) (c.origTag addr) (c.maxDepth + 1) 0 (c.origTag addr) 1
            (c.setNo addr * c.sizeOfTree) { s with tEntries := s.tEntries + 1 } with
          depths := fun _ => 0 } := by
      rw [CheetahSACLRU.sacnmulWoarr]
      exact if_neg hroot
    rw [hs]
    refine h.access hwalk.tree hwalk.frame (fun _ => rfl) hwalk.tEntries
      fun level hlevel assoc hassoc => (hwalk.hitCount hlevel hassoc).trans ?_
    rw [Config.found]
    simp only [decide_eq_true_eq]
    rfl

/-! ### Queries -/

theorem sacHits_flush (s : CheetahSACLRU) (r j : Nat) :
    (s.flush c).sacHits r j =
      s.sacHits r j + if r = 0 ∧ j ≤ c.maxDepth then s.hitarr0 else 0 := by
  rw [flush]
  by_cases hr : r = 0
  · subst hr
    by_cases hj : j ≤ c.maxDepth
    · simp [hj]
    · simp [hj]
  · simp [hr]

theorem hitCount_flush (s : CheetahSACLRU) {level : Nat} (hlevel : level ≤ c.maxDepth)
    (assoc : Nat) : (s.flush c).hitCount level assoc = s.hitCount level assoc := by
  have hsplit : (fun j => (s.flush c).sacHits j level) = fun j =>
      s.sacHits j level + if j = 0 then s.hitarr0 else 0 := by
    funext j
    rw [sacHits_flush]
    by_cases hj : j = 0
    · simp [hj, hlevel]
    · simp [hj]
  rw [CheetahSACLRU.hitCount, hsplit, List.sum_map_add, sum_map_ite_eq, CheetahSACLRU.hitCount]
  simp [flush]

theorem Simulates.hits (h : Simulates c addrs s) (setsLog2 assoc : Nat) :
    Simulates c addrs (s.hits c setsLog2 assoc).2 := by
  rw [CheetahSACLRU.hits]
  split
  · exact h
  · refine ⟨h.tree, h.outside, h.depths, h.tEntries, fun level hlevel assoc hassoc => ?_⟩
    exact (hitCount_flush s hlevel assoc).trans (h.counts level hlevel assoc hassoc)

/-- A query counts what has been counted so far. -/
theorem hits_eq (s : CheetahSACLRU) {setsLog2 : Nat} (hle : setsLog2 - c.A ≤ c.maxDepth)
    (assoc : Nat) : (s.hits c setsLog2 assoc).1 = s.hitCount (setsLog2 - c.A) assoc := by
  rw [CheetahSACLRU.hits]
  by_cases hzero : s.hitarr0 = 0
  · simp only [hzero, if_true]
    rw [CheetahSACLRU.hitCount, hzero, ite_self, Nat.add_zero]
  · simp only [hzero, if_false]
    rw [← hitCount_flush s hle assoc, CheetahSACLRU.hitCount]
    simp [flush]

theorem simulates_run (ops : List Op) : Simulates c (addresses ops) (run c ops) := by
  induction ops using List.reverseRecOn with
  | nil => exact Simulates.init c
  | append_singleton ops op ih =>
    rw [run, List.foldl_append, addresses, List.filterMap_append]
    cases op with
    | access addr => exact ih.sacnmulWoarr addr
    | hits setsLog2 assoc =>
      have hnone : [Op.hits setsLog2 assoc].filterMap Op.address = [] := rfl
      rw [hnone, List.append_nil]
      exact ih.hits setsLog2 assoc

end CheetahSACLRU

end Sniper.Cheetah
