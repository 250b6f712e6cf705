import Sniper.Cheetah.Walk
set_option autoImplicit false

/-! The trees as they are set up: tags of their own fill every cache, each as often as it has ways. -/

namespace Sniper.Cheetah
open Sniper.Lib Holds

variable {c : Config} {i d j k slot : Nat} {arr : Nat → Nat}

/-- The tag that fills the sets of class `k` at first. -/
def initTag (k : Nat) : Nat := 0x80000000 + k

/-- The stack of tags the trees begin with. -/
def initStack (c : Config) : List Nat :=
  (List.range (2 ^ c.maxDepth)).flatMap fun k => List.replicate c.twoPwrN (initTag k)

def initNode (c : Config) : Nat → Nat → List Nat
  | 0, _ => List.replicate c.twoPwrN (initTag 0)
  | d + 1, k => if k < 2 ^ d then [] else List.replicate c.twoPwrN (initTag k)

theorem Config.maxDepth_lt (c : Config) : c.maxDepth < 30 := by
  by_contra hge
  have hpow : 2 ^ 30 ≤ 2 ^ c.maxDepth := Nat.pow_le_pow_right Nat.two_pos (Nat.le_of_not_lt hge)
  have hA := Nat.two_pow_pos c.A
  have hN := Nat.two_pow_pos c.N
  have hfits := c.fits
  have hle : 1 * 2 ^ 30 * 2 * (1 + 1) ≤ 2 ^ c.A * 2 ^ (c.B - c.A) * 2 * (2 ^ c.N + 1) :=
    Nat.mul_le_mul (Nat.mul_le_mul_right 2 (Nat.mul_le_mul hA hpow)) (Nat.succ_le_succ hN)
  exact absurd (hle.trans_lt hfits) (by decide)

theorem initTag_mod (hd : d ≤ c.maxDepth) (k : Nat) : initTag k % 2 ^ d = k % 2 ^ d := by
  have hlt := c.maxDepth_lt
  have hdvd : 2 ^ d ∣ 0x80000000 := by
    have : (0x80000000 : Nat) = 2 ^ d * 2 ^ (31 - d) := by
      rw [← Nat.pow_add, show d + (31 - d) = 31 by omega]
    exact Dvd.intro _ this.symm
  rw [initTag, Nat.add_mod, Nat.mod_eq_zero_of_dvd hdvd, Nat.zero_add, Nat.mod_mod]

/-! ### The stack -/

/-- Every class is filled first with the tag of its own number. -/
theorem part_initStack (hd : d ≤ c.maxDepth) (hk : k < 2 ^ d) :
    ∃ rest, tagClasses.part (initStack c) d k =
      List.replicate c.twoPwrN (initTag k) ++ rest := by
  have hpow : 2 ^ d ≤ 2 ^ c.maxDepth := Nat.pow_le_pow_right Nat.two_pos hd
  have hsplit : List.range (2 ^ c.maxDepth) =
      List.range k ++ (k :: List.range' (k + 1) (2 ^ c.maxDepth - (k + 1))) := by
    rw [List.range_eq_range', List.range_eq_range', ← List.range'_succ,
      show 2 ^ c.maxDepth - (k + 1) + 1 = 2 ^ c.maxDepth - k by omega]
    have happ : List.range' 0 k ++ List.range' (0 + k) (2 ^ c.maxDepth - k) =
        List.range' 0 (k + (2 ^ c.maxDepth - k)) := List.range'_append_1
    rw [Nat.zero_add, show k + (2 ^ c.maxDepth - k) = 2 ^ c.maxDepth by omega] at happ
    exact happ.symm
  have hbefore : ((List.range k).flatMap fun m => List.replicate c.twoPwrN (initTag m)).filter
      (tagClasses.same d k) = [] := by
    rw [List.filter_eq_nil_iff]
    intro t ht
    obtain ⟨m, hm, ht⟩ := List.mem_flatMap.mp ht
    rw [List.eq_of_mem_replicate ht, Classes.same_iff, tagClasses_cls, tagClasses_cls,
      initTag_mod hd, Nat.mod_eq_of_lt hk, Nat.mod_eq_of_lt ((List.mem_range.mp hm).trans hk)]
    exact Nat.ne_of_lt (List.mem_range.mp hm)
  have hown : (List.replicate c.twoPwrN (initTag k)).filter (tagClasses.same d k) =
      List.replicate c.twoPwrN (initTag k) := by
    refine List.filter_eq_self.mpr fun t ht => ?_
    rw [List.eq_of_mem_replicate ht, Classes.same_iff, tagClasses_cls, tagClasses_cls,
      initTag_mod hd]
  refine ⟨((List.range' (k + 1) (2 ^ c.maxDepth - (k + 1))).flatMap fun m =>
    List.replicate c.twoPwrN (initTag m)).filter (tagClasses.same d k), ?_⟩
  rw [Classes.part, initStack, hsplit, List.flatMap_append, List.filter_append, hbefore,
    List.nil_append, List.flatMap_cons, List.filter_append, hown]

theorem top_initStack (hd : d ≤ c.maxDepth) (hk : k < 2 ^ d) :
    tagClasses.top c.twoPwrN (initStack c) d k = List.replicate c.twoPwrN (initTag k) := by
  obtain ⟨rest, hrest⟩ := part_initStack hd hk
  rw [Classes.top, hrest]
  exact List.take_left' List.length_replicate

theorem full_initStack (c : Config) (x : Nat) :
    Classes.Full tagClasses c.twoPwrN (initStack c) x c.maxDepth := by
  intro d hd
  obtain ⟨rest, hrest⟩ := part_initStack hd (mod_lt d x)
  rw [Classes.part, ← Classes.same_congr (cls_mod d x), ← Classes.part, hrest, List.length_append,
    List.length_replicate]
  exact Nat.le_add_right _ _

theorem stackNode_initStack (hd : d ≤ c.maxDepth) (hk : k < 2 ^ d) :
    stackNode c (initStack c) d k = initNode c d k := by
  rw [stackNode, Classes.node, top_initStack hd hk]
  cases d with
  | zero =>
    rw [pow_zero, Nat.lt_one_iff] at hk
    subst hk
    rfl
  | succ d =>
    have hle := Nat.le_of_succ_le hd
    have hlt : k % 2 ^ d < 2 ^ (d + 1) :=
      (mod_lt d k).trans (Nat.pow_lt_pow_right (by decide) (Nat.lt_succ_self d))
    have htop : tagClasses.top c.twoPwrN (initStack c) d k =
        List.replicate c.twoPwrN (initTag (k % 2 ^ d)) := by
      rw [← Classes.top_congr (cls_mod d k)]
      exact top_initStack hle (mod_lt d k)
    have hsame : tagClasses.same (d + 1) k (initTag (k % 2 ^ d)) = decide (k < 2 ^ d) := by
      rw [Bool.eq_iff_iff, Classes.same_iff, tagClasses_cls, tagClasses_cls, initTag_mod hd,
        Nat.mod_eq_of_lt hlt, Nat.mod_eq_of_lt hk, decide_eq_true_iff]
      exact ⟨fun h => h ▸ mod_lt d k, Nat.mod_eq_of_lt⟩
    rw [Classes.above, htop, List.countP_replicate, hsame, initNode]
    by_cases hlow : k < 2 ^ d
    · simp [hlow]
    · simp [hlow]

/-! ### The array -/

theorem foldl_poke (f : Nat → Nat) (v m : Nat) (arr : Nat → Nat) (p : Nat) :
    (List.range m).foldl (fun arr l => poke arr (f l) v) arr p =
      if ∃ l < m, p = f l then v else arr p := by
  induction m with
  | zero => simp
  | succ m ih =>
    rw [List.range_succ, List.foldl_append, List.foldl_cons, List.foldl_nil]
    by_cases hp : p = f m
    · rw [hp, poke_self, if_pos ⟨m, Nat.lt_succ_self m, rfl⟩]
    · rw [poke_of_ne _ hp, ih]
      refine if_congr ⟨?_, ?_⟩ rfl rfl
      · rintro ⟨l, hl, rfl⟩
        exact ⟨l, Nat.lt_succ_of_lt hl, rfl⟩
      · rintro ⟨l, hl, rfl⟩
        exact ⟨l, Nat.lt_of_le_of_ne (Nat.le_of_lt_succ hl) fun h => hp (h ▸ rfl), rfl⟩

theorem fillSlot_apply (v p : Nat) :
    c.fillSlot slot v arr p =
      if slot < p ∧ p ≤ slot + c.twoPwrN then v else if p = slot then 1 else arr p := by
  rw [Config.fillSlot, foldl_poke]
  by_cases hin : slot < p ∧ p ≤ slot + c.twoPwrN
  · rw [if_pos hin, if_pos ⟨p - slot - 1, by omega, by omega⟩]
  · rw [if_neg hin, if_neg]
    · by_cases hp : p = slot
      · rw [if_pos hp, hp, poke_self]
      · rw [if_neg hp, poke_of_ne _ hp]
    · rintro ⟨l, hl, rfl⟩
      exact hin ⟨by omega, by omega⟩

theorem holds_fillSlot (v : Nat) :
    Holds c (c.fillSlot slot v arr) slot (List.replicate c.twoPwrN v) := by
  have hslot : c.fillSlot slot v arr slot = 1 := by
    rw [fillSlot_apply, if_neg (by omega), if_pos rfl]
  constructor
  · rw [hslot, List.length_replicate, Nat.add_comm]
  · intro j hj
    rw [List.length_replicate] at hj
    rw [hslot, List.getElem_replicate, fillSlot_apply, if_pos (by omega)]

theorem fillSlot_frame {v p : Nat} (h : p < slot ∨ slot + c.twoPwrN < p) :
    c.fillSlot slot v arr p = arr p := by
  rw [fillSlot_apply, if_neg (by omega), if_neg (by omega)]

theorem emptySlots_apply {arrPtr p : Nat} :
    c.emptySlots arrPtr j arr p =
      if ∃ l < 2 ^ (j - 1), p = arrPtr + (2 ^ j - 1 + l) * (c.twoPwrN + 1) then c.twoPwrN + 1
      else arr p :=
  foldl_poke _ _ _ _ _

theorem slotAt_eq (i d k : Nat) :
    i * c.sizeOfTree + (2 ^ d - 1 + k) * (c.twoPwrN + 1) = c.slotAt i d k := by
  have hpos := Nat.two_pow_pos d
  rw [Config.slotAt, Config.base, show 2 ^ d - 1 + k = 2 ^ d + k - 1 by omega]

/-- The slots with tags that a level gets, the first `m` of them filled. -/
theorem fullSlots_fold (i d : Nat) (arr : Nat → Nat) (v m : Nat) (hm : m ≤ 2 ^ d) :
    let r := (List.range m).foldl (fun s k =>
      (c.fillSlot (i * c.sizeOfTree + (2 ^ (d + 1) - 1 + 2 ^ d + k) * (c.twoPwrN + 1)) s.2 s.1,
        s.2 + 1)) (arr, v)
    r.2 = v + m ∧
      (∀ k < m, Holds c r.1 (c.slotAt i (d + 1) (2 ^ d + k)) (List.replicate c.twoPwrN (v + k))) ∧
      ∀ p, (∀ k < m, p < c.slotAt i (d + 1) (2 ^ d + k) ∨
        c.slotAt i (d + 1) (2 ^ d + k) + c.twoPwrN < p) → r.1 p = arr p := by
  induction m with
  | zero => exact ⟨rfl, fun k hk => absurd hk (Nat.not_lt_zero k), fun _ _ => rfl⟩
  | succ m ih =>
    obtain ⟨hv, hfilled, hframe⟩ := ih (Nat.le_of_succ_le hm)
    have hpow : 2 ^ (d + 1) = 2 ^ d * 2 := pow_succ 2 d
    have hslot : i * c.sizeOfTree + (2 ^ (d + 1) - 1 + 2 ^ d + m) * (c.twoPwrN + 1) =
        c.slotAt i (d + 1) (2 ^ d + m) := by rw [← slotAt_eq, Nat.add_assoc (2 ^ (d + 1) - 1)]
    simp only [List.range_succ, List.foldl_append, List.foldl_cons, List.foldl_nil] at hv hfilled hframe ⊢
    rw [hslot]
    refine ⟨by rw [hv, Nat.add_assoc], fun k hk => ?_, fun p hp => ?_⟩
    · by_cases hkm : k = m
      · subst hkm
        rw [hv]
        exact holds_fillSlot _
      · have hlt : k < m := by omega
        refine (hfilled k hlt).frame fun p hp₁ hp₂ => fillSlot_frame ?_
        have hapart := Config.slotAt_apart (c := c) (i := i)
          (show 2 ^ d + k < 2 ^ (d + 1) by omega) (show 2 ^ d + m < 2 ^ (d + 1) by omega)
          fun heq => hkm (by rw [Prod.mk.injEq] at heq; omega)
        omega
    · rw [fillSlot_frame (hp m (Nat.lt_succ_self m))]
      exact hframe p fun k hk => hp k (Nat.lt_succ_of_lt hk)

/-- The levels of a tree that are set up, and the next new tag. -/
structure SetUp (c : Config) (i j : Nat) (s : (Nat → Nat) × Nat) : Prop where
  levels : ∀ d ≤ j, d ≤ c.maxDepth → ∀ k < 2 ^ d, Holds c s.1 (c.slotAt i d k) (initNode c d k)
  next : s.2 = initTag (2 ^ j)

theorem SetUp.level {s : (Nat → Nat) × Nat} (h : SetUp c i j s) (hj : j + 1 ≤ c.maxDepth) :
    SetUp c i (j + 1)
      (c.fullSlots (i * c.sizeOfTree) (j + 1) (c.emptySlots (i * c.sizeOfTree) (j + 1) s.1, s.2)) := by
  have hpow : 2 ^ (j + 1) = 2 ^ j * 2 := pow_succ 2 j
  have hfull := fullSlots_fold (c := c) i j (c.emptySlots (i * c.sizeOfTree) (j + 1) s.1) s.2
    (2 ^ j) (Nat.le_refl _)
  have hempty : ∀ p, (∀ k < 2 ^ j, p ≠ c.slotAt i (j + 1) k) →
      c.emptySlots (i * c.sizeOfTree) (j + 1) s.1 p = s.1 p := by
    intro p hp
    rw [emptySlots_apply, if_neg]
    rintro ⟨l, hl, rfl⟩
    exact hp l hl (slotAt_eq i (j + 1) l)
  obtain ⟨hv, hfilled, hframe⟩ := hfull
  constructor
  · intro d hd hdD k hk
    by_cases hlast : d = j + 1
    · subst hlast
      rw [initNode]
      by_cases hlow : k < 2 ^ j
      · rw [if_pos hlow]
        have hset : c.emptySlots (i * c.sizeOfTree) (j + 1) s.1 (c.slotAt i (j + 1) k) =
            c.twoPwrN + 1 := by
          rw [emptySlots_apply, if_pos ⟨k, hlow, (slotAt_eq i (j + 1) k).symm⟩]
        have hkept : (c.fullSlots (i * c.sizeOfTree) (j + 1)
            (c.emptySlots (i * c.sizeOfTree) (j + 1) s.1, s.2)).1 (c.slotAt i (j + 1) k) =
            c.twoPwrN + 1 := by
          refine (hframe _ fun m hm => ?_).trans hset
          have hapart := Config.slotAt_apart (c := c) (i := i) hk
            (show 2 ^ j + m < 2 ^ (j + 1) by omega)
            fun heq => by rw [Prod.mk.injEq] at heq; omega
          omega
        exact ⟨by rw [hkept, List.length_nil], fun m hm => absurd hm (Nat.not_lt_zero m)⟩
      · obtain ⟨m, rfl⟩ : ∃ m, k = 2 ^ j + m := ⟨k - 2 ^ j, by omega⟩
        have htag : s.2 + m = initTag (2 ^ j + m) := by rw [h.next, initTag, initTag, Nat.add_assoc]
        rw [if_neg hlow, ← htag]
        exact hfilled m (by omega)
    · refine (h.levels d (by omega) hdD k hk).frame fun p hp₁ hp₂ => ?_
      have hapart : ∀ k' < 2 ^ (j + 1), c.slotAt i d k + c.twoPwrN < c.slotAt i (j + 1) k' ∨
          c.slotAt i (j + 1) k' + c.twoPwrN < c.slotAt i d k := fun k' hk' =>
        Config.slotAt_apart hk hk' fun heq => hlast (by rw [Prod.mk.injEq] at heq; exact heq.1)
      refine (hframe p fun m hm => ?_).trans (hempty p fun m hm => ?_)
      · have := hapart (2 ^ j + m) (by omega)
        omega
      · have := hapart m (by omega)
        omega
  · refine hv.trans ?_
    rw [h.next, initTag, initTag, hpow]
    omega

theorem SetUp.frame {s : (Nat → Nat) × Nat} (hj : j + 1 ≤ c.maxDepth) {p : Nat}
    (hp : p < i * c.sizeOfTree ∨ (i + 1) * c.sizeOfTree ≤ p) :
    (c.fullSlots (i * c.sizeOfTree) (j + 1)
      (c.emptySlots (i * c.sizeOfTree) (j + 1) s.1, s.2)).1 p = s.1 p := by
  have hpow : 2 ^ (j + 1) = 2 ^ j * 2 := pow_succ 2 j
  obtain ⟨-, -, hframe⟩ := fullSlots_fold (c := c) i j
    (c.emptySlots (i * c.sizeOfTree) (j + 1) s.1) s.2 (2 ^ j) (Nat.le_refl _)
  refine (hframe p fun m hm => ?_).trans ?_
  · have hinside := Config.slotAt_inside (c := c) (i := i) (k := 2 ^ j + m) hj (by omega)
    omega
  · rw [emptySlots_apply, if_neg]
    rintro ⟨l, hl, rfl⟩
    rw [Nat.add_sub_cancel] at hl
    have hinside := Config.slotAt_inside (c := c) (i := i) (k := l) hj (by omega)
    rw [← slotAt_eq] at hinside
    omega

theorem slotAt_root (i x : Nat) : c.slotAt i 0 (x % 2 ^ 0) = i * c.sizeOfTree := by
  rw [Config.slotAt, pow_zero, Nat.mod_one, Nat.add_zero, Nat.sub_self, Nat.zero_mul, Nat.add_zero]

theorem tree_initTree (c : Config) (i : Nat) (arr : Nat → Nat) :
    Tree c (c.initTree i arr) i (initNode c) ∧
      ∀ p, p < i * c.sizeOfTree ∨ (i + 1) * c.sizeOfTree ≤ p → c.initTree i arr p = arr p := by
  have hroot : i * c.sizeOfTree = c.slotAt i 0 0 := (slotAt_root i 0).symm
  have hbelow : ∀ m ≤ c.maxDepth,
      let r := (List.range m).foldl
        (fun s j => c.fullSlots (i * c.sizeOfTree) (j + 1)
          (c.emptySlots (i * c.sizeOfTree) (j + 1) s.1, s.2))
        (c.fillSlot (i * c.sizeOfTree) 0x80000000 arr, 0x80000000 + 1)
      SetUp c i m r ∧
        ∀ p, p < i * c.sizeOfTree ∨ (i + 1) * c.sizeOfTree ≤ p → r.1 p = arr p := by
    intro m hm
    induction m with
    | zero =>
      refine ⟨⟨fun d hd _ k hk => ?_, rfl⟩, fun p hp => fillSlot_frame ?_⟩
      · obtain rfl := Nat.le_zero.mp hd
        rw [pow_zero, Nat.lt_one_iff] at hk
        subst hk
        rw [hroot]
        exact holds_fillSlot _
      · have hinside := Config.slotAt_inside (c := c) (i := i) (k := 0) (Nat.zero_le c.maxDepth)
          Nat.one_pos
        omega
    | succ m ih =>
      obtain ⟨hset, hframe⟩ := ih (Nat.le_of_succ_le hm)
      simp only [List.range_succ, List.foldl_append, List.foldl_cons, List.foldl_nil]
      exact ⟨hset.level hm, fun p hp => (SetUp.frame hm hp).trans (hframe p hp)⟩
  obtain ⟨hset, hframe⟩ := hbelow c.maxDepth (Nat.le_refl _)
  exact ⟨fun d hd k hk => hset.levels d hd hd k hk, hframe⟩

/-- All trees begin as the trees of the initial stack. -/
theorem tree_initArr (c : Config) (hi : i < 2 ^ c.A) :
    Tree c c.initArr i (stackNode c (initStack c)) := by
  have hall : ∀ m, ∀ i < m,
      Tree c ((List.range m).foldl (fun arr i => c.initTree i arr) fun _ => 0) i (initNode c) := by
    intro m
    induction m with
    | zero => exact fun i hi => absurd hi (Nat.not_lt_zero i)
    | succ m ih =>
      intro i hi
      rw [List.range_succ, List.foldl_append, List.foldl_cons, List.foldl_nil]
      obtain ⟨htree, hframe⟩ := tree_initTree c m
        ((List.range m).foldl (fun arr i => c.initTree i arr) fun _ => 0)
      by_cases him : i = m
      · subst him
        exact htree
      · refine (ih i (by omega)).frame fun p _ hp => hframe p (Or.inl (hp.trans_le ?_))
        exact Nat.mul_le_mul_right _ (by omega)
  exact (hall _ i hi).congr fun d hd k hk => (stackNode_initStack hd hk).symm

/-- Nothing is written behind the last tree. -/
theorem initArr_outside {p : Nat} (hp : 2 ^ c.A * c.sizeOfTree ≤ p) : c.initArr p = 0 := by
  have hall : ∀ m ≤ 2 ^ c.A,
      (List.range m).foldl (fun arr i => c.initTree i arr) (fun _ => 0) p = 0 := by
    intro m hm
    induction m with
    | zero => rfl
    | succ m ih =>
      rw [List.range_succ, List.foldl_append, List.foldl_cons, List.foldl_nil,
        (tree_initTree c m _).2 p (Or.inr ((Nat.mul_le_mul_right _ hm).trans hp))]
      exact ih (Nat.le_of_succ_le hm)
  exact hall _ (Nat.le_refl _)

end Sniper.Cheetah
