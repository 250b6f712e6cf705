import Sniper.Cheetah.Slots
set_option autoImplicit false

/-! The walk down a tree keeps it the tree of the stack of tags accessed, and counts a hit on exactly
the levels where the tag was in its set. -/

namespace Sniper.Cheetah
open Sniper.Lib

/-- A tree of the array by level and class. -/
def Holds.Tree (c : Config) (arr : Nat → Nat) (i : Nat) (nodes : Nat → Nat → List Nat) : Prop :=
  ∀ d ≤ c.maxDepth, ∀ k < 2 ^ d, Holds c arr (c.slotAt i d k) (nodes d k)

/-- The node of a stack on a level. -/
def stackNode (c : Config) (R : List Nat) (d k : Nat) : List Nat :=
  tagClasses.node c.twoPwrN R d k

/-- On the levels above `depth` the tree is already that of the stack after the access. -/
def mixedNode (c : Config) (R : List Nat) (x depth d k : Nat) : List Nat :=
  if d < depth then stackNode c (moveToFront R x) d k else stackNode c R d k

def putNode (nodes : Nat → Nat → List Nat) (d k : Nat) (l : List Nat) : Nat → Nat → List Nat :=
  fun d' k' => if d' = d ∧ k' = k then l else nodes d' k'

theorem tagClasses_cls (d t : Nat) : tagClasses.cls d t = t % 2 ^ d := rfl

theorem cls_mod (d t : Nat) : tagClasses.cls d (t % 2 ^ d) = tagClasses.cls d t :=
  Nat.mod_mod t (2 ^ d)

theorem stackNode_mod (c : Config) (R : List Nat) (d x : Nat) :
    stackNode c R d (x % 2 ^ d) = tagClasses.node c.twoPwrN R d x :=
  Classes.node_congr (cls_mod d x)

theorem mod_lt (d x : Nat) : x % 2 ^ d < 2 ^ d := Nat.mod_lt x (Nat.two_pow_pos d)

namespace Holds.Tree

variable {c : Config} {arr arr' : Nat → Nat} {i d k : Nat} {nodes nodes' : Nat → Nat → List Nat}

theorem congr (h : Tree c arr i nodes) (heq : ∀ d ≤ c.maxDepth, ∀ k < 2 ^ d, nodes d k = nodes' d k) :
    Tree c arr i nodes' := by
  intro d hd k hk
  rw [← heq d hd k hk]
  exact h d hd k hk

/-- One slot changes. -/
theorem put (h : Tree c arr i nodes) (hk : k < 2 ^ d) {l : List Nat}
    (hslot : Holds c arr' (c.slotAt i d k) l)
    (hframe : ∀ p, p < c.slotAt i d k ∨ c.slotAt i d k + c.twoPwrN < p → arr' p = arr p) :
    Tree c arr' i (putNode nodes d k l) := by
  intro d' hd' k' hk'
  rw [putNode]
  by_cases hsame : d' = d ∧ k' = k
  · rw [if_pos hsame, hsame.1, hsame.2]
    exact hslot
  · rw [if_neg hsame]
    refine (h d' hd' k' hk').frame fun p hp₁ hp₂ => hframe p ?_
    have hapart := Config.slotAt_apart (c := c) (i := i) hk hk' fun heq => hsame (by
      rw [Prod.mk.injEq] at heq
      exact ⟨heq.1.symm, heq.2.symm⟩)
    omega

theorem frame (h : Tree c arr i nodes)
    (hsame : ∀ p, i * c.sizeOfTree ≤ p → p < (i + 1) * c.sizeOfTree → arr' p = arr p) :
    Tree c arr' i nodes := by
  intro d hd k hk
  have hinside := Config.slotAt_inside (c := c) (i := i) hd hk
  refine (h d hd k hk).frame fun p hp₁ hp₂ => hsame p ?_ ?_ <;> omega

end Holds.Tree

namespace CheetahSACLRU
open Holds

variable {c : Config} {x i d k : Nat} {nodes : Nat → Nat → List Nat} {s : CheetahSACLRU}

/-! ### One level -/

/-- The search of a slot, with its top dropped. -/
theorem tree_drop_search (h : Tree c s.arr i nodes) (hd : d ≤ c.maxDepth) (hk : k < 2 ^ d)
    (hle : (nodes d k).length ≤ c.twoPwrN) (hne : nodes d k ≠ []) :
    Tree c ((search c x (c.slotAt i d k) (c.twoPwrN + 1 - s.arr (c.slotAt i d k))
        (s.arr (c.slotAt i d k)) s).1.drop (c.slotAt i d k)).arr i
      (putNode nodes d k (if x ∈ nodes d k then (nodes d k).erase x else (nodes d k).dropLast)) := by
  have hslot := h d hd k hk
  have hheader := hslot.header
  have hlen : c.twoPwrN + 1 - s.arr (c.slotAt i d k) = (nodes d k).length := by omega
  refine h.put hk (holds_drop_search hslot hle hne) fun p hp => ?_
  have hsearch := searched (c := c) (x := x) (nodes d k) (s.arr (c.slotAt i d k)) s hslot.entries
  rw [drop_arr_of_ne _ (by omega), hlen]
  exact hsearch.frame p (by omega)

theorem tree_push (h : Tree c s.arr i nodes) (hd : d ≤ c.maxDepth) (hk : k < 2 ^ d) (atag : Nat)
    (hlt : (nodes d k).length < c.twoPwrN) :
    Tree c (s.push (c.slotAt i d k) atag).arr i (putNode nodes d k (atag :: nodes d k)) := by
  have hslot := h d hd k hk
  have hheader := hslot.header
  exact h.put hk (holds_push hslot hlt) fun p hp => push_arr_of_apart s (by omega) hp

/-! ### Counting a hit -/

theorem le_of_steps {S : Nat → Nat} {left m : Nat} (h : ∀ j < left, S (j + 1) ≤ S j)
    (hm : m ≤ left) : S left ≤ S m := by
  induction hm with
  | refl => exact Nat.le_refl _
  | step hle ih => exact (h _ (Nat.lt_succ_self _)).trans (ih fun j hj => h j (Nat.lt_succ_of_lt hj))

/-- The counts of hits, by depth in the set and level. -/
theorem countHit_sacHits (S : Nat → Nat) (left : Nat) (s : CheetahSACLRU)
    (hS : ∀ j < left, S j = S (j + 1) + s.depths j) (r j : Nat) :
    (countHit c left (S left) s).sacHits r j =
      s.sacHits r j + if j < left ∧ S j < c.twoPwrN ∧ r = S j then 1 else 0 := by
  induction left generalizing s with
  | zero => simp [countHit]
  | succ left ih =>
    rw [countHit, ← hS left (Nat.lt_succ_self left)]
    by_cases hlt : S left < c.twoPwrN
    · rw [if_pos hlt]
      refine (ih _ ?_).trans ?_
      · exact fun m hm => hS m (Nat.lt_succ_of_lt hm)
      · by_cases hj : j = left
        · subst hj
          by_cases hr : r = S j
          · subst hr
            simp [poke, hlt]
          · simp [hr]
        · have hj' : j < left + 1 ↔ j < left := by omega
          by_cases hr : r = S left
          · subst hr
            simp [poke, hj, hj']
          · simp [hr, hj']
    · rw [if_neg hlt, if_neg]
      · rfl
      · rintro ⟨hj, hS', -⟩
        have := le_of_steps (S := S) (fun m hm => (hS m (Nat.lt_succ_of_lt hm)).ge.trans' (Nat.le_add_right _ _))
          (Nat.le_of_lt_succ hj)
        omega

theorem countHit_rest (left sum : Nat) (s : CheetahSACLRU) :
    (countHit c left sum s).arr = s.arr ∧ (countHit c left sum s).tEntries = s.tEntries ∧
      (countHit c left sum s).hitarr0 = s.hitarr0 := by
  induction left generalizing sum s with
  | zero => exact ⟨rfl, rfl, rfl⟩
  | succ left ih =>
    rw [countHit]
    split
    · exact ih _ _
    · exact ⟨rfl, rfl, rfl⟩

/-! ### The walk -/

/-- Where the walk stands when it comes to a level. -/
structure AtLevel (c : Config) (R : List Nat) (x i depth : Nat) (atag : Nat) (s : CheetahSACLRU) :
    Prop where
  le : depth ≤ c.maxDepth + 1
  tree : Tree c s.arr i (mixedNode c R x depth)
  atag : atag = tagClasses.fallen c.twoPwrN R x depth
  missed : Classes.Missed tagClasses c.twoPwrN R x depth
  node : depth ≤ c.maxDepth → tagClasses.node c.twoPwrN R depth x ≠ []
  depths : ∀ t, s.depths t =
    (tagClasses.before c.twoPwrN R depth x).countP fun y => c.rightMatch x y = t

/-- What the walk does on a level. -/
def visit (c : Config) (i x depth atag : Nat) (s : CheetahSACLRU) : CheetahSACLRU × Bool :=
  let slotPtr := c.slotAt i depth (x % 2 ^ depth)
  let (s, hit) := search c x slotPtr (c.twoPwrN + 1 - s.arr slotPtr) (s.arr slotPtr) s
  ((s.drop slotPtr).push (c.slotAt i depth (atag % 2 ^ depth)) atag, hit)

/-- The state after a level. -/
structure Visited (c : Config) (R : List Nat) (x i depth : Nat) (s : CheetahSACLRU)
    (r : CheetahSACLRU × Bool) : Prop where
  hit : r.2 = decide (x ∈ tagClasses.node c.twoPwrN R depth x)
  tree : Tree c r.1.arr i (mixedNode c R x (depth + 1))
  tag : x ∉ tagClasses.node c.twoPwrN R depth x →
    r.1.tag = tagClasses.fallen c.twoPwrN R x (depth + 1)
  depths : ∀ t, r.1.depths t =
    (tagClasses.passed c.twoPwrN R depth x).countP fun y => c.rightMatch x y = t
  frame : ∀ p, p < i * c.sizeOfTree ∨ (i + 1) * c.sizeOfTree ≤ p → r.1.arr p = s.arr p
  sacHits : r.1.sacHits = s.sacHits
  tEntries : r.1.tEntries = s.tEntries
  hitarr0 : r.1.hitarr0 = s.hitarr0

variable {R : List Nat} {depth atag : Nat}

/-- The nodes of a level after it is visited are those of the stack after the access. -/
theorem mixedNode_succ (hfull : Classes.Full tagClasses c.twoPwrN R x c.maxDepth)
    (hd : depth ≤ c.maxDepth) (hmiss : Classes.Missed tagClasses c.twoPwrN R x depth)
    (hnode : tagClasses.node c.twoPwrN R depth x ≠ []) {rest : List Nat}
    (hrest : rest = if x ∈ tagClasses.node c.twoPwrN R depth x
      then (tagClasses.node c.twoPwrN R depth x).erase x
      else (tagClasses.node c.twoPwrN R depth x).dropLast)
    (hatag : atag = tagClasses.fallen c.twoPwrN R x depth) {e k : Nat} (hk : k < 2 ^ e) :
    putNode (putNode (mixedNode c R x depth) depth (x % 2 ^ depth) rest) depth (atag % 2 ^ depth)
        (atag :: putNode (mixedNode c R x depth) depth (x % 2 ^ depth) rest depth (atag % 2 ^ depth))
        e k =
      mixedNode c R x (depth + 1) e k := by
  have hpos := c.twoPwrN_pos
  by_cases he : e = depth
  · subst he
    have hclass : tagClasses.cls e k = k := Nat.mod_eq_of_lt hk
    have hown : ∀ t, (tagClasses.same e k t = true ↔ k = t % 2 ^ e) := by
      intro t
      rw [Classes.same_iff, hclass, tagClasses_cls]
      exact eq_comm
    have hold : mixedNode c R x e e k = tagClasses.node c.twoPwrN R e k := by
      rw [mixedNode, if_neg (Nat.lt_irrefl e), stackNode]
    have hnew : mixedNode c R x (e + 1) e k = tagClasses.node c.twoPwrN (moveToFront R x) e k := by
      rw [mixedNode, if_pos (Nat.lt_succ_self e), stackNode]
    rw [hnew]
    by_cases hx : k = x % 2 ^ e
    · have hcls : tagClasses.cls e k = tagClasses.cls e x := by rw [hx, cls_mod]
      rw [Classes.node_congr hcls, Classes.node_moveToFront_self hfull hd hpos hmiss hnode, ← hrest,
        ← hatag, ← Classes.same_congr hcls]
      by_cases ha : k = atag % 2 ^ e
      · rw [if_pos ((hown atag).mpr ha)]
        simp [putNode, ← ha, ← hx]
      · rw [if_neg fun h => ha ((hown atag).mp h)]
        simp [putNode, ha, ← hx]
    · have hne : tagClasses.cls e k ≠ tagClasses.cls e x := by
        rw [hclass, tagClasses_cls]
        exact hx
      rw [Classes.node_moveToFront_of_ne hfull hd hpos hmiss hne, ← hatag, ← hold]
      by_cases ha : k = atag % 2 ^ e
      · rw [if_pos ((hown atag).mpr ha)]
        simp [putNode, ← ha, hx]
      · rw [if_neg fun h => ha ((hown atag).mp h)]
        simp [putNode, ha, hx]
  · have hlt : e < depth ↔ e < depth + 1 := by omega
    simp [putNode, he, mixedNode, hlt]

theorem visited (hfull : Classes.Full tagClasses c.twoPwrN R x c.maxDepth)
    (h : AtLevel c R x i depth atag s) (hd : depth ≤ c.maxDepth) :
    Visited c R x i depth s (visit c i x depth atag s) := by
  have hpos := c.twoPwrN_pos
  have hnode := h.node hd
  have hmix : mixedNode c R x depth depth (x % 2 ^ depth) =
      tagClasses.node c.twoPwrN R depth x := by
    rw [mixedNode, if_neg (Nat.lt_irrefl depth), stackNode_mod]
  have hslot := h.tree depth hd _ (mod_lt depth x)
  rw [hmix] at hslot
  have hheader := hslot.header
  have hlen : c.twoPwrN + 1 - s.arr (c.slotAt i depth (x % 2 ^ depth)) =
      (tagClasses.node c.twoPwrN R depth x).length := by omega
  have hsearch := searched (c := c) (x := x) _ _ s hslot.entries
  rw [← hlen] at hsearch
  have hdropped := tree_drop_search (x := x) h.tree hd (mod_lt depth x)
    (by rw [hmix]; exact Classes.length_node_le) (by rw [hmix]; exact hnode)
  rw [hmix] at hdropped
  have hsucc := fun (e k : Nat) (hk : k < 2 ^ e) =>
    mixedNode_succ hfull hd h.missed hnode rfl h.atag hk
  have hroom := congrArg List.length (hsucc depth (atag % 2 ^ depth) (mod_lt depth atag))
  rw [putNode, if_pos ⟨rfl, rfl⟩, List.length_cons, mixedNode, if_pos (Nat.lt_succ_self depth),
    stackNode] at hroom
  have hle : (tagClasses.node c.twoPwrN (moveToFront R x) depth (atag % 2 ^ depth)).length ≤
    c.twoPwrN := Classes.length_node_le
  have hpushed := tree_push hdropped hd (mod_lt depth atag) atag (by omega)
  have hinside := Config.slotAt_inside (c := c) (i := i) hd (mod_lt depth x)
  have hinside' := Config.slotAt_inside (c := c) (i := i) hd (mod_lt depth atag)
  have hroom' := (hdropped depth hd _ (mod_lt depth atag)).header
  constructor
  · exact hsearch.hit
  · exact hpushed.congr fun e _ k hk => hsucc e k hk
  · intro hx
    have htag := hsearch.tag hx
    rw [Classes.fallen_succ hfull hd hpos hnode]
    exact htag.trans (by
      rw [List.getLastD_eq_getLast?, List.getLast?_eq_some_getLast hnode, Option.getD_some])
  · intro t
    refine (hsearch.depths t).trans ?_
    rw [h.depths t, Classes.passed, List.countP_append]
  · intro p hp
    rw [visit]
    refine (push_arr_of_apart (c := c) _ ?_ ?_).trans ((drop_arr_of_ne _ ?_).trans (hsearch.frame p ?_)) <;>
      omega
  · exact hsearch.sacHits
  · exact hsearch.tEntries
  · exact hsearch.hitarr0

/-- Levels with an empty slot on the way are passed over. -/
theorem nextDepth_spec (hfull : Classes.Full tagClasses c.twoPwrN R x c.maxDepth) (left : Nat)
    (hsum : depth + left = c.maxDepth + 1) (hd : 0 < depth)
    (htree : Tree c s.arr i (mixedNode c R x depth))
    (hmiss : Classes.Missed tagClasses c.twoPwrN R x depth) :
    ∃ next, nextDepth c s.arr (i * c.sizeOfTree) x left depth = next ∧ depth ≤ next ∧
      next ≤ c.maxDepth + 1 ∧
      Tree c s.arr i (mixedNode c R x next) ∧
      tagClasses.fallen c.twoPwrN R x next = tagClasses.fallen c.twoPwrN R x depth ∧
      Classes.Missed tagClasses c.twoPwrN R x next ∧
      (next ≤ c.maxDepth → tagClasses.node c.twoPwrN R next x ≠ []) ∧
      tagClasses.before c.twoPwrN R next x = tagClasses.before c.twoPwrN R depth x := by
  induction left generalizing depth with
  | zero => exact ⟨depth, rfl, Nat.le_refl _, by omega, htree, rfl, hmiss, by omega, rfl⟩
  | succ left ih =>
    have hle : depth ≤ c.maxDepth := by omega
    have hslot := htree depth hle _ (mod_lt depth x)
    rw [mixedNode, if_neg (Nat.lt_irrefl depth), stackNode_mod] at hslot
    rw [nextDepth, Config.add_entry]
    by_cases hempty : tagClasses.node c.twoPwrN R depth x = []
    · have hheader := hslot.header
      rw [hempty, List.length_nil] at hheader
      rw [if_pos (by omega)]
      obtain ⟨d, rfl⟩ := Nat.exists_eq_succ_of_ne_zero (Nat.ne_of_gt hd)
      obtain ⟨hnil, hsame, hfallen, hmiss'⟩ :=
        Classes.node_eq_nil hfull hle c.twoPwrN_pos hmiss hempty
      have htree' : Tree c s.arr i (mixedNode c R x (d + 1 + 1)) := by
        refine htree.congr fun e he k hk => ?_
        by_cases hed : e = d + 1
        · subst hed
          rw [mixedNode, mixedNode, if_neg (Nat.lt_irrefl _), if_pos (Nat.lt_succ_self _), stackNode,
            stackNode]
          by_cases hx : tagClasses.cls (d + 1) k = tagClasses.cls (d + 1) x
          · rw [Classes.node_congr hx, Classes.node_congr hx, hnil, hempty]
          · rw [Classes.node_moveToFront_of_ne hfull hle c.twoPwrN_pos hmiss hx, if_neg]
            intro hk'
            exact hx ((Classes.same_iff.mp hk').symm.trans (Classes.same_iff.mp hsame))
        · have hlt : e < d + 1 ↔ e < d + 1 + 1 := by omega
          simp [mixedNode, hlt]
      obtain ⟨next, hnext, hge, hle', htree'', hfallen', hmiss'', hnode, hbefore⟩ :=
        ih (by omega) (Nat.succ_pos _) htree' hmiss'
      refine ⟨next, hnext, by omega, hle', htree'', hfallen'.trans hfallen, hmiss'', hnode, ?_⟩
      rw [hbefore, Classes.before, hempty, List.append_nil]
    · have hheader := hslot.header
      have hlen := List.length_pos_of_ne_nil hempty
      rw [if_neg (by omega)]
      exact ⟨depth, rfl, Nat.le_refl _, by omega, htree, rfl, hmiss, fun _ => hempty, rfl⟩

/-- The number of passed tags that match at least so many bits. -/
def matching (c : Config) (l : List Nat) (x j : Nat) : Nat :=
  l.countP fun y => decide (j ≤ c.rightMatch x y)

theorem matching_succ (l : List Nat) (j : Nat) :
    matching c l x j = matching c l x (j + 1) + l.countP fun y => c.rightMatch x y = j := by
  induction l with
  | nil => rfl
  | cons y l ih =>
    have hone : (if decide (j ≤ c.rightMatch x y) = true then 1 else 0) =
        (if decide (j + 1 ≤ c.rightMatch x y) = true then 1 else 0) +
          if decide (c.rightMatch x y = j) = true then 1 else 0 := by
      simp only [decide_eq_true_eq]
      split_ifs <;> omega
    simp only [matching, List.countP_cons] at ih ⊢
    omega

theorem matching_eq {l : List Nat} {j : Nat} (hj : j ≤ c.maxDepth) :
    matching c l x j = l.countP (tagClasses.same j x) := by
  refine List.countP_congr fun y _ => ?_
  rw [decide_eq_true_iff]
  exact Config.le_rightMatch hj

theorem matching_top (l : List Nat) : matching c l x (c.maxDepth + 1) = 0 := by
  rw [matching, List.countP_eq_zero]
  intro y _
  rw [decide_eq_true_iff]
  exact Nat.not_le_of_lt (Nat.lt_succ_of_le (Config.rightMatch_le x y))

/-- What an access makes of the state, given the stack of the tags accessed before. -/
structure Accessed (c : Config) (R : List Nat) (x i : Nat) (s s' : CheetahSACLRU) : Prop where
  tree : Tree c s'.arr i (stackNode c (moveToFront R x))
  frame : ∀ p, p < i * c.sizeOfTree ∨ (i + 1) * c.sizeOfTree ≤ p → s'.arr p = s.arr p
  sacHits : ∀ r j, s'.sacHits r j = s.sacHits r j +
    if j ≤ c.maxDepth ∧ x ∈ tagClasses.top c.twoPwrN R j x ∧ r = (tagClasses.part R j x).idxOf x
    then 1 else 0
  tEntries : s'.tEntries = s.tEntries
  hitarr0 : s'.hitarr0 = s.hitarr0

theorem walk_visit (left : Nat) (hd : ¬c.maxDepth < depth) :
    walk c (i * c.sizeOfTree) x (left + 1) depth atag (s.arr (c.slotAt i depth (x % 2 ^ depth)))
        (c.slotAt i depth (x % 2 ^ depth)) s =
      let r := visit c i x depth atag s
      if r.2 = true then countHit c (c.maxDepth + 1) 0 r.1
      else
        let next := nextDepth c r.1.arr (i * c.sizeOfTree) x (c.maxDepth - depth) (depth + 1)
        walk c (i * c.sizeOfTree) x left next r.1.tag (r.1.arr (c.slotAt i next (x % 2 ^ next)))
          (c.slotAt i next (x % 2 ^ next)) r.1 := by
  simp only [walk, if_neg hd, Config.add_entry, visit]
  rfl

/-- An access found on a level counts where the tag was in its set. -/
theorem Visited.accessed (hfull : Classes.Full tagClasses c.twoPwrN R x c.maxDepth)
    (hd : depth ≤ c.maxDepth) (hmiss : Classes.Missed tagClasses c.twoPwrN R x depth)
    {r : CheetahSACLRU × Bool} (h : Visited c R x i depth s r)
    (hx : x ∈ tagClasses.node c.twoPwrN R depth x) :
    Accessed c R x i s (countHit c (c.maxDepth + 1) 0 r.1) := by
  obtain ⟨harr, htEntries, hhitarr0⟩ := countHit_rest (c := c) (c.maxDepth + 1) 0 r.1
  have htop : x ∈ tagClasses.top c.twoPwrN R depth x := hmiss.mem_top_iff.mpr hx
  constructor
  · rw [harr]
    refine h.tree.congr fun e _ k _ => ?_
    rw [mixedNode]
    by_cases he : e < depth + 1
    · rw [if_pos he]
    · obtain ⟨e', rfl⟩ : ∃ e', e = e' + 1 := ⟨e - 1, by omega⟩
      rw [if_neg he, stackNode, stackNode,
        Classes.node_moveToFront_of_mem (Classes.mem_top_mono htop (by omega))]
  · intro p hp
    rw [harr]
    exact h.frame p hp
  · intro m j
    have hcount := countHit_sacHits (c := c)
      (matching c (tagClasses.passed c.twoPwrN R depth x) x) (c.maxDepth + 1) r.1
      (fun j _ => by rw [h.depths j]; exact matching_succ _ j) m j
    rw [matching_top] at hcount
    rw [hcount, h.sacHits]
    congr 1
    refine if_congr ?_ rfl rfl
    constructor
    · rintro ⟨hj, hlt, rfl⟩
      rw [matching_eq (Nat.le_of_lt_succ hj)] at hlt ⊢
      by_cases hjd : j < depth
      · exact absurd hlt (Nat.not_lt.mpr (Classes.le_countP_passed hfull hd hjd))
      · have hge := Nat.le_of_not_lt hjd
        exact ⟨Nat.le_of_lt_succ hj, Classes.mem_top_mono htop hge,
          Classes.countP_passed hmiss.not_mem_before hx hge⟩
    · rintro ⟨hj, hin, rfl⟩
      have hjd : ¬j < depth := fun hlt => hmiss.not_mem_top hlt hin
      rw [matching_eq hj, Classes.countP_passed hmiss.not_mem_before hx (Nat.le_of_not_lt hjd)]
      exact ⟨Nat.lt_succ_of_le hj, (LruStack.mem_take_iff_idxOf.mp hin).2, rfl⟩
  · rw [htEntries, h.tEntries]
  · rw [hhitarr0, h.hitarr0]

theorem AtLevel.accessed (h : AtLevel c R x i depth atag s) (hd : c.maxDepth < depth) :
    Accessed c R x i s s := by
  refine ⟨h.tree.congr fun e he k _ => ?_, fun _ _ => rfl, fun r j => ?_, rfl, rfl⟩
  · rw [mixedNode, if_pos (by omega)]
  · rw [if_neg]
    · rfl
    · rintro ⟨hj, hin, -⟩
      exact h.missed.not_mem_top (by omega) hin

/-- A walk that comes to a level completes the access. -/
theorem walk_spec (hfull : Classes.Full tagClasses c.twoPwrN R x c.maxDepth) (left : Nat)
    (h : AtLevel c R x i depth atag s) (hleft : c.maxDepth + 1 ≤ depth + left) :
    Accessed c R x i s
      (walk c (i * c.sizeOfTree) x left depth atag (s.arr (c.slotAt i depth (x % 2 ^ depth)))
        (c.slotAt i depth (x % 2 ^ depth)) s) := by
  induction left generalizing depth atag s with
  | zero => exact h.accessed (by omega)
  | succ left ih =>
    by_cases hd : c.maxDepth < depth
    · rw [walk, if_pos hd]
      exact h.accessed hd
    · have hle := Nat.le_of_not_lt hd
      have hvisit := visited hfull h hle
      rw [walk_visit left hd]
      by_cases hx : x ∈ tagClasses.node c.twoPwrN R depth x
      · have hhit : (visit c i x depth atag s).2 = true := by
          rw [hvisit.hit]
          exact decide_eq_true hx
        simp only [hhit, if_true]
        exact hvisit.accessed hfull hle h.missed hx
      · have hhit : (visit c i x depth atag s).2 = false := by
          rw [hvisit.hit]
          exact decide_eq_false hx
        simp only [hhit, Bool.false_eq_true, if_false]
        have hmiss : Classes.Missed tagClasses c.twoPwrN R x (depth + 1) :=
          fun hin => hx (h.missed.mem_top_iff.mp hin)
        obtain ⟨next, hnext, hge, hle', htree, hfallen, hmiss', hnode, hbefore⟩ :=
          nextDepth_spec hfull (c.maxDepth - depth) (by omega) (Nat.succ_pos depth) hvisit.tree hmiss
        rw [hnext]
        have hpassed : tagClasses.passed c.twoPwrN R depth x =
            tagClasses.before c.twoPwrN R (depth + 1) x := by
          rw [Classes.passed, List.idxOf_eq_length hx, List.take_length, Classes.before]
        have hlevel : AtLevel c R x i next (visit c i x depth atag s).1.tag
            (visit c i x depth atag s).1 := by
          refine ⟨hle', htree, (hvisit.tag hx).trans hfallen.symm, hmiss', hnode, fun t => ?_⟩
          rw [hvisit.depths t, hpassed, hbefore]
        have hrest := ih hlevel (by omega)
        refine ⟨hrest.tree, fun p hp => (hrest.frame p hp).trans (hvisit.frame p hp), fun r j => ?_,
          hrest.tEntries.trans hvisit.tEntries, hrest.hitarr0.trans hvisit.hitarr0⟩
        rw [hrest.sacHits, hvisit.sacHits]

end CheetahSACLRU

end Sniper.Cheetah
