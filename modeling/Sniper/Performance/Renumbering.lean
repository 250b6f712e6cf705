import Mathlib.Algebra.Group.Nat.Defs
import Sniper.Performance.Squashing
set_option autoImplicit false

/-! What the squashing leaves: offsets and dependencies among the micro-operations that stay. -/

namespace Sniper.Performance

namespace CurrentUop

def squashedIn (uops : List CurrentUop) : Nat := uops.countP fun uop => uop.squashed

def keptIn (uops : List CurrentUop) : Nat := uops.countP fun uop => !uop.squashed

theorem keptIn_add_squashedIn (uops : List CurrentUop) :
    keptIn uops + squashedIn uops = uops.length := by
  induction uops with
  | nil => rfl
  | cons uop uops ih =>
    simp only [keptIn, squashedIn, List.countP_cons, List.length_cons] at ih ⊢
    cases uop.squashed <;> simp <;> omega

theorem keptIn_append (before after : List CurrentUop) :
    keptIn (before ++ after) = keptIn before + keptIn after := List.countP_append

theorem squashedIn_append (before after : List CurrentUop) :
    squashedIn (before ++ after) = squashedIn before + squashedIn after := List.countP_append

theorem keptIn_congr {uops uops' : List CurrentUop}
    (h : uops.map (fun uop => uop.squashed) = uops'.map fun uop => uop.squashed) (k : Nat) :
    keptIn (uops.take k) = keptIn (uops'.take k) := by
  have hcount : ∀ l : List CurrentUop, keptIn l = (l.map fun uop => uop.squashed).countP (!·) :=
    fun l => by rw [List.countP_map]; rfl
  rw [hcount, hcount, List.map_take, List.map_take, h]

theorem keptIn_take_mono (uops : List CurrentUop) {j k : Nat} (h : j ≤ k) :
    keptIn (uops.take j) ≤ keptIn (uops.take k) :=
  (List.take_sublist_take_left h).countP_le

/-- The loads come first and the stores last. -/
def rank : MicroOpType → Nat
  | .load => 0
  | .execute => 1
  | .store => 2

theorem rank_inj {type type' : MicroOpType} (h : rank type = rank type') : type = type' := by
  cases type <;> cases type' <;> first | rfl | cases h

/-- How many of a type are kept. -/
def keptOf (type : MicroOpType) (uops : List CurrentUop) : Nat :=
  uops.countP fun uop => !uop.squashed && decide (uop.microOp.type = type)

theorem keptOf_append (type : MicroOpType) (before after : List CurrentUop) :
    keptOf type (before ++ after) = keptOf type before + keptOf type after := List.countP_append

/-- Where the recount is after `done`: the type of the last one kept, and how many of it there
are. -/
structure Recounted (done : List CurrentUop) (uopType : Option MicroOpType)
    (squashedCount offset : Nat) : Prop where
  squashed : squashedCount = squashedIn done
  fresh : uopType = none → ∀ uop ∈ done, uop.squashed = true
  seen : ∀ type, uopType = some type → ∃ uop ∈ done, uop.microOp.type = type
  top : ∀ type, uopType = some type → ∀ uop ∈ done, uop.squashed = false →
    rank uop.microOp.type ≤ rank type
  offset : ∀ type, uopType = some type → offset = keptOf type done

namespace Recounted

variable {done : List CurrentUop} {uopType : Option MicroOpType} {squashedCount offset : Nat}

theorem nil : Recounted [] none 0 0 where
  squashed := rfl
  fresh _ _ h := by cases h
  seen _ h := by cases h
  top _ h := by cases h
  offset _ h := by cases h

theorem skip (h : Recounted done uopType squashedCount offset) {uop : CurrentUop}
    (hs : uop.squashed = true) :
    Recounted (done ++ [uop]) uopType (squashedCount + 1) offset where
  squashed := by rw [squashedIn_append, ← h.squashed]; simp [squashedIn, hs]
  fresh hnone v hv := by
    rcases List.mem_append.mp hv with hv | hv
    · exact h.fresh hnone v hv
    · rw [List.mem_singleton.mp hv]
      exact hs
  seen type htype := by
    obtain ⟨v, hv, heq⟩ := h.seen type htype
    exact ⟨v, List.mem_append_left _ hv, heq⟩
  top type htype v hv hkept := by
    rcases List.mem_append.mp hv with hv | hv
    · exact h.top type htype v hv hkept
    · rw [List.mem_singleton.mp hv, hs] at hkept
      cases hkept
  offset type htype := by
    rw [keptOf_append, ← h.offset type htype]
    simp [keptOf, hs]

/-- The offset of the next one: a new type begins at 0, as none of it has been kept. -/
theorem next_offset (h : Recounted done uopType squashedCount offset) {uop : CurrentUop}
    (hsorted : ∀ v ∈ done, rank v.microOp.type ≤ rank uop.microOp.type) :
    (if some uop.microOp.type = uopType then offset else 0) = keptOf uop.microOp.type done := by
  split
  · next heq => exact h.offset _ heq.symm
  · next hne =>
    symm
    rw [keptOf, List.countP_eq_zero]
    rintro v hv hboth
    rw [Bool.and_eq_true, Bool.not_eq_true', decide_eq_true_eq] at hboth
    cases htype : uopType with
    | none =>
      rw [h.fresh htype v hv] at hboth
      cases hboth.1
    | some type =>
      obtain ⟨w, hw, hwtype⟩ := h.seen type htype
      have hle := h.top type htype v hv hboth.1
      have hge := hsorted w hw
      rw [hboth.2] at hle
      rw [hwtype] at hge
      exact hne (htype ▸ congrArg some (rank_inj (Nat.le_antisymm hle hge)))

theorem keep (h : Recounted done uopType squashedCount offset) {uop : CurrentUop}
    (hs : uop.squashed = false)
    (hsorted : ∀ v ∈ done, rank v.microOp.type ≤ rank uop.microOp.type) :
    Recounted (done ++ [uop]) (some uop.microOp.type) squashedCount
      ((if some uop.microOp.type = uopType then offset else 0) + 1) where
  squashed := by rw [squashedIn_append, ← h.squashed]; simp [squashedIn, hs]
  fresh h := by cases h
  seen type htype := ⟨uop, List.mem_append_right _ (List.mem_singleton.mpr rfl),
    Option.some.inj htype⟩
  top type htype v hv _ := by
    rw [← Option.some.inj htype]
    rcases List.mem_append.mp hv with hv | hv
    · exact hsorted v hv
    · rw [List.mem_singleton.mp hv]
  offset type htype := by
    rw [h.next_offset hsorted, keptOf_append, ← Option.some.inj htype]
    simp [keptOf, hs]

end Recounted

/-- A micro-operation after the first loop. -/
def recounted (uop : CurrentUop) (squashedCount offset : Nat) : CurrentUop :=
  (if uop.squashed then uop else uop.setMicroOpTypeOffset offset).setSquashedCount squashedCount

@[simp] theorem recounted_squashed (uop : CurrentUop) (count offset : Nat) :
    (uop.recounted count offset).squashed = uop.squashed := by
  unfold recounted
  split <;> rfl

@[simp] theorem recounted_intra (uop : CurrentUop) (count offset : Nat) :
    (uop.recounted count offset).intraInstructionDependencies =
      uop.intraInstructionDependencies := by
  unfold recounted
  split <;> rfl

@[simp] theorem recounted_static (uop : CurrentUop) (count offset : Nat) :
    (uop.recounted count offset).staticTypeOffset = uop.staticTypeOffset := by
  unfold recounted
  split <;> rfl

@[simp] theorem recounted_ends (uop : CurrentUop) (count offset : Nat) :
    (uop.recounted count offset).first = uop.first ∧
      (uop.recounted count offset).last = uop.last := by
  unfold recounted
  split <;> exact ⟨rfl, rfl⟩

@[simp] theorem recounted_count (uop : CurrentUop) (count offset : Nat) :
    (uop.recounted count offset).squashedCount = count := rfl

theorem recounted_offset {uop : CurrentUop} (count offset : Nat) (h : uop.squashed = false) :
    (uop.recounted count offset).microOpTypeOffset = offset := by
  rw [recounted, h]
  rfl

theorem recount_getElem? {l : List CurrentUop} : ∀ {done : List CurrentUop}
    {uopType : Option MicroOpType} {squashedCount offset : Nat},
    Recounted done uopType squashedCount offset →
    (done ++ l).Pairwise (fun u v => rank u.microOp.type ≤ rank v.microOp.type) →
    ∀ {i : Nat} {uop : CurrentUop}, l[i]? = some uop →
    (recount uopType squashedCount offset l)[i]? = some (uop.recounted
      (squashedIn (done ++ l.take (i + 1))) (keptOf uop.microOp.type (done ++ l.take i))) := by
  induction l with
  | nil =>
    intro done uopType squashedCount offset _ _ i uop h
    simp at h
  | cons head tail ih =>
    intro done uopType squashedCount offset h hsorted i uop hi
    have hpair := List.pairwise_append.mp hsorted
    have hhead : ∀ v ∈ done, rank v.microOp.type ≤ rank head.microOp.type :=
      fun v hv => hpair.2.2 v hv head List.mem_cons_self
    have hshift : ∀ rest, done ++ head :: rest = (done ++ [head]) ++ rest := by simp
    rw [hshift] at hsorted
    cases hs : head.squashed with
    | true =>
      have hskip := h.skip hs
      cases i with
      | zero =>
        cases hi
        rw [recount, if_pos hs, List.getElem?_cons_zero, recounted, if_pos hs, hskip.squashed]
        rfl
      | succ i =>
        rw [List.getElem?_cons_succ] at hi
        rw [recount, if_pos hs, List.getElem?_cons_succ, ih hskip hsorted hi, List.take_succ_cons,
          List.take_succ_cons, hshift (tail.take (i + 1)), hshift (tail.take i)]
    | false =>
      have hkeep := h.keep hs hhead
      have hs' : ¬head.squashed = true := by simp [hs]
      cases i with
      | zero =>
        cases hi
        rw [recount, if_neg hs', List.getElem?_cons_zero, recounted, if_neg hs',
          h.next_offset hhead, hkeep.squashed, List.take_zero, List.append_nil]
        rfl
      | succ i =>
        rw [List.getElem?_cons_succ] at hi
        rw [recount, if_neg hs', List.getElem?_cons_succ, ih hkeep hsorted hi, List.take_succ_cons,
          List.take_succ_cons, hshift (tail.take (i + 1)), hshift (tail.take i)]

theorem recount_length (l : List CurrentUop) : ∀ (uopType : Option MicroOpType)
    (squashedCount offset : Nat), (recount uopType squashedCount offset l).length = l.length := by
  induction l with
  | nil => exact fun _ _ _ => rfl
  | cons head tail ih =>
    intro uopType squashedCount offset
    rw [recount]
    split <;> simp [ih]

theorem resizeFrom_ok {uops : List CurrentUop} {l : List CurrentUop} : ∀ {start : Nat},
    (∀ i uop, l[i]? = some uop → ∃ uop', resize uops (start + i) uop = .ok uop') →
    ∃ final, resizeFrom uops 0 start l = .ok final ∧ final.length = l.length ∧
      ∀ i uop, l[i]? = some uop →
        ∃ uop', resize uops (start + i) uop = .ok uop' ∧ final[i]? = some uop' := by
  induction l with
  | nil => exact fun _ => ⟨[], rfl, rfl, by simp⟩
  | cons head tail ih =>
    intro start h
    obtain ⟨head', hhead⟩ := h 0 head rfl
    obtain ⟨rest, hrest, hlen, hget⟩ := @ih (start + 1) fun i uop hi => by
      have := h (i + 1) uop (by simpa using hi)
      rwa [← Nat.add_assoc, Nat.add_right_comm] at this
    refine ⟨head' :: rest, ?_, by simp [hlen], ?_⟩
    · rw [Nat.add_zero] at hhead
      simp [resizeFrom, hhead, hrest, bind, Except.bind, pure, Except.pure]
    · intro i uop hi
      cases i with
      | zero =>
        cases hi
        exact ⟨head', hhead, rfl⟩
      | succ i =>
        obtain ⟨uop', heq, hi'⟩ := hget i uop (by simpa using hi)
        refine ⟨uop', ?_, by simpa using hi'⟩
        rwa [← Nat.add_assoc, Nat.add_right_comm]

/-- The groups of the decoder: the micro-operations of a type stand together, their offsets count
from the first of the group, and what they depend on is right before it. The first ones of the two
groups are not squashed. -/
structure Grouped (uops : List CurrentUop) : Prop where
  sorted : uops.Pairwise fun u v => rank u.microOp.type ≤ rank v.microOp.type
  offset : ∀ uop ∈ uops, uop.microOpTypeOffset = uop.staticTypeOffset
  below : ∀ (i : Nat) (uop : CurrentUop), uops[i]? = some uop →
    uop.staticTypeOffset + uop.intraInstructionDependencies ≤ i
  own : ∀ (i j : Nat) (uop v : CurrentUop), uops[i]? = some uop → uops[j]? = some v →
    i - uop.staticTypeOffset ≤ j → j ≤ i → v.microOp.type = uop.microOp.type
  others : ∀ (i j : Nat) (uop v : CurrentUop), uops[i]? = some uop → uops[j]? = some v →
    j < i - uop.staticTypeOffset → v.microOp.type ≠ uop.microOp.type
  heads : ∀ (i : Nat) (uop : CurrentUop), uops[i]? = some uop → uop.intraInstructionDependencies ≠ 0 →
    (∃ v, uops[i - uop.staticTypeOffset]? = some v ∧ v.squashed = false) ∧
    ∃ v, uops[i - uop.staticTypeOffset - uop.intraInstructionDependencies]? = some v ∧
      v.squashed = false

/-- Offsets and dependencies count what is kept. -/
structure Settled (uops final : List CurrentUop) : Prop where
  squashed : final.map (fun uop => uop.squashed) = uops.map fun uop => uop.squashed
  first : final.map first = uops.map first
  last : final.map (fun uop => uop.last) = uops.map fun uop => uop.last
  offset : ∀ (i : Nat) (uop uop' : CurrentUop), uops[i]? = some uop → final[i]? = some uop' →
    uop.squashed = false → uop'.microOpTypeOffset =
      keptIn (uops.take i) - keptIn (uops.take (i - uop.staticTypeOffset))
  intra : ∀ (i : Nat) (uop uop' : CurrentUop), uops[i]? = some uop → final[i]? = some uop' →
    uop.squashed = false → uop'.intraInstructionDependencies =
      keptIn (uops.take (i - uop.staticTypeOffset)) -
        keptIn (uops.take (i - uop.staticTypeOffset - uop.intraInstructionDependencies))

namespace Grouped

variable {uops : List CurrentUop}

theorem keptOf_take (h : Grouped uops) {i : Nat} {uop : CurrentUop} (hi : uops[i]? = some uop) :
    keptOf uop.microOp.type (uops.take i) =
      keptIn (uops.take i) - keptIn (uops.take (i - uop.staticTypeOffset)) := by
  have hsplit : uops.take i = uops.take (i - uop.staticTypeOffset) ++
      (uops.take i).drop (i - uop.staticTypeOffset) := by
    have htake := List.take_append_drop (i - uop.staticTypeOffset) (uops.take i)
    rwa [List.take_take, Nat.min_eq_left (Nat.sub_le _ _), eq_comm] at htake
  have hbefore : keptOf uop.microOp.type (uops.take (i - uop.staticTypeOffset)) = 0 := by
    rw [keptOf, List.countP_eq_zero]
    intro v hv hboth
    rw [Bool.and_eq_true, decide_eq_true_eq] at hboth
    obtain ⟨j, hj, hv⟩ := List.mem_take_iff_getElem.mp hv
    have hlt : j < i - uop.staticTypeOffset := lt_of_lt_of_le hj (Nat.min_le_left _ _)
    exact h.others i j uop v hi (List.getElem?_eq_some_iff.mpr ⟨_, hv⟩) hlt hboth.2
  have hown : keptOf uop.microOp.type ((uops.take i).drop (i - uop.staticTypeOffset)) =
      keptIn ((uops.take i).drop (i - uop.staticTypeOffset)) := by
    refine List.countP_congr fun v hv => ?_
    obtain ⟨j, hj, hv⟩ := List.mem_iff_getElem.mp hv
    rw [List.getElem_drop, List.getElem_take] at hv
    rw [List.length_drop, List.length_take] at hj
    have htype := h.own i (i - uop.staticTypeOffset + j) uop v hi
      (List.getElem?_eq_some_iff.mpr ⟨_, hv⟩) (Nat.le_add_right _ _) (by omega)
    simp [htype]
  have hkept := congrArg keptIn hsplit
  rw [keptIn_append] at hkept
  rw [hsplit, keptOf_append, hbefore, hown, ← hsplit]
  omega

theorem recount_get (h : Grouped uops) {i : Nat} {uop : CurrentUop} (hi : uops[i]? = some uop) :
    (recount none 0 0 uops)[i]? = some (uop.recounted (squashedIn (uops.take (i + 1)))
      (keptOf uop.microOp.type (uops.take i))) :=
  recount_getElem? Recounted.nil h.sorted hi

/-- Up to one that is kept, as many are squashed as before it. -/
theorem countAt_recount (h : Grouped uops) {i : Nat} {uop : CurrentUop}
    (hi : uops[i]? = some uop) (hkept : uop.squashed = false) :
    countAt (recount none 0 0 uops) i = squashedIn (uops.take i) := by
  rw [countAt, h.recount_get hi, Option.map_some, Option.getD_some, recounted_count,
    List.take_add_one, hi, squashedIn_append]
  simp [squashedIn, hkept]

/-- What a micro-operation has after both loops. -/
structure Resized (uops : List CurrentUop) (i : Nat) (uop uop' : CurrentUop) : Prop where
  squashed : uop'.squashed = uop.squashed
  first : uop'.first = uop.first
  last : uop'.last = uop.last
  offset : uop.squashed = false → uop'.microOpTypeOffset =
    keptIn (uops.take i) - keptIn (uops.take (i - uop.staticTypeOffset))
  intra : uop.squashed = false → uop'.intraInstructionDependencies =
    keptIn (uops.take (i - uop.staticTypeOffset)) -
      keptIn (uops.take (i - uop.staticTypeOffset - uop.intraInstructionDependencies))

theorem kept_between {kept kept' gone gone' deps count : Nat} (hall : kept + gone = count)
    (hbefore : kept' + gone' + deps = count) (hkept : kept' ≤ kept) (hgone : gone' ≤ gone) :
    deps - (gone - gone') = kept - kept' := by
  omega

theorem resize_ok (h : Grouped uops) {i : Nat} {uop : CurrentUop} (hi : uops[i]? = some uop) :
    ∃ uop', resize (recount none 0 0 uops) i (uop.recounted (squashedIn (uops.take (i + 1)))
      (keptOf uop.microOp.type (uops.take i))) = .ok uop' ∧ Resized uops i uop uop' := by
  have hoffset := h.keptOf_take hi
  obtain ⟨hfirst, hlast⟩ := recounted_ends uop (squashedIn (uops.take (i + 1)))
    (keptOf uop.microOp.type (uops.take i))
  unfold resize
  split
  · next hskip =>
    refine ⟨_, rfl, recounted_squashed _ _ _, hfirst, hlast, ?_, ?_⟩
    · intro hkept
      rw [recounted_offset _ _ hkept, hoffset]
    · intro hkept
      rw [recounted_squashed, recounted_intra, hkept] at hskip
      have hnone := hskip.resolve_left (by decide)
      rw [recounted_intra, hnone, Nat.sub_zero, Nat.sub_self]
  · next hdeps =>
    rw [recounted_squashed, recounted_intra, not_or, Bool.not_eq_true] at hdeps
    obtain ⟨hkept, hintra⟩ := hdeps
    obtain ⟨⟨base, hbase, hbasekept⟩, ⟨dep, hdep, hdepkept⟩⟩ := h.heads i uop hi hintra
    have hbelow := h.below i uop hi
    simp only [recounted_static, recounted_intra]
    rw [if_neg (by omega)]
    refine ⟨_, rfl, recounted_squashed uop _ _, hfirst, hlast, ?_, ?_⟩
    · intro hkept
      exact (recounted_offset _ _ hkept).trans hoffset
    · intro _
      rw [h.countAt_recount hbase hbasekept, h.countAt_recount hdep hdepkept]
      have hlt := (List.getElem?_eq_some_iff.mp hi).1
      have hall := keptIn_add_squashedIn (uops.take (i - uop.staticTypeOffset))
      have hbefore := keptIn_add_squashedIn
        (uops.take (i - uop.staticTypeOffset - uop.intraInstructionDependencies))
      rw [List.length_take, Nat.min_eq_left (by omega)] at hall hbefore
      have hmono := keptIn_take_mono uops
        (Nat.sub_le (i - uop.staticTypeOffset) uop.intraInstructionDependencies)
      have hcount : uop.intraInstructionDependencies ≤ i - uop.staticTypeOffset := by omega
      change uop.intraInstructionDependencies - _ = _
      have hsquashed : squashedIn (uops.take
          (i - uop.staticTypeOffset - uop.intraInstructionDependencies)) ≤
            squashedIn (uops.take (i - uop.staticTypeOffset)) :=
        (List.take_sublist_take_left (Nat.sub_le _ _)).countP_le
      exact kept_between hall (by rw [hbefore, Nat.sub_add_cancel hcount]) hmono hsquashed

theorem doSquashing_settled (h : Grouped uops) :
    ∃ final, doSquashing uops 0 = .ok final ∧ Settled uops final := by
  have hresize : ∀ i uop, (recount none 0 0 uops)[i]? = some uop →
      ∃ orig uop', uops[i]? = some orig ∧ resize (recount none 0 0 uops) i uop = .ok uop' ∧
        Resized uops i orig uop' := by
    intro i uop hi
    have hlt := (List.getElem?_eq_some_iff.mp hi).1
    rw [recount_length] at hlt
    have horig := List.getElem?_eq_getElem hlt
    rw [h.recount_get horig] at hi
    obtain ⟨uop', heq, hres⟩ := h.resize_ok horig
    rw [Option.some.inj hi] at heq
    exact ⟨_, uop', horig, heq, hres⟩
  obtain ⟨final, heq, hlen, hget⟩ := @resizeFrom_ok (recount none 0 0 uops)
    (recount none 0 0 uops) 0 fun i uop hi => by
      obtain ⟨_, uop', _, heq, _⟩ := hresize i uop hi
      exact ⟨uop', by rwa [Nat.zero_add]⟩
  rw [recount_length] at hlen
  have hall : ∀ i uop uop', uops[i]? = some uop → final[i]? = some uop' →
      Resized uops i uop uop' := by
    intro i uop uop' hi hi'
    obtain ⟨uop'', hok, hfinal⟩ := hget i _ (h.recount_get hi)
    obtain ⟨orig, new, horig, hnew, hres⟩ := hresize i _ (h.recount_get hi)
    rw [Nat.zero_add, hnew] at hok
    rw [← Except.ok.inj hok, hi'] at hfinal
    rw [hi] at horig
    cases horig
    rw [Option.some.inj hfinal]
    exact hres
  have hmap : ∀ {α : Type} (f : CurrentUop → α),
      (∀ i uop uop', Resized uops i uop uop' → f uop' = f uop) → final.map f = uops.map f := by
    intro α f hf
    refine List.ext_getElem (by simp [hlen]) fun i hi hi' => ?_
    rw [List.getElem_map, List.getElem_map]
    rw [List.length_map] at hi hi'
    exact hf i _ _ (hall i _ _ (List.getElem?_eq_getElem hi') (List.getElem?_eq_getElem hi))
  exact ⟨final, heq, hmap _ fun _ _ _ hres => hres.squashed, hmap _ fun _ _ _ hres => hres.first,
    hmap _ fun _ _ _ hres => hres.last, fun i uop uop' hi hi' => (hall i uop uop' hi hi').offset,
    fun i uop uop' hi hi' => (hall i uop uop' hi hi').intra⟩

end Grouped

/-- Nothing is squashed, and nothing changes. -/
theorem Grouped.settled {uops : List CurrentUop} (h : Grouped uops)
    (hkept : ∀ uop ∈ uops, uop.squashed = false) : Settled uops uops := by
  have hall : ∀ k, k ≤ uops.length → keptIn (uops.take k) = k := by
    intro k hk
    have hnone : squashedIn (uops.take k) = 0 := by
      rw [squashedIn, List.countP_eq_zero]
      intro uop huop
      simp [hkept uop (List.mem_of_mem_take huop)]
    have hsum := keptIn_add_squashedIn (uops.take k)
    rwa [hnone, Nat.add_zero, List.length_take, Nat.min_eq_left hk] at hsum
  refine ⟨rfl, rfl, rfl, ?_, ?_⟩
  · intro i uop uop' hi hi' _
    rw [hi] at hi'
    cases hi'
    have hlt := (List.getElem?_eq_some_iff.mp hi).1
    have hbelow := h.below i uop hi
    rw [hall _ (by omega), hall _ (by omega), h.offset uop (List.mem_of_getElem? hi)]
    omega
  · intro i uop uop' hi hi' _
    rw [hi] at hi'
    cases hi'
    have hlt := (List.getElem?_eq_some_iff.mp hi).1
    have hbelow := h.below i uop hi
    rw [hall _ (by omega), hall _ (by omega)]
    omega

theorem number_take (l : List CurrentUop) :
    ∀ n k, (number n l).take k = number n (l.take k) := by
  induction l with
  | nil => intro n k; simp [number]
  | cons uop uops ih =>
    intro n k
    cases k with
    | zero => rfl
    | succ k =>
      rw [List.take_succ_cons, number, number]
      split <;> rw [List.take_succ_cons, ih]

theorem number_drop (l : List CurrentUop) :
    ∀ n k, (number n l).drop k = number (n + keptIn (l.take k)) (l.drop k) := by
  induction l with
  | nil => intro n k; simp [number]
  | cons uop uops ih =>
    intro n k
    cases k with
    | zero => rfl
    | succ k =>
      rw [List.take_succ_cons, List.drop_succ_cons, number, keptIn, List.countP_cons]
      split
      · next hs => rw [List.drop_succ_cons, ih, hs]; rfl
      · next hs =>
        rw [Bool.not_eq_true] at hs
        rw [List.drop_succ_cons, ih, hs]
        congr 1
        simp [keptIn]
        omega

/-- The numbers of those that are kept follow each other. -/
theorem number_kept (l : List CurrentUop) : ∀ n,
    ((number n l).filter fun uop => !uop.squashed).map (fun uop => uop.sequenceNumber) =
      (List.range (keptIn l)).map fun k => (n + k) % 2 ^ 64 := by
  induction l with
  | nil => intro n; rfl
  | cons uop uops ih =>
    intro n
    rw [number, keptIn, List.countP_cons]
    cases hs : uop.squashed with
    | true =>
      rw [if_pos rfl, List.filter_cons_of_neg (by simp [hs])]
      exact ih n
    | false =>
      have hshift : ∀ k, (n + 1 + k) % 2 ^ 64 = (n + (k + 1)) % 2 ^ 64 := by
        intro k
        congr 1
        omega
      rw [if_neg (by simp), List.filter_cons_of_pos (by simp [setSequenceNumber, hs]),
        List.map_cons, ih, if_pos (by simp), List.range_succ_eq_map, List.map_cons, List.map_map]
      exact congrArg (List.cons (n % 2 ^ 64)) (List.map_congr_left fun k _ => hshift k)

theorem number_getElem? {l : List CurrentUop} (n : Nat) {i : Nat} {uop : CurrentUop}
    (hi : l[i]? = some uop) :
    (number n l)[i]? = some (if uop.squashed then uop
      else uop.setSequenceNumber ((n + keptIn (l.take i)) % 2 ^ 64)) := by
  have hget : ((number n l).drop i)[0]? = (number n l)[i]? := by simp
  rw [← hget, number_drop, List.drop_eq_getElem_cons (List.getElem?_eq_some_iff.mp hi).1,
    (List.getElem?_eq_some_iff.mp hi).2, number]
  split <;> rfl

/-- From a number back by the offset in the group, and by the dependencies before it. -/
theorem number_back (start k : Nat) {first base count : Nat} (hfirst : first ≤ base)
    (hbase : base ≤ count) (hcount : count < 2 ^ 64) :
    (((start + count) % 2 ^ 64 + 2 ^ 64 - (count - base) - (base - first)) % 2 ^ 64 + k) % 2 ^ 64 =
      (start + first + k) % 2 ^ 64 := by
  omega

/-- What a kept micro-operation depends on in its instruction are the kept ones among its original
dependencies. -/
theorem Settled.dependencies {uops final : List CurrentUop} (h : Settled uops final)
    (hg : Grouped uops) (hlen : uops.length < 2 ^ 32) (start : Nat) {i : Nat}
    {uop uop' : CurrentUop} (hi : uops[i]? = some uop) (hi' : (number start final)[i]? = some uop')
    (hkept : uop'.squashed = false) :
    uop'.intraDependencies =
      ((((number start final).take (i - uop.staticTypeOffset)).drop
        (i - uop.staticTypeOffset - uop.intraInstructionDependencies)).filter
          fun v => !v.squashed).map fun v => v.sequenceNumber := by
  have hlt := (List.getElem?_eq_some_iff.mp hi).1
  have hbelow := hg.below i uop hi
  have hcongr := keptIn_congr h.squashed
  have hflen : final.length = uops.length := by
    have := congrArg List.length h.squashed
    rwa [List.length_map, List.length_map] at this
  have hmid := List.getElem?_eq_getElem (hflen.symm ▸ hlt : i < final.length)
  have horig : uop.squashed = final[i].squashed := by
    have hflags := congrArg (fun l => l[i]?) h.squashed
    simpa [hi, hmid] using hflags.symm
  rw [number_getElem? start hmid] at hi'
  have hsame : uop.squashed = false := by
    rw [horig]
    cases hs : final[i].squashed with
    | false => rfl
    | true =>
      rw [if_pos hs] at hi'
      rw [← Option.some.inj hi', hs] at hkept
      cases hkept
  rw [if_neg (by rw [← horig, hsame]; decide)] at hi'
  have hoffset := h.offset i uop _ hi hmid hsame
  have hintra := h.intra i uop _ hi hmid hsame
  rw [number_take, number_drop, number_kept, ← Option.some.inj hi',
    DynamicMicroOp.intraDependencies]
  have hdeps : keptIn ((final.take (i - uop.staticTypeOffset)).drop
      (i - uop.staticTypeOffset - uop.intraInstructionDependencies)) =
        final[i].intraInstructionDependencies := by
    have hsplit := congrArg keptIn (List.take_append_drop
      (i - uop.staticTypeOffset - uop.intraInstructionDependencies)
      (final.take (i - uop.staticTypeOffset)))
    rw [keptIn_append, List.take_take, Nat.min_eq_left (Nat.sub_le _ _), hcongr, hcongr] at hsplit
    omega
  rw [hdeps]
  refine List.map_congr_left fun k hk => ?_
  rw [List.take_take, Nat.min_eq_left (Nat.sub_le _ _),
    hcongr (i - uop.staticTypeOffset - uop.intraInstructionDependencies)]
  have hfirst := keptIn_take_mono uops
    (Nat.sub_le (i - uop.staticTypeOffset) uop.intraInstructionDependencies)
  have hgroup := keptIn_take_mono uops (Nat.sub_le i uop.staticTypeOffset)
  have hsmall : keptIn (uops.take i) ≤ i := by
    have hsum := keptIn_add_squashedIn (uops.take i)
    rw [List.length_take, Nat.min_eq_left hlt.le] at hsum
    omega
  have hcount := hcongr i
  change ((((start + keptIn (final.take i)) % 2 ^ 64 + 2 ^ 64 - final[i].microOpTypeOffset -
    final[i].intraInstructionDependencies) % 2 ^ 64 + k) % 2 ^ 64) = _
  rw [hcount, hoffset, hintra]
  exact number_back start k hfirst hgroup (by omega)

end CurrentUop

end Sniper.Performance
