import Sniper.Cache.Replacement
set_option autoImplicit false

/-! The recency order of a set under LRU replacement. -/

namespace Sniper.Cache
open Sniper.Lib Dish

variable {n assoc : Nat}

/-! ### A scan that finds no superblock -/

/-- A superblock without lines takes any line. -/
theorem BlockData.canInsertBlockData_empty {s : BlockData n} (h : s.isValid = false) (b : BlockId)
    (ins : Option Ptr) (k : CompressionCntlr) : s.canInsertBlockData b ins k = .ok true := by
  have hb : s.valid b = false := by
    simp only [BlockData.isValid, List.any_eq_false] at h
    exact eq_false_of_ne_true (h b (List.mem_finRange b))
  cases ins with
  | none => simp [canInsertBlockData, hb, pure, Except.pure]
  | some p =>
    cases hk : k.canCompress <;>
      simp [canInsertBlockData, getSchemeForInsertion, hb, hk, h, bind, Except.bind, pure,
        Except.pure]

namespace CacheSet

variable {s : CacheSet n assoc} {supertag : Addr} {b : BlockId} {ins : Option Ptr}
variable {k : CompressionCntlr}

theorem mergeWay_none {ws : List (Fin assoc)} (h : mergeWay s supertag b ins k ws = .ok none)
    {w : Fin assoc} (hw : w ∈ ws) (hinfo : (s w).info.canInsertBlockInfo supertag b = true) :
    (s w).data.canInsertBlockData b ins k ≠ .ok true := by
  induction ws with
  | nil => cases hw
  | cons u ws ih =>
    rw [mergeWay] at h
    by_cases hu : (s u).info.canInsertBlockInfo supertag b = true
    · simp only [hu, if_true, except_bind_eq_ok] at h
      obtain ⟨fits, hfits, h⟩ := h
      cases fits with
      | true => simp at h
      | false =>
        rcases List.mem_cons.mp hw with rfl | hw
        · rw [hfits]
          simp
        · exact ih (by simpa using h) hw
    · rw [if_neg hu] at h
      rcases List.mem_cons.mp hw with rfl | hw
      · exact absurd hinfo hu
      · exact ih h hw

/-- The policy is asked for a way only when every way has a line. -/
theorem valid_of_mergeFor_none {linear : Addr → Addr} {i : CacheBlockInfo} (hs : s.Agrees)
    (h : s.mergeFor linear i ins k = .ok none) (w : Fin assoc) : (s w).info.isValid = true := by
  by_contra hempty
  rw [Bool.not_eq_true] at hempty
  have hdata : (s w).data.isValid = false := by
    simp only [SuperblockInfo.isValid, List.any_eq_false, (hs w).same] at hempty
    simpa only [BlockData.isValid, List.any_eq_false] using hempty
  refine mergeWay_none h (List.mem_finRange w) ?_ (BlockData.canInsertBlockData_empty hdata _ _ _)
  simp [SuperblockInfo.canInsertBlockInfo, hempty]

end CacheSet

/-! ### What recency should say -/

/-- The ways of a set as constructed count as touched in their order. -/
def startClock (assoc : Nat) : Clock (Fin assoc) := ⟨fun w => w.val, assoc⟩

theorem startClock_orders (assoc : Nat) : (startClock assoc).Orders (List.finRange assoc) where
  complete := List.mem_finRange
  sorted := List.pairwise_lt_finRange assoc
  past w := w.isLt

/-- When each way was last touched along a run. -/
def clockAfter {p : Policy n assoc} (tr : List (PolicyCall p × List (Fin assoc))) :
    Clock (Fin assoc) :=
  (startClock assoc).touchAll (tr.flatMap Prod.snd)

theorem clockAfter_snoc {p : Policy n assoc} (tr : List (PolicyCall p × List (Fin assoc)))
    (c : PolicyCall p) (touched : List (Fin assoc)) :
    clockAfter (tr ++ [(c, touched)]) = (clockAfter tr).touchAll touched := by
  simp [clockAfter, Clock.touchAll_append]

@[simp] theorem takenBy_castSucc (w : Fin assoc) : takenBy w.castSucc = [w] := by
  simp [takenBy]

@[simp] theorem takenBy_last : takenBy (Fin.last assoc) = [] := by
  simp [takenBy]

/-- The choice of the least recently touched way that may be replaced, none if there is none. -/
structure LeastRecent (c : Clock (Fin assoc)) (s : CacheSet n assoc) (way : Fin (assoc + 1)) :
    Prop where
  least : ∀ w : Fin assoc, way = w.castSucc → (s w).info.isValidReplacement = true ∧
    ∀ w', (s w').info.isValidReplacement = true → w' ≠ w → c.last w < c.last w'
  bypass : way = Fin.last assoc → ∀ w, (s w).info.isValidReplacement = false

section Lru

variable {linear : Addr → Addr} {o : Order} {c : Clock (Fin assoc)}
variable {s s' : PolicySet (CacheSetLRU n assoc)} {i : CacheBlockInfo} {ins : Option Ptr}
variable {k k' : CompressionCntlr} {wbs : List (Writeback n)} {way : Fin (assoc + 1)}

/-- In a full set the answer is the first way of the list that may be replaced, and it goes to the end. -/
theorem getReplacementWay_full {u : CacheSet n assoc} (hfull : ∀ w, (u w).info.isValid = true)
    (l : List (Fin assoc)) :
    (∃ w : Fin assoc, CacheSetLRU.getReplacementWay u l = (w.castSucc, moveToBack l w) ∧
      l.find? (fun w => (u w).info.isValidReplacement) = some w) ∨
    (CacheSetLRU.getReplacementWay u l = (Fin.last assoc, l) ∧
      l.find? (fun w => (u w).info.isValidReplacement) = none) := by
  have hnone : (List.finRange assoc).find? (fun w => !(u w).info.isValid) = none := by
    simp [hfull]
  simp only [CacheSetLRU.getReplacementWay, hnone]
  cases hfind : l.find? (fun w => (u w).info.isValidReplacement) with
  | some w => exact .inl ⟨w, rfl, rfl⟩
  | none => exact .inr ⟨rfl, rfl⟩

theorem getReplacementWay_leastRecent {u : CacheSet n assoc} {l : List (Fin assoc)}
    (hc : c.Orders l) (hfull : ∀ w, (u w).info.isValid = true) :
    LeastRecent c u (CacheSetLRU.getReplacementWay u l).1 := by
  rcases getReplacementWay_full hfull l with ⟨w, hget, hfind⟩ | ⟨hget, hfind⟩
  · rw [hget]
    refine ⟨fun w' hw' => ?_, fun hlast => absurd hlast (Fin.castSucc_ne_last w)⟩
    obtain rfl := Fin.castSucc_injective _ hw'
    exact ⟨(List.find?_eq_some_iff_append.mp hfind).1,
      fun w' hvalid hne => hc.find_least hfind hvalid hne⟩
  · rw [hget]
    refine ⟨fun w hw => absurd hw.symm (Fin.castSucc_ne_last w), fun _ w => ?_⟩
    rw [List.find?_eq_none] at hfind
    exact eq_false_of_ne_true (hfind w (hc.complete w))

/-- An insertion that is merged goes to the way at the end of the list. -/
def MergesLast (linear : Addr → Addr) (u : CacheSet n assoc) (priorities : List (Fin assoc))
    (i : CacheBlockInfo) (ins : Option Ptr) (k : CompressionCntlr) : Prop :=
  ∀ w, u.mergeFor linear i ins k = .ok (some w) → priorities.getLast? = some w

/-- The replacement state after the choice of a way follows the touch of the way that takes the line. -/
theorem chooseWay_orders {u : CacheSet n assoc} {l l' : List (Fin assoc)} {allowFwdInv : Bool}
    (hu : u.Agrees) (hc : c.Orders l) (hlast : MergesLast linear u l i ins k)
    (h : PolicySet.chooseWay (p := CacheSetLRU n assoc) linear ⟨u, l⟩ i ins allowFwdInv () k =
      .ok (way, l')) :
    (c.touchAll (takenBy way)).Orders l' := by
  simp only [PolicySet.chooseWay, except_bind_eq_ok] at h
  obtain ⟨merge, hmerge, h⟩ := h
  cases merge with
  | some w =>
    simp only [pure_eq_ok, Prod.mk.injEq] at h
    obtain ⟨rfl, rfl⟩ := h
    rw [takenBy_castSucc]
    exact hc.touch_last (hlast w hmerge)
  | none =>
    rw [pure_eq_ok] at h
    rcases getReplacementWay_full (CacheSet.valid_of_mergeFor_none hu hmerge) l with
      ⟨w, hget, -⟩ | ⟨hget, -⟩
    · rw [hget] at h
      obtain ⟨rfl, rfl⟩ := Prod.mk.inj h
      rw [takenBy_castSucc]
      exact hc.touch w
    · rw [hget] at h
      obtain ⟨rfl, rfl⟩ := Prod.mk.inj h
      rw [takenBy_last]
      exact hc

/-- A replacement update moves a way to the end. -/
theorem updateIf_true {l l' : List (Fin assoc)} {w : Fin assoc}
    (h : PolicySet.updateIf (p := CacheSetLRU n assoc) true l w = .ok l') :
    l' = moveToBack l w := by
  simp only [PolicySet.updateIf, if_true, CacheSetLRU.updateReplacementWay, w.isLt, dif_pos,
    Except.ok.injEq] at h
  exact h.symm

theorem updateIf_false {l l' : List (Fin assoc)} {way : Nat}
    (h : PolicySet.updateIf (p := CacheSetLRU n assoc) false l way = .ok l') : l' = l := by
  rw [PolicySet.updateIf, if_neg Bool.false_ne_true, pure_eq_ok] at h
  exact h.symm

theorem updateIf_orders {update : Bool} {l l' : List (Fin assoc)} {w : Fin assoc} (hc : c.Orders l)
    (h : PolicySet.updateIf (p := CacheSetLRU n assoc) update l w = .ok l') :
    (c.touchAll (if update then [w] else [])).Orders l' := by
  cases update with
  | false =>
    rw [updateIf_false h]
    exact hc
  | true =>
    rw [updateIf_true h]
    exact hc.touch w

/-- A line is in one way only. -/
def ResidentOnce (u : CacheSet n assoc) (tag : Addr) : Prop :=
  ∀ w w' b b', (u w).info.tagAt b = some tag → (u w').info.tagAt b' = some tag → w = w'

/-- No call merges a line into a way other than the most recently used one, but for a write that
updates the order afterwards; and no writeback that is refused updates it. -/
def KeepsRecency (linear : Addr → Addr) (s : PolicySet (CacheSetLRU n assoc))
    (call : PolicyCall (CacheSetLRU n assoc)) : Prop :=
  match call.op with
  | .insertLine i ins _ _ => MergesLast linear s.ways s.repl i ins call.cntlr
  | .writeLine tag b a wr update isWriteback _ _ =>
    ∀ w i line ways k, s.ways.find tag b = .ok (some w) →
      (s.ways w).data.canWriteBlockData b a wr call.cntlr = .ok false →
      s.ways.takeOut w b call.cntlr = .ok (i, line, ways, k) →
        ¬(update = true ∧ isWriteback = true) ∧
        (MergesLast linear ways s.repl i (some (CacheSet.patched line a wr).ptr) k ∨
          (update = true ∧ ResidentOnce s.ways tag))
  | _ => True

/-- What is left of a set when a line is taken out still agrees. -/
theorem takeOut_agrees {u ways : CacheSet n assoc} {tag : Addr} {b : BlockId} {w : Fin assoc}
    {line : Line n} (hu : u.Agrees) (hfind : u.find tag b = .ok (some w))
    (h : u.takeOut w b k = .ok (i, line, ways, k')) : ways.Agrees ∧ i.isValid = true := by
  obtain ⟨info, data, hinfo, hev, rfl⟩ := PolicySet.takeOut_cases h
  obtain ⟨i', hi', hvalid, -⟩ := CacheSet.find_some hfind
  have hi : (u w).info.blockInfos b = some i := congrArg Prod.fst hinfo
  have hrest : ((u w).info.evictBlockInfo b).2 = info := congrArg Prod.snd hinfo
  rw [hi', Option.some.injEq] at hi
  subst hi
  obtain ⟨hagree, -, -⟩ := CacheSet.evictBlock_spec (hu w) hi' hvalid hev
  rw [hrest] at hagree
  exact ⟨hu.update hagree, hvalid⟩

/-- A line that was in one way is found where it was merged. -/
theorem find_merged {u ways ways' : CacheSet n assoc} {tag : Addr} {b : BlockId} {w m found : Fin assoc}
    {line : Line n} (honce : ResidentOnce u tag) (hfind : u.find tag b = .ok (some w))
    (h : u.takeOut w b k = .ok (i, line, ways, k')) {i' : CacheBlockInfo} {k₁ : CompressionCntlr}
    (hmerge : ways.mergeFor linear i' ins k' = .ok (some m))
    (hins : ways.insertLine linear o i' ins way k' = .ok (ways', wbs, k₁))
    (hagain : ways'.find tag b = .ok (some found)) : found = m := by
  obtain ⟨info, data, hinfo, -, rfl⟩ := PolicySet.takeOut_cases h
  have hrest : ((u w).info.evictBlockInfo b).2 = info := congrArg Prod.snd hinfo
  by_contra hne
  obtain ⟨j, hj, hvalid, htag⟩ := CacheSet.find_some hagain
  cases CacheSet.insertLine_cases hins with
  | merged hmerged hplace =>
    simp only [CacheSet.mergeFor] at hmerge
    rw [hmerge, Except.ok.injEq, Option.some.injEq] at hmerged
    subst hmerged
    rw [Function.update_of_ne hne] at hj
    by_cases hw : found = w
    · subst hw
      rw [Function.update_self, ← hrest] at hj
      have hnone := SuperblockInfo.evictBlockInfo_tagAt_self (u found).info b
      rw [SuperblockInfo.tagAt, hj] at hnone
      simp [hvalid] at hnone
    · rw [Function.update_of_ne hw] at hj
      obtain ⟨i₀, hi₀, hvalid₀, htag₀⟩ := CacheSet.find_some hfind
      exact hw (honce found w b b (SuperblockInfo.tagAt_eq_some.mpr ⟨j, hj, hvalid, htag⟩)
        (SuperblockInfo.tagAt_eq_some.mpr ⟨i₀, hi₀, hvalid₀, htag₀⟩))
  | replaced hnone _ _ _ _ =>
    simp only [CacheSet.mergeFor] at hmerge
    rw [hmerge] at hnone
    cases hnone
  | bypassed hnone _ _ =>
    simp only [CacheSet.mergeFor] at hmerge
    rw [hmerge] at hnone
    cases hnone

theorem holderOf_eq {u : CacheSet n assoc} {tag : Addr} {b : BlockId} {w : Fin assoc}
    (h : u.find tag b = .ok (some w)) : u.holderOf tag b = [w] := by
  simp [CacheSet.holderOf, h]

/-- The line is merged into a way, which is then found and updated. -/
theorem chooseWay_merged {allowFwdInv : Bool} {l' : List (Fin assoc)} {m : Fin assoc}
    (hmerge : s.ways.mergeFor linear i ins k = .ok (some m))
    (h : s.chooseWay linear i ins allowFwdInv () k = .ok (way, l')) :
    way = m.castSucc ∧ l' = s.repl := by
  simp only [PolicySet.chooseWay, hmerge, except_bind_eq_ok, Except.ok.injEq, exists_eq_left',
    pure_eq_ok, Prod.mk.injEq] at h
  exact ⟨h.1.symm, h.2.symm⟩

theorem writeLine_orders {tag : Addr} {b : BlockId} {a : Slice n} {wr : Option Ptr}
    {update isWriteback : Bool} {uninit : Nat} {st : PolicySet.Stored (CacheSetLRU n assoc)}
    (hs : s.ways.Agrees) (hc : c.Orders s.repl)
    (hkeeps : KeepsRecency linear s ⟨.writeLine tag b a wr update isWriteback () uninit, k, o⟩)
    (h : s.writeLine linear o tag b a wr update isWriteback () uninit k = .ok st) :
    (c.touchAll (takenBy st.took ++ if update then st.set.ways.holderOf tag b else [])).Orders
      st.set.repl := by
  simp only [PolicySet.writeLine, except_bind_eq_ok, pure_eq_ok] at h
  obtain ⟨st₀, hstore, repl, hupdate, rfl⟩ := h
  obtain ⟨w, hfind, hcase⟩ := PolicySet.storeLine_cases hstore
  rw [Clock.touchAll_append]
  cases hcase with
  | @inPlace data k₁ hcan hwrite =>
    have hholder := PolicySet.find_congr (n := n) (u := Function.update s.ways w
      { s.ways w with data := data }) (v := s.ways) (fun v => by
        by_cases hv : v = w
        · subst hv
          simp
        · simp [hv]) tag b
    rw [hfind] at hholder
    simp only [takenBy_last, holderOf_eq hholder]
    exact updateIf_orders hc hupdate
  | @reinserted j line ways k₁ k₂ way u wbs finalWay hcan htake hins hwb hagain =>
    obtain ⟨hchoose, hways⟩ := PolicySet.insertLine_ways hins
    obtain ⟨hmode, hlast⟩ := hkeeps w j line ways k₁ hfind hcan htake
    obtain ⟨hagree, -⟩ := takeOut_agrees hs hfind htake
    cases update with
    | false =>
      have hmerges := hlast.resolve_right fun hno => Bool.false_ne_true hno.1
      rw [updateIf_false hupdate]
      have hafter := chooseWay_orders hagree hc hmerges hchoose
      exact hafter
    | true =>
      have hreal : isWriteback = false := by
        cases isWriteback with
        | false => rfl
        | true => exact absurd ⟨rfl, rfl⟩ hmode
      obtain ⟨found, hfound, rfl⟩ := hagain hreal
      simp only [if_true, holderOf_eq hfound]
      rcases hlast with hmerges | ⟨-, honce⟩
      · have hafter := chooseWay_orders hagree hc hmerges hchoose
        exact updateIf_orders hafter hupdate
      · by_cases hmerge : ∃ m, ways.mergeFor linear j
            (some (CacheSet.patched line a wr).ptr) k₁ = .ok (some m)
        · -- the way that took the line is the one the update names
          obtain ⟨m, hmerge⟩ := hmerge
          obtain ⟨rfl, hrepl⟩ := chooseWay_merged hmerge hchoose
          have hsame := find_merged honce hfind htake hmerge hways hfound
          subst hsame
          rw [updateIf_true hupdate, hrepl, takenBy_castSucc]
          exact (hc.touch found).touch_last (moveToBack_getLast _ _)
        · have hafter := chooseWay_orders hagree hc (fun m hm => absurd ⟨m, hm⟩ hmerge) hchoose
          exact updateIf_orders hafter hupdate

/-- A call that keeps recency moves the list on as it touches the ways. -/
theorem perform_orders {call : PolicyCall (CacheSetLRU n assoc)} {touched : List (Fin assoc)}
    (hs : s.ways.Agrees) (hc : c.Orders s.repl) (hkeeps : KeepsRecency linear s call)
    (h : s.perform linear call = .ok (touched, s')) : (c.touchAll touched).Orders s'.repl := by
  obtain ⟨op, k, o⟩ := call
  cases op with
  | readLine w b a update rd =>
    simp only [PolicySet.perform, PolicySet.readLine, except_bind_eq_ok, pure_eq_ok, Prod.mk.injEq] at h
    obtain ⟨⟨buf, u⟩, ⟨buf', -, repl, hupdate, -, rfl⟩, rfl, rfl⟩ := h
    exact updateIf_orders hc hupdate
  | writeLine tag b a wr update isWriteback answers uninit =>
    simp only [PolicySet.perform, except_bind_eq_ok, pure_eq_ok, Prod.mk.injEq] at h
    obtain ⟨st, hwrite, rfl, rfl⟩ := h
    exact writeLine_orders hs hc hkeeps hwrite
  | insertLine i ins allowFwdInv answers =>
    simp only [PolicySet.perform, except_bind_eq_ok, pure_eq_ok, Prod.mk.injEq, check_ok] at h
    obtain ⟨-, -, ⟨way, u, wbs, k'⟩, hins, rfl, rfl⟩ := h
    exact chooseWay_orders hs hc hkeeps (PolicySet.insertLine_ways hins).1
  | invalidate tag b =>
    simp only [PolicySet.perform, PolicySet.invalidate, except_bind_eq_ok, pure_eq_ok, Prod.mk.injEq] at h
    obtain ⟨⟨u, k'⟩, ⟨⟨ways, k₁⟩, -, rfl, rfl⟩, rfl, rfl⟩ := h
    exact hc
  | setCState w b cstate =>
    simp only [PolicySet.perform] at h
    cases hi : (s.ways w).info.blockInfos b with
    | none => simp [hi] at h
    | some i =>
      simp only [hi, pure_eq_ok, Prod.mk.injEq] at h
      obtain ⟨rfl, rfl⟩ := h
      exact hc

/-! ### The list is a permutation in every run -/

theorem moveToBack_ways {l : List (Fin assoc)} (h : l.Perm (List.finRange assoc)) (w : Fin assoc) :
    (moveToBack l w).Perm (List.finRange assoc) :=
  (moveToBack_perm (h.mem_iff.mpr (List.mem_finRange w))).trans h

theorem getReplacementWay_perm {u : CacheSet n assoc} {l : List (Fin assoc)}
    (hl : l.Perm (List.finRange assoc)) :
    (CacheSetLRU.getReplacementWay u l).2.Perm (List.finRange assoc) := by
  simp only [CacheSetLRU.getReplacementWay]
  split
  · exact moveToBack_ways hl _
  · split
    · exact moveToBack_ways hl _
    · exact hl

theorem updateReplacementWay_perm {l l' : List (Fin assoc)} {way : Nat}
    (hl : l.Perm (List.finRange assoc))
    (h : CacheSetLRU.updateReplacementWay l way = .ok l') : l'.Perm (List.finRange assoc) := by
  simp only [CacheSetLRU.updateReplacementWay] at h
  split at h
  · cases h
    exact moveToBack_ways hl _
  · cases h

/-! ### Runs -/

/-- The sets on which the policy may be asked in a call: the set itself, or without the line that a
refused write has taken out. -/
def Consulted (u ways : CacheSet n assoc) : Prop :=
  ways = u ∨ ∃ tag b w k i line k', u.find tag b = .ok (some w) ∧
    u.takeOut w b k = .ok (i, line, ways, k')

theorem Consulted.agrees {u ways : CacheSet n assoc} (h : Consulted u ways) (hu : u.Agrees) :
    ways.Agrees := by
  rcases h with rfl | ⟨tag, b, w, k, i, line, k', hfind, htake⟩
  · exact hu
  · exact (takeOut_agrees hu hfind htake).1

/-- Along a run that keeps recency the list orders the ways by their last touch. -/
theorem run_orders {tr : List (PolicyCall (CacheSetLRU n assoc) × List (Fin assoc))}
    (h : Run (PolicySet.machine (CacheSetLRU n assoc) linear) (KeepsRecency linear) tr s) :
    s.ways.Agrees ∧ (clockAfter tr).Orders s.repl := by
  induction h with
  | start hinit =>
    subst hinit
    exact ⟨fun _ => Way.agrees_fresh, startClock_orders assoc⟩
  | next hrun hkeeps hstep ih =>
    rw [clockAfter_snoc]
    exact ⟨PolicySet.perform_agrees ih.1 hstep, perform_orders ih.1 ih.2 hkeeps hstep⟩

/-- The list of ways is always a permutation of them. When no line is merged into another than the most
recently used way, it orders the ways by their last touch, the victim is the least recently touched way
that may be replaced, and the way touched last is the most recently used one. -/
theorem lru_orders_ways {tr : List (PolicyCall (CacheSetLRU n assoc) × List (Fin assoc))} :
    (Run (PolicySet.machine (CacheSetLRU n assoc) linear) anyStep tr s →
      s.repl.Perm (List.finRange assoc)) ∧
    (Run (PolicySet.machine (CacheSetLRU n assoc) linear) (KeepsRecency linear) tr s →
      (clockAfter tr).Orders s.repl ∧
      (∀ ways i ins k, Consulted s.ways ways → ways.mergeFor linear i ins k = .ok none →
        LeastRecent (clockAfter tr) ways (CacheSetLRU.getReplacementWay ways s.repl).1) ∧
      ∀ w, (tr.flatMap Prod.snd).getLast? = some w → s.repl.getLast? = some w) := by
  constructor
  · intro hrun
    refine hrun.invariant (I := fun s => s.repl.Perm (List.finRange assoc)) ?_ ?_
    · rintro u rfl
      exact List.Perm.refl _
    · intro u call touched u' hu _ hstep
      exact PolicySet.perform_keeps (fun _ _ _ _ => getReplacementWay_perm)
        (fun _ _ _ => updateReplacementWay_perm) hu hstep
  · intro hrun
    obtain ⟨hagree, horders⟩ := run_orders hrun
    refine ⟨horders, ?_, ?_⟩
    · intro ways i ins k hconsulted hmerge
      exact getReplacementWay_leastRecent horders
        (CacheSet.valid_of_mergeFor_none (hconsulted.agrees hagree) hmerge)
    · intro w hw
      exact horders.getLast_of_newest
        (Clock.touchAll_newest (startClock_orders assoc).past hw)

end Lru

/-- A decision procedure for calls that are no write. -/
def keepsCall (linear : Addr → Addr) (s : PolicySet (CacheSetLRU n assoc))
    (call : PolicyCall (CacheSetLRU n assoc)) : Bool :=
  match call.op with
  | .insertLine i ins _ _ =>
    match s.ways.mergeFor linear i ins call.cntlr with
    | .ok (some w) => s.repl.getLast? == some w
    | _ => true
  | .writeLine .. => false
  | _ => true

theorem keepsRecency_of_keepsCall {linear : Addr → Addr} (s : PolicySet (CacheSetLRU n assoc))
    (call : PolicyCall (CacheSetLRU n assoc)) (h : keepsCall linear s call = true) :
    KeepsRecency linear s call := by
  obtain ⟨op, k, o⟩ := call
  cases op with
  | insertLine i ins allowFwdInv answers =>
    intro w hmerge
    simpa [keepsCall, hmerge] using h
  | writeLine tag b a wr update isWriteback answers uninit => cases h
  | readLine w b a update rd => trivial
  | invalidate tag b => trivial
  | setCState w b cstate => trivial

open scoped Lib.Literals in
/-- Each way is touched before a line goes into it, then the first one again. -/
def alternateWays : List (PolicyCall (CacheSetLRU 64 2)) :=
  [⟨.readLine 0 0 .full true none, BlockData.sampleCntlr false false, .greatest⟩,
   ⟨.insertLine (.new 0) (some fun _ => 0) true (), BlockData.sampleCntlr false false, .greatest⟩,
   ⟨.readLine 1 0 .full true none, BlockData.sampleCntlr false false, .greatest⟩,
   ⟨.insertLine (.new 64) (some fun _ => 0) true (), BlockData.sampleCntlr false false, .greatest⟩,
   ⟨.readLine 0 0 .full true (some .zero), BlockData.sampleCntlr false false, .greatest⟩]

/-- Then the victim for a third superblock is the second way, as the theorem says. -/
theorem lru_orders_ways_alternate : ∃ tr, ∃ s : PolicySet (CacheSetLRU 64 2),
    Run (PolicySet.machine (CacheSetLRU 64 2) id) (KeepsRecency id) tr s ∧
    (clockAfter tr).Orders s.repl ∧ s.repl.Perm (List.finRange 2) ∧
    LeastRecent (clockAfter tr) s.ways (CacheSetLRU.getReplacementWay s.ways s.repl).1 := by
  have heval : (performEach (PolicySet.perform id) (keepsCall id) (PolicySet.fresh _)
      alternateWays).any (fun s => Outcome.test (s.ways.mergeFor id (.new 128) none
        (BlockData.sampleCntlr false false)) Option.isNone) = true := by
    rfl
  obtain ⟨s, hs, heval⟩ := Option.any_eq_true _ _ |>.mp heval
  obtain ⟨merge, hmerge, hnone⟩ := Outcome.test_eq_true heval
  rw [Option.isNone_iff_eq_none] at hnone
  subst hnone
  obtain ⟨tr, hrun⟩ := Run.performEach (M := PolicySet.machine (CacheSetLRU 64 2) id)
    (fun _ _ _ _ h => h) keepsRecency_of_keepsCall (.start rfl) hs
  obtain ⟨horders, hvictim, -⟩ := lru_orders_ways.2 hrun
  exact ⟨tr, s, hrun, horders, lru_orders_ways.1 (hrun.weaken fun _ _ _ => trivial),
    hvictim _ _ _ _ (.inl rfl) hmerge⟩

/-- A line and one of another superblock. -/
def twoSuperblocks : List (PolicyCall (CacheSetLRU 64 2)) :=
  [⟨.insertLine (.new 0) (some fun _ => 0) true (), BlockData.sampleCntlr false false, .greatest⟩,
   ⟨.insertLine (.new 64) (some fun _ => 0) true (), BlockData.sampleCntlr false false, .greatest⟩]

/-- The neighbour of the first line, which is merged into its way. -/
def neighbour : PolicyCall (CacheSetLRU 64 2) :=
  ⟨.insertLine (.new 1) (some fun _ => 0) true (), BlockData.sampleCntlr false false, .greatest⟩

/-- The way just filled stays the next victim. -/
theorem merged_way_is_victim :
    ¬∀ tr, ∀ s : PolicySet (CacheSetLRU 64 2),
      Run (PolicySet.machine (CacheSetLRU 64 2) id) anyStep tr s →
      ∀ w, (tr.flatMap Prod.snd).getLast? = some w → s.repl.getLast? = some w := by
  intro hall
  have heval : (performEach (PolicySet.perform id) (fun _ _ => true) (PolicySet.fresh _)
      twoSuperblocks).any (fun s => Outcome.test (s.perform id neighbour) fun r =>
        r.1 == [0] && r.2.repl == [0, 1]) = true := by
    rfl
  obtain ⟨s, hs, heval⟩ := Option.any_eq_true _ _ |>.mp heval
  obtain ⟨⟨touched, s'⟩, hstep, heval⟩ := Outcome.test_eq_true heval
  simp only [Bool.and_eq_true, beq_iff_eq] at heval
  obtain ⟨rfl, hrepl⟩ := heval
  obtain ⟨tr, hrun⟩ := Run.performEach (M := PolicySet.machine (CacheSetLRU 64 2) id)
    (fun _ _ _ _ h => h) (fun _ _ _ => trivial) (.start rfl) hs
  have hlast := hall _ s' (hrun.next (i := neighbour) trivial hstep) 0 (by simp)
  rw [hrepl] at hlast
  exact absurd hlast (by decide)

end Sniper.Cache
