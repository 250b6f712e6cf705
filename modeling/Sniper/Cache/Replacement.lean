import Sniper.Cache.Placement
import Sniper.Lib.Recency
set_option autoImplicit false

/-! A set together with its replacement policy. -/

namespace Sniper.Cache
open Sniper.Lib Dish

variable {n assoc : Nat}

/-- What a subclass of `CacheSet` adds: its own state and the two virtual functions. A policy may ask
the controller about the lines it considers; `Answers` is what it is told. -/
structure Policy (n assoc : Nat) where
  State : Type
  init : State
  Answers : Type
  getReplacementWay : CacheSet n assoc → State → Bool → Answers → Fin (assoc + 1) × State
  updateReplacementWay : State → Nat → Outcome State

structure PolicySet (p : Policy n assoc) where
  ways : CacheSet n assoc
  repl : p.State

namespace CacheSet

/-- Take a block out of its way. -/
def takeOut (s : CacheSet n assoc) (w : Fin assoc) (b : BlockId) (k : CompressionCntlr) :
    Outcome (CacheBlockInfo × Line n × CacheSet n assoc × CompressionCntlr) := do
  let (line, data, k) ← (s w).data.evictBlockData b k
  match (s w).info.evictBlockInfo b with
  | (none, _) => .error .nullPointer
  | (some i, info) => return (i, line, Function.update s w ⟨info, data⟩, k)

/-- The scan of `insertLine` for a superblock that takes the line. -/
def mergeFor (linear : Addr → Addr) (s : CacheSet n assoc) (i : CacheBlockInfo) (ins : Option Ptr)
    (k : CompressionCntlr) : Outcome (Option (Fin assoc)) :=
  let (supertag, b) := splitAddress n linear (tagToAddress n i.tag)
  mergeWay s supertag b ins k (List.finRange assoc)

end CacheSet

namespace PolicySet

variable {p : Policy n assoc} (linear : Addr → Addr) (o : Order)

/-- The way a line is inserted into, none for a bypass, and the replacement state after the choice. The
policy is asked only when no superblock takes the line. -/
def chooseWay (s : PolicySet p) (i : CacheBlockInfo) (ins : Option Ptr) (allowFwdInv : Bool)
    (answers : p.Answers) (k : CompressionCntlr) : Outcome (Fin (assoc + 1) × p.State) := do
  let merge ← s.ways.mergeFor linear i ins k
  match merge with
  | some w => return (w.castSucc, s.repl)
  | none => return p.getReplacementWay s.ways s.repl allowFwdInv answers

/-- `insertLine`, also saying which way took the line, `assoc` for none. -/
def insertLine (s : PolicySet p) (i : CacheBlockInfo) (ins : Option Ptr) (allowFwdInv : Bool)
    (answers : p.Answers) (k : CompressionCntlr) :
    Outcome (Fin (assoc + 1) × PolicySet p × List (Writeback n) × CompressionCntlr) := do
  let (way, repl) ← s.chooseWay linear i ins allowFwdInv answers k
  let (ways, wbs, k) ← s.ways.insertLine linear o i ins way k
  return (way, ⟨ways, repl⟩, wbs, k)

/-- What `writeLine` has done when it comes to the replacement update: the value of `final_way`, and
the way that took the line if it was inserted anew. -/
structure Stored (p : Policy n assoc) where
  finalWay : Nat
  took : Fin (assoc + 1)
  set : PolicySet p
  writebacks : List (Writeback n)
  cntlr : CompressionCntlr

/-- `writeLine` up to the replacement update. `uninit` is what the variable `final_way` happens to
hold before it is assigned. -/
def storeLine (s : PolicySet p) (tag : Addr) (b : BlockId) (a : Slice n) (wr : Option Ptr)
    (isWriteback : Bool) (answers : p.Answers) (uninit : Nat) (k : CompressionCntlr) :
    Outcome (Stored p) := do
  check ((wr.isNone && a.offset == 0 && a.bytes == 0) || wr.isSome) .assertion
  let found ← s.ways.find tag b
  match found with
  | none => .error .notResident
  | some w =>
    let accepted ← (s.ways w).data.canWriteBlockData b a wr k
    if accepted then
      let (data, k) ← (s.ways w).data.writeBlockData o b a wr k
      let ways := Function.update s.ways w { s.ways w with data := data }
      return ⟨w, Fin.last assoc, ⟨ways, s.repl⟩, [], k⟩
    else
      let (i, line, ways, k) ← s.ways.takeOut w b k
      let (way, s, wbs, k) ← insertLine linear o ⟨ways, s.repl⟩ i
        (some (CacheSet.patched line a wr).ptr) (!isWriteback) answers k
      -- a line of a writeback may have bypassed the set, and is not looked up
      if isWriteback then return ⟨uninit, way, s, wbs, k⟩
      let found ← s.ways.find tag b
      match found with
      | none => .error .notResident
      | some w => return ⟨w, way, s, wbs, k⟩

/-- `if (update_replacement) updateReplacementWay(way)`. -/
def updateIf (update : Bool) (repl : p.State) (way : Nat) : Outcome p.State :=
  if update then p.updateReplacementWay repl way else return repl

def writeLine (s : PolicySet p) (tag : Addr) (b : BlockId) (a : Slice n) (wr : Option Ptr)
    (update isWriteback : Bool) (answers : p.Answers) (uninit : Nat) (k : CompressionCntlr) :
    Outcome (Stored p) := do
  let st ← s.storeLine linear o tag b a wr isWriteback answers uninit k
  let repl ← updateIf update st.set.repl st.finalWay
  return { st with set := ⟨st.set.ways, repl⟩ }

def readLine (s : PolicySet p) (w : Fin assoc) (b : BlockId) (a : Slice n) (update : Bool)
    (rd : Option (Line n)) : Outcome (Option (Line n) × PolicySet p) := do
  let buf ← s.ways.readLine w b a rd
  let repl ← updateIf update s.repl w
  return (buf, ⟨s.ways, repl⟩)

def invalidate (s : PolicySet p) (tag : Addr) (b : BlockId) (k : CompressionCntlr) :
    Outcome (PolicySet p × CompressionCntlr) := do
  let (ways, k) ← s.ways.invalidate tag b k
  return (⟨ways, s.repl⟩, k)

end PolicySet

/-! ### Least recently used -/

/-- No valid line of the superblock waits for an upgrade. -/
def SuperblockInfo.isValidReplacement (s : SuperblockInfo) : Bool :=
  (List.finRange superblockSize).all fun b =>
    !(s.blockInfos b).any fun i => i.isValid && i.cstate == .sharedUpgrading

namespace CacheSetLRU

/-- `m_lru_priorities` lists the ways, the next victim first. The table `m_lru_places` only finds a way
in the list. -/
def getReplacementWay (s : CacheSet n assoc) (priorities : List (Fin assoc)) :
    Fin (assoc + 1) × List (Fin assoc) :=
  match (List.finRange assoc).find? fun w => !(s w).info.isValid with
  | some w => (w.castSucc, moveToBack priorities w)
  | none =>
    match priorities.find? fun w => (s w).info.isValidReplacement with
    | some w => (w.castSucc, moveToBack priorities w)
    | none => (Fin.last assoc, priorities)

def updateReplacementWay (priorities : List (Fin assoc)) (way : Nat) :
    Outcome (List (Fin assoc)) :=
  if h : way < assoc then .ok (moveToBack priorities ⟨way, h⟩) else .error .assertion

end CacheSetLRU

abbrev CacheSetLRU (n assoc : Nat) : Policy n assoc where
  State := List (Fin assoc)
  init := List.finRange assoc
  Answers := Unit
  getReplacementWay s priorities _ _ := CacheSetLRU.getReplacementWay s priorities
  updateReplacementWay := CacheSetLRU.updateReplacementWay

/-! ### Runs of a set -/

inductive PolicyOp (p : Policy n assoc) where
  | readLine (w : Fin assoc) (b : BlockId) (a : Slice n) (update : Bool) (rd : Option (Line n))
  | writeLine (tag : Addr) (b : BlockId) (a : Slice n) (wr : Option Ptr) (update isWriteback : Bool)
    (answers : p.Answers) (uninit : Nat)
  | insertLine (i : CacheBlockInfo) (ins : Option Ptr) (allowFwdInv : Bool) (answers : p.Answers)
  | invalidate (tag : Addr) (b : BlockId)
  | setCState (w : Fin assoc) (b : BlockId) (cstate : CacheState)

/-- One call on a set, or a write to the coherence state of a line through a pointer into it. -/
structure PolicyCall (p : Policy n assoc) where
  op : PolicyOp p
  cntlr : CompressionCntlr
  order : Order

/-- The way that took an inserted line. -/
def takenBy (way : Fin (assoc + 1)) : List (Fin assoc) :=
  if h : way.val < assoc then [⟨way, h⟩] else []

/-- The way that holds a line. -/
def CacheSet.holderOf (s : CacheSet n assoc) (tag : Addr) (b : BlockId) : List (Fin assoc) :=
  match s.find tag b with
  | .ok (some w) => [w]
  | _ => []

namespace PolicySet

variable {p : Policy n assoc}

def fresh (p : Policy n assoc) : PolicySet p := ⟨.fresh, p.init⟩

/-- A call, with the ways it touches: one that takes a line, and the one of an access that updates the
replacement state. Callers take the tag of an inserted line from its address, so it is never the
unused one. -/
def perform (linear : Addr → Addr) (s : PolicySet p) (c : PolicyCall p) :
    Outcome (List (Fin assoc) × PolicySet p) :=
  match c.op with
  | .readLine w b a update rd => do
    let (_, s) ← s.readLine w b a update rd
    return (if update then [w] else [], s)
  | .writeLine tag b a wr update isWriteback answers uninit => do
    let st ← s.writeLine linear c.order tag b a wr update isWriteback answers uninit c.cntlr
    return (takenBy st.took ++ if update then st.set.ways.holderOf tag b else [], st.set)
  | .insertLine i ins allowFwdInv answers => do
    check i.isValid .refused
    let (way, s, _, _) ← s.insertLine linear c.order i ins allowFwdInv answers c.cntlr
    return (takenBy way, s)
  | .invalidate tag b => do
    let (s, _) ← s.invalidate tag b c.cntlr
    return ([], s)
  | .setCState w b cstate =>
    match (s.ways w).info.blockInfos b with
    | none => .error .nullPointer
    | some _ =>
      let info := (s.ways w).info.modifyAt b fun i => { i with cstate := cstate }
      return ([], { s with ways := Function.update s.ways w { s.ways w with info := info } })

def machine (p : Policy n assoc) (linear : Addr → Addr) :
    Machine (PolicySet p) (PolicyCall p) (List (Fin assoc)) where
  init s := s = fresh p
  step s c ways s' := s.perform linear c = .ok (ways, s')

variable {linear : Addr → Addr} {o : Order}
variable {s s' : PolicySet p} {i : CacheBlockInfo} {ins : Option Ptr} {answers : p.Answers}
variable {k k' : CompressionCntlr} {tag : Addr} {b : BlockId} {a : Slice n} {wr : Option Ptr}
variable {wbs : List (Writeback n)} {way : Fin (assoc + 1)} {st : Stored p}

/-! ### The policy only makes the choices -/

theorem insertLine_ways {allowFwdInv : Bool}
    (h : s.insertLine linear o i ins allowFwdInv answers k = .ok (way, s', wbs, k')) :
    s.chooseWay linear i ins allowFwdInv answers k = .ok (way, s'.repl) ∧
      s.ways.insertLine linear o i ins way k = .ok (s'.ways, wbs, k') := by
  simp only [insertLine, except_bind_eq_ok, pure_eq_ok, Prod.mk.injEq] at h
  obtain ⟨⟨way', repl⟩, hchoose, ⟨ways, wbs', k₁⟩, hins, rfl, rfl, rfl, rfl⟩ := h
  exact ⟨hchoose, hins⟩

/-- How a write came to its replacement update. -/
inductive StoreCase (linear : Addr → Addr) (o : Order) (s : PolicySet p) (tag : Addr) (b : BlockId)
    (a : Slice n) (wr : Option Ptr) (isWriteback : Bool) (answers : p.Answers) (uninit : Nat)
    (k : CompressionCntlr) (w : Fin assoc) : Stored p → Prop where
  | inPlace {data : BlockData n} {k' : CompressionCntlr} :
      (s.ways w).data.canWriteBlockData b a wr k = .ok true →
      (s.ways w).data.writeBlockData o b a wr k = .ok (data, k') →
      StoreCase linear o s tag b a wr isWriteback answers uninit k w
        ⟨w, Fin.last assoc, ⟨Function.update s.ways w { s.ways w with data := data }, s.repl⟩, [], k'⟩
  | reinserted {i : CacheBlockInfo} {line : Line n} {ways : CacheSet n assoc}
      {k₁ k' : CompressionCntlr} {way : Fin (assoc + 1)} {s' : PolicySet p}
      {wbs : List (Writeback n)} {finalWay : Nat} :
      (s.ways w).data.canWriteBlockData b a wr k = .ok false →
      s.ways.takeOut w b k = .ok (i, line, ways, k₁) →
      insertLine linear o ⟨ways, s.repl⟩ i (some (CacheSet.patched line a wr).ptr) (!isWriteback)
        answers k₁ = .ok (way, s', wbs, k') →
      (isWriteback = true → finalWay = uninit) →
      (isWriteback = false → ∃ w' : Fin assoc, s'.ways.find tag b = .ok (some w') ∧ finalWay = w') →
      StoreCase linear o s tag b a wr isWriteback answers uninit k w ⟨finalWay, way, s', wbs, k'⟩

theorem storeLine_cases {isWriteback : Bool} {uninit : Nat}
    (h : s.storeLine linear o tag b a wr isWriteback answers uninit k = .ok st) :
    ∃ w, s.ways.find tag b = .ok (some w) ∧
      StoreCase linear o s tag b a wr isWriteback answers uninit k w st := by
  simp only [storeLine, except_bind_eq_ok] at h
  obtain ⟨-, -, found, hfind, h⟩ := h
  cases found with
  | none => simp at h
  | some w =>
    refine ⟨w, hfind, ?_⟩
    simp only [except_bind_eq_ok] at h
    obtain ⟨accepted, hcan, h⟩ := h
    cases accepted with
    | true =>
      simp only [if_true, except_bind_eq_ok, pure_eq_ok] at h
      obtain ⟨⟨data, k₁⟩, hwrite, rfl⟩ := h
      exact .inPlace hcan hwrite
    | false =>
      simp only [Bool.false_eq_true, if_false, except_bind_eq_ok] at h
      obtain ⟨⟨i, line, ways, k₁⟩, htake, ⟨way, u, wbs, k₂⟩, hins, h⟩ := h
      cases isWriteback with
      | true =>
        simp only [if_true, pure_eq_ok] at h
        subst h
        exact .reinserted hcan htake hins (fun _ => rfl) (fun hno => by cases hno)
      | false =>
        simp only [Bool.false_eq_true, if_false, except_bind_eq_ok] at h
        obtain ⟨found, hagain, h⟩ := h
        cases found with
        | none => simp at h
        | some w' =>
          simp only [pure_eq_ok] at h
          subst h
          exact .reinserted hcan htake hins (fun hno => by cases hno) fun _ => ⟨w', hagain, rfl⟩

theorem takeOut_cases {s ways : CacheSet n assoc} {w : Fin assoc} {line : Line n}
    (h : s.takeOut w b k = .ok (i, line, ways, k')) :
    ∃ info data, (s w).info.evictBlockInfo b = (some i, info) ∧
      (s w).data.evictBlockData b k = .ok (line, data, k') ∧
      ways = Function.update s w ⟨info, data⟩ := by
  simp only [CacheSet.takeOut, except_bind_eq_ok] at h
  obtain ⟨⟨line', data, k₁⟩, hev, h⟩ := h
  cases hinfo : (s w).info.evictBlockInfo b with
  | mk found info =>
    rw [hinfo] at h
    cases found with
    | none => simp at h
    | some i' =>
      simp only [pure_eq_ok, Prod.mk.injEq] at h
      obtain ⟨rfl, rfl, rfl, rfl⟩ := h
      exact ⟨info, data, rfl, hev, rfl⟩

theorem storeLine_check {isWriteback : Bool} {uninit : Nat}
    (h : s.storeLine linear o tag b a wr isWriteback answers uninit k = .ok st) :
    check ((wr.isNone && a.offset == 0 && a.bytes == 0) || wr.isSome) .assertion = .ok () := by
  simp only [storeLine, except_bind_eq_ok] at h
  obtain ⟨_, hcheck, -⟩ := h
  exact hcheck

/-- A write under a policy is a write with some answer to the question for a way. -/
theorem storeLine_ways {isWriteback : Bool} {uninit : Nat}
    (h : s.storeLine linear o tag b a wr isWriteback answers uninit k = .ok st) :
    ∃ repl, s.ways.writeLine linear o tag b a wr isWriteback repl k =
      .ok (st.set.ways, st.writebacks, st.cntlr) := by
  have hcheck := storeLine_check h
  obtain ⟨w, hfind, hcase⟩ := storeLine_cases h
  cases hcase with
  | inPlace hcan hwrite =>
    refine ⟨Fin.last assoc, ?_⟩
    simp [CacheSet.writeLine, hcheck, hfind, hcan, hwrite, bind, Except.bind, pure, Except.pure]
  | @reinserted _ _ _ _ _ way _ _ _ hcan htake hins hwb hagain =>
    obtain ⟨info, data, hinfo, hev, rfl⟩ := takeOut_cases htake
    obtain ⟨-, hways⟩ := insertLine_ways hins
    refine ⟨way, ?_⟩
    cases isWriteback with
    | true =>
      simp only [CacheSet.writeLine, hcheck, hfind, hcan, hev, hinfo, bind, Except.bind]
      simp [hways, pure, Except.pure]
    | false =>
      obtain ⟨w', hagain, -⟩ := hagain rfl
      simp only [CacheSet.writeLine, hcheck, hfind, hcan, hev, hinfo, bind, Except.bind]
      simp [hways, hagain, check, pure, Except.pure]

/-- A coherence state does not make a line valid or invalid. -/
theorem modifyAt_agrees {v : Way n} (hv : v.Agrees) (b : BlockId) (cstate : CacheState) :
    (⟨v.info.modifyAt b fun i => { i with cstate := cstate }, v.data⟩ : Way n).Agrees := by
  refine ⟨hv.inv, fun b' => ?_⟩
  rw [← hv.same b']
  by_cases hb : b' = b
  · subst hb
    cases hi : v.info.blockInfos b' <;>
      simp [SuperblockInfo.modifyAt, SuperblockInfo.isValidAt, hi, CacheBlockInfo.isValid]
  · simp [SuperblockInfo.modifyAt, SuperblockInfo.isValidAt, hb]

/-- Tags and bytes agree along the calls of a set under any policy. -/
theorem perform_agrees {c : PolicyCall p} {touched : List (Fin assoc)} (hs : s.ways.Agrees)
    (h : s.perform linear c = .ok (touched, s')) : s'.ways.Agrees := by
  obtain ⟨op, k, o⟩ := c
  cases op with
  | readLine w b a update rd =>
    simp only [perform, readLine, except_bind_eq_ok, pure_eq_ok, Prod.mk.injEq] at h
    obtain ⟨⟨buf, u⟩, ⟨buf', -, repl, -, -, rfl⟩, -, rfl⟩ := h
    exact hs
  | writeLine tag b a wr update isWriteback answers uninit =>
    simp only [perform, writeLine, except_bind_eq_ok, pure_eq_ok, Prod.mk.injEq] at h
    obtain ⟨st, ⟨st', hstore, repl, -, rfl⟩, -, rfl⟩ := h
    obtain ⟨way, hwrite⟩ := storeLine_ways hstore
    exact (CacheSet.writeLine_spec hs hwrite).1
  | insertLine i ins allowFwdInv answers =>
    simp only [perform, except_bind_eq_ok, pure_eq_ok, Prod.mk.injEq, check_ok] at h
    obtain ⟨-, hi, ⟨way, u, wbs, k'⟩, hins, -, rfl⟩ := h
    exact (CacheSet.insertLine_spec hs hi (insertLine_ways hins).2).1
  | invalidate tag b =>
    simp only [perform, invalidate, except_bind_eq_ok, pure_eq_ok, Prod.mk.injEq] at h
    obtain ⟨⟨u, k'⟩, ⟨⟨ways, k₁⟩, hinv, rfl, rfl⟩, -, rfl⟩ := h
    exact (CacheSet.invalidate_spec hs hinv).1
  | setCState w b cstate =>
    simp only [perform] at h
    cases hi : (s.ways w).info.blockInfos b with
    | none => simp [hi] at h
    | some i =>
      simp only [hi, pure_eq_ok, Prod.mk.injEq] at h
      obtain ⟨-, rfl⟩ := h
      exact hs.update (modifyAt_agrees (hs w) b cstate)

theorem chooseWay_keeps {I : p.State → Prop} {u : CacheSet n assoc} {r r' : p.State}
    {allowFwdInv : Bool}
    (hchoose : ∀ u r allowFwdInv answers, I r → I (p.getReplacementWay u r allowFwdInv answers).2)
    (hr : I r) (h : chooseWay linear (p := p) ⟨u, r⟩ i ins allowFwdInv answers k = .ok (way, r')) :
    I r' := by
  simp only [chooseWay, except_bind_eq_ok] at h
  obtain ⟨merge, -, h⟩ := h
  cases merge with
  | some w =>
    simp only [pure_eq_ok, Prod.mk.injEq] at h
    obtain ⟨-, rfl⟩ := h
    exact hr
  | none =>
    rw [pure_eq_ok] at h
    have hkept := hchoose u r allowFwdInv answers hr
    rw [h] at hkept
    exact hkept

theorem updateIf_keeps {I : p.State → Prop} {update : Bool} {r r' : p.State} {way : Nat}
    (hupdate : ∀ r way r', I r → p.updateReplacementWay r way = .ok r' → I r') (hr : I r)
    (h : updateIf update r way = .ok r') : I r' := by
  cases update with
  | false =>
    simp only [updateIf, Bool.false_eq_true, if_false, pure_eq_ok] at h
    exact h ▸ hr
  | true =>
    simp only [updateIf, if_true] at h
    exact hupdate r way r' hr h

/-- What the two functions of a policy keep of its state, every call keeps. -/
theorem perform_keeps {I : p.State → Prop} {c : PolicyCall p} {touched : List (Fin assoc)}
    (hchoose : ∀ u r allowFwdInv answers, I r → I (p.getReplacementWay u r allowFwdInv answers).2)
    (hupdate : ∀ r way r', I r → p.updateReplacementWay r way = .ok r' → I r')
    (hs : I s.repl) (h : s.perform linear c = .ok (touched, s')) : I s'.repl := by
  obtain ⟨op, k, o⟩ := c
  cases op with
  | readLine w b a update rd =>
    simp only [perform, readLine, except_bind_eq_ok, pure_eq_ok, Prod.mk.injEq] at h
    obtain ⟨⟨buf, u⟩, ⟨buf', -, repl, hrepl, -, rfl⟩, rfl, rfl⟩ := h
    exact updateIf_keeps hupdate hs hrepl
  | writeLine tag b a wr update isWriteback answers uninit =>
    simp only [perform, writeLine, except_bind_eq_ok, pure_eq_ok, Prod.mk.injEq] at h
    obtain ⟨st, ⟨st', hstore, repl, hrepl, rfl⟩, -, rfl⟩ := h
    obtain ⟨w, -, hcase⟩ := storeLine_cases hstore
    refine updateIf_keeps hupdate ?_ hrepl
    cases hcase with
    | inPlace hcan hwrite => exact hs
    | reinserted hcan htake hins hwb hagain =>
      exact chooseWay_keeps hchoose hs (insertLine_ways hins).1
  | insertLine i ins allowFwdInv answers =>
    simp only [perform, except_bind_eq_ok, pure_eq_ok, Prod.mk.injEq, check_ok] at h
    obtain ⟨-, -, ⟨way, u, wbs, k'⟩, hins, rfl, rfl⟩ := h
    exact chooseWay_keeps hchoose hs (insertLine_ways hins).1
  | invalidate tag b =>
    simp only [perform, invalidate, except_bind_eq_ok, pure_eq_ok, Prod.mk.injEq] at h
    obtain ⟨⟨u, k'⟩, ⟨⟨ways, k₁⟩, -, rfl, rfl⟩, rfl, rfl⟩ := h
    exact hs
  | setCState w b cstate =>
    simp only [perform] at h
    cases hi : (s.ways w).info.blockInfos b with
    | none => simp [hi] at h
    | some i =>
      simp only [hi, pure_eq_ok, Prod.mk.injEq] at h
      obtain ⟨rfl, rfl⟩ := h
      exact hs

/-! ### The way of the replacement update -/

/-- The line is where it is written in place. -/
def AcceptsWrite (s : PolicySet p) (tag : Addr) (b : BlockId) (a : Slice n) (wr : Option Ptr)
    (k : CompressionCntlr) : Prop :=
  ∃ w, s.ways.find tag b = .ok (some w) ∧ (s.ways w).data.canWriteBlockData b a wr k = .ok true

/-- Where a line is found depends on the tags only. -/
theorem find_congr {u v : CacheSet n assoc} (h : ∀ w, (u w).info = (v w).info) (tag : Addr)
    (b : BlockId) : u.find tag b = v.find tag b := by
  simp only [CacheSet.find, h]

/-- A writeback that is inserted anew leaves the variable as it was. -/
theorem storeLine_writeback {uninit : Nat} {w : Fin assoc}
    (h : s.storeLine linear o tag b a wr true answers uninit k = .ok st)
    (hfind : s.ways.find tag b = .ok (some w))
    (hcan : (s.ways w).data.canWriteBlockData b a wr k = .ok false) (uninit' : Nat) :
    s.storeLine linear o tag b a wr true answers uninit' k = .ok { st with finalWay := uninit' } := by
  have hcheck := storeLine_check h
  obtain ⟨w', hfind', hcase⟩ := storeLine_cases h
  rw [hfind, Except.ok.injEq, Option.some.injEq] at hfind'
  subst hfind'
  cases hcase with
  | inPlace hyes hwrite =>
    rw [hcan] at hyes
    cases hyes
  | reinserted hno htake hins hwb hagain =>
    simp only [storeLine, hcheck, hfind, hcan, htake, hins, bind, Except.bind]
    rfl

/-- Whatever the variable held before, the way of the replacement update holds the written line, when
the line was written in place or the write is no writeback, and then only. -/
theorem updated_way_iff {isWriteback : Bool} {uninit : Nat}
    (h : s.storeLine linear o tag b a wr isWriteback answers uninit k = .ok st) :
    (∀ uninit st, s.storeLine linear o tag b a wr isWriteback answers uninit k = .ok st →
      ∃ w : Fin assoc, st.finalWay = w ∧ st.set.ways.find tag b = .ok (some w)) ↔
      (s.AcceptsWrite tag b a wr k ∨ isWriteback = false) := by
  constructor
  · intro hall
    obtain ⟨w, hfind, hcase⟩ := storeLine_cases h
    cases hcase with
    | inPlace hcan hwrite => exact .inl ⟨w, hfind, hcan⟩
    | reinserted hcan htake hins hwb hagain =>
      cases isWriteback with
      | false => exact .inr rfl
      | true =>
        -- the variable may hold a number that is no way at all
        have hgarbage := storeLine_writeback h hfind hcan assoc
        obtain ⟨w', hway, -⟩ := hall _ _ hgarbage
        exact absurd hway (Nat.ne_of_gt w'.isLt)
  · rintro hcond uninit st hst
    obtain ⟨w, hfind, hcase⟩ := storeLine_cases hst
    cases hcase with
    | inPlace hcan hwrite =>
      refine ⟨w, rfl, ?_⟩
      rw [← hfind]
      refine find_congr (fun v => ?_) tag b
      by_cases hv : v = w
      · subst hv
        simp
      · simp [hv]
    | reinserted hcan htake hins hwb hagain =>
      rcases hcond with ⟨w', hfind', hcan'⟩ | hmode
      · rw [hfind, Except.ok.injEq, Option.some.injEq] at hfind'
        rw [← hfind', hcan] at hcan'
        cases hcan'
      · obtain ⟨w', hagain, hway⟩ := hagain hmode
        exact ⟨w', hway, hagain⟩

/-- Calls that have been performed lead to a reachable set. -/
theorem performEach_reachable {p : Policy n assoc} {linear : Addr → Addr}
    {calls : List (PolicyCall p)} {s : PolicySet p}
    (h : performEach (perform linear) (fun _ _ => true) (.fresh p) calls = some s) :
    Reachable (machine p linear) s := by
  obtain ⟨tr, hrun⟩ := Run.performEach (M := machine p linear) (fun _ _ _ _ h => h)
    (fun _ _ _ => trivial) (.start rfl) h
  exact ⟨tr, hrun⟩

/-- Two neighbouring blank lines in a set of two ways. -/
def blankPair : List (PolicyCall (CacheSetLRU 64 2)) :=
  [⟨.insertLine (.new 0) (some fun _ => 0) true (), BlockData.sampleCntlr false false, .greatest⟩,
   ⟨.insertLine (.new 1) (some fun _ => 0) true (), BlockData.sampleCntlr false false, .greatest⟩]

theorem updated_way_iff_blankPair : ∃ s : PolicySet (CacheSetLRU 64 2),
    Reachable (machine (CacheSetLRU 64 2) id) s ∧ ∃ st, s.storeLine id .greatest 0 0 .full
      (some fun _ => 0) true () 7 (BlockData.sampleCntlr false false) = .ok st ∧
      ∃ w : Fin 2, st.finalWay = w ∧ st.set.ways.find 0 0 = .ok (some w) := by
  have heval : (performEach (perform id) (fun _ _ => true) (fresh (CacheSetLRU 64 2))
      blankPair).any (fun s => Outcome.test (s.storeLine id .greatest 0 0 .full (some fun _ => 0)
        true () 7 (BlockData.sampleCntlr false false)) (fun _ => true) &&
        Outcome.test (s.ways.find 0 0) (· == some 0) &&
        Outcome.test ((s.ways 0).data.canWriteBlockData 0 .full (some fun _ => 0)
          (BlockData.sampleCntlr false false)) id) = true := by
    rfl
  obtain ⟨s, hs, heval⟩ := Option.any_eq_true _ _ |>.mp heval
  simp only [Bool.and_eq_true] at heval
  obtain ⟨⟨hstore, hfind⟩, hcan⟩ := heval
  obtain ⟨st, hst, -⟩ := Outcome.test_eq_true hstore
  obtain ⟨found, hfound, hzero⟩ := Outcome.test_eq_true hfind
  rw [beq_iff_eq] at hzero
  rw [hzero] at hfound
  exact ⟨s, performEach_reachable hs, st, hst,
    (updated_way_iff hst).mpr (.inl ⟨0, hfound, Outcome.test_id hcan⟩) 7 st hst⟩

/-- Sixteen fresh chunks. -/
def freshChunks : Ptr := fun j => if j % 4 = 0 then .ofNat 8 (j / 4 + 1) else 0

/-- A writeback that is refused leaves the way to chance. -/
theorem refused_writeback_updates_any_way :
    ¬∀ s : PolicySet (CacheSetLRU 64 2), Reachable (machine (CacheSetLRU 64 2) id) s →
      ∀ tag b a wr isWriteback uninit k st,
        s.storeLine id .greatest tag b a wr isWriteback () uninit k = .ok st → st.finalWay < 2 := by
  intro hall
  have heval : (performEach (perform id) (fun _ _ => true) (fresh (CacheSetLRU 64 2))
      blankPair).any (fun s => Outcome.test (s.storeLine id .greatest 0 0 .full (some freshChunks)
        true () 7 (BlockData.sampleCntlr false false)) fun st => decide (¬st.finalWay < 2)) = true := by
    rfl
  obtain ⟨s, hs, heval⟩ := Option.any_eq_true _ _ |>.mp heval
  obtain ⟨st, hst, hway⟩ := Outcome.test_eq_true heval
  exact of_decide_eq_true hway (hall s (performEach_reachable hs) _ _ _ _ _ _ _ _ hst)

end PolicySet

end Sniper.Cache
