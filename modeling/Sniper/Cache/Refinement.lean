import Sniper.Cache.Operations
import Sniper.Lib.Machine
set_option autoImplicit false

namespace Sniper.Cache
open Sniper.Lib Dish

variable {n : Nat}

inductive Op (n : Nat) where
  | insert (b : BlockId) (ins : Option Ptr)
  | write (b : BlockId) (a : Slice n) (wr : Option Ptr)
  | read (b : BlockId) (a : Slice n) (rd : Option (Line n))
  | evict (b : BlockId)
  | invalidate (b : BlockId)

/-- One call on a superblock. The controller's counters are shared with every other
superblock of the cache, so each call comes with the values it finds. -/
structure Call (n : Nat) where
  op : Op n
  cntlr : CompressionCntlr
  order : Order

namespace BlockData

def perform (s : BlockData n) (c : Call n) : Outcome (Option (Line n) × BlockData n) :=
  match c.op with
  | .insert b ins => do
    let accepted ← s.canInsertBlockData b ins c.cntlr
    check accepted .refused
    let (s, _) ← s.insertBlockData c.order b ins c.cntlr
    return (none, s)
  | .write b a wr => do
    let accepted ← s.canWriteBlockData b a wr c.cntlr
    check accepted .refused
    let (s, _) ← s.writeBlockData c.order b a wr c.cntlr
    return (none, s)
  | .read b a rd => do
    let out ← s.readBlockData b a rd
    return (out, s)
  | .evict b => do
    let (line, s, _) ← s.evictBlockData b c.cntlr
    return (some line, s)
  | .invalidate b => return (none, (s.invalidateBlockData b c.cntlr).1)

def machine (n : Nat) : Machine (BlockData n) (Call n) (Option (Line n)) where
  init s := s = fresh
  step s c out s' := s.perform c = .ok (out, s')

end BlockData

/-- What a superblock is for: a partial map from block ids to lines. -/
abbrev Store (n : Nat) := BlockId → Option (Line n)

namespace Store

/-- The buffer that a read of the map hands back. -/
def reads (m : Store n) (b : BlockId) (a : Slice n) : Option (Line n) → Option (Line n) → Prop
  | none, out => out = none
  | some rd, out => ∃ d, m b = some d ∧ out = some (copyN (d.ptr.add a.offset) a.bytes a.offset rd)

def step (m : Store n) (c : Call n) (out : Option (Line n)) (m' : Store n) : Prop :=
  match c.op with
  | .insert b ins =>
    m b = none ∧ out = none ∧ m' = Function.update m b (some (ins.elim .zero Line.ofPtr))
  | .write b a wr => ∃ d, m b = some d ∧ out = none ∧ m' = Function.update m b (some
      (wr.elim d fun wr => copyN (wr.add a.offset) a.bytes a.offset d))
  | .read b a rd => m' = m ∧ m.reads b a rd out
  | .evict b => ∃ d, m b = some d ∧ out = some d ∧ m' = Function.update m b none
  | .invalidate b => out = none ∧ m' = Function.update m b none

def machine (n : Nat) : Machine (Store n) (Call n) (Option (Line n)) where
  init m := m = fun _ => none
  step := step

end Store

namespace BlockData

def abs (s : BlockData n) : Store n := fun b => if s.valid b then some (s.data b) else none

theorem abs_of_valid {s : BlockData n} {b : BlockId} (h : s.valid b = true) :
    s.abs b = some (s.data b) := by
  simp [abs, h]

theorem abs_of_invalid {s : BlockData n} {b : BlockId} (h : s.valid b = false) :
    s.abs b = none := by
  simp [abs, h]

theorem abs_update {s s' : BlockData n} {b : BlockId} {v : Bool} {d : Line n}
    (hv : s'.valid = Function.update s.valid b v) (hd : s'.data = Function.update s.data b d) :
    s'.abs = Function.update s.abs b (if v then some d else none) := by
  funext b'
  by_cases hb : b' = b
  · subst hb
    simp [abs, hv, hd]
  · simp [abs, hv, hd, hb]

theorem canWriteBlockData_valid {s : BlockData n} {b : BlockId} {a : Slice n} {wr : Option Ptr}
    {k : CompressionCntlr} (h : s.canWriteBlockData b a wr k = .ok true) : s.valid b = true := by
  simp only [canWriteBlockData, except_bind_eq_ok] at h
  obtain ⟨-, -, h⟩ := h
  cases hv : s.valid b with
  | true => rfl
  | false => simp [hv] at h

/-- A write is stored as the caller means it: in the uncompressed branch always, in the
compressed ones only when the buffer's first bytes agree with the addressed slice. -/
def SliceAgrees (s : BlockData n) (c : Call n) : Prop :=
  match c.op with
  | .write _ a (some wr) => s.scheme = .uncompressed ∨ ∀ j < a.bytes, wr j = wr (a.offset + j)
  | _ => True

theorem written_eq_iff (s : BlockData n) (b : BlockId) (a : Slice n) (wr : Ptr) :
    s.written b a wr = copyN (wr.add a.offset) a.bytes a.offset (s.data b) ↔
      s.scheme = .uncompressed ∨ ∀ j < a.bytes, wr j = wr (a.offset + j) := by
  by_cases hs : s.scheme = .uncompressed
  · simp [written, hs]
  · simp only [written, hs, if_false, false_or]
    exact copyN_eq_iff a (s.data b)

theorem perform_inv {s s' : BlockData n} {c : Call n} {out : Option (Line n)} (inv : s.Inv)
    (h : s.perform c = .ok (out, s')) : s'.Inv := by
  obtain ⟨op, k, o⟩ := c
  cases op with
  | insert b ins =>
    simp only [perform, except_bind_eq_ok, pure_eq_ok, Prod.mk.injEq] at h
    obtain ⟨-, -, -, -, ⟨u, k'⟩, hins, -, rfl⟩ := h
    exact (insertBlockData_spec inv hins).1
  | write b a wr =>
    simp only [perform, except_bind_eq_ok, pure_eq_ok, Prod.mk.injEq] at h
    obtain ⟨-, -, -, -, ⟨u, k'⟩, hwr, -, rfl⟩ := h
    exact (writeBlockData_spec inv hwr).1
  | read b a rd =>
    simp only [perform, except_bind_eq_ok, pure_eq_ok, Prod.mk.injEq] at h
    obtain ⟨-, -, -, rfl⟩ := h
    exact inv
  | evict b =>
    simp only [perform, except_bind_eq_ok, pure_eq_ok, Prod.mk.injEq] at h
    obtain ⟨⟨line, u, k'⟩, hev, -, rfl⟩ := h
    exact (evictBlockData_spec inv hev).1
  | invalidate b =>
    simp only [perform, pure_eq_ok, Prod.mk.injEq] at h
    obtain ⟨-, rfl⟩ := h
    exact (dropBlock_spec b k inv).1

theorem reachable_inv {s : BlockData n} (h : Reachable (machine n) s) : s.Inv := by
  refine h.invariant (I := Inv) ?_ ?_
  · rintro s rfl
    exact inv_fresh
  · intro s c out s' inv hstep
    exact perform_inv inv hstep

theorem read_refines {s : BlockData n} {b : BlockId} {a : Slice n} {rd out : Option (Line n)}
    (h : s.readBlockData b a rd = .ok out) : Store.reads s.abs b a rd out := by
  cases rd with
  | none =>
    simp only [readBlockData, except_bind_eq_ok, pure_eq_ok] at h
    obtain ⟨-, -, h⟩ := h
    exact h.symm
  | some rd =>
    simp only [readBlockData, except_bind_eq_ok, check_ok, pure_eq_ok] at h
    obtain ⟨-, -, -, hv, h⟩ := h
    exact ⟨s.data b, abs_of_valid hv, h.symm⟩

/-- One call refines the map's step exactly when its slice agrees. -/
theorem perform_refines_iff {s s' : BlockData n} {c : Call n} {out : Option (Line n)} (inv : s.Inv)
    (h : s.perform c = .ok (out, s')) :
    Store.step s.abs c out s'.abs ↔ s.SliceAgrees c := by
  obtain ⟨op, k, o⟩ := c
  cases op with
  | insert b ins =>
    simp only [perform, except_bind_eq_ok, pure_eq_ok, Prod.mk.injEq] at h
    obtain ⟨-, -, -, -, ⟨u, k'⟩, hins, rfl, rfl⟩ := h
    obtain ⟨-, hv, hval, hdata⟩ := insertBlockData_spec inv hins
    simp only [Store.step, SliceAgrees, iff_true]
    exact ⟨abs_of_invalid hv, trivial, by simpa using abs_update hval hdata⟩
  | write b a wr =>
    simp only [perform, except_bind_eq_ok, pure_eq_ok, Prod.mk.injEq, check_ok] at h
    obtain ⟨accepted, hcan, -, hacc, ⟨u, k'⟩, hwr, rfl, rfl⟩ := h
    rw [hacc] at hcan
    have hv := canWriteBlockData_valid hcan
    have habs := abs_of_valid hv
    obtain ⟨-, hval, hdata⟩ := writeBlockData_spec inv hwr
    have hval' : u.valid = Function.update s.valid b true := by
      rw [hval, ← hv, Function.update_eq_self]
    simp only [Store.step, habs, Option.some.injEq, exists_eq_left', true_and]
    cases wr with
    | none =>
      have hdata' : u.data = Function.update s.data b (s.data b) := by
        rw [hdata, Function.update_eq_self]
      simpa [SliceAgrees] using abs_update hval' hdata'
    | some wr =>
      simp only at hdata
      have hu := abs_update hval' hdata
      simp only [if_true] at hu
      simp only [SliceAgrees, Option.elim_some, hu, ← written_eq_iff s b a wr]
      constructor
      · intro heq
        simpa using congrFun heq b
      · intro heq
        rw [heq]
  | read b a rd =>
    simp only [perform, except_bind_eq_ok, pure_eq_ok, Prod.mk.injEq] at h
    obtain ⟨out', hrd, rfl, rfl⟩ := h
    simp only [Store.step, SliceAgrees, iff_true, true_and]
    exact read_refines hrd
  | evict b =>
    simp only [perform, except_bind_eq_ok, pure_eq_ok, Prod.mk.injEq] at h
    obtain ⟨⟨line, u, k'⟩, hev, rfl, rfl⟩ := h
    obtain ⟨-, hv, hline, hval, hdata⟩ := evictBlockData_spec inv hev
    simp only [Store.step, SliceAgrees, iff_true]
    exact ⟨s.data b, abs_of_valid hv, by rw [hline], by simpa using abs_update hval hdata⟩
  | invalidate b =>
    simp only [perform, pure_eq_ok, Prod.mk.injEq] at h
    obtain ⟨rfl, rfl⟩ := h
    obtain ⟨-, hval, hdata⟩ := dropBlock_spec b k inv
    simp only [Store.step, SliceAgrees, iff_true, true_and, invalidateBlockData]
    exact by simpa using abs_update hval hdata

theorem evictBlockData_isOk {s : BlockData n} {b : BlockId} (inv : s.Inv) (hv : s.valid b = true)
    (k : CompressionCntlr) : ∃ s' k', s.evictBlockData b k = .ok (s.data b, s', k') := by
  obtain ⟨inv', -, -⟩ := dropBlock_spec b k inv
  obtain ⟨u, hu⟩ := compactIfPruning_isOk (k := (s.dropBlock b k).2) inv'.scheme_ne
  simp only [evictBlockData, hv, check, if_true, bind, Except.bind, hu]
  split
  · exact ⟨_, _, rfl⟩
  · exact ⟨_, _, rfl⟩

/-- Along a run of calls whose slices agree, a superblock behaves as the map: every answer
given on the way is the map's answer, and reading or evicting any block now returns the bytes
last stored in it. A single call departs from the map exactly when its slice does not agree. -/
theorem run_refines_store {tr : List (Call n × Option (Line n))} {s : BlockData n}
    (h : Run (machine n) SliceAgrees tr s) :
    Run (Store.machine n) anyStep tr s.abs ∧
      (∀ b d, s.abs b = some d →
        (∀ a rd, s.readBlockData b a (some rd) =
          .ok (some (copyN (d.ptr.add a.offset) a.bytes a.offset rd))) ∧
        ∀ k, ∃ s' k', s.evictBlockData b k = .ok (d, s', k')) ∧
      ∀ c out s', s.perform c = .ok (out, s') →
        (Store.step s.abs c out s'.abs ↔ s.SliceAgrees c) := by
  have hrun : s.Inv ∧ Run (Store.machine n) anyStep tr s.abs := by
    refine h.refines (I := Inv) abs ?_ ?_
    · rintro s rfl
      exact ⟨inv_fresh, rfl⟩
    · intro s c out s' inv hok hstep
      exact ⟨perform_inv inv hstep, (perform_refines_iff inv hstep).2 hok⟩
  obtain ⟨inv, hrun⟩ := hrun
  refine ⟨hrun, ?_, fun c out s' hstep => perform_refines_iff inv hstep⟩
  intro b d hd
  have hv : s.valid b = true := by
    by_contra hv
    simp [abs, hv] at hd
  have hdata : s.data b = d := by simpa [abs, hv] using hd
  subst hdata
  refine ⟨fun a rd => ?_, evictBlockData_isOk inv hv⟩
  simp [readBlockData, check, hv, bind, Except.bind, pure, Except.pure]

def performAll (s : BlockData n) : List (Call n) → Outcome (BlockData n)
  | [] => .ok s
  | c :: cs => do
    let (_, s) ← s.perform c
    s.performAll cs

theorem performAll_run (ok : BlockData n → Call n → Prop) {cs : List (Call n)}
    (hok : ∀ c ∈ cs, ∀ s, ok s c) {tr : List (Call n × Option (Line n))} {s s' : BlockData n}
    (h : Run (machine n) ok tr s) (hall : s.performAll cs = .ok s') :
    ∃ tr', tr'.length = tr.length + cs.length ∧ Run (machine n) ok tr' s' := by
  induction cs generalizing s tr with
  | nil =>
    simp only [performAll, Except.ok.injEq] at hall
    exact ⟨tr, rfl, hall ▸ h⟩
  | cons c cs ih =>
    simp only [performAll, except_bind_eq_ok] at hall
    obtain ⟨⟨out, u⟩, hstep, hall⟩ := hall
    have hnext := h.next (hok c List.mem_cons_self s) hstep
    obtain ⟨tr', hlen, hrun⟩ := ih (fun c hc => hok c (List.mem_cons_of_mem _ hc)) hnext hall
    refine ⟨tr', ?_, hrun⟩
    simp only [hlen, List.length_append, List.length_cons, List.length_nil]
    omega

theorem performAll_reachable {cs : List (Call n)} {s : BlockData n}
    (hall : fresh.performAll cs = .ok s) : Reachable (machine n) s := by
  obtain ⟨tr, -, hrun⟩ := performAll_run anyStep (fun _ _ _ => trivial) (.start rfl) hall
  exact ⟨tr, hrun⟩

/-- Compression on, on-the-fly changes and pruning as given, no superblock compressed yet. -/
def sampleCntlr (otf prune : Bool) : CompressionCntlr := ⟨true, otf, prune, 0, 0⟩

def twoBlankLines : List (Call 64) :=
  [⟨.insert 0 (some fun _ => 0), sampleCntlr false false, .greatest⟩,
   ⟨.insert 1 (some fun _ => 0), sampleCntlr false false, .greatest⟩]

/-- Four bytes at an offset, from a buffer that starts with four ones. -/
def partialWrite (offset : Nat) (h : offset + 4 ≤ 64) : Call 64 where
  op := .write 0 ⟨offset, 4, h⟩ (some fun j => if j < 4 then 1 else 0)
  cntlr := sampleCntlr false false
  order := .greatest

theorem run_refines_store_sample : ∃ tr s, Run (machine 64) SliceAgrees tr s ∧ tr.length = 3 ∧
    s.scheme = .scheme1 ∧ Run (Store.machine 64) anyStep tr s.abs := by
  have heval : Outcome.test (fresh.performAll (twoBlankLines ++ [partialWrite 0 (by omega)]))
      (fun s => s.scheme == .scheme1) = true := by
    rfl
  obtain ⟨s, hs, hscheme⟩ := Outcome.test_eq_true heval
  have hok : ∀ c ∈ twoBlankLines ++ [partialWrite 0 (by omega)], ∀ s : BlockData 64,
      s.SliceAgrees c := by
    simp [twoBlankLines, partialWrite, SliceAgrees]
  obtain ⟨tr, hlen, hrun⟩ := performAll_run SliceAgrees hok (.start rfl) hs
  exact ⟨tr, s, hrun, hlen, by simpa using hscheme, (run_refines_store hrun).1⟩

/-- With two lines in the superblock, a write at offset 4 stores the bytes at the buffer's
start and not those at its offset 4. -/
theorem compressed_write_takes_wrong_slice :
    ¬ ∀ tr (s : BlockData 64), Run (machine 64) anyStep tr s →
      Run (Store.machine 64) anyStep tr s.abs := by
  intro hall
  have heval : Outcome.test (fresh.performAll twoBlankLines) (fun s =>
      Outcome.test (s.perform (partialWrite 4 (by omega))) fun r =>
        r.1.isNone && r.2.valid 0 && r.2.data 0 4 == 1) = true := by
    rfl
  obtain ⟨s, hs, heval⟩ := Outcome.test_eq_true heval
  obtain ⟨⟨out, s'⟩, hwrite, heval⟩ := Outcome.test_eq_true heval
  simp only [Bool.and_eq_true, beq_iff_eq] at heval
  obtain ⟨⟨hout, hv⟩, hbyte⟩ := heval
  obtain ⟨tr, hrun⟩ := performAll_reachable hs
  obtain ⟨m, -, -, hstep⟩ := (hall _ _ (hrun.next (i := partialWrite 4 (by omega)) trivial hwrite)).last
  obtain ⟨d, -, -, hm⟩ := hstep
  have hblock := congrFun hm 0
  rw [abs_of_valid hv] at hblock
  have hline := congrFun (by simpa using hblock) (4 : Fin 64)
  rw [hbyte] at hline
  simp [copyN, Ptr.add] at hline

end BlockData

end Sniper.Cache
