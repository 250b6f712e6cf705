import Sniper.Lib.LongestPath
import Sniper.Performance.CriticalPath
import Sniper.Performance.WindowDependencies
set_option autoImplicit false

/-! How long a mispredicted branch waits for the micro-operations that it depends on. -/

namespace Sniper.Performance
open Sniper.Lib DynamicMicroOp

namespace Windows

variable {cfg : WindowsConfig} {w : Windows} {e : WindowEntry}

/-- `calculateBranchResolutionLatency` with the array that it finds and leaves; what is returned is of
the type `int`. The numbers in the old window stand for their slots. -/
def resolveBranch (w : Windows) (times : ExecTimeMap) (e : WindowEntry) : Int × ExecTimeMap :=
  let times := e.uop.allDependencies.foldl w.markProducer times
  let state := w.old.reverse.foldl w.resolveEntry (times, 0)
  (toInt state.2, state.1)

theorem resolveBranch_eq (w : Windows) (e : WindowEntry) :
    (w.resolveBranch (fun _ => 0) e).1 = toInt (w.calculateBranchResolutionLatency e) := by
  rw [resolveBranch, calculateBranchResolutionLatency]

/-! ### The paths -/

/-- The micro-operations of a list that are in the old window. -/
def oldProducers (w : Windows) (dependencies : List Nat) : List Nat := dependencies.filter w.inOld

/-- The old window as a graph: from each micro-operation to its producers there, each with its
latency. -/
def oldGraph (w : Windows) : WeightedGraph Nat where
  next number := match Windows.getInstruction w.old number with
    | some e => w.oldProducers e.uop.allDependencies
    | none => []
  weight number := match Windows.getInstruction w.old number with
    | some e => e.uop.execLatency
    | none => 0

/-- A chain of dependences that ends at a direct producer of the branch has so many cycles. -/
def ChainLatency (w : Windows) (e : WindowEntry) (t : Nat) : Prop :=
  ∃ n, w.oldGraph.Path {p | p ∈ w.oldProducers e.uop.allDependencies} n t

/-- The direct producers that take some time. -/
def timedProducers (w : Windows) (e : WindowEntry) : Set Nat :=
  {p | p ∈ w.oldProducers e.uop.allDependencies ∧ w.oldGraph.weight p ≠ 0}

/-- The latency is that of the longest chain, and the array is left as it was found. -/
def Resolves (w : Windows) (e : WindowEntry) : Prop :=
  ∃ longest : Nat, IsLongest (ChainLatency w e) longest ∧
    w.resolveBranch (fun _ => 0) e = ((longest : Int), fun _ => 0)

/-! ### The sweep -/

theorem oldGraph_next (h : Backward w) (he : e ∈ w.old) :
    w.oldGraph.next (number e) = w.oldProducers e.uop.allDependencies := by
  simp only [oldGraph, h.getInstruction he]

theorem oldGraph_weight (h : Backward w) (he : e ∈ w.old) :
    w.oldGraph.weight (number e) = e.uop.execLatency := by
  simp only [oldGraph, h.getInstruction he]

theorem inOld_iff {d : Nat} : w.inOld d = true ↔ ∃ p ∈ w.old, number p = d := by
  rw [inOld, List.any_eq_true]
  simp only [decide_eq_true_iff]

theorem markProducer_eq (h : Backward w) (times : ExecTimeMap) (d : Nat) :
    w.markProducer times d = if w.inOld d = true then w.oldGraph.mark times d else times := by
  rw [markProducer, h.oldWindowContains]
  split
  · next hd =>
    obtain ⟨p, hp, rfl⟩ := inOld_iff.mp hd
    rw [h.getInstruction hp, WeightedGraph.mark, oldGraph_weight h hp]
  · rfl

theorem markProducerOf_eq (h : Backward w) (n : Nat) (times : ExecTimeMap) (d : Nat) :
    w.markProducerOf n times d =
      if w.inOld d = true then w.oldGraph.relax (2 ^ 32) n times d else times := by
  rw [markProducerOf, h.oldWindowContains]
  split
  · next hd =>
    obtain ⟨p, hp, rfl⟩ := inOld_iff.mp hd
    rw [h.getInstruction hp, WeightedGraph.relax, oldGraph_weight h hp]
  · rfl

theorem resolveEntry_eq (h : Backward w) (state : ExecTimeMap × Nat) (he : e ∈ w.old) :
    w.resolveEntry state e = w.oldGraph.visit (2 ^ 32) state (number e) := by
  have hfold : ∀ times : ExecTimeMap,
      e.uop.allDependencies.foldl (w.markProducerOf (number e)) times =
        (w.oldGraph.next (number e)).foldl (w.oldGraph.relax (2 ^ 32) (number e)) times := by
    intro times
    rw [oldGraph_next h he, oldProducers, List.foldl_filter]
    exact congrArg (List.foldl · times _) (funext fun t => funext fun d => markProducerOf_eq h _ t d)
  rw [resolveEntry, WeightedGraph.visit]
  change (if state.1 (number e) = 0 then state else _) = _
  split
  · rfl
  · exact congrArg (fun times : ExecTimeMap =>
      (Function.update times (number e) 0, max state.2 (times (number e)))) (hfold state.1)

/-- The sweep of the array is the sweep of the graph, from the youngest to the oldest. -/
theorem resolveBranch_sweep (h : Backward w) (e : WindowEntry) :
    w.resolveBranch (fun _ => 0) e =
      (toInt ((w.old.map number).reverse.foldl (w.oldGraph.visit (2 ^ 32))
        ((w.oldProducers e.uop.allDependencies).foldl w.oldGraph.mark fun _ => 0, 0)).2,
      ((w.old.map number).reverse.foldl (w.oldGraph.visit (2 ^ 32))
        ((w.oldProducers e.uop.allDependencies).foldl w.oldGraph.mark fun _ => 0, 0)).1) := by
  have hmarked : e.uop.allDependencies.foldl w.markProducer (fun _ => 0) =
      (w.oldProducers e.uop.allDependencies).foldl w.oldGraph.mark fun _ => 0 := by
    rw [oldProducers, List.foldl_filter]
    exact congrArg (List.foldl · _ _) (funext fun t => funext fun d => markProducer_eq h t d)
  have hswept : ∀ state : ExecTimeMap × Nat, w.old.reverse.foldl w.resolveEntry state =
      (w.old.map number).reverse.foldl (w.oldGraph.visit (2 ^ 32)) state := by
    intro state
    rw [← List.map_reverse, List.foldl_map]
    exact List.foldl_ext _ _ _ fun state e he =>
      resolveEntry_eq h state (List.mem_reverse.mp he)
  rw [resolveBranch, hmarked, hswept]

/-- A decreasing list is in order if each node leads to smaller ones of the list. -/
theorem ordered_of_decreasing {G : WeightedGraph Nat} {l : List Nat} (hl : l.Pairwise (· > ·))
    (hnext : ∀ n ∈ l, ∀ d ∈ G.next n, d ∈ l ∧ d < n) : G.Ordered l := by
  induction l with
  | nil => exact trivial
  | cons n l ih =>
    obtain ⟨hn, hl⟩ := List.pairwise_cons.mp hl
    have hrest : ∀ d, d ∈ n :: l → d < n → d ∈ l := fun d hd hlt =>
      (List.mem_cons.mp hd).resolve_left hlt.ne
    refine ⟨fun d hd => ?_, fun hmem => lt_irrefl n (hn n hmem), ih hl fun m hm d hd => ?_⟩
    · obtain ⟨hmem, hlt⟩ := hnext n List.mem_cons_self d hd
      exact hrest d hmem hlt
    · obtain ⟨hmem, hlt⟩ := hnext m (List.mem_cons_of_mem n hm) d hd
      exact ⟨hrest d hmem (hlt.trans (hn m hm)), hlt⟩

theorem mem_oldProducers {dependencies : List Nat} {d : Nat}
    (hd : d ∈ w.oldProducers dependencies) : d ∈ dependencies ∧ d ∈ (w.old.map number).reverse := by
  obtain ⟨hmem, hold⟩ := List.mem_filter.mp hd
  refine ⟨hmem, ?_⟩
  obtain ⟨p, hp, rfl⟩ := inOld_iff.mp hold
  exact List.mem_reverse.mpr (List.mem_map_of_mem hp)

theorem oldGraph_ordered (h : Backward w) :
    w.oldGraph.Ordered (w.old.map number).reverse := by
  obtain ⟨first, hnumbers⟩ := h.old_numbers
  refine ordered_of_decreasing ?_ fun n hn d hd => ?_
  · rw [hnumbers, List.pairwise_reverse]
    exact List.pairwise_lt_range'
  · obtain ⟨e, he, rfl⟩ := List.mem_map.mp (List.mem_reverse.mp hn)
    rw [oldGraph_next h he] at hd
    obtain ⟨hdep, hmem⟩ := mem_oldProducers hd
    refine ⟨hmem, (h.earlier e (List.mem_append_left _ he) d hdep).resolve_right fun hwrapped => ?_⟩
    obtain ⟨first, hall, hnext⟩ := h.numbers
    obtain ⟨p, hp, rfl⟩ := List.mem_map.mp (List.mem_reverse.mp hmem)
    have hin := List.mem_map_of_mem (f := number) (List.mem_append_left w.window hp)
    rw [hall, List.mem_range'_1] at hin
    have hbound := h.next_le
    omega

/-- The array is left as it was found. -/
theorem resolveBranch_clean (h : Backward w) (e : WindowEntry) :
    (w.resolveBranch (fun _ => 0) e).2 = fun _ => 0 := by
  rw [resolveBranch_sweep h]
  refine WeightedGraph.sweep_clean (oldGraph_ordered h) fun k hk => ?_
  rw [WeightedGraph.foldl_mark] at hk
  split at hk
  · next hmem => exact (mem_oldProducers hmem).2
  · exact absurd rfl hk

/-- Chains that end at a producer without latency are not seen. -/
theorem resolveBranch_longest (h : Backward w) (e : WindowEntry)
    (hwidth : ∀ n t, w.oldGraph.Path (w.timedProducers e) n t → t < 2 ^ 32) :
    ∃ longest, IsLongest (fun t => ∃ n, w.oldGraph.Path (w.timedProducers e) n t) longest ∧
      (w.resolveBranch (fun _ => 0) e).1 = toInt longest := by
  have hordered := oldGraph_ordered h
  have hswept := WeightedGraph.swept_marked hordered (w.oldProducers e.uop.allDependencies)
    fun d hd => (mem_oldProducers hd).2
  refine ⟨_, hswept.sweep hordered (fun s hs => hs.2) hwidth, ?_⟩
  rw [resolveBranch_sweep h]

theorem toInt_lt (n : Nat) : toInt n < 2 ^ 31 := by
  rw [toInt_eq]
  split <;> omega

theorem toInt_of_lt {n : Nat} (h : n < 2 ^ 31) : toInt n = n := by
  rw [toInt_eq]
  split <;> omega

/-- A producer whose latency is zero is taken for one that is not marked, so that a chain that ends at
it counts only if one that ends at another producer is as long. -/
theorem resolves_iff (h : Reachable cfg w) (e : WindowEntry) :
    Resolves w e ↔ ∀ t, ChainLatency w e t → t < 2 ^ 31 ∧
      (t = 0 ∨ ∃ n t', w.oldGraph.Path (w.timedProducers e) n t' ∧ t ≤ t') := by
  have hback := h.backward
  have hsub : w.timedProducers e ⊆ {p | p ∈ w.oldProducers e.uop.allDependencies} := fun p hp => hp.1
  constructor
  · rintro ⟨longest, hlongest, hresult⟩
    have hlt : longest < 2 ^ 31 := by
      have htoInt := toInt_lt ((w.old.map number).reverse.foldl (w.oldGraph.visit (2 ^ 32))
        ((w.oldProducers e.uop.allDependencies).foldl w.oldGraph.mark fun _ => 0, 0)).2
      rw [resolveBranch_sweep hback] at hresult
      rw [(Prod.mk.inj hresult).1] at htoInt
      exact_mod_cast htoInt
    obtain ⟨timed, htimed, htimedResult⟩ := resolveBranch_longest hback e fun n t hpath =>
      (hlongest.bound t ⟨n, hpath.mono hsub⟩).trans_lt (hlt.trans (by decide))
    have htimedLe : timed ≤ longest := by
      rcases htimed.reached with hzero | ⟨n, hpath⟩
      · exact hzero ▸ Nat.zero_le _
      · exact hlongest.bound timed ⟨n, hpath.mono hsub⟩
    rw [hresult, toInt_of_lt (htimedLe.trans_lt hlt)] at htimedResult
    have heq : longest = timed := Int.natCast_inj.mp htimedResult
    intro t ht
    have hle := hlongest.bound t ht
    refine ⟨hle.trans_lt hlt, ?_⟩
    rcases htimed.reached with hzero | ⟨n, hpath⟩
    · exact .inl (Nat.le_zero.mp (hzero ▸ heq ▸ hle))
    · exact .inr ⟨n, timed, hpath, heq ▸ hle⟩
  · intro hchains
    obtain ⟨timed, htimed, hresult⟩ := resolveBranch_longest hback e fun n t hpath =>
      (hchains t ⟨n, hpath.mono hsub⟩).1.trans (by decide)
    have htimedLt : timed < 2 ^ 31 := by
      rcases htimed.reached with hzero | ⟨n, hpath⟩
      · rw [hzero]
        decide
      · exact (hchains timed ⟨n, hpath.mono hsub⟩).1
    refine ⟨timed, ⟨?_, ?_⟩, ?_⟩
    · exact htimed.reached.imp_right fun ⟨n, hpath⟩ => ⟨n, hpath.mono hsub⟩
    · intro t ht
      rcases (hchains t ht).2 with hzero | ⟨n, t', hpath, hle⟩
      · exact hzero ▸ Nat.zero_le _
      · exact hle.trans (htimed.bound t' ⟨n, hpath⟩)
    · rw [toInt_of_lt htimedLt] at hresult
      exact Prod.ext hresult (resolveBranch_clean hback e)

/-- Room for four micro-operations in each window. -/
def fourEntries : WindowsConfig := ⟨4, 30, false, by decide, by decide⟩

def plainInfo : IntervalInfo := ⟨.generic, false, false, 0⟩

/-- A micro-operation of five cycles, and then one of none that depends on it. -/
def fiveCycles : DynamicMicroOp := { RobState.plainUop .execute [] [0] with execLatency := 5 }

def noCycles : DynamicMicroOp := { RobState.plainUop .execute [0] [1] with execLatency := 0 }

/-- The branch depends on the second one. -/
def branchUop : DynamicMicroOp :=
  { RobState.plainUop .execute [1] [] with
    microOp := { (RobState.plainUop .execute [1] []).microOp with isBranch := true } }

/-- The first micro-operation of the window is dispatched, if there is one. -/
def dispatchFirst (cfg : WindowsConfig) (w : Windows) : Windows :=
  match w.window with
  | e :: _ => w.dispatchInstruction cfg e
  | [] => w

theorem Reachable.dispatchFirst (h : Reachable cfg w) : Reachable cfg (w.dispatchFirst cfg) := by
  cases hwindow : w.window with
  | nil => simpa only [Windows.dispatchFirst, hwindow] using h
  | cons e rest => simpa only [Windows.dispatchFirst, hwindow] using h.dispatch hwindow

def beforeBranch : Except WindowsAbort Windows := do
  let w ← (clear fun _ => 0).add fourEntries fiveCycles plainInfo
  let w ← w.add fourEntries noCycles plainInfo
  let w ← w.add fourEntries branchUop plainInfo
  return (w.dispatchFirst fourEntries).dispatchFirst fourEntries

/-- What the branch and the other two look like. -/
def branchSummary (w : Windows) : Option (List Nat × List Nat × Nat × Nat × Int) :=
  match w.window with
  | [e] => some (w.oldProducers e.uop.allDependencies, w.oldGraph.next 1, w.oldGraph.weight 1,
    w.oldGraph.weight 0, (w.resolveBranch (fun _ => 0) e).1)
  | _ => none

theorem beforeBranch_reachable : ∃ w e, Reachable fourEntries w ∧ w.window = [e] ∧
    w.oldProducers e.uop.allDependencies = [1] ∧ w.oldGraph.next 1 = [0] ∧
    w.oldGraph.weight 1 = 0 ∧ w.oldGraph.weight 0 = 5 ∧
    (w.resolveBranch (fun _ => 0) e).1 = 0 := by
  have hrun : (beforeBranch.toOption.bind branchSummary) = some ([1], [0], 0, 5, 0) := by
    decide
  cases hw : beforeBranch with
  | error e =>
    rw [hw] at hrun
    cases hrun
  | ok w =>
    rw [hw] at hrun
    change w.branchSummary = _ at hrun
    obtain ⟨w₁, hfirst, hw⟩ := except_bind_eq_ok.mp hw
    obtain ⟨w₂, hsecond, hw⟩ := except_bind_eq_ok.mp hw
    obtain ⟨w₃, hthird, hw⟩ := except_bind_eq_ok.mp hw
    cases hw
    have hfresh : fiveCycles.Fresh ∧ noCycles.Fresh ∧ branchUop.Fresh :=
      ⟨⟨⟨by decide, by decide⟩, rfl⟩, ⟨⟨by decide, by decide⟩, rfl⟩, ⟨⟨by decide, by decide⟩, rfl⟩⟩
    have hone : w₁.nextSequenceNumber = 1 := add_next hfirst
    have htwo : w₂.nextSequenceNumber = 2 := by rw [add_next hsecond, hone]
    have h₁ : Reachable fourEntries w₁ := (Reachable.clear _).add hfresh.1 (by decide) hfirst
    have h₂ : Reachable fourEntries w₂ := h₁.add hfresh.2.1 (by rw [hone]; decide) hsecond
    have h₃ : Reachable fourEntries w₃ := h₂.add hfresh.2.2 (by rw [htwo]; decide) hthird
    have hbefore := h₃.dispatchFirst.dispatchFirst
    generalize (w₃.dispatchFirst fourEntries).dispatchFirst fourEntries = w at hbefore hrun
    rw [branchSummary] at hrun
    split at hrun
    · next e hwindow =>
      obtain ⟨hproducers, hnext, hnone, hfive, hresult⟩ : _ ∧ _ ∧ _ ∧ _ ∧ _ := by
        simpa only [Option.some.injEq, Prod.mk.injEq] using hrun
      exact ⟨w, e, hbefore, hwindow, hproducers, hnext, hnone, hfive, hresult⟩
    · cases hrun

theorem resolves_iff_beforeBranch : ∃ w e, w.window = [e] ∧
    (Resolves w e ↔ ∀ t, ChainLatency w e t → t < 2 ^ 31 ∧
      (t = 0 ∨ ∃ n t', w.oldGraph.Path (w.timedProducers e) n t' ∧ t ≤ t')) := by
  obtain ⟨w, e, h, hwindow, -⟩ := beforeBranch_reachable
  exact ⟨w, e, hwindow, resolves_iff h e⟩

/-- The branch waits for five cycles, and none are returned. -/
theorem resolveBranch_misses_chain : ∃ w e, Reachable fourEntries w ∧ w.window = [e] ∧
    ChainLatency w e 5 ∧ (w.resolveBranch (fun _ => 0) e).1 = 0 ∧ ¬Resolves w e := by
  obtain ⟨w, e, h, hwindow, hproducers, hnext, hnone, hfive, hresult⟩ := beforeBranch_reachable
  have hchain : ChainLatency w e 5 := by
    have hfirst : w.oldGraph.Path {p | p ∈ w.oldProducers e.uop.allDependencies} 1 0 := by
      rw [← hnone]
      exact .source (by simp [hproducers])
    have hstep := hfirst.step (d := 0) (by simp [hnext])
    rw [hfive] at hstep
    exact ⟨0, hstep⟩
  refine ⟨w, e, h, hwindow, hchain, hresult, ?_⟩
  rintro ⟨longest, hlongest, heq⟩
  rw [heq] at hresult
  have hbound := hlongest.bound 5 hchain
  change (longest : Int) = 0 at hresult
  omega

end Windows

end Sniper.Performance
