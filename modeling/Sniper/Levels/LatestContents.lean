import Sniper.Levels.Waiters
import Sniper.Lib.Machine
set_option autoImplicit false

/-! Runs of the caches of a core: inclusion, and what becomes of the contents last written. -/

namespace Sniper.Levels
open Sniper.Coherence (MsgType ShmemMsg)
open Sniper.Lib
open Levels.Core

variable {ι Addr D : Type}

namespace Core

/-- The messages about a line. -/
def sentAbout [DecidableEq Addr] (a : Addr) (s : Core ι Addr D) : List (ShmemMsg D) :=
  (s.sent.filter fun msg => msg.1 = a).map Prod.snd

/-- Empty caches, and nothing under way. -/
def start (memory : Addr → D) : Core ι Addr D where
  lines _ _ := none
  evicting _ := none
  sent := []
  placements := 0
  accesses := ⟨fun _ => [], none, fun _ => none, memory⟩

def Modified (i : ι) (a : Addr) (s : Core ι Addr D) : Prop :=
  ∃ l, s.lines i a = some l ∧ l.cstate = .modified

end Core

namespace Copies

variable {H : Hierarchy ι Addr} {e : Expected ι D} {c : Copies ι D} {i : ι}

/-- Between a copy that is not MODIFIED and the last level, if that is MODIFIED, there is a step
from the one to the other. -/
theorem exists_dirty_next (hlast : c.Dirty H.last) (hi : ¬c.Dirty i) :
    ∃ p j, H.Above i p ∧ H.next p = some j ∧ ¬c.Dirty p ∧ c.Dirty j := by
  have habove := Hierarchy.above_last (H := H) i
  induction habove using Relation.ReflTransGen.head_induction_on with
  | refl => exact absurd hlast hi
  | head hn _ ih =>
    rename_i i j _
    by_cases hj : c.Dirty j
    · exact ⟨i, j, .refl, hn, hi, hj⟩
    · obtain ⟨p, k, hab, hk, hp, hd⟩ := ih hj
      exact ⟨p, k, .head hn hab, hk, hp, hd⟩

/-- The lowest MODIFIED copy has the contents, and it is that of a level above or of a sibling. -/
theorem Current.lowest_dirty [DecidableEq ι] (hc : c.Current H e)
    (hlast : c.Dirty H.last) (hi : ¬c.Dirty i) :
    ∃ m l, (H.Above i m ∨ m ∈ H.siblings i) ∧ m ≠ i ∧ c.copy m = some l ∧ l.cstate = .modified ∧
      l.data = e.contents := by
  obtain ⟨p, j, hab, hn, hp, l, hl, hm⟩ := exists_dirty_next hlast hi
  have hji : j ≠ i := by
    rintro rfl
    exact hi ⟨l, hl, hm⟩
  rcases hc.fresh j l hl with hdata | ⟨-, m, hmj, ⟨lm, hlm, hmm⟩, -⟩ | ⟨-, -, hnm⟩
  · exact ⟨j, l, .inl (hab.tail hn), hji, hl, hm, hdata⟩
  · -- a sibling has it, so both are first-level caches
    have hmp : m ≠ p := by
      rintro rfl
      exact hp ⟨lm, hlm, hmm⟩
    have hfirst : H.prevs m = [] := H.prevs_of_sibling hmj hn hmp
    obtain rfl : p = i := hab.eq_of_first (H.prevs_of_sibling hn hmj hmp.symm)
    refine ⟨m, lm, .inr (Hierarchy.mem_siblings.mpr ⟨hmp, j, hn, hmj⟩), hmp, hlm, hmm, ?_⟩
    rcases hc.fresh m lm hlm with hdata | ⟨-, n, hnm, -⟩ | ⟨-, -, hnm⟩
    · exact hdata
    · have hmem := H.mem_prevs.mpr hnm
      rw [hfirst] at hmem
      cases hmem
    · exact absurd hmm hnm
  · exact absurd hm hnm

end Copies

namespace Hierarchy

variable [DecidableEq Addr]
variable {H : Hierarchy ι Addr} {X : Addr} {strict dirty : Prop} {before : List (ShmemMsg D)}
variable {s s' : Core ι Addr D} {out : Option D} {i : ι}

theorem Fine.rebase {dirty' : Prop} (h : H.Fine X strict before dirty s)
    (hd : dirty' → s.Modified H.last X) : H.Fine X strict (s.sentAbout X) dirty' s := by
  have hc := h.current
  refine ⟨⟨h.good.placed, .inr ⟨hc.legal, hc.below, hc.owed, hc.fresh, hc.settled, ?_⟩⟩, h.idle⟩
  refine ⟨[], (List.append_nil _).symm, fun _ hmem => (nomatch hmem), fun hdirty => .inl ?_⟩
  obtain ⟨l, hl, hm⟩ := hd hdirty
  exact ⟨l, Copies.copy_of_line hl, hm⟩

theorem fine_start (memory : Addr → D) :
    H.Fine X strict ((start memory : Core ι Addr D).sentAbout X) False (start memory) := by
  have hcopy : ∀ i, ((start memory : Core ι Addr D).copies X fun _ => none).copy i = none :=
    fun i => Copies.copy_eq_none.mpr ⟨rfl, rfl⟩
  refine ⟨⟨⟨fun _ _ hl => (nomatch hl), fun _ _ hd => (nomatch hd)⟩, .inr ?_⟩, fun _ => rfl⟩
  refine ⟨fun i l hl => ?_, fun _ _ _ hl _ => (nomatch hl), fun _ _ _ hl => (nomatch hl),
    fun i l hl => ?_, fun _ _ hk => (nomatch hk),
    ⟨[], rfl, fun _ hmem => (nomatch hmem), False.elim⟩⟩
  · rw [hcopy] at hl
    cases hl
  · rw [hcopy] at hl
    cases hl

variable [DecidableEq ι]

/-- The caches of a core, and what happens to them. -/
def machine (H : Hierarchy ι Addr) : Machine (Core ι Addr D) (Event ι Addr D) (Option D) where
  init s := ∃ memory, s = start memory
  step s ev out s' := H.step s ev = .ok (out, s')

/-- What holds between two events. -/
structure Sound (H : Hierarchy ι Addr) (strict : Prop) (s : Core ι Addr D) : Prop where
  fine : ∀ a, H.Fine a strict (s.sentAbout a) False s
  queued : s.accesses.Queued H
  absent : ∀ a, Absent a s

omit [DecidableEq ι] in
theorem Sound.start (memory : Addr → D) : H.Sound strict (Core.start memory) where
  fine _ := fine_start memory
  queued := ⟨fun _ _ hw => (nomatch hw), fun _ => List.nodup_nil, fun _ ha => (nomatch ha),
    fun _ _ hi => (nomatch hi)⟩
  absent _ _ hi := nomatch hi

theorem exists_addr {ev : Event ι Addr D} (h : H.step s ev = .ok (out, s')) :
    ∃ a, ev.addr s = some a := by
  cases ev with
  | memOp k op a => exact ⟨a, rfl⟩
  | message a msg memory unwritten => exact ⟨a, rfl⟩
  | finishWaiter =>
    cases hserving : s.accesses.serving with
    | none =>
      simp only [step, finishWaiter, hserving] at h
      cases h
    | some a => exact ⟨a, hserving⟩

/-- What an event makes of every line. -/
theorem Sound.step_keeps {ev : Event ι Addr D} (h : H.Sound strict s)
    (hcareful : H.Careful strict s ev) (hstep : H.step s ev = .ok (out, s')) :
    (∀ a, H.Fine a strict (s.sentAbout a) (s.Modified H.last a) s') ∧
      s'.accesses.Queued H ∧ (∀ a, Absent a s') ∧ ∀ a ∈ ev.addr s, Returns a strict out s' := by
  obtain ⟨X, haddr⟩ := exists_addr hstep
  have hfine : ∀ a, H.Fine a strict (s.sentAbout a) (s.Modified H.last a) s :=
    fun a => (h.fine a).rebase id
  have hhandled := step_handled haddr hcareful h.queued (h.absent X) hstep (hfine X) rfl
  have hother : ∀ a, a ≠ X → H.Fine a strict (s.sentAbout a) (s.Modified H.last a) s' ∧
      Absent a s' := by
    intro a ha
    have hleaves : H.Leaves a s s' := step_leaves (fun heq => ha (by simpa [haddr] using heq.symm))
      hstep
    obtain ⟨hg, hspares⟩ := hleaves _ (hfine a).good
    refine ⟨⟨?_, hspares.idle (hfine a).idle⟩, fun i hi => ?_⟩
    · rw [expected, hhandled.written a ha]
      exact hg
    · exact hspares.gone (h.absent a i (hhandled.blocked i a ha hi))
  refine ⟨fun a => ?_, hhandled.queued, fun a => ?_, fun a ha => ?_⟩
  · by_cases ha : a = X
    · exact ha ▸ hhandled.fine
    · exact (hother a ha).1
  · by_cases ha : a = X
    · exact ha ▸ hhandled.absent
    · exact (hother a ha).2
  · obtain rfl : X = a := by simpa [haddr] using ha
    exact hhandled.returns

theorem Sound.step {ev : Event ι Addr D} (h : H.Sound strict s) (hcareful : H.Careful strict s ev)
    (hstep : H.step s ev = .ok (out, s')) : H.Sound strict s' := by
  obtain ⟨hfine, hqueued, habsent, -⟩ := h.step_keeps hcareful hstep
  exact ⟨fun a => (hfine a).rebase False.elim, hqueued, habsent⟩

theorem Sound.of_run {tr : List (Event ι Addr D × Option D)}
    (h : Run H.machine (H.Careful strict) tr s) : H.Sound strict s := by
  refine h.invariant ?_ fun s ev out s' hs hcareful hstep => hs.step hcareful hstep
  rintro _ ⟨memory, rfl⟩
  exact .start memory

/-- The contents of a line that was MODIFIED in `i` are in a cache above it, or in that of a
sibling which has stored to them since, or were sent to the directory. -/
def Passed (H : Hierarchy ι Addr) (i : ι) (a : Addr) (s s' : Core ι Addr D) : Prop :=
  (∃ m l, (H.Above i m ∨ m ∈ H.siblings i) ∧ m ≠ i ∧ s'.lines m a = some l ∧
    l.cstate = .modified ∧ l.data = s'.accesses.written a) ∨
  ∃ more, s'.sentAbout a = s.sentAbout a ++ more ∧ ∃ msg ∈ more,
    (msg.msgType = .flushRep ∨ msg.msgType = .wbRep) ∧
      msg.dataBuf = some (s'.accesses.written a)

/-- A MODIFIED line that leaves a cache is not lost. -/
theorem Fine.passed {a : Addr} (h : H.Fine a strict (s.sentAbout a) (s.Modified H.last a) s')
    (hlast : s.Modified H.last a) (hi : ¬s'.Modified i a) : H.Passed i a s s' := by
  have hc := h.current
  have hdirty : ∀ i, (s'.copies a fun _ => none).Dirty i → s'.Modified i a := by
    rintro i ⟨l, hl, hm⟩
    rw [Copies.copy_idle rfl] at hl
    exact ⟨l, hl, hm⟩
  obtain ⟨more, hsent, -, hback⟩ := hc.flushed
  rcases hback hlast with hd | ⟨msg, hmem, hret⟩
  · obtain ⟨m, l, hm, hne, hl, hmod, hdata⟩ := hc.lowest_dirty hd fun hd' => hi (hdirty i hd')
    rw [Copies.copy_idle rfl] at hl
    exact .inl ⟨m, l, hm, hne, hl, hmod, hdata⟩
  · exact .inr ⟨more, hsent, msg, hmem, hret⟩

/-- Instruction and data caches with a common second level, and a third level above it. -/
inductive ThreeLevels where
  | icache
  | dcache
  | l2
  | l3
deriving DecidableEq

/-- No set is ever full. -/
def threeLevels : Hierarchy ThreeLevels Nat where
  next := fun
    | .icache => some .l2
    | .dcache => some .l2
    | .l2 => some .l3
    | .l3 => none
  prevs := fun
    | .icache => []
    | .dcache => []
    | .l2 => [.icache, .dcache]
    | .l3 => [.l2]
  level := fun
    | .icache => 0
    | .dcache => 0
    | .l2 => 1
    | .l3 => 2
  last := .l3
  mem_prevs := by
    intro i j
    cases i <;> cases j <;> simp
  level_lt := by
    intro i j
    cases i <;> cases j <;> simp
  level_le := by
    intro i
    cases i <;> simp
  next_eq_none := by
    intro i
    cases i <;> simp
  prevs_of_sibling := by
    intro i j k
    cases i <;> cases j <;> cases k <;> simp
  prevs_nodup := by
    intro i
    cases i <;> simp
  place := fun _ => .inPlace
  depth := 10

/-- A store finds no copy in its own cache and in the second level, nothing is upgraded, and
nobody waits behind another. -/
def storesAlone (s : Core ThreeLevels Nat Nat) : Event ThreeLevels Nat Nat → Bool
  | .memOp k op a => !op.stores || (s.lines k a).isNone && (s.lines .l2 a).isNone
  | .message _ msg _ _ => msg.msgType ≠ .upgradeRep
  | .finishWaiter => s.accesses.serving.all fun a => (s.accesses.waiters a).tail.isEmpty

theorem storesAlone_careful (strict : Prop) (s : Core ThreeLevels Nat Nat)
    (ev : Event ThreeLevels Nat Nat) (h : storesAlone s ev = true) : threeLevels.Careful strict s ev := by
  cases ev with
  | memOp k op a =>
    intro hop
    simp only [storesAlone, hop, Bool.not_true, Bool.false_or, Bool.and_eq_true,
      Option.isNone_iff_eq_none] at h
    refine ⟨fun hp => ?_, fun _ hex => ?_⟩
    · rw [h.1] at hp
      cases hp
    · obtain ⟨j, hj, hlast, hex⟩ := hex
      have hl2 : j = .l2 := by cases k <;> cases hj <;> first | rfl | exact absurd rfl hlast
      rw [hl2, h.2] at hex
      cases hex
  | message a msg memory unwritten => exact fun hup => absurd hup (of_decide_eq_true h)
  | finishWaiter =>
    intro a ha w hw
    simp only [storesAlone, Option.mem_def.mp ha, Option.all_some, List.isEmpty_iff] at h
    rw [h] at hw
    cases hw

/-- As long as no store meets a sibling's MODIFIED copy and no upgrade raises a copy that is out
of date, the last level gives back the contents last written, unless it answers a WB_REQ about a
SHARED_UPGRADING line with what a buffer nobody wrote happens to hold. -/
theorem answer_current_iff {tr : List (Event ι Addr D × Option D)} {a : Addr} {msg : ShmemMsg D}
    {memory unwritten : D} (hrun : Run H.machine (H.Careful False) tr s)
    (hmsg : msg.msgType = .flushReq ∨ msg.msgType = .wbReq) (hheld : s.lines H.last a ≠ none)
    (hstep : H.step s (.message a msg memory unwritten) = .ok (out, s')) :
    ∃ answer, s'.sent.getLast? = some (a, answer) ∧
      (msg.msgType = .flushReq ∧ answer.msgType = .flushRep ∨
        msg.msgType = .wbReq ∧ answer.msgType = .wbRep) ∧
      (answer.dataBuf = some (s.accesses.written a) ↔ msg.msgType = .wbReq →
        (s.lines H.last a).map Line.cstate = some .sharedUpgrading →
          unwritten = s.accesses.written a) := by
  have hs := Sound.of_run hrun
  simp only [step, handleMsgFromDramDirectory] at hstep
  split at hstep
  · cases hstep
  rcases hmsg with ht | ht
  · simp only [ht, except_bind_eq_ok] at hstep
    obtain ⟨u, hu, heq⟩ := hstep
    cases heq
    obtain ⟨-, -, hanswer⟩ := processFlushReqFromDramDirectory_keeps hu (hs.fine a)
    exact ⟨_, hanswer hheld, .inl ⟨ht, rfl⟩, by simp [ht]⟩
  · simp only [ht, except_bind_eq_ok] at hstep
    obtain ⟨u, hu, heq⟩ := hstep
    cases heq
    obtain ⟨-, -, hanswer⟩ := processWbReqFromDramDirectory_keeps hu (hs.fine a)
    refine ⟨_, hanswer hheld, .inr ⟨ht, rfl⟩, ?_⟩
    by_cases hst : (s.lines H.last a).map Line.cstate = some .sharedUpgrading
    · simp [hst, ht]
    · simp [hst]

/-- A line that the data cache has stored to is flushed. -/
theorem answer_current_iff_stored :
    ∃ s s' : Core ThreeLevels Nat Nat, ∃ answer, s.lines .l3 0 ≠ none ∧
      threeLevels.step s (.message 0 ⟨.flushReq, none⟩ 5 77) = .ok (none, s') ∧
      s'.sent.getLast? = some (0, answer) ∧
      (answer.dataBuf = some (s.accesses.written 0) ↔ (MsgType.flushReq = .wbReq →
        (s.lines .l3 0).map Line.cstate = some .sharedUpgrading → 77 = s.accesses.written 0)) := by
  have heval : (performEach threeLevels.step storesAlone (start fun _ => 5)
      [.memOp .dcache (.write (· + 1)) 0, .message 0 ⟨.exRep, none⟩ 5 0, .finishWaiter]).map
        (fun s => match threeLevels.step s (.message 0 ⟨.flushReq, none⟩ 5 77) with
          | .ok (out, _) => some (out, (s.lines .l3 0).map Line.cstate)
          | .error _ => none) = some (some (none, some .modified)) := by decide +kernel
  obtain ⟨s, hs, hflush⟩ := Option.map_eq_some_iff.mp heval
  obtain ⟨tr, hrun⟩ := Run.performEach (M := threeLevels.machine) (fun _ _ _ _ h => h)
    (storesAlone_careful False) (.start ⟨fun _ => 5, rfl⟩) hs
  split at hflush
  · rename_i out s' hstep
    simp only [Option.some.injEq, Prod.mk.injEq] at hflush
    obtain ⟨rfl, hst⟩ := hflush
    have hheld : s.lines .l3 0 ≠ none := by
      intro hnone
      rw [hnone] at hst
      cases hst
    obtain ⟨answer, hsent, -, hiff⟩ := answer_current_iff hrun (.inl rfl) hheld hstep
    exact ⟨s, s', answer, hheld, hstep, hsent, hiff⟩
  · cases hflush

/-- Another core reads the line while this one waits to store to it. -/
theorem upgrading_line_answers_unwritten :
    ∃ s s', Reachable threeLevels.machine s ∧
      (s.lines .l3 0).map Line.cstate = some .sharedUpgrading ∧
      threeLevels.step s (.message 0 ⟨.wbReq, none⟩ 5 77) = .ok (none, s') ∧
      s'.sent.getLast? = some (0, ⟨.wbRep, some 77⟩) ∧ s.accesses.written 0 = 5 := by
  have heval : (performEach threeLevels.step (fun _ _ => true) (start fun _ => 5)
      [.memOp .dcache .read 0, .message 0 ⟨.shRep, none⟩ 5 0, .finishWaiter,
        .memOp .dcache (.write (· + 1)) 0]).map (fun s =>
          match threeLevels.step s (.message 0 ⟨.wbReq, none⟩ 5 77) with
          | .ok (none, s') =>
            decide ((s.lines .l3 0).map Line.cstate = some .sharedUpgrading) &&
              decide (s'.sent.getLast?.map (fun msg => (msg.1, msg.2.msgType, msg.2.dataBuf)) =
                some (0, .wbRep, some 77)) && s.accesses.written 0 == 5
          | _ => false) = some true := by decide +kernel
  obtain ⟨s, hs, hanswer⟩ := Option.map_eq_some_iff.mp heval
  have hstart : Run threeLevels.machine anyStep [] (start fun _ => 5) := .start ⟨_, rfl⟩
  obtain ⟨tr, hrun⟩ := hstart.performEach (fun _ _ _ _ h => h) (fun _ _ _ => trivial) hs
  split at hanswer
  · rename_i s' hstep
    simp only [Bool.and_eq_true, decide_eq_true_eq, beq_iff_eq] at hanswer
    obtain ⟨⟨hst, hlast⟩, hwritten⟩ := hanswer
    obtain ⟨⟨a, t, buf⟩, hsent, heq⟩ := Option.map_eq_some_iff.mp hlast
    cases heq
    exact ⟨s, s', ⟨tr, hrun⟩, hst, hstep, hsent, hwritten⟩
  · cases hanswer

end Hierarchy

end Sniper.Levels
