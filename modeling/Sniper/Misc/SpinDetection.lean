import Mathlib.Data.List.Induction
import Sniper.Lib.Bits
import Sniper.Misc.SpinLoopDetector
set_option autoImplicit false

/-! When a report of spinning is right. -/

namespace Sniper.Misc
open Sniper.Lib

/-- The bit of an id. -/
def hasBit (mask : BitVec 16) (id : Fin sdtMaxSize) : Bool := mask.getLsbD id.val

section Masks

variable {mask mask' : BitVec 16} {id id' : Fin sdtMaxSize}

@[simp] theorem hasBit_zero : hasBit 0#16 id = false := BitVec.getLsbD_zero

@[simp] theorem hasBit_or : hasBit (mask ||| mask') id = (hasBit mask id || hasBit mask' id) :=
  BitVec.getLsbD_or

@[simp] theorem hasBit_and : hasBit (mask &&& mask') id = (hasBit mask id && hasBit mask' id) :=
  BitVec.getLsbD_and

@[simp] theorem hasBit_not : hasBit (~~~mask) id = !hasBit mask id := by
  have hlt := id.isLt
  rw [hasBit, BitVec.getLsbD_not, decide_eq_true hlt, Bool.true_and, hasBit]

@[simp] theorem hasBit_idBit : hasBit (idBit id) id' = decide (id = id') := by
  rw [hasBit, idBit, Bits.getLsbD_bit, decide_eq_true id.isLt, Bool.true_and]
  simp only [Fin.ext_iff]

theorem and_idBit_ne_zero : mask &&& idBit id ≠ 0 ↔ hasBit mask id = true := Bits.and_bit_ne_zero

/-- Resetting a bit leaves the others. -/
theorem hasBit_resetMask (entry : RubEntry) (hne : id ≠ id') :
    hasBit (SpinLoopDetector.resetMask id entry).mask id' = hasBit entry.mask id' := by
  rw [SpinLoopDetector.resetMask]
  split
  · simp [hne]
  · rfl

@[simp] theorem reg_resetMask (entry : RubEntry) :
    (SpinLoopDetector.resetMask id entry).reg = entry.reg := by
  rw [SpinLoopDetector.resetMask]
  split
  · rfl
  · rfl

theorem hasBit_foldl_ids (sdt : List SdtEntry) :
    hasBit (sdt.foldl (fun mask entry => mask ||| idBit entry.id) mask) id = true ↔
      hasBit mask id = true ∨ ∃ entry ∈ sdt, entry.id = id := by
  induction sdt generalizing mask with
  | nil => simp
  | cons entry sdt ih => simp [ih, or_assoc]

theorem hasBit_validIds {sdt : List SdtEntry} {entry : SdtEntry} (h : entry ∈ sdt) :
    hasBit (SpinLoopDetector.validIds sdt) entry.id = true :=
  (hasBit_foldl_ids sdt).mpr (.inr ⟨entry, h, rfl⟩)

end Masks

namespace SpinThread

section Traces

variable {values : Reg → RegValue} {trace : List SpinEvent} {eip : Eip} {old : Reg → RegValue}

theorem after_nil : after values [] = start values := rfl

theorem after_snoc (event : SpinEvent) :
    after values (trace ++ [event]) = (after values trace).commit event := by
  rw [after, List.foldl_append]
  rfl

/-- The last execution of a control transfer, with no store since. -/
theorem executed_iff : (after values trace).executed eip = some old ↔
    ∃ before clock since, trace = before ++ .bct eip clock :: since ∧
      (∀ event ∈ since, event ≠ .nonSilentStore ∧ ∀ clock', event ≠ .bct eip clock') ∧
      (after values before).values = old := by
  induction trace using List.reverseRecOn with
  | nil => simp [after_nil, start]
  | append_singleton trace event ih =>
    have hsplit : (∃ before clock since, trace ++ [event] = before ++ .bct eip clock :: since ∧
        (∀ event ∈ since, event ≠ .nonSilentStore ∧ ∀ clock', event ≠ .bct eip clock') ∧
        (after values before).values = old) ↔
        (∃ clock, event = .bct eip clock) ∧ (after values trace).values = old ∨
          (event ≠ .nonSilentStore ∧ ∀ clock, event ≠ .bct eip clock) ∧
            (after values trace).executed eip = some old := by
      rw [ih]
      constructor
      · rintro ⟨before, clock, since, htrace, hsince, hvalues⟩
        rcases List.eq_nil_or_concat since with rfl | ⟨since, last, rfl⟩
        · obtain ⟨rfl, hlast⟩ := List.append_inj' htrace rfl
          cases hlast
          exact .inl ⟨⟨clock, rfl⟩, hvalues⟩
        · rw [List.concat_eq_append, ← List.cons_append, ← List.append_assoc] at htrace
          obtain ⟨rfl, hlast⟩ := List.append_inj' htrace rfl
          cases hlast
          refine .inr ⟨hsince event (by simp), before, clock, since, rfl, ?_, hvalues⟩
          intro e he
          exact hsince e (by simp [he])
      · rintro (⟨⟨clock, rfl⟩, hvalues⟩ | ⟨hevent, before, clock, since, rfl, hsince, hvalues⟩)
        · exact ⟨trace, clock, [], rfl, by simp, hvalues⟩
        · refine ⟨before, clock, since ++ [event], by simp, ?_, hvalues⟩
          intro e he
          rcases List.mem_append.mp he with he | he
          · exact hsince e he
          · rw [List.mem_singleton.mp he]
            exact hevent
    rw [hsplit, after_snoc]
    cases event with
    | registerWrite reg value => simp [commit]
    | nonSilentStore => simp [commit]
    | bct e clock =>
      by_cases heq : eip = e
      · subst heq
        simp [commit]
      · have hne : e ≠ eip := fun h => heq h.symm
        simp [commit, heq, hne]

theorem spinsAt_iff : SpinsAt values trace eip ↔
    ∃ old, (after values trace).executed eip = some old ∧
      ∀ reg, old reg = (after values trace).values reg := by
  simp only [executed_iff]
  constructor
  · rintro ⟨before, clock, since, htrace, hsince, hsame⟩
    exact ⟨_, ⟨before, clock, since, htrace, hsince, rfl⟩, hsame⟩
  · rintro ⟨_, ⟨before, clock, since, htrace, hsince, rfl⟩, hsame⟩
    exact ⟨before, clock, since, htrace, hsince, hsame⟩

end Traces

/-- Where a register differs from what it was when a candidate was last executed, the buffer has the
register with the candidate's bit. The ids are the last ones given out. -/
structure Tracks (t : SpinThread) : Prop where
  length_le : t.detector.sdt.length ≤ sdtMaxSize
  numbered : ∀ k entry, t.detector.sdt[k]? = some entry →
    (entry.id.val + (t.detector.sdt.length - k)) % sdtMaxSize = t.detector.sdtNextId.val
  valid : ∀ entry ∈ t.detector.sdt, hasBit t.detector.sdtBitmask entry.id = true
  executed : ∀ entry ∈ t.detector.sdt, ∃ old, t.executed entry.eip = some old
  noted : ∀ entry ∈ t.detector.sdt, ∀ old, t.executed entry.eip = some old →
    ∀ reg, old reg ≠ t.values reg →
      ∃ saved ∈ t.detector.rub, saved.reg = reg ∧ hasBit saved.mask entry.id = true

namespace Tracks

variable {t : SpinThread}

theorem start (values : Reg → RegValue) : (start values).Tracks where
  length_le := Nat.zero_le _
  numbered k entry h := by cases h
  valid entry h := by cases h
  executed entry h := by cases h
  noted entry h := by cases h

/-- Two candidates have different ids, also where an id was given out again. -/
theorem eq_of_id (h : t.Tracks) {entry entry' : SdtEntry} (hentry : entry ∈ t.detector.sdt)
    (hentry' : entry' ∈ t.detector.sdt) (hid : entry.id = entry'.id) : entry = entry' := by
  obtain ⟨k, hk⟩ := List.mem_iff_getElem?.mp hentry
  obtain ⟨k', hk'⟩ := List.mem_iff_getElem?.mp hentry'
  have hnumber := h.numbered k entry hk
  have hnumber' := h.numbered k' entry' hk'
  have hlt := (List.getElem?_eq_some_iff.mp hk).1
  have hlt' := (List.getElem?_eq_some_iff.mp hk').1
  have hle := h.length_le
  rw [hid] at hnumber
  obtain rfl : k = k' := by
    simp only [sdtMaxSize] at *
    omega
  exact Option.some.inj (hk.symm.trans hk')

theorem store (t : SpinThread) : (t.commit .nonSilentStore).Tracks where
  length_le := Nat.zero_le _
  numbered k entry hk := by cases hk
  valid entry he := by cases he
  executed entry he := by cases he
  noted entry he := by cases he

end Tracks

section Write

variable {d : SpinLoopDetector} {reg : Reg} {oldValue value : RegValue}

/-- A write changes nothing but the buffer. -/
theorem commitRegisterWrite_rub : ∃ rub,
    d.commitRegisterWrite reg oldValue value = { d with rub := rub } ∧
      ∀ entry ∈ d.rub, entry.reg ≠ reg → entry ∈ rub := by
  rw [SpinLoopDetector.commitRegisterWrite]
  split
  · split
    · exact ⟨_, rfl, fun entry hentry _ => List.mem_cons_of_mem _ hentry⟩
    · exact ⟨d.rub, rfl, fun entry hentry _ => hentry⟩
  · split
    · refine ⟨_, rfl, fun entry hentry hreg => List.mem_filter.mpr ⟨hentry, ?_⟩⟩
      exact decide_eq_true hreg
    · split
      · exact ⟨_, rfl, fun entry hentry hreg => List.mem_map.mpr ⟨entry, hentry, if_neg hreg⟩⟩
      · exact ⟨d.rub, rfl, fun entry hentry _ => hentry⟩

theorem lookup_some {saved : RubEntry} (h : d.lookup reg = some saved) :
    saved ∈ d.rub ∧ saved.reg = reg :=
  ⟨List.mem_of_find?_eq_some h, by simpa using List.find?_some h⟩

/-- After a write that deletes nothing, the register has the bits of all candidates if its value is
new, and the bits it had if not. -/
theorem commitRegisterWrite_marks {entry : SdtEntry} (hvalid : hasBit d.sdtBitmask entry.id = true)
    (hkeep : ∀ saved, d.lookup reg = some saved → value ≠ saved.value)
    (hold : value = oldValue → ∃ saved ∈ d.rub, saved.reg = reg ∧ hasBit saved.mask entry.id = true) :
    ∃ saved ∈ (d.commitRegisterWrite reg oldValue value).rub,
      saved.reg = reg ∧ hasBit saved.mask entry.id = true := by
  cases hlookup : d.lookup reg with
  | none =>
    simp only [SpinLoopDetector.commitRegisterWrite, hlookup]
    split
    · exact ⟨_, List.mem_cons_self, rfl, hvalid⟩
    · next hsame => exact hold (not_not.mp hsame)
  | some saved =>
    obtain ⟨hmem, hreg⟩ := lookup_some hlookup
    simp only [SpinLoopDetector.commitRegisterWrite, hlookup, if_neg (hkeep saved hlookup)]
    split
    · refine ⟨_, List.mem_map.mpr ⟨saved, hmem, rfl⟩, ?_⟩
      simp [hreg, hvalid]
    · next hsame => exact hold (not_not.mp hsame)

end Write

namespace Tracks

variable {t : SpinThread}

theorem write (h : t.Tracks) {reg : Reg} {value : RegValue}
    (hok : t.Restores (.registerWrite reg value)) :
    (t.commit (.registerWrite reg value)).Tracks := by
  obtain ⟨rub, hrub, hother⟩ :=
    @commitRegisterWrite_rub t.detector reg (t.values reg) value
  have hdetector : (t.commit (.registerWrite reg value)).detector = { t.detector with rub := rub } :=
    hrub
  have hmarks := @commitRegisterWrite_marks t.detector reg (t.values reg) value
  rw [hrub] at hmarks
  constructor
  all_goals rw [hdetector]
  · exact h.length_le
  · exact h.numbered
  · exact h.valid
  · exact h.executed
  · intro entry hentry old hold r hdiffers
    change old r ≠ if r = reg then value else t.values r at hdiffers
    by_cases hreg : r = reg
    · subst hreg
      rw [if_pos rfl] at hdiffers
      refine hmarks (h.valid entry hentry) ?_ ?_
      · intro saved hlookup hsaved
        exact hdiffers (hok saved hlookup hsaved entry hentry old hold)
      · intro hsame
        rw [hsame] at hdiffers
        exact h.noted entry hentry old hold r hdiffers
    · rw [if_neg hreg] at hdiffers
      obtain ⟨saved, hsaved, hsavedReg, hbit⟩ := h.noted entry hentry old hold r hdiffers
      exact ⟨saved, hother saved hsaved (by rw [hsavedReg]; exact hreg), hsavedReg, hbit⟩

theorem find_some {d : SpinLoopDetector} {eip : Eip} {entry : SdtEntry}
    (hfind : d.find eip = some entry) : entry ∈ d.sdt ∧ entry.eip = eip :=
  ⟨List.mem_of_find?_eq_some hfind, by simpa using List.find?_some hfind⟩

theorem find_none {d : SpinLoopDetector} {eip : Eip} (hfind : d.find eip = none) :
    ∀ entry ∈ d.sdt, entry.eip ≠ eip := by
  intro entry hentry heip
  have hnone := List.find?_eq_none.mp hfind entry hentry
  simp [heip] at hnone

/-- The next id is the id of a candidate, and one more for each candidate since. -/
theorem numbered_push (h : t.Tracks) {entry : SdtEntry} (hid : entry.id = t.detector.sdtNextId)
    (k : Nat) (e : SdtEntry) (hk : (t.detector.sdt ++ [entry])[k]? = some e) :
    (e.id.val + ((t.detector.sdt ++ [entry]).length - k)) % sdtMaxSize =
      (t.detector.sdtNextId + 1).val := by
  have hnext : (t.detector.sdtNextId + 1).val = (t.detector.sdtNextId.val + 1) % 16 :=
    Fin.val_add _ _
  have hlength : (t.detector.sdt ++ [entry]).length = t.detector.sdt.length + 1 := by simp
  rw [hnext, hlength]
  by_cases hlt : k < t.detector.sdt.length
  · rw [List.getElem?_append_left hlt] at hk
    have hold := h.numbered k e hk
    simp only [sdtMaxSize] at *
    omega
  · rw [List.getElem?_append_right (Nat.le_of_not_lt hlt)] at hk
    obtain ⟨hlast, he⟩ := List.getElem?_eq_some_iff.mp hk
    have hpos : k = t.detector.sdt.length := by
      rw [List.length_singleton] at hlast
      omega
    subst hpos
    simp only [Nat.sub_self, List.getElem_cons_zero] at he
    rw [← he, hid, Nat.add_sub_cancel_left]

/-- A new candidate starts with the registers as they are. -/
theorem newCandidate (h : t.Tracks) {eip : Eip} (clock : Clock)
    (hfind : t.detector.find eip = none) : (t.commit (.bct eip clock)).Tracks := by
  have hdetector : (t.commit (.bct eip clock)).detector = t.detector.addCandidate eip clock := by
    simp only [commit, SpinLoopDetector.commitBCT, hfind]
  have hle := h.length_le
  have hmem : ∀ entry ∈ (t.detector.addCandidate eip clock).sdt, entry.eip = eip ∨
      entry.eip ≠ eip ∧ entry ∈ t.detector.sdt := by
    intro entry hentry
    have hpushed : entry ∈ t.detector.sdt ++
        [⟨eip, t.detector.sdtNextId, clock.instructionCount, clock.elapsedTime⟩] := by
      simp only [SpinLoopDetector.addCandidate] at hentry
      split at hentry
      · exact List.mem_of_mem_tail hentry
      · exact hentry
    rcases List.mem_append.mp hpushed with hold | hnew
    · exact .inr ⟨find_none hfind entry hold, hold⟩
    · exact .inl (by rw [List.mem_singleton.mp hnew])
  constructor
  all_goals rw [hdetector]
  · simp only [SpinLoopDetector.addCandidate]
    split
    · rw [List.length_tail, List.length_append]
      exact Nat.le_trans (Nat.le_of_eq (Nat.add_sub_cancel _ 1)) hle
    · omega
  · intro k entry hk
    simp only [SpinLoopDetector.addCandidate] at hk ⊢
    split at hk
    · next hfull =>
      rw [if_pos hfull, List.length_tail, Nat.sub_sub, Nat.add_comm 1 k]
      rw [List.getElem?_tail] at hk
      exact h.numbered_push rfl (k + 1) entry hk
    · next hroom =>
      rw [if_neg hroom]
      exact h.numbered_push rfl k entry hk
  · intro entry hentry
    exact hasBit_validIds hentry
  · intro entry hentry
    change ∃ old, (if entry.eip = eip then some t.values else t.executed entry.eip) = some old
    rcases hmem entry hentry with heip | ⟨heip, hold⟩
    · exact ⟨t.values, if_pos heip⟩
    · rw [if_neg heip]
      exact h.executed entry hold
  · intro entry hentry old hold reg hdiffers
    change (if entry.eip = eip then some t.values else t.executed entry.eip) = some old at hold
    change old reg ≠ t.values reg at hdiffers
    rcases hmem entry hentry with heip | ⟨heip, hmemOld⟩
    · rw [if_pos heip] at hold
      cases hold
      exact absurd rfl hdiffers
    · rw [if_neg heip] at hold
      exact h.noted entry hmemOld old hold reg hdiffers

/-- A known candidate starts over: its bit leaves the buffer, the bits of the others stay. -/
theorem knownCandidate (h : t.Tracks) {eip : Eip} (clock : Clock) {found : SdtEntry}
    (hfind : t.detector.find eip = some found) : (t.commit (.bct eip clock)).Tracks := by
  obtain ⟨hfound, hfoundEip⟩ := find_some hfind
  have hdetector : (t.commit (.bct eip clock)).detector = { t.detector with
      rub := t.detector.rub.map (SpinLoopDetector.resetMask found.id)
      sdt := t.detector.sdt.map fun e =>
        if e.eip = eip then SpinLoopDetector.recount clock e else e } := by
    simp only [commit, SpinLoopDetector.commitBCT, hfind]
  have hsame : ∀ e : SdtEntry,
      (if e.eip = eip then SpinLoopDetector.recount clock e else e).eip = e.eip ∧
        (if e.eip = eip then SpinLoopDetector.recount clock e else e).id = e.id := by
    intro e
    split
    · exact ⟨rfl, rfl⟩
    · exact ⟨rfl, rfl⟩
  constructor
  all_goals rw [hdetector]
  · simpa using h.length_le
  · intro k entry hk
    simp only [List.getElem?_map, List.length_map] at hk ⊢
    obtain ⟨e, he, rfl⟩ := Option.map_eq_some_iff.mp hk
    rw [(hsame e).2]
    exact h.numbered k e he
  · intro entry hentry
    obtain ⟨e, he, rfl⟩ := List.mem_map.mp hentry
    rw [(hsame e).2]
    exact h.valid e he
  · intro entry hentry
    obtain ⟨e, he, rfl⟩ := List.mem_map.mp hentry
    rw [(hsame e).1]
    change ∃ old, (if e.eip = eip then some t.values else t.executed e.eip) = some old
    split
    · exact ⟨_, rfl⟩
    · exact h.executed e he
  · intro entry hentry old hold reg hdiffers
    obtain ⟨e, he, rfl⟩ := List.mem_map.mp hentry
    rw [(hsame e).1] at hold
    rw [(hsame e).2]
    change (if e.eip = eip then some t.values else t.executed e.eip) = some old at hold
    change old reg ≠ t.values reg at hdiffers
    by_cases heip : e.eip = eip
    · rw [if_pos heip] at hold
      cases hold
      exact absurd rfl hdiffers
    · rw [if_neg heip] at hold
      have hne : found.id ≠ e.id := by
        intro hid
        exact heip (by rw [← h.eq_of_id hfound he hid, hfoundEip])
      obtain ⟨saved, hsaved, hreg, hbit⟩ := h.noted e he old hold reg hdiffers
      refine ⟨_, List.mem_map_of_mem hsaved, ?_, ?_⟩
      · rw [reg_resetMask, hreg]
      · rw [hasBit_resetMask saved hne, hbit]

theorem commit (h : t.Tracks) {event : SpinEvent} (hok : t.Restores event) :
    (t.commit event).Tracks := by
  cases event with
  | registerWrite reg value => exact h.write hok
  | nonSilentStore => exact store t
  | bct eip clock =>
    cases hfind : t.detector.find eip with
    | none => exact h.newCandidate clock hfind
    | some found => exact h.knownCandidate clock hfind

theorem after {values : Reg → RegValue} {trace : List SpinEvent}
    (hok : RestoresAlong values trace) : (after values trace).Tracks := by
  induction trace using List.reverseRecOn with
  | nil => exact start values
  | append_singleton trace event ih =>
    rw [after_snoc]
    refine (ih ?_).commit (hok trace event [] rfl)
    intro before e since htrace
    exact hok before e (since ++ [event]) (by simp [htrace])

/-- Spinning is reported of a candidate that was executed with the registers as they are. -/
theorem reported (h : t.Tracks) {eip : Eip} {clock : Clock} {report : SpinReport}
    (hreport : (t.detector.commitBCT eip clock).2 = some report) :
    ∃ old, t.executed eip = some old ∧ ∀ reg, old reg = t.values reg := by
  cases hfind : t.detector.find eip with
  | none => simp [SpinLoopDetector.commitBCT, hfind] at hreport
  | some found =>
    obtain ⟨hfound, heip⟩ := find_some hfind
    obtain ⟨old, hold⟩ := h.executed found hfound
    have hsame : t.detector.differs found.id = false := by
      simp only [SpinLoopDetector.commitBCT, hfind] at hreport
      split at hreport
      · cases hreport
      · next hdiffers => exact Bool.eq_false_iff.mpr hdiffers
    refine ⟨old, by rw [← heip, hold], ?_⟩
    intro reg
    by_contra hne
    obtain ⟨saved, hsaved, _, hbit⟩ := h.noted found hfound old hold reg hne
    have hdiffers : t.detector.differs found.id = true :=
      List.any_eq_true.mpr ⟨saved, hsaved, decide_eq_true (and_idBit_ne_zero.mpr hbit)⟩
    rw [hsame] at hdiffers
    cases hdiffers

end Tracks

/-- A report of spinning is right in every trace where a write deletes a register from the buffer
only if it restores it for all candidates. -/
theorem commitBCT_sound {values : Reg → RegValue} {trace : List SpinEvent}
    (hok : RestoresAlong values trace) {eip : Eip} {clock : Clock} {report : SpinReport}
    (hreport : ((after values trace).detector.commitBCT eip clock).2 = some report) :
    SpinsAt values trace eip :=
  spinsAt_iff.mpr ((Tracks.after hok).reported hreport)

/-- A loop that reads a flag into a register, which has its value already. -/
def waitingLoop : List SpinEvent :=
  [.registerWrite 3 1, .bct 64 ⟨2, 20⟩, .registerWrite 3 1]

theorem waitingLoop_restores : RestoresAlong (fun _ => 0) waitingLoop := by
  intro before event since htrace
  match before with
  | [] =>
    cases htrace
    intro saved hlookup
    cases hlookup
  | [_] =>
    cases htrace
    trivial
  | [_, _] =>
    cases htrace
    intro saved hlookup hvalue
    cases hlookup
    exact absurd hvalue (by decide)
  | [_, _, _] => cases htrace
  | _ :: _ :: _ :: _ :: _ => cases htrace

theorem commitBCT_sound_waitingLoop : SpinsAt (fun _ => 0) waitingLoop 64 :=
  @commitBCT_sound _ _ waitingLoop_restores 64 ⟨4, 40⟩ ⟨2, 20⟩ rfl

/-- A loop that turns a flag on and off in a register. -/
def togglingLoop : List SpinEvent :=
  [.bct 64 ⟨1, 10⟩, .registerWrite 3 1, .bct 64 ⟨3, 30⟩, .registerWrite 3 0]

/-- The buffer has the value of before the first turn, to which the second turn goes back. -/
theorem togglingLoop_reported :
    ((after (fun _ => 0) togglingLoop).detector.commitBCT 64 ⟨5, 50⟩).2 = some ⟨2, 20⟩ ∧
      ¬ SpinsAt (fun _ => 0) togglingLoop 64 := by
  refine ⟨rfl, ?_⟩
  rw [spinsAt_iff]
  rintro ⟨old, hold, hsame⟩
  have hflag := hsame 3
  cases hold
  exact absurd hflag (by decide)

end SpinThread

end Sniper.Misc
