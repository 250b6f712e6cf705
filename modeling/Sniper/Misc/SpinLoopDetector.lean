import Sniper.Timing.SubsecondTime
set_option autoImplicit false

/-! The spin loop detector of a thread: its candidate loops, and the registers that differ. -/

namespace Sniper.Misc
open Sniper.Timing

/-- `reg_t` -/
abbrev Reg := UInt16

abbrev RegValue := UInt64

abbrev Eip := UInt64

/-- `SDT_MAX_SIZE` -/
abbrev sdtMaxSize : Nat := 16

structure SdtEntry where
  eip : Eip
  id : Fin sdtMaxSize
  icount : UInt64
  tcount : SubsecondTime
  deriving DecidableEq

/-- A register in the register update buffer, with the value it had and the candidates it differs for. -/
structure RubEntry where
  reg : Reg
  value : RegValue
  mask : BitVec 16
  deriving DecidableEq

/-- What the core says at a call. -/
structure Clock where
  instructionCount : UInt64
  elapsedTime : SubsecondTime
  deriving DecidableEq

/-- The arguments of `updateSpinCount`. -/
structure SpinReport where
  instructions : UInt64
  elapsed : SubsecondTime
  deriving DecidableEq

/-- The oldest candidate first. The map of the buffer is the list of its entries. -/
structure SpinLoopDetector where
  rub : List RubEntry
  sdt : List SdtEntry
  sdtBitmask : BitVec 16
  sdtNextId : Fin sdtMaxSize
  deriving DecidableEq

/-- `1 << id` -/
def idBit (id : Fin sdtMaxSize) : BitVec 16 := 1#16 <<< id.val

namespace SpinLoopDetector

def init : SpinLoopDetector := ⟨[], [], 0, 0⟩

def find (d : SpinLoopDetector) (eip : Eip) : Option SdtEntry :=
  d.sdt.find? fun entry => entry.eip = eip

/-- The mask is not shortened when a store clears the table. -/
def validIds (sdt : List SdtEntry) : BitVec 16 :=
  sdt.foldl (fun mask entry => mask ||| idBit entry.id) 0

/-- An unknown candidate takes the next id, and the oldest of too many leaves. -/
def addCandidate (d : SpinLoopDetector) (eip : Eip) (clock : Clock) : SpinLoopDetector :=
  let pushed := d.sdt ++ [⟨eip, d.sdtNextId, clock.instructionCount, clock.elapsedTime⟩]
  let sdt := if sdtMaxSize < pushed.length then pushed.tail else pushed
  { d with
    sdt := sdt
    sdtBitmask := validIds sdt
    sdtNextId := d.sdtNextId + 1 }

def differs (d : SpinLoopDetector) (id : Fin sdtMaxSize) : Bool :=
  d.rub.any fun entry => entry.mask &&& idBit id ≠ 0

def resetMask (id : Fin sdtMaxSize) (entry : RubEntry) : RubEntry :=
  if entry.mask &&& idBit id ≠ 0 then { entry with mask := entry.mask &&& ~~~idBit id } else entry

def recount (clock : Clock) (entry : SdtEntry) : SdtEntry :=
  { entry with icount := clock.instructionCount, tcount := clock.elapsedTime }

/-- A backward control transfer, with the spinning it reports. -/
def commitBCT (d : SpinLoopDetector) (eip : Eip) (clock : Clock) :
    SpinLoopDetector × Option SpinReport :=
  match d.find eip with
  | none => (d.addCandidate eip clock, none)
  | some entry =>
    ({ d with
        rub := d.rub.map (resetMask entry.id)
        sdt := d.sdt.map fun e => if e.eip = eip then recount clock e else e },
      if d.differs entry.id then none
      else some ⟨clock.instructionCount - entry.icount, clock.elapsedTime - entry.tcount⟩)

/-- The mask of valid ids stays as it is. -/
def commitNonSilentStore (d : SpinLoopDetector) : SpinLoopDetector :=
  { d with sdt := [], rub := [] }

def lookup (d : SpinLoopDetector) (reg : Reg) : Option RubEntry :=
  d.rub.find? fun entry => entry.reg = reg

def commitRegisterWrite (d : SpinLoopDetector) (reg : Reg) (oldValue value : RegValue) :
    SpinLoopDetector :=
  match d.lookup reg with
  | none =>
    if value ≠ oldValue then { d with rub := ⟨reg, oldValue, d.sdtBitmask⟩ :: d.rub } else d
  | some saved =>
    if value = saved.value then { d with rub := d.rub.filter fun entry => entry.reg ≠ reg }
    else if value ≠ oldValue then
      { d with rub := d.rub.map fun entry =>
          if entry.reg = reg then { entry with mask := entry.mask ||| d.sdtBitmask } else entry }
    else d

end SpinLoopDetector

/-- What a thread commits. A write has the value that the register had before it. -/
inductive SpinEvent where
  | registerWrite (reg : Reg) (value : RegValue)
  | nonSilentStore
  | bct (eip : Eip) (clock : Clock)
  deriving DecidableEq

/-- A thread with its registers and its detector. For each backward control transfer since the last
non-silent store, `executed` has the registers at its last execution. -/
structure SpinThread where
  values : Reg → RegValue
  executed : Eip → Option (Reg → RegValue)
  detector : SpinLoopDetector

namespace SpinThread

def start (values : Reg → RegValue) : SpinThread := ⟨values, fun _ => none, .init⟩

def commit (t : SpinThread) : SpinEvent → SpinThread
  | .registerWrite reg value =>
    { t with
      values := fun r => if r = reg then value else t.values r
      detector := t.detector.commitRegisterWrite reg (t.values reg) value }
  | .nonSilentStore =>
    { t with executed := fun _ => none, detector := t.detector.commitNonSilentStore }
  | .bct eip clock =>
    { t with
      executed := fun e => if e = eip then some t.values else t.executed e
      detector := (t.detector.commitBCT eip clock).1 }

/-- The thread after a trace of events. -/
def after (values : Reg → RegValue) (trace : List SpinEvent) : SpinThread :=
  trace.foldl commit (start values)

/-- The control transfer was executed before; since then there was no store that is not silent,
and the registers have the values they had. -/
def SpinsAt (values : Reg → RegValue) (trace : List SpinEvent) (eip : Eip) : Prop :=
  ∃ before clock since, trace = before ++ .bct eip clock :: since ∧
    (∀ event ∈ since, event ≠ .nonSilentStore ∧ ∀ clock', event ≠ .bct eip clock') ∧
    ∀ reg, (after values before).values reg = (after values trace).values reg

/-- A register gets back the value that the buffer has of it only where every candidate was last
executed with that value. -/
def Restores (t : SpinThread) : SpinEvent → Prop
  | .registerWrite reg value =>
    ∀ saved, t.detector.lookup reg = some saved → value = saved.value →
      ∀ entry ∈ t.detector.sdt, ∀ old, t.executed entry.eip = some old → old reg = value
  | _ => True

/-- Every write of the trace that deletes a register from the buffer restores it for all candidates. -/
def RestoresAlong (values : Reg → RegValue) (trace : List SpinEvent) : Prop :=
  ∀ before event since, trace = before ++ event :: since → (after values before).Restores event

end SpinThread

end Sniper.Misc
