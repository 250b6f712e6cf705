import Sniper.Lib.Machine
import Sniper.Coherence.Directory
import Sniper.Coherence.LastLevel
set_option autoImplicit false

namespace Sniper.Coherence

open Sniper.Lib

/-- One address: the last-level caches, the home directory, the DRAM node and the messages
in flight, in order for each pair of sender and receiver. `latest` is what the most recent
store wrote. -/
structure Sys (D : Type) (n : Nat) where
  cache : Fin n → Cache D
  toDir : Fin n → List (ShmemMsg D)
  toCache : Fin n → List (ShmemMsg D)
  dir : DramDirectory D n
  toDram : List (ShmemMsg D)
  fromDram : List (ShmemMsg D)
  dram : D
  latest : D

inductive Action (D : Type) (n : Nat) where
  | read (c : Fin n)
  | write (c : Fin n)
  | store (c : Fin n) (data : D)
  | evict (c : Fin n)
  | finishWaiter (c : Fin n)
  | deliverToCache (c : Fin n) (unwritten : D)
  | deliverToDir (c : Fin n) (ch : Choice D n)
  | accessDram
  | deliverFromDram (ch : Choice D n)
  | nullify (requester : Fin n) (ch : Choice D n)

namespace Sys

variable {D : Type} {n : Nat}

def init (data : D) : Sys D n where
  cache _ := ⟨.invalid, data, [], false⟩
  toDir _ := []
  toCache _ := []
  dir := ⟨none, [], []⟩
  toDram := []
  fromDram := []
  dram := data
  latest := data

/-- A step of one cache: its messages join the channel to the directory. -/
def cacheStep (s : Sys D n) (c : Fin n) (result : CacheStep D) :
    Except Fault (Sys D n × List (Event D n)) :=
  match result with
  | .error fault => .error fault
  | .ok (cache, sent) =>
    .ok ({ s with
      cache := Function.update s.cache c cache
      toDir := Function.update s.toDir c (s.toDir c ++ sent) }, [])

/-- A step of the directory: the messages in its log join their channels. -/
def dirStep (s : Sys D n) (result : Except Fault (DramDirectory D n)) :
    Except Fault (Sys D n × List (Event D n)) :=
  match result with
  | .error fault => .error fault
  | .ok dir =>
    .ok ({ s with
      dir := { dir with log := [] }
      toCache := fun c => s.toCache c ++ sentTo c dir.log
      toDram := s.toDram ++ sentToDram dir.log }, dir.log)

def popToCache (s : Sys D n) (c : Fin n) (rest : List (ShmemMsg D)) : Sys D n :=
  { s with toCache := Function.update s.toCache c rest }

def popToDir (s : Sys D n) (c : Fin n) (rest : List (ShmemMsg D)) : Sys D n :=
  { s with toDir := Function.update s.toDir c rest }

/-- The DRAM node: a write is stored, a read is answered with what is stored. -/
def accessDram (s : Sys D n) : Except Fault (Sys D n × List (Event D n)) :=
  match s.toDram with
  | [] => .error .notEnabled
  | msg :: rest =>
    match msg.msgType with
    | .dramReadReq =>
      .ok ({ s with toDram := rest, fromDram := s.fromDram ++ [⟨.dramReadRep, some s.dram⟩] }, [])
    | .dramWriteReq => .ok ({ s with toDram := rest, dram := msg.dataBuf.getD s.dram }, [])
    | _ => .error .unrecognizedMsg

end Sys

variable {D : Type} {n : Nat}

def step (cfg : Config) (s : Sys D n) : Action D n → Except Fault (Sys D n × List (Event D n))
  | .read c => s.cacheStep c (s.cache c).read
  | .write c => s.cacheStep c (s.cache c).write
  | .store c data => { s with latest := data }.cacheStep c ((s.cache c).store data)
  | .evict c => s.cacheStep c (s.cache c).evict
  | .finishWaiter c => s.cacheStep c (s.cache c).finishWaiter
  | .deliverToCache c unwritten =>
    -- the waiter that was woken holds the lock of the line
    if (s.cache c).serving then .error .notEnabled
    else
      match s.toCache c with
      | [] => .error .notEnabled
      | msg :: rest =>
        (s.popToCache c rest).cacheStep c ((s.cache c).handleMsgFromDramDirectory msg unwritten)
  | .deliverToDir c ch =>
    match s.toDir c with
    | [] => .error .notEnabled
    | msg :: rest => (s.popToDir c rest).dirStep (handleMsgFromL2Cache cfg ch c msg s.dir)
  | .accessDram => s.accessDram
  | .deliverFromDram ch =>
    match s.fromDram with
    | [] => .error .notEnabled
    | msg :: rest =>
      { s with fromDram := rest }.dirStep (handleMsgFromDRAM cfg ch msg s.dir)
  | .nullify requester ch => s.dirStep (nullify cfg ch requester s.dir)

/-- The accesses of a core and the evictions of its cache: they read no channel. -/
def Action.isAccess : Action D n → Bool
  | .read _ | .write _ | .store _ _ | .evict _ | .finishWaiter _ => true
  | .deliverToCache _ _ | .deliverToDir _ _ | .accessDram | .deliverFromDram _ | .nullify _ _ => false

/-- The system after the directory's part of a step. -/
def Sys.afterDir (s : Sys D n) (dir : DramDirectory D n) : Sys D n :=
  { s with
    dir := { dir with log := [] }
    toCache := fun c => s.toCache c ++ sentTo c dir.log
    toDram := s.toDram ++ sentToDram dir.log }

/-- What a step of a cache leaves as it was. -/
structure OfCache (s s' : Sys D n) (c : Fin n) (sent : List (ShmemMsg D)) : Prop where
  dir : s'.dir = s.dir
  toDir : s'.toDir = Function.update s.toDir c (s.toDir c ++ sent)
  toDram : s'.toDram = s.toDram
  fromDram : s'.fromDram = s.fromDram

/-- The kinds of a step. -/
inductive StepCase (cfg : Config) (s s' : Sys D n) : List (Event D n) → Action D n → Prop where
  | access {a : Action D n} {c : Fin n} {sent : List (ShmemMsg D)} :
      a.isAccess = true → OfCache s s' c sent → s'.toCache = s.toCache → StepCase cfg s s' [] a
  | toCache {c : Fin n} {unwritten : D} {msg : ShmemMsg D} {rest sent : List (ShmemMsg D)} :
      s.toCache c = msg :: rest → OfCache s s' c sent →
      s'.toCache = Function.update s.toCache c rest →
      StepCase cfg s s' [] (.deliverToCache c unwritten)
  | toDir {c : Fin n} {ch : Choice D n} {msg : ShmemMsg D} {rest : List (ShmemMsg D)}
      {dir : DramDirectory D n} : s.toDir c = msg :: rest →
      handleMsgFromL2Cache cfg ch c msg s.dir = .ok dir → s' = (s.popToDir c rest).afterDir dir →
      StepCase cfg s s' dir.log (.deliverToDir c ch)
  | dram : s.accessDram = .ok (s', []) → StepCase cfg s s' [] .accessDram
  | fromDram {ch : Choice D n} {msg : ShmemMsg D} {rest : List (ShmemMsg D)}
      {dir : DramDirectory D n} : s.fromDram = msg :: rest →
      handleMsgFromDRAM cfg ch msg s.dir = .ok dir →
      s' = ({ s with fromDram := rest } : Sys D n).afterDir dir →
      StepCase cfg s s' dir.log (.deliverFromDram ch)
  | nullify {requester : Fin n} {ch : Choice D n} {dir : DramDirectory D n} :
      Sniper.Coherence.nullify cfg ch requester s.dir = .ok dir → s' = s.afterDir dir →
      StepCase cfg s s' dir.log (.nullify requester ch)

theorem dirStep_ok {s s' : Sys D n} {result : Except Fault (DramDirectory D n)}
    {o : List (Event D n)} (hr : s.dirStep result = .ok (s', o)) :
    ∃ dir, result = .ok dir ∧ o = dir.log ∧ s' = s.afterDir dir := by
  unfold Sys.dirStep at hr
  split at hr
  · cases hr
  · rename_i dir
    cases hr
    exact ⟨dir, rfl, rfl, rfl⟩

theorem cacheStep_ok {s s' : Sys D n} {c : Fin n} {result : CacheStep D} {o : List (Event D n)}
    (hr : s.cacheStep c result = .ok (s', o)) :
    o = [] ∧ s'.toCache = s.toCache ∧ ∃ sent, OfCache s s' c sent := by
  unfold Sys.cacheStep at hr
  split at hr
  · cases hr
  · rename_i cache sent
    cases hr
    exact ⟨rfl, rfl, sent, rfl, rfl, rfl, rfl⟩

theorem stepCase {cfg : Config} {s s' : Sys D n} {a : Action D n} {o : List (Event D n)}
    (hr : step cfg s a = .ok (s', o)) : StepCase cfg s s' o a := by
  have haccess : ∀ {c : Fin n} {result : CacheStep D}, a.isAccess = true →
      s.cacheStep c result = .ok (s', o) → StepCase cfg s s' o a := by
    intro c result ha hres
    obtain ⟨rfl, hsame, sent, hof⟩ := cacheStep_ok hres
    exact .access ha hof hsame
  cases a with
  | read c => exact haccess rfl hr
  | write c => exact haccess rfl hr
  | store c data =>
    obtain ⟨rfl, hsame, sent, hof⟩ := cacheStep_ok hr
    exact .access rfl ⟨hof.dir, hof.toDir, hof.toDram, hof.fromDram⟩ hsame
  | evict c => exact haccess rfl hr
  | finishWaiter c => exact haccess rfl hr
  | deliverToCache c unwritten =>
    simp only [step] at hr
    split at hr
    · cases hr
    split at hr
    · cases hr
    · rename_i msg rest hdn
      obtain ⟨rfl, hsame, sent, hof⟩ := cacheStep_ok hr
      exact .toCache hdn ⟨hof.dir, hof.toDir, hof.toDram, hof.fromDram⟩ hsame
  | deliverToDir c ch =>
    simp only [step] at hr
    split at hr
    · cases hr
    · rename_i msg rest hup
      obtain ⟨dir, hres, rfl, rfl⟩ := dirStep_ok hr
      exact .toDir hup hres rfl
  | accessDram =>
    have ho : o = [] := by
      simp only [step, Sys.accessDram] at hr
      grind
    subst ho
    exact .dram hr
  | deliverFromDram ch =>
    simp only [step] at hr
    split at hr
    · cases hr
    · rename_i msg rest hfrom
      obtain ⟨dir, hres, rfl, rfl⟩ := dirStep_ok hr
      exact .fromDram hfrom hres rfl
  | nullify requester ch =>
    obtain ⟨dir, hres, rfl, rfl⟩ := dirStep_ok hr
    exact .nullify hres rfl

/-- The coherence system of one address, from empty caches and any DRAM contents. -/
def machine (D : Type) (n : Nat) (cfg : Config) :
    Machine (Sys D n) (Action D n) (List (Event D n)) where
  init s := ∃ data, s = .init data
  step s a o s' := step cfg s a = .ok (s', o)

/-- Runs a list of actions. -/
def execute (cfg : Config) (s : Sys D n) : List (Action D n) → Except Fault (Sys D n)
  | [] => .ok s
  | a :: as =>
    match step cfg s a with
    | .error fault => .error fault
    | .ok (s', _) => execute cfg s' as

end Sniper.Coherence
