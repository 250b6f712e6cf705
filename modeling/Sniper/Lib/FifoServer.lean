import Mathlib.Data.List.Forall2
set_option autoImplicit false

namespace Sniper.Lib

/-- What a server of a queue of requests `κ` does, replies being of type `ρ`. -/
inductive ServerEvent (κ ρ : Type) where
  | enqueue (req : κ)
  | dispatch (req : κ)
  | answer (reply : ρ)
  | dequeue (req : κ)

/-- How far the request at the head has come. -/
inductive Phase where
  | waiting | serving | answered
deriving DecidableEq

structure Server (κ : Type) where
  queue : List κ
  phase : Phase

namespace Server

variable {κ ρ : Type} [DecidableEq κ]

/-- The discipline: requests are served one at a time in the order of arrival, each is
dispatched once, then answered once (unless it is `silent`), then retired. -/
def accept (answers : κ → ρ → Bool) (silent : κ → Bool) (st : Server κ) :
    ServerEvent κ ρ → Option (Server κ)
  | .enqueue req => some { st with queue := st.queue ++ [req] }
  | .dispatch req =>
    if st.queue.head? = some req ∧ st.phase = .waiting then some { st with phase := .serving }
    else none
  | .answer reply =>
    match st.queue with
    | [] => none
    | req :: _ =>
      if st.phase = .serving ∧ silent req = false ∧ answers req reply = true then
        some { st with phase := .answered }
      else none
  | .dequeue req =>
    match st.queue with
    | [] => none
    | first :: rest =>
      if first = req ∧ st.phase = (if silent req then .serving else .answered) then
        some ⟨rest, .waiting⟩
      else none

variable (answers : κ → ρ → Bool) (silent : κ → Bool)

def acceptAll (st : Server κ) : List (ServerEvent κ ρ) → Option (Server κ)
  | [] => some st
  | event :: log => (st.accept answers silent event).bind (acceptAll · log)

theorem acceptAll_append (st : Server κ) (log more : List (ServerEvent κ ρ)) :
    st.acceptAll answers silent (log ++ more) =
      (st.acceptAll answers silent log).bind (acceptAll answers silent · more) := by
  induction log generalizing st with
  | nil => rfl
  | cons event log ih =>
    simp only [List.cons_append, acceptAll]
    cases st.accept answers silent event with
    | none => rfl
    | some next => exact ih next

end Server

section Lists

variable {κ ρ : Type}

/-- The requests that arrived, in order. -/
def arrived (log : List (ServerEvent κ ρ)) : List κ :=
  log.filterMap fun
    | .enqueue req => some req
    | _ => none

def dispatched (log : List (ServerEvent κ ρ)) : List κ :=
  log.filterMap fun
    | .dispatch req => some req
    | _ => none

def replied (log : List (ServerEvent κ ρ)) : List ρ :=
  log.filterMap fun
    | .answer reply => some reply
    | _ => none

def retired (log : List (ServerEvent κ ρ)) : List κ :=
  log.filterMap fun
    | .dequeue req => some req
    | _ => none

end Lists

namespace Server

variable {κ ρ : Type} {answers : κ → ρ → Bool} {silent : κ → Bool}
variable {st : Server κ} {log : List (ServerEvent κ ρ)}

/-- The requests in service: at most the one at the head. -/
def inService (st : Server κ) : List κ :=
  if st.phase = .waiting then [] else st.queue.take 1

/-- The request that was answered and not yet retired. -/
def justAnswered (st : Server κ) : List κ :=
  if st.phase = .answered then st.queue.take 1 else []

/-- What an accepted log says: nothing is lost, duplicated or reordered, requests are
dispatched as they are retired, and the replies are those of the requests that need one. -/
structure Accounts (answers : κ → ρ → Bool) (silent : κ → Bool) (st : Server κ)
    (log : List (ServerEvent κ ρ)) : Prop where
  arrivals : arrived log = retired log ++ st.queue
  dispatches : dispatched log = retired log ++ st.inService
  replies : List.Forall₂ (fun req reply => answers req reply = true)
    ((retired log ++ st.justAnswered).filter fun req => !silent req) (replied log)
  idle : st.queue = [] → st.phase = .waiting

theorem accounts_nil : Accounts answers silent ⟨[], .waiting⟩ [] :=
  ⟨rfl, rfl, .nil, fun _ => rfl⟩

theorem Accounts.enqueue {req : κ} (h : Accounts answers silent st log) :
    Accounts answers silent { st with queue := st.queue ++ [req] } (log ++ [.enqueue req]) := by
  have htake : st.phase ≠ .waiting → (st.queue ++ [req]).take 1 = st.queue.take 1 := by
    intro hphase
    cases hq : st.queue with
    | nil => exact absurd (h.idle hq) hphase
    | cons first rest => rfl
  obtain ⟨harr, hdis, hrep, -⟩ := h
  simp only [arrived, dispatched, replied, retired, inService, justAnswered] at harr hdis hrep
  refine ⟨?_, ?_, ?_, by simp⟩
  · simp [arrived, retired, harr]
  · by_cases hphase : st.phase = .waiting
    · simpa [dispatched, retired, inService, hphase] using hdis
    · simpa [dispatched, retired, inService, hphase, htake hphase] using hdis
  · by_cases hphase : st.phase = .answered
    · simpa [replied, retired, justAnswered, hphase, htake (by simp [hphase])] using hrep
    · simpa [replied, retired, justAnswered, hphase] using hrep

theorem Accounts.dispatch {req : κ} (h : Accounts answers silent st log)
    (hhead : st.queue.head? = some req) (hphase : st.phase = .waiting) :
    Accounts answers silent { st with phase := .serving } (log ++ [.dispatch req]) := by
  have htake : st.queue.take 1 = [req] := by
    cases hq : st.queue with
    | nil => simp [hq] at hhead
    | cons first rest => simpa [hq] using hhead
  obtain ⟨harr, hdis, hrep, -⟩ := h
  simp only [arrived, dispatched, replied, retired, inService, justAnswered] at harr hdis hrep
  refine ⟨?_, ?_, ?_, ?_⟩
  · simpa [arrived, retired] using harr
  · simpa [dispatched, retired, inService, hphase, htake] using hdis
  · simpa [replied, retired, justAnswered, hphase] using hrep
  · intro hnil
    simp [show st.queue = [] from hnil] at hhead

theorem Accounts.answer {req : κ} {rest : List κ} {reply : ρ} (h : Accounts answers silent st log)
    (hq : st.queue = req :: rest) (hphase : st.phase = .serving) (hloud : silent req = false)
    (hans : answers req reply = true) :
    Accounts answers silent { st with phase := .answered } (log ++ [.answer reply]) := by
  obtain ⟨harr, hdis, hrep, -⟩ := h
  simp only [arrived, dispatched, replied, retired, inService, justAnswered] at harr hdis hrep
  refine ⟨?_, ?_, ?_, ?_⟩
  · simpa [arrived, retired] using harr
  · simpa [dispatched, retired, inService, hphase] using hdis
  · have hone : List.Forall₂ (fun req reply => answers req reply = true) [req] [reply] :=
      .cons hans .nil
    simp only [hphase, reduceCtorEq, if_false, List.append_nil] at hrep
    have := List.rel_append hrep hone
    simpa [replied, retired, justAnswered, hq, hloud] using this
  · simp [hq]

theorem Accounts.dequeue {req : κ} {rest : List κ} (h : Accounts answers silent st log)
    (hq : st.queue = req :: rest)
    (hphase : st.phase = if silent req then .serving else .answered) :
    Accounts answers silent ⟨rest, .waiting⟩ (log ++ [.dequeue req]) := by
  have hne : st.phase ≠ .waiting := by
    rw [hphase]
    split <;> simp
  obtain ⟨harr, hdis, hrep, -⟩ := h
  simp only [arrived, dispatched, replied, retired, inService, justAnswered] at harr hdis hrep
  refine ⟨?_, ?_, ?_, fun _ => rfl⟩
  · simpa [arrived, retired, hq] using harr
  · simpa [dispatched, retired, inService, hne, hq] using hdis
  · cases hsilent : silent req with
    | true => simpa [replied, retired, justAnswered, hphase, hsilent] using hrep
    | false => simpa [replied, retired, justAnswered, hphase, hsilent, hq] using hrep

variable [DecidableEq κ]

theorem Accounts.accept {st' : Server κ} {event : ServerEvent κ ρ}
    (h : Accounts answers silent st log) (hacc : st.accept answers silent event = some st') :
    Accounts answers silent st' (log ++ [event]) := by
  cases event with
  | enqueue req =>
    cases hacc
    exact h.enqueue
  | dispatch req =>
    simp only [Server.accept] at hacc
    split at hacc
    · rename_i hcond
      cases hacc
      exact h.dispatch hcond.1 hcond.2
    · cases hacc
  | answer reply =>
    simp only [Server.accept] at hacc
    split at hacc
    · cases hacc
    · rename_i req rest hq
      split at hacc
      · rename_i hcond
        cases hacc
        exact h.answer hq hcond.1 hcond.2.1 hcond.2.2
      · cases hacc
  | dequeue req =>
    simp only [Server.accept] at hacc
    split at hacc
    · cases hacc
    · rename_i first rest hq
      simp only [Option.ite_none_right_eq_some, Option.some.injEq] at hacc
      obtain ⟨⟨rfl, hphase⟩, rfl⟩ := hacc
      exact h.dequeue hq hphase

/-- The accounts of a whole accepted log. -/
theorem Accounts.acceptAll {st' : Server κ} {more : List (ServerEvent κ ρ)}
    (h : Accounts answers silent st log)
    (hacc : st.acceptAll answers silent more = some st') :
    Accounts answers silent st' (log ++ more) := by
  induction more generalizing st log with
  | nil =>
    cases hacc
    simpa using h
  | cons event more ih =>
    simp only [Server.acceptAll, Option.bind_eq_some_iff] at hacc
    obtain ⟨next, hnext, hrest⟩ := hacc
    simpa using ih (h.accept hnext) hrest

end Server

end Sniper.Lib
