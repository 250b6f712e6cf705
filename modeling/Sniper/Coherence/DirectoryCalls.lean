import Sniper.Coherence.DirectoryCache
import Sniper.Coherence.HandlerMoves
import Mathlib.Logic.Relation
set_option autoImplicit false

/-! The message handlers of the directory are made of the calls of `CntlrAct`. -/

namespace Sniper.Coherence

open MsgType

variable {D : Type} {n : Nat}

def ShmemReq.kind (req : ShmemReq D n) : ReqKind :=
  if req.key.msgType.isRequest then .request else .nullify

namespace DramDirectory

def kinds (dir : DramDirectory D n) : List ReqKind := dir.queue.map ShmemReq.kind

/-- One call, as one address sees it. -/
inductive Call : DramDirectory D n → DramDirectory D n → Prop where
  | log {dir dir' : DramDirectory D n} :
      dir'.entry = dir.entry → dir'.kinds = dir.kinds → Call dir dir'
  | enqueue {dir dir' : DramDirectory D n} :
      dir'.entry = dir.entry → dir'.kinds = dir.kinds ++ [.request] → Call dir dir'
  | serve {dir dir' : DramDirectory D n} (forwarder : Option (Fin n)) :
      dir.kinds.head? = some .request → dir.entry = none → dir'.entry = some (.new forwarder) →
      dir'.kinds = dir.kinds → Call dir dir'
  | update {dir dir' : DramDirectory D n} :
      dir.entry.isSome → dir'.entry.isSome → dir'.kinds = dir.kinds → Call dir dir'
  | complete {dir dir' : DramDirectory D n} :
      dir.kinds.head? = some .request → dir'.entry = dir.entry → dir'.kinds = dir.kinds.tail →
      Call dir dir'
  | nullify {dir dir' : DramDirectory D n} {entry : DirectoryEntry n} :
      dir.kinds.head? = some .nullify → dir.entry = some entry → entry.dstate = .uncached →
      dir'.entry = none → dir'.kinds = dir.kinds.tail → Call dir dir'

/-- What a sequence of calls makes of the directory. -/
def Calls : DramDirectory D n → DramDirectory D n → Prop := Relation.ReflTransGen Call

end DramDirectory

open DramDirectory

section

variable {base dir dir' : DramDirectory D n} {req : ShmemReq D n} {rest : List (ShmemReq D n)}
variable {cfg : Config} {ch : Choice D n} {held buf : Option D} {stage stage' : Stage}

theorem ShmemReq.kind_request (h : req.key.msgType.isRequest = true) : req.kind = .request := by
  rw [kind, if_pos h]

theorem head_kinds (hq : dir.queue = req :: rest) : dir.kinds.head? = some req.kind := by
  simp [kinds, hq]

namespace DramDirectory.Calls

theorem log (h : Calls base dir) (he : dir'.entry = dir.entry) (hk : dir'.kinds = dir.kinds) :
    Calls base dir' := h.tail (.log he hk)

theorem update (h : Calls base dir) (he : dir.entry.isSome) (he' : dir'.entry.isSome)
    (hk : dir'.kinds = dir.kinds) : Calls base dir' := h.tail (.update he he' hk)

end DramDirectory.Calls

/-- The calls that were made at a stage of a handler: a request that is answered is taken off
the queue already. -/
def CallsAt (base : DramDirectory D n) : Stage → DramDirectory D n → Prop
  | .answered, dir => ∃ req rest, dir.queue = req :: rest ∧ Calls base { dir with queue := rest }
  | .waiting, dir | .serving, dir | .resting, dir => Calls base dir

theorem DramDirectory.Calls.at_stage (h : Calls base dir) (hstage : stage ≠ .answered) : CallsAt base stage dir := by
  cases stage with
  | answered => exact absurd rfl hstage
  | waiting => exact h
  | serving => exact h
  | resting => exact h

theorem CallsAt.calls (h : CallsAt base stage dir) (hstage : stage = .waiting ∨ stage = .serving) :
    Calls base dir := by
  rcases hstage with rfl | rfl
  · exact h
  · exact h

/-- Every move is a call, or nothing that an address sees. -/
theorem Move.calls (h : CallsAt base stage dir) (hmove : Move cfg held stage dir stage' dir') :
    CallsAt base stage' dir' := by
  cases hmove with
  | dispatch => exact Calls.log h rfl rfl
  | allocate forwarder hq ht he =>
    refine Relation.ReflTransGen.tail h (.serve forwarder ?_ he rfl rfl)
    rw [head_kinds hq, ShmemReq.kind_request ht]
  | update entry hstage he =>
    have hset : Calls base (dir.setEntry entry) := (h.calls hstage).update he rfl rfl
    exact hset.at_stage (by rcases hstage with rfl | rfl <;> simp)
  | write hstage =>
    have hwrite : Calls base (dir.sendDataToDram held) := (h.calls hstage).log rfl rfl
    exact hwrite.at_stage (by rcases hstage with rfl | rfl <;> simp)
  | demand => exact Calls.log h rfl rfl
  | askOwner => exact Calls.log h rfl rfl
  | forward hq => exact Calls.log h rfl (by simp [kinds, hq, ShmemReq.kind, sendMsg, emit])
  | fetch hq => exact Calls.log h rfl (by simp [kinds, hq, ShmemReq.kind, emit])
  | @answer _ req rest t buf hq ht =>
    refine ⟨req, rest, hq, Relation.ReflTransGen.tail h (.complete ?_ rfl ?_)⟩
    · rw [head_kinds hq, ShmemReq.kind_request (answeredBy_kinds ht).1]
    · simp [kinds, hq]
  | @vanish _ entry req rest hq ht he hds =>
    refine ⟨req, rest, hq, Relation.ReflTransGen.tail h (.nullify ?_ he hds rfl ?_)⟩
    · rw [head_kinds hq, ShmemReq.kind, if_neg (by simp [ht])]
    · simp [kinds, hq]
  | @dequeue _ req rest hq =>
    obtain ⟨req', rest', hq', h⟩ := h
    rw [hq] at hq'
    cases hq'
    exact Calls.log h rfl rfl
  | rest hstage =>
    rcases hstage with rfl | ⟨rfl, -⟩
    · exact h
    · exact h

theorem Moves.calls {start : Stage} {dir₀ : DramDirectory D n}
    (h : Moves cfg held start dir₀ .resting dir) (hbase : CallsAt base start dir₀) :
    Calls base dir :=
  h.keeps (I := CallsAt base) Move.calls hbase

/-- A handler starts with no call made. -/
theorem CallsAt.start (dir : DramDirectory D n) : CallsAt dir (.ofQueue dir.queue) dir := by
  refine Calls.at_stage .refl ?_
  unfold Stage.ofQueue
  split <;> simp

theorem processInvRep_calls {c : Fin n} (hr : processInvRepFromL2Cache cfg ch c dir = .ok dir') :
    Calls dir dir' := by
  have hmoves : Moves cfg none (.ofQueue dir.queue) dir .resting dir' := processInvRep_moves hr
  exact hmoves.calls (.start dir)

theorem processFlushRep_calls {c : Fin n}
    (hr : processFlushRepFromL2Cache cfg ch c buf dir = .ok dir') : Calls dir dir' := by
  rcases processFlushRep_moves hr with ⟨he, -, hq, -, -, rfl⟩ | hmoves
  · refine Calls.update .refl (by rw [he]; rfl) rfl ?_
    simp [kinds, hq, ShmemReq.kind]
  · exact hmoves.calls (.start dir)

theorem processWbRep_calls {c : Fin n}
    (hr : processWbRepFromL2Cache cfg ch c buf dir = .ok dir') : Calls dir dir' :=
  (processWbRep_moves hr).calls (.start dir)

theorem processDRAMReply_calls (hr : processDRAMReply cfg ch buf dir = .ok dir') :
    Calls dir dir' :=
  (processDRAMReply_moves hr).calls (.start dir)

theorem enqueueReq_calls {t : MsgType} {c : Fin n} (ht : t.isRequest = true)
    (hr : enqueueReq cfg ch t c dir = .ok dir') : Calls dir dir' := by
  have henq : Calls dir (dir.enqueue (.new t c)) := by
    refine .single (.enqueue rfl ?_)
    simp [kinds, enqueue, emit, ShmemReq.kind, ShmemReq.new, ht]
  have hmoves : Moves cfg none (.ofQueue dir.queue) (dir.enqueue (.new t c)) .resting dir' :=
    enqueueReq_moves hr
  refine hmoves.calls (henq.at_stage ?_)
  unfold Stage.ofQueue
  split <;> simp

/-- Whatever a message from a cache does to an address, it does by calls. -/
theorem handleMsgFromL2Cache_calls {c : Fin n} {msg : ShmemMsg D}
    (hr : handleMsgFromL2Cache cfg ch c msg dir = .ok dir') : Calls dir dir' := by
  unfold handleMsgFromL2Cache at hr
  split at hr
  case h_1 ht => exact enqueueReq_calls (by rw [ht]; rfl) hr
  case h_2 ht => exact enqueueReq_calls (by rw [ht]; rfl) hr
  case h_3 ht => exact enqueueReq_calls (by rw [ht]; rfl) hr
  case h_4 => exact processInvRep_calls hr
  case h_5 => exact processFlushRep_calls hr
  case h_6 => exact processWbRep_calls hr
  case h_7 => cases hr

theorem handleMsgFromDRAM_calls {msg : ShmemMsg D}
    (hr : handleMsgFromDRAM cfg ch msg dir = .ok dir') : Calls dir dir' := by
  unfold handleMsgFromDRAM at hr
  split at hr
  · exact processDRAMReply_calls hr
  · cases hr

end

end Sniper.Coherence
