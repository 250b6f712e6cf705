import Sniper.Coherence.HandlerMoves
import Sniper.Coherence.DirectorySteps
set_option autoImplicit false

namespace Sniper.Coherence

open MsgType

variable {D : Type} {n : Nat} {cfg : Config} {ch : Choice D n}

/-- The data an event hands on is `x`. -/
def Event.Carries (x : D) : Event D n → Prop
  | .send _ msg => msg.msgType = exRep ∨ msg.msgType = shRep → msg.dataBuf = some x
  | .sendDram msg => msg.msgType = dramWriteReq → msg.dataBuf = some x
  | .enqueue _ | .dispatch _ | .dequeue _ => True

/-- The directory keeps no data of its own: what its log hands on is `x`, and no request
holds a buffer. `base` is what the log began with. -/
structure Carries (x : D) (base : List (Event D n)) (dir : DramDirectory D n) : Prop where
  appends : base <+: dir.log
  events : ∀ event ∈ dir.log, event.Carries x
  buffers : ∀ req ∈ dir.queue, req.dataBuf = none

variable {x : D} {base : List (Event D n)} {dir dir' : DramDirectory D n}
variable {req : ShmemReq D n} {rest : List (ShmemReq D n)}

theorem Carries.same (h : Carries x base dir) (hlog : dir'.log = dir.log)
    (hq : ∀ req ∈ dir'.queue, req.dataBuf = none) : Carries x base dir' :=
  ⟨hlog ▸ h.appends, hlog ▸ h.events, hq⟩

theorem Carries.append {more : List (Event D n)} (h : Carries x base dir)
    (hlog : dir'.log = dir.log ++ more) (hmore : ∀ event ∈ more, event.Carries x)
    (hq : ∀ req ∈ dir'.queue, req.dataBuf = none) : Carries x base dir' := by
  refine ⟨?_, ?_, hq⟩
  · rw [hlog]
    exact h.appends.trans (List.prefix_append _ _)
  · intro event hevent
    rw [hlog, List.mem_append] at hevent
    rcases hevent with hevent | hevent
    · exact h.events event hevent
    · exact hmore event hevent

theorem Carries.setEntry (h : Carries x base dir) (entry : DirectoryEntry n) :
    Carries x base (dir.setEntry entry) :=
  h.same rfl h.buffers

theorem Carries.emit {event : Event D n} (h : Carries x base dir) (he : event.Carries x) :
    Carries x base (dir.emit event) :=
  h.append rfl (by simpa using he) h.buffers

theorem Carries.demand {c : Fin n} {t : MsgType} {buf : Option D} (h : Carries x base dir)
    (ht : t.isReply = false) : Carries x base (dir.sendMsg c t buf) := by
  refine h.emit ?_
  intro hreply
  have : t = exRep ∨ t = shRep := hreply
  rcases this with rfl | rfl <;> simp [isReply] at ht

theorem Carries.sendEach {receivers : List (Fin n × MsgType)} (h : Carries x base dir)
    (ht : ∀ p ∈ receivers, p.2.isReply = false) : Carries x base (dir.sendEach receivers) := by
  refine h.append rfl ?_ h.buffers
  intro event hevent
  simp only [List.mem_map] at hevent
  obtain ⟨p, hp, rfl⟩ := hevent
  intro hreply
  have hreply : p.2 = exRep ∨ p.2 = shRep := hreply
  have := ht p hp
  rcases hreply with hp2 | hp2 <;> simp [hp2, isReply] at this

theorem Carries.replace (req' : ShmemReq D n) (h : Carries x base dir)
    (hq : dir.queue = req :: rest) (hreq : req'.dataBuf = none) :
    Carries x base { dir with queue := req' :: rest } := by
  refine h.same rfl ?_
  intro r hr
  rcases List.mem_cons.mp hr with rfl | hr
  · exact hreq
  · exact h.buffers r (by simp [hq, hr])

theorem Carries.write (h : Carries x base dir) : Carries x base (dir.sendDataToDram (some x)) :=
  h.emit fun _ => rfl

/-- Every move hands on the buffer of the message, and nothing else. -/
theorem Move.carries {stage stage' : Stage} (h : Carries x base dir)
    (hmove : Move cfg (some x) stage dir stage' dir') : Carries x base dir' := by
  cases hmove with
  | dispatch => exact h.emit trivial
  | allocate => exact h.setEntry _
  | update => exact h.setEntry _
  | write => exact h.write
  | demand receivers ht =>
    refine h.sendEach fun p hp => ?_
    rcases ht p hp with hp | hp <;> simp [hp, isReply]
  | askOwner => exact h.demand rfl
  | @forward _ _ req rest f hq =>
    have hnone := h.buffers req (by simp [hq])
    exact (h.replace { req with forwardingFrom := some f } hq hnone).demand rfl
  | @fetch _ req rest hq =>
    have hnone := h.buffers req (by simp [hq])
    refine (h.replace { req with waitForData := true } hq hnone).emit ?_
    intro ht
    cases ht
  | @answer _ req _ t buf hq ht hbuf =>
    refine h.emit fun hreply => ?_
    rcases hbuf with rfl | rfl | ⟨rfl, hsome⟩
    · rcases hreply with hreply | hreply <;> cases hreply
    · rfl
    · simp [h.buffers req (by simp [hq])] at hsome
  | vanish => exact h.same rfl h.buffers
  | @dequeue _ req rest hq =>
    have hrest : Carries x base { dir with queue := rest } :=
      h.same rfl fun req' hmem => h.buffers req' (by simp [hq, hmem])
    exact hrest.emit trivial
  | rest => exact h

theorem Moves.carries {start stage : Stage} {dir₀ : DramDirectory D n}
    (h : Moves cfg (some x) start dir₀ stage dir) (hbase : Carries x base dir₀) :
    Carries x base dir :=
  h.keeps (I := fun _ dir => Carries x base dir) (fun hI hmove => Move.carries hI hmove) hbase

theorem Carries.enqueue (h : Carries x base dir) (t : MsgType) (c : Fin n) :
    Carries x base (dir.enqueue (.new t c)) := by
  refine h.append rfl (by simp [Event.Carries]) ?_
  intro req hmem
  simp only [DramDirectory.enqueue_queue, List.mem_append, List.mem_singleton] at hmem
  rcases hmem with hmem | rfl
  · exact h.buffers req hmem
  · rfl

theorem enqueueReq_carries {t : MsgType} {c : Fin n} (h : Carries x base dir)
    (hr : enqueueReq cfg ch t c dir = .ok dir') : Carries x base dir' :=
  (enqueueReq_moves hr).carries (h.enqueue t c)

theorem processInvRep_carries {c : Fin n} (h : Carries x base dir)
    (hr : processInvRepFromL2Cache cfg ch c dir = .ok dir') : Carries x base dir' :=
  (processInvRep_moves hr).carries h

theorem processWbRep_carries {c : Fin n} (h : Carries x base dir)
    (hr : processWbRepFromL2Cache cfg ch c (some x) dir = .ok dir') : Carries x base dir' :=
  (processWbRep_moves hr).carries h

/-- A FLUSH_REP is handed on unless it is kept for a waiting UPGRADE_REQ. -/
theorem processFlushRep_carries {c : Fin n} (h : Carries x base dir)
    (hkeep : ∀ req rest, dir.queue = req :: rest → req.key.msgType = upgradeReq →
      dir.sharers.erase c = ∅)
    (hr : processFlushRepFromL2Cache cfg ch c (some x) dir = .ok dir') : Carries x base dir' := by
  rcases processFlushRep_moves hr with ⟨he, hrem, hq, ht, hothers, -⟩ | hmoves
  · obtain ⟨-, rfl⟩ := removeSharer_ok hrem
    have hempty := hkeep _ _ hq ht
    simp only [DramDirectory.sharers, he] at hempty
    exact absurd (Finset.card_eq_zero.mpr hempty) hothers
  · exact hmoves.carries h

theorem processDRAMReply_carries (h : Carries x base dir)
    (hr : processDRAMReply cfg ch (some x) dir = .ok dir') : Carries x base dir' :=
  (processDRAMReply_moves hr).carries h

theorem nullify_carries {requester : Fin n} (h : Carries x base dir)
    (hr : nullify cfg ch requester dir = .ok dir') : Carries x base dir' :=
  (nullify_moves hr).2.carries (h.enqueue nullifyReq requester)

end Sniper.Coherence
