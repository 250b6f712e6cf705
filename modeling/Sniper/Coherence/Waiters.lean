import Sniper.Coherence.Answers
import Sniper.Lib.FifoServer
set_option autoImplicit false

/-! The waiters of a last-level cache, any number of cores sharing it. -/

namespace Sniper.Coherence

open MsgType Sniper.Lib

variable {D : Type} {n : Nat}

/-- What happens to `m_directory_waiters`: a waiter is enqueued, woken (`dispatch`) or dequeued. -/
abbrev WaiterEvent : Type := ServerEvent Bool Unit

namespace Cache

/-- An access that the line does not permit is enqueued. -/
def accessLog (cache : Cache D) (exclusive : Bool) : List WaiterEvent :=
  if exclusive then
    if cache.cstate.writable ∨ cache.cstate = .exclusive then [] else [.enqueue true]
  else if cache.cstate.readable then [] else [.enqueue false]

/-- The round of `serveWaiters`: the first waiter is woken, unless its upgrade is requested first. -/
def serveLog (cache : Cache D) : List WaiterEvent :=
  match cache.waiters with
  | [] => []
  | exclusive :: _ =>
    if exclusive = true ∧ cache.cstate = .shared then [] else [.dispatch exclusive]

def finishLog (cache : Cache D) : List WaiterEvent :=
  match cache.waiters with
  | [] => []
  | exclusive :: rest => .dequeue exclusive :: { cache with waiters := rest }.serveLog

/-- Only a reply is followed by the loop over the waiters. -/
def messageLog (cache : Cache D) (msg : ShmemMsg D) (unwritten : D) : List WaiterEvent :=
  match msg.msgType with
  | .exRep | .shRep | .upgradeRep =>
    match cache.processReply msg unwritten with
    | .ok replied => replied.serveLog
    | .error _ => []
  | _ => []

/-- The access that a waiter repeats does not miss. -/
def permits (cache : Cache D) (exclusive : Bool) : Prop :=
  if exclusive then cache.cstate = .exclusive ∨ cache.cstate = .modified
  else cache.cstate.readable = true

/-- The waiters as a queue with a server, the network thread. -/
def server (cache : Cache D) : Server Bool :=
  ⟨cache.waiters, if cache.serving then .serving else .waiting⟩

end Cache

namespace Sys

/-- What a step does to the waiters of cache `c`. -/
def waiterLog (s : Sys D n) (c : Fin n) : Action D n → List WaiterEvent
  | .read c' => if c' = c then (s.cache c).accessLog false else []
  | .write c' => if c' = c then (s.cache c).accessLog true else []
  | .finishWaiter c' => if c' = c then (s.cache c).finishLog else []
  | .deliverToCache c' unwritten =>
    if c' = c then
      match s.toCache c with
      | [] => []
      | msg :: _ => (s.cache c).messageLog msg unwritten
    else []
  | _ => []

/-- The requests of a cache that are on their way to the directory, queued there or being answered. -/
def outstanding (s : Sys D n) (c : Fin n) : Nat :=
  (s.toDir c).countP (fun msg => msg.msgType.isRequest) + (queuedBy c s.dir.queue).length +
    (s.toCache c).countP (fun msg => msg.msgType.isReply)

end Sys

/-- The coherence system, of which only the waiters of one cache are seen. -/
def waiterMachine (D : Type) (n : Nat) (cfg : Config) (c : Fin n) :
    Machine (Sys D n) (Action D n) (List WaiterEvent) where
  init s := ∃ data, s = .init data
  step s a log s' := (∃ events, step cfg s a = .ok (s', events)) ∧ log = s.waiterLog c a

/-- While a waiter is awake its line is evicted only if it is the last one, and no access
misses then. -/
def keepsLine (s : Sys D n) : Action D n → Prop
  | .evict c => (s.cache c).serving = true → (s.cache c).waiters.length ≤ 1
  | .read c | .write c => (s.cache c).serving = true → (s.cache c).cstate ≠ .invalid
  | _ => True

/-! ### The queue -/

/-- The discipline of the queue: waiters are not answered, only woken and dequeued. -/
abbrev acceptWaiters (st : Server Bool) (log : List WaiterEvent) : Option (Server Bool) :=
  st.acceptAll (fun _ _ => false) (fun _ => true) log

namespace Cache

variable {cache cache' : Cache D} {sent : List (ShmemMsg D)}

theorem initiateDirectoryAccess_queue {exclusive : Bool}
    (hr : cache.initiateDirectoryAccess exclusive = .ok (cache', sent)) :
    cache'.waiters = cache.waiters ++ [exclusive] ∧ cache'.serving = cache.serving := by
  unfold initiateDirectoryAccess processUpgradeReqToDirectory processExReqToDirectory
    processShReqToDirectory at hr
  grind

theorem read_log (hr : cache.read = .ok (cache', sent)) :
    acceptWaiters cache.server (cache.accessLog false) = some cache'.server := by
  unfold read at hr
  split at hr
  · rename_i hreadable
    cases hr
    simp [accessLog, hreadable, Server.acceptAll]
  · rename_i hreadable
    obtain ⟨hwaiters, hserving⟩ := initiateDirectoryAccess_queue hr
    simp [accessLog, hreadable, Server.acceptAll, Server.accept, server, hwaiters, hserving]

theorem write_log (hr : cache.write = .ok (cache', sent)) :
    acceptWaiters cache.server (cache.accessLog true) = some cache'.server := by
  unfold write at hr
  split at hr
  · rename_i hwritable
    cases hr
    simp [accessLog, hwritable, Server.acceptAll]
  split at hr
  · rename_i hexclusive
    cases hr
    simp [accessLog, hexclusive, Server.acceptAll, server]
  · rename_i hwritable hexclusive
    obtain ⟨hwaiters, hserving⟩ := initiateDirectoryAccess_queue hr
    simp [accessLog, hwritable, hexclusive, Server.acceptAll, Server.accept, server, hwaiters,
      hserving]

/-- The network thread only serves when nobody is awake. -/
theorem serveWaiters_log (hr : cache.serveWaiters = .ok (cache', sent)) :
    acceptWaiters ⟨cache.waiters, .waiting⟩ cache.serveLog = some cache'.server := by
  unfold serveWaiters at hr
  split at hr
  · rename_i hw
    cases hr
    simp [serveLog, hw, Server.acceptAll, server]
  · rename_i exclusive rest hw
    split at hr
    · rename_i hup
      simp only [processUpgradeReqToDirectory, hup.2] at hr
      cases hr
      simp [serveLog, hw, hup, Server.acceptAll, server]
    · rename_i hup
      have hwake : cache'.waiters = cache.waiters ∧ cache'.serving = true := by
        grind
      simp [serveLog, hw, hup, Server.acceptAll, Server.accept, server, hwake.1, hwake.2]

theorem finishWaiter_log (hw : cache.serving = true → cache.waiters ≠ [])
    (hr : cache.finishWaiter = .ok (cache', sent)) :
    acceptWaiters cache.server cache.finishLog = some cache'.server := by
  unfold finishWaiter at hr
  split at hr
  · rename_i hserving
    cases hwaiters : cache.waiters with
    | nil => exact absurd hwaiters (hw hserving)
    | cons exclusive rest =>
      rw [hwaiters, List.tail_cons] at hr
      have hlog := serveWaiters_log hr
      simp only [acceptWaiters, finishLog, hwaiters, Server.acceptAll, Server.accept, server,
        hserving, if_true, and_self, Option.bind_some] at hlog ⊢
      exact hlog
  · cases hr

theorem processReply_queue {msg : ShmemMsg D} {unwritten : D}
    (hr : cache.processReply msg unwritten = .ok cache') :
    cache'.waiters = cache.waiters ∧ cache'.serving = cache.serving := by
  unfold processReply insertCacheBlock at hr
  grind

/-- A reply is followed by a round of the loop, a demand leaves the waiters alone. -/
theorem handleMsg_cases {msg : ShmemMsg D} {unwritten : D}
    (hr : cache.handleMsgFromDramDirectory msg unwritten = .ok (cache', sent)) :
    (∃ replied, cache.processReply msg unwritten = .ok replied ∧
      replied.serveWaiters = .ok (cache', sent) ∧
        cache.messageLog msg unwritten = replied.serveLog) ∨
    cache'.waiters = cache.waiters ∧ cache'.serving = cache.serving ∧
      cache.messageLog msg unwritten = [] := by
  have hreply : cache.processReplyAndServe msg unwritten = .ok (cache', sent) →
      ∃ replied, cache.processReply msg unwritten = .ok replied ∧
        replied.serveWaiters = .ok (cache', sent) := by
    intro hr
    unfold processReplyAndServe at hr
    split at hr
    · cases hr
    split at hr
    · cases hr
    · rename_i replied hreplied
      exact ⟨replied, hreplied, hr⟩
  unfold handleMsgFromDramDirectory at hr
  split at hr
  · rename_i ht
    obtain ⟨replied, hreplied, hserve⟩ := hreply hr
    exact .inl ⟨replied, hreplied, hserve, by simp [messageLog, ht, hreplied]⟩
  · rename_i ht
    obtain ⟨replied, hreplied, hserve⟩ := hreply hr
    exact .inl ⟨replied, hreplied, hserve, by simp [messageLog, ht, hreplied]⟩
  · rename_i ht
    obtain ⟨replied, hreplied, hserve⟩ := hreply hr
    exact .inl ⟨replied, hreplied, hserve, by simp [messageLog, ht, hreplied]⟩
  · rename_i ht
    refine .inr ?_
    unfold processInvReqFromDramDirectory at hr
    simp only [messageLog, ht]
    grind
  · rename_i ht
    refine .inr ?_
    unfold processFlushReqFromDramDirectory at hr
    simp only [messageLog, ht]
    grind
  · rename_i ht
    refine .inr ?_
    unfold processWbReqFromDramDirectory at hr
    simp only [messageLog, ht]
    grind
  · cases hr

theorem handleMsg_log {msg : ShmemMsg D} {unwritten : D} (hserving : cache.serving = false)
    (hr : cache.handleMsgFromDramDirectory msg unwritten = .ok (cache', sent)) :
    acceptWaiters cache.server (cache.messageLog msg unwritten) = some cache'.server := by
  rcases handleMsg_cases hr with ⟨replied, hreplied, hserve, hlog⟩ | ⟨hwaiters, hsame, hlog⟩
  · have haccept := serveWaiters_log hserve
    rw [(processReply_queue hreplied).1] at haccept
    simpa [server, hserving, hlog] using haccept
  · simp [hlog, Server.acceptAll, server, hwaiters, hsame]

end Cache

section Steps

variable {race : Prop} {cfg : Config} {s s' : Sys D n} {c : Fin n} {a : Action D n}
variable {es : List (Event D n)}

theorem cacheStep_cases {c' : Fin n} {result : CacheStep D}
    (hr : s.cacheStep c' result = .ok (s', es)) :
    ∃ cache sent, result = .ok (cache, sent) ∧
      s'.cache = Function.update s.cache c' cache := by
  unfold Sys.cacheStep at hr
  split at hr
  · cases hr
  · rename_i cache sent
    cases hr
    exact ⟨cache, sent, rfl, rfl⟩

theorem dirStep_cache {result : Except Fault (DramDirectory D n)}
    (hr : s.dirStep result = .ok (s', es)) : s'.cache = s.cache := by
  unfold Sys.dirStep at hr
  split at hr
  · cases hr
  · cases hr
    rfl

/-- What a step means for one cache: nothing, or one of the calls. -/
inductive CacheCase (s : Sys D n) (c : Fin n) (cache : Cache D) : Action D n → Prop where
  | same {a : Action D n} : s.waiterLog c a = [] → cache = s.cache c → CacheCase s c cache a
  | read {sent : List (ShmemMsg D)} : (s.cache c).read = .ok (cache, sent) →
      CacheCase s c cache (.read c)
  | write {sent : List (ShmemMsg D)} : (s.cache c).write = .ok (cache, sent) →
      CacheCase s c cache (.write c)
  | store {data : D} {sent : List (ShmemMsg D)} : (s.cache c).store data = .ok (cache, sent) →
      CacheCase s c cache (.store c data)
  | evict {sent : List (ShmemMsg D)} : (s.cache c).evict = .ok (cache, sent) →
      CacheCase s c cache (.evict c)
  | finishWaiter {sent : List (ShmemMsg D)} : (s.cache c).finishWaiter = .ok (cache, sent) →
      CacheCase s c cache (.finishWaiter c)
  | message {msg : ShmemMsg D} {rest : List (ShmemMsg D)} {unwritten : D}
      {sent : List (ShmemMsg D)} : (s.cache c).serving = false → s.toCache c = msg :: rest →
      (s.cache c).handleMsgFromDramDirectory msg unwritten = .ok (cache, sent) →
      CacheCase s c cache (.deliverToCache c unwritten)

theorem step_cases (hr : step cfg s a = .ok (s', es)) (c : Fin n) : CacheCase s c (s'.cache c) a := by
  have hother : ∀ {c' : Fin n} {result : CacheStep D}, s.cacheStep c' result = .ok (s', es) →
      c' ≠ c → s'.cache c = s.cache c := by
    intro c' result hstep hne
    obtain ⟨cache, sent, -, hcache⟩ := cacheStep_cases hstep
    rw [hcache, Function.update_of_ne (Ne.symm hne)]
  have hself : ∀ {result : CacheStep D}, s.cacheStep c result = .ok (s', es) →
      ∃ sent, result = .ok (s'.cache c, sent) := by
    intro result hstep
    obtain ⟨cache, sent, hresult, hcache⟩ := cacheStep_cases hstep
    exact ⟨sent, by rw [hcache, Function.update_self]; exact hresult⟩
  cases a with
  | read c' =>
    by_cases hc : c' = c
    · subst hc
      obtain ⟨sent, hres⟩ := hself hr
      exact .read hres
    · exact .same (if_neg hc) (hother hr hc)
  | write c' =>
    by_cases hc : c' = c
    · subst hc
      obtain ⟨sent, hres⟩ := hself hr
      exact .write hres
    · exact .same (if_neg hc) (hother hr hc)
  | store c' data =>
    obtain ⟨cache, sent, hres, hcache⟩ := cacheStep_cases hr
    by_cases hc : c' = c
    · subst hc
      rw [hcache, Function.update_self]
      exact .store hres
    · refine .same rfl ?_
      rw [hcache, Function.update_of_ne (Ne.symm hc)]
  | evict c' =>
    by_cases hc : c' = c
    · subst hc
      obtain ⟨sent, hres⟩ := hself hr
      exact .evict hres
    · exact .same rfl (hother hr hc)
  | finishWaiter c' =>
    by_cases hc : c' = c
    · subst hc
      obtain ⟨sent, hres⟩ := hself hr
      exact .finishWaiter hres
    · exact .same (if_neg hc) (hother hr hc)
  | deliverToCache c' unwritten =>
    simp only [step] at hr
    split at hr
    · cases hr
    split at hr
    · cases hr
    · rename_i hserving _ msg rest hdn
      obtain ⟨cache, sent, hres, hcache⟩ := cacheStep_cases hr
      by_cases hc : c' = c
      · subst hc
        rw [hcache, Function.update_self]
        exact .message (by simpa using hserving) hdn hres
      · refine .same (if_neg hc) ?_
        rw [hcache, Function.update_of_ne (Ne.symm hc)]
        rfl
  | deliverToDir c' ch =>
    simp only [step] at hr
    split at hr
    · cases hr
    · exact .same rfl (by rw [dirStep_cache hr]; rfl)
  | accessDram =>
    simp only [step, Sys.accessDram] at hr
    exact .same rfl (by grind)
  | deliverFromDram ch =>
    simp only [step] at hr
    split at hr
    · cases hr
    · exact .same rfl (by rw [dirStep_cache hr])
  | nullify requester ch => exact .same rfl (by rw [dirStep_cache hr])

/-- Every step of the system keeps to the discipline of the queue. -/
theorem Inv.step_waiters (h : Inv race cfg s) (hr : Coherence.step cfg s a = .ok (s', es)) (c : Fin n) :
    acceptWaiters (s.cache c).server (s.waiterLog c a) = some (s'.cache c).server := by
  have hcase := step_cases hr c
  generalize s'.cache c = cache at hcase
  cases hcase with
  | same hlog hcache =>
    rw [hlog, hcache]
    rfl
  | read hread =>
    simpa [Sys.waiterLog] using Cache.read_log hread
  | write hwrite =>
    simpa [Sys.waiterLog] using Cache.write_log hwrite
  | store hstore =>
    unfold Cache.store at hstore
    simp only [Sys.waiterLog, Server.acceptAll, Cache.server]
    grind
  | evict hevict =>
    unfold Cache.evict at hevict
    simp only [Sys.waiterLog, Server.acceptAll, Cache.server]
    grind
  | finishWaiter hfinish =>
    obtain ⟨w, hgood, -, -⟩ := h.settled
    have hawake : (s.cache c).serving = true → (s.cache c).waiters ≠ [] := by
      intro hserving hnil
      have hnot := (hgood.shapes c).not_serving hnil
      rw [show (s.view s.dir.log c).serving = (s.cache c).serving from rfl, hserving] at hnot
      cases hnot
    simpa [Sys.waiterLog] using Cache.finishWaiter_log hawake hfinish
  | message hserving hdn hmsg =>
    simpa [Sys.waiterLog, hdn] using Cache.handleMsg_log hserving hmsg

end Steps

section Outstanding

variable {race : Prop} {q : Demand} {v : View}

theorem Noise.no_replies {l : List MsgType} (h : Noise l) : l.countP isReply = 0 := by
  rw [List.countP_eq_zero]
  intro t ht hreply
  have hdemand := h t ht
  cases t <;> simp [isReply, isDemand] at hreply hdemand

theorem GrantFits.isReply {tail : List MsgType} {ds : DirectoryState} {t : MsgType}
    (h : GrantFits v tail ds t) : t.isReply = true := by
  cases h <;> rfl

/-- The number of replies that are awaited. -/
def View.awaited (v : View) : Nat := if v.waiters ≠ [] ∧ v.serving = false then 1 else 0

theorem View.Idle.awaited (h : v.Idle) : v.awaited = 0 :=
  if_neg fun hwait => hwait.1 (h.mpr hwait.2)

theorem View.Pending.awaited (h : v.Pending) : v.awaited = 1 := if_pos h

/-- Somebody waits for the network thread exactly while one request is under way. -/
theorem Shape.outstanding (h : Shape race q v) :
    v.up.countP isRequest + q.queued.length + v.dn.countP isReply = v.awaited := by
  cases h with
  | away _ _ _ hn hstage =>
    cases hstage with
    | none hup hq hidle => simp [hup, hq, hn.no_replies, hidle.awaited]
    | sentEx hup hq hp => simp [hup, hq, hn.no_replies, hp.pending.awaited, isRequest]
    | sentSh hup hq hp => simp [hup, hq, hn.no_replies, hp.awaited, isRequest]
    | waits t hup hq hp => simp [hup, hq, hn.no_replies, hp.awaited]
  | added _ _ _ hup hn t hq hp => simp [hup, hq, hn.no_replies, hp.awaited]
  | granted _ _ _ hup hq hp pre tail t hdn hn hasks hfits =>
    simp [hup, hq, hdn, hn.no_replies, hasks.list.noise.no_replies, hfits.isReply, hp.awaited]
  | holding _ _ hq hidle wb hup hasks =>
    cases wb <;>
      simp [hup, hq, hasks.list.noise.no_replies, hidle.awaited, wbPart, isRequest]
  | upgrading _ _ _ hp wb hasks _ hstage =>
    have hnone := hasks.list.noise.no_replies
    cases hstage with
    | sent hup hq => cases wb <;> simp [hup, hq, hnone, hp.pending.awaited, wbPart, isRequest]
    | sentBefore hup _ hq => simp [hup, hq, hnone, hp.pending.awaited, List.countP_cons, isRequest]
    | waits hup hq => cases wb <;> simp [hup, hq, hnone, hp.pending.awaited, wbPart, isRequest]
  | upgraded _ _ _ hp hup hq _ pre tail hdn hi _ hasks =>
    have hn : Noise pre := fun t ht => by rw [hi t ht]; rfl
    simp [hup, hq, hdn, hn.no_replies, hasks.list.noise.no_replies, hp.pending.awaited,
      List.countP_cons, isReply]
  | leaving _ _ _ hn wb t ht _ _ _ hstage =>
    have hsent : (wbPart wb ++ [t]).countP isRequest = 0 := by
      cases wb <;> rcases ht with rfl | rfl <;> rfl
    cases hstage with
    | none hup hq hidle =>
      rw [hup, hq, hsent, hn.no_replies, hidle.awaited]
      rfl
    | sentEx hup hq hp =>
      rw [hup, hq, ← List.singleton_append, ← List.append_assoc, List.countP_append, hsent,
        hn.no_replies, hp.pending.awaited]
      rfl
    | sentSh hup hq hp =>
      rw [hup, hq, ← List.singleton_append, ← List.append_assoc, List.countP_append, hsent,
        hn.no_replies, hp.awaited]
      rfl
  | leavingUpgrade _ _ _ hn t ht _ _ hp hstage =>
    have hsent : [t].countP isRequest = 0 := by rcases ht with rfl | rfl <;> rfl
    cases hstage with
    | sent hup hq =>
      rw [hup, hq, ← List.singleton_append, List.countP_append, hsent, hn.no_replies,
        hp.pending.awaited]
      rfl
    | waits hup hq =>
      rw [hup, hq, hsent, hn.no_replies, hp.pending.awaited]
      rfl
  | doomed _ _ _ _ hup hq hp _ pre tail hdn hn hn' =>
    simp [hup, hq, hdn, hn.no_replies, hn'.no_replies, hp.pending.awaited, List.countP_cons,
      isReply, isRequest]

/-- A waiter that is awake has found the line, or the line has been evicted since. -/
theorem Shape.awake (h : Shape race q v) (hserving : v.serving = true) :
    v.cstate = .invalid ∨ v.cstate = .shared ∨ v.cstate = .exclusive ∨ v.cstate = .modified := by
  have hnot : ¬v.PendingExclusive := fun hp => by simp [hp.2] at hserving
  cases h with
  | away _ _ hc => exact .inl hc
  | added _ _ hc => exact .inl hc
  | granted _ _ hc => exact .inl hc
  | holding _ _ _ _ _ _ _ hfits => exact .inr hfits.isCopy
  | upgrading _ _ _ hp => exact absurd hp hnot
  | upgraded _ _ _ hp => exact absurd hp hnot
  | leaving _ _ hc => exact .inl hc
  | leavingUpgrade _ _ hc => exact .inl hc
  | doomed _ _ _ hc => exact .inl hc

theorem Inv.outstanding {cfg : Config} {s : Sys D n} (h : Inv race cfg s) (c : Fin n) :
    s.outstanding c =
      if (s.cache c).waiters ≠ [] ∧ (s.cache c).serving = false then 1 else 0 := by
  obtain ⟨w, hgood, -, -⟩ := h.settled
  have hshape := (hgood.shapes c).outstanding
  simp only [Sys.view, View.of, h.log, sentTo_nil, List.append_nil, demand_queued,
    List.countP_map] at hshape
  exact hshape

end Outstanding

section Gone

variable {race : Prop} {cfg : Config} {s s' : Sys D n} {cache cache' : Cache D}
variable {sent : List (ShmemMsg D)}

/-- A round of the loop misses exactly where the line is gone under its waiters. -/
theorem serveWaiters_dataGone
    (hcs : cache.cstate = .invalid ∨ cache.cstate = .shared ∨ cache.cstate = .exclusive ∨
      cache.cstate = .modified) :
    cache.serveWaiters = .error .dataGone ↔ cache.waiters ≠ [] ∧ cache.cstate = .invalid := by
  unfold Cache.serveWaiters Cache.processUpgradeReqToDirectory
  cases hw : cache.waiters with
  | nil => simp
  | cons exclusive rest =>
    rcases hcs with hcs | hcs | hcs | hcs <;> cases exclusive <;>
      simp [hcs, CacheState.readable]

/-- Whom a round wakes, it wakes with permission. -/
theorem serveWaiters_permits (hr : cache.serveWaiters = .ok (cache', sent)) :
    (∀ exclusive, .dispatch exclusive ∈ cache.serveLog → cache'.permits exclusive) ∧
      (cache'.serving = true → cache'.cstate ≠ .invalid) := by
  unfold Cache.serveWaiters at hr
  split at hr
  · rename_i hw
    cases hr
    simp [Cache.serveLog, hw]
  · rename_i exclusive rest hw
    split at hr
    · rename_i hup
      simp only [Cache.processUpgradeReqToDirectory, hup.2, if_true] at hr
      cases hr
      simp [Cache.serveLog, hw, hup]
    · rename_i hup
      simp only [Cache.serveLog, hw, if_neg hup, List.mem_singleton, ServerEvent.dispatch.injEq,
        forall_eq]
      cases exclusive with
      | true =>
        simp only [if_true] at hr
        split at hr
        · cases hr
          simp [Cache.permits]
        · cases hr
      | false =>
        simp only [Bool.false_eq_true, if_false] at hr
        split at hr
        · rename_i hreadable
          cases hr
          refine ⟨by simpa [Cache.permits] using hreadable, fun _ hinv => ?_⟩
          rw [show cache.cstate = .invalid from hinv] at hreadable
          cases hreadable
        · cases hr

theorem processReply_dataGone {msg : ShmemMsg D} {unwritten : D} :
    cache.processReply msg unwritten ≠ .error .dataGone := by
  unfold Cache.processReply Cache.insertCacheBlock
  grind

theorem processReply_present {msg : ShmemMsg D} {unwritten : D}
    (hr : cache.processReply msg unwritten = .ok cache') :
    cache'.cstate = .shared ∨ cache'.cstate = .exclusive ∨ cache'.cstate = .modified := by
  unfold Cache.processReply Cache.insertCacheBlock at hr
  grind

/-- The reply has just brought the line. -/
theorem handleMsg_dataGone {msg : ShmemMsg D} {unwritten : D} :
    cache.handleMsgFromDramDirectory msg unwritten ≠ .error .dataGone := by
  have hreply : cache.processReplyAndServe msg unwritten ≠ .error .dataGone := by
    intro hr
    unfold Cache.processReplyAndServe at hr
    split at hr
    · cases hr
    split at hr
    · rename_i hp
      cases hr
      exact processReply_dataGone hp
    · rename_i replied hp
      have hpresent := processReply_present hp
      have hinv := ((serveWaiters_dataGone (.inr hpresent)).mp hr).2
      simp [hinv] at hpresent
  unfold Cache.handleMsgFromDramDirectory Cache.processInvReqFromDramDirectory
    Cache.processFlushReqFromDramDirectory Cache.processWbReqFromDramDirectory
  grind

theorem initiateDirectoryAccess_dataGone {exclusive : Bool} :
    cache.initiateDirectoryAccess exclusive ≠ .error .dataGone := by
  unfold Cache.initiateDirectoryAccess Cache.processUpgradeReqToDirectory
    Cache.processExReqToDirectory Cache.processShReqToDirectory
  grind

/-- The data is already gone exactly when the network thread comes back to a line that was
evicted under waiters it has not woken yet. -/
theorem Inv.dataGone_iff {a : Action D n} (h : Inv race cfg s) :
    Coherence.step cfg s a = .error .dataGone ↔
      ∃ c, a = .finishWaiter c ∧ (s.cache c).serving = true ∧ (s.cache c).waiters.tail ≠ [] ∧
        (s.cache c).cstate = .invalid := by
  constructor
  · intro hr
    cases h.fault_cases hr with
    | access hfail => exact absurd hfail initiateDirectoryAccess_dataGone
    | @finishWaiter c hserving hfail =>
      obtain ⟨w, hgood, -, -⟩ := h.settled
      have hcs := (hgood.shapes c).awake hserving
      obtain ⟨htail, hinv⟩ := (serveWaiters_dataGone (by exact hcs)).mp hfail
      exact ⟨c, rfl, hserving, htail, hinv⟩
    | message _ hfail => exact absurd hfail handleMsg_dataGone
    | request hreq => cases hreq
    | other hother => rcases hother with hf | hf | hf | hf | hf <;> cases hf
    | race hf => cases hf
  · rintro ⟨c, rfl, hserving, htail, hinv⟩
    have hgone : (⟨(s.cache c).cstate, (s.cache c).data, (s.cache c).waiters.tail, true⟩ :
        Cache D).serveWaiters = .error .dataGone :=
      (serveWaiters_dataGone (by exact .inl hinv)).mpr (by exact ⟨htail, hinv⟩)
    simp only [Coherence.step, Cache.finishWaiter, hserving, if_true, hgone, Sys.cacheStep]

end Gone

section Runs

variable {race : Prop} {cfg : Config} {s s' : Sys D n} {c : Fin n} {a : Action D n}
variable {es : List (Event D n)} {ok : Sys D n → Action D n → Prop}

/-- The line is there as long as waiters follow the one that is awake. -/
def Sys.LineKept (s : Sys D n) : Prop :=
  ∀ c, (s.cache c).serving = true → (s.cache c).waiters.tail ≠ [] →
    (s.cache c).cstate ≠ .invalid

/-- Only the network thread wakes, and only with permission. -/
theorem CacheCase.permits {cache : Cache D} (h : CacheCase s c cache a) :
    ∀ exclusive, .dispatch exclusive ∈ s.waiterLog c a → cache.permits exclusive := by
  intro exclusive hmem
  cases h with
  | same hlog =>
    rw [hlog] at hmem
    cases hmem
  | read hread =>
    simp only [Sys.waiterLog, Cache.accessLog] at hmem
    grind
  | write hwrite =>
    simp only [Sys.waiterLog, Cache.accessLog] at hmem
    grind
  | store hstore => cases hmem
  | evict hevict => cases hmem
  | finishWaiter hfinish =>
    unfold Cache.finishWaiter at hfinish
    split at hfinish
    · simp only [Sys.waiterLog, if_true, Cache.finishLog] at hmem
      split at hmem
      · cases hmem
      · rename_i first rest hw
        rw [hw, List.tail_cons] at hfinish
        simp only [List.mem_cons, reduceCtorEq, false_or] at hmem
        exact (serveWaiters_permits hfinish).1 exclusive hmem
    · cases hfinish
  | message hserving hdn hmsg =>
    simp only [Sys.waiterLog, if_true, hdn] at hmem
    rcases Cache.handleMsg_cases hmsg with ⟨replied, -, hserve, hlog⟩ | ⟨-, -, hlog⟩
    · exact (serveWaiters_permits hserve).1 exclusive (hlog ▸ hmem)
    · rw [hlog] at hmem
      cases hmem

theorem Inv.lineKept (h : Inv race cfg s) (hkept : s.LineKept) (hok : keepsLine s a)
    (hr : Coherence.step cfg s a = .ok (s', es)) : s'.LineKept := by
  intro c hserving htail
  have hkept := hkept c
  have hwaits : (s.cache c).serving = true → (s.cache c).waiters ≠ [] := by
    intro hserving hnil
    obtain ⟨w, hgood, -, -⟩ := h.settled
    have hnot := (hgood.shapes c).not_serving hnil
    rw [show (s.view s.dir.log c).serving = (s.cache c).serving from rfl, hserving] at hnot
    cases hnot
  have hcase := step_cases hr c
  generalize s'.cache c = cache at hcase hserving htail
  cases hcase with
  | same hlog hcache =>
    subst hcache
    exact hkept hserving htail
  | read hread =>
    unfold Cache.read Cache.initiateDirectoryAccess at hread
    simp only [keepsLine] at hok
    grind [Cache.processShReqToDirectory]
  | write hwrite =>
    unfold Cache.write Cache.initiateDirectoryAccess Cache.processUpgradeReqToDirectory
      Cache.processExReqToDirectory at hwrite
    simp only [keepsLine] at hok
    grind
  | store hstore =>
    unfold Cache.store at hstore
    grind
  | evict hevict =>
    unfold Cache.evict at hevict
    simp only [keepsLine] at hok
    have hlast : (s.cache c).waiters.length ≤ 1 → (s.cache c).waiters.tail = [] := by
      intro hlen
      rw [← List.length_eq_zero_iff, List.length_tail]
      omega
    grind
  | finishWaiter hfinish =>
    unfold Cache.finishWaiter at hfinish
    split at hfinish
    · exact (serveWaiters_permits hfinish).2 hserving
    · cases hfinish
  | message hsleep hdn hmsg =>
    rcases Cache.handleMsg_cases hmsg with ⟨replied, -, hserve, -⟩ | ⟨-, hsame, -⟩
    · exact (serveWaiters_permits hserve).2 hserving
    · rw [hsame, hsleep] at hserving
      cases hserving

variable {tr : List (Action D n × List WaiterEvent)}

theorem reachable_of_waiterRun (h : Run (waiterMachine D n cfg c) ok tr s) :
    Reachable (machine D n cfg) s := by
  induction h with
  | start hinit => exact ⟨[], .start hinit⟩
  | next _ _ hstep ih =>
    obtain ⟨tr', hrun⟩ := ih
    obtain ⟨⟨es, hr⟩, -⟩ := hstep
    exact ⟨_, .next hrun trivial hr⟩

/-- Of any run of the system the waiters of a cache may be watched. -/
theorem watch_run {tr : List (Action D n × List (Event D n))} (c : Fin n)
    (h : Run (machine D n cfg) ok tr s) : ∃ tr', Run (waiterMachine D n cfg c) ok tr' s := by
  induction h with
  | start hinit => exact ⟨[], .start hinit⟩
  | next _ hok hstep ih =>
    obtain ⟨tr', hrun⟩ := ih
    exact ⟨_, .next hrun hok ⟨⟨_, hstep⟩, rfl⟩⟩

/-- Everything that happened to the waiters, in order. -/
def waiterRunLog (tr : List (Action D n × List WaiterEvent)) : List WaiterEvent :=
  tr.flatMap Prod.snd

theorem accept_waiterRun (h : Run (waiterMachine D n cfg c) ok tr s) :
    acceptWaiters ⟨[], .waiting⟩ (waiterRunLog tr) = some (s.cache c).server := by
  induction h with
  | start hinit =>
    obtain ⟨data, rfl⟩ := hinit
    rfl
  | next hrun _ hstep ih =>
    obtain ⟨⟨es, hr⟩, rfl⟩ := hstep
    have hinv := Inv.of_reachable (reachable_of_waiterRun hrun)
    simp only [waiterRunLog, List.flatMap_append, acceptWaiters, Server.acceptAll_append]
    rw [show Server.acceptAll _ _ _ (List.flatMap Prod.snd _) = _ from ih]
    simpa using hinv.step_waiters hr c

theorem lineKept_of_run (h : Run (waiterMachine D n cfg c) keepsLine tr s) : s.LineKept := by
  induction h with
  | start hinit =>
    obtain ⟨data, rfl⟩ := hinit
    intro c hserving
    cases hserving
  | next hrun hok hstep ih =>
    obtain ⟨⟨es, hr⟩, -⟩ := hstep
    exact (Inv.of_reachable (reachable_of_waiterRun hrun)).lineKept ih hok hr

/-- The network thread can always go on to the next waiter, unless the data is gone. -/
theorem finishWaiter_returns (hserving : (s.cache c).serving = true)
    (hpresent : step cfg s (.finishWaiter c) ≠ .error .dataGone) :
    ∃ s' es, step cfg s (.finishWaiter c) = .ok (s', es) := by
  have hfault : ∀ {cache : Cache D} {fault : Fault}, cache.serveWaiters = .error fault →
      fault = .dataGone := by
    intro cache fault hr
    unfold Cache.serveWaiters Cache.processUpgradeReqToDirectory at hr
    grind
  cases hr : step cfg s (.finishWaiter c) with
  | ok result => exact ⟨result.1, result.2, rfl⟩
  | error fault =>
    have hfail := cacheStep_fault hr
    rw [Cache.finishWaiter, if_pos hserving] at hfail
    rw [hr, hfault hfail] at hpresent
    exact absurd rfl hpresent

/-- What is asked of the waiters of cache `c` when `log` has happened to them. -/
structure WaitersServed (cfg : Config) (c : Fin n) (log : List WaiterEvent) (s : Sys D n) :
    Prop where
  dequeued : arrived log = retired log ++ (s.cache c).waiters
  woken : dispatched log =
    retired log ++ if (s.cache c).serving then (s.cache c).waiters.take 1 else []
  outstanding : s.outstanding c =
    if (s.cache c).waiters ≠ [] ∧ (s.cache c).serving = false then 1 else 0
  drained : s.Quiescent → (s.cache c).serving = false → (s.cache c).waiters = []
  permitted : ∀ a s' es, step cfg s a = .ok (s', es) →
    ∀ exclusive, .dispatch exclusive ∈ s.waiterLog c a → (s'.cache c).permits exclusive
  present : ∀ a, step cfg s a ≠ .error .dataGone
  returns : (s.cache c).serving = true → ∃ s' es, step cfg s (.finishWaiter c) = .ok (s', es)

instance (s : Sys D n) : (a : Action D n) → Decidable (keepsLine s a)
  | .evict c => inferInstanceAs (Decidable ((s.cache c).serving = true → _))
  | .read c | .write c => inferInstanceAs (Decidable ((s.cache c).serving = true → _))
  | .store _ _ | .finishWaiter _ | .deliverToCache _ _ | .deliverToDir _ _
  | .accessDram | .deliverFromDram _ | .nullify _ _ => .isTrue trivial

open scoped Lib.Literals in
/-- Two reads of one cache, answered together. -/
def twoReaders : List (Action Nat 2) :=
  [.read 0, .read 0, .deliverToDir 0 noChoice, .accessDram, .deliverFromDram noChoice,
    .deliverToCache 0 0]

/-- The state after the actions, performed as long as they keep the lines. -/
def keepingLines (cfg : Config) (as : List (Action Nat 2)) : Sys Nat 2 :=
  runWhile (fun s a => decide (keepsLine s a)) cfg (.init 0) as

theorem run_keepingLines (cfg : Config) (as : List (Action Nat 2)) :
    ∃ tr, Run (machine Nat 2 cfg) keepsLine tr (keepingLines cfg as) :=
  run_runWhile (fun _ _ => of_decide_eq_true) as (.start ⟨0, rfl⟩)

end Runs

end Sniper.Coherence
