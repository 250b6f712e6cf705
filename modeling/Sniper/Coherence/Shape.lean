import Sniper.Coherence.LastLevel
set_option autoImplicit false

namespace Sniper.Coherence

open MsgType

/-- One last-level cache as the coherence argument sees it: the line, its waiters and the
types of the messages in flight from and to the directory. -/
structure View where
  cstate : CacheState
  waiters : List Bool
  serving : Bool
  up : List MsgType
  dn : List MsgType

namespace View

variable {D : Type}

/-- The view of a cache with its two channels. -/
def of (cache : Cache D) (up dn : List (ShmemMsg D)) : View :=
  ⟨cache.cstate, cache.waiters, cache.serving, up.map ShmemMsg.msgType, dn.map ShmemMsg.msgType⟩

/-- No reply is awaited: nobody waits, or the first waiter is being served. -/
def Idle (v : View) : Prop := v.waiters = [] ↔ v.serving = false

/-- The first waiter waits for a reply. -/
def Pending (v : View) : Prop := v.waiters ≠ [] ∧ v.serving = false

/-- The first waiter waits for a reply that lets it write. -/
def PendingExclusive (v : View) : Prop := v.waiters.head? = some true ∧ v.serving = false

def push (v : View) (t : MsgType) : View := { v with dn := v.dn ++ [t] }

theorem PendingExclusive.pending {v : View} (h : v.PendingExclusive) : v.Pending := by
  obtain ⟨hhead, hserving⟩ := h
  refine ⟨?_, hserving⟩
  intro hnil
  simp [hnil] at hhead

end View

/-- What the directory's state and its wait mean for one cache: whether it is a recorded
sharer, the state of the entry, which demand it must still answer with data, whether it
must have been invalidated or may have been flushed, the requests it has queued and
whether it was made a sharer by a request that still waits for data. -/
structure Demand where
  held : Prop
  dstate : DirectoryState
  asked : Option MsgType
  mustInv : Prop
  mayFlush : Prop
  queued : List MsgType
  added : Prop

/-- A FLUSH_REQ may be on its way or answered. -/
def Demand.Flushing (q : Demand) : Prop := q.asked = some flushReq ∨ q.mayFlush

theorem Demand.Flushing.mono {q q' : Demand} (h : q.Flushing) (hasked : q'.asked = q.asked)
    (hmay : q.mayFlush → q'.mayFlush) : q'.Flushing :=
  h.imp hasked.trans hmay

/-- The directory waits for nothing from this cache. -/
structure Demand.Calm (q : Demand) : Prop where
  asked : q.asked = none
  mustInv : ¬q.mustInv
  mayFlush : ¬q.mayFlush

theorem Demand.Calm.not_flushing {q : Demand} (h : q.Calm) : ¬q.Flushing := by
  rintro (ha | hm)
  · simp [h.asked] at ha
  · exact h.mayFlush hm

def Noise (l : List MsgType) : Prop := ∀ t ∈ l, t.isDemand = true

/-- Invalidations, then at most one demand for data. -/
inductive DemandList : List MsgType → Prop where
  | nil : DemandList []
  | wb : DemandList [wbReq]
  | flush : DemandList [flushReq]
  | inv {l : List MsgType} : DemandList l → DemandList (invReq :: l)

theorem DemandList.noise {l : List MsgType} (h : DemandList l) : Noise l := by
  induction h with
  | nil => simp [Noise]
  | wb => simp [Noise, isDemand]
  | flush => simp [Noise, isDemand]
  | inv _ ih =>
    intro t ht
    rcases List.mem_cons.mp ht with rfl | ht
    · rfl
    · exact ih t ht

theorem DemandList.append {l : List MsgType} {t : MsgType} (h : DemandList l)
    (hwb : wbReq ∉ l) (hflush : flushReq ∉ l) (ht : t.isDemand = true) :
    DemandList (l ++ [t]) := by
  induction h with
  | nil =>
    cases t <;> simp [isDemand] at ht
    · exact .inv .nil
    · exact .flush
    · exact .wb
  | wb => simp at hwb
  | flush => simp at hflush
  | inv _ ih =>
    simp only [List.mem_cons, reduceCtorEq, false_or] at hwb hflush
    exact .inv (ih hwb hflush)

theorem DemandList.cons_wb {l : List MsgType} (h : DemandList (wbReq :: l)) : l = [] := by
  cases h
  rfl

theorem DemandList.inv_of_mem {l : List MsgType} (h : DemandList l) (hwb : wbReq ∉ l)
    (hflush : flushReq ∉ l) : ∀ t ∈ l, t = invReq := by
  intro t ht
  have := h.noise t ht
  cases t <;> simp_all [isDemand]

theorem Noise.append {l m : List MsgType} (hl : Noise l) (hm : Noise m) : Noise (l ++ m) := by
  intro t ht
  rcases List.mem_append.mp ht with ht | ht
  · exact hl t ht
  · exact hm t ht

theorem Noise.tail {t : MsgType} {l : List MsgType} (h : Noise (t :: l)) : Noise l :=
  fun u hu => h u (List.mem_cons_of_mem _ hu)

theorem noise_single {t : MsgType} (ht : t.isDemand = true) : Noise [t] := by
  intro u hu
  rw [List.mem_singleton.mp hu]
  exact ht

/-- The demands in flight to a cache that has, or is about to get, its copy. `wb` says
that its answer to a WB_REQ is in flight. -/
structure Asks (q : Demand) (wb : Bool) (dn : List MsgType) : Prop where
  list : DemandList dn
  wbIff : q.asked = some wbReq ↔ wb = true ∨ wbReq ∈ dn
  wbLast : wb = true → dn = []
  flush : flushReq ∈ dn → q.Flushing
  flushed : q.asked = some flushReq → flushReq ∈ dn
  inv : q.mustInv → invReq ∈ dn ∨ flushReq ∈ dn
  shared : invReq ∈ dn → q.dstate = .shared

/-- The WB_REP that may be first in flight. -/
def wbPart : Bool → List MsgType
  | true => [wbRep]
  | false => []

/-- How far the request of a cache without a copy has come. -/
inductive AwayStage (queued : List MsgType) (v : View) : Prop where
  | none (up : v.up = []) (nothing : queued = []) (idle : v.Idle)
  | sentEx (up : v.up = [exReq]) (nothing : queued = []) (pending : v.PendingExclusive)
  | sentSh (up : v.up = [shReq]) (nothing : queued = []) (pending : v.Pending)
  | waits (t : MsgType) (up : v.up = []) (waiting : queued = [t]) (pending : v.Pending)
      (exclusive : t ≠ shReq → v.PendingExclusive)

/-- How far the request of an upgrading cache has come. -/
inductive UpgradeStage (queued : List MsgType) (v : View) (wb : Bool) : Prop where
  | sent (up : v.up = wbPart wb ++ [upgradeReq]) (nothing : queued = [])
  | sentBefore (up : v.up = [upgradeReq, wbRep]) (answered : wb = true) (nothing : queued = [])
  | waits (up : v.up = wbPart wb) (waiting : queued = [upgradeReq])

/-- What a cache that gave up its copy with the notice `t` has in flight. -/
inductive LeaveStage (queued : List MsgType) (v : View) (wb : Bool) (t : MsgType) : Prop where
  | none (up : v.up = wbPart wb ++ [t]) (nothing : queued = []) (idle : v.Idle)
  | sentEx (up : v.up = wbPart wb ++ [t, exReq]) (nothing : queued = [])
      (pending : v.PendingExclusive)
  | sentSh (up : v.up = wbPart wb ++ [t, shReq]) (nothing : queued = []) (pending : v.Pending)

/-- The same for a cache that gave up its copy while it upgraded. -/
inductive LeaveUpgradeStage (queued : List MsgType) (v : View) (t : MsgType) : Prop where
  | sent (up : v.up = [upgradeReq, t]) (nothing : queued = [])
  | waits (up : v.up = [t]) (waiting : queued = [upgradeReq])

/-- The states a reply in flight goes with. -/
inductive GrantFits (v : View) (tail : List MsgType) : DirectoryState → MsgType → Prop where
  | exclusive (inv : invReq ∉ tail) : GrantFits v tail .exclusive exRep
  | modified (inv : invReq ∉ tail) (pending : v.PendingExclusive) :
      GrantFits v tail .modified exRep
  | shared : GrantFits v tail .shared shRep

/-- The states a copy goes with. -/
inductive CopyFits (dn : List MsgType) (wb : Bool) : DirectoryState → CacheState → Prop where
  | modified (noWb : wb = false) (inv : invReq ∉ dn) : CopyFits dn wb .modified .modified
  | silent (noWb : wb = false) (inv : invReq ∉ dn) : CopyFits dn wb .exclusive .modified
  | exclusive (noWb : wb = false) (inv : invReq ∉ dn) : CopyFits dn wb .exclusive .exclusive
  | shared {dstate : DirectoryState} (down : wb = false → dstate = .shared) :
      CopyFits dn wb dstate .shared

namespace GrantFits

variable {v v' : View} {tail : List MsgType} {ds : DirectoryState} {t u : MsgType}

theorem notDemand (h : GrantFits v tail ds t) : t.isDemand = false := by
  cases h <;> rfl

theorem mono (h : GrantFits v tail ds t) (hp : v.PendingExclusive → v'.PendingExclusive) :
    GrantFits v' tail ds t := by
  cases h with
  | exclusive hi => exact .exclusive hi
  | modified hi hpe => exact .modified hi (hp hpe)
  | shared => exact .shared

theorem push (h : GrantFits v tail ds t) (hu : u = invReq → ds = .shared) :
    GrantFits v (tail ++ [u]) ds t := by
  cases h with
  | exclusive hi => exact .exclusive (by simpa [hi] using fun h => nomatch hu h.symm)
  | modified hi hpe => exact .modified (by simpa [hi] using fun h => nomatch hu h.symm) hpe
  | shared => exact .shared

end GrantFits

namespace CopyFits

variable {dn : List MsgType} {wb : Bool} {ds : DirectoryState} {cs : CacheState} {u : MsgType}

theorem isCopy (h : CopyFits dn wb ds cs) :
    cs = .shared ∨ cs = .exclusive ∨ cs = .modified := by
  cases h <;> simp

theorem down (h : CopyFits dn wb ds .shared) (hwb : wb = false) : ds = .shared := by
  cases h with
  | shared hd => exact hd hwb

/-- A copy given up without its data leaves an entry that expects that. -/
theorem clean (h : CopyFits dn wb ds cs) (hm : cs ≠ .modified) (hwb : wb = false) :
    ds = .shared ∨ ds = .exclusive := by
  cases h with
  | modified => exact absurd rfl hm
  | silent => exact absurd rfl hm
  | exclusive => exact .inr rfl
  | shared hd => exact .inl (hd hwb)

theorem writable (h : CopyFits dn wb ds cs) (hcs : cs = .exclusive ∨ cs = .modified) :
    wb = false ∧ invReq ∉ dn ∧ (ds = .exclusive ∨ ds = .modified) ∧ CopyFits dn wb ds .modified := by
  cases h with
  | modified hwb hi => exact ⟨hwb, hi, .inr rfl, .modified hwb hi⟩
  | silent hwb hi => exact ⟨hwb, hi, .inl rfl, .silent hwb hi⟩
  | exclusive hwb hi => exact ⟨hwb, hi, .inl rfl, .silent hwb hi⟩
  | shared => simp at hcs

theorem push (h : CopyFits dn wb ds cs) (hu : u = invReq → ds = .shared) :
    CopyFits (dn ++ [u]) wb ds cs := by
  cases h with
  | modified hwb hi => exact .modified hwb (by simpa [hi] using fun h => nomatch hu h.symm)
  | silent hwb hi => exact .silent hwb (by simpa [hi] using fun h => nomatch hu h.symm)
  | exclusive hwb hi => exact .exclusive hwb (by simpa [hi] using fun h => nomatch hu h.symm)
  | shared hd => exact .shared hd

end CopyFits

/-- The situations a cache can be in, given the directory's demand on it. `race` allows
the situations after an UPGRADE_REP crossed an invalidation of its receiver. -/
inductive Shape (race : Prop) (q : Demand) (v : View) : Prop where
  | away (held : ¬q.held) (added : ¬q.added) (cstate : v.cstate = .invalid) (noise : Noise v.dn)
      (stage : AwayStage q.queued v)
  | added (held : q.held) (added : q.added) (cstate : v.cstate = .invalid) (up : v.up = [])
      (noise : Noise v.dn) (t : MsgType) (queued : q.queued = [t]) (pending : v.Pending)
      (exclusive : t ≠ shReq → v.PendingExclusive)
  | granted (held : q.held) (added : ¬q.added) (cstate : v.cstate = .invalid) (up : v.up = [])
      (queued : q.queued = []) (pending : v.Pending) (pre tail : List MsgType) (t : MsgType)
      (dn : v.dn = pre ++ t :: tail) (noise : Noise pre) (asks : Asks q false tail)
      (fits : GrantFits v tail q.dstate t)
  | holding (held : q.held) (added : ¬q.added) (queued : q.queued = []) (idle : v.Idle)
      (wb : Bool) (up : v.up = wbPart wb) (asks : Asks q wb v.dn)
      (fits : CopyFits v.dn wb q.dstate v.cstate)
  | upgrading (held : q.held) (added : ¬q.added) (cstate : v.cstate = .sharedUpgrading)
      (pending : v.PendingExclusive) (wb : Bool) (asks : Asks q wb v.dn)
      (shared : wb = false → q.dstate = .shared) (stage : UpgradeStage q.queued v wb)
  | upgraded (held : q.held) (added : ¬q.added) (cstate : v.cstate = .sharedUpgrading)
      (pending : v.PendingExclusive) (up : v.up = []) (queued : q.queued = [])
      (dstate : q.dstate = .modified) (pre tail : List MsgType)
      (dn : v.dn = pre ++ upgradeRep :: tail) (invs : ∀ t ∈ pre, t = invReq)
      (raced : pre ≠ [] → race) (asks : Asks q false tail) (inv : invReq ∉ tail)
  | leaving (held : q.held) (added : ¬q.added) (cstate : v.cstate = .invalid) (noise : Noise v.dn)
      (wb : Bool) (t : MsgType) (notice : t = invRep ∨ t = flushRep)
      (asked : wb = true → t = invRep ∧ q.asked = some wbReq)
      (clean : t = invRep → wb = false → q.dstate = .shared ∨ q.dstate = .exclusive)
      (dirty : t = flushRep → q.dstate = .exclusive ∨ q.dstate = .modified ∨ q.Flushing)
      (stage : LeaveStage q.queued v wb t)
  | leavingUpgrade (held : q.held) (added : ¬q.added) (cstate : v.cstate = .invalid)
      (noise : Noise v.dn) (t : MsgType) (notice : t = invRep ∨ t = flushRep)
      (flush : t = flushRep → q.Flushing)
      (shared : q.dstate = .shared) (pending : v.PendingExclusive)
      (stage : LeaveUpgradeStage q.queued v t)
  | doomed (raced : race) (held : q.held) (added : ¬q.added) (cstate : v.cstate = .invalid)
      (up : v.up = [invRep]) (queued : q.queued = []) (pending : v.PendingExclusive)
      (dstate : q.dstate = .modified) (pre tail : List MsgType)
      (dn : v.dn = pre ++ upgradeRep :: tail) (noise : Noise pre) (noise' : Noise tail)

namespace Asks

/-- Where the directory waits for nothing, only invalidations of earlier waits are in
flight. -/
theorem calm {q : Demand} {wb : Bool} {dn : List MsgType} (h : Asks q wb dn) (hq : q.Calm) :
    wb = false ∧ wbReq ∉ dn ∧ flushReq ∉ dn := by
  have hwb : ¬(wb = true ∨ wbReq ∈ dn) := fun hwb => by
    simpa [hq.asked] using h.wbIff.mpr hwb
  exact ⟨by simpa using fun hb => hwb (.inl hb), fun hm => hwb (.inr hm),
    fun hm => hq.not_flushing (h.flush hm)⟩

theorem relax {q q' : Demand} {wb : Bool} {dn : List MsgType} (h : Asks q wb dn)
    (hds : q'.dstate = q.dstate) (hasked : q'.asked = q.asked)
    (hmust : q'.mustInv → q.mustInv) (hmay : q.mayFlush → q'.mayFlush) : Asks q' wb dn where
  list := h.list
  wbIff := hasked ▸ h.wbIff
  wbLast := h.wbLast
  flush hm := (h.flush hm).mono hasked hmay
  flushed ha := h.flushed (hasked ▸ ha)
  inv hm := h.inv (hmust hm)
  shared hm := hds ▸ h.shared hm

/-- Nothing in flight for a calm demand. -/
theorem nil {q : Demand} (hq : q.Calm) : Asks q false [] where
  list := .nil
  wbIff := by simp [hq.asked]
  wbLast := by simp
  flush := by simp
  flushed := by simp [hq.asked]
  inv hm := absurd hm hq.mustInv
  shared := by simp

end Asks

/-- A demand `t` sent to a sharer the directory waited for nothing from, and the demand on
it afterwards. -/
structure Pushes (t : MsgType) (q q' : Demand) : Prop where
  demand : t.isDemand = true
  dstate : q'.dstate = q.dstate
  queued : q'.queued = q.queued
  held : q'.held
  added : ¬q'.added
  wb : q'.asked = some wbReq ↔ t = wbReq
  flush : t = flushReq → q'.Flushing
  flushed : q'.asked = some flushReq → t = flushReq
  inv : q'.mustInv → t = invReq ∨ t = flushReq
  shared : t = invReq → q.dstate = .shared

theorem Asks.push {t : MsgType} {q q' : Demand} {wb : Bool} {dn : List MsgType}
    (h : Asks q wb dn) (hq : q.Calm) (hp : Pushes t q q') : Asks q' false (dn ++ [t]) := by
  obtain ⟨-, hwb, hflush⟩ := h.calm hq
  refine ⟨h.list.append hwb hflush hp.demand, ?_, by simp, ?_, ?_, ?_, ?_⟩
  · simp [hp.wb, hwb, eq_comm]
  · intro hm
    simp only [List.mem_append, hflush, List.mem_singleton, false_or] at hm
    exact hp.flush hm.symm
  · intro ha
    simp [hp.flushed ha]
  · intro hm
    rcases hp.inv hm with rfl | rfl <;> simp
  · intro hm
    rw [hp.dstate]
    rcases List.mem_append.mp hm with hm | hm
    · exact h.shared hm
    · exact hp.shared (List.mem_singleton.mp hm).symm

namespace Shape

variable {race : Prop} {q q' : Demand} {v : View} {t : MsgType}

/-- A cache that is not a sharer only sees that it is none and what it has queued. -/
theorem of_not_held (h : Shape race q v) (hheld : ¬q.held) (hheld' : ¬q'.held)
    (hadded : ¬q'.added) (hqueued : q'.queued = q.queued) : Shape race q' v := by
  cases h with
  | away _ _ hc hn hstage => exact .away hheld' hadded hc hn (hqueued ▸ hstage)
  | added held => exact absurd held hheld
  | granted held => exact absurd held hheld
  | holding held => exact absurd held hheld
  | upgrading held => exact absurd held hheld
  | upgraded held => exact absurd held hheld
  | leaving held => exact absurd held hheld
  | leavingUpgrade held => exact absurd held hheld
  | doomed _ held => exact absurd held hheld

/-- The directory may stop insisting on an invalidation, and may allow a flush. -/
theorem relax (h : Shape race q v) (hheld : q'.held ↔ q.held) (hadded : q'.added ↔ q.added)
    (hqueued : q'.queued = q.queued) (hds : q'.dstate = q.dstate) (hasked : q'.asked = q.asked)
    (hmust : q'.mustInv → q.mustInv) (hmay : q.mayFlush → q'.mayFlush) : Shape race q' v := by
  cases h with
  | away hh ha hc hn hstage =>
    exact .away (mt hheld.mp hh) (mt hadded.mp ha) hc hn (hqueued ▸ hstage)
  | added hh ha hc hup hn t hq hp hex =>
    exact .added (hheld.mpr hh) (hadded.mpr ha) hc hup hn t (hqueued.trans hq) hp hex
  | granted hh ha hc hup hq hp pre tail t hdn hn hasks hfits =>
    exact .granted (hheld.mpr hh) (mt hadded.mp ha) hc hup (hqueued.trans hq) hp pre tail t hdn hn
      (hasks.relax hds hasked hmust hmay) (hds ▸ hfits)
  | holding hh ha hq hidle wb hup hasks hfits =>
    exact .holding (hheld.mpr hh) (mt hadded.mp ha) (hqueued.trans hq) hidle wb hup
      (hasks.relax hds hasked hmust hmay) (hds ▸ hfits)
  | upgrading hh ha hc hp wb hasks hs hstage =>
    exact .upgrading (hheld.mpr hh) (mt hadded.mp ha) hc hp wb
      (hasks.relax hds hasked hmust hmay) (hds ▸ hs) (hqueued ▸ hstage)
  | upgraded hh ha hc hp hup hq hd pre tail hdn hi hr hasks hni =>
    exact .upgraded (hheld.mpr hh) (mt hadded.mp ha) hc hp hup (hqueued.trans hq) (hds.trans hd)
      pre tail hdn hi hr (hasks.relax hds hasked hmust hmay) hni
  | leaving hh ha hc hn wb t ht hwb hcl hdt hstage =>
    exact .leaving (hheld.mpr hh) (mt hadded.mp ha) hc hn wb t ht (hasked ▸ hwb) (hds ▸ hcl)
      (fun h => hds ▸ (hdt h).imp id (Or.imp id (·.mono hasked hmay))) (hqueued ▸ hstage)
  | leavingUpgrade hh ha hc hn t ht hf hs hp hstage =>
    exact .leavingUpgrade (hheld.mpr hh) (mt hadded.mp ha) hc hn t ht
      (fun h => (hf h).mono hasked hmay) (hds.trans hs) hp (hqueued ▸ hstage)
  | doomed hr hh ha hc hup hq hp hd pre tail hdn hn hn' =>
    exact .doomed hr (hheld.mpr hh) (mt hadded.mp ha) hc hup (hqueued.trans hq) hp (hds.trans hd)
      pre tail hdn hn hn'

/-- A demand sent to a sharer that the directory waited for nothing from. -/
theorem push (h : Shape race q v) (hheld : q.held) (hadd : ¬q.added) (hq : q.Calm)
    (hp : Pushes t q q') : Shape race q' (v.push t) := by
  have ht := noise_single hp.demand
  cases h with
  | away hh => exact absurd hheld hh
  | added _ ha => exact absurd ha hadd
  | granted _ _ hc hup hqd hpd pre tail u hdn hn hasks hfits =>
    exact .granted hp.held hp.added hc hup (hp.queued.trans hqd) hpd pre (tail ++ [t]) u
      (by simp [View.push, hdn]) hn (hasks.push hq hp)
      (hp.dstate ▸ (hfits.push hp.shared).mono id)
  | holding _ _ hqd hidle wb hup hasks hfits =>
    obtain ⟨rfl, -, -⟩ := hasks.calm hq
    exact .holding hp.held hp.added (hp.queued.trans hqd) hidle false hup (hasks.push hq hp)
      (hp.dstate ▸ hfits.push hp.shared)
  | upgrading _ _ hc hpd wb hasks hs hstage =>
    obtain ⟨rfl, -, -⟩ := hasks.calm hq
    refine .upgrading hp.held hp.added hc hpd false (hasks.push hq hp) (hp.dstate ▸ hs)
      (hp.queued ▸ ?_)
    cases hstage with
    | sent hup hn => exact .sent hup hn
    | sentBefore _ hb => simp at hb
    | waits hup hw => exact .waits hup hw
  | upgraded _ _ hc hpd hup hqd hd pre tail hdn hi hr hasks hni =>
    refine .upgraded hp.held hp.added hc hpd hup (hp.queued.trans hqd) (hp.dstate.trans hd) pre
      (tail ++ [t]) (by simp [View.push, hdn]) hi hr (hasks.push hq hp) ?_
    simpa [hni] using fun h => by simpa [hd] using hp.shared h.symm
  | leaving _ _ hc hn wb u hu hwb hcl hdt hstage =>
    have hb : wb = false := by
      cases wb
      · rfl
      · simpa [hq.asked] using hwb rfl
    have hdt' : u = flushRep → q.dstate = .exclusive ∨ q.dstate = .modified ∨ q'.Flushing :=
      fun h => (hdt h).imp id (Or.imp id (absurd · hq.not_flushing))
    refine .leaving hp.held hp.added hc (hn.append ht) wb u hu (by simp [hb]) (hp.dstate ▸ hcl)
      (hp.dstate ▸ hdt') (hp.queued ▸ ?_)
    cases hstage with
    | none hup hnq hidle => exact .none hup hnq hidle
    | sentEx hup hnq hpd => exact .sentEx hup hnq hpd
    | sentSh hup hnq hpd => exact .sentSh hup hnq hpd
  | leavingUpgrade _ _ hc hn u hu hf hs hpd hstage =>
    refine .leavingUpgrade hp.held hp.added hc (hn.append ht) u hu ?_ (hp.dstate.trans hs) hpd
      (hp.queued ▸ ?_)
    · exact fun hu => absurd (hf hu) hq.not_flushing
    · cases hstage with
      | sent hup hnq => exact .sent hup hnq
      | waits hup hw => exact .waits hup hw
  | doomed hr _ _ hc hup hqd hpd hd pre tail hdn hn hn' =>
    exact .doomed hr hp.held hp.added hc hup (hp.queued.trans hqd) hpd (hp.dstate.trans hd) pre
      (tail ++ [t]) (by simp [View.push, hdn]) hn (hn'.append ht)

end Shape

end Sniper.Coherence
