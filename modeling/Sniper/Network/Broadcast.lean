import Sniper.Network.Routing
import Mathlib.Data.List.Nodup
import Mathlib.Data.List.Forall2
import Mathlib.Logic.Relation
import Mathlib.Order.WellFounded
set_option autoImplicit false

/-! The packets of a broadcast. -/

namespace Sniper.Network
open Sniper.Lib

/-- A packet in the transport, on its way to a core. -/
structure Packet where
  core : CoreId
  receiver : Receiver
  deriving DecidableEq, Repr

/-- The packets in the transport and the cores that have processed one, in order. -/
structure Transport where
  inFlight : List Packet
  delivered : List CoreId

namespace Mesh

variable {m : Mesh} {sender c : CoreId}

/-- What `netSend` hands to the transport for one hop: a broadcast packet goes to the next router,
any other packet to its receiver once the loop has got there. -/
def Settles (m : Mesh) (sender : CoreId) (hop : Hop) (p : Packet) : Prop :=
  match hop.finalDest with
  | .broadcast => p = ⟨hop.nextDest, .broadcast⟩
  | .core d => p = ⟨d, .core d⟩ ∧
    (hop.nextDest = d ∨ ∃ fuel hops, m.netSendRoute sender d fuel hop.nextDest = some hops)

/-- `netSend` at a core, for a packet from `sender`. -/
def NetSend (m : Mesh) (c sender : CoreId) (receiver : Receiver) (ps : List Packet) : Prop :=
  List.Forall₂ (m.Settles sender) (m.routePacket c sender receiver) ps

/-- A core pulls a packet from the transport. -/
inductive Pull (m : Mesh) (sender : CoreId) : Transport → Transport → Prop where
  | receive {before after : List Packet} {c : CoreId} {ds : List CoreId} :
      Pull m sender ⟨before ++ ⟨c, .core c⟩ :: after, ds⟩ ⟨before ++ after, ds ++ [c]⟩
  | forward {before after ps : List Packet} {c d : CoreId} {ds : List CoreId} : d ≠ c →
      m.NetSend c sender (.core d) ps →
      Pull m sender ⟨before ++ ⟨c, .core d⟩ :: after, ds⟩ ⟨before ++ after ++ ps, ds⟩
  | broadcast {before after ps : List Packet} {c : CoreId} {ds : List CoreId} :
      m.NetSend c sender .broadcast ps →
      Pull m sender ⟨before ++ ⟨c, .broadcast⟩ :: after, ds⟩ ⟨before ++ after ++ ps, ds ++ [c]⟩

/-- A broadcast from `sender` comes to an end whatever the order of the packets, and then every
core has processed it once. -/
def BroadcastsOnce (m : Mesh) (sender : CoreId) : Prop :=
  ∃ ps, m.NetSend sender sender .broadcast ps ∧
    Acc (fun t s => m.Pull sender s t) ⟨ps, []⟩ ∧
    ∀ t, Relation.ReflTransGen (m.Pull sender) ⟨ps, []⟩ t → t.inFlight = [] →
      ∀ c < m.totalCores, t.delivered.count c = 1

theorem netSend_unique {receiver : Receiver} {ps ps' : List Packet}
    (h : m.NetSend c sender receiver ps) (h' : m.NetSend c sender receiver ps') : ps = ps' := by
  refine List.right_unique_forall₂' (fun hop p q hp hq => ?_) h h'
  rw [Settles] at hp hq
  cases hd : hop.finalDest with
  | broadcast =>
    rw [hd] at hp hq
    exact hp.trans hq.symm
  | core d =>
    rw [hd] at hp hq
    exact hp.1.trans hq.1.symm

/-- A packet for the core it is on its way to. -/
def Packet.AtHome (p : Packet) : Prop := p.receiver = .core p.core

/-- Packets for the core they are on their way to are processed one by one. -/
theorem pull_atHome {s t : Transport} (hs : ∀ p ∈ s.inFlight, Packet.AtHome p)
    (h : m.Pull sender s t) :
    (∀ p ∈ t.inFlight, Packet.AtHome p) ∧ t.inFlight.length + 1 = s.inFlight.length ∧
      (t.delivered ++ t.inFlight.map Packet.core).Perm (s.delivered ++ s.inFlight.map Packet.core) := by
  cases h with
  | @receive before after c ds =>
    refine ⟨fun p hp => hs p ?_, by simp only [List.length_append, List.length_cons]; omega, ?_⟩
    · rcases List.mem_append.mp hp with hp | hp
      · exact List.mem_append_left _ hp
      · exact List.mem_append_right _ (List.mem_cons_of_mem _ hp)
    · simp only [List.map_append, List.map_cons, List.append_assoc, List.singleton_append]
      exact List.Perm.append_left ds List.perm_middle.symm
  | @forward before after ps c d ds hne _ =>
    have hhome := hs ⟨c, .core d⟩ (List.mem_append_right _ List.mem_cons_self)
    exact absurd (Receiver.core.inj hhome) hne
  | @broadcast before after ps c ds _ =>
    have hhome := hs ⟨c, .broadcast⟩ (List.mem_append_right _ List.mem_cons_self)
    cases hhome

theorem acc_atHome {s : Transport} (hs : ∀ p ∈ s.inFlight, Packet.AtHome p) :
    Acc (fun t s => m.Pull sender s t) s := by
  induction hn : s.inFlight.length using Nat.strong_induction_on generalizing s with
  | _ n ih =>
    refine Acc.intro _ fun t ht => ?_
    obtain ⟨hhome, hlen, -⟩ := pull_atHome hs ht
    exact ih t.inFlight.length (by omega) hhome rfl

theorem pulls_atHome {s t : Transport} (hs : ∀ p ∈ s.inFlight, Packet.AtHome p)
    (h : Relation.ReflTransGen (m.Pull sender) s t) :
    (∀ p ∈ t.inFlight, Packet.AtHome p) ∧
      (t.delivered ++ t.inFlight.map Packet.core).Perm
        (s.delivered ++ s.inFlight.map Packet.core) := by
  induction h with
  | refl => exact ⟨hs, List.Perm.refl _⟩
  | tail _ hpull ih =>
    obtain ⟨hhome, -, hperm⟩ := pull_atHome ih.1 hpull
    exact ⟨hhome, hperm.trans ih.2⟩

/-- A core that is not a master sends a packet of its own to each core. -/
theorem broadcastsOnce_of_fake (hfake : m.fakeNode sender = true) : m.BroadcastsOnce sender := by
  have hroute : m.routePacket sender sender .broadcast =
      (List.range m.totalCores).map fun i => ⟨.destination, .core i, i⟩ := by
    rw [routePacket, if_pos hfake]
  have hhome : ∀ p ∈ (List.range m.totalCores).map (fun i => (⟨i, .core i⟩ : Packet)),
      Packet.AtHome p := by
    intro p hp
    obtain ⟨i, -, rfl⟩ := List.mem_map.mp hp
    rfl
  refine ⟨(List.range m.totalCores).map fun i => ⟨i, .core i⟩, ?_, acc_atHome hhome, ?_⟩
  · rw [NetSend, hroute, List.forall₂_map_left_iff, List.forall₂_map_right_iff, List.forall₂_same]
    exact fun i _ => ⟨rfl, .inl rfl⟩
  · intro t ht hempty c hc
    obtain ⟨-, hperm⟩ := pulls_atHome hhome ht
    rw [hempty, List.map_nil, List.append_nil, List.nil_append, List.map_map] at hperm
    have hcores : ((List.range m.totalCores).map (Packet.core ∘ fun i => ⟨i, .core i⟩)) =
        List.range m.totalCores := List.map_id _
    rw [hperm.count_eq, hcores, List.count_eq_one_of_mem List.nodup_range (List.mem_range.mpr hc)]

/-- The routers of the tree: masters within the mesh. -/
def IsMaster (m : Mesh) (c : CoreId) : Prop := c < m.applicationCores ∧ m.fakeNode c = false

theorem computeCoreId_isMaster (m : Mesh) (x y : Int) : m.IsMaster (m.computeCoreId x y) := by
  have hw : (0 : Int) < m.width := Int.natCast_pos.mpr m.width_pos
  have hh : (0 : Int) < m.height := Int.natCast_pos.mpr m.height_pos
  have hp : m.Inside ((x + m.width) % m.width, (y + m.height) % m.height) :=
    ⟨⟨Int.emod_nonneg _ (by omega), Int.emod_lt_of_pos _ hw⟩,
      Int.emod_nonneg _ (by omega), Int.emod_lt_of_pos _ hh⟩
  obtain ⟨hlt, hfake, -⟩ := master_spec hp
  exact ⟨hlt, hfake⟩

/-- Whatever `routePacket` gives in the tree, it can be sent. -/
theorem netSend_of_hops {hops : List Hop}
    (hroute : m.routePacket c sender .broadcast = hops)
    (hhops : ∀ hop ∈ hops, hop.finalDest = .broadcast ∨ hop.finalDest = .core hop.nextDest) :
    m.NetSend c sender .broadcast (hops.map fun hop => ⟨hop.nextDest, hop.finalDest⟩) := by
  rw [NetSend, hroute, List.forall₂_map_right_iff, List.forall₂_same]
  intro hop hmem
  rw [Settles]
  rcases hhops hop hmem with hb | hd
  · rw [hb]
  · rw [hd]
    exact ⟨rfl, .inl rfl⟩

/-- A router of the tree forwards every broadcast packet to a router of the tree: it has a row
above or below to send to wherever it is, since rows are counted round. -/
theorem netSend_tree (htree : m.broadcastTree = true) (hc : m.fakeNode c = false) :
    ∃ ps, m.NetSend c sender .broadcast ps ∧ ∃ d, m.IsMaster d ∧ ⟨d, .broadcast⟩ ∈ ps := by
  have hfake : ¬m.fakeNode c = true := by rw [hc]; exact Bool.false_ne_true
  refine ⟨_, netSend_of_hops rfl fun hop hmem => ?_, ?_⟩
  · rw [routePacket, if_neg hfake, if_pos htree] at hmem
    simp only [List.mem_append, List.mem_ite_nil_right, List.mem_singleton] at hmem
    rcases hmem with (⟨-, rfl⟩ | ⟨-, rfl⟩) | ⟨-, (⟨-, rfl⟩ | ⟨-, rfl⟩) | ⟨-, rfl⟩⟩
    · exact .inl rfl
    · exact .inl rfl
    · exact .inl rfl
    · exact .inl rfl
    · exact .inr rfl
  · rw [routePacket, if_neg hfake, if_pos htree]
    generalize m.computePosition sender = s
    generalize m.computePosition c = p
    by_cases hle : s.2 ≤ p.2
    · refine ⟨_, m.computeCoreId_isMaster p.1 (p.2 + 1), ?_⟩
      simp only [if_pos hle, List.map_append, List.mem_append, List.map_cons, List.mem_cons]
      simp
    · refine ⟨_, m.computeCoreId_isMaster p.1 (p.2 - 1), ?_⟩
      have hge : p.2 ≤ s.2 := by omega
      simp only [if_pos hge, List.map_append, List.mem_append, List.map_cons, List.mem_cons]
      simp

/-- While a broadcast packet is on its way to a router of the tree, there is a next step, after
which that is so again. -/
theorem pull_forever (htree : m.broadcastTree = true) {s : Transport}
    (hs : ∃ d, m.IsMaster d ∧ ⟨d, .broadcast⟩ ∈ s.inFlight) :
    ∃ t, m.Pull sender s t ∧ ∃ d, m.IsMaster d ∧ ⟨d, .broadcast⟩ ∈ t.inFlight := by
  obtain ⟨c, hc, hmem⟩ := hs
  obtain ⟨before, after, hsplit⟩ := List.append_of_mem hmem
  obtain ⟨ps, hsend, d, hd, hps⟩ := netSend_tree htree hc.2
  refine ⟨⟨before ++ after ++ ps, s.delivered ++ [c]⟩, ?_, d, hd, List.mem_append_right _ hps⟩
  have hstate : s = ⟨before ++ ⟨c, .broadcast⟩ :: after, s.delivered⟩ := by rw [← hsplit]
  rw [hstate]
  exact .broadcast hsend

/-- From a master the broadcast never ends. -/
theorem not_broadcastsOnce_of_master (htree : m.broadcastTree = true)
    (hfake : m.fakeNode sender = false) : ¬m.BroadcastsOnce sender := by
  rintro ⟨ps, hsend, hacc, -⟩
  have hforever : ∀ s, Acc (fun t s => m.Pull sender s t) s →
      ¬∃ d, m.IsMaster d ∧ ⟨d, .broadcast⟩ ∈ s.inFlight := by
    intro s hs
    induction hs with
    | intro s _ ih =>
      intro hmem
      obtain ⟨t, hpull, hnext⟩ := pull_forever htree hmem
      exact ih t hpull hnext
  refine hforever _ hacc ?_
  obtain ⟨ps', hsend', hmem⟩ := netSend_tree htree hfake
  rw [netSend_unique hsend hsend']
  exact hmem

/-- With the broadcast tree, a broadcast reaches every core once and ends exactly when it comes
from a core that is not the master of its node, which does not use the tree. -/
theorem broadcastsOnce_iff_fakeNode (m : Mesh) (sender : CoreId) (htree : m.broadcastTree = true) :
    m.BroadcastsOnce sender ↔ m.fakeNode sender = true := by
  constructor
  · intro h
    by_contra hfake
    exact not_broadcastsOnce_of_master htree (Bool.eq_false_iff.mpr hfake) h
  · exact broadcastsOnce_of_fake

theorem broadcastsOnce_iff_fakeNode_torus : torus.BroadcastsOnce 1 :=
  (broadcastsOnce_iff_fakeNode torus 1 rfl).mpr (by decide)

/-- Even on a ring of three cores the broadcast of a core goes round for ever. -/
theorem ring_broadcast_endless : ¬ring.BroadcastsOnce 0 :=
  not_broadcastsOnce_of_master rfl (by decide)

end Mesh

end Sniper.Network
