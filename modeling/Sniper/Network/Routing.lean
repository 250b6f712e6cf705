import Sniper.Network.Mesh
import Mathlib.Tactic.Ring
set_option autoImplicit false

/-! Unicast packets arrive, and how many links they cross. -/

namespace Sniper.Network
open Sniper.Lib

namespace Mesh

variable {m : Mesh} {c d : CoreId} {x y : Int}

theorem applicationCores_eq (m : Mesh) :
    m.applicationCores = m.width * m.height * m.concentration := by
  rw [applicationCores, Nat.mul_comm m.width m.height, Nat.mul_assoc, Nat.mul_comm]

/-- The coordinates of a point of the mesh. -/
def Inside (m : Mesh) (p : Int × Int) : Prop :=
  (0 ≤ p.1 ∧ p.1 < m.width) ∧ 0 ≤ p.2 ∧ p.2 < m.height

theorem computePosition_inside (hc : c < m.applicationCores) : m.Inside (m.computePosition c) := by
  have hw := m.width_pos
  have hx := Nat.mod_lt (c / m.concentration) hw
  have hy : c / m.concentration / m.width < m.height := by
    rw [Nat.div_div_eq_div_mul, Nat.div_lt_iff_lt_mul (Nat.mul_pos m.concentration_pos hw)]
    rw [applicationCores_eq] at hc
    calc c < m.width * m.height * m.concentration := hc
      _ = m.height * (m.concentration * m.width) := by ring
  exact ⟨⟨Int.natCast_nonneg _, Int.ofNat_lt.mpr hx⟩, Int.natCast_nonneg _, Int.ofNat_lt.mpr hy⟩

theorem computePosition_eq_iff :
    m.computePosition c = m.computePosition d ↔ c / m.concentration = d / m.concentration := by
  constructor
  · intro h
    simp only [computePosition, Prod.mk.injEq, Nat.cast_inj] at h
    rw [← Nat.div_add_mod (c / m.concentration) m.width, h.1, h.2, Nat.div_add_mod]
  · intro h
    rw [computePosition, computePosition, h]

/-- The master of the node at a point. -/
def master (m : Mesh) (p : Int × Int) : CoreId := ((p.2 * m.width + p.1) * m.concentration).toNat

theorem master_spec {p : Int × Int} (hp : m.Inside p) :
    m.master p < m.applicationCores ∧ m.fakeNode (m.master p) = false ∧
      m.computePosition (m.master p) = p := by
  obtain ⟨⟨hx0, hx1⟩, hy0, hy1⟩ := hp
  obtain ⟨x, y⟩ := p
  lift x to Nat using hx0
  lift y to Nat using hy0
  simp only [Nat.cast_lt] at hx1 hy1
  have hk := m.concentration_pos
  have hm : m.master ((x : Int), (y : Int)) = (y * m.width + x) * m.concentration := by
    rw [master, ← Nat.cast_mul, ← Nat.cast_add, ← Nat.cast_mul, Int.toNat_natCast]
  have hlt : y * m.width + x < m.width * m.height := by
    calc y * m.width + x < y * m.width + m.width := by omega
      _ = m.width * (y + 1) := by ring
      _ ≤ m.width * m.height := Nat.mul_le_mul_left _ hy1
  have hcores : (y * m.width + x) * m.concentration < m.width * m.height * m.concentration :=
    Nat.mul_lt_mul_of_pos_right hlt hk
  refine ⟨by rw [hm, applicationCores_eq]; exact hcores, ?_, ?_⟩
  · rw [fakeNode, hm, Nat.mul_mod_left]
    simp only [ne_eq, not_true_eq_false, decide_false, Bool.false_or, decide_eq_false_iff_not,
      Nat.not_le]
    calc (y * m.width + x) * m.concentration < m.width * m.height * m.concentration := hcores
      _ = m.concentration * m.width * m.height := by ring
  · rw [hm, computePosition, Nat.mul_div_cancel _ hk, Nat.mul_comm y, Nat.mul_add_mod,
      Nat.mod_eq_of_lt hx1, Nat.mul_add_div m.width_pos, Nat.div_eq_of_lt hx1, Nat.add_zero]

theorem computeCoreId_column (hx : 0 ≤ x ∧ x < m.width) :
    m.computeCoreId x y = m.master (x, (y + m.height) % m.height) := by
  simp only [computeCoreId, master, emod_of_range hx.1 hx.2]

theorem computeCoreId_row (hy : 0 ≤ y ∧ y < m.height) :
    m.computeCoreId x y = m.master ((x + m.width) % m.width, y) := by
  simp only [computeCoreId, master, emod_of_range hy.1 hy.2]

/-- The links between two points on the way of `getNextDest`. -/
def wayBetween (m : Mesh) (p q : Int × Int) : Int :=
  wayLength m.width ((m.width + 1) / 2) m.wrapAround p.1 q.1 +
    wayLength m.height ((m.height + 1) / 2) m.wrapAround p.2 q.2

theorem wayBetween_nonneg {p q : Int × Int} (hp : m.Inside p) (hq : m.Inside q) :
    0 ≤ m.wayBetween p q := by
  rw [wayBetween]
  exact add_nonneg (wayLength_nonneg hp.1 hq.1) (wayLength_nonneg hp.2 hq.2)

theorem wayBetween_self {p : Int × Int} (hp : m.Inside p) : m.wayBetween p p = 0 := by
  have hx : wayLength m.width ((m.width + 1) / 2) m.wrapAround p.1 p.1 = 0 :=
    (wayLength_eq_zero (by omega) hp.1 hp.1).mpr rfl
  have hy : wayLength m.height ((m.height + 1) / 2) m.wrapAround p.2 p.2 = 0 :=
    (wayLength_eq_zero (by omega) hp.2 hp.2).mpr rfl
  rw [wayBetween, hx, hy]
  rfl

/-- The condition of `getNextDest` on one axis. -/
theorem leadsDown_eq (n : Nat) (s d : Int) :
    leadsDown (((n : Int) + 1) / 2) m.wrapAround s d =
      Bool.xor (decide (d < s)) (m.wrapAround && decide ((n + 1) / 2 < (s - d).natAbs)) := by
  have hcast : (((n + 1) / 2 : Nat) : Int) = ((n : Int) + 1) / 2 := by omega
  rw [leadsDown, ← hcast]
  simp only [Nat.cast_lt]

/-- A router that is not at the end of the way takes a link, to the master of the next node on the
way. -/
theorem getNextDest_link (hc : c < m.applicationCores) (hd : d < m.applicationCores)
    (hfake : m.fakeNode c = false) (hne : c / m.concentration ≠ d / m.concentration) :
    (m.getNextDest c d).1.isLink = true ∧ ∃ p, m.Inside p ∧ (m.getNextDest c d).2 = m.master p ∧
      m.wayBetween p (m.computePosition d) + 1 =
        m.wayBetween (m.computePosition c) (m.computePosition d) := by
  have hcp := computePosition_inside hc
  have hdp := computePosition_inside hd
  have hpos : m.computePosition c ≠ m.computePosition d := fun h => hne (computePosition_eq_iff.mp h)
  rw [getNextDest, if_neg (Nat.not_le.mpr hd), if_neg hne,
    if_neg (by rw [hfake]; exact Bool.false_ne_true)]
  simp only [← leadsDown_eq]
  generalize m.computePosition c = p at hcp hpos ⊢
  generalize m.computePosition d = q at hdp hpos ⊢
  obtain ⟨hpx, hpy⟩ := hcp
  obtain ⟨hqx, hqy⟩ := hdp
  by_cases hxd : p.1 = q.1
  · have hyd : p.2 ≠ q.2 := fun h => hpos (Prod.ext hxd h)
    have hx : leadsDown (((m.width : Int) + 1) / 2) m.wrapAround p.1 q.1 = false := by
      rw [hxd, leadsDown]
      simp
      omega
    obtain ⟨hin, hlen⟩ := wayLength_step (t := ((m.height : Int) + 1) / 2)
      (by omega) hpy hqy hyd
    rw [if_neg (by rw [hx]; exact Bool.false_ne_true), if_neg (not_not.mpr hxd)]
    by_cases hdown : leadsDown (((m.height : Int) + 1) / 2) m.wrapAround p.2 q.2 = true
    · rw [if_pos hdown] at hin hlen ⊢
      refine ⟨rfl, (p.1, stepDown m.height p.2), ⟨hpx, hin⟩, computeCoreId_column hpx, ?_⟩
      simp only [wayBetween]
      omega
    · rw [if_neg hdown] at hin hlen
      rw [if_neg hdown, if_pos hyd]
      refine ⟨rfl, (p.1, stepUp m.height p.2), ⟨hpx, hin⟩, computeCoreId_column hpx, ?_⟩
      simp only [wayBetween]
      omega
  · obtain ⟨hin, hlen⟩ := wayLength_step (t := ((m.width : Int) + 1) / 2)
      (by omega) hpx hqx hxd
    by_cases hdown : leadsDown (((m.width : Int) + 1) / 2) m.wrapAround p.1 q.1 = true
    · rw [if_pos hdown] at hin hlen ⊢
      refine ⟨rfl, (stepDown m.width p.1, p.2), ⟨hin, hpy⟩, computeCoreId_row hpy, ?_⟩
      simp only [wayBetween]
      omega
    · rw [if_neg hdown] at hin hlen
      rw [if_neg hdown, if_pos hxd]
      refine ⟨rfl, (stepUp m.width p.1, p.2), ⟨hin, hpy⟩, computeCoreId_row hpy, ?_⟩
      simp only [wayBetween]
      omega

/-- On the node of the destination the packet is delivered. -/
theorem getNextDest_node (hsame : c / m.concentration = d / m.concentration) :
    m.getNextDest c d = (.destination, d) := by
  rw [getNextDest, if_pos hsame, ite_self]

/-- A core that is not the master of its node hands the packet to the master. -/
theorem getNextDest_peer (hd : d < m.applicationCores)
    (hne : c / m.concentration ≠ d / m.concentration) (hfake : m.fakeNode c = true) :
    m.getNextDest c d = (.peer, c - c % m.concentration) := by
  rw [getNextDest, if_neg (Nat.not_le.mpr hd), if_neg hne, if_pos hfake]

theorem master_of_peer :
    c - c % m.concentration = m.master (m.computePosition c) := by
  have hpos : m.master (m.computePosition c) = c / m.concentration * m.concentration := by
    simp only [master, computePosition]
    rw [← Nat.cast_mul, ← Nat.cast_add, ← Nat.cast_mul, Int.toNat_natCast, Nat.mul_comm (_ / m.width),
      Nat.div_add_mod]
  rw [hpos]
  exact Nat.sub_eq_of_eq_add (Nat.div_add_mod' c m.concentration).symm

theorem node_of_position {p : Int × Int} (hp : m.Inside p) (hpos : m.computePosition d = p) :
    m.master p / m.concentration = d / m.concentration :=
  computePosition_eq_iff.mp ((master_spec hp).2.2.trans hpos.symm)

/-- Whatever a core does with a packet for elsewhere, the packet stays in the mesh and comes no
farther from its destination; `fakeNode` counts the hop to the master. -/
theorem getNextDest_hop (hc : c < m.applicationCores) (hd : d < m.applicationCores)
    (hnext : (m.getNextDest c d).2 ≠ d) :
    (m.getNextDest c d).2 < m.applicationCores ∧ m.fakeNode (m.getNextDest c d).2 = false ∧
      m.wayBetween (m.computePosition (m.getNextDest c d).2) (m.computePosition d) +
        (m.getNextDest c d).1.isLink.toNat =
          m.wayBetween (m.computePosition c) (m.computePosition d) ∧
      ((m.getNextDest c d).1.isLink = true ∨ m.fakeNode c = true) := by
  by_cases hsame : c / m.concentration = d / m.concentration
  · rw [getNextDest_node hsame] at hnext
    exact absurd rfl hnext
  · cases hfake : m.fakeNode c with
    | true =>
      obtain ⟨hlt, hmaster, hpos⟩ := master_spec (computePosition_inside hc)
      rw [getNextDest_peer hd hsame hfake, master_of_peer]
      exact ⟨hlt, hmaster, by rw [hpos]; exact Int.add_zero _, .inr rfl⟩
    | false =>
      obtain ⟨hlink, p, hp, hnext', hway⟩ := getNextDest_link hc hd hfake hsame
      obtain ⟨hlt, hmaster, hpos⟩ := master_spec hp
      rw [hnext', hlink, hpos]
      exact ⟨hlt, hmaster, hway, .inl rfl⟩

/-- The hop that arrives takes the last link, if there is one. -/
theorem getNextDest_last (hc : c < m.applicationCores) (hd : d < m.applicationCores)
    (hnext : (m.getNextDest c d).2 = d) :
    ((m.getNextDest c d).1.isLink.toNat : Int) =
      m.wayBetween (m.computePosition c) (m.computePosition d) := by
  by_cases hsame : c / m.concentration = d / m.concentration
  · rw [getNextDest_node hsame, computePosition_eq_iff.mpr hsame,
      wayBetween_self (computePosition_inside hd)]
    rfl
  · cases hfake : m.fakeNode c with
    | true =>
      -- the master is on the core's own node
      rw [getNextDest_peer hd hsame hfake, master_of_peer] at hnext
      have hnode := node_of_position (computePosition_inside hc) rfl
      simp only at hnext
      rw [hnext] at hnode
      exact absurd hnode.symm hsame
    | false =>
      obtain ⟨hlink, p, hp, hnext', hway⟩ := getNextDest_link hc hd hfake hsame
      have hpos := (master_spec hp).2.2
      rw [← hnext', hnext] at hpos
      rw [hpos, wayBetween_self hp] at hway
      rw [hlink, hpos, ← hway]
      rfl

/-- The links among the hops of a walk. -/
def linkHops (hops : List (OutputDirection × CoreId)) : Nat :=
  hops.countP fun h => h.1.isLink

/-- The hops from one core to another by the rule of `getNextDest`. -/
def route (m : Mesh) (receiver : CoreId) : Nat → CoreId → Option (List (OutputDirection × CoreId)) :=
  follow (fun c => m.getNextDest c receiver) receiver

/-- The walk ends: every link shortens the way, and only the first hop may be to a master. -/
theorem route_arrives (hc : c < m.applicationCores) (hd : d < m.applicationCores) :
    ∃ fuel hops, m.route d fuel c = some hops := by
  obtain ⟨hops, h⟩ := follow_arrives (d := d)
    (P := fun c => c < m.applicationCores)
    (fun c => 2 * (m.wayBetween (m.computePosition c) (m.computePosition d)).toNat +
      (m.fakeNode c).toNat) (fun c hc hnext => by
      obtain ⟨hlt, hfake, hway, hor⟩ := getNextDest_hop hc hd hnext
      have h0 := wayBetween_nonneg (computePosition_inside hlt) (computePosition_inside hd)
      refine ⟨hlt, ?_⟩
      rw [hfake]
      rcases hor with hlink | hpeer
      · rw [hlink] at hway
        simp only [Bool.toNat_true, Bool.toNat_false] at hway ⊢
        omega
      · rw [hpeer]
        cases hl : (m.getNextDest c d).1.isLink <;> rw [hl] at hway <;>
          simp only [Bool.toNat_true, Bool.toNat_false] at hway ⊢ <;> omega) hc
  exact ⟨_, hops, h⟩

/-- A walk ends at its receiver, stays on the cores of the mesh and takes the links of the way. -/
theorem route_spec {fuel : Nat} {hops : List (OutputDirection × CoreId)}
    (hc : c < m.applicationCores) (hd : d < m.applicationCores)
    (h : m.route d fuel c = some hops) :
    (∃ dir, hops.getLast? = some (dir, d)) ∧ (∀ hop ∈ hops, hop.2 < m.applicationCores) ∧
      (linkHops hops : Int) = m.wayBetween (m.computePosition c) (m.computePosition d) := by
  refine follow_induction (P := fun c => c < m.applicationCores)
    (Q := fun c hops => (∃ dir, hops.getLast? = some (dir, d)) ∧
      (∀ hop ∈ hops, hop.2 < m.applicationCores) ∧
      (linkHops hops : Int) = m.wayBetween (m.computePosition c) (m.computePosition d))
    (fun c hc hnext => ?_) (fun c hops hc hnext => ?_) hc h
  · refine ⟨⟨(m.getNextDest c d).1, ?_⟩, fun hop hhop => ?_, ?_⟩
    · exact congrArg some (Prod.ext rfl hnext)
    · rw [List.mem_singleton.mp hhop, hnext]
      exact hd
    · rw [← getNextDest_last hc hd hnext, linkHops, List.countP_singleton]
      cases (m.getNextDest c d).1.isLink <;> rfl
  · obtain ⟨hlt, -, hway, -⟩ := getNextDest_hop hc hd hnext
    refine ⟨hlt, fun ⟨⟨dir, hlast⟩, hcores, hlinks⟩ => ⟨⟨dir, ?_⟩, fun hop hhop => ?_, ?_⟩⟩
    · rw [List.getLast?_cons, hlast]
      rfl
    · rcases List.mem_cons.mp hhop with rfl | hhop
      · exact hlt
      · exact hcores hop hhop
    · rw [← hway, ← hlinks, linkHops, List.countP_cons, linkHops]
      cases (m.getNextDest c d).1.isLink <;> simp

theorem computeDistance_eq (m : Mesh) (c d : CoreId) :
    m.computeDistance c d =
      axisDistance m.width m.wrapAround (m.computePosition c).1 (m.computePosition d).1 +
        axisDistance m.height m.wrapAround (m.computePosition c).2 (m.computePosition d).2 := by
  simp only [computeDistance, axisDistance]
  cases m.wrapAround <;> rfl

/-- Just over half way round a ring of an odd number of nodes. -/
def Halfway (n : Nat) (s d : Int) : Prop := 2 * (s - d).natAbs = n + 1

/-- The walk from `s` to `r` arrives, over cores of the mesh, and takes as many links as the
distance says. -/
def RoutesMinimally (m : Mesh) (s r : CoreId) : Prop :=
  ∃ fuel hops, m.route r fuel s = some hops ∧ (∃ dir, hops.getLast? = some (dir, r)) ∧
    (∀ hop ∈ hops, hop.2 < m.applicationCores) ∧ (linkHops hops : Int) = m.computeDistance s r

theorem wayBetween_eq (m : Mesh) (c d : CoreId) :
    m.wayBetween (m.computePosition c) (m.computePosition d) = m.computeDistance c d ↔
      (m.wrapAround = true →
        ¬Halfway m.width (m.computePosition c).1 (m.computePosition d).1 ∧
        ¬Halfway m.height (m.computePosition c).2 (m.computePosition d).2) := by
  have hx : wayLength m.width ((m.width + 1) / 2) m.wrapAround (m.computePosition c).1
      (m.computePosition d).1 = _ := wayLength_eq rfl
  have hy : wayLength m.height ((m.height + 1) / 2) m.wrapAround (m.computePosition c).2
      (m.computePosition d).2 = _ := wayLength_eq rfl
  rw [wayBetween, computeDistance_eq, hx, hy]
  simp only [Halfway]
  cases m.wrapAround with
  | false => simp
  | true =>
    simp only [true_and, true_implies]
    split <;> split <;> omega

theorem routesMinimally_iff_not_halfway (hc : c < m.applicationCores) (hd : d < m.applicationCores) :
    m.RoutesMinimally c d ↔
      (m.wrapAround = true →
        ¬Halfway m.width (m.computePosition c).1 (m.computePosition d).1 ∧
        ¬Halfway m.height (m.computePosition c).2 (m.computePosition d).2) := by
  rw [← wayBetween_eq]
  constructor
  · rintro ⟨fuel, hops, h, -, -, hlinks⟩
    rw [← (route_spec hc hd h).2.2, hlinks]
  · intro hway
    obtain ⟨fuel, hops, h⟩ := route_arrives hc hd
    obtain ⟨hlast, hcores, hlinks⟩ := route_spec hc hd h
    exact ⟨fuel, hops, h, hlast, hcores, by rw [hlinks, hway]⟩

/-- The hop the loop of `netSend` takes at a core: the only one `routePacket` gives. -/
def sendHop (m : Mesh) (sender receiver c : CoreId) : OutputDirection × CoreId :=
  match m.routePacket c sender (.core receiver) with
  | hop :: _ => (hop.direction, hop.nextDest)
  | [] => (.self, c)

theorem sendHop_eq (m : Mesh) (sender receiver c : CoreId) :
    (m.routePacket c sender (.core receiver)).length = 1 ∧
      m.sendHop sender receiver c =
        if m.fakeNode c then (.destination, receiver) else m.getNextDest c receiver := by
  rw [sendHop, routePacket]
  cases m.fakeNode c <;> exact ⟨rfl, rfl⟩

/-- The hops of the loop of `netSend`. -/
def netSendRoute (m : Mesh) (sender receiver : CoreId) :
    Nat → CoreId → Option (List (OutputDirection × CoreId)) :=
  follow (m.sendHop sender receiver) receiver

/-- From a master on, the walk meets masters only, and `netSend` takes it. -/
theorem netSendRoute_master (hc : c < m.applicationCores) (hd : d < m.applicationCores)
    (hfake : m.fakeNode c = false) (fuel : Nat) : m.netSendRoute c d fuel c = m.route d fuel c := by
  refine follow_congr (P := fun b => b < m.applicationCores ∧ m.fakeNode b = false) (fun b hb => ?_)
    (fun b hb hnext => ?_) fuel ⟨hc, hfake⟩
  · rw [(sendHop_eq m c d b).2, if_neg (by rw [hb.2]; exact Bool.false_ne_true)]
  · obtain ⟨hlt, hmaster, -, -⟩ := getNextDest_hop hb.1 hd hnext
    exact ⟨hlt, hmaster⟩

theorem netSendRoute_fake (hfake : m.fakeNode c = true) (fuel : Nat) :
    m.netSendRoute c d (fuel + 1) c = some [(.destination, d)] := by
  have hhop : m.sendHop c d c = (.destination, d) := by rw [(sendHop_eq m c d c).2, if_pos hfake]
  rw [netSendRoute, follow_last (by rw [hhop]), hhop]

/-- Between any two cores of a mesh or torus the walk arrives over cores of the mesh. It crosses
as many links as the distance says, unless the torus has an odd number of columns or rows and the
receiver is just over half way round. `netSend` takes this walk from the masters; any other core
sends straight to the receiver. -/
theorem routes_minimally_off_halfway (m : Mesh) (s r : CoreId) (hs : s < m.applicationCores)
    (hr : r < m.applicationCores) :
    (∃ fuel hops, m.route r fuel s = some hops ∧ (∃ dir, hops.getLast? = some (dir, r)) ∧
      ∀ hop ∈ hops, hop.2 < m.applicationCores) ∧
    (m.RoutesMinimally s r ↔
      (m.wrapAround = true →
        ¬Halfway m.width (m.computePosition s).1 (m.computePosition r).1 ∧
        ¬Halfway m.height (m.computePosition s).2 (m.computePosition r).2)) ∧
    (m.fakeNode s = false → ∀ fuel, m.netSendRoute s r fuel s = m.route r fuel s) ∧
    (m.fakeNode s = true → ∀ fuel, m.netSendRoute s r (fuel + 1) s = some [(.destination, r)]) := by
  obtain ⟨fuel, hops, h⟩ := route_arrives hs hr
  obtain ⟨hlast, hcores, -⟩ := route_spec hs hr h
  exact ⟨⟨fuel, hops, h, hlast, hcores⟩, routesMinimally_iff_not_halfway hs hr,
    netSendRoute_master hs hr, netSendRoute_fake⟩

/-- A 4 × 3 torus with two cores on each node. -/
def torus : Mesh where
  width := 4
  height := 3
  concentration := 2
  wrapAround := true
  broadcastTree := true
  totalCores := 26
  width_pos := by decide
  height_pos := by decide
  concentration_pos := Nat.two_pos
  applicationCores_le := by decide

theorem routes_minimally_off_halfway_torus : torus.RoutesMinimally 1 15 := by
  refine (routes_minimally_off_halfway torus 1 15 (by decide) (by decide)).2.1.mpr fun _ => ?_
  unfold Halfway
  decide

/-- A ring of three cores. -/
def ring : Mesh where
  width := 3
  height := 1
  concentration := 1
  wrapAround := true
  broadcastTree := true
  totalCores := 3
  width_pos := by decide
  height_pos := Nat.one_pos
  concentration_pos := Nat.one_pos
  applicationCores_le := by decide

/-- The two neighbours of a core on a ring of three are neighbours, but the walk goes through the
core. -/
theorem ring_not_minimal : ¬ring.RoutesMinimally 0 2 := by
  rw [routesMinimally_iff_not_halfway (by decide) (by decide)]
  intro h
  exact (h rfl).1 rfl

end Mesh

end Sniper.Network
