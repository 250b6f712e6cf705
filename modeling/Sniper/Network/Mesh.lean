import Sniper.Lib.Routing
set_option autoImplicit false

/-! The mesh: its coordinates, and where a router sends a packet. -/

namespace Sniper.Network
open Sniper.Lib

/-- The fields of the network model and of the configuration that routing reads.
`computeMeshDimensions` asserts that the application cores fill the mesh. -/
structure Mesh where
  width : Nat
  height : Nat
  concentration : Nat
  wrapAround : Bool
  broadcastTree : Bool
  totalCores : Nat
  width_pos : 0 < width
  height_pos : 0 < height
  concentration_pos : 0 < concentration
  applicationCores_le : concentration * height * width ≤ totalCores

inductive OutputDirection where
  | up | down | left | right | self | peer | destination
  deriving DecidableEq, Repr

/-- The directions with a link. -/
def OutputDirection.isLink : OutputDirection → Bool
  | .up | .down | .left | .right => true
  | _ => false

abbrev CoreId := Nat

/-- Where a packet is to go in the end: a core, or all of them. -/
inductive Receiver where
  | core (c : CoreId)
  | broadcast
  deriving DecidableEq, Repr

structure Hop where
  direction : OutputDirection
  finalDest : Receiver
  nextDest : CoreId
  deriving DecidableEq, Repr

namespace Mesh

def applicationCores (m : Mesh) : Nat := m.concentration * m.height * m.width

/-- `m_fake_node`: not the master of its concentrated node, or not in the mesh. -/
def fakeNode (m : Mesh) (c : CoreId) : Bool :=
  decide (c % m.concentration ≠ 0) || decide (m.concentration * m.width * m.height ≤ c)

def computePosition (m : Mesh) (c : CoreId) : Int × Int :=
  ((c / m.concentration % m.width : Nat), (c / m.concentration / m.width : Nat))

/-- The arguments are at least -1, so the remainders are those of the source. -/
def computeCoreId (m : Mesh) (x y : Int) : CoreId :=
  let x := (x + m.width) % m.width
  let y := (y + m.height) % m.height
  ((y * m.width + x) * m.concentration).toNat

def computeDistance (m : Mesh) (sender receiver : CoreId) : Int :=
  let (sx, sy) := m.computePosition sender
  let (dx, dy) := m.computePosition receiver
  if m.wrapAround then
    min ((sx - dx).natAbs : Int) (m.width - (sx - dx).natAbs) +
      min ((sy - dy).natAbs : Int) (m.height - (sy - dy).natAbs)
  else (sx - dx).natAbs + (sy - dy).natAbs

def getNextDest (m : Mesh) (coreId finalDest : CoreId) : OutputDirection × CoreId :=
  if m.applicationCores ≤ finalDest then (.destination, finalDest)
  else if coreId / m.concentration = finalDest / m.concentration then (.destination, finalDest)
  else if m.fakeNode coreId then (.peer, coreId - coreId % m.concentration)
  else
    let (sx, sy) := m.computePosition coreId
    let (dx, dy) := m.computePosition finalDest
    if Bool.xor (decide (dx < sx))
        (m.wrapAround && decide ((m.width + 1) / 2 < (sx - dx).natAbs)) then
      (.left, m.computeCoreId (sx - 1) sy)
    else if sx ≠ dx then (.right, m.computeCoreId (sx + 1) sy)
    else if Bool.xor (decide (dy < sy))
        (m.wrapAround && decide ((m.height + 1) / 2 < (sy - dy).natAbs)) then
      (.down, m.computeCoreId sx (sy - 1))
    else if sy ≠ dy then (.up, m.computeCoreId sx (sy + 1))
    else (.self, coreId)

/-- The hops of a packet at the router of `coreId`. -/
def routePacket (m : Mesh) (coreId sender : CoreId) : Receiver → List Hop
  | .broadcast =>
    if m.fakeNode coreId then
      (List.range m.totalCores).map fun i => ⟨.destination, .core i, i⟩
    else if m.broadcastTree then
      let (sx, sy) := m.computePosition sender
      let (cx, cy) := m.computePosition coreId
      (if sy ≤ cy then [⟨.up, .broadcast, m.computeCoreId cx (cy + 1)⟩] else []) ++
      (if cy ≤ sy then [⟨.down, .broadcast, m.computeCoreId cx (cy - 1)⟩] else []) ++
      (if cy = sy then
        (if sx ≤ cx then [⟨.right, .broadcast, m.computeCoreId (cx + 1) cy⟩] else []) ++
        (if cx ≤ sx then [⟨.left, .broadcast, m.computeCoreId (cx - 1) cy⟩] else []) ++
        (if cx = sx then [⟨.self, .core coreId, coreId⟩] else [])
      else [])
    else
      (List.range m.totalCores).map fun i =>
        let (direction, nextDest) := m.getNextDest coreId i
        ⟨direction, .core i, nextDest⟩
  | .core receiver =>
    if m.fakeNode coreId then [⟨.destination, .core receiver, receiver⟩]
    else
      let (direction, nextDest) := m.getNextDest coreId receiver
      [⟨direction, .core receiver, nextDest⟩]

end Mesh

end Sniper.Network
