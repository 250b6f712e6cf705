import Mathlib.Algebra.Group.Int.Defs
import Mathlib.Algebra.Group.Nat.Defs
import Mathlib.Data.List.Nodup
import Mathlib.Data.Nat.Sqrt
set_option autoImplicit false

/-! Which cores of the mesh the memory controllers are at. -/

namespace Sniper.Network

/-- `network/emesh_hop_by_hop/size`, as it is read with "%d:%d". -/
inductive MeshSize where
  | automatic
  | given (width height : Int)
  | malformed
  deriving DecidableEq

/-- Integers of 32 bits with a sign, whose overflow the language leaves undefined. -/
structure MeshConfig where
  /-- `Config::getApplicationCores`, which the configuration asserts to be positive -/
  coreCount : Int
  /-- cores at a stop of the network, times the logical processors of a core -/
  concentration : Int
  dimensions : Int
  size : MeshSize
  coreCount_pos : 0 < coreCount
  coreCount_lt : coreCount < 2 ^ 31

inductive MeshAbort where
  | invalidDimensions
  | wrongCoreCount
  | invalidSize
  | perimeterLength
  | tooManyControllers
  /-- a division by zero, or a number of doubles that no integer is -/
  | undefined
  deriving DecidableEq

namespace MeshConfig

/-- Quotients are of doubles in the source: those of the nodes are exact, and where the
concentration does not divide the cores no height passes the assertion that follows. -/
def automaticDimensions (cfg : MeshConfig) : Except MeshAbort (Int × Int) :=
  let nodes := cfg.coreCount.tdiv cfg.concentration
  if cfg.dimensions = 1 then
    if cfg.concentration = 0 then .error .undefined else .ok (nodes, 1)
  else if cfg.dimensions = 2 then
    if nodes ≤ 0 then .error .undefined
    else
      let width : Int := nodes.toNat.sqrt
      .ok (width, (nodes + width - 1) / width)
  else .error .invalidDimensions

def computeMeshDimensions (cfg : MeshConfig) : Except MeshAbort (Int × Int) :=
  match cfg.size with
  | .automatic => do
    let (width, height) ← cfg.automaticDimensions
    if cfg.coreCount = cfg.concentration * height * width then .ok (width, height)
    else .error .wrongCoreCount
  | .given width height =>
    if cfg.coreCount = cfg.concentration * height * width then .ok (width, height)
    else .error .wrongCoreCount
  | .malformed => .error .invalidSize

/-- The values of a loop's counter from `low` to below `high`. -/
def upTo (low high : Int) : List Int :=
  (List.range (high - low).toNat).map fun (i : Nat) => low + i

def coreIdListAlongPerimeter (dimensions width height : Int) : List Int :=
  upTo 0 width ++
    if 1 < dimensions ∧ 1 < height then
      (upTo 1 (height - 1)).map (fun i => i * width + (width - 1)) ++
        (upTo 0 width).reverse.map (fun i => (height - 1) * width + i) ++
        (upTo 1 (height - 1)).reverse.map (fun i => i * width)
    else []

/-- The perimeter has a positive width where it is not empty. -/
def controllerAt (perimeter : List Int) (width : Int) (spacing i : Nat) : Int :=
  perimeter.getD ((width.toNat / 2 + i * spacing) % perimeter.length) 0

/-- `coreCount` is the application cores in every call, and not read. -/
def computeMemoryControllerPositions (cfg : MeshConfig) (numMemoryControllers : BitVec 32) :
    Except MeshAbort (List Int) := do
  let (width, height) ← cfg.computeMeshDimensions
  let perimeter := coreIdListAlongPerimeter cfg.dimensions width height
  if 1 < cfg.dimensions ∧ 1 < height ∧
      (perimeter.length : Int) ≠ 2 * (width + height - 2) % 2 ^ 32 then
    throw .perimeterLength
  if perimeter.length < numMemoryControllers.toNat then throw .tooManyControllers
  if numMemoryControllers = 0 then throw .undefined
  let spacing := perimeter.length / (numMemoryControllers.signExtend 64).toNat
  return (List.range numMemoryControllers.toInt.toNat).map fun i =>
    cfg.concentration * controllerAt perimeter width spacing i

/-- So many controllers, at different cores of the mesh. -/
structure PlacedApart (cfg : MeshConfig) (numMemoryControllers : BitVec 32) (cores : List Int) :
    Prop where
  length : (cores.length : Int) = numMemoryControllers.toInt
  nodup : cores.Nodup
  valid : ∀ core ∈ cores, 0 ≤ core ∧ core < cfg.coreCount

/-- The configuration makes the mesh one node wide and so high. -/
def IsColumn (cfg : MeshConfig) (height : Int) : Prop :=
  cfg.size = .given 1 height ∨
    cfg.size = .automatic ∧ cfg.coreCount = cfg.concentration * height ∧ height ≤ 3 ∧
      (cfg.dimensions = 2 ∨ height = 1)

/-- Along a column the perimeter passes the inner nodes going down and coming back: two controllers
meet at one if the spacing divides the perimeter, and the last of them are far enough on. -/
def MeetsInColumn (cfg : MeshConfig) (numMemoryControllers : Int) : Prop :=
  1 < cfg.dimensions ∧ ∃ height, cfg.IsColumn height ∧ 2 < height ∧
    2 * (height - 1) % (2 * (height - 1) / numMemoryControllers) = 0 ∧
    2 * (height - 1) / (2 * (height - 1) / numMemoryControllers) ≤ 2 * numMemoryControllers - 3

section Lists

variable {low high x : Int}

@[simp] theorem mem_upTo : x ∈ upTo low high ↔ low ≤ x ∧ x < high := by
  rw [upTo, List.mem_map]
  constructor
  · rintro ⟨i, hi, rfl⟩
    have hi := List.mem_range.mp hi
    omega
  · rintro ⟨hlow, hhigh⟩
    exact ⟨(x - low).toNat, List.mem_range.mpr (by omega), by omega⟩

@[simp] theorem length_upTo : (upTo low high).length = (high - low).toNat := by
  rw [upTo, List.length_map, List.length_range]

theorem nodup_upTo : (upTo low high).Nodup :=
  List.nodup_range.map fun i j hij => by omega

theorem getElem?_upTo {i : Nat} (hi : low + i < high) : (upTo low high)[i]? = some (low + i) := by
  have hlt : i < (high - low).toNat := by omega
  rw [upTo, List.getElem?_map, List.getElem?_range hlt]
  rfl

theorem upTo_append {mid : Int} (hlow : low ≤ mid) (hhigh : mid ≤ high) :
    upTo low mid ++ upTo mid high = upTo low high := by
  have hsplit : (high - low).toNat = (mid - low).toNat + (high - mid).toNat := by omega
  rw [upTo, upTo, upTo, hsplit, List.range_add, List.map_append, List.map_map]
  refine congrArg _ (List.map_congr_left fun i _ => ?_)
  change mid + (i : Int) = low + ((mid - low).toNat + i : Nat)
  omega

theorem upTo_succ : upTo low (low + 1) = [low] := by
  have hone : (low + 1 - low).toNat = 1 := by omega
  rw [upTo, hone]
  exact congrArg (fun x => [x]) (Int.add_zero low)

/-- A node has one row and one column. -/
theorem node_inj {width x y x' y' : Int} (hx : 0 ≤ x ∧ x < width) (hx' : 0 ≤ x' ∧ x' < width)
    (h : y * width + x = y' * width + x') : y = y' ∧ x = x' := by
  have hwidth : width ≠ 0 := by omega
  have hrow : ∀ a b : Int, 0 ≤ a ∧ a < width → (b * width + a) / width = b := by
    intro a b ha
    rw [Int.add_comm, Int.add_mul_ediv_right _ _ hwidth, Int.ediv_eq_zero_of_lt ha.1 ha.2,
      Int.zero_add]
  have hy : y = y' := by rw [← hrow x y hx, ← hrow x' y' hx', h]
  subst hy
  omega

end Lists

section Perimeter

variable {dimensions width height : Int}

theorem perimeter_line (h : ¬ (1 < dimensions ∧ 1 < height)) :
    coreIdListAlongPerimeter dimensions width height = upTo 0 width := by
  rw [coreIdListAlongPerimeter, if_neg h, List.append_nil]

theorem perimeter_around (h : 1 < dimensions ∧ 1 < height) :
    coreIdListAlongPerimeter dimensions width height = upTo 0 width ++
      ((upTo 1 (height - 1)).map (fun i => i * width + (width - 1)) ++
        (upTo 0 width).reverse.map (fun i => (height - 1) * width + i) ++
        (upTo 1 (height - 1)).reverse.map (fun i => i * width)) := by
  rw [coreIdListAlongPerimeter, if_pos h]

/-- The nodes along the perimeter are nodes of the mesh. -/
theorem mem_perimeter {core : Int} (hwidth : 0 < width) (hheight : 0 < height)
    (hcore : core ∈ coreIdListAlongPerimeter dimensions width height) :
    ∃ x y, core = y * width + x ∧ (0 ≤ x ∧ x < width) ∧ 0 ≤ y ∧ y < height := by
  by_cases haround : 1 < dimensions ∧ 1 < height
  · rw [perimeter_around haround] at hcore
    simp only [List.mem_append, List.mem_map, List.mem_reverse, mem_upTo] at hcore
    rcases hcore with htop | (⟨y, hy, rfl⟩ | ⟨x, hx, rfl⟩) | ⟨y, hy, rfl⟩
    · exact ⟨core, 0, by omega, htop, by omega⟩
    · exact ⟨width - 1, y, rfl, by omega, by omega⟩
    · exact ⟨x, height - 1, rfl, hx, by omega⟩
    · exact ⟨0, y, by omega, by omega, by omega⟩
  · rw [perimeter_line haround, mem_upTo] at hcore
    exact ⟨core, 0, by omega, hcore, by omega⟩

/-- Around a mesh two nodes wide, no node comes twice. -/
theorem nodup_around (haround : 1 < dimensions ∧ 1 < height) (hwidth : 1 < width) :
    (coreIdListAlongPerimeter dimensions width height).Nodup := by
  have hright : ((upTo 1 (height - 1)).map fun i => i * width + (width - 1)).Nodup := by
    refine List.Nodup.map_on ?_ nodup_upTo
    intro y _ y' _ h
    exact (node_inj (by omega) (by omega) h).1
  have hbottom : ((upTo 0 width).reverse.map fun i => (height - 1) * width + i).Nodup := by
    refine List.Nodup.map_on ?_ (List.nodup_reverse.mpr nodup_upTo)
    intro x _ x' _ h
    omega
  have hleft : ((upTo 1 (height - 1)).reverse.map fun i => i * width).Nodup := by
    refine List.Nodup.map_on ?_ (List.nodup_reverse.mpr nodup_upTo)
    intro y _ y' _ h
    exact Int.eq_of_mul_eq_mul_right (by omega) h
  rw [perimeter_around haround]
  refine List.nodup_append.mpr ⟨nodup_upTo, List.nodup_append.mpr ⟨List.nodup_append.mpr
    ⟨hright, hbottom, ?_⟩, hleft, ?_⟩, ?_⟩
  · simp only [List.mem_map, List.mem_reverse, mem_upTo]
    rintro _ ⟨y, hy, rfl⟩ _ ⟨x, hx, rfl⟩ h
    have hrow := (node_inj (by omega) hx h).1
    omega
  · simp only [List.mem_append, List.mem_map, List.mem_reverse, mem_upTo]
    rintro _ (⟨y, hy, rfl⟩ | ⟨x, hx, rfl⟩) _ ⟨y', hy', rfl⟩ h
    · rw [← Int.add_zero (y' * width)] at h
      have hcolumn := (node_inj (by omega) (by omega) h).2
      omega
    · rw [← Int.add_zero (y' * width)] at h
      have hrow := (node_inj hx (by omega) h).1
      omega
  · simp only [List.mem_append, List.mem_map, List.mem_reverse, mem_upTo]
    rintro x hx _ ((⟨y, hy, rfl⟩ | ⟨x', hx', rfl⟩) | ⟨y, hy, rfl⟩) h
    all_goals rw [← Int.zero_add x, ← Int.zero_mul width] at h
    · have hrow := (node_inj hx (by omega) h).1
      omega
    · have hrow := (node_inj hx hx' h).1
      omega
    · rw [← Int.add_zero (y * width)] at h
      have hrow := (node_inj hx (by omega) h).1
      omega

theorem length_around (haround : 1 < dimensions ∧ 1 < height) (hwidth : 0 < width) :
    ((coreIdListAlongPerimeter dimensions width height).length : Int) = 2 * (width + height - 2) := by
  rw [perimeter_around haround]
  simp only [List.length_append, List.length_map, List.length_reverse, length_upTo]
  omega

/-- Along a column, a node is its distance from the corner the perimeter starts at. -/
theorem perimeter_column (haround : 1 < dimensions ∧ 1 < height) {i : Nat}
    (hi : (i : Int) < 2 * (height - 1)) :
    (coreIdListAlongPerimeter dimensions 1 height).getD i 0 = min (i : Int) (2 * (height - 1) - i) := by
  have hdown : coreIdListAlongPerimeter dimensions 1 height =
      upTo 0 height ++ (upTo 1 (height - 1)).reverse := by
    have hlast : upTo (height - 1) height = [height - 1] := by
      have hsucc := @upTo_succ (height - 1)
      rwa [Int.sub_add_cancel] at hsucc
    have hfirst : upTo 0 1 = [0] := upTo_succ
    rw [perimeter_around haround, ← @upTo_append 0 height (height - 1) (by omega) (by omega),
      ← @upTo_append 0 (height - 1) 1 (by omega) (by omega), hlast]
    simp [hfirst]
  rw [hdown, List.getD_eq_getElem?_getD]
  by_cases hhalf : (i : Int) < height
  · have hlt : i < (upTo 0 height).length := by
      rw [length_upTo]
      omega
    rw [List.getElem?_append_left hlt, getElem?_upTo (by omega)]
    change (0 : Int) + i = _
    omega
  · have hle : (upTo 0 height).length ≤ i := by
      rw [length_upTo]
      omega
    have hback : i - (upTo 0 height).length < (upTo 1 (height - 1)).length := by
      rw [length_upTo, length_upTo]
      omega
    rw [List.getElem?_append_right hle, List.getElem?_reverse hback, getElem?_upTo]
    · change (1 : Int) + _ = _
      rw [length_upTo, length_upTo]
      omega
    · rw [length_upTo, length_upTo]
      omega

end Perimeter

end MeshConfig

end Sniper.Network
