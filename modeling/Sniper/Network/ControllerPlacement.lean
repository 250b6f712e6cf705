import Mathlib.Algebra.Order.Ring.Int
import Mathlib.Data.List.GetD
import Sniper.Lib.Ring
import Sniper.Network.MemoryControllers
set_option autoImplicit false

/-! When the memory controllers are at different cores. -/

namespace Sniper.Network
open Sniper.Lib

namespace MeshConfig

section Dimensions

variable {cfg : MeshConfig} {width height : Int}

theorem product_of_dimensions (h : cfg.computeMeshDimensions = .ok (width, height)) :
    cfg.coreCount = cfg.concentration * height * width := by
  rw [computeMeshDimensions] at h
  cases hsize : cfg.size with
  | automatic =>
    cases hdim : cfg.automaticDimensions with
    | error abort => simp [hsize, hdim, bind, Except.bind] at h
    | ok dims =>
      simp only [hsize, hdim, bind, Except.bind] at h
      split at h
      · next hcount =>
        cases h
        exact hcount
      · cases h
  | given w hgt =>
    simp only [hsize] at h
    split at h
    · next hcount =>
      cases h
      exact hcount
    · cases h
  | malformed => simp [hsize] at h

theorem automatic_of_dimensions (h : cfg.computeMeshDimensions = .ok (width, height))
    (hsize : cfg.size = .automatic) : cfg.automaticDimensions = .ok (width, height) := by
  rw [computeMeshDimensions, hsize] at h
  cases hdim : cfg.automaticDimensions with
  | error abort => simp [hdim, bind, Except.bind] at h
  | ok dims =>
    simp only [hdim, bind, Except.bind] at h
    split at h
    · cases h
      rfl
    · cases h

theorem width_ne_zero (h : cfg.computeMeshDimensions = .ok (width, height)) : width ≠ 0 := by
  have hproduct := product_of_dimensions h
  have hpos := cfg.coreCount_pos
  rintro rfl
  omega

theorem concentration_ne_zero (h : cfg.computeMeshDimensions = .ok (width, height)) :
    cfg.concentration ≠ 0 := by
  have hproduct := product_of_dimensions h
  have hpos := cfg.coreCount_pos
  intro hzero
  rw [hzero] at hproduct
  omega

theorem sqrt_eq_one {nodes : Int} (hpos : 0 < nodes) :
    (nodes.toNat.sqrt : Int) = 1 ↔ nodes ≤ 3 := by
  have hlow := @Nat.le_sqrt 1 nodes.toNat
  have hhigh := @Nat.sqrt_lt nodes.toNat 2
  omega

/-- Nodes in a column of the size the source chooses. -/
theorem isColumn_automatic (hsize : cfg.size = .automatic)
    (h : cfg.computeMeshDimensions = .ok (width, height)) (n : Int) :
    cfg.IsColumn n ↔ width = 1 ∧ height = n := by
  have hproduct := product_of_dimensions h
  have hconc := concentration_ne_zero h
  have hauto := automatic_of_dimensions h hsize
  have hnodes : cfg.coreCount.tdiv cfg.concentration = height * width := by
    rw [hproduct, Int.mul_assoc]
    exact Int.mul_tdiv_cancel_left _ hconc
  have hcolumn : cfg.IsColumn n ↔
      height * width = n ∧ n ≤ 3 ∧ (cfg.dimensions = 2 ∨ n = 1) := by
    have hcancel : cfg.coreCount = cfg.concentration * n ↔ height * width = n := by
      rw [hproduct, Int.mul_assoc, Int.mul_eq_mul_left_iff hconc]
    simp [IsColumn, hsize, hcancel]
  rw [hcolumn]
  simp only [automaticDimensions, hnodes, if_neg hconc] at hauto
  split at hauto
  · next hline =>
    injection hauto with hauto
    injection hauto with hwidth hheight
    omega
  · split at hauto
    · next htwo =>
      split at hauto
      · cases hauto
      · next hpos =>
        injection hauto with hauto
        injection hauto with hwidth _
        have hone := sqrt_eq_one (Int.not_le.mp hpos)
        rw [hwidth] at hone
        constructor
        · rintro ⟨rfl, hle, _⟩
          have hw := hone.mpr hle
          rw [hw, Int.mul_one]
          exact ⟨rfl, rfl⟩
        · rintro ⟨hw, rfl⟩
          have hle := hone.mp hw
          rw [hw, Int.mul_one] at hle ⊢
          exact ⟨rfl, hle, .inl htwo⟩
    · cases hauto

theorem isColumn_iff (h : cfg.computeMeshDimensions = .ok (width, height)) (n : Int) :
    cfg.IsColumn n ↔ width = 1 ∧ height = n := by
  cases hsize : cfg.size with
  | automatic => exact isColumn_automatic hsize h n
  | given w hgt =>
    simp only [computeMeshDimensions, hsize] at h
    split at h
    · cases h
      simp [IsColumn, hsize]
    · cases h
  | malformed => simp [computeMeshDimensions, hsize] at h

end Dimensions

section Positions

variable {cfg : MeshConfig} {num : BitVec 32} {cores : List Int} {width height : Int}

/-- What an accepted number of controllers gives. -/
structure Placement (cfg : MeshConfig) (num : BitVec 32) (cores : List Int) (width height : Int) :
    Prop where
  dimensions : cfg.computeMeshDimensions = .ok (width, height)
  around : 1 < cfg.dimensions → 1 < height →
    ((coreIdListAlongPerimeter cfg.dimensions width height).length : Int) =
      2 * (width + height - 2) % 2 ^ 32
  enough : num.toNat ≤ (coreIdListAlongPerimeter cfg.dimensions width height).length
  ne_zero : num ≠ 0
  cores_eq : cores = (List.range num.toInt.toNat).map fun i => cfg.concentration *
    controllerAt (coreIdListAlongPerimeter cfg.dimensions width height) width
      ((coreIdListAlongPerimeter cfg.dimensions width height).length /
        (num.signExtend 64).toNat) i

theorem placement_of_ok (h : cfg.computeMemoryControllerPositions num = .ok cores) :
    ∃ width height, Placement cfg num cores width height := by
  rw [computeMemoryControllerPositions] at h
  cases hdim : cfg.computeMeshDimensions with
  | error abort => simp [hdim, bind, Except.bind] at h
  | ok dims =>
    obtain ⟨width, height⟩ := dims
    simp only [hdim, bind, Except.bind] at h
    split at h
    · cases h
    · next haround =>
      split at h
      · cases h
      · next henough =>
        split at h
        · cases h
        · next hne =>
          cases h
          refine ⟨width, height, hdim, ?_, Nat.le_of_not_lt henough, hne, rfl⟩
          intro hdimensions hheight
          by_contra hlength
          exact haround ⟨hdimensions, hheight, hlength⟩

namespace Placement

/-- A perimeter that is not empty has a width. -/
theorem width_pos (h : Placement cfg num cores width height) : 0 < width := by
  have hnum := BitVec.toNat_pos_of_ne_zero h.ne_zero
  have henough := h.enough
  have hne := width_ne_zero h.dimensions
  by_cases haround : 1 < cfg.dimensions ∧ 1 < height
  · by_contra hneg
    have hlength := h.around haround.1 haround.2
    have hproduct := product_of_dimensions h.dimensions
    have hle : -width ≤ cfg.coreCount := by
      apply Int.le_of_dvd cfg.coreCount_pos
      rw [hproduct]
      exact Int.dvd_trans (Int.neg_dvd.mpr (Int.dvd_refl _)) (Int.dvd_mul_left _ _)
    have hlt := cfg.coreCount_lt
    rw [perimeter_around haround] at hlength
    simp only [List.length_append, List.length_map, List.length_reverse, length_upTo] at hlength
    omega
  · rw [perimeter_line haround, length_upTo] at henough
    omega

theorem height_pos_iff (h : Placement cfg num cores width height) :
    0 < height ↔ 0 < cfg.concentration := by
  have hwidth := h.width_pos
  have hproduct := product_of_dimensions h.dimensions
  have hpos := cfg.coreCount_pos
  rw [hproduct] at hpos
  have hpair : 0 < cfg.concentration * height := pos_of_mul_pos_left hpos hwidth.le
  exact ⟨fun hheight => pos_of_mul_pos_left hpair hheight.le,
    fun hconc => pos_of_mul_pos_right hpair hconc.le⟩

/-- The controllers, so many of them, of a number above zero. -/
theorem cores_eq_of_pos (h : Placement cfg num cores width height) (hpos : 0 < num.toInt) :
    ∃ n : Nat, (n : Int) = num.toInt ∧ 0 < n ∧
      n ≤ (coreIdListAlongPerimeter cfg.dimensions width height).length ∧
      cores = (List.range n).map fun i => cfg.concentration *
        controllerAt (coreIdListAlongPerimeter cfg.dimensions width height) width
          ((coreIdListAlongPerimeter cfg.dimensions width height).length / n) i := by
  have hmsb : num.msb = false := by
    rw [BitVec.msb_eq_toInt]
    exact decide_eq_false (by omega)
  have hint := BitVec.toInt_eq_toNat_of_msb hmsb
  have hwide : (num.signExtend 64).toNat = num.toNat := by
    rw [BitVec.signExtend_eq_setWidth_of_msb_false hmsb,
      BitVec.toNat_setWidth_of_le (by decide)]
  have hcores := h.cores_eq
  rw [hwide, hint, Int.toNat_natCast] at hcores
  exact ⟨num.toNat, hint.symm, by omega, h.enough, hcores⟩

/-- Around a mesh that is no column, and along a line, no node comes twice. -/
theorem nodup_perimeter (h : Placement cfg num cores width height)
    (hcolumn : ¬ (1 < cfg.dimensions ∧ 1 < height ∧ width = 1)) :
    (coreIdListAlongPerimeter cfg.dimensions width height).Nodup := by
  have hwidth := h.width_pos
  by_cases haround : 1 < cfg.dimensions ∧ 1 < height
  · exact nodup_around haround (by omega)
  · rw [perimeter_line haround]
    exact nodup_upTo

end Placement

end Positions

section Spacing

variable {perimeter : List Int} {n width : Nat} {i j : Nat}

theorem spaced_lt (hn : n ≤ perimeter.length) (hi : i < n) :
    i * (perimeter.length / n) < perimeter.length := by
  have hle := Nat.mul_div_le perimeter.length n
  have hpos : 0 < perimeter.length / n := Nat.div_pos hn (by omega)
  have hlt := Nat.mul_lt_mul_of_pos_right hi hpos
  omega

theorem controllerAt_mem (h : 0 < perimeter.length) (width : Int) (spacing i : Nat) :
    controllerAt perimeter width spacing i ∈ perimeter := by
  rw [controllerAt, List.getD_eq_getElem _ _ (Nat.mod_lt _ h)]
  exact List.getElem_mem _

/-- Where no node comes twice, the spacing takes each of them once. -/
theorem controllerAt_inj (hnodup : perimeter.Nodup) (hn : n ≤ perimeter.length) (hi : i < n)
    (hj : j < n) {width : Int}
    (h : controllerAt perimeter width (perimeter.length / n) i =
      controllerAt perimeter width (perimeter.length / n) j) : i = j := by
  have hpos : 0 < perimeter.length := by omega
  have hslot : slotAfter perimeter.length (width.toNat / 2) (i * (perimeter.length / n)) =
      slotAfter perimeter.length (width.toNat / 2) (j * (perimeter.length / n)) := by
    rw [controllerAt, controllerAt, List.getD_eq_getElem _ _ (Nat.mod_lt _ hpos),
      List.getD_eq_getElem _ _ (Nat.mod_lt _ hpos)] at h
    exact hnodup.getElem_inj_iff.mp h
  have hsame := slotAfter_inj (spaced_lt hn hi) (spaced_lt hn hj) hslot
  exact Nat.eq_of_mul_eq_mul_right (Nat.div_pos hn (by omega)) hsame

/-- Two multiples of the spacing that make the perimeter. -/
theorem meets_iff {p : Nat} (hn : 0 < n) (hle : n ≤ p) :
    (∃ i j, i < j ∧ j < n ∧ i * (p / n) + j * (p / n) = p) ↔
      p % (p / n) = 0 ∧ p / (p / n) + 3 ≤ 2 * n := by
  have hspacing : 0 < p / n := Nat.div_pos hle hn
  constructor
  · rintro ⟨i, j, hij, hj, hsum⟩
    rw [← Nat.add_mul] at hsum
    generalize p / n = spacing at *
    subst hsum
    rw [Nat.mul_mod_left, Nat.mul_div_cancel _ hspacing]
    omega
  · rintro ⟨hmod, hfar⟩
    have hall := Nat.div_mul_cancel (Nat.dvd_of_mod_eq_zero hmod)
    have hfit : n ≤ p / (p / n) := (Nat.le_div_iff_mul_le hspacing).mpr (Nat.mul_div_le p n)
    refine ⟨p / (p / n) - (n - 1), n - 1, by omega, by omega, ?_⟩
    rw [← Nat.add_mul, Nat.sub_add_cancel (by omega), hall]

end Spacing

namespace Placement

variable {cfg : MeshConfig} {num : BitVec 32} {cores : List Int} {width height : Int} {n : Nat}

theorem length_column (h : Placement cfg num cores width height)
    (hcolumn : 1 < cfg.dimensions ∧ 1 < height ∧ width = 1) :
    ((coreIdListAlongPerimeter cfg.dimensions width height).length : Int) = 2 * (height - 1) := by
  rw [length_around ⟨hcolumn.1, hcolumn.2.1⟩ h.width_pos]
  omega

/-- In a column two controllers are at one node if they are as far from the corner on both ways. -/
theorem controllerAt_column (h : Placement cfg num cores width height)
    (hcolumn : 1 < cfg.dimensions ∧ 1 < height ∧ width = 1) {i j spacing : Nat}
    (hi : i * spacing < (coreIdListAlongPerimeter cfg.dimensions width height).length)
    (hj : j * spacing < (coreIdListAlongPerimeter cfg.dimensions width height).length) :
    controllerAt (coreIdListAlongPerimeter cfg.dimensions width height) width spacing i =
        controllerAt (coreIdListAlongPerimeter cfg.dimensions width height) width spacing j ↔
      i * spacing = j * spacing ∨ i * spacing + j * spacing =
        (coreIdListAlongPerimeter cfg.dimensions width height).length := by
  have hlength := h.length_column hcolumn
  obtain ⟨hdimensions, hheight, rfl⟩ := hcolumn
  have hplace : ∀ k : Nat,
      k * spacing < (coreIdListAlongPerimeter cfg.dimensions 1 height).length →
      controllerAt (coreIdListAlongPerimeter cfg.dimensions 1 height) 1 spacing k =
        min ((k * spacing : Nat) : Int) (2 * (height - 1) - (k * spacing : Nat)) := by
    intro k hk
    have hhalf : (1 : Int).toNat / 2 = 0 := rfl
    rw [controllerAt, hhalf, Nat.zero_add, Nat.mod_eq_of_lt hk,
      perimeter_column ⟨hdimensions, hheight⟩ (by omega)]
  rw [hplace i hi, hplace j hj]
  omega

theorem meetsInColumn_iff (h : Placement cfg num cores width height) (hnum : (n : Int) = num.toInt)
    (hn : 0 < n) (hle : n ≤ (coreIdListAlongPerimeter cfg.dimensions width height).length) :
    cfg.MeetsInColumn num.toInt ↔ (1 < cfg.dimensions ∧ 1 < height ∧ width = 1) ∧
      (coreIdListAlongPerimeter cfg.dimensions width height).length %
          ((coreIdListAlongPerimeter cfg.dimensions width height).length / n) = 0 ∧
        (coreIdListAlongPerimeter cfg.dimensions width height).length /
          ((coreIdListAlongPerimeter cfg.dimensions width height).length / n) + 3 ≤ 2 * n := by
  have hlength := h.length_column
  have hcolumn := isColumn_iff h.dimensions
  rw [MeetsInColumn, ← hnum]
  generalize (coreIdListAlongPerimeter cfg.dimensions width height).length = p at *
  have hmodCast : ((p % (p / n) : Nat) : Int) = (p : Int) % ((p : Int) / n) := by push_cast; rfl
  have hdivCast : ((p / (p / n) : Nat) : Int) = (p : Int) / ((p : Int) / n) := by push_cast; rfl
  constructor
  · rintro ⟨hdimensions, tall, htall, htwo, hmod, hfar⟩
    obtain ⟨hwidth, rfl⟩ := (hcolumn tall).mp htall
    have harea : 1 < cfg.dimensions ∧ 1 < height ∧ width = 1 := ⟨hdimensions, by omega, hwidth⟩
    rw [← hlength harea, ← hmodCast] at hmod
    rw [← hlength harea, ← hdivCast] at hfar
    exact ⟨harea, by omega, by omega⟩
  · rintro ⟨harea, hmod, hfar⟩
    have hfit : n ≤ p / (p / n) :=
      (Nat.le_div_iff_mul_le (Nat.div_pos hle hn)).mpr (Nat.mul_div_le p n)
    have hsize := hlength harea
    refine ⟨harea.1, height, (hcolumn height).mpr ⟨harea.2.2, rfl⟩, by omega, ?_, ?_⟩
    · rw [← hsize, ← hmodCast, hmod]
      rfl
    · rw [← hsize, ← hdivCast]
      omega

theorem nodup_iff (h : Placement cfg num cores width height) (hn : 0 < n)
    (hle : n ≤ (coreIdListAlongPerimeter cfg.dimensions width height).length)
    (hcores : cores = (List.range n).map fun i => cfg.concentration *
      controllerAt (coreIdListAlongPerimeter cfg.dimensions width height) width
        ((coreIdListAlongPerimeter cfg.dimensions width height).length / n) i) :
    cores.Nodup ↔ ¬ ((1 < cfg.dimensions ∧ 1 < height ∧ width = 1) ∧
      (coreIdListAlongPerimeter cfg.dimensions width height).length %
          ((coreIdListAlongPerimeter cfg.dimensions width height).length / n) = 0 ∧
        (coreIdListAlongPerimeter cfg.dimensions width height).length /
          ((coreIdListAlongPerimeter cfg.dimensions width height).length / n) + 3 ≤ 2 * n) := by
  have hconc := concentration_ne_zero h.dimensions
  rw [← meets_iff hn hle, hcores, List.nodup_map_iff_inj_on List.nodup_range]
  simp only [List.mem_range, Int.mul_eq_mul_left_iff hconc]
  by_cases hcolumn : 1 < cfg.dimensions ∧ 1 < height ∧ width = 1
  · constructor
    · rintro hinj ⟨_, i, j, hij, hj, hsum⟩
      have hsame := (h.controllerAt_column hcolumn (spaced_lt hle (by omega))
        (spaced_lt hle hj)).mpr (.inr hsum)
      have heq := hinj i (by omega) j hj hsame
      omega
    · intro hapart i hi j hj hsame
      rcases (h.controllerAt_column hcolumn (spaced_lt hle hi) (spaced_lt hle hj)).mp hsame
        with heq | hsum
      · exact Nat.eq_of_mul_eq_mul_right (Nat.div_pos hle hn) heq
      · rcases Nat.lt_trichotomy i j with hlt | heq | hgt
        · exact absurd ⟨hcolumn, i, j, hlt, hj, hsum⟩ hapart
        · exact heq
        · rw [Nat.add_comm] at hsum
          exact absurd ⟨hcolumn, j, i, hgt, hi, hsum⟩ hapart
  · simp only [hcolumn, false_and, not_false_iff, iff_true]
    intro i hi j hj hsame
    exact controllerAt_inj (h.nodup_perimeter hcolumn) hle hi hj hsame

theorem valid_iff (h : Placement cfg num cores width height) (hn : 0 < n)
    (hle : n ≤ (coreIdListAlongPerimeter cfg.dimensions width height).length)
    (hcores : cores = (List.range n).map fun i => cfg.concentration *
      controllerAt (coreIdListAlongPerimeter cfg.dimensions width height) width
        ((coreIdListAlongPerimeter cfg.dimensions width height).length / n) i) :
    (∀ core ∈ cores, 0 ≤ core ∧ core < cfg.coreCount) ↔ 0 < cfg.concentration ∨ width = 1 := by
  have hwidth := h.width_pos
  have hproduct := product_of_dimensions h.dimensions
  have hne := concentration_ne_zero h.dimensions
  have hlength : 0 < (coreIdListAlongPerimeter cfg.dimensions width height).length := by omega
  rw [hcores]
  simp only [List.forall_mem_map, List.mem_range]
  by_cases hconc : 0 < cfg.concentration
  · simp only [hconc, true_or, iff_true]
    intro i _
    obtain ⟨x, y, hnode, hx, hy⟩ :=
      mem_perimeter hwidth (h.height_pos_iff.mpr hconc) (controllerAt_mem hlength width
        ((coreIdListAlongPerimeter cfg.dimensions width height).length / n) i)
    have hrow : y * width ≤ (height - 1) * width :=
      Int.mul_le_mul_of_nonneg_right (by omega) hwidth.le
    have hlow : 0 ≤ y * width := Int.mul_nonneg hy.1 hwidth.le
    rw [Int.sub_mul, Int.one_mul] at hrow
    rw [hnode, hproduct, Int.mul_assoc]
    exact ⟨Int.mul_nonneg hconc.le (by omega), Int.mul_lt_mul_of_pos_left (by omega) hconc⟩
  · have hheight : ¬ 0 < height := fun hheight => hconc (h.height_pos_iff.mp hheight)
    have hline := @perimeter_line cfg.dimensions width height (by omega)
    simp only [hconc, false_or]
    constructor
    · intro hvalid
      by_contra hwide
      have hfirst := (hvalid 0 hn).1
      rw [hline, controllerAt, Nat.zero_mul, Nat.add_zero, length_upTo, Nat.mod_eq_of_lt (by omega),
        List.getD_eq_getElem?_getD, getElem?_upTo (by omega)] at hfirst
      have hneg : cfg.concentration * ((0 : Int) + (width.toNat / 2 : Nat)) < 0 :=
        Int.mul_neg_of_neg_of_pos (by omega) (by omega)
      exact absurd hfirst (Int.not_le.mpr hneg)
    · rintro rfl i _
      have hmem := controllerAt_mem hlength 1
        ((coreIdListAlongPerimeter cfg.dimensions 1 height).length / n) i
      rw [hline] at hmem ⊢
      have hnode := mem_upTo.mp hmem
      have hzero : controllerAt (upTo 0 1) 1 ((upTo 0 1).length / n) i = 0 := by omega
      rw [hzero, Int.mul_zero]
      exact ⟨Int.le_refl 0, cfg.coreCount_pos⟩

end Placement

section Result

variable {cfg : MeshConfig} {num : BitVec 32} {cores : List Int}

/-- The controllers are at different cores of the mesh, unless the perimeter of a column passes the
same core twice where the spacing does. A negative concentration is no number of cores: with it,
only a mesh one node wide has its controller at a core. -/
theorem computeMemoryControllerPositions_iff
    (h : cfg.computeMemoryControllerPositions num = .ok cores) :
    PlacedApart cfg num cores ↔
      0 < num.toInt ∧ (0 < cfg.concentration ∨ ∃ height, cfg.IsColumn height) ∧
        ¬ cfg.MeetsInColumn num.toInt := by
  obtain ⟨width, height, hplace⟩ := placement_of_ok h
  have hwide : (∃ height, cfg.IsColumn height) ↔ width = 1 := by
    simp [isColumn_iff hplace.dimensions]
  rw [hwide]
  by_cases hpos : 0 < num.toInt
  · obtain ⟨n, hnum, hn, hle, hcores⟩ := hplace.cores_eq_of_pos hpos
    have hnodup := hplace.nodup_iff hn hle hcores
    have hvalid := hplace.valid_iff hn hle hcores
    have hlength : (cores.length : Int) = num.toInt := by
      rw [hcores, List.length_map, List.length_range, hnum]
    have hmeets := hplace.meetsInColumn_iff hnum hn hle
    rw [hmeets, ← hvalid, ← hnodup]
    exact ⟨fun hapart => ⟨hpos, hapart.valid, hapart.nodup⟩,
      fun ⟨_, hv, hd⟩ => ⟨hlength, hd, hv⟩⟩
  · constructor
    · intro hapart
      have hempty := hplace.cores_eq
      have hzero : num.toInt.toNat = 0 := by omega
      have hlength := hapart.length
      rw [hempty, hzero] at hlength
      exact absurd (BitVec.eq_of_toInt_eq hlength.symm) hplace.ne_zero
    · rintro ⟨hpositive, _⟩
      exact absurd hpositive hpos

/-- Four nodes by four, with a node's core each. -/
def squareMesh : MeshConfig := ⟨16, 1, 2, .given 4 4, by decide, by decide⟩

theorem computeMemoryControllerPositions_iff_squareMesh :
    squareMesh.computeMemoryControllerPositions 4 = .ok [2, 11, 13, 4] ∧
      PlacedApart squareMesh 4 [2, 11, 13, 4] := by
  refine ⟨rfl, (computeMemoryControllerPositions_iff rfl).mpr ⟨by decide, .inl (by decide), ?_⟩⟩
  rintro ⟨_, height, hcolumn, _⟩
  rcases hcolumn with hgiven | ⟨hautomatic, _⟩
  · cases hgiven
  · cases hautomatic

/-- Four nodes one above the other. -/
def columnMesh : MeshConfig := ⟨4, 1, 2, .given 1 4, by decide, by decide⟩

/-- The second controller is on the way down, the third at the same core on the way back. -/
theorem columnMesh_repeats :
    columnMesh.computeMemoryControllerPositions 3 = .ok [0, 2, 2] ∧
      ¬ PlacedApart columnMesh 3 [0, 2, 2] :=
  ⟨rfl, fun hapart => absurd hapart.nodup (by decide)⟩

end Result

end MeshConfig

end Sniper.Network
