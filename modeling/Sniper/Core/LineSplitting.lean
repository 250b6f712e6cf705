import Mathlib.Algebra.GroupWithZero.Nat
import Sniper.Core.MemoryAccess
import Sniper.Lib.Tiling
set_option autoImplicit false

/-! The pieces of a memory access are its bytes, line by line. -/

namespace Sniper.Core
open Sniper.Lib Tiling

section Positions

variable {line : BitVec 32} {r : Request}

@[simp] theorem toNat_wide (x : BitVec 32) : (x.setWidth 64).toNat = x.toNat :=
  BitVec.toNat_setWidth_of_le (by decide)

theorem toNat_aligned (addr : IntPtr) :
    (aligned line addr).toNat = addr.toNat - addr.toNat % line.toNat := by
  have hle : addr % line.setWidth 64 ≤ addr := by
    rw [BitVec.le_def, BitVec.toNat_umod]
    exact Nat.mod_le _ _
  rw [aligned, BitVec.toNat_sub_of_le hle, BitVec.toNat_umod, toNat_wide]

theorem aligned_dvd (addr : IntPtr) : line.toNat ∣ (aligned line addr).toNat := by
  rw [toNat_aligned]
  exact Nat.dvd_sub_mod _

theorem aligned_lt (hpos : 0 < line.toNat) (addr : IntPtr) :
    addr.toNat < (aligned line addr).toNat + line.toNat := by
  have hmod := Nat.mod_lt addr.toNat hpos
  rw [toNat_aligned]
  omega

theorem next_line_le {a b : IntPtr} (ha : line.toNat ∣ a.toNat) (hb : line.toNat ∣ b.toNat)
    (hlt : a < b) : a.toNat + line.toNat ≤ b.toNat := by
  by_contra hover
  rw [BitVec.lt_def] at hlt
  have hle := Nat.le_of_lt_add_of_dvd (Nat.lt_of_not_le hover) hb ha
  omega

/-- The bytes of the access before the line at `curr` end here. -/
def Request.position (r : Request) (curr : Nat) : Nat :=
  min (r.address.toNat + r.dataSize.toNat) (max r.address.toNat curr)

/-- The access ends a line before the addresses do. -/
structure InSpace (line : BitVec 32) (r : Request) : Prop where
  pos : 0 < line.toNat
  room : r.address.toNat + r.dataSize.toNat + line.toNat < 2 ^ 64

/-- The loop is at a line between those of the first and of the last byte. -/
structure AtLine (line : BitVec 32) (r : Request) (curr : IntPtr) : Prop where
  dvd : line.toNat ∣ curr.toNat
  first : aligned line r.beginAddr ≤ curr
  last : curr ≤ aligned line r.endAddr

theorem InSpace.toNat_endAddr (h : InSpace line r) :
    r.endAddr.toNat = r.address.toNat + r.dataSize.toNat := by
  have hroom := h.room
  rw [Request.endAddr, BitVec.toNat_add, toNat_wide, Nat.mod_eq_of_lt (by omega)]

theorem AtLine.toNat_currOffset {curr : IntPtr} (h : AtLine line r curr) (hspace : InSpace line r) :
    (currOffset line r curr).toNat = max r.address.toNat curr.toNat - curr.toNat := by
  have hbegin := @toNat_aligned line r.beginAddr
  have hmod := Nat.mod_lt r.address.toNat hspace.pos
  have hle := Nat.mod_le r.address.toNat line.toNat
  have hline := line.isLt
  rw [Request.beginAddr] at hbegin
  by_cases heq : curr = aligned line r.beginAddr
  · rw [currOffset, if_pos heq, BitVec.toNat_setWidth, BitVec.toNat_umod, toNat_wide, heq,
      Request.beginAddr, Nat.mod_eq_of_lt (by omega), hbegin]
    omega
  · have hlt : aligned line r.beginAddr < curr :=
      BitVec.lt_of_le_ne h.first (Ne.symm heq)
    have hnext := next_line_le (aligned_dvd r.beginAddr) h.dvd hlt
    rw [Request.beginAddr] at hnext
    rw [currOffset, if_neg heq]
    simp only [BitVec.ofNat_eq_ofNat, BitVec.toNat_ofNat, Nat.zero_mod]
    omega

theorem AtLine.address_lt {curr : IntPtr} (h : AtLine line r curr) (hspace : InSpace line r) :
    r.address.toNat < curr.toNat + line.toNat :=
  Nat.lt_of_lt_of_le (aligned_lt hspace.pos r.beginAddr)
    (Nat.add_le_add_right (BitVec.le_def.mp h.first) _)

theorem InSpace.toNat_endAligned (h : InSpace line r) :
    (aligned line r.endAddr).toNat + (r.address.toNat + r.dataSize.toNat) % line.toNat =
      r.address.toNat + r.dataSize.toNat := by
  have hle := Nat.mod_le (r.address.toNat + r.dataSize.toNat) line.toNat
  rw [toNat_aligned, h.toNat_endAddr]
  omega

/-- A line that is not the last leaves a whole line before the end. -/
theorem AtLine.next_le {curr : IntPtr} (h : AtLine line r curr)
    (hne : curr ≠ aligned line r.endAddr) :
    curr.toNat + line.toNat ≤ (aligned line r.endAddr).toNat :=
  next_line_le h.dvd (aligned_dvd r.endAddr) (BitVec.lt_of_le_ne h.last hne)

theorem AtLine.position_eq {curr : IntPtr} (h : AtLine line r curr) (hspace : InSpace line r) :
    r.position curr.toNat = max r.address.toNat curr.toNat := by
  have hend := hspace.toNat_endAligned
  have hlast := BitVec.le_def.mp h.last
  refine Nat.min_eq_right (Nat.max_le.mpr ⟨Nat.le_add_right _ _, ?_⟩)
  omega

theorem AtLine.position_next {curr : IntPtr} (h : AtLine line r curr) (hspace : InSpace line r) :
    r.position (curr.toNat + line.toNat) =
      min (r.address.toNat + r.dataSize.toNat) (curr.toNat + line.toNat) := by
  rw [Request.position, Nat.max_eq_right (Nat.le_of_lt (h.address_lt hspace))]

/-- A line's part of the access goes from the line's position to the next line's. -/
theorem AtLine.toNat_currSize {curr : IntPtr} (h : AtLine line r curr) (hspace : InSpace line r) :
    (currSize line r curr).toNat =
      r.position (curr.toNat + line.toNat) - r.position curr.toNat := by
  have hoffset := h.toNat_currOffset hspace
  have hend := hspace.toNat_endAligned
  have hmod := Nat.mod_lt (r.address.toNat + r.dataSize.toNat) hspace.pos
  have hfirst := h.address_lt hspace
  have hline := line.isLt
  by_cases heq : curr = aligned line r.endAddr
  · have hcurr : curr.toNat = (aligned line r.endAddr).toNat := congrArg _ heq
    have hsub : (currOffset line r curr).setWidth 64 ≤ r.endAddr % line.setWidth 64 := by
      rw [BitVec.le_def, toNat_wide, hoffset, BitVec.toNat_umod, toNat_wide, hspace.toNat_endAddr]
      omega
    rw [currSize, if_pos heq, BitVec.toNat_setWidth, BitVec.toNat_sub_of_le hsub, BitVec.toNat_umod,
      toNat_wide, toNat_wide, hoffset, hspace.toNat_endAddr, Nat.mod_eq_of_lt (by omega),
      h.position_next hspace, h.position_eq hspace, Nat.min_eq_left (by omega)]
    omega
  · have hnext := h.next_le heq
    have hsub : currOffset line r curr ≤ line := by
      rw [BitVec.le_def, hoffset]
      omega
    rw [currSize, if_neg heq, BitVec.toNat_sub_of_le hsub, hoffset, h.position_next hspace,
      h.position_eq hspace, Nat.min_eq_right (by omega)]
    omega

end Positions

/-- What a piece of the access is, wherever the loop makes it. -/
structure PieceOf (line : BitVec 32) (r : Request) (p : Piece) : Prop where
  aligned : p.address.toNat % line.toNat = 0
  inLine : p.offset.toNat + p.dataLength.toNat ≤ line.toNat
  data : p.dataBuf = r.dataBuf.map (· + BitVec.ofNat 64 (p.start - r.address.toNat))

/-- The buffer's head at a line. -/
def Request.headAt (r : Request) (curr : Nat) : IntPtr :=
  r.dataBuf.getD 0 + BitVec.ofNat 64 (r.position curr - r.address.toNat)

section Loop

variable {line : BitVec 32} {r : Request}

theorem Request.address_le_position (r : Request) (curr : Nat) : r.address.toNat ≤ r.position curr := by
  rw [position]
  omega

theorem AtLine.position_mono {curr : IntPtr} (h : AtLine line r curr) (hspace : InSpace line r) :
    r.position curr.toNat ≤ r.position (curr.toNat + line.toNat) := by
  have hend := hspace.toNat_endAligned
  have hlast := BitVec.le_def.mp h.last
  rw [h.position_eq hspace, h.position_next hspace]
  have hfirst := h.address_lt hspace
  omega

/-- A turn that makes no piece leaves the position where it is. -/
theorem AtLine.pieceAt_eq_none {curr head : IntPtr} (h : AtLine line r curr)
    (hspace : InSpace line r) (hnone : pieceAt line r head curr = none) :
    r.position (curr.toNat + line.toNat) = r.position curr.toNat := by
  have hsize := h.toNat_currSize hspace
  have hle := h.position_mono hspace
  rw [pieceAt] at hnone
  split at hnone
  · next hempty =>
    rw [hempty.2] at hsize
    change 0 = _ at hsize
    omega
  · cases hnone

/-- A turn that makes a piece makes it of the bytes up to the next line's position. -/
theorem AtLine.pieceAt_eq_some {curr : IntPtr} {p : Piece} (h : AtLine line r curr)
    (hspace : InSpace line r) (hsome : pieceAt line r (r.headAt curr.toNat) curr = some p) :
    PieceOf line r p ∧ p.start = r.position curr.toNat ∧ 0 < p.length ∧
      r.position curr.toNat + p.length = r.position (curr.toNat + line.toNat) := by
  have hoffset := h.toNat_currOffset hspace
  have hsize := h.toNat_currSize hspace
  have hposition := h.position_eq hspace
  have hle := h.position_mono hspace
  rw [pieceAt] at hsome
  split at hsome
  · cases hsome
  · next hpiece =>
    cases hsome
    have hstart : curr.toNat + (currOffset line r curr).toNat = r.position curr.toNat := by
      omega
    have hin := h.address_lt hspace
    have hnext : r.position (curr.toNat + line.toNat) ≤ curr.toNat + line.toNat := by
      rw [Request.position]
      omega
    have hne : 0 < (currSize line r curr).toNat := by
      by_cases heq : curr = aligned line r.endAddr
      · exact BitVec.toNat_pos_of_ne_zero fun hzero => hpiece ⟨heq, hzero⟩
      · have hwhole := h.next_le heq
        have hend := hspace.toNat_endAligned
        have hpos := hspace.pos
        rw [hsize, hposition, Request.position]
        omega
    refine ⟨⟨Nat.mod_eq_zero_of_dvd h.dvd, ?_, ?_⟩, hstart, hne, ?_⟩
    · change (currOffset line r curr).toNat + (currSize line r curr).toNat ≤ _
      omega
    · change r.dataBuf.map (fun _ => r.headAt curr.toNat) = r.dataBuf.map
        (· + BitVec.ofNat 64 (curr.toNat + (currOffset line r curr).toNat - r.address.toNat))
      rw [hstart, Request.headAt]
      cases r.dataBuf with
      | none => rfl
      | some buf => rfl
    · change _ + (currSize line r curr).toNat = _
      omega

/-- The line after the last is not in the access. -/
theorem AtLine.next {curr : IntPtr} (h : AtLine line r curr) (hspace : InSpace line r) :
    (curr + line.setWidth 64).toNat = curr.toNat + line.toNat ∧
      (curr ≠ aligned line r.endAddr → AtLine line r (curr + line.setWidth 64)) := by
  have hend := hspace.toNat_endAligned
  have hlast := BitVec.le_def.mp h.last
  have hroom := hspace.room
  have hnext : (curr + line.setWidth 64).toNat = curr.toNat + line.toNat := by
    rw [BitVec.toNat_add, toNat_wide, Nat.mod_eq_of_lt (by omega)]
  refine ⟨hnext, fun hne => ⟨?_, ?_, ?_⟩⟩
  · rw [hnext]
    exact Nat.dvd_add h.dvd (Nat.dvd_refl _)
  · rw [BitVec.le_def, hnext]
    have hfirst := BitVec.le_def.mp h.first
    omega
  · rw [BitVec.le_def, hnext]
    exact h.next_le hne

end Loop

section Run

variable {σ : Type} {m : MemorySystem σ} {r : Request}

theorem accessLines_more {fuel : Nat} {curr : IntPtr} {w w' : Walk σ}
    (h : accessLines m r fuel curr w = some w') (more : Nat) :
    accessLines m r (fuel + more) curr w = some w' := by
  induction fuel generalizing curr w with
  | zero => cases h
  | succ fuel ih =>
    rw [Nat.add_right_comm, accessLines] at *
    split at h
    · next hle =>
      rw [if_pos hle]
      exact ih h
    · next hover =>
      rw [if_neg hover]
      exact h

/-- A turn of the loop. -/
theorem AtLine.turn {curr : IntPtr} (h : AtLine m.cacheBlockSize r curr)
    (hspace : InSpace m.cacheBlockSize r) {w : Walk σ}
    (hhead : w.currDataBufferHead = r.headAt curr.toNat) :
    (w.turn m r curr).currDataBufferHead = r.headAt (curr.toNat + m.cacheBlockSize.toNat) ∧
      ∃ pieces, (w.turn m r curr).calls = w.calls ++ pieces ∧
        Tiles Piece.start Piece.length (r.position curr.toNat) pieces
          (r.position (curr.toNat + m.cacheBlockSize.toNat)) ∧
        ∀ p ∈ pieces, PieceOf m.cacheBlockSize r p := by
  cases hpiece : pieceAt m.cacheBlockSize r w.currDataBufferHead curr with
  | none =>
    have hposition := h.pieceAt_eq_none hspace hpiece
    have hturn : w.turn m r curr = w := by rw [Walk.turn, hpiece]
    rw [hturn]
    refine ⟨?_, [], (List.append_nil _).symm, ?_, fun p hp => absurd hp List.not_mem_nil⟩
    · rw [hhead, Request.headAt, Request.headAt, hposition]
    · rw [hposition]
      exact Tiles.nil _
  | some p =>
    have hturn : w.turn m r curr = w.accessLine m r p := by rw [Walk.turn, hpiece]
    rw [hturn]
    rw [hhead] at hpiece
    obtain ⟨hof, hstart, hpos, hend⟩ := h.pieceAt_eq_some hspace hpiece
    have hle := r.address_le_position curr.toNat
    refine ⟨?_, [p], rfl, Tiles.singleton hstart hpos hend, ?_⟩
    · change w.currDataBufferHead + p.dataLength.setWidth 64 = _
      have hlength : p.dataLength.setWidth 64 = BitVec.ofNat 64 p.length := by
        apply BitVec.eq_of_toNat_eq
        rw [toNat_wide, BitVec.toNat_ofNat, Nat.mod_eq_of_lt]
        · rfl
        · exact Nat.lt_trans p.dataLength.isLt (by decide)
      rw [hhead, Request.headAt, Request.headAt, hlength, BitVec.add_assoc, ← BitVec.ofNat_add,
        ← hend, Nat.sub_add_comm hle]
    · intro q hq
      rw [List.mem_singleton.mp hq]
      exact hof

/-- The loop from a line on, `n` lines before the last. -/
theorem accessLines_pieces (hspace : InSpace m.cacheBlockSize r) (n : Nat) {curr : IntPtr}
    {w : Walk σ} (h : AtLine m.cacheBlockSize r curr)
    (hn : curr.toNat + n * m.cacheBlockSize.toNat =
      (aligned m.cacheBlockSize r.endAddr).toNat)
    (hhead : w.currDataBufferHead = r.headAt curr.toNat) :
    ∃ pieces w', accessLines m r (n + 2) curr w = some w' ∧ w'.calls = w.calls ++ pieces ∧
      Tiles Piece.start Piece.length (r.position curr.toNat) pieces
        (r.address.toNat + r.dataSize.toNat) ∧
      ∀ p ∈ pieces, PieceOf m.cacheBlockSize r p := by
  obtain ⟨hnext, hatNext⟩ := h.next hspace
  have hpos := hspace.pos
  induction n generalizing curr w with
  | zero =>
    obtain ⟨_, pieces, hcalls, htiles, hof⟩ := h.turn hspace hhead
    have hend := hspace.toNat_endAligned
    have hmod := Nat.mod_lt (r.address.toNat + r.dataSize.toNat) hpos
    have hover : ¬ curr + m.cacheBlockSize.setWidth 64 ≤ aligned m.cacheBlockSize r.endAddr := by
      rw [BitVec.le_def, hnext]
      omega
    have hall : r.position (curr.toNat + m.cacheBlockSize.toNat) =
        r.address.toNat + r.dataSize.toNat := by
      rw [Request.position]
      omega
    rw [hall] at htiles
    refine ⟨pieces, _, ?_, hcalls, htiles, hof⟩
    rw [accessLines, if_pos h.last, accessLines, if_neg hover]
  | succ n ih =>
    have hne : curr ≠ aligned m.cacheBlockSize r.endAddr := by
      intro heq
      rw [← heq, Nat.succ_mul] at hn
      omega
    obtain ⟨hheadNext, pieces, hcalls, htiles, hof⟩ := h.turn hspace hhead
    have hatLine := hatNext hne
    rw [← hnext] at hheadNext htiles
    have hrest : (curr + m.cacheBlockSize.setWidth 64).toNat + n * m.cacheBlockSize.toNat =
        (aligned m.cacheBlockSize r.endAddr).toNat := by
      rw [hnext, ← hn, Nat.succ_mul]
      omega
    obtain ⟨hnext', hatNext'⟩ := hatLine.next hspace
    obtain ⟨rest, w', hrun, hcalls', htiles', hof'⟩ := ih hatLine hrest hheadNext hnext' hatNext'
    refine ⟨pieces ++ rest, w', ?_, ?_, htiles.append htiles', ?_⟩
    · rw [accessLines, if_pos h.last]
      exact hrun
    · rw [hcalls', hcalls, List.append_assoc]
    · intro p hp
      rcases List.mem_append.mp hp with hp | hp
      · exact hof p hp
      · exact hof' p hp

end Run

/-- The pieces are the access: in order, each inside a line, with the data that belong to it. -/
structure SplitsExactly (line : BitVec 32) (r : Request) (pieces : List Piece) : Prop where
  aligned : ∀ p ∈ pieces, p.address.toNat % line.toNat = 0
  inLine : ∀ p ∈ pieces, p.offset.toNat + p.dataLength.toNat ≤ line.toNat
  contiguous : Tiles Piece.start Piece.length r.address.toNat pieces
    (r.address.toNat + r.dataSize.toNat)
  disjoint : pieces.Pairwise fun p q => p.start + p.length ≤ q.start
  covers : ∀ byte, (∃ p ∈ pieces, p.start ≤ byte ∧ byte < p.start + p.length) ↔
    r.address.toNat ≤ byte ∧ byte < r.address.toNat + r.dataSize.toNat
  data : ∀ k (hk : k < pieces.length),
    pieces[k].dataBuf =
      r.dataBuf.map (· + BitVec.ofNat 64 ((pieces.take k).map Piece.length).sum)

section Splitting

variable {σ : Type} {m : MemorySystem σ} {r : Request}

theorem SplitsExactly.of_tiles {line : BitVec 32} {pieces : List Piece}
    (h : Tiles Piece.start Piece.length r.address.toNat pieces
      (r.address.toNat + r.dataSize.toNat))
    (hof : ∀ p ∈ pieces, PieceOf line r p) : SplitsExactly line r pieces where
  aligned p hp := (hof p hp).aligned
  inLine p hp := (hof p hp).inLine
  contiguous := h
  disjoint := h.pairwise
  covers := h.covers
  data k hk := by
    rw [(hof _ (List.getElem_mem hk)).data, h.start_getElem hk, Nat.add_sub_cancel_left]

theorem InSpace.atFirst (h : InSpace m.cacheBlockSize r) :
    AtLine m.cacheBlockSize r (aligned m.cacheBlockSize r.beginAddr) where
  dvd := aligned_dvd _
  first := BitVec.le_refl _
  last := by
    have hend := h.toNat_endAddr
    rw [BitVec.le_def, toNat_aligned, toNat_aligned, hend, Request.beginAddr]
    have hdiv := Nat.div_add_mod r.address.toNat m.cacheBlockSize.toNat
    have hdiv' := Nat.div_add_mod (r.address.toNat + r.dataSize.toNat) m.cacheBlockSize.toNat
    have hle := Nat.mul_le_mul_left m.cacheBlockSize.toNat
      (Nat.div_le_div_right (c := m.cacheBlockSize.toNat)
        (Nat.le_add_right r.address.toNat r.dataSize.toNat))
    omega

/-- A memory that answers each line from the data cache a cycle later. Its state is the time. -/
def hitMemory : MemorySystem Nat where
  cacheBlockSize := 64
  coreInitiateMemoryAccess _ _ _ _ _ time := (3, time + 1)
  cheetahAccess := none
  acquire time := time
  release time := time
  coreTime time := time
  getElapsedTime time := time
  setElapsedTime time _ := time
  isEnabled _ := false
  queueMemAccess _ _ _ _ time := time
  handleMemoryLatency _ _ time := time
  incrTotalMemoryAccessLatency _ time := time

/-- A read of ten bytes over the end of a line. -/
def crossingRead : Request := ⟨3, .none, .read, 60, some 1000, 10, .count, none⟩

example : (initiateMemoryAccess hitMemory crossingRead 3 7).map Prod.fst =
    some [⟨0, 60, some 1000, 4⟩, ⟨64, 0, some 1004, 6⟩] := by decide

/-- In the last line, the loop goes on at the first address. -/
theorem accessLines_endless
    (hlast : (aligned m.cacheBlockSize r.endAddr).toNat + m.cacheBlockSize.toNat = 2 ^ 64)
    (fuel : Nat) {curr : IntPtr} {w : Walk σ} (hdvd : m.cacheBlockSize.toNat ∣ curr.toNat) :
    accessLines m r fuel curr w = none := by
  induction fuel generalizing curr w with
  | zero => rfl
  | succ fuel ih =>
    have hall : m.cacheBlockSize.toNat ∣ 2 ^ 64 := by
      rw [← hlast]
      exact Nat.dvd_add (aligned_dvd _) (Nat.dvd_refl _)
    have hle : curr ≤ aligned m.cacheBlockSize r.endAddr := by
      rw [BitVec.le_def]
      refine Nat.le_of_lt_add_of_dvd ?_ hdvd (aligned_dvd _)
      rw [hlast]
      exact curr.isLt
    rw [accessLines, if_pos hle]
    apply ih
    rw [BitVec.toNat_add, toNat_wide]
    exact (Nat.dvd_mod_iff hall).mpr (Nat.dvd_add hdvd (Nat.dvd_refl _))

/-- An access whose end is in the last line of the addresses is never over. -/
theorem initiateMemoryAccess_endless {k : Nat} (hline : m.cacheBlockSize.toNat = 2 ^ k)
    (hsize : r.dataSize ≠ 0) (hlow : 2 ^ 64 - 2 ^ k ≤ r.address.toNat + r.dataSize.toNat)
    (hhigh : r.address.toNat + r.dataSize.toNat < 2 ^ 64) (fuel : Nat) (sys : σ) :
    initiateMemoryAccess m r fuel sys = none := by
  have hk : k ≤ 64 := by
    have hlt := m.cacheBlockSize.isLt
    rw [hline] at hlt
    exact Nat.le_trans (Nat.le_of_lt ((Nat.pow_lt_pow_iff_right (by decide)).mp hlt)) (by decide)
  have hend : r.endAddr.toNat = r.address.toNat + r.dataSize.toNat := by
    rw [Request.endAddr, BitVec.toNat_add, toNat_wide, Nat.mod_eq_of_lt hhigh]
  have hlast : (aligned m.cacheBlockSize r.endAddr).toNat + m.cacheBlockSize.toNat = 2 ^ 64 := by
    have hdvd := @aligned_dvd m.cacheBlockSize r.endAddr
    have hlt := aligned_lt (by rw [hline]; exact Nat.two_pow_pos k : 0 < m.cacheBlockSize.toNat)
      r.endAddr
    have hall : m.cacheBlockSize.toNat ∣ 2 ^ 64 := by
      rw [hline]
      exact Nat.pow_dvd_pow 2 hk
    have hself : m.cacheBlockSize.toNat ∣ m.cacheBlockSize.toNat := Nat.dvd_refl _
    have hle : 2 ^ 64 ≤ (aligned m.cacheBlockSize r.endAddr).toNat + m.cacheBlockSize.toNat :=
      Nat.le_of_lt_add_of_dvd (by rw [hend] at hlt; omega) hall (Nat.dvd_add hdvd hself)
    have hlarge : (aligned m.cacheBlockSize r.endAddr).toNat + m.cacheBlockSize.toNat <
        2 ^ 64 + m.cacheBlockSize.toNat :=
      Nat.add_lt_add_right (aligned m.cacheBlockSize r.endAddr).isLt _
    exact Nat.le_antisymm (Nat.le_of_lt_add_of_dvd hlarge (Nat.dvd_add hdvd hself) hall) hle
  rw [initiateMemoryAccess, if_neg hsize]
  change (accessLines m r fuel _ _).bind _ = _
  rw [accessLines_endless hlast fuel (aligned_dvd _)]
  rfl

end Splitting

end Sniper.Core
