import Sniper.Sift.Writer
import Sniper.Sift.Reader
set_option autoImplicit false

/-! The reader's icache as a partial copy of the program image. -/

namespace Sniper.Sift
open Sniper.Lib

theorem toNat_and_icacheOffsetMask (a : Word) :
    (a &&& icacheOffsetMask).toNat = a.toNat % icacheSize := by
  have h := Nat.and_two_pow_sub_one_eq_mod a.toNat 12
  simpa [icacheOffsetMask, icacheSize] using h

theorem and_icachePageMask (a : Word) : a &&& icachePageMask = (a >>> 12) <<< 12 := by
  have hm : ∀ i : Fin 64, icachePageMask.getLsbD i = !decide (i.val < 12) := by decide
  apply BitVec.eq_of_getLsbD_eq
  intro i hi
  have hi' := hm ⟨i, hi⟩
  simp only at hi'
  rw [BitVec.getLsbD_and, hi', BitVec.getLsbD_shiftLeft, BitVec.getLsbD_ushiftRight]
  by_cases h : i < 12
  · simp [h]
  · have hs : 12 + (i - 12) = i := by omega
    simp [h, hi, hs]

theorem toNat_and_icachePageMask (a : Word) :
    (a &&& icachePageMask).toNat = a.toNat - a.toNat % icacheSize := by
  rw [and_icachePageMask, BitVec.toNat_shiftLeft, BitVec.toNat_ushiftRight,
    Nat.shiftRight_eq_div_pow, Nat.shiftLeft_eq, icacheSize]
  have := a.isLt
  omega

/-- The icache has the program's byte at `a`. -/
def Shows (code : Word → UInt8) (icache : Word → Option (Nat → UInt8)) (a : Word) : Prop :=
  ∃ page, icache (a &&& icachePageMask) = some page ∧
    page (a &&& icacheOffsetMask).toNat = code a

/-- The page and the offset of the `k`-th byte of a page. -/
theorem page_offset {base : Word} (hb : base.toNat % icacheSize = 0) {k : Nat}
    (hk : k < icacheSize) :
    (base + BitVec.ofNat 64 k) &&& icachePageMask = base ∧
    ((base + BitVec.ofNat 64 k) &&& icacheOffsetMask).toNat = k := by
  have hn : (base + BitVec.ofNat 64 k).toNat = base.toNat + k := by
    have := base.isLt
    simp only [icacheSize] at hb hk
    rw [BitVec.toNat_add, BitVec.toNat_ofNat]
    omega
  have hm : (base.toNat + k) % icacheSize = k := by
    rw [Nat.add_mod, hb, Nat.zero_add, Nat.mod_mod, Nat.mod_eq_of_lt hk]
  refine ⟨?_, ?_⟩
  · apply BitVec.eq_of_toNat_eq
    rw [toNat_and_icachePageMask, hn, hm, Nat.add_sub_cancel]
  · rw [toNat_and_icacheOffsetMask, hn, hm]

theorem and_icachePageMask_aligned (a : Word) : (a &&& icachePageMask).toNat % icacheSize = 0 := by
  rw [toNat_and_icachePageMask, icacheSize]
  omega

theorem offset_lt (a : Word) : (a &&& icacheOffsetMask).toNat < icacheSize := by
  rw [toNat_and_icacheOffsetMask]
  exact Nat.mod_lt _ (by decide)

/-- An address is its page and its offset. -/
theorem page_add_offset (a : Word) :
    (a &&& icachePageMask) + BitVec.ofNat 64 (a &&& icacheOffsetMask).toNat = a := by
  apply BitVec.eq_of_toNat_eq
  have := a.isLt
  rw [BitVec.toNat_add, BitVec.toNat_ofNat, toNat_and_icachePageMask, toNat_and_icacheOffsetMask,
    icacheSize]
  omega

theorem add_icacheSize_aligned {base : Word} (hb : base.toNat % icacheSize = 0) :
    (base + BitVec.ofNat 64 icacheSize).toNat % icacheSize = 0 := by
  simp only [icacheSize] at hb ⊢
  rw [BitVec.toNat_add, BitVec.toNat_ofNat]
  omega

theorem add_ofNat_add (a : Word) (m n : Nat) :
    a + BitVec.ofNat 64 m + BitVec.ofNat 64 n = a + BitVec.ofNat 64 (m + n) := by
  rw [BitVec.add_assoc, BitVec.ofNat_add]

/-- Storing a page keeps what the icache shows, if each byte of the page is the old one or the
program's. -/
theorem Shows.update {code : Word → UInt8} {icache : Word → Option (Nat → UInt8)} {a : Word}
    (h : Shows code icache a) {base : Word} {page : Nat → UInt8}
    (hp : ∀ k < icacheSize, (∀ old, icache base = some old → page k = old k) ∨
      page k = code (base + BitVec.ofNat 64 k)) :
    Shows code (Function.update icache base (some page)) a := by
  obtain ⟨old, ho, hc⟩ := h
  by_cases hb : a &&& icachePageMask = base
  · refine ⟨page, by rw [hb, Function.update_self], ?_⟩
    rcases hp _ (offset_lt a) with hold | hcode
    · rw [hold old (by rw [← hb]; exact ho), hc]
    · rw [hcode, ← hb, page_add_offset]
  · exact ⟨old, by rw [Function.update_of_ne hb]; exact ho, hc⟩

/-- A stored byte of the program is shown. -/
theorem shows_update_self {code : Word → UInt8} {icache : Word → Option (Nat → UInt8)}
    {base : Word} (hb : base.toNat % icacheSize = 0) {page : Nat → UInt8} {k : Nat}
    (hk : k < icacheSize) (hp : page k = code (base + BitVec.ofNat 64 k)) :
    Shows code (Function.update icache base (some page)) (base + BitVec.ofNat 64 k) := by
  obtain ⟨hpage, hoff⟩ := page_offset hb hk
  exact ⟨page, by rw [hpage, Function.update_self], by rw [hoff, hp]⟩

theorem getCode_getD {code : Word → UInt8} {src : Word} {size k : Nat} (hk : k < size) (d : UInt8) :
    (getCode code src size).getD k d = code (src + BitVec.ofNat 64 k) := by
  simp [getCode, List.getD, hk]

theorem getCode_drop (code : Word → UInt8) (src : Word) (m n : Nat) :
    (getCode code src (m + n)).drop m = getCode code (src + BitVec.ofNat 64 m) n := by
  apply List.ext_getElem
  · simp [getCode]
  · intro i _ _
    simp [getCode, add_ofNat_add]

theorem getCode_add (code : Word → UInt8) (src : Word) (m n : Nat) :
    getCode code src (m + n) = getCode code src m ++ getCode code (src + BitVec.ofNat 64 m) n := by
  rw [← getCode_drop code src m n]
  conv => lhs; rw [← List.take_append_drop m (getCode code src (m + n))]
  congr 1
  apply List.ext_getElem
  · simp [getCode]
  · intro i _ _
    simp [getCode]

namespace Reader

/-- The copy loop gathers the program's bytes. -/
theorem copyCode_shows {code : Word → UInt8} {icache : Word → Option (Nat → UInt8)} :
    ∀ {fuel size offset : Nat} {base : Word}, size ≤ fuel → base.toNat % icacheSize = 0 →
      offset < icacheSize →
      (∀ i < size, Shows code icache (base + BitVec.ofNat 64 (offset + i))) →
      copyCode icache fuel base offset size =
        .ok (getCode code (base + BitVec.ofNat 64 offset) size)
  | 0, size, offset, base, hf, _, _, _ => by
    have h0 : size = 0 := by omega
    subst h0
    rfl
  | fuel + 1, size, offset, base, hf, hb, ho, hs => by
    by_cases h0 : size = 0
    · subst h0
      rfl
    · obtain ⟨page, hpage, -⟩ := hs 0 (by omega)
      rw [(page_offset hb (by omega : offset + 0 < icacheSize)).1] at hpage
      have hn : min size (icacheSize - offset) ≤ size := Nat.min_le_left _ _
      have hpos : 0 < min size (icacheSize - offset) := by omega
      generalize hm : min size (icacheSize - offset) = n at hn hpos
      -- the bytes of this page
      have hcopy : (List.range n).map (fun i => page (offset + i)) =
          getCode code (base + BitVec.ofNat 64 offset) n := by
        rw [getCode]
        apply List.map_congr_left
        intro i hi
        have hi' : i < n := List.mem_range.mp hi
        obtain ⟨page', hp', hc⟩ := hs i (by omega)
        obtain ⟨h1, h2⟩ := page_offset hb (by omega : offset + i < icacheSize)
        rw [h1, hpage, Option.some.injEq] at hp'
        rw [h2, ← hp'] at hc
        rw [hc, add_ofNat_add]
      -- the bytes of the pages after it
      have hrest : copyCode icache fuel (base + BitVec.ofNat 64 icacheSize) 0 (size - n) =
          .ok (getCode code (base + BitVec.ofNat 64 icacheSize + BitVec.ofNat 64 0) (size - n)) := by
        apply copyCode_shows (by omega) (add_icacheSize_aligned hb) (by decide)
        intro i hi
        have := hs (n + i) (by omega)
        rw [add_ofNat_add]
        have he : icacheSize + (0 + i) = offset + (n + i) := by omega
        rw [he]
        exact this
      rw [copyCode, if_neg h0, hpage]
      simp only [hm, hrest, bind, Except.bind, pure, Except.pure, hcopy]
      congr 1
      have hsize : size = n + (size - n) := by omega
      conv => rhs; rw [hsize, getCode_add]
      by_cases hz : size - n = 0
      · simp [hz, getCode]
      · have he : icacheSize + 0 = offset + n := by omega
        rw [add_ofNat_add, add_ofNat_add, he]

/-- The bytes stored to a page are the program's. -/
theorem storeAt_take_getCode {code : Word → UInt8} {addr base : Word} {size n offset k : Nat}
    (page : Nat → UInt8) (ha : base + BitVec.ofNat 64 offset = addr) (hn : n ≤ size)
    (h1 : offset ≤ k) (h2 : k < offset + n) :
    storeAt page offset ((getCode code addr size).take n) k = code (base + BitVec.ofNat 64 k) := by
  have hk : k - offset < n := by omega
  have hks : k - offset < size := by omega
  rw [storeAt, if_pos h1, List.getD, List.getElem?_take, if_pos hk]
  have hg := @getCode_getD code addr _ _ hks (page k)
  rw [List.getD] at hg
  have he : offset + (k - offset) = k := by omega
  rw [hg, ← ha, add_ofNat_add, he]

/-- The rest of the page is as it was. -/
theorem storeAt_outside {page : Nat → UInt8} {offset k : Nat} {bs : List UInt8}
    (hk : ¬(offset ≤ k ∧ k < offset + bs.length)) : storeAt page offset bs k = page k := by
  rw [storeAt]
  by_cases h1 : offset ≤ k
  · have hlen : bs.length ≤ k - offset := by omega
    rw [if_pos h1, List.getD, List.getElem?_eq_none hlen, Option.getD_none]
  · rw [if_neg h1]

theorem storeCode_nil (newPage : Word → Nat → UInt8) (fuel : Nat) (addr : Word)
    (icache : Word → Option (Nat → UInt8)) : storeCode newPage fuel addr [] icache = icache := by
  cases fuel with
  | zero => rfl
  | succ fuel => rw [storeCode, if_pos rfl]

/-- The store loop keeps what the icache shows and adds the record's bytes. -/
theorem storeCode_shows {code : Word → UInt8} (newPage : Word → Nat → UInt8) :
    ∀ {fuel size : Nat} {addr : Word} {icache : Word → Option (Nat → UInt8)}, size ≤ fuel →
      (∀ a, Shows code icache a →
        Shows code (storeCode newPage fuel addr (getCode code addr size) icache) a) ∧
      ∀ i < size, Shows code (storeCode newPage fuel addr (getCode code addr size) icache)
        (addr + BitVec.ofNat 64 i)
  | 0, size, addr, icache, hf => by
    have h0 : size = 0 := by omega
    subst h0
    exact ⟨fun _ h => h, fun i hi => absurd hi (Nat.not_lt_zero i)⟩
  | fuel + 1, size, addr, icache, hf => by
    by_cases h0 : size = 0
    · subst h0
      exact ⟨fun _ h => h, fun i hi => absurd hi (Nat.not_lt_zero i)⟩
    · have hne : getCode code addr size ≠ [] := by
        intro h
        have := congrArg List.length h
        simp at this
        omega
      rw [storeCode, if_neg hne]
      simp only [length_getCode]
      have hb := and_icachePageMask_aligned addr
      have ho := offset_lt addr
      have ha := page_add_offset addr
      generalize hbase : addr &&& icachePageMask = base at hb ha ⊢
      generalize hoff : (addr &&& icacheOffsetMask).toNat = offset at ho ha ⊢
      have hn : min size (icacheSize - offset) ≤ size := Nat.min_le_left _ _
      have hpos : 0 < min size (icacheSize - offset) := by omega
      generalize hm : min size (icacheSize - offset) = n at hn hpos ⊢
      have hsize : size = n + (size - n) := by omega
      have hdrop : (getCode code addr size).drop n =
          getCode code (addr + BitVec.ofNat 64 n) (size - n) := by
        conv => lhs; rw [hsize, getCode_drop]
      have hstored : ∀ k, offset ≤ k → k < offset + n →
          storeAt ((icache base).getD (newPage base)) offset ((getCode code addr size).take n) k =
            code (base + BitVec.ofNat 64 k) := by
        exact fun k => storeAt_take_getCode _ ha hn
      have hkept : ∀ k, ¬(offset ≤ k ∧ k < offset + n) →
          storeAt ((icache base).getD (newPage base)) offset ((getCode code addr size).take n) k =
            (icache base).getD (newPage base) k := by
        intro k hk
        refine storeAt_outside ?_
        simpa [Nat.min_eq_left hn] using hk
      generalize storeAt ((icache base).getD (newPage base)) offset
        ((getCode code addr size).take n) = page at hstored hkept ⊢
      have hkeep : ∀ a, Shows code icache a →
          Shows code (Function.update icache base (some page)) a := by
        intro a h
        apply h.update
        intro k _
        by_cases hk : offset ≤ k ∧ k < offset + n
        · exact .inr (hstored k hk.1 hk.2)
        · exact .inl fun old hold => by rw [hkept k hk, hold]; rfl
      -- when bytes are left, the next page starts right behind the stored ones
      have hnext : size - n ≠ 0 → base + BitVec.ofNat 64 icacheSize = addr + BitVec.ofNat 64 n := by
        intro hz
        have he : icacheSize = offset + n := by omega
        rw [← ha, add_ofNat_add, ← he]
      have hself : ∀ i < n, Shows code (Function.update icache base (some page))
          (addr + BitVec.ofNat 64 i) := by
        intro i hi
        rw [← ha, add_ofNat_add]
        exact shows_update_self hb (by omega) (hstored _ (by omega) (by omega))
      rw [hdrop]
      by_cases hz : size - n = 0
      · have hnil : getCode code (addr + BitVec.ofNat 64 n) (size - n) = [] := by rw [hz]; rfl
        rw [hnil, storeCode_nil]
        exact ⟨hkeep, fun i hi => hself i (by omega)⟩
      · rw [hnext hz]
        obtain ⟨hrest, hnew⟩ := @storeCode_shows code newPage fuel (size - n)
          (addr + BitVec.ofNat 64 n) (Function.update icache base (some page)) (by omega)
        refine ⟨fun a h => hrest a (hkeep a h), fun i hi => ?_⟩
        by_cases hin : i < n
        · exact hrest _ (hself i hin)
        · have := hnew (i - n) (by omega)
          rw [add_ofNat_add] at this
          have he : n + (i - n) = i := by omega
          rwa [he] at this

end Reader

end Sniper.Sift
