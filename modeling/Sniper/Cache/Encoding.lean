import Sniper.Cache.BlockData
set_option autoImplicit false

namespace Sniper.Cache
open Sniper.Lib Dish

variable {n : Nat}

namespace BlockData

@[simp] theorem changeScheme_scheme (s : BlockData n) (c : Scheme) :
    (s.changeScheme c).scheme = c := rfl

@[simp] theorem changeScheme_valid (s : BlockData n) (c : Scheme) :
    (s.changeScheme c).valid = s.valid := rfl

@[simp] theorem changeScheme_data (s : BlockData n) (c : Scheme) :
    (s.changeScheme c).data = s.data := rfl

@[simp] theorem changeScheme_dataPtrs (s : BlockData n) (c : Scheme) :
    (s.changeScheme c).dataPtrs = s.dataPtrs := rfl

@[simp] theorem changeScheme_dataOffsets (s : BlockData n) (c : Scheme) :
    (s.changeScheme c).dataOffsets = s.dataOffsets := rfl

theorem changeScheme_self (s : BlockData n) : s.changeScheme s.scheme = s := by
  cases s with
  | mk scheme valid data table ptrs offsets => cases scheme <;> rfl

theorem isValid_iff {s : BlockData n} : s.isValid = true ↔ ∃ b, s.valid b = true := by
  simp [isValid]

theorem isValid_eq_false {s : BlockData n} : s.isValid = false ↔ ∀ b, s.valid b = false := by
  simp [isValid]

theorem isValid_of_valid {s : BlockData n} {b : BlockId} (h : s.valid b = true) :
    s.isValid = true := isValid_iff.2 ⟨b, h⟩

theorem getFirstValid_valid {s : BlockData n} {u : BlockId} (h : s.getFirstValid = some u) :
    s.valid u = true := List.find?_some h

theorem getFirstValid_isSome {s : BlockData n} (h : s.isValid = true) :
    ∃ u, s.getFirstValid = some u := by
  obtain ⟨b, hb⟩ := isValid_iff.1 h
  cases hf : s.getFirstValid with
  | some u => exact ⟨u, rfl⟩
  | none =>
    rw [getFirstValid, List.find?_eq_none] at hf
    exact absurd hb (hf b (List.mem_finRange b))

/-- The scratch buffer of the checks is the block with the slice replaced. -/
theorem testData_eq (s : BlockData n) (b : BlockId) (a : Slice n) (src : Ptr) :
    s.testData b a src = copyN src a.bytes a.offset (s.data b) := by
  have hfits := a.fits
  funext k
  have hk := k.isLt
  simp only [testData, copyN, Line.ptr, Ptr.add]
  by_cases hlast : a.offset + a.bytes ≤ k
  · have hin : a.offset + a.bytes ≤ k ∧ k < a.offset + a.bytes + (n - (a.offset + a.bytes)) := by
      omega
    have hout : ¬ (a.offset ≤ k ∧ k < a.offset + a.bytes) := by omega
    have hidx : a.offset + a.bytes + (k - (a.offset + a.bytes)) = (k : Nat) := by omega
    rw [if_pos hin, if_neg hout, dif_pos (by omega)]
    congr 1
    exact Fin.ext hidx
  · have hout : ¬ (a.offset + a.bytes ≤ k ∧ k < a.offset + a.bytes + (n - (a.offset + a.bytes))) := by
      omega
    rw [if_neg hout]
    by_cases hmid : a.offset ≤ k ∧ k < a.offset + a.bytes
    · rw [if_pos hmid, if_pos hmid]
    · rw [if_neg hmid, if_neg hmid, if_pos (by omega), dif_pos (by omega)]
      rfl

/-- Every chunk of the block is found through its dictionary pointer. -/
def Encodes (c : Scheme) (s : BlockData n) (b : BlockId) : Prop :=
  ∀ i < chunksPerBlock n, (s.dataPtrs b i, c.key ((s.data b).chunk i)) ∈ s.table.dict ∧
    (c = .scheme2 → s.dataOffsets b i = lower ((s.data b).chunk i))

theorem keys_length (d : Line n) (c : Scheme) : (d.keys c).length = chunksPerBlock n := by
  simp [Line.keys, Line.chunks]

theorem keys_getElem (d : Line n) (c : Scheme) {i : Nat} (h : i < (d.keys c).length) :
    (d.keys c)[i] = c.key (d.chunk i) := by
  simp [Line.keys, Line.chunks]

/-- Everything `encode` leaves alone, and what it adds. -/
theorem encode_spec {o : Order} {c : Scheme} {s s' : BlockData n} {b : BlockId} {size : Nat}
    (wf : s.table.Wf size) (h : s.encode o c b = .ok s') :
    s'.scheme = s.scheme ∧ s'.valid = s.valid ∧ s'.data = s.data ∧ s'.table.Wf size ∧
      s'.table.vals = s.table.vals ∪ ((s.data b).keys c).toFinset ∧
      (∀ e ∈ s.table.dict, e ∈ s'.table.dict) ∧ s'.Encodes c b ∧
      ∀ b' ≠ b, s'.dataPtrs b' = s.dataPtrs b' ∧ s'.dataOffsets b' = s.dataOffsets b' := by
  cases hi : PtrTable.insertAll o ((s.data b).keys c) s.table with
  | none => simp [encode, hi] at h
  | some r =>
    obtain ⟨ps, table⟩ := r
    obtain ⟨wf', mono, hvals, hall⟩ := PtrTable.insertAll_spec wf hi
    simp only [encode, hi, Except.ok.injEq] at h
    subst h
    refine ⟨rfl, rfl, rfl, wf', hvals, mono, ?_, ?_⟩
    · intro i hin
      have hlen := hall.length_eq
      rw [keys_length] at hlen
      have hip : i < ps.length := by omega
      have hiv : i < ((s.data b).keys c).length := by rw [keys_length]; exact hin
      have hmem := List.Forall₂.get hall hip hiv
      simp only [List.get_eq_getElem, keys_getElem] at hmem
      refine ⟨by simpa [hip] using hmem, ?_⟩
      intro hc
      simp [hc, hin]
    · intro b' hb'
      simp [hb']

theorem encode_isOk {o : Order} {c : Scheme} {s : BlockData n} {b : BlockId} {size : Nat}
    (wf : s.table.Wf size) :
    (∃ s', s.encode o c b = .ok s') ↔
      (s.table.vals ∪ ((s.data b).keys c).toFinset).card ≤ size := by
  rw [← PtrTable.insertAll_isSome (o := o) wf]
  cases hi : PtrTable.insertAll o ((s.data b).keys c) s.table with
  | none => simp [encode, hi]
  | some r => simp [encode, hi]

theorem encodeAll_cons {o : Order} {c : Scheme} {b : BlockId} {bs : List BlockId}
    {s s' : BlockData n} (h : encodeAll o c (b :: bs) s = .ok s') :
    ∃ u, s.encode o c b = .ok u ∧ encodeAll o c bs u = .ok s' := by
  cases he : s.encode o c b with
  | error f => simp [encodeAll, he, bind, Except.bind] at h
  | ok u => exact ⟨u, rfl, by simpa [encodeAll, he, bind, Except.bind] using h⟩

theorem Encodes.mono {c : Scheme} {s s' : BlockData n} {b : BlockId} (h : s.Encodes c b)
    (hdata : s'.data b = s.data b) (hdict : ∀ e ∈ s.table.dict, e ∈ s'.table.dict)
    (hptrs : s'.dataPtrs b = s.dataPtrs b) (hoffs : s'.dataOffsets b = s.dataOffsets b) :
    s'.Encodes c b := by
  intro i hi
  rw [hdata, hptrs, hoffs]
  exact ⟨hdict _ (h i hi).1, (h i hi).2⟩

/-- The whole encoding loop: the listed blocks and the blocks encoded before it are encoded. -/
theorem encodeAll_spec {o : Order} {c : Scheme} {bs : List BlockId} {s s' : BlockData n}
    {size : Nat} (wf : s.table.Wf size) (h : encodeAll o c bs s = .ok s') :
    s'.scheme = s.scheme ∧ s'.valid = s.valid ∧ s'.data = s.data ∧ s'.table.Wf size ∧
      s'.table.vals = s.table.vals ∪ (bs.flatMap fun b => (s.data b).keys c).toFinset ∧
      ∀ b, b ∈ bs ∨ s.Encodes c b → s'.Encodes c b := by
  induction bs generalizing s with
  | nil =>
    simp only [encodeAll, Except.ok.injEq] at h
    subst h
    refine ⟨rfl, rfl, rfl, wf, by simp, ?_⟩
    intro b hb
    rcases hb with hb | hb
    · simp at hb
    · exact hb
  | cons b bs ih =>
    obtain ⟨u, hu, hrest⟩ := encodeAll_cons h
    obtain ⟨hsch, hval, hdata, wfu, hvals, hmono, henc, hother⟩ := encode_spec wf hu
    obtain ⟨hsch', hval', hdata', wf', hvals', henc'⟩ := ih wfu hrest
    refine ⟨hsch'.trans hsch, hval'.trans hval, hdata'.trans hdata, wf', ?_, ?_⟩
    · rw [hvals', hvals, hdata, List.flatMap_cons, List.toFinset_append, Finset.union_assoc]
    · intro b' hb'
      apply henc'
      by_cases hbb : b' = b
      · subst hbb
        exact .inr henc
      · rcases hb' with hb' | hb'
        · rcases List.mem_cons.1 hb' with hb' | hb'
          · exact absurd hb' hbb
          · exact .inl hb'
        · obtain ⟨hp, ho⟩ := hother b' hbb
          exact .inr (hb'.mono (congrFun hdata b') hmono hp ho)

theorem encodeAll_isOk (o : Order) (c : Scheme) (bs : List BlockId) {s : BlockData n} {size : Nat}
    (wf : s.table.Wf size) :
    (∃ s', encodeAll o c bs s = .ok s') ↔
      (s.table.vals ∪ (bs.flatMap fun b => (s.data b).keys c).toFinset).card ≤ size := by
  induction bs generalizing s with
  | nil => simpa [encodeAll] using wf.vals_card_le
  | cons b bs ih =>
    have hsub : s.table.vals ∪ ((s.data b).keys c).toFinset ⊆
        s.table.vals ∪ ((b :: bs).flatMap fun b => (s.data b).keys c).toFinset := by
      rw [List.flatMap_cons, List.toFinset_append, ← Finset.union_assoc]
      exact Finset.subset_union_left
    cases he : s.encode o c b with
    | error f =>
      have hn : ¬ (s.table.vals ∪ ((s.data b).keys c).toFinset).card ≤ size := by
        rw [← encode_isOk (o := o) wf, he]
        simp
      have hle := Finset.card_le_card hsub
      simp only [encodeAll, he, bind, Except.bind, reduceCtorEq, exists_false, false_iff]
      omega
    | ok u =>
      obtain ⟨-, -, hdata, wfu, hvals, -⟩ := encode_spec wf he
      have hu := ih wfu
      rw [hvals, hdata, Finset.union_assoc, ← List.toFinset_append] at hu
      rw [List.flatMap_cons, ← hu]
      simp [encodeAll, he, bind, Except.bind]

end BlockData

end Sniper.Cache
