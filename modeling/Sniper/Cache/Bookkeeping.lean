import Sniper.Cache.Refinement
set_option autoImplicit false

/-! The dictionary's three containers are kept in step. -/

namespace Sniper.Cache
open Sniper.Lib Dish

variable {n : Nat}

namespace BlockData

def insertDictEntry (o : Order) (s : BlockData n) (value : Word) : Outcome (Nat × BlockData n) :=
  match s.table.insert o value with
  | none => .error .dictionaryFull
  | some (ptr, table) => .ok (ptr, { s with table := table })

def removeDictEntry (s : BlockData n) (ptr : Nat) : Outcome (BlockData n) :=
  match s.table.remove ptr with
  | none => .error .refused
  | some table => .ok { s with table := table }

/-- The pointers in use are those of the dictionary, the others of the scheme's pool are free, and
no two pointers stand for one value. -/
def Bookkept (s : BlockData n) : Prop := s.scheme ≠ .invalid ∧ s.table.Wf s.scheme.dictSize

theorem Inv.bookkept {s : BlockData n} (inv : s.Inv) : s.Bookkept := ⟨inv.scheme_ne, inv.table_wf⟩

theorem Bookkept.insertDictEntry {s s' : BlockData n} (h : s.Bookkept) {o : Order} {value : Word}
    {ptr : Nat} (hins : s.insertDictEntry o value = .ok (ptr, s')) : s'.Bookkept := by
  rw [BlockData.insertDictEntry] at hins
  cases hi : s.table.insert o value with
  | none => simp [hi] at hins
  | some r =>
    obtain ⟨p, table⟩ := r
    simp only [hi, Except.ok.injEq, Prod.mk.injEq] at hins
    obtain ⟨rfl, rfl⟩ := hins
    exact ⟨h.1, (PtrTable.insert_spec h.2 hi).1⟩

theorem Bookkept.removeDictEntry {s s' : BlockData n} (h : s.Bookkept) {ptr : Nat}
    (hrem : s.removeDictEntry ptr = .ok s') : s'.Bookkept := by
  rw [BlockData.removeDictEntry] at hrem
  cases hr : s.table.remove ptr with
  | none => simp [hr] at hrem
  | some table =>
    simp only [hr, Except.ok.injEq] at hrem
    subst hrem
    exact ⟨h.1, PtrTable.remove_wf h.2 hr⟩

theorem Bookkept.eraseUnused {s : BlockData n} (h : s.Bookkept) : s.eraseUnused.Bookkept :=
  ⟨h.1, PtrTable.prune_wf h.2⟩

/-- Each change of scheme leaves the whole pool of the new scheme free. -/
theorem Bookkept.changeScheme {s : BlockData n} (h : s.Bookkept) {c : Scheme}
    (hc : c ≠ .invalid) : (s.changeScheme c).Bookkept := by
  refine ⟨hc, ?_⟩
  by_cases hsame : s.scheme = c
  · subst hsame
    rw [changeScheme_self]
    exact h.2
  · have hempty : s.scheme = .uncompressed → s.table = .empty := by
      intro hs
      have wf := h.2
      rw [hs] at wf
      exact wf_zero_eq_empty wf
    have hne := h.1
    have htable : (s.changeScheme c).table = PtrTable.empty.fill c.dictSize := by
      have hfill : (PtrTable.empty : PtrTable Word).fill 0 = .empty := by
        simp [PtrTable.fill, PtrTable.empty]
      cases hs : s.scheme <;> cases c <;> simp_all [BlockData.changeScheme, Scheme.dictSize]
    rw [htable]
    exact PtrTable.wf_fill_empty _

/-- In every state that calls on a superblock lead to, the dictionary is kept in step, and all that
touches it keeps it so. -/
theorem dictionary_bookkept :
    (∀ s : BlockData n, Reachable (machine n) s → s.Bookkept ∧
      (∀ o b ins k s' k', s.insertBlockData o b ins k = .ok (s', k') → s'.Bookkept) ∧
      (∀ o b a wr k s' k', s.writeBlockData o b a wr k = .ok (s', k') → s'.Bookkept) ∧
      (∀ b k line s' k', s.evictBlockData b k = .ok (line, s', k') → s'.Bookkept) ∧
      ∀ b k, (s.invalidateBlockData b k).1.Bookkept) ∧
    ∀ s : BlockData n, s.Bookkept →
      (∀ o value ptr s', s.insertDictEntry o value = .ok (ptr, s') → s'.Bookkept) ∧
      (∀ ptr s', s.removeDictEntry ptr = .ok s' → s'.Bookkept) ∧
      s.compactScheme1.Bookkept ∧ s.compactScheme2.Bookkept ∧
      ∀ c, c ≠ .invalid → (s.changeScheme c).Bookkept := by
  constructor
  · intro s h
    have inv := reachable_inv h
    refine ⟨inv.bookkept, ?_, ?_, ?_, ?_⟩
    · intro o b ins k s' k' hins
      exact (insertBlockData_spec inv hins).1.bookkept
    · intro o b a wr k s' k' hwr
      exact (writeBlockData_spec inv hwr).1.bookkept
    · intro b k line s' k' hev
      exact (evictBlockData_spec inv hev).1.bookkept
    · intro b k
      exact (dropBlock_spec b k inv).1.bookkept
  · intro s h
    refine ⟨?_, ?_, h.eraseUnused, h.eraseUnused, fun c hc => h.changeScheme hc⟩
    · intro o value ptr s' hins
      exact h.insertDictEntry hins
    · intro ptr s' hrem
      exact h.removeDictEntry hrem

theorem dictionary_bookkept_twoBlankLines : ∃ s : BlockData 64, s.scheme = .scheme1 ∧
    s.table.free ∪ s.table.used = Finset.range 8 ∧ ∀ ptr s',
      s.removeDictEntry ptr = .ok s' → s'.table.free ∪ s'.table.used = Finset.range 8 := by
  have heval : Outcome.test (fresh.performAll twoBlankLines) (fun s => s.scheme == .scheme1) =
      true := by
    rfl
  obtain ⟨s, hs, hscheme⟩ := Outcome.test_eq_true heval
  have hscheme' : s.scheme = .scheme1 := by simpa using hscheme
  have hkept := (dictionary_bookkept.1 s (performAll_reachable hs)).1
  refine ⟨s, hscheme', ?_, fun ptr s' hrem => ?_⟩
  · simpa [hscheme', Scheme.dictSize, scheme1DictSize] using hkept.2.cover
  · have hkept' := (dictionary_bookkept.2 s hkept).2.1 ptr s' hrem
    have hsame : s'.scheme = .scheme1 := by
      rw [removeDictEntry] at hrem
      split at hrem
      · cases hrem
      · cases hrem
        exact hscheme'
    simpa [hsame, Scheme.dictSize, scheme1DictSize] using hkept'.2.cover

end BlockData

end Sniper.Cache
