import Sniper.Cache.Cache
set_option autoImplicit false

/-! Tags and data of a set, when controllers may also invalidate a block info by itself. -/

namespace Sniper.Cache
open Sniper.Lib Dish

variable {n assoc : Nat}

/-- A call on a set, or `CacheBlockInfo::invalidate` through a pointer into the set, as the
controllers of passthrough caches do it. -/
inductive SetAct (n assoc : Nat) where
  | call (c : SetCall n assoc)
  | invalidateInfo (w : Fin assoc) (b : BlockId)

namespace CacheSet

def act (linear : Addr → Addr) (s : CacheSet n assoc) :
    SetAct n assoc → Outcome (List (Writeback n) × CacheSet n assoc)
  | .call c => s.perform linear c
  | .invalidateInfo w b =>
    match (s w).info.blockInfos b with
    | none => .error .nullPointer
    | some _ =>
      let info := (s w).info.modifyAt b CacheBlockInfo.invalidate
      .ok ([], Function.update s w { s w with info := info })

def actMachine (n assoc : Nat) (linear : Addr → Addr) :
    Machine (CacheSet n assoc) (SetAct n assoc) (List (Writeback n)) where
  init s := s = fresh
  step s a wbs s' := s.act linear a = .ok (wbs, s')

/-- Tags and data say the same of every block. -/
def SameValidity (s : CacheSet n assoc) : Prop := ∀ w b, (s w).info.isValidAt b = (s w).data.valid b

/-- No valid block has its info invalidated behind the back of its data. -/
def SparesValid (s : CacheSet n assoc) : SetAct n assoc → Prop
  | .call _ => True
  | .invalidateInfo w b => (s w).info.isValidAt b = false

variable {linear : Addr → Addr} {s s' : CacheSet n assoc}

theorem Agrees.sameValidity (h : s.Agrees) : s.SameValidity := fun w => (h w).same

theorem modifyAt_invalidate_self (info : SuperblockInfo) (b : BlockId) :
    (info.modifyAt b CacheBlockInfo.invalidate).isValidAt b = false := by
  cases hi : info.blockInfos b with
  | none => simp [SuperblockInfo.modifyAt, SuperblockInfo.isValidAt, hi]
  | some i =>
    simp [SuperblockInfo.modifyAt, SuperblockInfo.isValidAt, hi, CacheBlockInfo.invalidate,
      CacheBlockInfo.isValid]

theorem modifyAt_isValidAt_ne (info : SuperblockInfo) {b b' : BlockId} (hb : b' ≠ b)
    (f : CacheBlockInfo → CacheBlockInfo) : (info.modifyAt b f).isValidAt b' = info.isValidAt b' :=
  SuperblockInfo.isValidAt_congr (Function.update_of_ne hb _ _)

/-- Invalidating the info of a block that was invalid already changes nothing that counts. -/
theorem invalidateInfo_agrees {w : Fin assoc} {b : BlockId} (hs : s.Agrees)
    (h : (s w).info.isValidAt b = false) : Agrees (Function.update s w
      { s w with info := (s w).info.modifyAt b CacheBlockInfo.invalidate }) := by
  refine hs.update ⟨(hs w).inv, fun b' => ?_⟩
  by_cases hb : b' = b
  · subst hb
    rw [modifyAt_invalidate_self, ← (hs w).same b', h]
  · rw [modifyAt_isValidAt_ne _ hb, (hs w).same b']

/-- Invalidating the info of a valid block leaves its data behind. -/
theorem invalidateInfo_not_sameValidity {w : Fin assoc} {b : BlockId} (hs : s.Agrees)
    (h : (s w).info.isValidAt b = true) : ¬SameValidity (Function.update s w
      { s w with info := (s w).info.modifyAt b CacheBlockInfo.invalidate }) := by
  intro hsame
  have hb := hsame w b
  rw [Function.update_self, modifyAt_invalidate_self, ← (hs w).same b, h] at hb
  cases hb

theorem act_agrees {a : SetAct n assoc} {wbs : List (Writeback n)} (hs : s.Agrees)
    (hok : s.SparesValid a) (h : s.act linear a = .ok (wbs, s')) : s'.Agrees := by
  cases a with
  | call c => exact perform_agrees hs h
  | invalidateInfo w b =>
    simp only [act] at h
    split at h
    · cases h
    · cases h
      exact invalidateInfo_agrees hs hok

theorem act_sameValidity_iff {a : SetAct n assoc} {wbs : List (Writeback n)} (hs : s.Agrees)
    (h : s.act linear a = .ok (wbs, s')) : s'.SameValidity ↔ s.SparesValid a := by
  refine ⟨fun hsame => ?_, fun hok => (act_agrees hs hok h).sameValidity⟩
  cases a with
  | call c => trivial
  | invalidateInfo w b =>
    simp only [act] at h
    split at h
    · cases h
    · cases h
      by_contra hvalid
      rw [SparesValid, Bool.not_eq_false] at hvalid
      exact invalidateInfo_not_sameValidity hs hvalid hsame

/-- Along a run in which no valid block has its info alone invalidated, tags and data agree on
every block; a step makes them disagree exactly when it does that. -/
theorem tags_agree_with_data {tr : List (SetAct n assoc × List (Writeback n))}
    (h : Run (actMachine n assoc linear) SparesValid tr s) :
    (∀ w b, (s w).info.isValidAt b = (s w).data.valid b) ∧
    ∀ a wbs s', s.act linear a = .ok (wbs, s') →
      ((∀ w b, (s' w).info.isValidAt b = (s' w).data.valid b) ↔ s.SparesValid a) := by
  have hs : s.Agrees := by
    refine h.invariant (I := Agrees) ?_ ?_
    · rintro s rfl w
      exact Way.agrees_fresh
    · intro s a wbs s' hs hok hstep
      exact act_agrees hs hok hstep
  exact ⟨hs.sameValidity, fun a wbs s' hstep => act_sameValidity_iff hs hstep⟩

def insertBlank (tag : Addr) : SetAct 64 1 := .call (insertBlankLine tag)

def sparesCall (s : CacheSet n assoc) : SetAct n assoc → Bool
  | .call _ => true
  | .invalidateInfo w b => !(s w).info.isValidAt b

theorem sparesValid_of_sparesCall (s : CacheSet n assoc) (a : SetAct n assoc)
    (h : s.sparesCall a = true) : s.SparesValid a := by
  cases a with
  | call c => trivial
  | invalidateInfo w b => simpa [sparesCall, SparesValid] using h

theorem tags_agree_with_data_twoLines : ∃ s : CacheSet 64 1,
    (s 0).data.valid 1 = true ∧ (s 0).info.isValidAt 1 = true ∧ (s 0).info.isValidAt 2 = false := by
  have heval : (performEach (act id) sparesCall (fresh : CacheSet 64 1)
      [insertBlank 0, insertBlank 1]).any (fun s => (s 0).data.valid 1 && !(s 0).data.valid 2) =
        true := by
    rfl
  obtain ⟨s, hs, heval⟩ := Option.any_eq_true _ _ |>.mp heval
  simp only [Bool.and_eq_true, Bool.not_eq_true'] at heval
  obtain ⟨tr, hrun⟩ := Run.performEach (M := actMachine 64 1 id) (fun _ _ _ _ h => h)
    sparesValid_of_sparesCall (.start rfl) hs
  obtain ⟨hsame, -⟩ := tags_agree_with_data hrun
  exact ⟨s, heval.1, by rw [hsame, heval.1], by rw [hsame, heval.2]⟩

/-- A line inserted, then invalidated through its block info: the tag is gone and the data stays. -/
theorem passthrough_leaves_ghost_data :
    ¬∀ s : CacheSet 64 1, Reachable (actMachine 64 1 id) s → s.SameValidity := by
  intro hall
  have heval : (performEach (act id) (fun _ _ => true) (fresh : CacheSet 64 1)
      [insertBlank 0, .invalidateInfo 0 0]).any (fun s =>
        (s 0).data.valid 0 && !(s 0).info.isValidAt 0) = true := by
    rfl
  obtain ⟨s, hs, heval⟩ := Option.any_eq_true _ _ |>.mp heval
  simp only [Bool.and_eq_true, Bool.not_eq_true'] at heval
  have hreach : Reachable (actMachine 64 1 id) s :=
    Run.performEach (M := actMachine 64 1 id) (fun _ _ _ _ h => h) (fun _ _ _ => trivial)
      (.start rfl) hs
  have hsame := hall s hreach 0 0
  rw [heval.1, heval.2] at hsame
  cases hsame

end CacheSet

end Sniper.Cache
