import Sniper.Cache.Refinement
import Mathlib.Data.Fintype.Card
import Mathlib.Algebra.BigOperators.Fin
set_option autoImplicit false

/-! The counters of the compression controller, over all the superblocks that share it. -/

namespace Sniper.Cache
open Sniper.Lib Dish

variable {n : Nat} {ι : Type}

/-- The superblocks of a cache, all of which report to one compression controller. -/
structure Superblocks (ι : Type) (n : Nat) where
  blocks : ι → BlockData n
  cntlr : CompressionCntlr

/-- One call on one of the superblocks. -/
structure BlockCall (ι : Type) (n : Nat) where
  block : ι
  op : Op n
  order : Order

namespace BlockData

/-- A call with the controller it reports to. -/
def performWith (o : Order) (s : BlockData n) (k : CompressionCntlr) :
    Op n → Outcome (BlockData n × CompressionCntlr)
  | .insert b ins => s.insertBlockData o b ins k
  | .write b a wr => s.writeBlockData o b a wr k
  | .read b a rd => do
    let _ ← s.readBlockData b a rd
    return (s, k)
  | .evict b => do
    let (_, s, k) ← s.evictBlockData b k
    return (s, k)
  | .invalidate b => return s.invalidateBlockData b k

end BlockData

namespace Superblocks

def perform [DecidableEq ι] (p : Superblocks ι n) (c : BlockCall ι n) :
    Outcome (Superblocks ι n) := do
  let (s, k) ← (p.blocks c.block).performWith c.order p.cntlr c.op
  return ⟨Function.update p.blocks c.block s, k⟩

/-- A new cache: nothing stored, nothing counted, the compression options as configured. -/
def Initial (p : Superblocks ι n) : Prop :=
  (∀ i, p.blocks i = .fresh) ∧ p.cntlr.numScheme1 = 0 ∧ p.cntlr.numScheme2 = 0

def machine (ι : Type) [DecidableEq ι] (n : Nat) : Machine (Superblocks ι n) (BlockCall ι n) Unit where
  init p := p.Initial
  step p c _ p' := p.perform c = .ok p'

def numIn [Fintype ι] (p : Superblocks ι n) (c : Scheme) : Nat :=
  (Finset.univ.filter fun i => (p.blocks i).scheme = c).card

end Superblocks

namespace BlockData

def counts (s : BlockData n) (c : Scheme) : Int := if s.scheme = c then 1 else 0

/-- The controller's counters moved as the scheme of the superblock did, and its options stayed. -/
structure Tracks (s s' : BlockData n) (k k' : CompressionCntlr) : Prop where
  compressible : k'.compressible = k.compressible
  scheme1 : k'.numScheme1 + s.counts .scheme1 = k.numScheme1 + s'.counts .scheme1
  scheme2 : k'.numScheme2 + s.counts .scheme2 = k.numScheme2 + s'.counts .scheme2

variable {s s' u : BlockData n} {k k' : CompressionCntlr} {b : BlockId} {o : Order}

theorem tracks_of_scheme_eq (h : s'.scheme = s.scheme) : Tracks s s' k k := by
  refine ⟨rfl, ?_, ?_⟩
  · simp only [counts, h]
  · simp only [counts, h]

theorem Tracks.of_scheme_eq (h : Tracks s u k k') (hs : s'.scheme = u.scheme) :
    Tracks s s' k k' := by
  refine ⟨h.compressible, ?_, ?_⟩
  · simpa only [counts, hs] using h.scheme1
  · simpa only [counts, hs] using h.scheme2

theorem encode_scheme {c : Scheme} (h : s.encode o c b = .ok s') : s'.scheme = s.scheme := by
  unfold encode at h
  split at h
  · cases h
  · cases h
    rfl

theorem encodeAll_scheme {c : Scheme} {bs : List BlockId} (h : encodeAll o c bs s = .ok s') :
    s'.scheme = s.scheme := by
  induction bs generalizing s with
  | nil =>
    cases h
    rfl
  | cons b bs ih =>
    simp only [encodeAll, except_bind_eq_ok] at h
    obtain ⟨u, hu, h⟩ := h
    rw [ih h, encode_scheme hu]

theorem compactIfPruning_scheme (h : compactIfPruning k s = .ok s') : s'.scheme = s.scheme := by
  unfold compactIfPruning at h
  split at h
  · unfold compact at h
    split at h
    · cases h
      rfl
    · split at h <;> cases h <;> rfl
  · cases h
    rfl

/-- Leaving one scheme for another: the old one is counted out, then the new one in. -/
theorem tracks_changed {c : Scheme} (h : s'.scheme = c) :
    Tracks s s' k ((k.evict s.scheme).insert c) := by
  refine ⟨?_, ?_, ?_⟩
  · cases s.scheme <;> cases c <;> rfl
  · cases hs : s.scheme <;> cases c <;>
      simp [counts, hs, h, CompressionCntlr.evict, CompressionCntlr.insert]
  · cases hs : s.scheme <;> cases c <;>
      simp [counts, hs, h, CompressionCntlr.evict, CompressionCntlr.insert]

theorem compressAs_tracks {c : Scheme} {fits : Outcome Bool} {a : Slice n} {wr : Ptr}
    (h : compressAs o c fits s b a wr k = .ok (s', k')) : Tracks s s' k k' := by
  simp only [compressAs, except_bind_eq_ok, check_ok] at h
  obtain ⟨-, -, -, -, -, -, -, -, -, -, h⟩ := h
  split at h
  · simp only [except_bind_eq_ok, pure_eq_ok, Prod.mk.injEq] at h
    obtain ⟨u, hu, rfl, rfl⟩ := h
    exact tracks_of_scheme_eq (by rw [encode_scheme hu, setData_scheme])
  · have hchanged : ∀ {bs : List BlockId} {d : Line n},
        encodeAll o c bs ((s.setData b d).changeScheme c) = .ok s' →
          Tracks s s' k ((k.evict s.scheme).insert c) := fun hu =>
      tracks_changed (by rw [encodeAll_scheme hu, changeScheme_scheme])
    split at h
    · rename_i hs
      simp only [except_bind_eq_ok, pure_eq_ok, Prod.mk.injEq] at h
      obtain ⟨u, hu, rfl, rfl⟩ := h
      rw [setData_scheme] at hs
      have htrack := hchanged hu
      rwa [hs] at htrack
    · cases h
    · simp only [except_bind_eq_ok, pure_eq_ok, Prod.mk.injEq] at h
      obtain ⟨u, hu, rfl, rfl⟩ := h
      rw [setData_scheme]
      exact hchanged hu

theorem storeWritten_tracks {a : Slice n} {wr : Ptr} {c : Scheme}
    (h : storeWritten o s b a wr k c = .ok (s', k')) : Tracks s s' k k' := by
  cases c with
  | uncompressed =>
    cases h
    exact tracks_of_scheme_eq rfl
  | scheme1 => exact compressAs_tracks h
  | scheme2 => exact compressAs_tracks h
  | invalid => cases h

theorem storeInserted_tracks {ins : Ptr} {c : Scheme}
    (h : storeInserted o s b ins k c = .ok (s', k')) : Tracks s s' k k' := by
  cases c with
  | uncompressed =>
    cases h
    exact tracks_of_scheme_eq rfl
  | scheme1 => exact compressAs_tracks h
  | scheme2 => exact compressAs_tracks h
  | invalid => cases h

theorem writeBlockData_tracks {a : Slice n} {wr : Option Ptr}
    (h : s.writeBlockData o b a wr k = .ok (s', k')) : Tracks s s' k k' := by
  simp only [writeBlockData, except_bind_eq_ok] at h
  obtain ⟨-, -, h⟩ := h
  cases wr with
  | none =>
    simp only [except_bind_eq_ok, pure_eq_ok, Prod.mk.injEq] at h
    obtain ⟨u, hu, rfl, rfl⟩ := h
    exact tracks_of_scheme_eq (compactIfPruning_scheme hu)
  | some wr =>
    simp only [except_bind_eq_ok, pure_eq_ok, Prod.mk.injEq] at h
    obtain ⟨c, -, ⟨u, k1⟩, hst, v, hv, rfl, rfl⟩ := h
    exact (storeWritten_tracks hst).of_scheme_eq (compactIfPruning_scheme hv)

theorem insertBlockData_tracks {ins : Option Ptr}
    (h : s.insertBlockData o b ins k = .ok (s', k')) : Tracks s s' k k' := by
  simp only [insertBlockData, except_bind_eq_ok] at h
  obtain ⟨-, -, h⟩ := h
  cases ins with
  | none =>
    simp only [except_bind_eq_ok, pure_eq_ok, Prod.mk.injEq] at h
    obtain ⟨u, hu, rfl, rfl⟩ := h
    exact tracks_of_scheme_eq (by rw [compactIfPruning_scheme hu, setValid_scheme])
  | some ins =>
    simp only [except_bind_eq_ok, pure_eq_ok, Prod.mk.injEq] at h
    obtain ⟨c, -, ⟨u, k1⟩, hst, v, hv, rfl, rfl⟩ := h
    exact (storeInserted_tracks hst).of_scheme_eq
      (by rw [compactIfPruning_scheme hv, setValid_scheme])

theorem dropBlock_tracks (s : BlockData n) (b : BlockId) (k : CompressionCntlr) :
    Tracks s (s.dropBlock b k).1 k (s.dropBlock b k).2 := by
  simp only [dropBlock]
  split
  · have hgone : Tracks s _ k ((k.evict s.scheme).insert .uncompressed) :=
      tracks_changed (changeScheme_scheme ((s.setValid b false).setData b .zero) .uncompressed)
    exact hgone
  · exact tracks_of_scheme_eq rfl

theorem evictBlockData_tracks {line : Line n} (h : s.evictBlockData b k = .ok (line, s', k')) :
    Tracks s s' k k' := by
  have hdrop := dropBlock_tracks s b k
  simp only [evictBlockData, except_bind_eq_ok] at h
  obtain ⟨-, -, h⟩ := h
  split at h
  · simp only [except_bind_eq_ok, pure_eq_ok, Prod.mk.injEq] at h
    obtain ⟨u, hu, -, rfl, rfl⟩ := h
    exact hdrop.of_scheme_eq (compactIfPruning_scheme hu)
  · simp only [pure_eq_ok, Prod.mk.injEq] at h
    obtain ⟨-, rfl, rfl⟩ := h
    exact hdrop

theorem performWith_tracks {op : Op n} (h : s.performWith o k op = .ok (s', k')) :
    Tracks s s' k k' := by
  cases op with
  | insert b ins => exact insertBlockData_tracks h
  | write b a wr => exact writeBlockData_tracks h
  | read b a rd =>
    simp only [performWith, except_bind_eq_ok, pure_eq_ok, Prod.mk.injEq] at h
    obtain ⟨-, -, rfl, rfl⟩ := h
    exact tracks_of_scheme_eq rfl
  | evict b =>
    simp only [performWith, except_bind_eq_ok, pure_eq_ok, Prod.mk.injEq] at h
    obtain ⟨⟨line, u, k1⟩, hev, rfl, rfl⟩ := h
    exact evictBlockData_tracks hev
  | invalidate b =>
    simp only [performWith, pure_eq_ok] at h
    have hdrop := dropBlock_tracks s b k
    rw [invalidateBlockData] at h
    rwa [h] at hdrop

end BlockData

namespace Superblocks

variable [Fintype ι]

theorem numIn_eq_sum (p : Superblocks ι n) (c : Scheme) :
    (p.numIn c : Int) = ∑ i, (p.blocks i).counts c := by
  simp [numIn, BlockData.counts, Finset.sum_boole]

def Exact (p : Superblocks ι n) : Prop :=
  p.cntlr.numScheme1 = p.numIn .scheme1 ∧ p.cntlr.numScheme2 = p.numIn .scheme2

theorem Initial.exact {p : Superblocks ι n} (h : p.Initial) : p.Exact := by
  obtain ⟨hfresh, h1, h2⟩ := h
  have hnone : ∀ c, c ≠ .uncompressed → p.numIn c = 0 := by
    intro c hc
    simp [numIn, hfresh, BlockData.fresh, hc.symm]
  rw [Exact, h1, h2, hnone .scheme1 (by decide), hnone .scheme2 (by decide)]
  exact ⟨rfl, rfl⟩

variable [DecidableEq ι]

/-- Replacing one superblock moves the number in a scheme by what that superblock counts. -/
theorem numIn_update (p : Superblocks ι n) (i : ι) (s : BlockData n) (k : CompressionCntlr)
    (c : Scheme) : ((⟨Function.update p.blocks i s, k⟩ : Superblocks ι n).numIn c : Int) +
      (p.blocks i).counts c = p.numIn c + s.counts c := by
  rw [numIn_eq_sum, numIn_eq_sum, ← Finset.add_sum_erase _ _ (Finset.mem_univ i),
    ← Finset.add_sum_erase (a := i) _ (fun j => (p.blocks j).counts c) (Finset.mem_univ i)]
  have hrest : ∑ j ∈ Finset.univ.erase i, (Function.update p.blocks i s j).counts c =
      ∑ j ∈ Finset.univ.erase i, (p.blocks j).counts c :=
    Finset.sum_congr rfl fun j hj => by rw [Function.update_of_ne (Finset.ne_of_mem_erase hj)]
  simp only [hrest, Function.update_self]
  omega

theorem Exact.perform {p p' : Superblocks ι n} {c : BlockCall ι n} (h : p.Exact)
    (hp : p.perform c = .ok p') : p'.Exact := by
  simp only [Superblocks.perform, except_bind_eq_ok, pure_eq_ok] at hp
  obtain ⟨⟨s, k⟩, hop, rfl⟩ := hp
  obtain ⟨-, htrack1, htrack2⟩ := BlockData.performWith_tracks hop
  have hnum1 := numIn_update p c.block s k .scheme1
  have hnum2 := numIn_update p c.block s k .scheme2
  have hexact := h
  simp only [Exact] at hexact ⊢
  omega

/-- After any sequence of calls on the superblocks that share a compression controller, its
counters are the numbers of superblocks in the two schemes; they stay so while a superblock is
being counted out, and the default scheme is the one most superblocks are in. -/
theorem counters_exact (p : Superblocks ι n) (h : Reachable (machine ι n) p) :
    p.cntlr.numScheme1 = p.numIn .scheme1 ∧ p.cntlr.numScheme2 = p.numIn .scheme2 ∧
    0 ≤ p.cntlr.numScheme1 ∧ 0 ≤ p.cntlr.numScheme2 ∧
    (∀ i, 0 ≤ (p.cntlr.evict (p.blocks i).scheme).numScheme1 ∧
      0 ≤ (p.cntlr.evict (p.blocks i).scheme).numScheme2) ∧
    (p.cntlr.getDefaultScheme = .scheme1 ↔ p.numIn .scheme2 ≤ p.numIn .scheme1) ∧
    (p.cntlr.getDefaultScheme = .scheme2 ↔ p.numIn .scheme1 < p.numIn .scheme2) := by
  have hexact : p.Exact := by
    refine h.invariant (I := Exact) ?_ ?_
    · intro p hp
      exact Initial.exact hp
    · intro p c _ p' hp hstep
      exact hp.perform hstep
  obtain ⟨h1, h2⟩ := hexact
  have hpos : ∀ i c, (p.blocks i).scheme = c → 0 < p.numIn c := by
    intro i c hi
    exact Finset.card_pos.mpr ⟨i, by simpa using hi⟩
  refine ⟨h1, h2, by omega, by omega, fun i => ?_, ?_, ?_⟩
  · cases hs : (p.blocks i).scheme with
    | scheme1 =>
      have := hpos i _ hs
      simp only [CompressionCntlr.evict]
      omega
    | scheme2 =>
      have := hpos i _ hs
      simp only [CompressionCntlr.evict]
      omega
    | uncompressed =>
      simp only [CompressionCntlr.evict]
      omega
    | invalid =>
      simp only [CompressionCntlr.evict]
      omega
  · rw [CompressionCntlr.getDefaultScheme]
    split
    · simp only [true_iff]
      omega
    · simp only [reduceCtorEq, false_iff]
      omega
  · rw [CompressionCntlr.getDefaultScheme]
    split
    · simp only [reduceCtorEq, false_iff]
      omega
    · simp only [true_iff]
      omega

omit [Fintype ι] in
def performAll (p : Superblocks ι n) : List (BlockCall ι n) → Outcome (Superblocks ι n)
  | [] => .ok p
  | c :: cs => do
    let p ← p.perform c
    p.performAll cs

omit [Fintype ι] in
theorem performAll_reachable {p p' : Superblocks ι n} {cs : List (BlockCall ι n)}
    (h : Reachable (machine ι n) p) (hall : p.performAll cs = .ok p') :
    Reachable (machine ι n) p' := by
  induction cs generalizing p with
  | nil =>
    cases hall
    exact h
  | cons c cs ih =>
    simp only [performAll, except_bind_eq_ok] at hall
    obtain ⟨q, hstep, hall⟩ := hall
    obtain ⟨tr, hrun⟩ := h
    exact ih ⟨_, hrun.next (o := ()) trivial hstep⟩ hall

open scoped Lib.Literals in
/-- Two blank lines compress the first of two superblocks, and the second keeps one line raw. -/
def blankLines : List (BlockCall (Fin 2) 64) :=
  [⟨0, .insert 0 (some fun _ => 0), .greatest⟩, ⟨0, .insert 1 (some fun _ => 0), .greatest⟩,
   ⟨1, .insert 2 (some fun _ => 0), .greatest⟩]

theorem counters_exact_blankLines : ∃ p : Superblocks (Fin 2) 64,
    Reachable (machine (Fin 2) 64) p ∧ p.cntlr.numScheme1 = 1 ∧ p.numIn .scheme1 = 1 := by
  have heval : Outcome.test ((⟨fun _ => .fresh, BlockData.sampleCntlr true true⟩ :
      Superblocks (Fin 2) 64).performAll blankLines) (fun p => p.cntlr.numScheme1 == 1) = true := by
    rfl
  obtain ⟨p, hp, hone⟩ := Outcome.test_eq_true heval
  have hinit : Reachable (machine (Fin 2) 64) ⟨fun _ => .fresh, BlockData.sampleCntlr true true⟩ :=
    ⟨[], .start ⟨fun _ => rfl, rfl, rfl⟩⟩
  have hreach := performAll_reachable hinit hp
  rw [beq_iff_eq] at hone
  obtain ⟨h1, -⟩ := counters_exact p hreach
  exact ⟨p, hreach, hone, by omega⟩

end Superblocks

end Sniper.Cache
