import Sniper.Tlb.PageSet
set_option autoImplicit false

/-! TLBs: caches of page numbers, each perhaps with a next level. -/

namespace Sniper.Tlb
open Sniper.Lib Sniper.Cache

/-- `SIM_PAGE_SHIFT` -/
def pageShift : Nat := 12

def pageOf (address : Addr) : Addr := address >>> pageShift

variable {assoc : Nat}

/-- The cache of a TLB: lines of one byte, not compressed, under LRU replacement. -/
structure PageCache (assoc : Nat) where
  sets : Nat → PolicySet (CacheSetLRU 1 assoc)
  cntlr : CompressionCntlr

namespace PageCache

def fresh : PageCache assoc := ⟨fun _ => .fresh _, ⟨false, false, false, 0, 0⟩⟩

def setSet (c : PageCache assoc) (set : Nat) (s : PolicySet (CacheSetLRU 1 assoc))
    (k : CompressionCntlr) : PageCache assoc :=
  ⟨Function.update c.sets set s, k⟩

variable (g : CacheGeometry 1) (o : Order)

/-- `accessSingleLine` as a load of no bytes into no buffer; whether it found the line. -/
def accessSingleLine (c : PageCache assoc) (addr : Addr) : Outcome (Bool × PageCache assoc) := do
  let s := c.sets (g.setOf addr)
  let found ← s.ways.find (tagOf 1 addr) (g.blockIdOf addr)
  match found with
  | none => return (false, c)
  | some w =>
    let (_, s) ← s.readLine w (g.blockIdOf addr) ⟨0, 0, by omega⟩ true none
    return (true, c.setSet (g.setOf addr) s c.cntlr)

/-- `insertSingleLine` without data and without a controller. -/
def insertSingleLine (c : PageCache assoc) (addr : Addr) :
    Outcome (List (Writeback 1) × PageCache assoc) := do
  let (_, s, wbs, k) ← (c.sets (g.setOf addr)).insertLine g.linear o (.new (tagOf 1 addr)) none true
    () c.cntlr
  return (wbs, c.setSet (g.setOf addr) s k)

end PageCache

/-- What a TLB may do with its next level, whose state is a `σ`: look a page up without allocating it,
and allocate it, which is reported by a `ρ`. -/
structure NextLevel (σ ρ : Type) where
  lookup : σ → Addr → Outcome (Bool × σ)
  allocate : σ → Addr → Outcome (ρ × σ)

/-- Without a next level nothing is found and nothing is kept. -/
def noNext : NextLevel Unit Unit := ⟨fun _ _ => .ok (false, ()), fun _ _ => .ok ((), ())⟩

/-- What an allocation did: the number it stored, the addresses it evicted, and what the next level did
with them. -/
structure Allocation (ρ : Type) where
  number : Addr
  evicted : List Addr
  below : List ρ

/-- What a lookup found, in the TLB itself or below, and what it allocated. -/
structure Lookup (ρ : Type) where
  here : Bool
  hit : Bool
  allocation : Option (Allocation ρ)

section Level

variable {σ ρ : Type} (g : CacheGeometry 1) (o : Order) (next : NextLevel σ ρ)

/-- The loop over the evicted lines. -/
def allocateAll : σ → List Addr → Outcome (List ρ × σ)
  | nxt, [] => .ok ([], nxt)
  | nxt, evictAddr :: rest => do
    let (r, nxt) ← next.allocate nxt evictAddr
    let (rs, nxt) ← allocateAll nxt rest
    return (r :: rs, nxt)

def allocate (t : PageCache assoc × σ) (address : Addr) :
    Outcome (Allocation ρ × (PageCache assoc × σ)) := do
  let vpn := pageOf address
  let (writebacks, c) ← t.1.insertSingleLine g o vpn
  let evicted := writebacks.map Writeback.addr
  let (below, nxt) ← allocateAll next t.2 evicted
  return (⟨vpn, evicted, below⟩, (c, nxt))

def lookup (t : PageCache assoc × σ) (address : Addr) (allocateOnMiss : Bool) :
    Outcome (Lookup ρ × (PageCache assoc × σ)) := do
  let vpn := pageOf address
  let (here, c) ← t.1.accessSingleLine g vpn
  if here then return (⟨true, true, none⟩, (c, t.2))
  else
    let (hit, nxt) ← next.lookup t.2 address
    if allocateOnMiss then
      let (a, t) ← allocate g o next (c, nxt) address
      return (⟨false, hit, some a⟩, t)
    else return (⟨false, hit, none⟩, (c, nxt))

/-- A TLB as the next level of another. -/
def asNext : NextLevel (PageCache assoc × σ) (Allocation ρ) where
  lookup t address := do
    let (l, t) ← lookup g o next t address false
    return (l.hit, t)
  allocate := allocate g o next

end Level

/-! ### One level -/

@[simp] theorem tagOf_one (addr : Addr) : tagOf 1 addr = addr := by
  have hlog : Nat.log2 1 = 0 := by decide
  apply BitVec.eq_of_toNat_eq
  rw [toNat_tagOf, hlog, Nat.pow_zero, Nat.div_one]

@[simp] theorem tagToAddress_one (tag : Addr) : tagToAddress 1 tag = tag := by
  have hline := tagOf_tagToAddress 1 tag
  simpa using hline

/-- A page number is never the unused tag. -/
theorem pageOf_valid (address : Addr) : (CacheBlockInfo.new (tagOf 1 (pageOf address))).isValid = true := by
  have hlt : (pageOf address).toNat < 2 ^ 52 := by
    rw [pageOf, BitVec.toNat_ushiftRight, Nat.shiftRight_eq_div_pow, pageShift]
    have := address.isLt
    omega
  rw [tagOf_one]
  simp only [CacheBlockInfo.isValid, CacheBlockInfo.new, bne_iff_ne, ne_eq]
  intro heq
  rw [heq] at hlt
  exact absurd hlt (by decide)

namespace PageCache

variable {g : CacheGeometry 1} {o : Order} {c c' : PageCache assoc}

/-- The pages the cache gives up for another one. -/
def victims (g : CacheGeometry 1) (c : PageCache assoc) (page : Addr) : List Addr :=
  (c.sets (g.setOf page)).victims g.linear (.new (tagOf 1 page)) c.cntlr

/-- A page is in the cache. -/
def Has (g : CacheGeometry 1) (c : PageCache assoc) (page : Addr) : Prop :=
  (c.sets (g.setOf page)).ways.Resident page

structure Sound (g : CacheGeometry 1) (c : PageCache assoc) : Prop where
  sets : ∀ set, PageSet g set (c.sets set)
  raw : c.cntlr.compressible = false

theorem fresh_sound : (fresh : PageCache assoc).Sound g := ⟨fun _ => PageSet.fresh, rfl⟩

/-- A set that is replaced by a sound one. -/
theorem Sound.setSet (h : c.Sound g) {set : Nat} {s : PolicySet (CacheSetLRU 1 assoc)}
    {k : CompressionCntlr} (hs : PageSet g set s) (hk : k.compressible = false) :
    (c.setSet set s k).Sound g := by
  refine ⟨fun set' => ?_, hk⟩
  by_cases hset : set' = set
  · subst hset
    simpa [PageCache.setSet] using hs
  · simpa [PageCache.setSet, hset] using h.sets set'

/-- An access finds exactly what is there, and moves no line. -/
theorem Sound.access (h : c.Sound g) (page : Addr) :
    ∃ here c', c.accessSingleLine g page = .ok (here, c') ∧ (here = true ↔ c.Has g page) ∧
      (here = false → c' = c) ∧ c'.Sound g ∧ ∀ p, c'.Has g p ↔ c.Has g p := by
  have hset := h.sets (g.setOf page)
  rcases CacheSet.find_placedIn hset.placed with ⟨w, hfind, hres⟩ | ⟨hfind, hres⟩
  · rw [tagOf_one] at hres hfind
    refine ⟨true, c.setSet (g.setOf page) ⟨(c.sets (g.setOf page)).ways,
      moveToBack (c.sets (g.setOf page)).repl w⟩ c.cntlr, ?_, iff_of_true rfl hres, fun hno => ?_,
      ?_, fun p => ?_⟩
    · simp [accessSingleLine, hfind, PolicySet.readLine, CacheSet.readLine, PolicySet.updateIf,
        CacheSetLRU.updateReplacementWay, bind, Except.bind, pure, Except.pure]
    · cases hno
    · exact h.setSet ⟨hset.agrees, hset.placed, hset.settled, moveToBack_ways hset.ways w⟩ h.raw
    · by_cases hp : g.setOf p = g.setOf page
      · simp [Has, PageCache.setSet, hp]
      · simp [Has, PageCache.setSet, hp]
  · rw [tagOf_one] at hres hfind
    refine ⟨false, c, ?_, iff_of_false Bool.false_ne_true hres, fun _ => rfl, h,
      fun _ => Iff.rfl⟩
    simp [accessSingleLine, hfind, bind, Except.bind, pure, Except.pure]

/-- An insertion completes: the page is there, and another one stays or is handed over. -/
theorem Sound.insert (h : c.Sound g) (hassoc : 0 < assoc) (o : Order) {page : Addr}
    (hvalid : (CacheBlockInfo.new (tagOf 1 page)).isValid = true) :
    ∃ wbs c', c.insertSingleLine g o page = .ok (wbs, c') ∧ c'.Sound g ∧ c'.Has g page ∧
      (∀ p, c.Has g p → c'.Has g p ∨ p ∈ wbs.map Writeback.addr) ∧
      (∀ p, c'.Has g p → p = page ∨ c.Has g p) ∧
      ∀ p ∈ wbs.map Writeback.addr, p ∈ c.victims g page := by
  obtain ⟨way, s', wbs, k', hins, hpages, hk, hinserted, haddr⟩ :=
    (h.sets (g.setOf page)).insertLine_isOk hassoc h.raw rfl hvalid o
  have htag : (CacheBlockInfo.new (tagOf 1 page)).tag = page := tagOf_one page
  refine ⟨wbs, c.setSet (g.setOf page) s' k', ?_, h.setSet hpages hk, ?_, fun p hp => ?_,
    fun p hp => ?_, fun p hp => ?_⟩
  · rw [tagOf_one] at hins
    simp [insertSingleLine, hins, bind, Except.bind, pure, Except.pure]
  · have hthere := hinserted.there
    rw [htag] at hthere
    simpa [Has, PageCache.setSet] using hthere
  · by_cases hset : g.setOf p = g.setOf page
    · rw [Has, hset] at hp
      rcases hinserted.kept p hp with hkept | ⟨wb, hwb, rfl⟩
      · exact .inl (by simpa [Has, PageCache.setSet, hset] using hkept)
      · refine .inr (List.mem_map.mpr ⟨wb, hwb, ?_⟩)
        rw [(haddr wb hwb).1, tagToAddress_one]
    · exact .inl (by simpa [Has, PageCache.setSet, hset] using hp)
  · by_cases hset : g.setOf p = g.setOf page
    · simp only [Has, PageCache.setSet, hset, Function.update_self] at hp
      rcases hinserted.known p hp with rfl | hold
      · exact .inl htag
      · exact .inr (by simpa [Has, hset] using hold)
    · exact .inr (by simpa [Has, PageCache.setSet, hset] using hp)
  · obtain ⟨wb, hwb, rfl⟩ := List.mem_map.mp hp
    rw [(haddr wb hwb).1, tagToAddress_one]
    exact (haddr wb hwb).2

end PageCache

end Sniper.Tlb
