import Sniper.Cache.Cache
set_option autoImplicit false
set_option linter.dupNamespace false

/-! A line is in one place of its cache. -/

namespace Sniper.Cache
open Sniper.Lib Dish

variable {n assoc : Nat} {g : CacheGeometry n} {set : Nat}

namespace SuperblockInfo

variable {s s' : SuperblockInfo} {b : BlockId} {t : Addr}

/-- The tag of a block, if the block is valid. -/
def tagAt (s : SuperblockInfo) (b : BlockId) : Option Addr :=
  ((s.blockInfos b).filter CacheBlockInfo.isValid).map CacheBlockInfo.tag

theorem tagAt_eq_some : s.tagAt b = some t ↔
    ∃ i, s.blockInfos b = some i ∧ i.isValid = true ∧ i.tag = t := by
  simp only [tagAt, Option.map_eq_some_iff, Option.filter_eq_some_iff, and_assoc]

theorem tagAt_isSome : (s.tagAt b).isSome = s.isValidAt b := by
  cases hi : s.blockInfos b with
  | none => simp [tagAt, isValidAt, hi]
  | some i => by_cases hv : i.isValid = true <;> simp [tagAt, isValidAt, hi, hv]

theorem tagAt_congr (h : s'.blockInfos b = s.blockInfos b) : s'.tagAt b = s.tagAt b := by
  rw [tagAt, tagAt, h]

theorem isValid_of_tagAt (h : s.tagAt b = some t) : s.isValid = true := by
  have hv : s.isValidAt b = true := by rw [← tagAt_isSome, h]; rfl
  exact List.any_eq_true.mpr ⟨b, List.mem_finRange b, hv⟩

/-- Some blocks of `s` are gone in `s'`, and nothing else happened. -/
structure Below (s' s : SuperblockInfo) : Prop where
  tags : ∀ b t, s'.tagAt b = some t → s.tagAt b = some t
  supertag : s'.isValid = true → s'.supertag = s.supertag

theorem Below.refl (s : SuperblockInfo) : Below s s := ⟨fun _ _ h => h, fun _ => rfl⟩

theorem Below.isValid (h : Below s' s) (hv : s'.isValid = true) : s.isValid = true := by
  obtain ⟨b, -, hb⟩ := List.any_eq_true.mp hv
  rw [← tagAt_isSome] at hb
  obtain ⟨t, ht⟩ := Option.isSome_iff_exists.mp hb
  exact isValid_of_tagAt (h.tags b t ht)

theorem Below.trans {u : SuperblockInfo} (h : Below u s') (h' : Below s' s) : Below u s :=
  ⟨fun b t ht => h'.tags b t (h.tags b t ht), fun hu =>
    (h.supertag hu).trans (h'.supertag (h.isValid hu))⟩

theorem dropSupertag_below (s : SuperblockInfo) : Below s.dropSupertag s := by
  unfold dropSupertag
  split
  · rename_i hv
    refine ⟨fun _ _ h => h, fun h => ?_⟩
    have h' : s.isValid = true := h
    simp [h'] at hv
  · exact .refl s

/-- One block is replaced by none, or by one whose tag is the same or invalid. -/
theorem update_below {x : Option CacheBlockInfo}
    (h : ∀ i, x = some i → i.isValid = true → s.tagAt b = some i.tag) :
    Below { s with blockInfos := Function.update s.blockInfos b x } s := by
  refine ⟨fun b' t ht => ?_, fun _ => rfl⟩
  by_cases hb : b' = b
  · subst hb
    obtain ⟨i, hi, hv, rfl⟩ := tagAt_eq_some.mp ht
    simp only [Function.update_self] at hi
    exact h i hi hv
  · rwa [tagAt_congr (s := s) (Function.update_of_ne hb _ _)] at ht

theorem evictBlockInfo_below (s : SuperblockInfo) (b : BlockId) :
    Below (s.evictBlockInfo b).2 s :=
  (dropSupertag_below _).trans (update_below fun i hi => by cases hi)

theorem evictBlockInfo_tagAt_self (s : SuperblockInfo) (b : BlockId) :
    (s.evictBlockInfo b).2.tagAt b = none := by
  have hnone : (s.evictBlockInfo b).2.blockInfos b = none := by
    simp only [evictBlockInfo, dropSupertag]
    split <;> exact Function.update_self ..
  rw [tagAt, hnone]
  rfl

theorem invalidateBlockInfo_below {tag : Addr} (h : s.invalidateBlockInfo tag b = .ok s') :
    Below s' s := by
  unfold invalidateBlockInfo at h
  split at h
  · cases h
  · simp only [except_bind_eq_ok, pure_eq_ok] at h
    obtain ⟨-, -, rfl⟩ := h
    refine (dropSupertag_below _).trans (update_below fun i hi hv => ?_)
    cases hi
    simp [CacheBlockInfo.invalidate, CacheBlockInfo.isValid] at hv

theorem modifyAt_below {f : CacheBlockInfo → CacheBlockInfo}
    (hf : ∀ i, (f i).isValid = true → i.isValid = true ∧ (f i).tag = i.tag) :
    Below (s.modifyAt b f) s := by
  refine update_below fun i hi hv => ?_
  obtain ⟨j, hj, rfl⟩ := Option.map_eq_some_iff.mp hi
  exact tagAt_eq_some.mpr ⟨j, hj, (hf j hv).1, (hf j hv).2.symm⟩

/-- Every valid block is where its address puts it: in this set, in the superblock of the way, at
its own block id. -/
def PlacedIn (g : CacheGeometry n) (set : Nat) (s : SuperblockInfo) : Prop :=
  ∀ b t, s.tagAt b = some t → tagOf n (tagToAddress n t) = t ∧ g.setOf (tagToAddress n t) = set ∧
    g.blockIdOf (tagToAddress n t) = b ∧ g.supertagOf (tagToAddress n t) = s.supertag

theorem PlacedIn.below (h : s.PlacedIn g set) (hb : Below s' s) : s'.PlacedIn g set := by
  intro b t ht
  rw [hb.supertag (isValid_of_tagAt ht)]
  exact h b t (hb.tags b t ht)

theorem insertBlockInfo_tagAt {supertag : Addr} {i : CacheBlockInfo} {b' : BlockId}
    (h : (s.insertBlockInfo supertag b i).tagAt b' = some t) :
    (b' = b ∧ t = i.tag) ∨ (b' ≠ b ∧ s.tagAt b' = some t) := by
  by_cases hb : b' = b
  · subst hb
    obtain ⟨j, hj, -, rfl⟩ := tagAt_eq_some.mp h
    simp only [insertBlockInfo, Function.update_self, Option.some.injEq] at hj
    exact .inl ⟨rfl, by rw [hj]⟩
  · refine .inr ⟨hb, ?_⟩
    rwa [tagAt_congr (s := s) (Function.update_of_ne hb _ _)] at h

/-- A block that may be inserted goes to the superblock it belongs to. -/
theorem PlacedIn.insert (h : s.PlacedIn g set) {addr : Addr} (hset : g.setOf addr = set)
    (hcan : s.canInsertBlockInfo (g.supertagOf addr) (g.blockIdOf addr) = true)
    {i : CacheBlockInfo} (hi : i.tag = tagOf n addr) :
    (s.insertBlockInfo (g.supertagOf addr) (g.blockIdOf addr) i).PlacedIn g set := by
  have hsuper : s.isValid = true → g.supertagOf addr = s.supertag := by
    intro hv
    simp only [canInsertBlockInfo, hv, Bool.not_true, Bool.false_eq_true, if_false,
      Bool.and_eq_true, beq_iff_eq] at hcan
    exact hcan.2
  have hnew : (s.insertBlockInfo (g.supertagOf addr) (g.blockIdOf addr) i).supertag =
      g.supertagOf addr := by
    simp only [insertBlockInfo]
    split
    · rfl
    · rename_i hv
      rw [Bool.not_eq_true, Bool.not_eq_false'] at hv
      exact (hsuper hv).symm
  intro b t ht
  rw [hnew]
  rcases insertBlockInfo_tagAt ht with ⟨rfl, rfl⟩ | ⟨-, hold⟩
  · rw [hi]
    simp [hset]
  · rw [hsuper (isValid_of_tagAt hold)]
    exact h b t hold

theorem compareTags_some (h : s.compareTags t = some b) : s.tagAt b = some t := by
  have hmatch := List.find?_some h
  simp only [Option.any_eq_true, Bool.and_eq_true, beq_iff_eq] at hmatch
  obtain ⟨i, hi, hv, ht⟩ := hmatch
  exact tagAt_eq_some.mpr ⟨i, hi, hv, ht.symm⟩

theorem compareTags_isSome : (s.compareTags t).isSome = true ↔ ∃ b, s.tagAt b = some t := by
  constructor
  · intro h
    obtain ⟨b, hb⟩ := Option.isSome_iff_exists.mp h
    exact ⟨b, compareTags_some hb⟩
  · rintro ⟨b, hb⟩
    obtain ⟨i, hi, hv, rfl⟩ := tagAt_eq_some.mp hb
    exact List.find?_isSome.mpr ⟨b, List.mem_finRange b, by simp [hi, hv]⟩

theorem fresh_placedIn : fresh.PlacedIn g set := by
  intro b t ht
  simp [tagAt, fresh] at ht

end SuperblockInfo

namespace CacheSet

variable {s s' : CacheSet n assoc} {t : Addr}

def Resident (s : CacheSet n assoc) (t : Addr) : Prop := ∃ w b, (s w).info.tagAt b = some t

structure Placed (g : CacheGeometry n) (set : Nat) (s : CacheSet n assoc) : Prop where
  ways : ∀ w, (s w).info.PlacedIn g set
  unique : ∀ w w' b b' t, (s w).info.tagAt b = some t → (s w').info.tagAt b' = some t → w = w'

theorem fresh_placed : (fresh : CacheSet n assoc).Placed g set :=
  ⟨fun _ => SuperblockInfo.fresh_placedIn, fun w w' b b' t ht => by
    simp [fresh, Way.fresh, SuperblockInfo.tagAt, SuperblockInfo.fresh] at ht⟩

/-- A set that only lost lines. -/
theorem Placed.below (h : s.Placed g set)
    (hb : ∀ w, SuperblockInfo.Below (s' w).info (s w).info) : s'.Placed g set :=
  ⟨fun w => (h.ways w).below (hb w), fun w w' b b' t ht ht' =>
    h.unique w w' b b' t ((hb w).tags b t ht) ((hb w').tags b' t ht')⟩

theorem update_below {w : Fin assoc} {v : Way n} (hv : SuperblockInfo.Below v.info (s w).info)
    (w' : Fin assoc) : SuperblockInfo.Below (Function.update s w v w').info (s w').info := by
  by_cases hw : w' = w
  · subst hw
    rw [Function.update_self]
    exact hv
  · rw [Function.update_of_ne hw]
    exact .refl _

/-- A line that is not in the set goes to a way it may be inserted into, perhaps after some of
that way's own lines have gone. -/
theorem Placed.place (h : s.Placed g set) {addr : Addr} (hset : g.setOf addr = set)
    (hnew : ¬s.Resident (tagOf n addr)) {w : Fin assoc} {info : SuperblockInfo} {v : Way n}
    (hbelow : SuperblockInfo.Below info (s w).info) {i : CacheBlockInfo} (hi : i.tag = tagOf n addr)
    (hcan : info.canInsertBlockInfo (g.supertagOf addr) (g.blockIdOf addr) = true)
    (hv : v.info = info.insertBlockInfo (g.supertagOf addr) (g.blockIdOf addr) i) :
    Placed g set (Function.update s w v) := by
  have hold : ∀ w' b t, (Function.update s w v w').info.tagAt b = some t →
      (w' = w ∧ t = tagOf n addr) ∨ (s w').info.tagAt b = some t := by
    intro w' b t ht
    by_cases hw : w' = w
    · subst hw
      rw [Function.update_self, hv] at ht
      rcases SuperblockInfo.insertBlockInfo_tagAt ht with ⟨-, rfl⟩ | ⟨-, hb⟩
      · exact .inl ⟨rfl, hi⟩
      · exact .inr (hbelow.tags _ _ hb)
    · rw [Function.update_of_ne hw] at ht
      exact .inr ht
  refine ⟨fun w' => ?_, fun w₁ w₂ b₁ b₂ t h₁ h₂ => ?_⟩
  · by_cases hw : w' = w
    · subst hw
      rw [Function.update_self, hv]
      exact ((h.ways w').below hbelow).insert hset hcan hi
    · rw [Function.update_of_ne hw]
      exact h.ways w'
  · rcases hold w₁ b₁ t h₁ with ⟨rfl, rfl⟩ | hold₁
    · rcases hold w₂ b₂ _ h₂ with ⟨rfl, -⟩ | hold₂
      · rfl
      · exact absurd ⟨w₂, b₂, hold₂⟩ hnew
    · rcases hold w₂ b₂ t h₂ with ⟨rfl, rfl⟩ | hold₂
      · exact absurd ⟨w₁, b₁, hold₁⟩ hnew
      · exact h.unique w₁ w₂ b₁ b₂ t hold₁ hold₂

theorem evictBlocks_below {v v' : Way n} {k k' : CompressionCntlr} {bs : List BlockId}
    {wbs : List (Writeback n)} (h : evictBlocks v k bs = .ok (v', wbs, k')) :
    SuperblockInfo.Below v'.info v.info := by
  induction bs generalizing v k wbs with
  | nil =>
    cases h
    exact .refl _
  | cons b bs ih =>
    rw [evictBlocks] at h
    split at h
    · have hevict := v.info.evictBlockInfo_below b
      split at h
      · cases h
      · rename_i hev
        rw [hev] at hevict
        simp only [except_bind_eq_ok, pure_eq_ok, Prod.mk.injEq] at h
        obtain ⟨⟨line, data, k₁⟩, -, ⟨u, wbs', k₂⟩, hrest, rfl, -, rfl⟩ := h
        refine (ih hrest).trans ?_
        exact hevict
    · exact ih h

theorem placeLine_info {o : Order} {v v' : Way n} {supertag : Addr} {b : BlockId}
    {i : CacheBlockInfo} {ins : Option Ptr} {k k' : CompressionCntlr}
    (h : placeLine o v supertag b i ins k = .ok (v', k')) :
    v'.info = v.info.insertBlockInfo supertag b i := by
  simp only [placeLine, except_bind_eq_ok, pure_eq_ok, Prod.mk.injEq] at h
  obtain ⟨-, -, rfl, -⟩ := h
  rfl

theorem insertLine_placed {o : Order} {i : CacheBlockInfo} {ins : Option Ptr}
    {repl : Fin (assoc + 1)} {k k' : CompressionCntlr} {wbs : List (Writeback n)} (hs : s.Placed g set)
    (hset : g.setOf (tagToAddress n i.tag) = set) (htag : tagOf n (tagToAddress n i.tag) = i.tag)
    (hnew : ¬s.Resident i.tag) (h : insertLine g.linear o s i ins repl k = .ok (s', wbs, k')) :
    s'.Placed g set := by
  rw [← htag] at hnew
  cases insertLine_cases h with
  | merged hmerge hplace =>
    exact hs.place hset hnew (.refl _) htag.symm (mergeWay_some hmerge).1 (placeLine_info hplace)
  | replaced _ _ hev hempty hplace =>
    refine hs.place hset hnew (evictBlocks_below hev) htag.symm ?_ (placeLine_info hplace)
    simp [SuperblockInfo.canInsertBlockInfo, hempty]
  | bypassed => exact hs

/-- The lookup of an address in its own set. -/
theorem Placed.find {addr : Addr} (h : s.Placed g (g.setOf addr)) :
    (∃ w, s.find (tagOf n addr) (g.blockIdOf addr) = .ok (some w) ∧
      (s w).info.tagAt (g.blockIdOf addr) = some (tagOf n addr)) ∨
    (s.find (tagOf n addr) (g.blockIdOf addr) = .ok none ∧ ¬s.Resident (tagOf n addr)) := by
  unfold CacheSet.find
  split
  · rename_i hnone
    refine .inr ⟨rfl, ?_⟩
    rintro ⟨w, b, hb⟩
    have hmiss := List.find?_eq_none.mp hnone w (List.mem_finRange w)
    exact hmiss (SuperblockInfo.compareTags_isSome.mpr ⟨b, hb⟩)
  · rename_i w hw
    have hfound := List.find?_some hw
    obtain ⟨b, hb⟩ := Option.isSome_iff_exists.mp hfound
    have htag := SuperblockInfo.compareTags_some hb
    -- the tag is where its address says, so it is found where it is expected
    have hplace : g.blockIdOf addr = b := by
      have := (h.ways w b _ htag).2.2.1
      rwa [g.blockIdOf_line] at this
    refine .inl ⟨w, ?_, by rw [hplace]; exact htag⟩
    simp [hb, hplace, check, bind, Except.bind, pure, Except.pure]

theorem writeLine_placed {o : Order} {addr : Addr} {a : Slice n} {wr : Option Ptr}
    {isWriteback : Bool} {repl : Fin (assoc + 1)} {k k' : CompressionCntlr}
    {wbs : List (Writeback n)} (hs : s.Placed g (g.setOf addr))
    (h : writeLine g.linear o s (tagOf n addr) (g.blockIdOf addr) a wr isWriteback repl k =
      .ok (s', wbs, k')) : s'.Placed g (g.setOf addr) := by
  obtain ⟨w, i, -, hi, hvalid, htag, hcase⟩ := writeLine_cases h
  have hat : (s w).info.tagAt (g.blockIdOf addr) = some i.tag :=
    SuperblockInfo.tagAt_eq_some.mpr ⟨i, hi, hvalid, rfl⟩
  cases hcase with
  | inPlace _ _ => exact hs.below (update_below (.refl _))
  | reinserted _ _ hins =>
    have hbelow := (s w).info.evictBlockInfo_below (g.blockIdOf addr)
    refine insertLine_placed (hs.below (update_below hbelow)) ?_ ?_ ?_ hins
    · rw [htag, g.setOf_line]
    · rw [htag, tagOf_tagToAddress]
    · rintro ⟨w', b', hres⟩
      -- the line was in one way only, and it has just left that way
      have hw : w' = w := hs.unique w' w b' _ _ ((update_below hbelow w').tags _ _ hres) hat
      subst hw
      have hb : b' = g.blockIdOf addr := by
        have hb := (hs.ways w' b' _ ((update_below hbelow w').tags _ _ hres)).2.2.1
        have hb' := (hs.ways w' _ _ hat).2.2.1
        rw [← hb, hb']
      subst hb
      rw [Function.update_self, SuperblockInfo.evictBlockInfo_tagAt_self] at hres
      cases hres

theorem invalidate_placed {tag : Addr} {b : BlockId} {k k' : CompressionCntlr}
    (hs : s.Placed g set) (h : s.invalidate tag b k = .ok (s', k')) : s'.Placed g set := by
  rcases invalidate_cases h with ⟨-, rfl, -⟩ | ⟨w, info, -, hinv, rfl, -⟩
  · exact hs
  · exact hs.below (update_below (SuperblockInfo.invalidateBlockInfo_below hinv))

end CacheSet

namespace Cache

variable {c c' : Cache n assoc}

/-- A valid block with this tag at this position. -/
def HoldsAt (c : Cache n assoc) (set : Nat) (w : Fin assoc) (b : BlockId) (t : Addr) : Prop :=
  (c.sets set w).info.tagAt b = some t

def Resident (c : Cache n assoc) (t : Addr) : Prop := ∃ set w b, c.HoldsAt set w b t

def Placed (g : CacheGeometry n) (c : Cache n assoc) : Prop := ∀ set, (c.sets set).Placed g set

theorem Placed.setSet (h : c.Placed g) {s : CacheSet n assoc} (hs : s.Placed g set)
    (k : CompressionCntlr) : (c.setSet set s k).Placed g := by
  intro set'
  by_cases hset : set' = set
  · subst hset
    simpa [Cache.setSet] using hs
  · simpa [Cache.setSet, hset] using h set'

/-- Only the set of an address can hold its line. -/
theorem Placed.resident_iff (h : c.Placed g) (addr : Addr) :
    c.Resident (tagOf n addr) ↔ (c.sets (g.setOf addr)).Resident (tagOf n addr) := by
  constructor
  · rintro ⟨set, w, b, hb⟩
    have hset := ((h set).ways w b _ hb).2.1
    rw [g.setOf_line] at hset
    subst hset
    exact ⟨w, b, hb⟩
  · rintro ⟨w, b, hb⟩
    exact ⟨_, w, b, hb⟩

theorem Placed.find (h : c.Placed g) (addr : Addr) :
    (∃ w, c.find g addr = .ok (some w) ∧
      c.HoldsAt (g.setOf addr) w (g.blockIdOf addr) (tagOf n addr)) ∨
    (c.find g addr = .ok none ∧ ¬c.Resident (tagOf n addr)) := by
  rw [h.resident_iff]
  exact CacheSet.Placed.find (h (g.setOf addr))

theorem Placed.peek (h : c.Placed g) (addr : Addr) :
    (∃ i, c.peekSingleLine g addr = .ok (some i) ∧ i.isValid = true ∧ i.tag = tagOf n addr ∧
      c.Resident (tagOf n addr)) ∨
    (c.peekSingleLine g addr = .ok none ∧ ¬c.Resident (tagOf n addr)) := by
  rcases h.find addr with ⟨w, hw, hat⟩ | ⟨hnone, hres⟩
  · obtain ⟨i, hi, hv, ht⟩ := SuperblockInfo.tagAt_eq_some.mp hat
    refine .inl ⟨i, ?_, hv, ht, _, w, _, hat⟩
    simp [peekSingleLine, hw, infoAt, hi, bind, Except.bind, pure, Except.pure]
  · refine .inr ⟨?_, hres⟩
    simp [peekSingleLine, hnone, bind, Except.bind, pure, Except.pure]

theorem Placed.absent (h : c.Placed g) {addr : Addr} (hpeek : c.peekSingleLine g addr = .ok none) :
    ¬c.Resident (tagOf n addr) := by
  rcases h.peek addr with ⟨i, hi, -⟩ | ⟨-, hres⟩
  · rw [hpeek] at hi
    cases hi
  · exact hres

theorem insertSingleLine_placed {o : Order} {addr : Addr} {ins : Option Ptr} {real : Ptr}
    {isFill hasCntlr : Bool} {repl : Fin (assoc + 1)} {wbs : List (Writeback n)} (hc : c.Placed g)
    (hpeek : c.peekSingleLine g addr = .ok none)
    (h : c.insertSingleLine g o addr ins real isFill hasCntlr repl = .ok (c', wbs)) :
    c'.Placed g := by
  simp only [insertSingleLine, except_bind_eq_ok, pure_eq_ok, Prod.mk.injEq] at h
  obtain ⟨data, -, ⟨s, wbs', k⟩, hins, rfl, -⟩ := h
  have habs := hc.absent hpeek
  rw [hc.resident_iff] at habs
  refine hc.setSet (CacheSet.insertLine_placed (hc _) ?_ ?_ habs hins) k
  · exact g.setOf_line addr
  · exact tagOf_tagToAddress n addr

theorem accessSingleLine_placed {o : Order} {addr : Addr} {access : Access n} {bytes : Nat}
    {real : Ptr} {repl : Fin (assoc + 1)} {out : Accessed n} (hc : c.Placed g)
    (h : c.accessSingleLine g o addr access bytes real repl = .ok (out, c')) : c'.Placed g := by
  simp only [accessSingleLine, except_bind_eq_ok] at h
  obtain ⟨found, -, h⟩ := h
  cases found with
  | none => cases access <;> cases h <;> exact hc
  | some w =>
    simp only at h
    split at h
    · cases access with
      | load accData =>
        simp only [except_bind_eq_ok, pure_eq_ok, Prod.mk.injEq] at h
        obtain ⟨-, -, -, rfl⟩ := h
        exact hc
      | store accData isWriteback hasWritebacks hasCntlr =>
        simp only [except_bind_eq_ok, pure_eq_ok, Prod.mk.injEq] at h
        obtain ⟨-, -, -, -, ⟨s, wbs, k⟩, hwr, -, rfl⟩ := h
        exact hc.setSet (CacheSet.writeLine_placed (hc _) hwr) k
    · cases h

theorem modifyInfo_placed {addr : Addr} {f : CacheBlockInfo → CacheBlockInfo} (hc : c.Placed g)
    (h : c.modifyInfo g addr f = .ok c')
    (hf : ∀ i, (f i).isValid = true → i.isValid = true ∧ (f i).tag = i.tag) : c'.Placed g := by
  simp only [modifyInfo, except_bind_eq_ok] at h
  obtain ⟨found, -, h⟩ := h
  cases found with
  | none => cases h
  | some w =>
    cases h
    exact hc.setSet ((hc _).below
      (CacheSet.update_below (SuperblockInfo.modifyAt_below hf))) c.cntlr

theorem invalidateSingleLine_placed {addr : Addr} (hc : c.Placed g)
    (h : c.invalidateSingleLine g addr = .ok c') : c'.Placed g := by
  simp only [invalidateSingleLine, except_bind_eq_ok, pure_eq_ok] at h
  obtain ⟨⟨s, k⟩, hinv, rfl⟩ := h
  exact hc.setSet (CacheSet.invalidate_placed (hc _) hinv) k

theorem perform_placed {call : CacheCall n assoc} {wbs : List (Writeback n)} (hc : c.Placed g)
    (hok : InsertsAbsent g c call) (h : c.perform g call = .ok (wbs, c')) : c'.Placed g := by
  obtain ⟨op, repl, o⟩ := call
  cases op with
  | insertSingleLine addr ins real isFill hasCntlr =>
    simp only [perform, except_bind_eq_ok, pure_eq_ok, Prod.mk.injEq] at h
    obtain ⟨⟨u, wbs'⟩, hins, -, rfl⟩ := h
    exact insertSingleLine_placed hc hok hins
  | accessSingleLine addr access bytes real =>
    simp only [perform, except_bind_eq_ok, pure_eq_ok, Prod.mk.injEq] at h
    obtain ⟨⟨out, u⟩, hacc, -, rfl⟩ := h
    exact accessSingleLine_placed hc hacc
  | invalidateSingleLine addr =>
    simp only [perform, except_bind_eq_ok, pure_eq_ok, Prod.mk.injEq] at h
    obtain ⟨u, hinv, -, rfl⟩ := h
    exact invalidateSingleLine_placed hc hinv
  | setCState addr cstate =>
    simp only [perform, except_bind_eq_ok, pure_eq_ok, Prod.mk.injEq] at h
    obtain ⟨u, hset, -, rfl⟩ := h
    exact modifyInfo_placed hc hset fun i hv => ⟨hv, rfl⟩
  | invalidateInfo addr =>
    simp only [perform, except_bind_eq_ok, pure_eq_ok, Prod.mk.injEq] at h
    obtain ⟨u, hinv, -, rfl⟩ := h
    exact modifyInfo_placed hc hinv fun i hv => by
      simp [CacheBlockInfo.invalidate, CacheBlockInfo.isValid] at hv

theorem run_placed {tr : List (CacheCall n assoc × List (Writeback n))}
    (h : Run (machine n assoc g) (InsertsAbsent g) tr c) : c.Placed g := by
  refine h.invariant (I := Placed g) ?_ ?_
  · rintro c ⟨_, _, _, rfl⟩ set
    exact CacheSet.fresh_placed
  · intro c call wbs c' hc hok hstep
    exact perform_placed hc hok hstep

/-- In a cache whose lines are inserted only when absent: a tag is valid at one position at most,
which is the set and the block id of its address; the valid blocks of a way are of the way's
superblock; a block of a superblock is in one way of its set; and a lookup finds a line exactly
when it is resident, without ever finding it in the wrong place. -/
theorem lines_in_place (c : Cache n assoc) (tr : List (CacheCall n assoc × List (Writeback n)))
    (h : Run (machine n assoc g) (InsertsAbsent g) tr c) :
    (∀ set w b set' w' b' t, c.HoldsAt set w b t → c.HoldsAt set' w' b' t →
      set = set' ∧ w = w' ∧ b = b') ∧
    (∀ set w b t, c.HoldsAt set w b t → set = g.setOf (tagToAddress n t) ∧
      b = g.blockIdOf (tagToAddress n t) ∧
      (c.sets set w).info.supertag = g.supertagOf (tagToAddress n t)) ∧
    (∀ set w w' b t t', c.HoldsAt set w b t → c.HoldsAt set w' b t' →
      (c.sets set w).info.supertag = (c.sets set w').info.supertag →
      g.homeOf (tagToAddress n t) = g.homeOf (tagToAddress n t') → w = w' ∧ t = t') ∧
    (∀ addr, ((∃ i, c.peekSingleLine g addr = .ok (some i) ∧ i.isValid = true ∧
        i.tag = tagOf n addr) ↔ c.Resident (tagOf n addr)) ∧
      (c.peekSingleLine g addr = .ok none ↔ ¬c.Resident (tagOf n addr)) ∧
      ∀ f, c.find g addr ≠ .error f) := by
  have hc := run_placed h
  refine ⟨?_, ?_, ?_, ?_⟩
  · intro set w b set' w' b' t ht ht'
    obtain ⟨-, hset, hb, -⟩ := (hc set).ways w b t ht
    obtain ⟨-, hset', hb', -⟩ := (hc set').ways w' b' t ht'
    have hsets : set = set' := hset.symm.trans hset'
    subst hsets
    exact ⟨rfl, (hc set).unique w w' b b' t ht ht', hb.symm.trans hb'⟩
  · intro set w b t ht
    obtain ⟨-, hset, hb, hsuper⟩ := (hc set).ways w b t ht
    exact ⟨hset.symm, hb.symm, hsuper.symm⟩
  · intro set w w' b t t' ht ht' hsuper hhome
    obtain ⟨htag, -, hb, hs⟩ := (hc set).ways w b t ht
    obtain ⟨htag', -, hb', hs'⟩ := (hc set).ways w' b t' ht'
    have hsame : t = t' := by
      rw [← htag, ← htag']
      exact g.tagOf_eq_of_block hhome (by rw [hs, hs', hsuper]) (by rw [hb, hb'])
    subst hsame
    exact ⟨(hc set).unique w w' b b t ht ht', rfl⟩
  · intro addr
    refine ⟨?_, ?_, ?_⟩
    · rcases hc.peek addr with ⟨i, hi, hv, ht, hres⟩ | ⟨hnone, hres⟩
      · exact iff_of_true ⟨i, hi, hv, ht⟩ hres
      · refine iff_of_false ?_ hres
        rintro ⟨i, hi, -⟩
        rw [hnone] at hi
        cases hi
    · rcases hc.peek addr with ⟨i, hi, -, -, hres⟩ | ⟨hnone, hres⟩
      · refine iff_of_false ?_ (not_not.mpr hres)
        rw [hi]
        simp
      · exact iff_of_true hnone hres
    · intro f
      rcases hc.find addr with ⟨w, hw, -⟩ | ⟨hnone, -⟩
      · rw [hw]
        simp
      · rw [hnone]
        simp

/-- The insertion of a line whose data nobody has, into the first way if a victim is asked for. -/
def insertEmptyLine (addr : Addr) (hasCntlr : Bool) : CacheCall 64 assoc :=
  ⟨.insertSingleLine addr none (fun _ => 0) false hasCntlr, ⟨0, Nat.succ_pos assoc⟩, .greatest⟩

/-- Lines 0, 1 and 4 of a compressible cache: two of one superblock and one of the next. -/
def threeLines : List (CacheCall 64 2) :=
  [insertEmptyLine 0 true, insertEmptyLine 64 true, insertEmptyLine 256 true]

def absentCall (g : CacheGeometry n) (c : Cache n assoc) (call : CacheCall n assoc) : Bool :=
  match call.op with
  | .insertSingleLine addr .. => Outcome.test (c.peekSingleLine g addr) Option.isNone
  | _ => true

theorem insertsAbsent_of_absentCall (c : Cache n assoc) (call : CacheCall n assoc)
    (h : absentCall g c call = true) : InsertsAbsent g c call := by
  obtain ⟨op, repl, o⟩ := call
  cases op with
  | insertSingleLine addr ins real isFill hasCntlr =>
    obtain ⟨r, hr, hnone⟩ := Outcome.test_eq_true h
    rw [Option.isNone_iff_eq_none] at hnone
    subst hnone
    exact hr
  | _ => trivial

theorem lines_in_place_threeLines : ∃ c : Cache 64 2,
    (∃ i, c.peekSingleLine ⟨4, none⟩ 64 = .ok (some i) ∧ i.isValid = true ∧ i.tag = 1) ∧
      c.Resident 1 ∧ ¬c.Resident 2 := by
  have heval : (performEach (perform ⟨4, none⟩) (absentCall ⟨4, none⟩)
      (fresh true false false : Cache 64 2) threeLines).any (fun c =>
        Outcome.test (c.peekSingleLine ⟨4, none⟩ 64) Option.isSome &&
        Outcome.test (c.peekSingleLine ⟨4, none⟩ 128) Option.isNone) = true := by
    rfl
  obtain ⟨c, hc, heval⟩ := Option.any_eq_true _ _ |>.mp heval
  rw [Bool.and_eq_true] at heval
  obtain ⟨r, hr, hsome⟩ := Outcome.test_eq_true heval.1
  obtain ⟨r', hr', hnone⟩ := Outcome.test_eq_true heval.2
  obtain ⟨tr, hrun⟩ := Run.performEach (M := machine 64 2 ⟨4, none⟩) (fun _ _ _ _ h => h)
    insertsAbsent_of_absentCall (.start ⟨true, false, false, rfl⟩) hc
  obtain ⟨-, -, -, hpeek⟩ := lines_in_place c tr hrun
  rw [Option.isNone_iff_eq_none] at hnone
  subst hnone
  have habsent := (hpeek 128).2.1.mp hr'
  have hres : c.Resident (tagOf 64 64) := by
    by_contra hres
    rw [(hpeek 64).2.1.mpr hres] at hr
    cases hr
    cases hsome
  exact ⟨c, (hpeek 64).1.mpr hres, hres, habsent⟩

end Cache

end Sniper.Cache
