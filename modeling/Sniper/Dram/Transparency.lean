import Sniper.Cache.WithoutData
import Sniper.Dram.DramCache
set_option autoImplicit false

/-! When the DRAM cache can be looked through. -/

namespace Sniper.Cache
open Sniper.Lib Dish

variable {n assoc : Nat} {g : CacheGeometry n}

namespace Cache

variable {c : Cache n assoc}

/-- Without compression and without a controller an insertion completes: the line is there, blank,
and the lines it displaced are handed over. -/
theorem insertSingleLine_null {o : Order} {addr : Addr} {ins : Option Ptr} {real : Ptr}
    {isFill : Bool} {repl : Fin assoc} (hc : c.Sound g) (hk : c.cntlr.compressible = false)
    (hvalid : (CacheBlockInfo.new (tagOf n addr)).isValid = true)
    (hpeek : c.peekSingleLine g addr = .ok none) :
    ∃ c' wbs, c.insertSingleLine g o addr ins real isFill false repl.castSucc = .ok (c', wbs) ∧
      c'.Sound g ∧ c'.cntlr.compressible = false ∧ c'.Holds (.new (tagOf n addr), .zero) ∧
      Splits (fun e => c.Holds e ∨ e = (.new (tagOf n addr), .zero)) c'.Holds wbs := by
  obtain ⟨s, wbs, k, hins, hk', w, b, hnew⟩ : ∃ s wbs k, (c.sets (g.setOf addr)).insertLine g.linear
      o (.new (tagOf n addr)) none repl.castSucc c.cntlr = .ok (s, wbs, k) ∧
        k.compressible = false ∧ ∃ w b, (s w).info.blockInfos b = some (.new (tagOf n addr)) :=
    CacheSet.insertLine_null (hc.agrees _) hk repl.isLt
  have hstep : c.insertSingleLine g o addr ins real isFill false repl.castSucc =
      .ok (c.setSet (g.setOf addr) s k, wbs) := by
    simp [insertSingleLine, insertData, hins, bind, Except.bind, pure, Except.pure]
  obtain ⟨hsound, data, hdata, hsplit⟩ := insertSingleLine_splits hc hvalid hpeek hstep
  cases hdata
  refine ⟨_, wbs, hstep, hsound, hk', ?_, hsplit⟩
  have hheld : (c.setSet (g.setOf addr) s k).Holds (.new (tagOf n addr), (s w).data.data b) := by
    rw [Cache.Sound.holds_setSet]
    exact .inl ⟨w, b, hnew, hvalid, rfl⟩
  rcases hsplit.kept _ hheld with hold | hsame
  · have habs := (hc.peek_none_iff addr).mp hpeek _ hold
    exact absurd rfl habs
  · rw [hsame] at hheld
    exact hheld

/-- The same with the state the line is then given. -/
theorem insertInState_null (o : Order) {addr : Addr} (ins : Option Ptr) (real : Ptr)
    (isFill : Bool) (repl : Fin assoc) (hc : c.Sound g) (hk : c.cntlr.compressible = false)
    (hvalid : (CacheBlockInfo.new (tagOf n addr)).isValid = true)
    (hpeek : c.peekSingleLine g addr = .ok none) (cstate : CacheState) :
    ∃ c₁ wbs c', c.insertSingleLine g o addr ins real isFill false repl.castSucc = .ok (c₁, wbs) ∧
      c₁.setCState g addr cstate = .ok c' ∧ c'.Sound g ∧ c'.cntlr.compressible = false ∧
      c'.Holds ({ CacheBlockInfo.new (tagOf n addr) with cstate := cstate }, .zero) ∧
      (∀ wb ∈ wbs, c.Holds (wb.info, wb.data)) ∧
      Splits (fun e => c.Holds e ∨
        e = ({ CacheBlockInfo.new (tagOf n addr) with cstate := cstate }, .zero)) c'.Holds wbs := by
  obtain ⟨c₁, wbs, hins, hsound, hraw, hnew, hsplit⟩ :=
    @insertSingleLine_null n assoc g c o addr ins real isFill repl hc hk hvalid hpeek
  obtain ⟨c', hset, hsound', hcntlr, hholds⟩ := setCState_spec cstate hsound hnew rfl
  have habs := (hc.peek_none_iff addr).mp hpeek
  have hold : ∀ wb ∈ wbs, c.Holds (wb.info, wb.data) := by
    intro wb hwb
    rcases (hsplit.out wb hwb).1 with hin | hsame
    · exact hin
    · have htag : wb.info.tag = tagOf n addr := by rw [(Prod.mk.inj hsame).1]; rfl
      exact absurd htag.symm (hsplit.apart wb hwb _ hnew)
  refine ⟨c₁, wbs, c', hins, hset, hsound', hcntlr ▸ hraw, (hholds _).mpr (.inr rfl), hold, ?_⟩
  constructor
  · intro e he
    rcases (hholds e).mp he with ⟨hin, htag⟩ | hsame
    · rcases hsplit.kept e hin with hin | hsame
      · exact .inl hin
      · exact absurd (by rw [hsame]; rfl) htag
    · exact .inr hsame
  · intro wb hwb
    exact ⟨.inl (hold wb hwb), (hsplit.out wb hwb).2⟩
  · rintro e (he | he)
    · rcases hsplit.all e (.inl he) with hin | hout
      · exact .inl ((hholds e).mpr (.inl ⟨hin, habs e he⟩))
      · exact .inr hout
    · exact .inl ((hholds e).mpr (.inr he))
  · intro wb hwb e he
    rcases (hholds e).mp he with ⟨hin, -⟩ | rfl
    · exact hsplit.apart wb hwb e hin
    · exact hsplit.apart wb hwb (.new (tagOf n addr), .zero) hnew
  · exact hsplit.once

end Cache

end Sniper.Cache

namespace Sniper.Dram
open Sniper.Lib Cache Cache.Dish

variable {n assoc : Nat} {g : CacheGeometry n} {host : Addr → Ptr} {o : Order}
variable {d d' : DramCache n assoc} {mem mem' : Addr → Line n} {addr : Addr}

/-! ### Blank lines -/

/-- Some lines of the DRAM became blank, and the others stayed as they were. -/
structure DramCntlr.Blanked (m m' : DramCntlr n) : Prop where
  step : ∀ a, m'.dataMap a = some .zero ∨ m'.dataMap a = m.dataMap a

namespace DramCntlr

variable {m m' m'' : DramCntlr n}

theorem Blanked.refl (m : DramCntlr n) : Blanked m m := ⟨fun _ => .inr rfl⟩

theorem Blanked.trans (h : Blanked m m') (h' : Blanked m' m'') : Blanked m m'' := by
  refine ⟨fun a => ?_⟩
  rcases h'.step a with hz | hsame
  · exact .inl hz
  · rw [hsame]
    exact h.step a

theorem Blanked.isSome (h : Blanked m m') {a : Addr} (ha : (m.dataMap a).isSome = true) :
    (m'.dataMap a).isSome = true := by
  rcases h.step a with hz | hsame
  · rw [hz]
    rfl
  · rw [hsame, ha]

theorem Blanked.line (h : Blanked m m') (a : Addr) : m'.line a = .zero ∨ m'.line a = m.line a := by
  rcases h.step a with hz | hsame
  · exact .inl (by rw [DramCntlr.line, hz]; rfl)
  · exact .inr (by rw [DramCntlr.line, hsame, DramCntlr.line])

theorem Blanked.line_zero (h : Blanked m m') {a : Addr} (ha : m.line a = .zero) :
    m'.line a = .zero := by
  rcases h.line a with hz | hsame
  · exact hz
  · rw [hsame, ha]

theorem Blanked.stays (h : Blanked m m') {a : Addr} (ha : m.dataMap a = some .zero) :
    m'.dataMap a = some .zero := by
  rcases h.step a with hz | hsame
  · exact hz
  · rw [hsame, ha]

@[simp] theorem line_getDataFromDram (m : DramCntlr n) (addr a : Addr) :
    (m.getDataFromDram addr).2.line a = m.line a := by
  by_cases ha : a = addr
  · subst ha
    simp [getDataFromDram, line]
  · simp [getDataFromDram, line, ha]

theorem blanked_getDataFromDram (h : m.line addr = .zero) :
    Blanked m (m.getDataFromDram addr).2 := by
  refine ⟨fun a => ?_⟩
  by_cases ha : a = addr
  · subst ha
    exact .inl (by simp [getDataFromDram, h])
  · exact .inr (by simp [getDataFromDram, ha])

/-- Blank lines written back, each of which the DRAM has. -/
theorem putWritebacks_blank {wbs : List (Writeback n)}
    (h : ∀ wb ∈ wbs, wb.info.cstate = .modified →
      wb.data = .zero ∧ (m.dataMap wb.addr).isSome = true) :
    ∃ m', m.putWritebacks wbs = .ok m' ∧ Blanked m m' ∧
      (∀ wb ∈ wbs, wb.info.cstate = .modified → m'.dataMap wb.addr = some .zero) ∧
      ∀ a, (∀ wb ∈ wbs, wb.addr ≠ a) → m'.dataMap a = m.dataMap a := by
  induction wbs generalizing m with
  | nil =>
    refine ⟨m, rfl, .refl m, ?_, fun a _ => rfl⟩
    intro wb hwb
    cases hwb
  | cons wb wbs ih =>
    have hrest := fun wb' hwb' => h wb' (List.mem_cons_of_mem wb hwb')
    rw [putWritebacks]
    split
    · rename_i hmod
      obtain ⟨hdata, hsome⟩ := h wb (List.mem_cons_self ..) hmod
      have hput : m.putDataToDram wb.addr wb.data =
          .ok ⟨Function.update m.dataMap wb.addr (some .zero)⟩ := by
        simp [putDataToDram, hsome, hdata, check, bind, Except.bind, pure, Except.pure]
      have hblank : Blanked m ⟨Function.update m.dataMap wb.addr (some .zero)⟩ := by
        refine ⟨fun a => ?_⟩
        by_cases ha : a = wb.addr
        · subst ha
          exact .inl (Function.update_self ..)
        · exact .inr (Function.update_of_ne ha ..)
      obtain ⟨m', hm', hstep, hout, hkeep⟩ := ih fun wb' hwb' hmod' =>
        ⟨(hrest wb' hwb' hmod').1, hblank.isSome (hrest wb' hwb' hmod').2⟩
      refine ⟨m', ?_, hblank.trans hstep, ?_, ?_⟩
      · simpa [hput, bind, Except.bind] using hm'
      · intro wb' hwb' hmod'
        rcases List.mem_cons.mp hwb' with rfl | hwb'
        · exact hstep.stays (Function.update_self ..)
        · exact hout wb' hwb' hmod'
      · intro a ha
        rw [hkeep a fun wb' hwb' => ha wb' (List.mem_cons_of_mem wb hwb')]
        exact Function.update_of_ne (ha wb (List.mem_cons_self ..)).symm ..
    · rename_i hclean
      obtain ⟨m', hm', hstep, hout, hkeep⟩ := ih hrest
      refine ⟨m', hm', hstep, ?_, fun a ha => hkeep a fun wb' hwb' =>
        ha wb' (List.mem_cons_of_mem wb hwb')⟩
      intro wb' hwb' hmod'
      rcases List.mem_cons.mp hwb' with rfl | hwb'
      · exact absurd hmod' hclean
      · exact hout wb' hwb' hmod'

end DramCntlr

/-- Every line in the cache is blank, in the cache and in memory; a dirty one may be written back,
a clean one is blank in the DRAM too; the other lines are in the DRAM. -/
structure Mirrors (g : CacheGeometry n) (mem : Addr → Line n) (d : DramCache n assoc) : Prop where
  sound : d.cache.Sound g
  raw : d.cache.cntlr.compressible = false
  blank : ∀ e, d.cache.Holds e → e.2 = .zero ∧ mem (tagToAddress n e.1.tag) = .zero
  dirty : ∀ e, d.cache.Holds e → e.1.cstate = .modified →
    (d.dram.dataMap (tagToAddress n e.1.tag)).isSome = true
  clean : ∀ e, d.cache.Holds e → e.1.cstate ≠ .modified →
    d.dram.line (tagToAddress n e.1.tag) = .zero
  absent : ∀ a, LineAddr n a → d.cache.peekSingleLine g a = .ok none → mem a = d.dram.line a

/-- The dirty lines among those displaced are in the DRAM as memory has them. -/
def WrittenBack (mem : Addr → Line n) (d : DramCache n assoc) (wbs : List (Writeback n)) : Prop :=
  ∀ wb ∈ wbs, wb.info.cstate = .modified →
    wb.data = .zero ∧ mem wb.addr = .zero ∧ d.dram.dataMap wb.addr = some .zero

namespace Mirrors

theorem fresh (otf prune : Bool) (m : DramCntlr n) :
    Mirrors g m.line (⟨.fresh false otf prune, m⟩ : DramCache n assoc) where
  sound := Cache.fresh_sound ..
  raw := rfl
  blank _ he := (Cache.not_holds_fresh false otf prune he).elim
  dirty _ he := (Cache.not_holds_fresh false otf prune he).elim
  clean _ he := (Cache.not_holds_fresh false otf prune he).elim
  absent _ _ _ := rfl

/-- Reading a blank line of the DRAM changes nothing that counts. -/
theorem read (h : Mirrors g mem d) (hline : d.dram.line addr = .zero) :
    Mirrors g mem ⟨d.cache, (d.dram.getDataFromDram addr).2⟩ where
  sound := h.sound
  raw := h.raw
  blank := h.blank
  dirty e he hmod := (DramCntlr.blanked_getDataFromDram hline).isSome (h.dirty e he hmod)
  clean e he hmod := by
    rw [DramCntlr.line_getDataFromDram]
    exact h.clean e he hmod
  absent a ha hpeek := by
    rw [DramCntlr.line_getDataFromDram]
    exact h.absent a ha hpeek

/-- A blank line is put into the cache. -/
theorem putDataToCache (host : Addr → Ptr) (o : Order) (cstate : CacheState) (insData : Line n)
    (repl : Fin assoc)
    (h : Mirrors g mem d) (ha : LineAddr n addr) (hpeek : d.cache.peekSingleLine g addr = .ok none)
    (hmem : ∀ a, a ≠ addr → mem' a = mem a) (hzero : mem' addr = .zero)
    (hdirty : cstate = .modified → (d.dram.dataMap addr).isSome = true)
    (hclean : cstate ≠ .modified → d.dram.line addr = .zero) :
    ∃ wbs d', DramCache.putDataToCache g host o d cstate addr insData repl = .ok (wbs, d') ∧
      Mirrors g mem' d' ∧ (∃ i, d'.cache.peekSingleLine g addr = .ok (some i)) ∧
      DramCntlr.Blanked d.dram d'.dram ∧ WrittenBack mem' d' wbs := by
  obtain ⟨c, wbs, c', hins, hset, hsound', hraw, hnew, hold, hsplit⟩ :=
    Cache.insertInState_null o (some insData.ptr) (host addr) false repl h.sound h.raw ha.used hpeek
      cstate
  have habs := (h.sound.peek_none_iff addr).mp hpeek
  have haddr : ∀ e, d.cache.Holds e → tagToAddress n e.1.tag ≠ addr := by
    intro e he heq
    refine habs e he ?_
    rw [← heq, h.sound.tagOf_holds he]
  have hmem' : ∀ e, d.cache.Holds e → mem' (tagToAddress n e.1.tag) = .zero := by
    intro e he
    rw [hmem _ (haddr e he)]
    exact (h.blank e he).2
  have hout : ∀ wb ∈ wbs, wb.info.cstate = .modified →
      wb.data = .zero ∧ (d.dram.dataMap wb.addr).isSome = true := by
    intro wb hwb hmod
    rw [(hsplit.out wb hwb).2]
    exact ⟨(h.blank _ (hold wb hwb)).1, h.dirty _ (hold wb hwb) hmod⟩
  obtain ⟨m, hput, hblanked, hwritten, hkeep⟩ := DramCntlr.putWritebacks_blank hout
  have hline : tagToAddress n (tagOf n addr) = addr := ha.start
  refine ⟨wbs, ⟨c', m⟩, ?_, ⟨hsound', ?_, ?_, ?_, ?_, ?_⟩, ?_, hblanked, ?_⟩
  · simp [DramCache.putDataToCache, hins, hset, hput, bind, Except.bind, pure, Except.pure]
  · exact hraw
  · intro e he
    rcases hsplit.kept e he with hin | rfl
    · exact ⟨(h.blank e hin).1, hmem' e hin⟩
    · exact ⟨rfl, by simpa [CacheBlockInfo.new, hline] using hzero⟩
  · intro e he hmod
    rcases hsplit.kept e he with hin | rfl
    · exact hblanked.isSome (h.dirty e hin hmod)
    · refine hblanked.isSome ?_
      simpa [CacheBlockInfo.new, hline] using hdirty hmod
  · intro e he hmod
    rcases hsplit.kept e he with hin | rfl
    · exact hblanked.line_zero (h.clean e hin hmod)
    · refine hblanked.line_zero ?_
      simpa [CacheBlockInfo.new, hline] using hclean hmod
  · intro a haa hnone
    have hgone := (hsound'.peek_none_iff a).mp hnone
    have hne : a ≠ addr := by
      rintro rfl
      exact hgone _ hnew rfl
    rw [hmem a hne]
    rcases h.sound.lookup_line a with ⟨e, he, htag⟩ | hpa
    · -- it was displaced just now
      have hea : tagToAddress n e.1.tag = a := by rw [htag, haa.start]
      have hmema := (h.blank e he).2
      rw [hea] at hmema
      rw [hmema]
      rcases hsplit.all e (.inl he) with hin | ⟨wb, hwb, rfl⟩
      · exact absurd htag (hgone e hin)
      · rw [← (hsplit.out wb hwb).2] at hea
        by_cases hmod : wb.info.cstate = .modified
        · have hw := hwritten wb hwb hmod
          rw [hea] at hw
          simp [DramCntlr.line, hw]
        · have hz := hblanked.line_zero (h.clean _ he hmod)
          rw [← (hsplit.out wb hwb).2, hea] at hz
          exact hz.symm
    · have hnot := (h.sound.peek_none_iff a).mp hpa
      rw [h.absent a haa hpa, DramCntlr.line, DramCntlr.line, hkeep a]
      intro wb hwb heq
      refine hnot _ (hold wb hwb) ?_
      rw [← heq, (hsplit.out wb hwb).2, h.sound.tagOf_holds (hold wb hwb)]
  · exact ⟨_, hsound'.peek_holds hnew rfl⟩
  · intro wb hwb hmod
    refine ⟨(h.blank _ (hold wb hwb)).1, ?_, hwritten wb hwb hmod⟩
    rw [(hsplit.out wb hwb).2]
    exact hmem' _ (hold wb hwb)

theorem writtenBack_later {wbs : List (Writeback n)} (h : WrittenBack mem d wbs)
    (hb : DramCntlr.Blanked d.dram d'.dram) : WrittenBack mem d' wbs := by
  intro wb hwb hmod
  obtain ⟨hdata, hmem, hdram⟩ := h wb hwb hmod
  exact ⟨hdata, hmem, hb.stays hdram⟩

theorem blank_of_cachedOrBlank (h : Mirrors g mem d) (ha : LineAddr n addr)
    (hc : CachedOrBlank g d addr) : mem addr = .zero := by
  rcases h.sound.lookup_line addr with ⟨e, he, htag⟩ | hnone
  · have hblank := (h.blank e he).2
    rwa [htag, ha.start] at hblank
  · rw [h.absent addr ha hnone, hc hnone]

theorem callPrefetcher {ps : List (Addr × Fin assoc)} (h : Mirrors g mem d)
    (hps : ∀ p ∈ ps, LineAddr n p.1 ∧ mem p.1 = .zero) :
    ∃ wbs d', DramCache.callPrefetcher g host o d ps = .ok (wbs, d') ∧ Mirrors g mem d' ∧
      DramCntlr.Blanked d.dram d'.dram ∧ WrittenBack mem d' wbs := by
  induction ps generalizing d with
  | nil =>
    refine ⟨[], d, rfl, h, .refl _, ?_⟩
    intro wb hwb
    cases hwb
  | cons p ps ih =>
    obtain ⟨ha, hzero⟩ := hps p (List.mem_cons_self ..)
    have hrest := fun q hq => hps q (List.mem_cons_of_mem p hq)
    rcases h.sound.lookup_line p.1 with ⟨e, he, htag⟩ | hpeek
    · have hsome := h.sound.peek_holds he htag
      obtain ⟨wbs, d', hstep, hd'⟩ := ih h hrest
      refine ⟨wbs, d', ?_, hd'⟩
      simpa [DramCache.callPrefetcher, hsome, bind, Except.bind] using hstep
    · have hline : d.dram.line p.1 = .zero := by rw [← h.absent p.1 ha hpeek, hzero]
      obtain ⟨wbs, d₁, hput, h₁, -, hb₁, hw₁⟩ :=
        (h.read hline).putDataToCache host o .shared (d.dram.getDataFromDram p.1).1 p.2 ha hpeek
          (fun _ _ => rfl) hzero (fun hmod => by cases hmod) (fun _ => by rw [DramCntlr.line_getDataFromDram, hline])
      obtain ⟨wbs', d', hstep, h', hb', hw'⟩ := ih h₁ hrest
      refine ⟨wbs ++ wbs', d', ?_, h',
        ((DramCntlr.blanked_getDataFromDram hline).trans hb₁).trans hb', ?_⟩
      · simp [DramCache.callPrefetcher, hpeek, hput, hstep, bind, Except.bind, pure, Except.pure]
      · intro wb hwb
        rcases List.mem_append.mp hwb with hwb | hwb
        · exact writtenBack_later hw₁ hb' wb hwb
        · exact hw' wb hwb

/-- A harmless access completes, and a read returns what memory has. -/
theorem doAccess {op : DramOp n} {repl : Fin assoc} (h : Mirrors g mem d)
    (hok : op.Harmless g d) :
    ∃ out d', d.doAccess g host o repl op = .ok (out, d') ∧ Mirrors g (op.after mem) d' ∧
      (∀ addr rdData, op = .getDataFromDram addr rdData → out.data = mem addr) ∧
      WrittenBack (op.after mem) d' out.evicted := by
  cases op with
  | getDataFromDram addr rdData =>
    obtain ⟨ha, hcached⟩ := hok
    have hzero := h.blank_of_cachedOrBlank ha hcached
    rcases h.sound.lookup_line addr with ⟨e, he, htag⟩ | hpeek
    · have hsome := h.sound.peek_holds he htag
      have hload : d.cache.accessSingleLine g o addr (.load (some rdData)) n (host addr)
          repl.castSucc = .ok (⟨some e.1, some e.2, []⟩, d.cache) :=
        Cache.accessSingleLine_load h.sound he htag ha.offset rdData
      refine ⟨⟨true, e.2, []⟩, d, ?_, h, ?_, fun wb hwb => by cases hwb⟩
      · simp [DramCache.doAccess, hsome, hload, bind, Except.bind, pure, Except.pure]
      · intro a r heq
        cases heq
        rw [hzero]
        exact (h.blank e he).1
    · have hline := hcached hpeek
      obtain ⟨wbs, d', hput, h', -, hb, hw⟩ :=
        (h.read hline).putDataToCache host o .shared (d.dram.getDataFromDram addr).1 repl ha hpeek
          (fun _ _ => rfl) hzero (fun hmod => by cases hmod) (fun _ => by rw [DramCntlr.line_getDataFromDram, hline])
      refine ⟨⟨false, (d.dram.getDataFromDram addr).1, wbs⟩, d', ?_, h', ?_, hw⟩
      · simp [DramCache.doAccess, hpeek, hput, bind, Except.bind, pure, Except.pure]
      · intro a r heq
        cases heq
        rw [hzero]
        exact hline
  | putDataToDram addr wrData =>
    obtain ⟨ha, hpeek, rfl, hsome⟩ := hok
    obtain ⟨wbs, d', hput, h', -, -, hw⟩ :=
      h.putDataToCache host o .modified .zero repl ha hpeek
        (fun a hne => Function.update_of_ne hne ..) (Function.update_self ..) (fun _ => hsome)
        (fun hmod => absurd rfl hmod)
    refine ⟨⟨false, .zero, wbs⟩, d', ?_, h', ?_, hw⟩
    · simp [DramCache.doAccess, hpeek, hput, bind, Except.bind, pure, Except.pure]
    · intro a r heq
      cases heq

theorem perform {call : DramCall n assoc} (h : Mirrors g mem d) (hok : Harmless g d call) :
    ∃ out d', d.perform g host call = .ok (out, d') ∧ Mirrors g (call.op.after mem) d' ∧
      (∀ addr rdData, call.op = .getDataFromDram addr rdData → out.data = mem addr) ∧
      WrittenBack (call.op.after mem) d' out.evicted := by
  obtain ⟨op, repl, ps, o⟩ := call
  obtain ⟨hop, hps⟩ := hok
  obtain ⟨out, d₁, hacc, h₁, hdata, hw₁⟩ := h.doAccess (o := o) hop
  have hafter : ∀ a, LineAddr n a → (a = op.addr ∨ CachedOrBlank g d a) →
      op.after mem a = .zero := by
    intro a ha hcond
    cases op with
    | getDataFromDram addr rdData =>
      rcases hcond with rfl | hcached
      · exact h.blank_of_cachedOrBlank ha hop.2
      · exact h.blank_of_cachedOrBlank ha hcached
    | putDataToDram addr wrData =>
      by_cases hne : a = addr
      · subst hne
        simpa [DramOp.after] using hop.2.2.1
      · simp only [DramOp.after, Function.update_of_ne hne]
        rcases hcond with heq | hcached
        · exact absurd heq hne
        · exact h.blank_of_cachedOrBlank ha hcached
  obtain ⟨wbs, d', hpre, h', hb', hw'⟩ := h₁.callPrefetcher (o := o)
    fun p hp => ⟨(hps p hp).1, hafter p.1 (hps p hp).1 (hps p hp).2⟩
  refine ⟨{ out with evicted := out.evicted ++ wbs }, d', ?_, h', hdata, ?_⟩
  · simp only [DramCache.perform, bind, Except.bind]
    rw [hacc]
    simp only
    rw [hpre]
    rfl
  · intro wb hwb
    rcases List.mem_append.mp hwb with hwb | hwb
    · exact writtenBack_later hw₁ hb' wb hwb
    · exact hw' wb hwb

/-- A line that is held reads back as it is. -/
theorem readsBack_holds {e : Entry n} (hs : d.cache.Sound g) (ha : LineAddr n addr)
    (he : d.cache.Holds e) (htag : e.1.tag = tagOf n addr) : ReadsBack g host d addr e.2 := by
  intro rdData repl o
  have hsome := hs.peek_holds he htag
  have hload : d.cache.accessSingleLine g o addr (.load (some rdData)) n (host addr) repl.castSucc =
      .ok (⟨some e.1, some e.2, []⟩, d.cache) :=
    Cache.accessSingleLine_load hs he htag ha.offset rdData
  refine ⟨⟨true, e.2, []⟩, d, ?_, rfl⟩
  simp [DramCache.perform, DramCache.doAccess, DramCache.callPrefetcher, hsome, hload, bind,
    Except.bind, pure, Except.pure]

/-- Whatever was put into the cache is blank there. -/
theorem putDataToCache_readsBack {cstate : CacheState} {insData : Line n} {repl : Fin assoc}
    {wbs : List (Writeback n)} (hs : d.cache.Sound g) (hraw : d.cache.cntlr.compressible = false)
    (ha : LineAddr n addr) (hpeek : d.cache.peekSingleLine g addr = .ok none)
    (h : DramCache.putDataToCache g host o d cstate addr insData repl = .ok (wbs, d')) :
    ReadsBack g host d' addr .zero := by
  obtain ⟨c, wbs', c', hins, hset, hsound', -, hnew, -⟩ :=
    Cache.insertInState_null o (some insData.ptr) (host addr) false repl hs hraw ha.used hpeek
      cstate
  simp only [DramCache.putDataToCache, hins, except_bind_eq_ok, pure_eq_ok, Prod.mk.injEq,
    Except.ok.injEq] at h
  obtain ⟨⟨_, _⟩, ⟨rfl, rfl⟩, c'', hset', m, -, -, rfl⟩ := h
  rw [hset] at hset'
  cases hset'
  exact readsBack_holds (e := (_, .zero)) hsound' ha hnew rfl

theorem readsBack_unique {line line' : Line n} (repl : Fin assoc)
    (h : ReadsBack g host d addr line) (h' : ReadsBack g host d addr line') : line = line' := by
  obtain ⟨out, d₁, hstep, hdata⟩ := h .zero repl .greatest
  obtain ⟨out', d₂, hstep', hdata'⟩ := h' .zero repl .greatest
  rw [hstep] at hstep'
  cases hstep'
  exact hdata.symm.trans hdata'

/-- An access of a line by itself keeps the line readable exactly when it is harmless. -/
theorem readsBack_iff {op : DramOp n} {repl : Fin assoc} (h : Mirrors g mem d)
    (ha : LineAddr n op.addr)
    (hput : ∀ addr wrData, op = .putDataToDram addr wrData → (d.dram.dataMap addr).isSome = true) :
    (∃ out d', d.perform g host ⟨op, repl, [], o⟩ = .ok (out, d') ∧
      ReadsBack g host d' op.addr (op.after mem op.addr)) ↔ op.Harmless g d := by
  constructor
  · rintro ⟨out, d', hstep, hback⟩
    simp only [DramCache.perform, DramCache.callPrefetcher, except_bind_eq_ok, pure_eq_ok, Prod.mk.injEq,
      Except.ok.injEq] at hstep
    obtain ⟨⟨out', d₁⟩, hacc, ⟨wbs, d₂⟩, ⟨rfl, rfl⟩, -, rfl⟩ := hstep
    cases op with
    | getDataFromDram addr rdData =>
      refine ⟨ha, fun hpeek => ?_⟩
      simp only [DramCache.doAccess, hpeek, except_bind_eq_ok, Except.ok.injEq] at hacc
      obtain ⟨_, rfl, hacc⟩ := hacc
      simp only [except_bind_eq_ok, pure_eq_ok, Prod.mk.injEq] at hacc
      obtain ⟨⟨wbs, d₂⟩, hins, -, rfl⟩ := hacc
      have hzero : ReadsBack g host d₂ addr .zero :=
        putDataToCache_readsBack (d := ⟨d.cache, (d.dram.getDataFromDram addr).2⟩) h.sound h.raw ha
          hpeek hins
      rw [← h.absent addr ha hpeek]
      exact readsBack_unique repl hback hzero
    | putDataToDram addr wrData =>
      rcases h.sound.lookup_line addr with ⟨e, he, htag⟩ | hpeek
      · -- a hit fails the assertions of the store
        have hsome := h.sound.peek_holds he htag
        obtain ⟨w, hw, -, -⟩ := h.sound.find_holds he htag
        have hoff : Cache.offsetOf n addr + n ≤ n := by
          rw [show Cache.offsetOf n addr = 0 from ha.offset, Nat.zero_add]
        simp [DramCache.doAccess, hsome, Cache.accessSingleLine, hw, hoff, check, bind,
          Except.bind] at hacc
      · simp only [DramCache.doAccess, hpeek, except_bind_eq_ok, Except.ok.injEq] at hacc
        obtain ⟨_, rfl, hacc⟩ := hacc
        simp only [except_bind_eq_ok, pure_eq_ok, Prod.mk.injEq] at hacc
        obtain ⟨⟨wbs, d₂⟩, hins, -, rfl⟩ := hacc
        have hzero : ReadsBack g host d₂ addr .zero :=
          putDataToCache_readsBack h.sound h.raw ha hpeek hins
        have hsame := readsBack_unique repl hback hzero
        simp only [DramOp.after, DramOp.addr, Function.update_self] at hsame
        exact ⟨ha, hpeek, hsame, hput addr wrData rfl⟩
  · intro hok
    have hcall : Harmless g d (⟨op, repl, [], o⟩ : DramCall n assoc) :=
      ⟨hok, fun p hp => by cases hp⟩
    obtain ⟨out, d', hstep, h', -⟩ := h.perform hcall
    refine ⟨out, d', hstep, fun rdData repl' o' => ?_⟩
    have hzero : op.after mem op.addr = .zero := by
      cases op with
      | getDataFromDram addr rdData => exact h.blank_of_cachedOrBlank hok.1 hok.2
      | putDataToDram addr wrData => simpa [DramOp.after, DramOp.addr] using hok.2.2.1
    have hread : Harmless g d' ⟨.getDataFromDram op.addr rdData, repl', [], o'⟩ := by
      refine ⟨⟨ha, fun hpeek => ?_⟩, fun p hp => by cases hp⟩
      rw [← h'.absent _ ha hpeek, hzero]
    obtain ⟨out', d'', hstep', -, hdata, -⟩ := h'.perform hread
    exact ⟨out', d'', hstep', hdata _ _ rfl⟩

end Mirrors

theorem run_mirrors {m : DramCntlr n} {tr : List (DramCall n assoc × DramAnswer n)}
    (h : Run (DramCache.machine n assoc g host m) (Harmless g) tr d) :
    Mirrors g (latest m tr) d := by
  induction h with
  | start h =>
    obtain ⟨otf, prune, rfl⟩ := h
    exact .fresh otf prune m
  | @next tr d d' call out _ hok hstep ih =>
    obtain ⟨out', d'', hstep', hmirrors, -⟩ := ih.perform hok
    rw [show d.perform g host call = .ok (out, d') from hstep] at hstep'
    cases hstep'
    rw [latest_snoc]
    exact hmirrors

/-- Along a run of harmless calls every further harmless call completes, a read returns the data
last put or else that of the DRAM, and every dirty line that is displaced is in the DRAM with its
latest contents. A call for a line by itself that is not harmless fails, or leaves a line that no
longer reads back. -/
theorem transparent_while_harmless {m : DramCntlr n} (d : DramCache n assoc)
    (tr : List (DramCall n assoc × DramAnswer n))
    (h : Run (DramCache.machine n assoc g host m) (Harmless g) tr d) :
    (∀ call, Harmless g d call → ∃ out d', d.perform g host call = .ok (out, d') ∧
      (∀ addr rdData, call.op = .getDataFromDram addr rdData → out.data = latest m tr addr) ∧
      ∀ wb ∈ out.evicted, wb.info.cstate = .modified →
        wb.data = latest m (tr ++ [(call, out)]) wb.addr ∧
        d'.dram.dataMap wb.addr = some wb.data) ∧
    ∀ call, call.prefetches = [] → LineAddr n call.op.addr →
      (∀ addr wrData, call.op = .putDataToDram addr wrData →
        (d.dram.dataMap addr).isSome = true) →
      ((∃ out d', d.perform g host call = .ok (out, d') ∧
        ReadsBack g host d' call.op.addr (latest m (tr ++ [(call, out)]) call.op.addr)) ↔
        Harmless g d call) := by
  have hd := run_mirrors h
  refine ⟨fun call hok => ?_, fun call hnone ha hput => ?_⟩
  · obtain ⟨out, d', hstep, -, hdata, hw⟩ := hd.perform hok
    refine ⟨out, d', hstep, hdata, fun wb hwb hmod => ?_⟩
    obtain ⟨hz, hmem, hdram⟩ := hw wb hwb hmod
    rw [latest_snoc, hz, hmem]
    exact ⟨rfl, hdram⟩
  · obtain ⟨op, repl, ps, o⟩ := call
    simp only at hnone
    subst hnone
    simp only [latest_snoc]
    rw [Mirrors.readsBack_iff hd ha hput]
    exact ⟨fun hok => ⟨hok, fun p hp => by cases hp⟩, fun hok => hok.1⟩

def readBlank (addr : Addr) : DramCall 64 1 := ⟨.getDataFromDram addr .zero, 0, [], .greatest⟩

/-- A blank line is read twice from a DRAM that was never accessed. -/
theorem transparent_while_harmless_blank : ∃ d : DramCache 64 1,
    (∃ tr, Run (DramCache.machine 64 1 ⟨1, none⟩ (fun _ _ => 0) ⟨fun _ => none⟩) (Harmless ⟨1, none⟩)
      tr d) ∧
    ∃ out d', d.perform ⟨1, none⟩ (fun _ _ => 0) (readBlank 0) = .ok (out, d') ∧
      out.data = .zero := by
  have ha : LineAddr 64 0 := ⟨by decide, by decide, by decide⟩
  have hok : ∀ d : DramCache 64 1, (∀ a, d.dram.line a = .zero) →
      Harmless ⟨1, none⟩ d (readBlank 0) := by
    intro d hline
    exact ⟨⟨ha, fun _ => hline 0⟩, fun p hp => by cases hp⟩
  let d₀ : DramCache 64 1 := ⟨.fresh false false false, ⟨fun _ => none⟩⟩
  have hstart : Run (DramCache.machine 64 1 ⟨1, none⟩ (fun _ _ => 0) ⟨fun _ => none⟩)
      (Harmless ⟨1, none⟩) [] d₀ := .start ⟨false, false, rfl⟩
  obtain ⟨hall, -⟩ := transparent_while_harmless d₀ [] hstart
  obtain ⟨out, d', hstep, hdata, -⟩ := hall (readBlank 0) (hok d₀ fun _ => rfl)
  exact ⟨d₀, ⟨[], hstart⟩, out, d', hstep, hdata 0 .zero rfl⟩

/-- A line that was just read is in the cache, and writing it fails an assertion. -/
theorem store_hit_fails :
    ¬∀ d : DramCache 64 1, Reachable (DramCache.machine 64 1 ⟨1, none⟩ (fun _ _ => 0)
      ⟨fun _ => none⟩) d → ∀ call, LineAddr 64 call.op.addr →
        (d.dram.dataMap call.op.addr).isSome = true →
          ∃ out d', d.perform ⟨1, none⟩ (fun _ _ => 0) call = .ok (out, d') := by
  intro hall
  have heval : (performEach (DramCache.perform ⟨1, none⟩ (fun _ _ => 0)) (fun _ _ => true)
      (⟨.fresh false false false, ⟨fun _ => none⟩⟩ : DramCache 64 1) [readBlank 0]).any (fun d =>
        (d.dram.dataMap 0).isSome && Outcome.failsWith (d.perform ⟨1, none⟩ (fun _ _ => 0)
          ⟨.putDataToDram 0 .zero, 0, [], .greatest⟩) .assertion) = true := by
    rfl
  obtain ⟨d, hd, heval⟩ := Option.any_eq_true _ _ |>.mp heval
  rw [Bool.and_eq_true] at heval
  have hfail := Outcome.failsWith_eq_true heval.2
  have hreach : Reachable (DramCache.machine 64 1 ⟨1, none⟩ (fun _ _ => 0) ⟨fun _ => none⟩) d :=
    Run.performEach (M := DramCache.machine 64 1 ⟨1, none⟩ (fun _ _ => 0) ⟨fun _ => none⟩)
      (fun _ _ _ _ h => h) (fun _ _ _ => trivial) (.start ⟨false, false, rfl⟩) hd
  obtain ⟨out, d', hok⟩ := hall d hreach ⟨.putDataToDram 0 .zero, 0, [], .greatest⟩
    ⟨by decide, by decide, by decide⟩ heval.1
  rw [hfail] at hok
  cases hok

end Sniper.Dram
