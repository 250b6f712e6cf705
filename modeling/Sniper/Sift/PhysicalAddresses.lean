import Sniper.Sift.Decoding
set_option autoImplicit false

/-! The reader translates the addresses of a trace as the recorder's page table does. -/

namespace Sniper.Sift
open Sniper.Lib Reader Writer

variable {env : ReaderEnv} {cfg : WriterConfig} {sizeAt : Word → Nat}

/-- `Reader::va2pa`: zero where the trace gives no page. -/
def Reader.va2pa (r : Reader) (va : Word) : Word :=
  if r.traceHasPa then
    match r.vcache (va / pageSize) with
    | none => 0
    | some pp => pp * pageSize ||| va &&& (pageSize - 1)
  else va

/-- An address in the recorder's page table; a page the kernel does not tell has frame zero. -/
def WriterConfig.physical (cfg : WriterConfig) (va : Word) : Word :=
  if cfg.sendVa2paMapping then
    if cfg.va2paLookup (va / pageSize) = 0 then 0
    else cfg.va2paLookup (va / pageSize) * pageSize ||| va &&& (pageSize - 1)
  else va

/-- The instructions `Read` returns, each with the reader that its caller asks for translations. -/
def Reader.readStates (env : ReaderEnv) : Nat → Reader → Except Abort (List (Instruction × Reader))
  | 0, _ => .error .spins
  | fuel + 1, r => do
    match ← r.read env with
    | (.insn i, r) => return (i, r) :: (← readStates env fuel r)
    | (.stop, _) => return []
    | _ => .error .spins

def readTraceStates (env : ReaderEnv) (file : List UInt8) :
    Except Abort (List (Instruction × Reader)) := do
  let r ← Reader.initStream env file
  r.readStates env (r.input.length + 1)

/-- The reader has the frames of the pages the writer has sent, and no others. -/
structure Paged (cfg : WriterConfig) (w : Writer) (r : Reader) : Prop where
  sent : ∀ vp, w.va2pa vp = true → r.vcache vp = some (cfg.va2paLookup vp)
  known : ∀ vp pp, r.vcache vp = some pp → w.va2pa vp = true
  nonzero : ∀ vp, w.va2pa vp = true → cfg.va2paLookup vp ≠ 0
  traceHasPa : r.traceHasPa = cfg.sendVa2paMapping

/-- The page of an address has been looked up. -/
def Writer.Announced (cfg : WriterConfig) (w : Writer) (va : Word) : Prop :=
  cfg.sendVa2paMapping = true → w.va2pa (va / pageSize) = true ∨ cfg.va2paLookup (va / pageSize) = 0

theorem Paged.va2pa {w : Writer} {r : Reader} {va : Word} (h : Paged cfg w r)
    (ha : w.Announced cfg va) : r.va2pa va = cfg.physical va := by
  rw [Reader.va2pa, WriterConfig.physical, h.traceHasPa]
  by_cases hm : cfg.sendVa2paMapping = true
  · rw [if_pos hm, if_pos hm]
    by_cases hs : w.va2pa (va / pageSize) = true
    · rw [h.sent _ hs, if_neg (h.nonzero _ hs)]
    · have hz : cfg.va2paLookup (va / pageSize) = 0 := (ha hm).resolve_left hs
      have hnone : r.vcache (va / pageSize) = none :=
        Option.eq_none_iff_forall_ne_some.mpr fun pp hpp => hs (h.known _ pp hpp)
      rw [hnone, if_pos hz]
  · rw [if_neg hm, if_neg hm]

/-! ### What the writer sends before an instruction -/

/-- A sending step after which the reader still has the frames of the pages sent. -/
structure KeepsPages (env : ReaderEnv) (cfg : WriterConfig) (w w' : Writer) : Prop where
  sent : ∀ vp, w.va2pa vp = true → w'.va2pa vp = true
  follows : ∀ r, Paged cfg w r → ∃ bs r', w'.output = w.output ++ bs ∧ Skips env bs r r' ∧
    Paged cfg w' r'

theorem KeepsPages.refl (w : Writer) : KeepsPages env cfg w w where
  sent _ h := h
  follows r h := ⟨[], r, (List.append_nil _).symm, Skips.refl r, h⟩

theorem KeepsPages.trans {w w' w'' : Writer} (h : KeepsPages env cfg w w')
    (h' : KeepsPages env cfg w' w'') : KeepsPages env cfg w w'' where
  sent vp hvp := h'.sent vp (h.sent vp hvp)
  follows r hr := by
    obtain ⟨bs, r', ho, hk, hr'⟩ := h.follows r hr
    obtain ⟨cs, r'', ho', hk', hr''⟩ := h'.follows r' hr'
    exact ⟨bs ++ cs, r'', by rw [ho', ho, List.append_assoc], hk.trans hk', hr''⟩

theorem KeepsPages.announced {w w' : Writer} {va : Word} (h : KeepsPages env cfg w w')
    (ha : w.Announced cfg va) : w'.Announced cfg va := fun hm => (ha hm).imp_left (h.sent _)

/-- A record that the reader puts into its icache. -/
theorem keepsPages_icache {w : Writer} {a : Word} {bs : List UInt8} (hb : 0 < bs.length)
    (hr : ∀ r : Reader, ∃ icache, ∀ rest, Reader.step env { r with input := bs ++ rest } =
      .ok (.again, { r with input := rest, icache := icache })) :
    KeepsPages env cfg w { w.write bs with icache := Function.update w.icache a true } where
  sent _ h := h
  follows r h := by
    obtain ⟨icache, hstep⟩ := hr r
    exact ⟨bs, { r with icache := icache }, rfl, Skips.of_step hb hstep,
      ⟨h.sent, h.known, h.nonzero, h.traceHasPa⟩⟩

theorem sendIcacheVariable_keepsPages (w : Writer) (addr : Word) {size : Nat} (h15 : size < 16) :
    KeepsPages env cfg w (w.sendIcacheVariable cfg addr size) := by
  rw [Writer.sendIcacheVariable]
  split
  · exact .refl w
  · have hl := length_getCode cfg.code addr size
    have hb : 0 < (Writer.icacheVariableBytes cfg addr size).length := by
      simp only [Writer.icacheVariableBytes, List.length_append, length_otherBytes]
      omega
    refine keepsPages_icache hb fun r =>
      ⟨storeCode env.newPage size addr (getCode cfg.code addr size) r.icache, fun rest => ?_⟩
    have hstep := @Reader.step_icacheVariable env
      { r with input := Writer.icacheVariableBytes cfg addr size ++ rest } rest addr
      (getCode cfg.code addr size) (by omega) (by simp [Writer.icacheVariableBytes])
    rw [hl] at hstep
    exact hstep

theorem sendIcachePage_keepsPages (w : Writer) (base : Word) :
    KeepsPages env cfg w (w.sendIcachePage cfg base) := by
  rw [Writer.sendIcachePage]
  split
  · exact .refl w
  · have hb : 0 < (Writer.icacheBytes cfg base).length := by
      simp only [Writer.icacheBytes, List.length_append, length_otherBytes]
      omega
    refine keepsPages_icache hb fun r => ⟨Function.update r.icache base
      (some ((getCode cfg.code base icacheSize).getD · 0)), fun rest => ?_⟩
    exact Reader.step_icache (length_getCode cfg.code base icacheSize)
      (by simp [Writer.icacheBytes])

theorem sendIcachePages_keepsPages {last base : Word} {fuel : Nat} {w w' : Writer}
    (h : w.sendIcachePages cfg last fuel base = .ok w') : KeepsPages env cfg w w' := by
  induction fuel generalizing base w with
  | zero => cases h
  | succ fuel ih =>
    rw [Writer.sendIcachePages] at h
    split at h
    · exact (sendIcachePage_keepsPages w base).trans (ih h)
    · cases h
      exact .refl _

theorem sendIcache_keepsPages {addr : Word} {size : Nat} {w w' : Writer} (h15 : size < 16)
    (h : w.sendIcache cfg addr size = .ok w') : KeepsPages env cfg w w' := by
  rw [Writer.sendIcache] at h
  split at h
  · cases h
    exact sendIcacheVariable_keepsPages w addr h15
  · exact sendIcachePages_keepsPages h

theorem Paged.send {w : Writer} {r : Reader} {vp : Word} (h : Paged cfg w r)
    (hvp : cfg.va2paLookup vp ≠ 0) (bs : List UInt8) :
    Paged cfg { w.write bs with va2pa := Function.update w.va2pa vp true }
      { r with vcache := Function.update r.vcache vp (some (cfg.va2paLookup vp)) } := by
  have hcases : ∀ q, Function.update w.va2pa vp true q = true → q = vp ∨ w.va2pa q = true := by
    intro q hq
    by_cases heq : q = vp
    · exact .inl heq
    · rw [Function.update_of_ne heq] at hq
      exact .inr hq
  refine ⟨fun q hq => ?_, fun q pp hq => ?_, fun q hq => ?_, h.traceHasPa⟩
  · by_cases heq : q = vp
    · subst heq
      exact Function.update_self ..
    · exact (Function.update_of_ne heq _ _).trans (h.sent q ((hcases q hq).resolve_left heq))
  · by_cases heq : q = vp
    · subst heq
      exact Function.update_self ..
    · have hold : r.vcache q = some pp := (Function.update_of_ne heq _ _).symm.trans hq
      exact (Function.update_of_ne heq _ _).trans (h.known q pp hold)
  · rcases hcases q hq with rfl | hold
    · exact hvp
    · exact h.nonzero q hold

theorem sendVa2pa_keepsPages (env : ReaderEnv) (w : Writer) (va : Word) :
    KeepsPages env cfg w (w.sendVa2pa cfg va) ∧ (w.sendVa2pa cfg va).Announced cfg va := by
  rw [Writer.sendVa2pa]
  split
  next hm =>
    refine ⟨.refl w, fun h => ?_⟩
    rw [h] at hm
    cases hm
  next =>
    simp only
    split
    next hsent => exact ⟨.refl w, fun _ => .inl hsent⟩
    next =>
      split
      next hz => exact ⟨.refl w, fun _ => .inr hz⟩
      next hz =>
        refine ⟨⟨fun q hq => update_true hq, fun r hr => ?_⟩,
          fun _ => .inl (Function.update_self ..)⟩
        refine ⟨va2paBytes (va / pageSize) (cfg.va2paLookup (va / pageSize)), { r with
            vcache := Function.update r.vcache (va / pageSize)
              (some (cfg.va2paLookup (va / pageSize))) }, rfl,
          Skips.of_step (by simp [va2paBytes]) fun rest => ?_, hr.send hz _⟩
        exact step_va2pa (by simp [va2paBytes])

theorem foldl_sendVa2pa_keepsPages (env : ReaderEnv) (as : List Word) (w : Writer) :
    KeepsPages env cfg w (as.foldl (Writer.sendVa2pa cfg) w) ∧
      ∀ a ∈ as, (as.foldl (Writer.sendVa2pa cfg) w).Announced cfg a := by
  induction as generalizing w with
  | nil => exact ⟨.refl w, fun _ h => absurd h List.not_mem_nil⟩
  | cons a as ih =>
    obtain ⟨hfirst, ha⟩ := sendVa2pa_keepsPages env w a
    obtain ⟨hrest, has⟩ := ih (w.sendVa2pa cfg a)
    refine ⟨hfirst.trans hrest, fun b hb => ?_⟩
    rcases List.mem_cons.mp hb with rfl | hb
    · exact hrest.announced ha
    · exact has b hb

/-! ### What an instruction record leaves alone -/

namespace Reader

/-- Nothing that a translation depends on is changed. -/
def SamePages (r r' : Reader) : Prop := r'.vcache = r.vcache ∧ r'.traceHasPa = r.traceHasPa

theorem SamePages.trans {r r' r'' : Reader} (h : SamePages r r') (h' : SamePages r' r'') :
    SamePages r r'' := ⟨h'.1.trans h.1, h'.2.trans h.2⟩

theorem readBytes_samePages {r r' : Reader} {n : Nat} {bs : List UInt8}
    (h : r.readBytes n = .ok (bs, r')) : SamePages r r' := by
  rw [readBytes] at h
  split at h
  · cases h
    exact ⟨rfl, rfl⟩
  · cases h

theorem readWord_samePages {r r' : Reader} {v : Word} (h : r.readWord = .ok (v, r')) :
    SamePages r r' := by
  simp only [readWord, except_bind_eq_ok, pure_eq_ok] at h
  obtain ⟨⟨bs, r₁⟩, hbytes, heq⟩ := h
  cases heq
  exact readBytes_samePages hbytes

theorem readAddresses_samePages {n : Nat} {r r' : Reader} {as : List Word}
    (h : readAddresses n r = .ok (as, r')) : SamePages r r' := by
  induction n generalizing r as with
  | zero =>
    cases h
    exact ⟨rfl, rfl⟩
  | succ n ih =>
    simp only [readAddresses, except_bind_eq_ok, pure_eq_ok] at h
    obtain ⟨⟨a, r₁⟩, hword, ⟨as', r₂⟩, hrest, heq⟩ := h
    cases heq
    exact (readWord_samePages hword).trans (ih hrest)

theorem findStatic_samePages {r r' : Reader} {addr : Word} {size q : Nat}
    (h : r.findStatic env addr size = .ok (q, r')) : SamePages r r' := by
  rw [findStatic] at h
  split at h
  · cases h
    exact ⟨rfl, rfl⟩
  · split at h
    · simp only [except_bind_eq_ok, pure_eq_ok] at h
      obtain ⟨-, -, heq⟩ := h
      cases heq
      exact ⟨rfl, rfl⟩
    · simp only [except_bind_eq_ok, pure_eq_ok] at h
      obtain ⟨s, -, heq⟩ := h
      cases heq
      exact ⟨rfl, rfl⟩

theorem getStaticInstruction_samePages {r r' : Reader} {addr : Word} {size : Nat}
    {s : StaticInstruction} (h : r.getStaticInstruction env addr size = .ok (s, r')) :
    SamePages r r' := by
  simp only [getStaticInstruction, except_bind_eq_ok] at h
  obtain ⟨⟨q, r₁⟩, hfind, h⟩ := h
  split at h
  · cases h
    exact (findStatic_samePages hfind).trans ⟨rfl, rfl⟩
  · cases h

theorem finish_samePages {r r' : Reader} {item : Item} {addr : Word} {size n : Nat}
    {isBranch taken isPredicate executed : Bool}
    (h : r.finish env addr size n isBranch taken isPredicate executed = .ok (item, r')) :
    SamePages r r' := by
  simp only [finish, except_bind_eq_ok, pure_eq_ok] at h
  obtain ⟨-, -, ⟨as, r₁⟩, haddrs, ⟨s, r₂⟩, hstatic, heq⟩ := h
  cases heq
  have hfirst : SamePages r { r with lastAddress := addr + BitVec.ofNat 64 size } := ⟨rfl, rfl⟩
  exact hfirst.trans ((readAddresses_samePages haddrs).trans (getStaticInstruction_samePages hstatic))

theorem skip_ne_insn {r r' : Reader} {i : Instruction} {size : Nat}
    (h : r.skip size = .ok (.insn i, r')) : False := by
  simp only [skip, except_bind_eq_ok, pure_eq_ok] at h
  obtain ⟨⟨bs, r₁⟩, -, heq⟩ := h
  cases heq

/-- The other records return no instruction. -/
theorem payload_ne_insn {r r' : Reader} {i : Instruction} {t : Option RecOtherType} {size : Nat}
    (h : payload env t size r = .ok (.insn i, r')) : False := by
  rw [payload.eq_def] at h
  split at h
  · simp only [except_bind_eq_ok, pure_eq_ok] at h
    obtain ⟨-, -, heq⟩ := h
    cases heq
  · simp only [except_bind_eq_ok, pure_eq_ok] at h
    obtain ⟨-, -, ⟨a, r₁⟩, -, ⟨bs, r₂⟩, -, heq⟩ := h
    cases heq
  · simp only [except_bind_eq_ok, pure_eq_ok] at h
    obtain ⟨⟨a, r₁⟩, -, ⟨bs, r₂⟩, -, heq⟩ := h
    cases heq
  · simp only [except_bind_eq_ok, pure_eq_ok] at h
    obtain ⟨-, -, ⟨vp, r₁⟩, -, ⟨pp, r₂⟩, -, heq⟩ := h
    cases heq
  · split at h
    · simp only [except_bind_eq_ok, pure_eq_ok] at h
      obtain ⟨r₁, -, heq⟩ := h
      cases heq
    · exact skip_ne_insn h
  · exact skip_ne_insn h

theorem step_samePages {r r' : Reader} {i : Instruction} (h : r.step env = .ok (.insn i, r')) :
    SamePages r r' := by
  rw [step] at h
  split at h
  · cases h
  · split at h
    · simp only [other, except_bind_eq_ok] at h
      obtain ⟨⟨rec, r₁⟩, -, h⟩ := h
      exact (payload_ne_insn h).elim
    · split at h
      · simp only [simple, except_bind_eq_ok] at h
        obtain ⟨⟨rec, r₁⟩, hbytes, h⟩ := h
        exact (readBytes_samePages hbytes).trans (finish_samePages h)
      · simp only [extended, except_bind_eq_ok] at h
        obtain ⟨⟨rec, r₁⟩, hbytes, h⟩ := h
        exact (readBytes_samePages hbytes).trans (finish_samePages h)

end Reader

/-! ### Whole traces -/

/-- The address of an instruction and its data addresses. -/
def Instr.allAddresses (i : Instr) : List Word := i.addr :: i.addresses

theorem sendRecord_va2pa (w : Writer) (i : Instr) : (w.sendRecord i).va2pa = w.va2pa := by
  rw [sendRecord]
  split <;> rfl

theorem Paged.record {w : Writer} {r r' : Reader} (h : Paged cfg w r) (i : Instr)
    (hsame : SamePages r r') : Paged cfg (w.sendRecord i) r' := by
  have hw := sendRecord_va2pa w i
  refine ⟨?_, ?_, ?_, hsame.2.trans h.traceHasPa⟩
  · rw [hw, hsame.1]
    exact h.sent
  · rw [hw, hsame.1]
    exact h.known
  · rw [hw]
    exact h.nonzero

/-- A reader in step that has all pages follows to one that has all pages. -/
theorem Sends.followsPages {w w' : Writer} {r : Reader} (hs : Sends env cfg sizeAt w w')
    (hp : KeepsPages env cfg w w') (hr : Synced cfg sizeAt w r) (hpaged : Paged cfg w r) :
    ∃ bs r', w'.output = w.output ++ bs ∧ Skips env bs r r' ∧ Synced cfg sizeAt w' r' ∧
      Paged cfg w' r' := by
  obtain ⟨bs, r₁, ho, hk, hr₁⟩ := hs.follows r hr
  obtain ⟨bs', r₂, ho', hk', hr₂⟩ := hp.follows r hpaged
  have hbs : bs' = bs := List.append_cancel_left (ho'.symm.trans ho)
  subst hbs
  obtain ⟨x, rfl⟩ := hk'.unique hk
  exact ⟨bs', _, ho, hk, hr₁, ⟨hr₂.sent, hr₂.known, hr₂.nonzero, hr₂.traceHasPa⟩⟩

/-- One call of the writer is one `Read`, and announces the addresses of the call. -/
theorem instruction_readPages (w : Writer) {i : Instr} (hi : Traceable env cfg sizeAt i) :
    ∃ w', w.instruction cfg i = .ok w' ∧
      (∀ a, w.Announced cfg a ∨ a ∈ i.allAddresses → w'.Announced cfg a) ∧
      ∀ r, Synced cfg sizeAt w r → Paged cfg w r → ∃ bs, w'.output = w.output ++ bs ∧
        ∀ rest, ∃ o r', Reader.read env { r with input := bs ++ rest } = .ok (.insn o, r') ∧
          r'.input = rest ∧ Agrees i o ∧ Synced cfg sizeAt w' r' ∧ Paged cfg w' r' := by
  obtain ⟨w₁, hok, hs₁, hcode⟩ := sendIcache_sends w hi.one_le_size hi.size_le
    hi.sizeAt_addr hi.belowTopPage
  have hz : i.size < 16 := Nat.lt_succ_of_le hi.size_le
  have hs₂ : Sends env cfg sizeAt w₁ (i.addresses.foldl (sendVa2pa cfg) (w₁.sendVa2pa cfg i.addr)) :=
    (sendVa2pa_sends w₁ i.addr).trans (foldl_sendVa2pa_sends i.addresses _)
  have hp₁ : KeepsPages env cfg w w₁ := sendIcache_keepsPages hz hok
  obtain ⟨hp₂, hfirst⟩ := @sendVa2pa_keepsPages cfg env w₁ i.addr
  obtain ⟨hp₃, hrest⟩ :=
    @foldl_sendVa2pa_keepsPages cfg env i.addresses (w₁.sendVa2pa cfg i.addr)
  refine ⟨(i.addresses.foldl (sendVa2pa cfg) (w₁.sendVa2pa cfg i.addr)).sendRecord i, ?_, ?_, ?_⟩
  · simp only [instruction, hz, hi.numAddresses, decide_true, check_true, bind, Except.bind, hok]
    rfl
  · intro a ha
    rw [Announced, sendRecord_va2pa]
    rcases ha with hold | hnew
    · exact (hp₁.trans (hp₂.trans hp₃)).announced hold
    · rcases List.mem_cons.mp hnew with rfl | hmem
      · exact hp₃.announced hfirst
      · exact hrest a hmem
  · intro r hr hpaged
    obtain ⟨bs₁, r₁, ho₁, hk₁, hr₁, hpaged₁⟩ :=
      (hs₁.trans hs₂).followsPages (hp₁.trans (hp₂.trans hp₃)) hr hpaged
    have hic : ∀ k < i.size, Shows cfg.code r₁.icache (i.addr + BitVec.ofNat 64 k) :=
      hcode _ r₁ hs₂ hr₁
    obtain ⟨bs₂, ho₂, -, hstep⟩ := sendRecord_step hr₁ hi hic
    refine ⟨bs₁ ++ bs₂, by rw [ho₂, ho₁, List.append_assoc], fun rest => ?_⟩
    obtain ⟨o, r', hst, hin, hag, hsy⟩ := hstep rest
    have hinput : SamePages r₁ { r₁ with input := bs₂ ++ rest } := ⟨rfl, rfl⟩
    have hsame : SamePages r₁ r' := hinput.trans (step_samePages hst)
    refine ⟨o, r', ?_, hin, hag, hsy, hpaged₁.record i hsame⟩
    obtain ⟨n, hn, hloop⟩ := hk₁.readLoop (bs₂ ++ rest)
    have hfuel : (bs₁ ++ bs₂ ++ rest).length + 1 =
        n + ((bs₁ ++ bs₂ ++ rest).length - n + 1) := by
      simp only [List.length_append] at hn ⊢
      omega
    rw [Reader.read, if_neg (by simp [hr.seenEnd]), hfuel, List.append_assoc bs₁, hloop, readLoop,
      hst]
    rfl

/-- The instructions that are read are the written ones, and the reader translates the addresses
that were announced before, and those of each instruction from then on. -/
structure TranslatesTo (cfg : WriterConfig) (announced : Word → Prop) (is : List Instr)
    (os : List (Instruction × Reader)) : Prop where
  agrees : List.Forall₂ Agrees is (os.map Prod.fst)
  before : ∀ o ∈ os, ∀ a, announced a → o.2.va2pa a = cfg.physical a
  va2pa : ∀ (j k : Nat) (i : Instr) (o : Instruction × Reader), j ≤ k → is[j]? = some i →
    os[k]? = some o → ∀ a ∈ i.allAddresses, o.2.va2pa a = cfg.physical a

theorem TranslatesTo.nil {announced : Word → Prop} : TranslatesTo cfg announced [] [] where
  agrees := .nil
  before _ h := absurd h List.not_mem_nil
  va2pa j _ _ _ _ h := by simp at h

theorem TranslatesTo.cons {w w' : Writer} {i : Instr} {is : List Instr} {o : Instruction}
    {r : Reader} {os : List (Instruction × Reader)} (h : TranslatesTo cfg (w'.Announced cfg) is os)
    (hnew : ∀ a, w.Announced cfg a ∨ a ∈ i.allAddresses → w'.Announced cfg a) (hag : Agrees i o)
    (hpaged : Paged cfg w' r) : TranslatesTo cfg (w.Announced cfg) (i :: is) ((o, r) :: os) where
  agrees := .cons hag h.agrees
  before p hp a ha := by
    rcases List.mem_cons.mp hp with rfl | hp
    · exact hpaged.va2pa (hnew a (.inl ha))
    · exact h.before p hp a (hnew a (.inl ha))
  va2pa j k x p hle hx hp a ha := by
    cases j with
    | zero =>
      cases hx
      have ha' : w'.Announced cfg a := hnew a (.inr ha)
      rcases List.mem_cons.mp (List.mem_of_getElem? hp) with rfl | hp
      · exact hpaged.va2pa ha'
      · exact h.before p hp a ha'
    | succ j =>
      obtain ⟨k, rfl⟩ := Nat.exists_eq_succ_of_ne_zero (Nat.ne_of_gt (Nat.zero_lt_of_lt hle))
      exact h.va2pa j k x p (Nat.le_of_succ_le_succ hle) hx hp a ha

/-- The whole body of a trace is read back with its translations. -/
theorem instructions_readStates {is : List Instr} (his : ∀ i ∈ is, Traceable env cfg sizeAt i)
    {w w' : Writer} (hw : w.instructions cfg is = .ok w') {r : Reader} (hr : Synced cfg sizeAt w r)
    (hpaged : Paged cfg w r) {bs : List UInt8} (ho : w'.output = w.output ++ bs) {fuel : Nat}
    (hf : is.length < fuel) :
    ∃ os, readStates env fuel { r with input := bs ++ otherBytes .end 0 } = .ok os ∧
      TranslatesTo cfg (w.Announced cfg) is os := by
  obtain ⟨n, rfl⟩ := Nat.exists_eq_succ_of_ne_zero (Nat.ne_of_gt (Nat.zero_lt_of_lt hf))
  induction is generalizing w r bs n with
  | nil =>
    cases hw
    have hbs : bs = [] := List.self_eq_append_right.mp ho
    have hstep : Reader.step env { r with input := otherBytes .end 0 } =
        .ok (.stop, { r with input := [], seenEnd := true }) :=
      step_end (List.append_nil _).symm
    have hread : Reader.read env { r with input := otherBytes .end 0 } =
        .ok (.stop, { r with input := [], seenEnd := true }) := by
      rw [Reader.read, if_neg (by simp [hr.seenEnd]), readLoop, hstep]
      rfl
    refine ⟨[], ?_, .nil⟩
    rw [hbs, List.nil_append, readStates, hread]
    rfl
  | cons i is ih =>
    simp only [instructions, except_bind_eq_ok] at hw
    obtain ⟨w₁, hok, hrest⟩ := hw
    obtain ⟨w₁', hok', hnew, hread⟩ :=
      @instruction_readPages env cfg sizeAt w i (his i List.mem_cons_self)
    cases hok.symm.trans hok'
    obtain ⟨bs₁, ho₁, hr₁⟩ := hread r hr hpaged
    obtain ⟨bs₂, ho₂⟩ := instructions_output hrest
    have hbs : bs = bs₁ ++ bs₂ := by
      rw [← ho₂, ho₁, List.append_assoc] at ho
      exact (List.append_cancel_left ho).symm
    obtain ⟨o, r', hrd, hin, hag, hsy, hpaged'⟩ := hr₁ (bs₂ ++ otherBytes .end 0)
    have hlt : is.length < n := Nat.lt_of_succ_lt_succ hf
    obtain ⟨m, rfl⟩ := Nat.exists_eq_succ_of_ne_zero (Nat.ne_of_gt (Nat.zero_lt_of_lt hlt))
    obtain ⟨os, hos, htrs⟩ := ih (fun j hj => his j (List.mem_cons_of_mem i hj)) hrest hsy hpaged'
      ho₂.symm m hlt
    have hr' : { r' with input := bs₂ ++ otherBytes .end 0 } = r' := by rw [← hin]
    rw [hr'] at hos
    refine ⟨(o, r') :: os, ?_, htrs.cons hnew hag hpaged'⟩
    rw [hbs, List.append_assoc, readStates, hrd]
    simp only [bind, Except.bind, hos]
    rfl

/-- The trace of `is` is written and read back, with the recorder's physical addresses. -/
def TranslatesTrace (env : ReaderEnv) (cfg : WriterConfig) (deflate : List UInt8 → List UInt8)
    (is : List Instr) : Prop :=
  ∃ file os, writeTrace cfg deflate is = .ok file ∧ readTraceStates env file = .ok os ∧
    List.Forall₂ Agrees is (os.map Prod.fst) ∧
    ∀ (j k : Nat) (i : Instr) (o : Instruction × Reader), j ≤ k → is[j]? = some i →
      os[k]? = some o → ∀ a ∈ i.allAddresses, o.2.va2pa a = cfg.physical a

theorem paged_fresh {r : Reader} (hv : r.vcache = fun _ => none)
    (hp : r.traceHasPa = cfg.sendVa2paMapping) : Paged cfg Writer.fresh r where
  sent _ h := absurd h Bool.false_ne_true
  known vp pp h := by simp [hv] at h
  nonzero _ h := absurd h Bool.false_ne_true
  traceHasPa := hp

/-- From when `Read` returns an instruction on, the reader translates its address and its data
addresses to what the recorder's page table gives, and to zero where it gives nothing. -/
theorem readTraceStates_writeTrace (env : ReaderEnv) (cfg : WriterConfig)
    (deflate : List UInt8 → List UInt8) (is : List Instr)
    (hsize : ∀ i ∈ is, 1 ≤ i.size ∧ i.size ≤ 15)
    (hnum : ∀ i ∈ is, i.addresses.length ≤ maxDynamicAddresses)
    (hsame : ∀ i ∈ is, ∀ j ∈ is, i.addr = j.addr → i.size = j.size)
    (htop : cfg.requiresIcachePerInsn = false → ∀ i ∈ is, BelowTopPage i.addr i.size)
    (hxed : ∀ i ∈ is, env.xedDecode cfg.arch32 (getCode cfg.code i.addr i.size) = true)
    (hzlib : ∀ bs, env.inflate (deflate bs) = bs) : TranslatesTrace env cfg deflate is := by
  have htr : ∀ i ∈ is, Traceable env cfg (firstSize is) i := fun i hi =>
    ⟨(hsize i hi).1, (hsize i hi).2, hnum i hi, firstSize_eq hi hsame, fun hp => htop hp i hi,
      hxed i hi⟩
  obtain ⟨w, hw, hall⟩ := instructions_readAll htr Writer.fresh
  let r : Reader := { Reader.fresh (w.output ++ otherBytes .end 0) with
    arch32 := cfg.arch32, traceHasPa := cfg.sendVa2paMapping }
  have hsynced : Synced cfg (firstSize is) Writer.fresh r := synced_fresh rfl rfl rfl rfl rfl
  obtain ⟨bs, ho, hl, -⟩ := hall r hsynced
  have hbs : w.output = bs := ho
  have hfuel : is.length < (bs ++ otherBytes .end 0).length + 1 := by
    simp only [List.length_append, length_otherBytes]
    omega
  obtain ⟨os, hos, htrs⟩ := @instructions_readStates env cfg (firstSize is) is htr _ _ hw r hsynced
    (paged_fresh rfl rfl) bs ho _ hfuel
  refine ⟨_, os, by simp only [writeTrace, hw, bind, Except.bind]; rfl, ?_, htrs.agrees, htrs.va2pa⟩
  have hinit : initStream env (headerBytes cfg.options ++ (if cfg.useCompression
      then deflate w.close.output else w.close.output)) = .ok r := by
    rw [initStream_headerBytes]
    by_cases hz : cfg.useCompression = true
    · simp only [WriterConfig.options, hz, if_true, hzlib]
      rfl
    · simp only [WriterConfig.options, hz]
      rfl
  simp only [readTraceStates, hinit, bind, Except.bind]
  rw [← hbs] at hos
  exact hos

theorem readTraceStates_writeTrace_nops :
    TranslatesTrace nopEnv (nopConfig false) id
      [nop 0x1fff 1 [] false, nop 0x2000 1 [0x5008, 0x6010] false, nop 0x1fff 1 [7] true] := by
  apply readTraceStates_writeTrace
  · decide
  · decide
  · decide
  · intro _ i hi
    simp only [List.mem_cons, List.not_mem_nil, or_false] at hi
    rcases hi with rfl | rfl | rfl <;> (rw [BelowTopPage]; decide)
  · intro i hi
    simp only [List.mem_cons, List.not_mem_nil, or_false] at hi
    rcases hi with rfl | rfl | rfl <;> rfl
  · exact fun _ => rfl

end Sniper.Sift
