import Mathlib.Algebra.Group.Nat.Defs
import Sniper.Sift.RoundTrip
set_option autoImplicit false

/-! What the reader's icache shows whenever an instruction is decoded. -/

namespace Sniper.Sift
open Sniper.Lib

variable {env : ReaderEnv} {cfg : WriterConfig} {sizeAt : Word → Nat}

/-- The reader without callbacks: a control record stops it. -/
def ReaderEnv.deaf (env : ReaderEnv) : ReaderEnv :=
  { env with control := fun _ _ _ => .error .recordSize }

namespace Reader

/-- The states in which the loop of `Read` begins a turn, over any number of calls. -/
inductive Reads (env : ReaderEnv) : Reader → Reader → Prop where
  | refl (r : Reader) : Reads env r r
  | turn {r r' r'' : Reader} {item : Item} : r.seenEnd = false →
      step env r = .ok (item, r') → Reads env r' r'' → Reads env r r''

theorem Reads.trans {r r' r'' : Reader} (h : Reads env r r') (h' : Reads env r' r'') :
    Reads env r r'' := by
  induction h with
  | refl r => exact h'
  | turn hend hstep _ ih => exact .turn hend hstep (ih h')

/-- The address and the size `finish` passes to `getStaticInstruction`, and the reader then. -/
def asks (r : Reader) (addr : Word) (size numAddresses : Nat) : Option (Reader × Word × Nat) :=
  if numAddresses ≤ maxDynamicAddresses then
    match readAddresses numAddresses { r with lastAddress := addr + BitVec.ofNat 64 size } with
    | .ok (_, r) => some (r, addr, size)
    | .error _ => none
  else none

/-- The static instruction the next turn asks for, when an instruction record is next. -/
def sought (r : Reader) : Option (Reader × Word × Nat) :=
  match r.input with
  | [] => none
  | byte :: _ =>
    if byte = 0 then none
    else if byte.toNat % 16 ≠ 0 then
      match r.readBytes 1 with
      | .ok (rec, r) =>
        r.asks r.lastAddress ((rec.getD 0 0).toNat % 16) ((rec.getD 0 0).toNat / 16 % 4)
      | .error _ => none
    else
      match r.readBytes 10 with
      | .ok (rec, r) =>
        r.asks (wordValue (rec.drop 2)) ((rec.getD 0 0).toNat / 16) ((rec.getD 1 0).toNat % 4)
      | .error _ => none

/-- Neither the last static instruction nor the cache of static instructions knows `addr`. -/
def misses (r : Reader) (addr : Word) : Prop :=
  (r.lastNext.filter fun q => (r.sinsts[q]?).any fun s => s.addr == addr) = none ∧
    r.scache addr = none

/-- A static instruction is decoded exactly on a miss. -/
theorem findStatic_misses {r : Reader} {addr : Word} (h : r.misses addr) (size : Nat) :
    r.findStatic env addr size = (r.decodeInstruction env addr size).bind fun s =>
      .ok (r.sinsts.length, { r with
        sinsts := r.sinsts ++ [s], scache := Function.update r.scache addr (some r.sinsts.length) }) := by
  rw [findStatic, h.1]
  simp only [h.2]
  rfl

theorem finish_asks {r r' : Reader} {item : Item} {addr : Word} {size n : Nat}
    {isBranch taken isPredicate executed : Bool}
    (h : r.finish env addr size n isBranch taken isPredicate executed = .ok (item, r')) :
    ∃ s sinst o, r.asks addr size n = some (s, addr, size) ∧
      s.getStaticInstruction env addr size = .ok (sinst, r') ∧ item = .insn o := by
  simp only [finish, except_bind_eq_ok, check_eq_ok, decide_eq_true_eq, pure_eq_ok] at h
  obtain ⟨_, hn, ⟨as, s⟩, hread, ⟨sinst, r₁⟩, hget, he⟩ := h
  cases he
  exact ⟨s, sinst, _, by rw [asks, if_pos hn, hread], hget, rfl⟩

/-- A turn asks for the static part of the instruction it returns, or it is a turn of an other
record. -/
theorem step_sought {r r' : Reader} {item : Item} (h : step env r = .ok (item, r')) :
    (∃ s addr size sinst o, r.sought = some (s, addr, size) ∧
      s.getStaticInstruction env addr size = .ok (sinst, r') ∧ item = .insn o) ∨
    (r.sought = none ∧ r.other env = .ok (item, r')) := by
  rw [step] at h
  rw [sought]
  cases hin : r.input with
  | nil =>
    rw [hin] at h
    cases h
  | cons byte bs =>
    rw [hin] at h
    simp only at h ⊢
    by_cases hz : byte = 0
    · rw [if_pos hz] at h
      exact .inr ⟨if_pos hz, h⟩
    · left
      rw [if_neg hz] at h ⊢
      by_cases hs : byte.toNat % 16 ≠ 0
      · rw [if_pos hs] at h ⊢
        simp only [simple, except_bind_eq_ok] at h
        obtain ⟨⟨rec, r₁⟩, hread, hfin⟩ := h
        rw [hread]
        obtain ⟨s, sinst, o, hasks, hget⟩ := finish_asks hfin
        exact ⟨s, _, _, sinst, o, hasks, hget⟩
      · rw [if_neg hs] at h ⊢
        simp only [extended, except_bind_eq_ok] at h
        obtain ⟨⟨rec, r₁⟩, hread, hfin⟩ := h
        rw [hread]
        obtain ⟨s, sinst, o, hasks, hget⟩ := finish_asks hfin
        exact ⟨s, _, _, sinst, o, hasks, hget⟩

/-- What the records that are not instructions leave alone. -/
structure Untouched (r r' : Reader) : Prop where
  sinsts : r'.sinsts = r.sinsts
  scache : r'.scache = r.scache
  seenEnd : r'.seenEnd = r.seenEnd

theorem readBytes_untouched {r r' : Reader} {n : Nat} {bs : List UInt8}
    (h : r.readBytes n = .ok (bs, r')) : Untouched r r' := by
  rw [readBytes] at h
  split at h
  · cases h
    exact ⟨rfl, rfl, rfl⟩
  · cases h

theorem Untouched.trans {r r' r'' : Reader} (h : Untouched r r') (h' : Untouched r' r'') :
    Untouched r r'' := 
  ⟨h'.sinsts.trans h.sinsts, h'.scache.trans h.scache, h'.seenEnd.trans h.seenEnd⟩

theorem readWord_untouched {r r' : Reader} {v : Word} (h : r.readWord = .ok (v, r')) :
    Untouched r r' := by
  simp only [readWord, except_bind_eq_ok, pure_eq_ok] at h
  obtain ⟨⟨bs, r₁⟩, hread, he⟩ := h
  cases he
  exact readBytes_untouched hread

theorem skip_untouched {r r' : Reader} {size : Nat} (h : r.skip size = .ok (.again, r')) :
    Untouched r r' := by
  simp only [skip, except_bind_eq_ok, pure_eq_ok] at h
  obtain ⟨⟨bs, r₁⟩, hread, he⟩ := h
  cases he
  exact readBytes_untouched hread

theorem payload_untouched {r r' : Reader} {t : Option RecOtherType} {size : Nat}
    (h : payload env.deaf t size r = .ok (.again, r')) : Untouched r r' := by
  unfold payload at h
  split at h
  · simp only [except_bind_eq_ok, pure_eq_ok] at h
    obtain ⟨_, -, he⟩ := h
    cases he
  · simp only [except_bind_eq_ok, pure_eq_ok] at h
    obtain ⟨_, -, ⟨a, r₁⟩, h₁, ⟨bs, r₂⟩, h₂, he⟩ := h
    cases he
    exact (readWord_untouched h₁).trans ((readBytes_untouched h₂).trans ⟨rfl, rfl, rfl⟩)
  · simp only [except_bind_eq_ok, pure_eq_ok] at h
    obtain ⟨⟨a, r₁⟩, h₁, ⟨bs, r₂⟩, h₂, he⟩ := h
    cases he
    exact (readWord_untouched h₁).trans ((readBytes_untouched h₂).trans ⟨rfl, rfl, rfl⟩)
  · simp only [except_bind_eq_ok, pure_eq_ok] at h
    obtain ⟨_, -, ⟨a, r₁⟩, h₁, ⟨b, r₂⟩, h₂, he⟩ := h
    cases he
    exact (readWord_untouched h₁).trans ((readWord_untouched h₂).trans ⟨rfl, rfl, rfl⟩)
  · split at h
    · simp [ReaderEnv.deaf, bind, Except.bind] at h
    · exact skip_untouched h
  · exact skip_untouched h

theorem other_untouched {r r' : Reader} (h : r.other env.deaf = .ok (.again, r')) :
    Untouched r r' := by
  simp only [other, except_bind_eq_ok] at h
  obtain ⟨⟨bs, r₁⟩, hread, hpay⟩ := h
  exact (readBytes_untouched hread).trans (payload_untouched hpay)

/-- What the reader does without a callback it does with any. -/
theorem payload_of_deaf {r r' : Reader} {t : Option RecOtherType} {size : Nat} {item : Item}
    (h : payload env.deaf t size r = .ok (item, r')) : payload env t size r = .ok (item, r') := by
  unfold payload at h ⊢
  split at h
  · exact h
  · exact h
  · exact h
  · exact h
  · split at h
    · simp [ReaderEnv.deaf, bind, Except.bind] at h
    · rename_i hc
      rw [if_neg hc]
      exact h
  · exact h

theorem step_of_deaf {r r' : Reader} {item : Item} (h : step env.deaf r = .ok (item, r')) :
    step env r = .ok (item, r') := by
  rw [step] at h ⊢
  split
  · rename_i hin
    rw [hin] at h
    cases h
  · rename_i byte bs hin
    rw [hin] at h
    simp only at h
    by_cases hz : byte = 0
    · rw [if_pos hz] at h ⊢
      simp only [other, except_bind_eq_ok] at h ⊢
      obtain ⟨x, hread, hpay⟩ := h
      exact ⟨x, hread, payload_of_deaf hpay⟩
    · rw [if_neg hz] at h ⊢
      exact h

theorem again_sought {r r' : Reader} (h : step env r = .ok (.again, r')) : r.sought = none := by
  rcases step_sought h with ⟨s, addr, size, sinst, o, -, -, hi⟩ | ⟨hn, -⟩
  · cases hi
  · exact hn

theorem again_untouched {r r' : Reader} (h : step env.deaf r = .ok (.again, r')) :
    Untouched r r' := by
  rcases step_sought h with ⟨s, addr, size, sinst, o, -, -, hi⟩ | ⟨-, ho⟩
  · cases hi
  · exact other_untouched ho

theorem Skips.of_deaf {bs : List UInt8} {r r' : Reader} (h : Skips env.deaf bs r r') :
    Skips env bs r r' := by
  induction h with
  | refl r => exact .refl r
  | turn hb hstep _ ih => exact .turn hb (fun rest => step_of_deaf (hstep rest)) ih

theorem Skips.untouched {bs : List UInt8} {r r' : Reader} (h : Skips env.deaf bs r r') :
    Untouched r r' := by
  induction h with
  | refl r => exact ⟨rfl, rfl, rfl⟩
  | @turn bs cs r r' r'' hb hstep _ ih =>
    have hone := again_untouched (hstep [])
    exact ⟨ih.sinsts.trans hone.sinsts, ih.scache.trans hone.scache, ih.seenEnd.trans hone.seenEnd⟩

theorem Skips.reads {bs : List UInt8} {r r' : Reader} (h : Skips env.deaf bs r r')
    (hend : r.seenEnd = false) (rest : List UInt8) :
    Reads env { r with input := bs ++ rest } { r' with input := rest } := by
  induction h with
  | refl r => exact .refl _
  | @turn bs cs r r' r'' hb hstep _ ih =>
    have hone := again_untouched (hstep [])
    rw [List.append_assoc]
    exact .turn hend (step_of_deaf (hstep (cs ++ rest))) (ih (hone.seenEnd.trans hend))

/-- Nothing is decoded while the reader skips. -/
theorem Reads.skips {bs rest : List UInt8} {r r' s : Reader} (h : Skips env bs r r')
    (hs : Reads env { r with input := bs ++ rest } s) :
    s.sought = none ∨ Reads env { r' with input := rest } s := by
  induction h with
  | refl r => exact .inr hs
  | @turn bs cs r r' r'' hb hstep _ ih =>
    have hone := hstep (cs ++ rest)
    rw [List.append_assoc] at hs
    cases hs with
    | refl => exact .inl (again_sought hone)
    | turn hend hturn hs' =>
      rw [hone] at hturn
      cases hturn
      exact ih hs'

theorem asks_append {r : Reader} {as : List Word} {rest : List UInt8} (addr : Word) (size : Nat)
    (ha : as.length ≤ maxDynamicAddresses) (h : r.input = as.flatMap wordBytes ++ rest) :
    r.asks addr size as.length =
      some ({ r with input := rest, lastAddress := addr + BitVec.ofNat 64 size }, addr, size) := by
  have hread := readAddresses_append as
    (r := { r with lastAddress := addr + BitVec.ofNat 64 size }) h
  rw [asks, if_pos ha, hread]

theorem sought_instruction {r : Reader} {i : Instr} {rest : List UInt8}
    (hl : r.lastAddress = i.addr) (h1 : 1 ≤ i.size) (h15 : i.size ≤ 15)
    (ha : i.addresses.length ≤ maxDynamicAddresses)
    (h : r.input = instructionBytes i ++ (i.addresses.flatMap wordBytes ++ rest)) :
    r.sought = some ({ r with
      input := rest, lastAddress := i.addr + BitVec.ofNat 64 i.size }, i.addr, i.size) := by
  obtain ⟨b, hbyte, hne, hsize, hnum, -, -⟩ := instructionBytes_fields h1 h15 ha
  have hsz : b.toNat % 16 ≠ 0 := by omega
  have hasks := asks_append (r := { r with input := i.addresses.flatMap wordBytes ++ rest })
    i.addr i.size ha rfl
  rw [hbyte] at h
  have hread := readBytes_append (n := 1) h rfl
  rw [sought, h]
  simp only [List.singleton_append]
  rw [if_neg hne, if_pos hsz, hread]
  simp only [List.getD_cons_zero, hsize, hnum, hl]
  rw [hl] at hasks
  exact hasks

theorem sought_instructionExt {r : Reader} {i : Instr} {rest : List UInt8}
    (h1 : 1 ≤ i.size) (h15 : i.size ≤ 15) (ha : i.addresses.length ≤ maxDynamicAddresses)
    (h : r.input = instructionExtBytes i ++ (i.addresses.flatMap wordBytes ++ rest)) :
    r.sought = some ({ r with
      input := rest, lastAddress := i.addr + BitVec.ofNat 64 i.size }, i.addr, i.size) := by
  obtain ⟨c, b, hbytes, hne, hsz, hsize, hnum, -, -, -, -⟩ := instructionExtBytes_fields h1 h15 ha
  have hsz' : ¬c.toNat % 16 ≠ 0 := by omega
  have hasks := asks_append (r := { r with input := i.addresses.flatMap wordBytes ++ rest })
    i.addr i.size ha rfl
  rw [hbytes] at h
  have hread := readBytes_append (n := 10) h (by simp)
  rw [sought, h]
  simp only [List.cons_append, if_neg hne, if_neg hsz'] at hread ⊢
  simp only [hread, List.getD_cons_zero, List.getD_cons_succ, List.drop_succ_cons, List.drop_zero,
    wordValue_wordBytes, hsize, hnum]
  exact hasks

end Reader

open Reader Writer

@[simp] theorem Writer.sendRecord_icache (w : Writer) (i : Instr) :
    (w.sendRecord i).icache = w.icache := by
  rw [sendRecord]
  split <;> rfl

@[simp] theorem Writer.sendRecord_lastAddress (w : Writer) (i : Instr) :
    (w.sendRecord i).lastAddress = i.addr + BitVec.ofNat 64 i.size := by
  rw [sendRecord]
  split
  · rename_i hs
    simp only [Bool.and_eq_true, decide_eq_true_eq] at hs
    rw [hs.1]
  · rfl

/-- Whichever record an instruction takes, it asks for the code at its address. -/
theorem sendRecord_sought {w : Writer} {r : Reader} {i : Instr}
    (h : r.lastAddress = w.lastAddress) (h1 : 1 ≤ i.size) (h15 : i.size ≤ 15)
    (ha : i.addresses.length ≤ maxDynamicAddresses) :
    ∃ bs, (w.sendRecord i).output = w.output ++ bs ∧ ∀ rest,
      sought { r with input := bs ++ rest } = some ({ r with
        input := rest, lastAddress := i.addr + BitVec.ofNat 64 i.size }, i.addr, i.size) := by
  by_cases hs : i.addr = w.lastAddress ∧ i.isPredicate = false
  · refine ⟨instructionBytes i ++ i.addresses.flatMap wordBytes, by simp [sendRecord, hs, write],
      fun rest => ?_⟩
    exact sought_instruction (h.trans hs.1.symm) h1 h15 ha (List.append_assoc ..)
  · have hs' : (decide (i.addr = w.lastAddress) && !i.isPredicate) = false := by
      simpa using hs
    refine ⟨instructionExtBytes i ++ i.addresses.flatMap wordBytes, by simp [sendRecord, hs', write],
      fun rest => ?_⟩
    exact sought_instructionExt h1 h15 ha (List.append_assoc ..)

/-- Reader and writer in step, with the addresses `done` written so far: each of them is among the
static instructions. -/
structure Caught (cfg : WriterConfig) (sizeAt : Word → Nat) (done : List Word) (w : Writer)
    (r : Reader) : Prop where
  synced : Synced cfg sizeAt w r
  variableSent : cfg.requiresIcachePerInsn = true → ∀ a ∈ done, w.icache a = true
  cached : ∀ a, r.scache a ≠ none ↔ a ∈ done
  listed : ∀ (q : Nat) (s : StaticInstruction), r.sinsts[q]? = some s → s.addr ∈ done

theorem Caught.not_mem {done : List Word} {w : Writer} {r : Reader} {a : Word}
    (h : Caught cfg sizeAt done w r) (ha : r.scache a = none) : a ∉ done :=
  fun hm => (h.cached a).mpr hm ha

theorem Caught.link {done : List Word} {w : Writer} {r : Reader}
    (h : Caught cfg sizeAt done w r) (q : Nat) : Caught cfg sizeAt done w (r.link q) where
  synced := h.synced.link q
  variableSent := h.variableSent
  cached := h.cached
  listed k s' hs' := by
    obtain ⟨s, hs, ha, -⟩ := some_of_link hs'
    rw [ha]
    exact h.listed k s hs

/-- An address that is known already may be written again. -/
theorem Caught.again {done : List Word} {w : Writer} {r : Reader} {a : Word}
    (h : Caught cfg sizeAt done w r) (ha : a ∈ done) : Caught cfg sizeAt (a :: done) w r where
  synced := h.synced
  variableSent hv b hb := h.variableSent hv b (by
    rcases List.mem_cons.mp hb with rfl | hb
    · exact ha
    · exact hb)
  cached b := by
    rw [h.cached, List.mem_cons]
    constructor
    · exact .inr
    · rintro (rfl | hb)
      · exact ha
      · exact hb
  listed q s hs := List.mem_cons_of_mem a (h.listed q s hs)

theorem Caught.add {done : List Word} {w : Writer} {r : Reader} {s : StaticInstruction}
    (h : Caught cfg sizeAt done w r) (hs : s.size = sizeAt s.addr)
    (hv : cfg.requiresIcachePerInsn = true → w.icache s.addr = true) :
    Caught cfg sizeAt (s.addr :: done) w { r with
      sinsts := r.sinsts ++ [s]
      scache := Function.update r.scache s.addr (some r.sinsts.length) } where
  synced := h.synced.add hs
  variableSent hp a ha := by
    rcases List.mem_cons.mp ha with rfl | ha
    · exact hv hp
    · exact h.variableSent hp a ha
  cached a := by
    by_cases ha : a = s.addr
    · simp [ha]
    · simp only [Function.update_of_ne ha, List.mem_cons, ha, false_or]
      exact h.cached a
  listed q t ht := by
    rcases List.mem_append.mp (List.mem_of_getElem? ht) with hm | hm
    · obtain ⟨k, hk⟩ := List.getElem?_of_mem hm
      exact List.mem_cons_of_mem _ (h.listed k t hk)
    · rw [List.mem_singleton.mp hm]
      exact List.mem_cons_self

/-- After a static instruction is found or made, its address is among the known ones. -/
theorem findStatic_caught {done : List Word} {w : Writer} {r r' : Reader} {addr : Word}
    {size q : Nat} (h : Caught cfg sizeAt done w r) (hf : addr ∉ done → sizeAt addr = size)
    (hv : cfg.requiresIcachePerInsn = true → w.icache addr = true)
    (hget : r.findStatic env addr size = .ok (q, r')) :
    Caught cfg sizeAt (addr :: done) w r' ∧ r'.input = r.input ∧ r'.icache = r.icache := by
  rw [findStatic] at hget
  generalize hhit : (r.lastNext.filter fun q => (r.sinsts[q]?).any fun s => s.addr == addr) = hit
    at hget
  cases hit with
  | some p =>
    simp only [pure_eq_ok] at hget
    cases hget
    rw [Option.filter_eq_some_iff] at hhit
    obtain ⟨s, hs, hsa⟩ := (Option.any_eq_true _ _).mp hhit.2
    have hsa' : s.addr = addr := eq_of_beq hsa
    exact ⟨h.again (hsa' ▸ h.listed _ s hs), rfl, rfl⟩
  | none =>
    cases hcache : r.scache addr with
    | some p =>
      simp only [hcache, except_bind_eq_ok, pure_eq_ok] at hget
      obtain ⟨_, -, he⟩ := hget
      cases he
      exact ⟨h.again ((h.cached addr).mp (by rw [hcache]; simp)), rfl, rfl⟩
    | none =>
      simp only [hcache, except_bind_eq_ok, pure_eq_ok, decodeInstruction] at hget
      obtain ⟨s, ⟨data, -, _, -, hs⟩, he⟩ := hget
      cases hs
      cases he
      exact ⟨h.add (s := ⟨addr, size, data, none⟩) (hf (h.not_mem hcache)).symm hv, rfl, rfl⟩

theorem getStaticInstruction_caught {done : List Word} {w : Writer} {r r' : Reader} {addr : Word}
    {size : Nat} {sinst : StaticInstruction} (h : Caught cfg sizeAt done w r)
    (hf : addr ∉ done → sizeAt addr = size)
    (hv : cfg.requiresIcachePerInsn = true → w.icache addr = true)
    (hget : r.getStaticInstruction env addr size = .ok (sinst, r')) :
    Caught cfg sizeAt (addr :: done) w r' ∧ r'.input = r.input ∧ r'.icache = r.icache := by
  simp only [getStaticInstruction, except_bind_eq_ok] at hget
  obtain ⟨⟨q, r₁⟩, hfind, hlast⟩ := hget
  obtain ⟨hcaught, hin⟩ := findStatic_caught h hf hv hfind
  split at hlast
  · rw [pure_eq_ok] at hlast
    cases hlast
    exact ⟨hcaught.link q, hin⟩
  · cases hlast

namespace Writer

/-- The writer only appends. -/
theorem sendIcachePage_output (w : Writer) (base : Word) :
    w.output <+: (w.sendIcachePage cfg base).output := by
  rw [sendIcachePage]
  split
  · exact List.prefix_rfl
  · exact List.prefix_append _ _

theorem sendIcachePages_output {last base : Word} {fuel : Nat} {w w' : Writer}
    (h : w.sendIcachePages cfg last fuel base = .ok w') : w.output <+: w'.output := by
  induction fuel generalizing base w with
  | zero => cases h
  | succ fuel ih =>
    rw [sendIcachePages] at h
    split at h
    · exact (sendIcachePage_output w base).trans (ih h)
    · cases h
      exact List.prefix_rfl

theorem sendIcache_output {addr : Word} {size : Nat} {w w' : Writer}
    (h : w.sendIcache cfg addr size = .ok w') : w.output <+: w'.output := by
  rw [sendIcache] at h
  split at h
  · cases h
    rw [sendIcacheVariable]
    split
    · exact List.prefix_rfl
    · exact List.prefix_append _ _
  · exact sendIcachePages_output h

theorem sendVa2pa_output (w : Writer) (va : Word) : w.output <+: (w.sendVa2pa cfg va).output := by
  rw [sendVa2pa]
  split
  · exact List.prefix_rfl
  · simp only
    split
    · exact List.prefix_rfl
    · split
      · exact List.prefix_rfl
      · exact List.prefix_append _ _

theorem foldl_sendVa2pa_output (as : List Word) (w : Writer) :
    w.output <+: (as.foldl (sendVa2pa cfg) w).output := by
  induction as generalizing w with
  | nil => exact List.prefix_rfl
  | cons a as ih => exact (sendVa2pa_output w a).trans (ih (w.sendVa2pa cfg a))

theorem sendRecord_output (w : Writer) (i : Instr) : w.output <+: (w.sendRecord i).output := by
  rw [sendRecord]
  split
  · exact List.prefix_append _ _
  · exact List.prefix_append _ _

/-- A call that does not fail has made its two assertions and gone through its four parts. -/
theorem instruction_ok {w w' : Writer} {i : Instr} (h : w.instruction cfg i = .ok w') :
    i.size ≤ 15 ∧ i.addresses.length ≤ maxDynamicAddresses ∧
    ∃ w₁, w.sendIcache cfg i.addr i.size = .ok w₁ ∧
      w' = (i.addresses.foldl (sendVa2pa cfg) (w₁.sendVa2pa cfg i.addr)).sendRecord i := by
  simp only [instruction, except_bind_eq_ok, check_eq_ok, decide_eq_true_eq, pure_eq_ok] at h
  obtain ⟨_, hsize, _, hnum, w₁, hok, he⟩ := h
  exact ⟨Nat.le_of_lt_succ hsize, hnum, w₁, hok, he.symm⟩

theorem instruction_output {w w' : Writer} {i : Instr} (h : w.instruction cfg i = .ok w') :
    w.output <+: w'.output := by
  obtain ⟨-, -, w₁, hok, rfl⟩ := instruction_ok h
  exact (sendIcache_output hok).trans ((sendVa2pa_output w₁ i.addr).trans
    ((foldl_sendVa2pa_output i.addresses _).trans (sendRecord_output _ i)))

theorem instructions_output {is : List Instr} {w w' : Writer}
    (h : w.instructions cfg is = .ok w') : w.output <+: w'.output := by
  induction is generalizing w with
  | nil =>
    cases h
    exact List.prefix_rfl
  | cons i is ih =>
    simp only [instructions, except_bind_eq_ok] at h
    obtain ⟨w₁, h₁, hrest⟩ := h
    exact (instruction_output h₁).trans (ih hrest)

end Writer

/-- An instruction whose code the page loop has sent lies below the topmost page, or wraps. -/
theorem belowTopPage_of_ok {addr : Word} {size : Nat} {w w' : Writer}
    (hp : cfg.requiresIcachePerInsn = false) (h1 : 1 ≤ size) (hwrap : addr.toNat + size ≤ 2 ^ 64)
    (h : w.sendIcache cfg addr size = .ok w') : BelowTopPage addr size := by
  by_contra hb
  have hlast := toNat_lastPage h1 hwrap
  rw [sendIcache, if_neg (Bool.eq_false_iff.mp hp), sendIcachePages_topPage
    (and_icachePageMask_aligned addr) (by simp only [BelowTopPage, icacheSize] at hb hlast ⊢; omega)] at h
  cases h

/-- In page mode no call's code runs past the end of the address space. -/
def NoWrap (cfg : WriterConfig) (i : Instr) : Prop :=
  cfg.requiresIcachePerInsn = false → i.addr.toNat + i.size ≤ 2 ^ 64

/-- After the icache records of a call the reader has its code, unless it decoded the address
before. -/
theorem sendIcache_caught {done : List Word} {i : Instr} {w w₁ : Writer} (h1 : 1 ≤ i.size)
    (h15 : i.size ≤ 15) (hwrap : NoWrap cfg i) (hf : i.addr ∉ done → sizeAt i.addr = i.size)
    (hv : cfg.requiresIcachePerInsn = true → ∀ a ∈ done, w.icache a = true)
    (hok : w.sendIcache cfg i.addr i.size = .ok w₁) :
    Sends env cfg sizeAt w w₁ ∧ (cfg.requiresIcachePerInsn = true → w₁.icache i.addr = true) ∧
      ∀ w' r, Sends env cfg sizeAt w₁ w' → Synced cfg sizeAt w' r → i.addr ∉ done →
        ∀ k < i.size, Shows cfg.code r.icache (i.addr + BitVec.ofNat 64 k) := by
  by_cases hp : cfg.requiresIcachePerInsn = true
  · rw [sendIcache, if_pos hp] at hok
    cases hok
    by_cases hd : i.addr ∈ done
    · have hsent := hv hp i.addr hd
      rw [sendIcacheVariable, if_pos hsent]
      exact ⟨Sends.refl w, fun _ => hsent, fun _ _ _ _ hn => absurd hd hn⟩
    · obtain ⟨hsends, hin⟩ := sendIcacheVariable_sends w (by omega) hp (hf hd)
      refine ⟨hsends, fun _ => hin, fun w' r hw hr _ k hk => hr.sent _ (hw.icache _ hin) k ?_⟩
      rw [WriterConfig.entrySize, if_pos hp, hf hd]
      exact hk
  · have hp' := Bool.eq_false_iff.mpr hp
    obtain ⟨w₂, hok₂, hsends, hcode⟩ := sendIcache_pages w hp' h1
      (belowTopPage_of_ok hp' h1 (hwrap hp') hok)
    rw [hok] at hok₂
    cases hok₂
    exact ⟨hsends, fun h => absurd h hp, fun w' r hw hr _ => hcode w' r hw hr⟩

theorem Caught.sends {done : List Word} {w w' : Writer} {r : Reader}
    (h : Caught cfg sizeAt done w r) (hs : Sends env.deaf cfg sizeAt w w') :
    ∃ bs r', w'.output = w.output ++ bs ∧ Skips env.deaf bs r r' ∧
      Caught cfg sizeAt done w' r' := by
  obtain ⟨bs, r', ho, hk, hsync⟩ := hs.follows r h.synced
  have hu := hk.untouched
  refine ⟨bs, r', ho, hk, hsync, fun hp a ha => hs.icache a (h.variableSent hp a ha), ?_, ?_⟩
  · rw [hu.scache]
    exact h.cached
  · rw [hu.sinsts]
    exact h.listed

/-- The record of a call leaves both sides at its end. -/
theorem Caught.record {done : List Word} {w : Writer} {r : Reader} (h : Caught cfg sizeAt done w r)
    (i : Instr) (rest : List UInt8) : Caught cfg sizeAt done (w.sendRecord i) { r with
      input := rest, lastAddress := i.addr + BitVec.ofNat 64 i.size } where
  synced := {
    lastAddress := (sendRecord_lastAddress w i).symm
    seenEnd := h.synced.seenEnd
    arch32 := h.synced.arch32
    sent := by
      rw [sendRecord_icache]
      exact h.synced.sent
    sizes := h.synced.sizes
    scache := h.synced.scache }
  variableSent := by
    rw [sendRecord_icache]
    exact h.variableSent
  cached := h.cached
  listed := h.listed

namespace Reader

/-- What the next turn decodes is in the icache, byte by byte as in the program. -/
def DecodesShown (cfg : WriterConfig) (s : Reader) : Prop :=
  ∀ r addr size, s.sought = some (r, addr, size) → r.misses addr →
    ∀ k < size, Shows cfg.code r.icache (addr + BitVec.ofNat 64 k)

theorem decodesShown_of_none {s : Reader} (h : s.sought = none) : s.DecodesShown cfg :=
  fun r addr size hs => by
    rw [h] at hs
    cases hs

end Reader

/-- The record of a call asks for the code of the call, and a reader that gets over it is in step
again, its icache as before. -/
theorem record_turn {done : List Word} {w : Writer} {r : Reader} {i : Instr}
    (h : Caught cfg sizeAt done w r) (h1 : 1 ≤ i.size) (h15 : i.size ≤ 15)
    (hnum : i.addresses.length ≤ maxDynamicAddresses)
    (hf : i.addr ∉ done → sizeAt i.addr = i.size)
    (hv : cfg.requiresIcachePerInsn = true → w.icache i.addr = true) :
    ∃ bs, (w.sendRecord i).output = w.output ++ bs ∧ ∀ rest,
      sought { r with input := bs ++ rest } = some ({ r with
        input := rest, lastAddress := i.addr + BitVec.ofNat 64 i.size }, i.addr, i.size) ∧
      ∀ item r', step env { r with input := bs ++ rest } = .ok (item, r') →
        Caught cfg sizeAt (i.addr :: done) (w.sendRecord i) r' ∧ r'.input = rest ∧
        r'.icache = r.icache := by
  obtain ⟨bs, ho, hsought⟩ := sendRecord_sought h.synced.lastAddress h1 h15 hnum
  refine ⟨bs, ho, fun rest => ⟨hsought rest, fun item r' hturn => ?_⟩⟩
  rcases step_sought hturn with ⟨r₁, addr, size, sinst, o, hsome, hget, -⟩ | ⟨hn, -⟩
  · rw [hsought rest, Option.some.injEq] at hsome
    cases hsome
    exact getStaticInstruction_caught (h.record i rest) hf (by rwa [sendRecord_icache]) hget
  · rw [hsought rest] at hn
    cases hn

theorem sendAddresses_sends (w : Writer) (i : Instr) :
    Sends env cfg sizeAt w (i.addresses.foldl (sendVa2pa cfg) (w.sendVa2pa cfg i.addr)) :=
  (sendVa2pa_sends w i.addr).trans (foldl_sendVa2pa_sends i.addresses _)

/-- The reader decodes at most the instruction of the call, with its code in the icache, and is in
step again behind it. -/
theorem instruction_reads {done : List Word} {w w' : Writer} {r : Reader} {i : Instr}
    (h : Caught cfg sizeAt done w r) (h1 : 1 ≤ i.size) (hwrap : NoWrap cfg i)
    (hf : i.addr ∉ done → sizeAt i.addr = i.size) (hw : w.instruction cfg i = .ok w') :
    ∃ bs, w'.output = w.output ++ bs ∧ ∀ rest s, Reads env { r with input := bs ++ rest } s →
      s.DecodesShown cfg ∨
      ∃ r', r'.input = rest ∧ Caught cfg sizeAt (i.addr :: done) w' r' ∧ Reads env r' s := by
  obtain ⟨h15, hnum, w₁, hok, rfl⟩ := instruction_ok hw
  obtain ⟨hs₁, hv, hcode⟩ := sendIcache_caught h1 h15 hwrap hf h.variableSent hok
  have hs₂ : Sends env.deaf cfg sizeAt w₁ _ := sendAddresses_sends w₁ i
  obtain ⟨bs₁, r₂, ho₁, hk, h₂⟩ := h.sends (hs₁.trans hs₂)
  obtain ⟨bs₂, ho₂, hrec⟩ := record_turn h₂ h1 h15 hnum hf
    fun hp => hs₂.icache _ (hv hp)
  refine ⟨bs₁ ++ bs₂, by rw [ho₂, ho₁, List.append_assoc], fun rest s hreads => ?_⟩
  obtain ⟨hsought, hturn⟩ := hrec rest
  rw [List.append_assoc] at hreads
  rcases Reads.skips hk.of_deaf hreads with hn | hrest
  · exact .inl (decodesShown_of_none hn)
  · cases hrest with
    | refl =>
      left
      intro r₃ addr size hsome hmiss k hk'
      rw [hsought, Option.some.injEq] at hsome
      cases hsome
      exact hcode _ r₂ hs₂ h₂.synced (h₂.not_mem hmiss.2) k hk'
    | turn hend hstep hs' =>
      obtain ⟨hcaught, hin, -⟩ := hturn _ _ hstep
      exact .inr ⟨_, hin, hcaught, hs'⟩

/-- Over a sequence of calls, whatever is decoded is in the icache. -/
theorem instructions_read {is : List Instr} {done : List Word} {w w' : Writer} {r s : Reader}
    {bs rest : List UInt8} (h : Caught cfg sizeAt done w r) (hsize : ∀ i ∈ is, 1 ≤ i.size)
    (hwrap : ∀ i ∈ is, NoWrap cfg i)
    (hfirst : ∀ pre i post, is = pre ++ i :: post → (∀ j ∈ pre, j.addr ≠ i.addr) →
      i.addr ∉ done → sizeAt i.addr = i.size)
    (hw : w.instructions cfg is = .ok w') (ho : w'.output = w.output ++ bs)
    (hin : r.input = bs ++ rest) (hreads : Reads env r s) :
    s.DecodesShown cfg ∨
    ∃ done' r', r'.input = rest ∧ Caught cfg sizeAt done' w' r' ∧ Reads env r' s := by
  induction is generalizing done w r bs with
  | nil =>
    cases hw
    have hnil : bs = [] := by simpa using ho
    rw [hnil, List.nil_append] at hin
    exact .inr ⟨done, r, hin, h, hreads⟩
  | cons i is ih =>
    simp only [instructions, except_bind_eq_ok] at hw
    obtain ⟨w₁, hw₁, hw'⟩ := hw
    obtain ⟨bs₁, ho₁, hone⟩ := instruction_reads h (hsize i List.mem_cons_self)
      (hwrap i List.mem_cons_self)
      (hfirst [] i is rfl fun j hj => absurd hj List.not_mem_nil) hw₁
    obtain ⟨bs₂, ho₂⟩ := instructions_output hw'
    have hbs : bs = bs₁ ++ bs₂ := by
      rw [← ho₂, ho₁, List.append_assoc] at ho
      exact (List.append_cancel_left ho).symm
    have hr : { r with input := bs₁ ++ (bs₂ ++ rest) } = r := by
      rw [← List.append_assoc, ← hbs, ← hin]
    rcases hone (bs₂ ++ rest) s (by rw [hr]; exact hreads) with hd | ⟨r₁, hin₁, h₁, hreads₁⟩
    · exact .inl hd
    · refine ih h₁ (fun j hj => hsize j (List.mem_cons_of_mem i hj))
        (fun j hj => hwrap j (List.mem_cons_of_mem i hj)) ?_ hw' ho₂.symm hin₁ hreads₁
      intro pre j post he hpre hj
      refine hfirst (i :: pre) j post (by rw [he]; rfl) (fun k hk => ?_)
        fun hm => hj (List.mem_cons_of_mem _ hm)
      rcases List.mem_cons.mp hk with rfl | hk
      · exact fun hkj => hj (hkj ▸ List.mem_cons_self)
      · exact hpre k hk

theorem firstSize_append {pre post : List Instr} {i : Instr} (h : ∀ j ∈ pre, j.addr ≠ i.addr) :
    firstSize (pre ++ i :: post) i.addr = i.size := by
  have hnone : pre.find? (fun j => j.addr == i.addr) = none := by
    rw [List.find?_eq_none]
    intro j hj
    simpa using h j hj
  simp [firstSize, List.find?_append, hnone]

/-- Nothing is decoded at the end of the stream or behind it. -/
theorem reads_end {r s : Reader} (hin : r.input = otherBytes .end 0) (h : Reads env r s) :
    s.DecodesShown cfg := by
  have hstep : r.step env = .ok (.stop, { r with input := [], seenEnd := true }) :=
    step_end (by rw [hin, List.append_nil])
  cases h with
  | refl =>
    rcases step_sought hstep with ⟨r₁, addr, size, sinst, o, -, -, hi⟩ | ⟨hn, -⟩
    · cases hi
    · exact decodesShown_of_none hn
  | turn hend hturn hs =>
    rw [hstep] at hturn
    cases hturn
    cases hs with
    | refl => exact decodesShown_of_none rfl
    | turn hend' _ _ => cases hend'

/-- Whenever a reader of the trace of `is` decodes an instruction, all of its bytes are in the
icache and are the program's. -/
def DecodesProgram (env : ReaderEnv) (cfg : WriterConfig) (deflate : List UInt8 → List UInt8)
    (is : List Instr) : Prop :=
  ∀ file r s, writeTrace cfg deflate is = .ok file → initStream env file = .ok r →
    Reads env r s → s.DecodesShown cfg

theorem initStream_writeTrace {deflate : List UInt8 → List UInt8} {is : List Instr}
    {file : List UInt8} (hzlib : ∀ bs, env.inflate (deflate bs) = bs)
    (h : writeTrace cfg deflate is = .ok file) :
    ∃ w, Writer.fresh.instructions cfg is = .ok w ∧
      initStream env file = .ok { Reader.fresh (w.output ++ otherBytes .end 0) with
        arch32 := cfg.arch32, traceHasPa := cfg.sendVa2paMapping } := by
  simp only [writeTrace, except_bind_eq_ok, pure_eq_ok] at h
  obtain ⟨w, hw, rfl⟩ := h
  refine ⟨w, hw, ?_⟩
  rw [initStream_headerBytes]
  by_cases hz : cfg.useCompression = true
  · simp only [WriterConfig.options, hz, if_true, hzlib]
    rfl
  · simp only [WriterConfig.options, hz]
    rfl

theorem caught_fresh {r : Reader} (hl : r.lastAddress = 0) (he : r.seenEnd = false)
    (ha : r.arch32 = cfg.arch32) (hs : r.sinsts = []) (hc : r.scache = fun _ => none) :
    Caught cfg sizeAt [] Writer.fresh r where
  synced := synced_fresh hl he ha hs hc
  variableSent _ a h := absurd h List.not_mem_nil
  cached a := by simp [hc]
  listed q s h := by simp [hs] at h

theorem decodesProgram_of_noWrap {deflate : List UInt8 → List UInt8} {is : List Instr}
    (hsize : ∀ i ∈ is, 1 ≤ i.size) (hzlib : ∀ bs, env.inflate (deflate bs) = bs)
    (hwrap : ∀ i ∈ is, NoWrap cfg i) : DecodesProgram env cfg deflate is := by
  intro file r s hfile hinit hreads
  obtain ⟨w, hw, hinit'⟩ := initStream_writeTrace hzlib hfile
  rw [hinit] at hinit'
  cases hinit'
  have hfresh : Caught cfg (firstSize is) [] Writer.fresh
      { Reader.fresh (w.output ++ otherBytes .end 0) with
        arch32 := cfg.arch32, traceHasPa := cfg.sendVa2paMapping } :=
    caught_fresh rfl rfl rfl rfl rfl
  rcases instructions_read hfresh hsize hwrap (fun pre i post he hpre _ => by
    rw [he]
    exact firstSize_append hpre) hw (List.nil_append _).symm rfl hreads with hd | ⟨_, r', hin, _, hs⟩
  · exact hd
  · exact reads_end hin hs

/-! A call that wraps gets no page sent, and the topmost page never is. -/

namespace Reader

theorem Skips.input {bs : List UInt8} {r r' : Reader} (h : Skips env bs r r') (x : List UInt8) :
    ∃ y, Skips env bs { r with input := x } { r' with input := y } := by
  cases h with
  | refl => exact ⟨x, .refl _⟩
  | turn hb hstep hrest => exact ⟨r'.input, .turn hb hstep hrest⟩

/-- Where skipping some bytes leads is settled, apart from the input behind them. -/
theorem Skips.unique {bs : List UInt8} {r r' r'' : Reader} (h : Skips env bs r r')
    (h' : Skips env bs r r'') : ∃ x, r'' = { r' with input := x } := by
  induction h generalizing r'' with
  | refl r =>
    generalize hbs : ([] : List UInt8) = bs at h'
    cases h' with
    | refl => exact ⟨r.input, rfl⟩
    | turn hb _ _ =>
      have := congrArg List.length hbs
      simp only [List.length_nil, List.length_append] at this
      omega
  | @turn bs cs r r₁ r' hb hstep _ ih =>
    generalize hbs : bs ++ cs = ds at h'
    cases h' with
    | refl =>
      have := congrArg List.length hbs
      simp only [List.length_nil, List.length_append] at this
      omega
    | @turn bs' cs' _ r₂ _ hb' hstep' hrest =>
      have h₁ := hstep cs
      rw [hbs, hstep' cs'] at h₁
      simp only [Except.ok.injEq, Prod.mk.injEq, true_and] at h₁
      have hcs : cs' = cs := congrArg Reader.input h₁
      subst hcs
      obtain ⟨y, hy⟩ := hrest.input r₁.input
      have hr : { r₂ with input := r₁.input } = r₁ := by
        have := congrArg (fun r : Reader => { r with input := r₁.input }) h₁
        exact this
      rw [hr] at hy
      obtain ⟨x, hx⟩ := ih hy
      have := congrArg (fun r : Reader => { r with input := r''.input }) hx
      exact ⟨r''.input, this⟩

end Reader

/-- A sending step that does not send the topmost page. -/
def KeepsTop (env : ReaderEnv) (w w' : Writer) : Prop :=
  ∀ r : Reader, r.icache icachePageMask = none → ∃ bs r', w'.output = w.output ++ bs ∧
    Skips env bs r r' ∧ r'.icache icachePageMask = none

theorem KeepsTop.refl (w : Writer) : KeepsTop env w w :=
  fun r hr => ⟨[], r, (List.append_nil _).symm, Skips.refl r, hr⟩

theorem KeepsTop.trans {w w' w'' : Writer} (h : KeepsTop env w w') (h' : KeepsTop env w' w'') :
    KeepsTop env w w'' := fun r hr => by
  obtain ⟨bs, r', ho, hk, hr'⟩ := h r hr
  obtain ⟨cs, r'', ho', hk', hr''⟩ := h' r' hr'
  exact ⟨bs ++ cs, r'', by rw [ho', ho, List.append_assoc], hk.trans hk', hr''⟩

theorem sendIcachePage_keepsTop (w : Writer) {base : Word} (hb : base ≠ icachePageMask) :
    KeepsTop env w (w.sendIcachePage cfg base) := by
  rw [sendIcachePage]
  split
  · exact KeepsTop.refl w
  · intro r hr
    have hlen : 0 < (icacheBytes cfg base).length := by
      simp only [icacheBytes, List.length_append, length_otherBytes]
      omega
    refine ⟨icacheBytes cfg base, { r with
        icache := Function.update r.icache base
          (some ((getCode cfg.code base icacheSize).getD · 0)) }, rfl,
      Skips.of_step hlen fun rest => ?_, ?_⟩
    · exact step_icache (length_getCode cfg.code base icacheSize)
        (by simp [icacheBytes])
    · exact (Function.update_of_ne hb.symm _ _).trans hr

theorem sendIcachePages_keepsTop {last base : Word} {fuel : Nat} {w w' : Writer}
    (hlast : last.toNat < 2 ^ 64 - icacheSize)
    (h : w.sendIcachePages cfg last fuel base = .ok w') : KeepsTop env w w' := by
  induction fuel generalizing base w with
  | zero => cases h
  | succ fuel ih =>
    rw [sendIcachePages] at h
    split at h
    · rename_i hle
      have hb : base ≠ icachePageMask := by
        rintro rfl
        have : icachePageMask.toNat ≤ last.toNat := hle
        have htop : icachePageMask.toNat = 2 ^ 64 - icacheSize := by decide
        omega
      exact (sendIcachePage_keepsTop w hb).trans (ih h)
    · cases h
      exact KeepsTop.refl _

theorem sendVa2pa_keepsTop (w : Writer) (va : Word) : KeepsTop env w (w.sendVa2pa cfg va) := by
  rw [sendVa2pa]
  split
  · exact KeepsTop.refl w
  · simp only
    split
    · exact KeepsTop.refl w
    · split
      · exact KeepsTop.refl w
      · intro r hr
        refine ⟨va2paBytes (va / pageSize) (cfg.va2paLookup (va / pageSize)), { r with
            vcache := Function.update r.vcache (va / pageSize)
              (some (cfg.va2paLookup (va / pageSize))) }, rfl,
          Skips.of_step (by simp [va2paBytes]) fun rest => ?_, hr⟩
        exact step_va2pa (by simp [va2paBytes])

theorem foldl_sendVa2pa_keepsTop (as : List Word) (w : Writer) :
    KeepsTop env w (as.foldl (sendVa2pa cfg) w) := by
  induction as generalizing w with
  | nil => exact KeepsTop.refl w
  | cons a as ih => exact (sendVa2pa_keepsTop w a).trans (ih (w.sendVa2pa cfg a))

theorem sendAddresses_keepsTop (w : Writer) (i : Instr) :
    KeepsTop env w (i.addresses.foldl (sendVa2pa cfg) (w.sendVa2pa cfg i.addr)) :=
  (sendVa2pa_keepsTop w i.addr).trans (foldl_sendVa2pa_keepsTop i.addresses _)

/-- The pages of an instruction that does not wrap lie below the topmost one. -/
theorem sendIcache_keepsTop {addr : Word} {size : Nat} {w w' : Writer}
    (hp : cfg.requiresIcachePerInsn = false) (h1 : 1 ≤ size) (hwrap : addr.toNat + size ≤ 2 ^ 64)
    (h : w.sendIcache cfg addr size = .ok w') : KeepsTop env w w' := by
  have hb := belowTopPage_of_ok hp h1 hwrap h
  have hlast := toNat_lastPage h1 hwrap
  rw [sendIcache, if_neg (Bool.eq_false_iff.mp hp)] at h
  refine sendIcachePages_keepsTop ?_ h
  simp only [BelowTopPage, icacheSize] at hb hlast ⊢
  omega

/-- No page is sent for an instruction that wraps: the first page is above the last. -/
theorem sendIcache_wraps {addr : Word} {size : Nat} (w : Writer)
    (hp : cfg.requiresIcachePerInsn = false) (h15 : size ≤ 15) (hwrap : 2 ^ 64 < addr.toNat + size) :
    w.sendIcache cfg addr size = .ok w := by
  have hend : (addr + BitVec.ofNat 64 size - 1).toNat = addr.toNat + size - 1 - 2 ^ 64 := by
    bv_omega
  have hlt : ¬(addr &&& icachePageMask).toNat ≤
      ((addr + BitVec.ofNat 64 size - 1) &&& icachePageMask).toNat := by
    rw [toNat_and_icachePageMask, toNat_and_icachePageMask, hend, icacheSize]
    omega
  rw [sendIcache, if_neg (Bool.eq_false_iff.mp hp), sendIcachePages,
    if_neg (show ¬addr &&& icachePageMask ≤ _ from hlt)]

theorem Caught.sends_keepsTop {done : List Word} {w w' : Writer} {r : Reader}
    (h : Caught cfg sizeAt done w r) (hs : Sends env.deaf cfg sizeAt w w')
    (ht : KeepsTop env.deaf w w') (htop : r.icache icachePageMask = none) :
    ∃ bs r', w'.output = w.output ++ bs ∧ Skips env.deaf bs r r' ∧
      Caught cfg sizeAt done w' r' ∧ r'.icache icachePageMask = none := by
  obtain ⟨bs, r', ho, hk, hr'⟩ := h.sends hs
  obtain ⟨bs', r'', ho', hk', htop'⟩ := ht r htop
  have hbs : bs' = bs := List.append_cancel_left (ho'.symm.trans ho)
  subst hbs
  obtain ⟨x, rfl⟩ := hk'.unique hk
  exact ⟨bs', _, ho, hk, hr', htop'⟩

/-- An address that was not written yet misses. -/
theorem Caught.misses {done : List Word} {w : Writer} {r : Reader} {a : Word}
    (h : Caught cfg sizeAt done w r) (ha : a ∉ done) : r.misses a := by
  refine ⟨?_, ?_⟩
  · rw [Option.filter_eq_none_iff]
    intro q _ hq
    obtain ⟨s, hs, hsa⟩ := (Option.any_eq_true _ _).mp hq
    have hsa' : s.addr = a := eq_of_beq hsa
    exact ha (hsa' ▸ h.listed q s hs)
  · by_contra hc
    exact ha ((h.cached a).mp hc)

/-- The first byte of an instruction that wraps is in the topmost page. -/
theorem page_of_wraps {addr : Word} {size : Nat} (h15 : size ≤ 15)
    (hwrap : 2 ^ 64 < addr.toNat + size) :
    (addr + BitVec.ofNat 64 0) &&& icachePageMask = icachePageMask := by
  apply BitVec.eq_of_toNat_eq
  have htop : icachePageMask.toNat = 2 ^ 64 - icacheSize := by decide
  have := addr.isLt
  rw [toNat_and_icachePageMask, htop, BitVec.add_zero]
  simp only [icacheSize]
  omega

/-- A reader that is at the bytes of sending steps gets over them. -/
theorem Reader.Skips.reads_input {bs cs : List UInt8} {r r' : Reader} (h : Skips env.deaf bs r r')
    (hend : r.seenEnd = false) (hin : r.input = bs ++ cs) : Reads env r { r' with input := cs } := by
  have hreads := h.reads hend cs
  rw [← hin] at hreads
  exact hreads

/-- When a call wraps, the reader comes to decode code it does not have. -/
theorem reaches_wrap {is : List Instr} {done : List Word} {w w' : Writer} {r : Reader}
    {bs rest : List UInt8} (hp : cfg.requiresIcachePerInsn = false)
    (h : Caught cfg sizeAt done w r) (htop : r.icache icachePageMask = none)
    (hdone : ∀ a ∈ done, a.toNat + sizeAt a ≤ 2 ^ 64) (hsize : ∀ i ∈ is, 1 ≤ i.size)
    (hsame : ∀ i ∈ is, sizeAt i.addr = i.size)
    (hxed : ∀ i ∈ is, env.xedDecode cfg.arch32 (getCode cfg.code i.addr i.size) = true)
    (hw : w.instructions cfg is = .ok w') (hwrap : ∃ i ∈ is, 2 ^ 64 < i.addr.toNat + i.size)
    (ho : w'.output = w.output ++ bs) (hin : r.input = bs ++ rest) :
    ∃ s, Reads env r s ∧ ¬s.DecodesShown cfg := by
  induction is generalizing done w r bs with
  | nil =>
    obtain ⟨i, hi, -⟩ := hwrap
    exact absurd hi List.not_mem_nil
  | cons i is ih =>
    have h1 := hsize i List.mem_cons_self
    have hi := hsame i List.mem_cons_self
    simp only [instructions, except_bind_eq_ok] at hw
    obtain ⟨w₃, hw₁, hw'⟩ := hw
    obtain ⟨h15, hnum, w₁, hok, rfl⟩ := instruction_ok hw₁
    have hs₂ : Sends env.deaf cfg sizeAt w₁ _ := sendAddresses_sends w₁ i
    have ht₂ : KeepsTop env.deaf w₁ (i.addresses.foldl (sendVa2pa cfg) (w₁.sendVa2pa cfg i.addr)) :=
      sendAddresses_keepsTop w₁ i
    obtain ⟨bs₃, ho₃⟩ := instructions_output hw'
    have hnone : cfg.requiresIcachePerInsn = true → ∀ a : Word, w₁.icache a = true := fun h => by
      rw [hp] at h
      cases h
    by_cases hlt : 2 ^ 64 < i.addr.toNat + i.size
    · rw [sendIcache_wraps w hp h15 hlt] at hok
      cases hok
      obtain ⟨bs₁, r₂, ho₁, hk, h₂, htop₂⟩ := h.sends_keepsTop hs₂ ht₂ htop
      obtain ⟨bs₂, ho₂, hsought⟩ := sendRecord_sought h₂.synced.lastAddress h1 h15 hnum
      have hbs : bs = bs₁ ++ (bs₂ ++ bs₃) := by
        rw [← ho₃, ho₂, ho₁, List.append_assoc, List.append_assoc] at ho
        exact (List.append_cancel_left ho).symm
      have hreads := hk.reads_input h.synced.seenEnd
        (show r.input = bs₁ ++ (bs₂ ++ (bs₃ ++ rest)) by simp [hin, hbs])
      refine ⟨_, hreads, fun hshown => ?_⟩
      have hd : i.addr ∉ done := fun hm => by
        have := hdone _ hm
        omega
      obtain ⟨page, hpage, -⟩ := hshown _ _ _ (hsought (bs₃ ++ rest)) (h₂.misses hd) 0 (by omega)
      rw [page_of_wraps h15 hlt, htop₂] at hpage
      cases hpage
    · have hle : i.addr.toNat + i.size ≤ 2 ^ 64 := by omega
      have hbelow := belowTopPage_of_ok hp h1 hle hok
      obtain ⟨w₁', hok', hs₁, hcode⟩ := sendIcache_pages w hp h1
        hbelow
      rw [hok] at hok'
      cases hok'
      obtain ⟨bs₁, r₂, ho₁, hk, h₂, htop₂⟩ := h.sends_keepsTop (hs₁.trans hs₂)
        ((sendIcache_keepsTop hp h1 hle hok).trans ht₂) htop
      have htr : Traceable env cfg sizeAt i :=
        ⟨h1, h15, hnum, hi, fun _ => hbelow, hxed i List.mem_cons_self⟩
      obtain ⟨bs₂, ho₂, -, hstep⟩ := sendRecord_step h₂.synced htr (hcode _ r₂ hs₂ h₂.synced)
      obtain ⟨bs₂', ho₂', hrec⟩ := record_turn h₂ h1 h15 hnum (fun _ => hi)
        fun hp' => hs₂.icache _ (hnone hp' _)
      have hbs₂ : bs₂' = bs₂ := List.append_cancel_left (ho₂'.symm.trans ho₂)
      subst hbs₂
      have hbs : bs = bs₁ ++ (bs₂' ++ bs₃) := by
        rw [← ho₃, ho₂, ho₁, List.append_assoc, List.append_assoc] at ho
        exact (List.append_cancel_left ho).symm
      have hreads := hk.reads_input h.synced.seenEnd
        (show r.input = bs₁ ++ (bs₂' ++ (bs₃ ++ rest)) by simp [hin, hbs])
      obtain ⟨o, r₃, hturn, hin₃, -, -⟩ := hstep (bs₃ ++ rest)
      obtain ⟨h₃, -, hic⟩ := (hrec (bs₃ ++ rest)).2 _ _ hturn
      obtain ⟨s, hs, hns⟩ := ih h₃ (by rw [hic]; exact htop₂)
        (fun a ha => by
          rcases List.mem_cons.mp ha with rfl | ha
          · rw [hi]
            exact hle
          · exact hdone a ha)
        (fun j hj => hsize j (List.mem_cons_of_mem i hj))
        (fun j hj => hsame j (List.mem_cons_of_mem i hj))
        (fun j hj => hxed j (List.mem_cons_of_mem i hj)) hw'
        (by
          obtain ⟨j, hj, hjw⟩ := hwrap
          rcases List.mem_cons.mp hj with rfl | hj
          · exact absurd hjw hlt
          · exact ⟨j, hj, hjw⟩)
        ho₃.symm hin₃
      exact ⟨s, hreads.trans (.turn h₂.synced.seenEnd hturn hs), hns⟩

theorem noWrap_of_decodesProgram {deflate : List UInt8 → List UInt8} {is : List Instr}
    (hsize : ∀ i ∈ is, 1 ≤ i.size) (hzlib : ∀ bs, env.inflate (deflate bs) = bs)
    (hfile : ∃ file, writeTrace cfg deflate is = .ok file)
    (hsame : ∀ i ∈ is, ∀ j ∈ is, i.addr = j.addr → i.size = j.size)
    (hxed : ∀ i ∈ is, env.xedDecode cfg.arch32 (getCode cfg.code i.addr i.size) = true)
    (h : DecodesProgram env cfg deflate is) : ∀ i ∈ is, NoWrap cfg i := by
  intro i hi hp
  by_contra hlt
  obtain ⟨file, hfile⟩ := hfile
  obtain ⟨w, hw, hinit⟩ := initStream_writeTrace hzlib hfile
  have hfresh : Caught cfg (firstSize is) [] Writer.fresh
      { Reader.fresh (w.output ++ otherBytes .end 0) with
        arch32 := cfg.arch32, traceHasPa := cfg.sendVa2paMapping } :=
    caught_fresh rfl rfl rfl rfl rfl
  obtain ⟨s, hreads, hns⟩ := reaches_wrap hp hfresh rfl
    (fun a ha => absurd ha List.not_mem_nil) hsize (fun j hj => firstSize_eq hj hsame) hxed hw
    ⟨i, hi, by omega⟩ (List.nil_append _).symm rfl
  exact hns (h file _ s hfile hinit hreads)

/-- Where no call wraps in page mode, whatever is decoded is in the icache; and where the trace is
written and its other calls are read, that is needed. -/
theorem decodesProgram_noWrap (env : ReaderEnv) (cfg : WriterConfig)
    (deflate : List UInt8 → List UInt8) (is : List Instr) (hsize : ∀ i ∈ is, 1 ≤ i.size)
    (hzlib : ∀ bs, env.inflate (deflate bs) = bs) :
    ((∀ i ∈ is, NoWrap cfg i) → DecodesProgram env cfg deflate is) ∧
    ((∃ file, writeTrace cfg deflate is = .ok file) →
      (∀ i ∈ is, ∀ j ∈ is, i.addr = j.addr → i.size = j.size) →
      (∀ i ∈ is, env.xedDecode cfg.arch32 (getCode cfg.code i.addr i.size) = true) →
      DecodesProgram env cfg deflate is → ∀ i ∈ is, NoWrap cfg i) :=
  ⟨decodesProgram_of_noWrap hsize hzlib, noWrap_of_decodesProgram hsize hzlib⟩

theorem decodesProgram_noWrap_nops :
    DecodesProgram nopEnv (nopConfig false) id [nop 0x1ffd 4 [] false, nop 0x1ffd 2 [] false] ∧
    ∀ i ∈ [nop 0x1fff 2 [] false], NoWrap (nopConfig false) i := by
  have hd := fun is hs =>
    decodesProgram_noWrap nopEnv (nopConfig false) id is hs fun _ => rfl
  have hw : ∀ i ∈ [nop 0x1fff 2 [] false], NoWrap (nopConfig false) i := by
    intro i hi _
    rw [List.mem_singleton.mp hi]
    decide
  refine ⟨(hd _ (by decide)).1 ?_, (hd _ (by decide)).2 ⟨_, rfl⟩ (by decide) (by decide) ?_⟩
  · intro i hi _
    simp only [List.mem_cons, List.not_mem_nil, or_false] at hi
    rcases hi with rfl | rfl <;> decide
  · exact (hd _ (by decide)).1 hw

/-- An instruction over the end of the address space: the page loop has nothing to send, and the
reader has no page to decode from. -/
theorem wrapping_code_not_decoded :
    ¬DecodesProgram nopEnv (nopConfig false) id [nop 0xfffffffffffffffe 4 [] false] := by
  intro h
  have hw := noWrap_of_decodesProgram (by decide) (fun _ => rfl) ⟨_, rfl⟩ (by decide) (by decide) h
    _ List.mem_cons_self rfl
  exact absurd hw (by decide)

end Sniper.Sift
