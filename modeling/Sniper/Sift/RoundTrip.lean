import Sniper.Sift.CodeImage
import Sniper.Sift.Framing
import Mathlib.Algebra.Group.Nat.Defs
import Mathlib.Data.List.Forall2
set_option autoImplicit false

/-! The reader returns the instructions the writer was given. -/

namespace Sniper.Sift
open Sniper.Lib

variable {env : ReaderEnv} {cfg : WriterConfig} {sizeAt : Word → Nat}

namespace Reader

/-- Reading `bs` takes the loop of `Read` from `r` to `r'` without returning, turn by turn. -/
inductive Skips (env : ReaderEnv) : List UInt8 → Reader → Reader → Prop where
  | refl (r : Reader) : Skips env [] r r
  | turn {bs cs : List UInt8} {r r' r'' : Reader} : 0 < bs.length →
      (∀ rest, step env { r with input := bs ++ rest } =
        .ok (.again, { r' with input := rest })) →
      Skips env cs r' r'' → Skips env (bs ++ cs) r r''

theorem Skips.trans {bs cs : List UInt8} {r r' r'' : Reader} (h : Skips env bs r r')
    (h' : Skips env cs r' r'') : Skips env (bs ++ cs) r r'' := by
  induction h with
  | refl r => exact h'
  | turn hb hstep _ ih =>
    rw [List.append_assoc]
    exact .turn hb hstep (ih h')

theorem Skips.of_step {bs : List UInt8} {r r' : Reader} (hb : 0 < bs.length)
    (h : ∀ rest, step env { r with input := bs ++ rest } = .ok (.again, { r' with input := rest })) :
    Skips env bs r r' := by
  rw [← List.append_nil bs]
  exact .turn hb h (.refl r')

/-- Every turn takes a byte, so the loop needs no more fuel than there are bytes. -/
theorem Skips.readLoop {bs : List UInt8} {r r' : Reader} (h : Skips env bs r r')
    (rest : List UInt8) : ∃ n ≤ bs.length, ∀ fuel,
      Reader.readLoop env (n + fuel) { r with input := bs ++ rest } =
        Reader.readLoop env fuel { r' with input := rest } := by
  induction h with
  | refl r => exact ⟨0, Nat.le_refl 0, fun fuel => by rw [Nat.zero_add, List.nil_append]⟩
  | @turn bs cs r r' r'' hb hstep _ ih =>
    obtain ⟨n, hn, hloop⟩ := ih
    refine ⟨n + 1, by simp only [List.length_append]; omega, fun fuel => ?_⟩
    have hfuel : n + 1 + fuel = n + fuel + 1 := by omega
    rw [hfuel, List.append_assoc, Reader.readLoop, hstep (cs ++ rest)]
    exact hloop fuel

end Reader

open Reader Writer

/-- How many bytes of code an icache entry of the writer stands for. -/
def WriterConfig.entrySize (cfg : WriterConfig) (sizeAt : Word → Nat) (a : Word) : Nat :=
  if cfg.requiresIcachePerInsn then sizeAt a else icacheSize

/-- A reader that has consumed what the writer has written: both are at the same address, the code
the writer has sent is in the reader's icache, and the static instructions have the sizes of the
trace. -/
structure Synced (cfg : WriterConfig) (sizeAt : Word → Nat) (w : Writer) (r : Reader) : Prop where
  lastAddress : r.lastAddress = w.lastAddress
  seenEnd : r.seenEnd = false
  arch32 : r.arch32 = cfg.arch32
  sent : ∀ a, w.icache a = true → ∀ i < cfg.entrySize sizeAt a,
    Shows cfg.code r.icache (a + BitVec.ofNat 64 i)
  sizes : ∀ (q : Nat) (s : StaticInstruction), r.sinsts[q]? = some s → s.size = sizeAt s.addr
  scache : ∀ a q, r.scache a = some q → ∃ s, r.sinsts[q]? = some s ∧ s.addr = a

/-- The reader skips what the writer sends between `w` and `w'`, and both stay in step. -/
def Follows (env : ReaderEnv) (cfg : WriterConfig) (sizeAt : Word → Nat) (w w' : Writer)
    (r : Reader) : Prop :=
  ∃ bs r', w'.output = w.output ++ bs ∧ Skips env bs r r' ∧ Synced cfg sizeAt w' r'

/-- A sending step of the writer: the address counter stays, icache entries are only added, and any
reader in step follows. -/
structure Sends (env : ReaderEnv) (cfg : WriterConfig) (sizeAt : Word → Nat) (w w' : Writer) :
    Prop where
  lastAddress : w'.lastAddress = w.lastAddress
  icache : ∀ a, w.icache a = true → w'.icache a = true
  follows : ∀ r, Synced cfg sizeAt w r → Follows env cfg sizeAt w w' r

theorem Sends.refl (w : Writer) : Sends env cfg sizeAt w w where
  lastAddress := rfl
  icache _ h := h
  follows r h := ⟨[], r, (List.append_nil _).symm, Skips.refl r, h⟩

theorem Sends.trans {w w' w'' : Writer} (h : Sends env cfg sizeAt w w')
    (h' : Sends env cfg sizeAt w' w'') : Sends env cfg sizeAt w w'' where
  lastAddress := h'.lastAddress.trans h.lastAddress
  icache a ha := h'.icache a (h.icache a ha)
  follows r hr := by
    obtain ⟨bs, r', ho, hs, hsync⟩ := h.follows r hr
    obtain ⟨cs, r'', ho', hs', hsync'⟩ := h'.follows r' hsync
    exact ⟨bs ++ cs, r'', by rw [ho', ho, List.append_assoc], hs.trans hs', hsync'⟩

theorem update_true {f : Word → Bool} {a b : Word} (h : f b = true) :
    Function.update f a true b = true := by
  by_cases hb : b = a
  · rw [hb, Function.update_self]
  · rw [Function.update_of_ne hb, h]

/-- Sending one icache entry, whichever record carries it. -/
theorem sends_icache {w : Writer} {a : Word} {bs : List UInt8}
    (hb : 0 < bs.length)
    (hr : ∀ r : Reader, ∃ icache, (∀ rest, step env { r with input := bs ++ rest } =
        .ok (.again, { r with input := rest, icache := icache })) ∧
      (∀ b, Shows cfg.code r.icache b → Shows cfg.code icache b) ∧
      ∀ i < cfg.entrySize sizeAt a, Shows cfg.code icache (a + BitVec.ofNat 64 i)) :
    Sends env cfg sizeAt w { w.write bs with icache := Function.update w.icache a true } where
  lastAddress := rfl
  icache b h := update_true h
  follows r h := by
    obtain ⟨icache, hstep, hkeep, hnew⟩ := hr r
    refine ⟨bs, { r with icache := icache }, rfl, Skips.of_step hb hstep, ?_⟩
    refine ⟨h.lastAddress, h.seenEnd, h.arch32, fun b hsent => ?_, h.sizes, h.scache⟩
    by_cases hba : b = a
    · subst hba
      exact hnew
    · simp only [Function.update_of_ne hba] at hsent
      exact fun i hi => hkeep _ (h.sent b hsent i hi)

theorem sendIcacheVariable_sends {addr : Word} {size : Nat} (w : Writer) (hsize : size < 16)
    (hp : cfg.requiresIcachePerInsn = true) (ha : sizeAt addr = size) :
    Sends env cfg sizeAt w (w.sendIcacheVariable cfg addr size) ∧
    (w.sendIcacheVariable cfg addr size).icache addr = true := by
  rw [sendIcacheVariable]
  by_cases hi : w.icache addr = true
  · rw [if_pos hi]
    exact ⟨Sends.refl w, hi⟩
  · rw [if_neg hi]
    have hlen : 0 < (icacheVariableBytes cfg addr size).length := by
      simp only [icacheVariableBytes, List.length_append, length_otherBytes]
      omega
    refine ⟨sends_icache hlen fun r => ?_, Function.update_self ..⟩
    obtain ⟨hkeep, hnew⟩ := @storeCode_shows cfg.code env.newPage size size addr r.icache
      (Nat.le_refl size)
    refine ⟨_, fun rest => ?_, hkeep, ?_⟩
    · have hl := length_getCode cfg.code addr size
      have hstep := @step_icacheVariable env
        { r with input := icacheVariableBytes cfg addr size ++ rest } rest addr
        (getCode cfg.code addr size) (by omega) (by simp [icacheVariableBytes])
      rw [hl] at hstep
      exact hstep
    · rw [WriterConfig.entrySize, hp, if_pos rfl, ha]
      exact hnew

theorem sendIcachePage_sends {base : Word} (w : Writer) (hb : base.toNat % icacheSize = 0)
    (hp : cfg.requiresIcachePerInsn = false) :
    Sends env cfg sizeAt w (w.sendIcachePage cfg base) ∧
    (w.sendIcachePage cfg base).icache base = true := by
  rw [sendIcachePage]
  by_cases hi : w.icache base = true
  · rw [if_pos hi]
    exact ⟨Sends.refl w, hi⟩
  · rw [if_neg hi]
    have hlen : 0 < (icacheBytes cfg base).length := by
      simp only [icacheBytes, List.length_append, length_otherBytes]
      omega
    refine ⟨sends_icache hlen fun r => ?_, Function.update_self ..⟩
    have hcode : ∀ k < icacheSize, (getCode cfg.code base icacheSize).getD k 0 =
        cfg.code (base + BitVec.ofNat 64 k) := fun k hk => getCode_getD hk 0
    refine ⟨Function.update r.icache base (some ((getCode cfg.code base icacheSize).getD · 0)),
      fun rest => ?_, fun b h => ?_, fun i hi => ?_⟩
    · exact step_icache (length_getCode cfg.code base icacheSize)
        (by simp [icacheBytes])
    · exact h.update fun k hk => .inr (hcode k hk)
    · rw [WriterConfig.entrySize, hp] at hi
      exact shows_update_self hb hi (hcode i hi)

/-- The page loop ends and has sent every page from `base` to `last`, unless `last` is the topmost
page. -/
theorem sendIcachePages_sends (last : Word) (hp : cfg.requiresIcachePerInsn = false)
    (hlast : last.toNat + icacheSize < 2 ^ 64) (fuel : Nat) {base : Word} (w : Writer)
    (hb : base.toNat % icacheSize = 0)
    (hf : last.toNat / icacheSize < fuel + base.toNat / icacheSize) :
    ∃ w', w.sendIcachePages cfg last (fuel + 1) base = .ok w' ∧ Sends env cfg sizeAt w w' ∧
      ∀ b : Word, b.toNat % icacheSize = 0 → base.toNat ≤ b.toNat → b.toNat ≤ last.toNat →
        w'.icache b = true := by
  induction fuel generalizing base w with
  | zero =>
    have hlt : ¬base.toNat ≤ last.toNat := by
      intro h
      have := Nat.div_le_div_right (c := icacheSize) h
      omega
    rw [sendIcachePages, if_neg (show ¬base ≤ last from hlt)]
    exact ⟨w, rfl, Sends.refl w, fun b _ h1 h2 => absurd (Nat.le_trans h1 h2) hlt⟩
  | succ fuel ih =>
    rw [sendIcachePages]
    by_cases hle : base.toNat ≤ last.toNat
    · have hnext : (base + BitVec.ofNat 64 icacheSize).toNat = base.toNat + icacheSize := by
        simp only [icacheSize] at hlast ⊢
        rw [BitVec.toNat_add, BitVec.toNat_ofNat]
        omega
      obtain ⟨hsend, hin⟩ := sendIcachePage_sends w hb hp
      obtain ⟨w', hok, hsends, hpages⟩ := ih (w.sendIcachePage cfg base) (add_icacheSize_aligned hb)
        (by rw [hnext, Nat.add_div_right _ (by decide)]; omega)
      rw [if_pos (show base ≤ last from hle)]
      refine ⟨w', hok, hsend.trans hsends, fun b hbm h1 h2 => ?_⟩
      by_cases hbb : b = base
      · rw [hbb]
        exact hsends.icache base hin
      · have hne : b.toNat ≠ base.toNat := fun h => hbb (BitVec.eq_of_toNat_eq h)
        apply hpages b hbm _ h2
        rw [hnext]
        simp only [icacheSize] at hbm hb ⊢
        omega
    · rw [if_neg (show ¬base ≤ last from hle)]
      exact ⟨w, rfl, Sends.refl w, fun b _ h1 h2 => absurd (Nat.le_trans h1 h2) hle⟩

/-- The addresses whose code the page loop can send: those whose bytes end below the topmost
page. -/
def BelowTopPage (addr : Word) (size : Nat) : Prop := addr.toNat + size ≤ 2 ^ 64 - icacheSize

/-- In the topmost page the loop counter wraps to zero before it can pass the last page. -/
theorem sendIcachePages_topPage {base last : Word} (hb : base.toNat % icacheSize = 0)
    (hlast : last.toNat = 2 ^ 64 - icacheSize) (w : Writer) (fuel : Nat) :
    w.sendIcachePages cfg last fuel base = .error .spins := by
  induction fuel generalizing base w with
  | zero => rfl
  | succ fuel ih =>
    have hle : base.toNat ≤ last.toNat := by
      have := base.isLt
      simp only [icacheSize] at hb hlast
      omega
    rw [sendIcachePages, if_pos (show base ≤ last from hle)]
    exact ih (add_icacheSize_aligned hb) _

/-- The page of the last byte of an instruction that does not wrap. -/
theorem toNat_lastPage {addr : Word} {size : Nat} (h1 : 1 ≤ size)
    (hwrap : addr.toNat + size ≤ 2 ^ 64) :
    ((addr + BitVec.ofNat 64 size - 1) &&& icachePageMask).toNat =
      addr.toNat + size - 1 - (addr.toNat + size - 1) % icacheSize := by
  have hend : (addr + BitVec.ofNat 64 size - 1).toNat = addr.toNat + size - 1 := by bv_omega
  rw [toNat_and_icachePageMask, hend]

/-- From the pages of an instruction on, its code is in the icache of every reader in step. -/
theorem sendIcache_pages {addr : Word} {size : Nat} (w : Writer)
    (hp : cfg.requiresIcachePerInsn = false) (h1 : 1 ≤ size) (hb : BelowTopPage addr size) :
    ∃ w', w.sendIcache cfg addr size = .ok w' ∧ Sends env cfg sizeAt w w' ∧
      ∀ w'' r, Sends env cfg sizeAt w' w'' → Synced cfg sizeAt w'' r →
        ∀ i < size, Shows cfg.code r.icache (addr + BitVec.ofNat 64 i) := by
  rw [sendIcache, if_neg (Bool.eq_false_iff.mp hp)]
  have hbase := toNat_and_icachePageMask addr
  simp only [BelowTopPage, icacheSize] at hb hbase
  have hlast := toNat_lastPage h1 (by omega : addr.toNat + size ≤ 2 ^ 64)
  simp only [icacheSize] at hlast
  obtain ⟨w', hok, hsends, hpages⟩ := sendIcachePages_sends
    ((addr + BitVec.ofNat 64 size - 1) &&& icachePageMask) hp
    (by simp only [icacheSize]; omega) (2 ^ 52) w (and_icachePageMask_aligned addr)
    (by simp only [icacheSize]; omega)
  refine ⟨w', hok, hsends, fun w'' r hw hr i hi => ?_⟩
  have hi' : (addr + BitVec.ofNat 64 i).toNat = addr.toNat + i := by bv_omega
  have hpage := toNat_and_icachePageMask (addr + BitVec.ofNat 64 i)
  rw [hi'] at hpage
  simp only [icacheSize] at hpage
  have hin := hpages ((addr + BitVec.ofNat 64 i) &&& icachePageMask)
    (and_icachePageMask_aligned _) (by omega) (by omega)
  have hoff : ((addr + BitVec.ofNat 64 i) &&& icacheOffsetMask).toNat <
      cfg.entrySize sizeAt ((addr + BitVec.ofNat 64 i) &&& icachePageMask) := by
    rw [WriterConfig.entrySize, if_neg (Bool.eq_false_iff.mp hp)]
    exact offset_lt _
  have := hr.sent _ (hw.icache _ hin) _ hoff
  rwa [page_add_offset] at this

/-- From the icache records of an instruction on, its code is in the icache of every reader in
step. -/
theorem sendIcache_sends {addr : Word} {size : Nat} (w : Writer) (h1 : 1 ≤ size) (h15 : size ≤ 15)
    (ha : sizeAt addr = size)
    (ht : cfg.requiresIcachePerInsn = false → BelowTopPage addr size) :
    ∃ w', w.sendIcache cfg addr size = .ok w' ∧ Sends env cfg sizeAt w w' ∧
      ∀ w'' r, Sends env cfg sizeAt w' w'' → Synced cfg sizeAt w'' r →
        ∀ i < size, Shows cfg.code r.icache (addr + BitVec.ofNat 64 i) := by
  by_cases hp : cfg.requiresIcachePerInsn = true
  · rw [sendIcache, if_pos hp]
    obtain ⟨hsends, hin⟩ := sendIcacheVariable_sends w (by omega) hp ha
    refine ⟨_, rfl, hsends, fun w'' r hw hr i hi => hr.sent addr (hw.icache addr hin) i ?_⟩
    rw [WriterConfig.entrySize, if_pos hp, ha]
    exact hi
  · have hp' : cfg.requiresIcachePerInsn = false := Bool.eq_false_iff.mpr hp
    exact sendIcache_pages w hp' h1 (ht hp')

theorem sendVa2pa_sends (w : Writer) (va : Word) : Sends env cfg sizeAt w (w.sendVa2pa cfg va) := by
  rw [sendVa2pa]
  split
  · exact Sends.refl w
  · simp only
    split
    · exact Sends.refl w
    · split
      · exact Sends.refl w
      · generalize va / pageSize = vp
        generalize cfg.va2paLookup vp = pp
        refine ⟨rfl, fun _ h => h, fun r hr => ?_⟩
        refine ⟨va2paBytes vp pp, { r with vcache := Function.update r.vcache vp (some pp) }, rfl,
          Skips.of_step (by simp [va2paBytes]) fun rest => ?_, ?_⟩
        · exact step_va2pa (by simp [va2paBytes])
        · exact ⟨hr.lastAddress, hr.seenEnd, hr.arch32, hr.sent, hr.sizes, hr.scache⟩

theorem foldl_sendVa2pa_sends (as : List Word) (w : Writer) :
    Sends env cfg sizeAt w (as.foldl (sendVa2pa cfg) w) := by
  induction as generalizing w with
  | nil => exact Sends.refl w
  | cons a as ih => exact (sendVa2pa_sends w a).trans (ih (w.sendVa2pa cfg a))

namespace Reader

/-- Linking changes no address and no size. -/
theorem link_getElem? (r : Reader) (q k : Nat) :
    ((r.link q).sinsts[k]?).map (fun s => (s.addr, s.size)) =
      (r.sinsts[k]?).map fun s => (s.addr, s.size) := by
  rw [link]
  cases r.lastSinst with
  | none => rfl
  | some p =>
    simp only [List.getElem?_modify, Option.map_eq_map, Option.map_map]
    congr 1
    funext s
    by_cases hp : p = k
    · by_cases hn : s.next = none
      · simp [hp, hn]
      · simp [hp, hn]
    · simp [hp]

theorem link_some {r : Reader} {q k : Nat} {s : StaticInstruction} (h : r.sinsts[k]? = some s) :
    ∃ s', (r.link q).sinsts[k]? = some s' ∧ s'.addr = s.addr ∧ s'.size = s.size := by
  have hl := link_getElem? r q k
  rw [h, Option.map_some, Option.map_eq_some_iff] at hl
  obtain ⟨s', hs', he⟩ := hl
  rw [Prod.mk.injEq] at he
  exact ⟨s', hs', he.1, he.2⟩

theorem some_of_link {r : Reader} {q k : Nat} {s' : StaticInstruction}
    (h : (r.link q).sinsts[k]? = some s') :
    ∃ s, r.sinsts[k]? = some s ∧ s'.addr = s.addr ∧ s'.size = s.size := by
  have hl := link_getElem? r q k
  rw [h, Option.map_some, eq_comm, Option.map_eq_some_iff] at hl
  obtain ⟨s, hs, he⟩ := hl
  rw [Prod.mk.injEq] at he
  exact ⟨s, hs, he.1.symm, he.2.symm⟩

end Reader

theorem Synced.link {w : Writer} {r : Reader} (h : Synced cfg sizeAt w r) (q : Nat) :
    Synced cfg sizeAt w (r.link q) where
  lastAddress := h.lastAddress
  seenEnd := h.seenEnd
  arch32 := h.arch32
  sent := h.sent
  sizes k s' hs' := by
    obtain ⟨s, hs, ha, hz⟩ := some_of_link hs'
    rw [ha, hz]
    exact h.sizes k s hs
  scache a k hk := by
    obtain ⟨s, hs, ha⟩ := h.scache a k hk
    obtain ⟨s', hs', ha', -⟩ := link_some hs
    exact ⟨s', hs', ha'.trans ha⟩

/-- A new static instruction with the size of the trace goes to the end. -/
theorem Synced.add {w : Writer} {r : Reader} (h : Synced cfg sizeAt w r) {s : StaticInstruction}
    (hs : s.size = sizeAt s.addr) :
    Synced cfg sizeAt w { r with
      sinsts := r.sinsts ++ [s]
      scache := Function.update r.scache s.addr (some r.sinsts.length) } where
  lastAddress := h.lastAddress
  seenEnd := h.seenEnd
  arch32 := h.arch32
  sent := h.sent
  sizes q t ht := by
    rcases List.mem_append.mp (List.mem_of_getElem? ht) with hm | hm
    · obtain ⟨k, hk⟩ := List.getElem?_of_mem hm
      exact h.sizes k t hk
    · rw [List.mem_singleton.mp hm]
      exact hs
  scache a q hq := by
    simp only at hq
    by_cases ha : a = s.addr
    · rw [ha, Function.update_self, Option.some.injEq] at hq
      exact ⟨s, by rw [← hq]; simp, ha.symm⟩
    · rw [Function.update_of_ne ha] at hq
      obtain ⟨t, ht, hta⟩ := h.scache a q hq
      obtain ⟨hlt, -⟩ := List.getElem?_eq_some_iff.mp ht
      exact ⟨t, by rw [List.getElem?_append_left hlt]; exact ht, hta⟩

theorem decodeInstruction_shows {r : Reader} {addr : Word} {size : Nat}
    (hc : ∀ i < size, Shows cfg.code r.icache (addr + BitVec.ofNat 64 i))
    (hx : env.xedDecode r.arch32 (getCode cfg.code addr size) = true) :
    r.decodeInstruction env addr size = .ok ⟨addr, size, getCode cfg.code addr size, none⟩ := by
  have hcopy := copyCode_shows (Nat.le_refl size)
    (and_icachePageMask_aligned addr) (offset_lt addr) (fun i hi => by
      rw [← add_ofNat_add, page_add_offset]
      exact hc i hi)
  rw [page_add_offset] at hcopy
  simp only [decodeInstruction, hcopy, bind, Except.bind, hx]
  rfl

/-- Whichever way a static instruction is found, it has the address and the size asked for. -/
theorem findStatic_synced {w : Writer} {r : Reader} {addr : Word} {size : Nat}
    (h : Synced cfg sizeAt w r) (ha : sizeAt addr = size)
    (hc : ∀ i < size, Shows cfg.code r.icache (addr + BitVec.ofNat 64 i))
    (hx : env.xedDecode cfg.arch32 (getCode cfg.code addr size) = true) :
    ∃ q r' s, r.findStatic env addr size = .ok (q, r') ∧ r'.input = r.input ∧
      Synced cfg sizeAt w r' ∧ r'.sinsts[q]? = some s ∧ s.addr = addr ∧ s.size = size := by
  rw [← h.arch32] at hx
  rw [findStatic]
  generalize hhit : (r.lastNext.filter fun q => (r.sinsts[q]?).any fun s => s.addr == addr) = hit
  cases hit with
  | some q =>
    rw [Option.filter_eq_some_iff] at hhit
    obtain ⟨s, hs, hsa⟩ := (Option.any_eq_true _ _).mp hhit.2
    have hsa' : s.addr = addr := eq_of_beq hsa
    exact ⟨q, r, s, rfl, rfl, h, hs, hsa', by rw [h.sizes q s hs, hsa', ha]⟩
  | none =>
    cases hcache : r.scache addr with
    | some q =>
      obtain ⟨s, hs, hsa⟩ := h.scache addr q hcache
      have hz : s.size = size := by rw [h.sizes q s hs, hsa, ha]
      exact ⟨q, r, s, by simp [hs, hz], rfl, h, hs, hsa, hz⟩
    | none =>
      have hd := decodeInstruction_shows hc hx
      have hadd := h.add (s := ⟨addr, size, getCode cfg.code addr size, none⟩) ha.symm
      refine ⟨r.sinsts.length, { r with
        sinsts := r.sinsts ++ [⟨addr, size, getCode cfg.code addr size, none⟩]
        scache := Function.update r.scache addr (some r.sinsts.length) },
        ⟨addr, size, getCode cfg.code addr size, none⟩, ?_, rfl, hadd,
        List.getElem?_concat_length .., rfl, rfl⟩
      simp only [hd]
      rfl

theorem getStaticInstruction_synced {w : Writer} {r : Reader} {addr : Word} {size : Nat}
    (h : Synced cfg sizeAt w r) (ha : sizeAt addr = size)
    (hc : ∀ i < size, Shows cfg.code r.icache (addr + BitVec.ofNat 64 i))
    (hx : env.xedDecode cfg.arch32 (getCode cfg.code addr size) = true) :
    ∃ s r', r.getStaticInstruction env addr size = .ok (s, r') ∧ r'.input = r.input ∧
      Synced cfg sizeAt w r' ∧ s.addr = addr ∧ s.size = size := by
  obtain ⟨q, r', s, hf, hi, hsync, hs, hsa, hsz⟩ := findStatic_synced h ha hc hx
  obtain ⟨s', hs', ha', hz'⟩ := link_some (q := q) hs
  refine ⟨s', r'.link q, ?_, hi, hsync.link q, ha'.trans hsa, hz'.trans hsz⟩
  simp only [getStaticInstruction, hf, bind, Except.bind, hs']
  rfl

/-- The instruction `Read` returns is the one that was written. -/
structure Agrees (i : Instr) (o : Instruction) : Prop where
  addr : o.sinst.addr = i.addr
  size : o.sinst.size = i.size
  addresses : o.addresses = i.addresses
  isBranch : o.isBranch = i.isBranch
  taken : o.taken = i.taken
  isPredicate : o.isPredicate = i.isPredicate
  executed : i.isPredicate = true → o.executed = i.executed

/-- The conditions under which one call is read back: its size and number of data addresses are
in range, `sizeAt` knows its size, its code can be sent, and the decoder accepts that code. -/
structure Traceable (env : ReaderEnv) (cfg : WriterConfig) (sizeAt : Word → Nat) (i : Instr) :
    Prop where
  one_le_size : 1 ≤ i.size
  size_le : i.size ≤ 15
  numAddresses : i.addresses.length ≤ maxDynamicAddresses
  sizeAt_addr : sizeAt i.addr = i.size
  belowTopPage : cfg.requiresIcachePerInsn = false → BelowTopPage i.addr i.size
  decodes : env.xedDecode cfg.arch32 (getCode cfg.code i.addr i.size) = true

/-- The record of an instruction is read back and leaves both sides at its end. -/
theorem sendRecord_step {w : Writer} {r : Reader} {i : Instr} (h : Synced cfg sizeAt w r)
    (hi : Traceable env cfg sizeAt i)
    (hc : ∀ k < i.size, Shows cfg.code r.icache (i.addr + BitVec.ofNat 64 k)) :
    ∃ bs, (w.sendRecord i).output = w.output ++ bs ∧ 0 < bs.length ∧ ∀ rest, ∃ o r',
      step env { r with input := bs ++ rest } = .ok (.insn o, r') ∧ r'.input = rest ∧
      Agrees i o ∧ Synced cfg sizeAt (w.sendRecord i) r' := by
  have hsync : ∀ rest, Synced cfg sizeAt (w.sendRecord i) { r with
      input := rest, lastAddress := i.addr + BitVec.ofNat 64 i.size } := by
    intro rest
    have hic : (w.sendRecord i).icache = w.icache := by rw [sendRecord]; split <;> rfl
    refine ⟨?_, h.seenEnd, h.arch32, hic ▸ h.sent, h.sizes, h.scache⟩
    rw [sendRecord]
    split
    · rename_i hs
      simp only [Bool.and_eq_true, decide_eq_true_eq] at hs
      rw [hs.1]
    · rfl
  have hget := fun rest => getStaticInstruction_synced (hsync rest) hi.sizeAt_addr hc
    hi.decodes
  by_cases hs : i.addr = w.lastAddress ∧ i.isPredicate = false
  · refine ⟨instructionBytes i ++ i.addresses.flatMap wordBytes, by simp [sendRecord, hs, write],
      by simp [instructionBytes], fun rest => ?_⟩
    obtain ⟨s, r', hg, hin, hsy, hsa, hsz⟩ := hget rest
    have hlast : r.lastAddress = i.addr := h.lastAddress.trans hs.1.symm
    refine ⟨_, r', step_instruction hi.one_le_size hi.size_le hi.numAddresses
      (List.append_assoc ..) (by rw [hlast]; exact hg), hin, ?_, hsy⟩
    exact ⟨hsa, hsz, rfl, rfl, rfl, hs.2.symm, fun hp => absurd (hs.2.symm.trans hp) (by decide)⟩
  · have hs' : (decide (i.addr = w.lastAddress) && !i.isPredicate) = false := by
      simpa using hs
    refine ⟨instructionExtBytes i ++ i.addresses.flatMap wordBytes, by simp [sendRecord, hs', write],
      by simp [instructionExtBytes], fun rest => ?_⟩
    obtain ⟨s, r', hg, hin, hsy, hsa, hsz⟩ := hget rest
    exact ⟨_, r', step_instructionExt hi.one_le_size hi.size_le hi.numAddresses
      (List.append_assoc ..) hg, hin, ⟨hsa, hsz, rfl, rfl, rfl, rfl, fun _ => rfl⟩, hsy⟩

/-- One call of the writer is one `Read` of the reader. -/
theorem instruction_read (w : Writer) {i : Instr} (hi : Traceable env cfg sizeAt i) :
    ∃ w', w.instruction cfg i = .ok w' ∧ ∀ r, Synced cfg sizeAt w r →
      ∃ bs, w'.output = w.output ++ bs ∧ 0 < bs.length ∧ ∀ rest, ∃ o r',
        Reader.read env { r with input := bs ++ rest } = .ok (.insn o, r') ∧ r'.input = rest ∧
        Agrees i o ∧ Synced cfg sizeAt w' r' := by
  obtain ⟨w₁, hok, hs₁, hcode⟩ := sendIcache_sends w hi.one_le_size hi.size_le
    hi.sizeAt_addr hi.belowTopPage
  have hs₂ : Sends env cfg sizeAt w₁ (i.addresses.foldl (sendVa2pa cfg) (w₁.sendVa2pa cfg i.addr)) :=
    (sendVa2pa_sends w₁ i.addr).trans (foldl_sendVa2pa_sends i.addresses _)
  refine ⟨(i.addresses.foldl (sendVa2pa cfg) (w₁.sendVa2pa cfg i.addr)).sendRecord i, ?_, ?_⟩
  · have hz : i.size < 16 := Nat.lt_succ_of_le hi.size_le
    simp only [instruction, hz, hi.numAddresses, decide_true, check_true, bind, Except.bind, hok]
    rfl
  · intro r hr
    obtain ⟨bs₁, r₁, ho₁, hk₁, hr₁⟩ := hs₁.follows r hr
    obtain ⟨bs₂, r₂, ho₂, hk₂, hr₂⟩ := hs₂.follows r₁ hr₁
    have hic : ∀ k < i.size, Shows cfg.code r₂.icache (i.addr + BitVec.ofNat 64 k) :=
      hcode _ r₂ hs₂ hr₂
    obtain ⟨bs₃, ho₃, hl₃, hstep⟩ := sendRecord_step hr₂ hi hic
    refine ⟨bs₁ ++ bs₂ ++ bs₃, by rw [ho₃, ho₂, ho₁]; simp, by simp; omega, fun rest => ?_⟩
    obtain ⟨o, r', hst, hin, hag, hsy⟩ := hstep rest
    refine ⟨o, r', ?_, hin, hag, hsy⟩
    obtain ⟨n, hn, hloop⟩ := (hk₁.trans hk₂).readLoop (bs₃ ++ rest)
    have hfuel : (bs₁ ++ bs₂ ++ bs₃ ++ rest).length + 1 =
        n + ((bs₁ ++ bs₂ ++ bs₃ ++ rest).length - n + 1) := by
      simp only [List.length_append] at hn ⊢
      omega
    rw [Reader.read, if_neg (by simp [hr.seenEnd]), hfuel, List.append_assoc (bs₁ ++ bs₂), hloop, readLoop,
      hst]
    rfl

/-- The whole body of a trace is read back. -/
theorem instructions_readAll {is : List Instr} (his : ∀ i ∈ is, Traceable env cfg sizeAt i)
    (w : Writer) :
    ∃ w', w.instructions cfg is = .ok w' ∧ ∀ r, Synced cfg sizeAt w r →
      ∃ bs, w'.output = w.output ++ bs ∧ is.length ≤ bs.length ∧ ∀ fuel, is.length < fuel →
        ∃ os, readAll env fuel { r with input := bs ++ otherBytes .end 0 } = .ok os ∧
          List.Forall₂ Agrees is os := by
  induction is generalizing w with
  | nil =>
    refine ⟨w, rfl, fun r hr => ⟨[], (List.append_nil _).symm, Nat.le_refl _, fun fuel hf => ?_⟩⟩
    obtain ⟨n, rfl⟩ := Nat.exists_eq_succ_of_ne_zero (Nat.ne_of_gt hf)
    have hstep : Reader.step env { r with input := otherBytes .end 0 } =
        .ok (.stop, { r with input := [], seenEnd := true }) :=
      step_end (List.append_nil _).symm
    have hread : Reader.read env { r with input := otherBytes .end 0 } =
        .ok (.stop, { r with input := [], seenEnd := true }) := by
      rw [Reader.read, if_neg (by simp [hr.seenEnd]), readLoop, hstep]
      rfl
    refine ⟨[], ?_, .nil⟩
    rw [List.nil_append, readAll, hread]
    rfl
  | cons i is ih =>
    obtain ⟨w₁, hok₁, hread⟩ := instruction_read w (his i List.mem_cons_self)
    obtain ⟨w₂, hok₂, hall⟩ := ih (fun j hj => his j (List.mem_cons_of_mem i hj)) w₁
    refine ⟨w₂, by simp only [instructions, hok₁, bind, Except.bind, hok₂], fun r hr => ?_⟩
    obtain ⟨bs₁, ho₁, hl₁, hr₁⟩ := hread r hr
    -- what the rest of the calls writes does not depend on the reader
    obtain ⟨bs₂, ho₂, hl₂⟩ : ∃ bs₂, w₂.output = w₁.output ++ bs₂ ∧ is.length ≤ bs₂.length := by
      obtain ⟨-, r', -, -, -, hsy⟩ := hr₁ []
      obtain ⟨bs, ho, hl, -⟩ := hall r' hsy
      exact ⟨bs, ho, hl⟩
    refine ⟨bs₁ ++ bs₂, by rw [ho₂, ho₁, List.append_assoc], ?_, fun fuel hf => ?_⟩
    · simp only [List.length_cons, List.length_append]
      omega
    · obtain ⟨n, rfl⟩ := Nat.exists_eq_succ_of_ne_zero (Nat.ne_of_gt (Nat.zero_lt_of_lt hf))
      obtain ⟨o, r', hrd, hin, hag, hsy⟩ := hr₁ (bs₂ ++ otherBytes .end 0)
      obtain ⟨bs, ho, -, hos⟩ := hall r' hsy
      have hbs : bs = bs₂ := List.append_cancel_left (ho.symm.trans ho₂)
      obtain ⟨os, hos, hags⟩ := hos n (Nat.lt_of_succ_lt_succ hf)
      have hr' : { r' with input := bs ++ otherBytes .end 0 } = r' := by
        rw [hbs, ← hin]
      rw [hr'] at hos
      refine ⟨o :: os, ?_, .cons hag hags⟩
      rw [List.append_assoc, readAll, hrd]
      simp only [bind, Except.bind, hos]
      rfl

theorem acceptHeader_options {hdr : List UInt8} {o : Options} (r : Reader)
    (hmagic : leValue (hdr.take 4) = magicNumber) (hextra : leValue ((hdr.drop 4).take 4) = 0)
    (hword : leValue (hdr.drop 8) = o.word) :
    acceptHeader env hdr r = .ok { r with
      input := if o.compressionZlib then env.inflate r.input else r.input
      arch32 := o.archIA32
      traceHasPa := o.physicalAddress } := by
  have h1 := o.compressionZlib.toNat_le
  have h2 := o.archIA32.toNat_le
  have h3 := o.icacheVariable.toNat_le
  have h4 := o.physicalAddress.toNat_le
  have hlt : o.word < 16 := by
    simp only [Options.word]
    omega
  have hz : o.word % 2 = o.compressionZlib.toNat := by
    simp only [Options.word]
    omega
  have ha : o.word / 2 % 2 = o.archIA32.toNat := by
    simp only [Options.word]
    omega
  have hp : o.word / 8 % 2 = o.physicalAddress.toNat := by
    simp only [Options.word]
    omega
  have hzip : (if o.word % 2 = 1 then env.inflate r.input else r.input) =
      if o.compressionZlib then env.inflate r.input else r.input := by
    rw [hz]
    cases o.compressionZlib <;> rfl
  simp only [acceptHeader, bind, Except.bind, check_pos hmagic, check_pos hextra, hword,
    check_pos hlt, hzip, ha, hp, toNat_decide_eq_one]
  rfl

theorem initStream_append {hdr : List UInt8} (body : List UInt8) (hl : hdr.length = 16) :
    initStream env (hdr ++ body) = acceptHeader env hdr (fresh body) := by
  rw [initStream, readBytes_append (r := fresh (hdr ++ body)) rfl hl]
  rfl

theorem initStream_headerBytes (o : Options) (body : List UInt8) :
    initStream env (headerBytes o ++ body) = .ok { fresh body with
      input := if o.compressionZlib then env.inflate body else body
      arch32 := o.archIA32
      traceHasPa := o.physicalAddress } := by
  have hlt : o.word < 256 ^ 8 := by
    have h1 := o.compressionZlib.toNat_le
    have h2 := o.archIA32.toNat_le
    have h3 := o.icacheVariable.toNat_le
    have h4 := o.physicalAddress.toNat_le
    simp only [Options.word]
    omega
  have hmagic : leValue ((headerBytes o).take 4) = magicNumber := by
    rw [headerBytes, List.append_assoc, List.take_left' (by simp)]
    exact leValue_leBytes_of_lt (by decide)
  have hextra : leValue (((headerBytes o).drop 4).take 4) = 0 := by
    rw [headerBytes, List.append_assoc, List.drop_left' (by simp), List.take_left' (by simp)]
    exact leValue_leBytes_of_lt (by decide)
  have hword : leValue ((headerBytes o).drop 8) = o.word := by
    rw [headerBytes, List.drop_left' (by simp)]
    exact leValue_leBytes_of_lt hlt
  rw [initStream_append body (length_headerBytes o), acceptHeader_options _ hmagic hextra hword]
  rfl

theorem synced_fresh {r : Reader} (hl : r.lastAddress = 0) (he : r.seenEnd = false)
    (ha : r.arch32 = cfg.arch32) (hs : r.sinsts = []) (hc : r.scache = fun _ => none) :
    Synced cfg sizeAt Writer.fresh r where
  lastAddress := hl
  seenEnd := he
  arch32 := ha
  sent _ h := absurd h Bool.false_ne_true
  sizes q s h := by simp [hs] at h
  scache a q h := by simp [hc] at h

/-- The size of the first call at an address. -/
def firstSize (is : List Instr) (a : Word) : Nat :=
  ((is.find? fun i => i.addr == a).map Instr.size).getD 0

theorem firstSize_eq {is : List Instr} {i : Instr} (hi : i ∈ is)
    (hsame : ∀ i ∈ is, ∀ j ∈ is, i.addr = j.addr → i.size = j.size) :
    firstSize is i.addr = i.size := by
  obtain ⟨j, hj⟩ : ∃ j, is.find? (fun j => j.addr == i.addr) = some j := by
    rw [← Option.isSome_iff_exists, List.find?_isSome]
    exact ⟨i, hi, beq_self_eq_true _⟩
  have haddr : j.addr = i.addr := by simpa using List.find?_some hj
  rw [firstSize, hj]
  exact hsame j (List.mem_of_find?_eq_some hj) i hi haddr

/-- The trace of `is` is written and read back, instruction by instruction. -/
def RoundTrips (env : ReaderEnv) (cfg : WriterConfig) (deflate : List UInt8 → List UInt8)
    (is : List Instr) : Prop :=
  ∃ file os, writeTrace cfg deflate is = .ok file ∧ readTrace env file = .ok os ∧
    os.length = is.length ∧ List.Forall₂ Agrees is os

/-- Every sequence of calls with sizes from 1 to 15, at most two data addresses, one size for each
address and, where code is sent by pages, no code in the topmost page is read back in full, given a
decoder that accepts the traced code and a lossless zlib. -/
theorem readTrace_writeTrace (env : ReaderEnv) (cfg : WriterConfig)
    (deflate : List UInt8 → List UInt8) (is : List Instr)
    (hsize : ∀ i ∈ is, 1 ≤ i.size ∧ i.size ≤ 15)
    (hnum : ∀ i ∈ is, i.addresses.length ≤ maxDynamicAddresses)
    (hsame : ∀ i ∈ is, ∀ j ∈ is, i.addr = j.addr → i.size = j.size)
    (htop : cfg.requiresIcachePerInsn = false → ∀ i ∈ is, BelowTopPage i.addr i.size)
    (hxed : ∀ i ∈ is, env.xedDecode cfg.arch32 (getCode cfg.code i.addr i.size) = true)
    (hzlib : ∀ bs, env.inflate (deflate bs) = bs) : RoundTrips env cfg deflate is := by
  have htr : ∀ i ∈ is, Traceable env cfg (firstSize is) i := fun i hi =>
    ⟨(hsize i hi).1, (hsize i hi).2, hnum i hi, firstSize_eq hi hsame, fun hp => htop hp i hi,
      hxed i hi⟩
  obtain ⟨w, hw, hall⟩ := instructions_readAll htr Writer.fresh
  let r : Reader := { fresh (w.output ++ otherBytes .end 0) with
    arch32 := cfg.arch32, traceHasPa := cfg.sendVa2paMapping }
  obtain ⟨bs, ho, hl, hread⟩ := hall r (synced_fresh rfl rfl rfl rfl rfl)
  have hbs : w.output = bs := ho
  obtain ⟨os, hos, hag⟩ := hread ((bs ++ otherBytes .end 0).length + 1) (by
    simp only [List.length_append, length_otherBytes]
    omega)
  refine ⟨_, os, by simp only [writeTrace, hw, bind, Except.bind]; rfl, ?_, hag.length_eq.symm, hag⟩
  have hinit : initStream env (headerBytes cfg.options ++ (if cfg.useCompression
      then deflate w.close.output else w.close.output)) = .ok r := by
    rw [initStream_headerBytes]
    by_cases hz : cfg.useCompression = true
    · simp only [WriterConfig.options, hz, if_true, hzlib]
      rfl
    · simp only [WriterConfig.options, hz]
      rfl
  simp only [readTrace, hinit, bind, Except.bind]
  rw [← hbs] at hos
  exact hos

/-- A decoder that knows the one-byte `nop`, zlib left out. -/
def nopEnv : ReaderEnv where
  xedDecode _ data := data.head? == some 0x90
  inflate bs := bs
  newPage _ _ := 0
  control _ _ r := .ok r

/-- A program of `nop`s, its code sent per instruction or by pages. -/
def nopConfig (requiresIcachePerInsn : Bool) : WriterConfig where
  code _ := 0x90
  useCompression := false
  arch32 := false
  requiresIcachePerInsn := requiresIcachePerInsn
  sendVa2paMapping := true
  pagemap vp := some (vp + 1)

def nop (addr : Word) (size : Nat) (addresses : List Word) (isPredicate : Bool) : Instr :=
  ⟨addr, size, addresses, false, false, isPredicate, false⟩

theorem readTrace_writeTrace_nops :
    RoundTrips nopEnv (nopConfig false) id
      [nop 0x1fff 1 [] false, nop 0x2000 1 [0x5008, 0x6010] false, nop 0x1fff 1 [7] true] := by
  apply readTrace_writeTrace
  · decide
  · decide
  · decide
  · intro _ i hi
    simp only [List.mem_cons, List.not_mem_nil, or_false] at hi
    rcases hi with rfl | rfl | rfl <;> (rw [BelowTopPage]; decide)
  · intro i hi
    simp only [List.mem_cons, List.not_mem_nil, or_false] at hi
    rcases hi with rfl | rfl | rfl <;> rfl
  · exact fun _ => rfl

/-- A third data address stops the writer, a second size for an address stops the reader, and code
in the topmost page keeps the writer in its loop. -/
theorem not_roundTrips :
    (¬RoundTrips nopEnv (nopConfig true) id [nop 0x1000 1 [1, 2, 3] false]) ∧
    (¬RoundTrips nopEnv (nopConfig true) id
      [nop 0x1000 1 [] false, nop 0x2000 1 [] false, nop 0x1000 2 [] false]) ∧
    ¬RoundTrips nopEnv (nopConfig false) id [nop 0xfffffffffffff000 1 [] false] := by
  refine ⟨?_, ?_, ?_⟩
  · rintro ⟨file, os, hw, -⟩
    exact absurd hw (by rw [show writeTrace _ _ _ = .error .numAddresses from rfl]; simp)
  · rintro ⟨file, os, hw, hr, -⟩
    have h : (writeTrace (nopConfig true) id
        [nop 0x1000 1 [] false, nop 0x2000 1 [] false, nop 0x1000 2 [] false]).bind
          (readTrace nopEnv) = .error .staticSize := by
      decide +kernel
    rw [hw, Except.bind, hr] at h
    cases h
  · rintro ⟨file, os, hw, -⟩
    have hpages := @sendIcachePages_topPage (nopConfig false) (0xfffffffffffff000 &&& icachePageMask)
      ((0xfffffffffffff000 + BitVec.ofNat 64 1 - 1) &&& icachePageMask) (by decide) (by decide)
      Writer.fresh (2 ^ 52 + 1)
    have hspins : Writer.fresh.instruction (nopConfig false) (nop 0xfffffffffffff000 1 [] false) =
        .error .spins := by
      rw [instruction, check_pos (by decide), check_pos (by decide), nop, sendIcache, if_neg (by decide),
        hpages]
      rfl
    rw [writeTrace, instructions, hspins] at hw
    cases hw

end Sniper.Sift
