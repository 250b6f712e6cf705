import Sniper.Sift.RoundTrip
set_option autoImplicit false

/-! The reader's two ways to a static instruction it has decoded before: the pointer to the probable
next one, and the cache by address. -/

namespace Sniper.Sift
open Sniper.Lib

namespace Reader

variable {env : ReaderEnv} {r r' : Reader}

/-- The pointer that `m_last_sinst->next` gives for an address. -/
def shortcut (r : Reader) (addr : Word) : Option Nat :=
  r.lastNext.filter fun q => (r.sinsts[q]?).any fun s => s.addr == addr

/-- The cache leads to static instructions of the right address, and each static instruction is the
one that is cached under its address. -/
structure Linked (r : Reader) : Prop where
  cached : ∀ a q, r.scache a = some q → ∃ s, r.sinsts[q]? = some s ∧ s.addr = a
  only : ∀ q s, r.sinsts[q]? = some s → r.scache s.addr = some q

/-- Before the first instruction, with any code image. -/
structure Unused (r : Reader) : Prop where
  sinsts : r.sinsts = []
  scache : ∀ a, r.scache a = none
  lastSinst : r.lastSinst = none

theorem Unused.linked (h : r.Unused) : r.Linked := by
  refine ⟨fun a q hq => ?_, fun q s hs => ?_⟩
  · rw [h.scache] at hq
    cases hq
  · simp [h.sinsts] at hs

/-- Where the shortcut leads is where the cache leads. -/
theorem Linked.shortcut_cached (h : r.Linked) {addr : Word} {q : Nat}
    (hq : r.shortcut addr = some q) : ∃ s, r.sinsts[q]? = some s ∧ s.addr = addr ∧
      r.scache addr = some q := by
  obtain ⟨-, hany⟩ := Option.filter_eq_some_iff.mp hq
  obtain ⟨s, hs, haddr⟩ := (Option.any_eq_true _ _).mp hany
  have heq : s.addr = addr := by simpa using haddr
  exact ⟨s, hs, heq, heq ▸ h.only q s hs⟩

theorem decodeInstruction_ok {addr : Word} {size : Nat} {s : StaticInstruction}
    (h : r.decodeInstruction env addr size = .ok s) :
    s.addr = addr ∧ s.size = size ∧ s.next = none := by
  simp only [decodeInstruction, except_bind_eq_ok, check_eq_ok, pure_eq_ok] at h
  obtain ⟨data, -, u, -, rfl⟩ := h
  exact ⟨rfl, rfl, rfl⟩

/-- A static instruction comes over the shortcut, out of the cache after its size has been checked,
or is decoded and goes to the cache. -/
theorem findStatic_cases {addr : Word} {size q : Nat}
    (h : r.findStatic env addr size = .ok (q, r')) :
    (r.shortcut addr = some q ∧ r' = r) ∨
    (r.shortcut addr = none ∧ r.scache addr = some q ∧ r' = r ∧
      ∃ s, r.sinsts[q]? = some s ∧ s.size = size) ∨
    (r.shortcut addr = none ∧ r.scache addr = none ∧ q = r.sinsts.length ∧ ∃ s,
      r.decodeInstruction env addr size = .ok s ∧ r' = { r with
        sinsts := r.sinsts ++ [s], scache := Function.update r.scache addr (some q) }) := by
  rw [shortcut]
  cases hhit : r.lastNext.filter fun q => (r.sinsts[q]?).any fun s => s.addr == addr with
  | some p =>
    simp only [findStatic, hhit] at h
    cases h
    exact .inl ⟨rfl, rfl⟩
  | none =>
    simp only [findStatic, hhit] at h
    cases hcache : r.scache addr with
    | some p =>
      simp only [hcache, except_bind_eq_ok, check_eq_ok] at h
      obtain ⟨u, hsize, h⟩ := h
      cases h
      obtain ⟨s, hs, hz⟩ := (Option.any_eq_true _ _).mp hsize
      exact .inr (.inl ⟨rfl, rfl, rfl, s, hs, by simpa using hz⟩)
    | none =>
      simp only [hcache, except_bind_eq_ok] at h
      obtain ⟨s, hs, h⟩ := h
      cases h
      exact .inr (.inr ⟨rfl, rfl, rfl, s, hs, rfl⟩)

theorem Linked.link (h : r.Linked) (q : Nat) : (r.link q).Linked := by
  refine ⟨fun a k hk => ?_, fun k s' hs' => ?_⟩
  · obtain ⟨s, hs, ha⟩ := h.cached a k hk
    obtain ⟨s', hs', ha', -⟩ := link_some hs
    exact ⟨s', hs', ha'.trans ha⟩
  · obtain ⟨s, hs, ha, -⟩ := some_of_link hs'
    rw [ha]
    exact h.only k s hs

/-- A static instruction for an address that is not cached yet. -/
theorem Linked.add (h : r.Linked) {s : StaticInstruction} (hnew : r.scache s.addr = none) :
    Linked { r with
      sinsts := r.sinsts ++ [s]
      scache := Function.update r.scache s.addr (some r.sinsts.length) } := by
  refine ⟨fun a q hq => ?_, fun q t ht => ?_⟩
  · simp only at hq
    by_cases ha : a = s.addr
    · rw [ha, Function.update_self, Option.some.injEq] at hq
      exact ⟨s, by rw [← hq]; simp, ha.symm⟩
    · rw [Function.update_of_ne ha] at hq
      obtain ⟨t, ht, hta⟩ := h.cached a q hq
      obtain ⟨hlt, -⟩ := List.getElem?_eq_some_iff.mp ht
      exact ⟨t, by rw [List.getElem?_append_left hlt]; exact ht, hta⟩
  · simp only at ht ⊢
    rw [List.getElem?_append] at ht
    split at ht
    case isTrue =>
      have hcached := h.only q t ht
      have ha : t.addr ≠ s.addr := by
        intro heq
        rw [heq, hnew] at hcached
        cases hcached
      rw [Function.update_of_ne ha]
      exact hcached
    case isFalse hge =>
      obtain ⟨hlt, heq⟩ := List.getElem?_eq_some_iff.mp ht
      have hzero : q - r.sinsts.length = 0 := by simpa using hlt
      have hq : q = r.sinsts.length := by omega
      simp only [hzero, List.getElem_cons_zero] at heq
      rw [← heq, Function.update_self, hq]

theorem Linked.findStatic (h : r.Linked) {addr : Word} {size q : Nat}
    (hfind : r.findStatic env addr size = .ok (q, r')) : r'.Linked := by
  rcases findStatic_cases hfind with ⟨-, rfl⟩ | ⟨-, -, rfl, -⟩ | ⟨-, hnone, rfl, s, hs, rfl⟩
  · exact h
  · exact h
  · obtain ⟨rfl, -, -⟩ := decodeInstruction_ok hs
    exact h.add hnone

theorem getStaticInstruction_cases {addr : Word} {size : Nat} {s : StaticInstruction}
    (h : r.getStaticInstruction env addr size = .ok (s, r')) :
    ∃ q r₁, r.findStatic env addr size = .ok (q, r₁) ∧ r' = r₁.link q ∧
      r'.sinsts[q]? = some s := by
  simp only [getStaticInstruction, except_bind_eq_ok] at h
  obtain ⟨⟨q, r₁⟩, hfind, h⟩ := h
  refine ⟨q, r₁, hfind, ?_⟩
  cases hs : (r₁.link q).sinsts[q]? with
  | none => simp [hs] at h
  | some t =>
    simp only [hs, pure_eq_ok, Prod.mk.injEq] at h
    obtain ⟨rfl, rfl⟩ := h
    exact ⟨rfl, hs⟩

theorem Linked.getStaticInstruction (h : r.Linked) {addr : Word} {size : Nat}
    {s : StaticInstruction} (hget : r.getStaticInstruction env addr size = .ok (s, r')) :
    r'.Linked := by
  obtain ⟨q, r₁, hfind, rfl, -⟩ := getStaticInstruction_cases hget
  exact (h.findStatic hfind).link q

/-- The reader after calls for addresses and sizes. -/
def getAll (env : ReaderEnv) (r : Reader) (calls : List (Word × Nat)) : Except Abort Reader :=
  calls.foldlM (fun r c => do
    let (_, r) ← r.getStaticInstruction env c.1 c.2
    return r) r

theorem Linked.getAll (h : r.Linked) {calls : List (Word × Nat)}
    (hcalls : r.getAll env calls = .ok r') : r'.Linked := by
  refine foldlM_keeps (I := Linked) (fun r c r' hr hstep => ?_) h hcalls
  simp only [except_bind_eq_ok, pure_eq_ok] at hstep
  obtain ⟨⟨s, r₁⟩, hget, rfl⟩ := hstep
  exact hr.getStaticInstruction hget

/-- The call returns an instruction of the address and the size asked for, or stops on the size
assertion; only an instruction that has to be decoded can stop it otherwise. -/
def ExactOrStops (env : ReaderEnv) (r : Reader) (addr : Word) (size : Nat) : Prop :=
  match r.getStaticInstruction env addr size with
  | .ok (s, _) => s.addr = addr ∧ s.size = size
  | .error e => e = .staticSize ∨ r.scache addr = none

/-- The shortcut leads to an instruction of another size. -/
def OtherSize (r : Reader) (addr : Word) (size : Nat) : Prop :=
  ∃ q s, r.shortcut addr = some q ∧ r.sinsts[q]? = some s ∧ s.size ≠ size

theorem findStatic_shortcut (env : ReaderEnv) {addr : Word} {q : Nat} (h : r.shortcut addr = some q) (size : Nat) :
    r.findStatic env addr size = .ok (q, r) := by
  rw [shortcut] at h
  simp only [findStatic, h]
  rfl

theorem findStatic_cached (env : ReaderEnv) {addr : Word} {q : Nat} (h : r.shortcut addr = none)
    (hq : r.scache addr = some q) {s : StaticInstruction} (hs : r.sinsts[q]? = some s) (size : Nat) :
    r.findStatic env addr size = if s.size = size then .ok (q, r) else .error .staticSize := by
  rw [shortcut] at h
  simp only [findStatic, h, hq, hs, Option.any_some]
  split
  case isTrue heq =>
    rw [heq, beq_self_eq_true]
    rfl
  case isFalse hne =>
    rw [beq_false_of_ne hne]
    rfl

/-- What is found is returned, with its address and size. -/
theorem getStaticInstruction_found {addr : Word} {size q : Nat} {s : StaticInstruction}
    (h : r.findStatic env addr size = .ok (q, r')) (hs : r'.sinsts[q]? = some s) :
    ∃ s', r.getStaticInstruction env addr size = .ok (s', r'.link q) ∧ s'.addr = s.addr ∧
      s'.size = s.size := by
  obtain ⟨s', hs', heq⟩ := link_some (q := q) hs
  refine ⟨s', ?_, heq⟩
  simp only [getStaticInstruction, h, bind, Except.bind, hs']
  rfl

theorem Linked.exactOrStops_iff (h : r.Linked) (addr : Word) (size : Nat) :
    r.ExactOrStops env addr size ↔ ¬r.OtherSize addr size := by
  unfold ExactOrStops OtherSize
  cases hshort : r.shortcut addr with
  | some q =>
    obtain ⟨s, hs, haddr, -⟩ := h.shortcut_cached hshort
    obtain ⟨s', hget, haddr', hsize'⟩ :=
      getStaticInstruction_found (findStatic_shortcut env hshort size) hs
    simp [hget, haddr', hsize', haddr, hs]
  | none =>
    simp only [reduceCtorEq, false_and, exists_false, not_false_eq_true, iff_true]
    cases hcache : r.scache addr with
    | some q =>
      obtain ⟨s, hs, haddr⟩ := h.cached addr q hcache
      have hfind := findStatic_cached env hshort hcache hs size
      by_cases hsize : s.size = size
      · rw [if_pos hsize] at hfind
        obtain ⟨s', hget, haddr', hsize'⟩ := getStaticInstruction_found hfind hs
        rw [hget]
        exact ⟨haddr'.trans haddr, hsize'.trans hsize⟩
      · rw [if_neg hsize] at hfind
        simp [Reader.getStaticInstruction, hfind, bind, Except.bind]
    | none =>
      cases hget : r.getStaticInstruction env addr size with
      | error e => exact .inr rfl
      | ok result =>
        obtain ⟨s, r'⟩ := result
        obtain ⟨q, r₁, hfind, rfl, hs⟩ := getStaticInstruction_cases hget
        rcases findStatic_cases hfind with ⟨hq, -⟩ | ⟨-, hq, -⟩ | ⟨-, -, rfl, t, ht, rfl⟩
        · rw [hshort] at hq
          cases hq
        · rw [hcache] at hq
          cases hq
        · obtain ⟨haddr, hsize, -⟩ := decodeInstruction_ok ht
          obtain ⟨t', ht', haddr', hsize'⟩ := some_of_link hs
          simp only [List.getElem?_append_right (Nat.le_refl _), Nat.sub_self,
            List.getElem?_cons_zero, Option.some.injEq] at ht'
          subst ht'
          exact ⟨haddr'.trans haddr, hsize'.trans hsize⟩

/-- After any calls on a reader, over any code image: the shortcut leads to the instruction in the
cache, and a call is exact or stops unless the shortcut leads to an instruction of another size. -/
theorem shortcut_agrees (hunused : r.Unused) {calls : List (Word × Nat)}
    (hcalls : r.getAll env calls = .ok r') (addr : Word) (size : Nat) :
    (∀ q, r'.shortcut addr = some q → r'.scache addr = some q) ∧
    (r'.ExactOrStops env addr size ↔ ¬r'.OtherSize addr size) := by
  have hlinked := hunused.linked.getAll hcalls
  refine ⟨fun q hq => ?_, hlinked.exactOrStops_iff addr size⟩
  obtain ⟨s, -, -, hcached⟩ := hlinked.shortcut_cached hq
  exact hcached

/-- A decoder that takes everything. -/
def anyCode : ReaderEnv := ⟨fun _ _ => true, id, fun _ _ => 0, fun _ _ r => .ok r⟩

/-- A code image of one-byte instructions. -/
def nops : Reader := { Reader.fresh [] with icache := fun _ => some fun _ => 0x90 }

theorem nops_unused : nops.Unused := ⟨rfl, fun _ => rfl, rfl⟩

/-- A loop of two instructions: the second time round the shortcut is taken. -/
theorem shortcut_agrees_loop : ∃ r, nops.getAll anyCode [(0x10, 4), (0x14, 4), (0x10, 4)] = .ok r ∧
    r.shortcut 0x14 = some 1 ∧ r.scache 0x14 = some 1 := by
  obtain ⟨r, hcalls, hshort⟩ : ∃ r,
      nops.getAll anyCode [(0x10, 4), (0x14, 4), (0x10, 4)] = .ok r ∧ r.shortcut 0x14 = some 1 :=
    ⟨_, rfl, rfl⟩
  exact ⟨r, hcalls, hshort, (shortcut_agrees nops_unused hcalls 0x14 4).1 1 hshort⟩

/-- The same loop: over the shortcut an instruction of four bytes is returned for one of two. -/
theorem shortcut_other_size :
    ∃ r, nops.getAll anyCode [(0x10, 4), (0x14, 4), (0x10, 4)] = .ok r ∧
      ¬r.ExactOrStops anyCode 0x14 2 := by
  refine ⟨_, rfl, fun h => ?_⟩
  have hsize : (4 : Nat) = 2 := h.2
  cases hsize

end Reader

end Sniper.Sift
