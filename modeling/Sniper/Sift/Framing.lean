import Mathlib.Algebra.Group.Nat.Defs
import Sniper.Sift.Reader
set_option autoImplicit false

/-! What one turn of the reader's loop makes of each record at the head of its input. -/

namespace Sniper.Sift
open Sniper.Lib

namespace Reader

variable {env : ReaderEnv} {r : Reader} {rest : List UInt8}

theorem readBytes_append {bs : List UInt8} {n : Nat} (h : r.input = bs ++ rest)
    (hn : bs.length = n) : r.readBytes n = .ok (bs, { r with input := rest }) := by
  subst hn
  simp [readBytes, h]

theorem readWord_append {v : Word} (h : r.input = wordBytes v ++ rest) :
    r.readWord = .ok (v, { r with input := rest }) := by
  rw [readWord, readBytes_append h (length_wordBytes v)]
  simp [bind, Except.bind, pure, Except.pure]

theorem readAddresses_append (as : List Word) {r : Reader}
    (h : r.input = as.flatMap wordBytes ++ rest) :
    readAddresses as.length r = .ok (as, { r with input := rest }) := by
  induction as generalizing r with
  | nil =>
    have hr : r = { r with input := rest } := by
      cases r
      simpa using h
    rw [List.length_nil, readAddresses, ← hr]
  | cons a as ih =>
    have hw : r.input = wordBytes a ++ (as.flatMap wordBytes ++ rest) := by simp [h]
    have hs := ih (r := { r with input := as.flatMap wordBytes ++ rest }) rfl
    rw [List.length_cons, readAddresses, readWord_append hw]
    simp only [bind, Except.bind, pure, Except.pure, hs]

/-- An other record at the head of the input takes the step to its type's branch. -/
theorem step_otherBytes {t : RecOtherType} {size : Nat} (h : r.input = otherBytes t size ++ rest)
    (hs : size < 256 ^ 4) : r.step env = payload env (some t) size { r with input := rest } := by
  have ho : r.step env = r.other env := by simp [step, h, otherBytes]
  have ht : RecOtherType.ofCode ((otherBytes t size).getD 1 0) = some t := by simp [otherBytes]
  have hv : leValue ((otherBytes t size).drop 2) = size := by
    simp [otherBytes, leValue_leBytes_of_lt hs]
  rw [ho, other, readBytes_append h (length_otherBytes t size)]
  simp only [bind, Except.bind, ht, hv]

theorem step_end (h : r.input = otherBytes .end 0 ++ rest) :
    r.step env = .ok (.stop, { r with input := rest, seenEnd := true }) := by
  rw [step_otherBytes h (by decide)]
  rfl

theorem step_icache {base : Word} {bytes : List UInt8} (hl : bytes.length = icacheSize)
    (h : r.input = otherBytes .icache (8 + icacheSize) ++ (wordBytes base ++ (bytes ++ rest))) :
    r.step env = .ok (.again, { r with
      input := rest, icache := Function.update r.icache base (some (bytes.getD · 0)) }) := by
  have hw := readWord_append (r := { r with input := wordBytes base ++ (bytes ++ rest) }) rfl
  have hp := readBytes_append (r := { r with input := bytes ++ rest }) rfl hl
  rw [step_otherBytes h (by decide)]
  simp only [payload, bind, Except.bind, hw, hp]
  rfl

theorem step_icacheVariable {addr : Word} {bytes : List UInt8} (hl : bytes.length < 256)
    (h : r.input = otherBytes .icacheVariable (8 + bytes.length) ++
      (wordBytes addr ++ (bytes ++ rest))) :
    r.step env = .ok (.again, { r with
      input := rest, icache := storeCode env.newPage bytes.length addr bytes r.icache }) := by
  have hw := readWord_append (r := { r with input := wordBytes addr ++ (bytes ++ rest) }) rfl
  have hn : (BitVec.ofNat 64 (8 + bytes.length) - 8).toNat = bytes.length := by bv_omega
  have hp := readBytes_append (r := { r with input := bytes ++ rest }) rfl hn.symm
  rw [step_otherBytes h (by omega)]
  simp only [payload, bind, Except.bind, hw, hp]
  rfl

theorem step_va2pa {vp pp : Word}
    (h : r.input = otherBytes .logical2Physical 16 ++ (wordBytes vp ++ (wordBytes pp ++ rest))) :
    r.step env = .ok (.again, { r with
      input := rest, vcache := Function.update r.vcache vp (some pp) }) := by
  have hw := readWord_append (r := { r with input := wordBytes vp ++ (wordBytes pp ++ rest) }) rfl
  have hp := readWord_append (r := { r with input := wordBytes pp ++ rest }) rfl
  rw [step_otherBytes h (by decide)]
  simp only [payload, bind, Except.bind, hw, hp]
  rfl

theorem finish_append {addr : Word} {size : Nat} {as : List Word}
    (isBranch taken isPredicate executed : Bool) {sinst : StaticInstruction} {r' : Reader}
    (ha : as.length ≤ maxDynamicAddresses) (h : r.input = as.flatMap wordBytes ++ rest)
    (hs : getStaticInstruction env { r with
      input := rest, lastAddress := addr + BitVec.ofNat 64 size } addr size = .ok (sinst, r')) :
    r.finish env addr size as.length isBranch taken isPredicate executed =
      .ok (.insn ⟨sinst, as, isBranch, taken, isPredicate, executed⟩, r') := by
  have hr := readAddresses_append as
    (r := { r with lastAddress := addr + BitVec.ofNat 64 size }) h
  simp only [finish, ha, decide_true, check_true, bind, Except.bind, hr, hs]
  rfl

theorem toNat_decide_eq_one (b : Bool) : decide (b.toNat = 1) = b := by cases b <;> rfl

/-- The fields of the one-byte record. -/
theorem instructionBytes_fields {i : Instr} (h1 : 1 ≤ i.size) (h15 : i.size ≤ 15)
    (ha : i.addresses.length ≤ maxDynamicAddresses) :
    ∃ b : UInt8, instructionBytes i = [b] ∧ b ≠ 0 ∧ b.toNat % 16 = i.size ∧
      b.toNat / 16 % 4 = i.addresses.length ∧ b.toNat / 64 % 2 = i.isBranch.toNat ∧
      b.toNat / 128 % 2 = i.taken.toNat := by
  have hb := i.isBranch.toNat_le
  have ht := i.taken.toNat_le
  simp only [maxDynamicAddresses] at ha
  obtain ⟨b, hbyte, hn⟩ : ∃ b : UInt8, instructionBytes i = [b] ∧
      b.toNat = i.size + 16 * i.addresses.length + 64 * i.isBranch.toNat + 128 * i.taken.toNat := by
    refine ⟨_, rfl, ?_⟩
    rw [UInt8.toNat_ofNat']
    omega
  have hsize : b.toNat % 16 = i.size := by omega
  refine ⟨b, hbyte, ?_, hsize, by omega, by omega, by omega⟩
  intro hz
  rw [hz] at hsize
  simp at hsize
  omega

/-- The fields of the extended record. -/
theorem instructionExtBytes_fields {i : Instr} (h1 : 1 ≤ i.size) (h15 : i.size ≤ 15)
    (ha : i.addresses.length ≤ maxDynamicAddresses) :
    ∃ c b : UInt8, instructionExtBytes i = c :: b :: wordBytes i.addr ∧ c ≠ 0 ∧
      c.toNat % 16 = 0 ∧ c.toNat / 16 = i.size ∧ b.toNat % 4 = i.addresses.length ∧
      b.toNat / 4 % 2 = i.isBranch.toNat ∧ b.toNat / 8 % 2 = i.taken.toNat ∧
      b.toNat / 16 % 2 = i.isPredicate.toNat ∧ b.toNat / 32 % 2 = i.executed.toNat := by
  have hb := i.isBranch.toNat_le
  have ht := i.taken.toNat_le
  have hp := i.isPredicate.toNat_le
  have he := i.executed.toNat_le
  simp only [maxDynamicAddresses] at ha
  obtain ⟨c, b, hbytes, hc, hn⟩ : ∃ c b : UInt8, instructionExtBytes i = c :: b :: wordBytes i.addr ∧
      c.toNat = 16 * i.size ∧
      b.toNat = i.addresses.length + 4 * i.isBranch.toNat + 8 * i.taken.toNat +
        16 * i.isPredicate.toNat + 32 * i.executed.toNat := by
    refine ⟨_, _, rfl, ?_, ?_⟩
    · rw [UInt8.toNat_ofNat']
      omega
    · rw [UInt8.toNat_ofNat']
      omega
  refine ⟨c, b, hbytes, ?_, by omega, by omega, by omega, by omega, by omega, by omega, by omega⟩
  intro hz
  rw [hz] at hc
  simp at hc
  omega

/-- The one-byte record is read back, at the address where the last instruction ended. -/
theorem step_instruction {i : Instr} {sinst : StaticInstruction} {r' : Reader}
    (h1 : 1 ≤ i.size) (h15 : i.size ≤ 15) (ha : i.addresses.length ≤ maxDynamicAddresses)
    (h : r.input = instructionBytes i ++ (i.addresses.flatMap wordBytes ++ rest))
    (hs : getStaticInstruction env { r with
      input := rest, lastAddress := r.lastAddress + BitVec.ofNat 64 i.size } r.lastAddress i.size =
        .ok (sinst, r')) :
    r.step env = .ok (.insn ⟨sinst, i.addresses, i.isBranch, i.taken, false, true⟩, r') := by
  obtain ⟨b, hbyte, hne, hsize, hnum, hbr, htk⟩ := instructionBytes_fields h1 h15 ha
  have hstep : r.step env = r.simple env := by
    have hsz : b.toNat % 16 ≠ 0 := by omega
    simp [step, h, hbyte, hne, hsz]
  have hf := finish_append (r := { r with input := i.addresses.flatMap wordBytes ++ rest })
    i.isBranch i.taken false true ha rfl hs
  rw [hbyte] at h
  rw [hstep, simple, readBytes_append (n := 1) h rfl]
  simp only [bind, Except.bind, List.getD_cons_zero, hsize, hnum, hbr, htk, toNat_decide_eq_one]
  exact hf

/-- The extended record is read back, at the address it carries. -/
theorem step_instructionExt {i : Instr} {sinst : StaticInstruction} {r' : Reader}
    (h1 : 1 ≤ i.size) (h15 : i.size ≤ 15) (ha : i.addresses.length ≤ maxDynamicAddresses)
    (h : r.input = instructionExtBytes i ++ (i.addresses.flatMap wordBytes ++ rest))
    (hs : getStaticInstruction env { r with
      input := rest, lastAddress := i.addr + BitVec.ofNat 64 i.size } i.addr i.size =
        .ok (sinst, r')) :
    r.step env = .ok
      (.insn ⟨sinst, i.addresses, i.isBranch, i.taken, i.isPredicate, i.executed⟩, r') := by
  obtain ⟨c, b, hbytes, hne, hsz, hsize, hnum, hbr, htk, hpr, hex⟩ :=
    instructionExtBytes_fields h1 h15 ha
  have hstep : r.step env = r.extended env := by
    simp [step, h, hbytes, hne, hsz]
  have hf := finish_append (r := { r with input := i.addresses.flatMap wordBytes ++ rest })
    i.isBranch i.taken i.isPredicate i.executed ha rfl hs
  rw [hbytes] at h
  rw [hstep, extended, readBytes_append h (by simp)]
  simp only [bind, Except.bind, List.getD_cons_zero, List.getD_cons_succ, List.drop_succ_cons,
    List.drop_zero, wordValue_wordBytes, hsize, hnum, hbr, htk, hpr, hex, toNat_decide_eq_one]
  exact hf

end Reader

end Sniper.Sift
