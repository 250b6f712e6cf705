import Mathlib.Algebra.Group.Nat.Defs
import Sniper.Sift.Control
import Sniper.Sift.Decoding
set_option autoImplicit false

/-! Control records are read back, and the stream stays in step. -/

namespace Sniper.Sift
open Sniper.Lib

variable {env : ReaderEnv} {cfg : WriterConfig} {sizeAt : Word → Nat} {h : Handlers}

namespace Reader

def withInput (r : Reader) (bs : List UInt8) : Reader := { r with input := bs }

theorem withInput_self {r : Reader} {bs : List UInt8} (hr : r.input = bs) : r.withInput bs = r := by
  subst hr
  rfl

theorem readBytes_withInput {r : Reader} {bs rest : List UInt8} {n : Nat} (hn : bs.length = n) :
    (r.withInput (bs ++ rest)).readBytes n = .ok (bs, r.withInput rest) :=
  readBytes_append (r := r.withInput (bs ++ rest)) rfl hn

theorem readNat_withInput {r : Reader} {rest : List UInt8} {n v : Nat} (hv : v < 256 ^ n) :
    (r.withInput (leBytes n v ++ rest)).readNat n = .ok (v, r.withInput rest) := by
  rw [readNat, readBytes_withInput (length_leBytes n v)]
  simp only [bind, Except.bind, pure, Except.pure, leValue_leBytes_of_lt hv]

theorem readNat_cons {r : Reader} {rest : List UInt8} {b : UInt8} :
    (r.withInput (b :: rest)).readNat 1 = .ok (b.toNat, r.withInput rest) := by
  have hread : (r.withInput ([b] ++ rest)).readBytes 1 = .ok ([b], r.withInput rest) :=
    readBytes_withInput rfl
  rw [List.singleton_append] at hread
  rw [readNat, hread]
  simp [bind, Except.bind, pure, Except.pure, leValue]

theorem readWord_withInput {r : Reader} {rest : List UInt8} {v : Word} :
    (r.withInput (wordBytes v ++ rest)).readWord = .ok (v, r.withInput rest) :=
  readWord_append (r := r.withInput (wordBytes v ++ rest)) rfl

end Reader

open Reader Writer

/-- What a callback finds in the bytes of a string. -/
def CString.received (s : CString) : Option (List UInt8) :=
  cString ((s.val ++ [0]).take (stringSize s))

theorem Reader.readString_withInput {r : Reader} {rest : List UInt8} {s : CString} :
    (r.withInput (stringBytes s ++ rest)).readString = .ok (CString.received s, r.withInput rest) := by
  have hsize : stringSize s < 256 ^ 2 := Nat.mod_lt _ (by decide)
  have hle : stringSize s ≤ s.val.length + 1 := Nat.mod_le _ _
  have hlen : ((s.val ++ [0]).take (stringSize s)).length = stringSize s := by
    simp only [List.length_take, List.length_append, List.length_singleton]
    omega
  rw [readString, stringBytes, List.append_assoc, readNat_withInput hsize]
  simp only [bind, Except.bind, readBytes_withInput hlen, pure, Except.pure]
  rfl

/-- A string arrives if its size fits sixteen bits; a longer one loses its end and its zero. -/
theorem CString.received_eq (s : CString) :
    CString.received s = some s.val ↔ s.val.length + 1 < 2 ^ 16 := by
  have hz : ∀ k, 0 ∉ s.val.take k := fun k hk => s.property (List.mem_of_mem_take hk)
  rw [CString.received, stringSize]
  by_cases hlt : s.val.length + 1 < 2 ^ 16
  · have htake : (s.val ++ [0]).take (s.val.length + 1) = s.val ++ [0] :=
      List.take_of_length_le (by simp)
    have hall : ∀ b ∈ s.val, (b != 0) = true := by
      intro b hb
      simp only [bne_iff_ne, ne_eq]
      rintro rfl
      exact s.property hb
    have hmem : 0 ∈ s.val ++ [0] := List.mem_append_right _ List.mem_cons_self
    rw [Nat.mod_eq_of_lt hlt, htake, cString, if_pos hmem, List.takeWhile_append_of_pos hall,
      List.takeWhile_cons_of_neg (by decide), List.append_nil]
    exact iff_of_true rfl hlt
  · have hk : (s.val.length + 1) % 2 ^ 16 ≤ s.val.length := by
      have := Nat.mod_lt (s.val.length + 1) (show 0 < 2 ^ 16 by decide)
      omega
    rw [List.take_append_of_le_length hk, cString, if_neg (hz _)]
    exact iff_of_false (fun hno => by cases hno) hlt

namespace Control

def type : Control → RecOtherType
  | .output .. => .output
  | .syscall .. => .syscallRequest
  | .newThread => .newThread
  | .join .. => .join
  | .sync => .sync
  | .fork => .fork
  | .magic .. => .magicInstruction
  | .emulate .. => .emu
  | .routineChange .. => .routineChange
  | .routineAnnounce .. => .routineAnnounce
  | .instructionCount .. => .instructionCount
  | .cacheOnly .. => .cacheOnly

def payload : Control → List UInt8
  | .output fd data => [fd] ++ data.val
  | .syscall number data => leBytes 2 number.toNat ++ data.val
  | .newThread => []
  | .join thread => leBytes 4 thread.toNat
  | .sync => []
  | .fork => []
  | .magic a b c => wordBytes a ++ wordBytes b ++ wordBytes c
  | .emulate type req => leBytes 2 type.ctorIdx ++ wordBytes req
  | .routineChange event eip esp callEip =>
    leBytes 1 event.ctorIdx ++ wordBytes eip ++ wordBytes esp ++ wordBytes callEip
  | .routineAnnounce eip name imgname offset line column filename =>
    wordBytes eip ++ stringBytes name ++ stringBytes imgname ++ wordBytes offset ++
      leBytes 4 line.toNat ++ leBytes 4 column.toNat ++ stringBytes filename
  | .instructionCount icount => leBytes 4 icount.toNat
  | .cacheOnly icount type eip address =>
    [icount] ++ leBytes 1 type.ctorIdx ++ wordBytes eip ++ wordBytes address

def size : Control → Nat
  | .output _ data => 1 + data.val.length
  | .syscall _ data => 2 + data.val.length
  | .newThread => 0
  | .join _ => 4
  | .sync => 0
  | .fork => 0
  | .magic .. => 3 * 8
  | .emulate .. => 2 + 8
  | .routineChange .. => 1 + 3 * 8
  | .routineAnnounce _ name imgname _ _ _ filename =>
    8 + 2 + stringSize name + 2 + stringSize imgname + 8 + 4 + 4 + 2 + stringSize filename
  | .instructionCount _ => 4
  | .cacheOnly .. => 1 + 1 + 8 + 8

/-- The callback a call is to make. `Sync` makes the one for instruction counts. -/
def callback : Control → Callback
  | .output fd data => .output fd data.val
  | .syscall number data => .syscall number data.val
  | .newThread => .newThread
  | .join thread => .join thread
  | .sync => .instructionCount 0
  | .fork => .fork
  | .magic a b c => .magic a b c
  | .emulate type req => .emu (some type) (wordBytes req)
  | .routineChange event eip esp callEip => .routineChange (some event) eip esp callEip
  | .routineAnnounce eip name imgname offset line column filename =>
    .routineAnnounce eip (some name.val) (some imgname.val) offset line column (some filename.val)
  | .instructionCount icount => .instructionCount icount
  | .cacheOnly icount type eip address => .cacheOnly icount (some type) eip address

/-- The callback it makes, with the strings as they arrive. -/
def received : Control → Callback
  | .routineAnnounce eip name imgname offset line column filename =>
    .routineAnnounce eip (CString.received name) (CString.received imgname) offset line column
      (CString.received filename)
  | c => c.callback

/-- The size of the record passes the reader's assertion. -/
def Fits : Control → Prop
  | .output _ data => 1 ≤ data.val.length ∧ 1 + data.val.length < 2 ^ 32
  | .syscall _ data => 1 ≤ data.val.length ∧ 2 + data.val.length < 2 ^ 32
  | _ => True

/-- The strings fit their sixteen-bit sizes. -/
def StringsFit : Control → Prop
  | .routineAnnounce _ name imgname _ _ _ filename =>
    name.val.length + 1 < 2 ^ 16 ∧ imgname.val.length + 1 < 2 ^ 16 ∧
      filename.val.length + 1 < 2 ^ 16
  | _ => True

theorem received_eq_callback (c : Control) : c.received = c.callback ↔ c.StringsFit := by
  cases c with
  | routineAnnounce eip name imgname offset line column filename =>
    simp [received, callback, StringsFit, CString.received_eq]
  | _ => simp [received, StringsFit]

/-- What the branch of a record makes of its payload, whose size passes the assertion. -/
theorem handler_payload (c : Control) (hfits : c.Fits)
    (hs : h.syscall = true ∧ h.newThread = true ∧ h.join = true ∧ h.fork = true) :
    ∃ branch, handler h c.type = some branch ∧ ∀ (r : Reader) rest,
      branch (leValue (leBytes 4 c.size)) (r.withInput (c.payload ++ rest)) =
        .ok (c.received, r.withInput rest) := by
  obtain ⟨hsys, hnew, hjoin, hfork⟩ := hs
  have h16 : ∀ v : BitVec 16, v.toNat < 256 ^ 2 := fun v => v.isLt
  have h32 : ∀ v : BitVec 32, v.toNat < 256 ^ 4 := fun v => v.isLt
  cases c with
  | output fd data =>
    have hlen : 1 + data.val.length < 256 ^ 4 := hfits.2
    have hsize : 1 < 1 + data.val.length := by have := hfits.1; omega
    refine ⟨_, rfl, fun r rest => ?_⟩
    simp only [size, payload, leValue_leBytes_of_lt hlen, List.cons_append, List.nil_append,
      bind, Except.bind, check_pos hsize, readNat_cons]
    simp [readBytes_withInput, pure, Except.pure, received, callback]
  | syscall number data =>
    have hlen : 2 + data.val.length < 256 ^ 4 := hfits.2
    have hsize : 2 < 2 + data.val.length := by have := hfits.1; omega
    refine ⟨_, rfl, fun r rest => ?_⟩
    simp only [size, payload, leValue_leBytes_of_lt hlen, List.append_assoc, bind, Except.bind,
      check_pos hsize, readNat_withInput (h16 number), hsys, check_true]
    simp [readBytes_withInput, pure, Except.pure, received, callback]
  | newThread =>
    refine ⟨_, rfl, fun r rest => ?_⟩
    simp [size, payload, leValue_leBytes, bind, Except.bind, hnew, pure, Except.pure, received,
      callback]
  | join thread =>
    refine ⟨_, rfl, fun r rest => ?_⟩
    simp [size, payload, leValue_leBytes, bind, Except.bind, readNat_withInput (h32 thread), hjoin,
      pure, Except.pure, received, callback]
  | sync =>
    refine ⟨_, rfl, fun r rest => ?_⟩
    simp [size, payload, leValue_leBytes, bind, Except.bind, pure, Except.pure, received, callback]
  | fork =>
    refine ⟨_, rfl, fun r rest => ?_⟩
    simp [size, payload, leValue_leBytes, bind, Except.bind, hfork, pure, Except.pure, received,
      callback]
  | magic a b c =>
    refine ⟨_, rfl, fun r rest => ?_⟩
    simp [size, payload, leValue_leBytes, bind, Except.bind, readWord_withInput, pure, Except.pure,
      received, callback]
  | emulate type req =>
    refine ⟨_, rfl, fun r rest => ?_⟩
    simp [size, payload, leValue_leBytes, bind, Except.bind,
      readNat_withInput type.ctorIdx_lt, readBytes_withInput (length_wordBytes req), pure,
      Except.pure, received, callback]
  | routineChange event eip esp callEip =>
    refine ⟨_, rfl, fun r rest => ?_⟩
    simp [size, payload, leValue_leBytes, bind, Except.bind, readNat_withInput event.ctorIdx_lt,
      readWord_withInput, pure, Except.pure, received, callback]
  | routineAnnounce eip name imgname offset line column filename =>
    refine ⟨_, rfl, fun r rest => ?_⟩
    simp [payload, bind, Except.bind, readNat_withInput (h32 _), readString_withInput,
      readWord_withInput, pure, Except.pure, received]
  | instructionCount icount =>
    refine ⟨_, rfl, fun r rest => ?_⟩
    simp [size, payload, leValue_leBytes, bind, Except.bind, readNat_withInput (h32 icount), pure,
      Except.pure, received, callback]
  | cacheOnly icount type eip address =>
    refine ⟨_, rfl, fun r rest => ?_⟩
    simp [size, payload, leValue_leBytes, bind, Except.bind, readNat_cons,
      readNat_withInput type.ctorIdx_lt, readWord_withInput, pure, Except.pure, received, callback]

/-- A size that does not pass is asserted before anything is read. -/
theorem handler_fails (c : Control) (hfits : ¬c.Fits) :
    ∃ branch, handler h c.type = some branch ∧
      ∀ r, branch (leValue (leBytes 4 c.size)) r = .error .recordSize := by
  cases c with
  | output fd data =>
    have hlt := data.property
    have hsize : ¬1 < leValue (leBytes 4 (1 + data.val.length)) := by
      simp only [Fits] at hfits
      rw [leValue_leBytes]
      omega
    refine ⟨_, rfl, fun r => ?_⟩
    rw [size]
    simp only [check_neg hsize, bind, Except.bind]
  | syscall number data =>
    have hlt := data.property
    have hsize : ¬2 < leValue (leBytes 4 (2 + data.val.length)) := by
      simp only [Fits] at hfits
      rw [leValue_leBytes]
      omega
    refine ⟨_, rfl, fun r => ?_⟩
    rw [size]
    simp only [check_neg hsize, bind, Except.bind]
  | _ => exact absurd trivial hfits

end Control

theorem sendArgument_sends {w w' : Writer} {number : BitVec 16} {data : Buffer}
    (hw : w.sendArgument cfg number data = .ok w') :
    ∃ as : List Word, w' = as.foldl (sendVa2pa cfg) w := by
  have hone : ∀ k, (argument data k).map (w.sendVa2pa cfg) = .ok w' →
      ∃ as : List Word, w' = as.foldl (sendVa2pa cfg) w := by
    intro k hk
    cases ha : argument data k with
    | error e =>
      rw [ha] at hk
      cases hk
    | ok a =>
      rw [ha] at hk
      cases hk
      exact ⟨[a], rfl⟩
  rw [sendArgument] at hw
  split at hw
  · exact hone 0 hw
  · split at hw
    · exact hone 1 hw
    · cases hw
      exact ⟨[], rfl⟩

/-- Every control call sends its record, some after the mappings of its addresses. -/
theorem control_writes {w w' : Writer} {c : Control} (hw : w.control cfg c = .ok w') :
    ∃ as : List Word, w' = (as.foldl (sendVa2pa cfg) w).writeOther c.type c.size c.payload := by
  cases c with
  | syscall number data =>
    simp only [Writer.control, syscall, except_bind_eq_ok, pure_eq_ok] at hw
    obtain ⟨w₁, hargs, rfl⟩ := hw
    obtain ⟨as, rfl⟩ := sendArgument_sends hargs
    exact ⟨as, rfl⟩
  | cacheOnly icount type eip address =>
    cases hw
    exact ⟨[eip, address], rfl⟩
  | _ =>
    cases hw
    exact ⟨[], rfl⟩

theorem call_output {w w' : Writer} {c : Call} (hw : w.call cfg c = .ok w') :
    w.output <+: w'.output := by
  cases c with
  | instruction i => exact instruction_output hw
  | control c =>
    obtain ⟨as, rfl⟩ := control_writes hw
    exact (foldl_sendVa2pa_output as w).trans (List.prefix_append _ _)

theorem calls_output {cs : List Call} {w w' : Writer} (hw : w.calls cfg cs = .ok w') :
    w.output <+: w'.output := by
  induction cs generalizing w with
  | nil =>
    cases hw
    exact List.prefix_rfl
  | cons c cs ih =>
    simp only [calls, except_bind_eq_ok] at hw
    obtain ⟨w₁, h₁, hrest⟩ := hw
    exact (call_output h₁).trans (ih hrest)

theorem calls_append {pre post : List Call} {w w' : Writer}
    (hw : w.calls cfg (pre ++ post) = .ok w') :
    ∃ w₁, w.calls cfg pre = .ok w₁ ∧ w₁.calls cfg post = .ok w' := by
  induction pre generalizing w with
  | nil => exact ⟨w, rfl, hw⟩
  | cons c pre ih =>
    simp only [List.cons_append, calls, except_bind_eq_ok] at hw ⊢
    obtain ⟨w₁, h₁, hrest⟩ := hw
    obtain ⟨w₂, h₂, hpost⟩ := ih hrest
    exact ⟨w₂, ⟨w₁, h₁, h₂⟩, hpost⟩

namespace Session

/-- The branch of a control record, from the bytes of the record. -/
theorem step_otherBytes (env : ReaderEnv) {s : Session} {t : RecOtherType} {size : Nat}
    {rest : List UInt8} {branch : Nat → Reader → Except Abort (Callback × Reader)}
    (hbranch : handler h t = some branch) (hin : s.reader.input = otherBytes t size ++ rest) :
    s.step env h = (branch (leValue (leBytes 4 size)) (s.reader.withInput rest)).map
      fun x => (.again, s.called h x.1 x.2) := by
  have hpending : s.pending h = some branch := by
    rw [pending, hin]
    simp [otherBytes, hbranch]
  rw [step, hpending, readBytes_append hin (length_otherBytes t size)]
  simp only [bind, Except.bind, otherBytes, List.cons_append, List.nil_append, List.drop_succ_cons,
    List.drop_zero, withInput]
  cases branch (leValue (leBytes 4 size)) { s.reader with input := rest } with
  | error e => rfl
  | ok x => rfl

/-- A turn without a callback is a turn of the reader. -/
theorem step_of_deaf {s : Session} {item : Item} {r' : Reader}
    (hstep : Reader.step env.deaf s.reader = .ok (item, r')) :
    s.step env h = .ok (item, ⟨r', s.events ++ item.events⟩) := by
  have hpending : s.pending h = none := by
    rw [pending]
    split
    · rename_i byte code bs hin
      split
      · rename_i hz
        rw [Option.bind_eq_none_iff]
        intro t ht
        rw [Reader.step, hin] at hstep
        simp only [hz, if_true, other, except_bind_eq_ok] at hstep
        obtain ⟨⟨rec, r₁⟩, hread, hpay⟩ := hstep
        rw [Reader.readBytes, hin] at hread
        split at hread
        · cases hread
          simp only [List.take_succ_cons, List.getD_cons_succ, List.getD_cons_zero, ht] at hpay
          by_contra hne
          have hc : t.hasCallback = true := by
            rw [← handler_isSome h t]
            exact Option.isSome_iff_ne_none.mpr hne
          cases t <;> simp [RecOtherType.hasCallback] at hc <;>
            simp [payload, RecOtherType.hasCallback, ReaderEnv.deaf, bind, Except.bind] at hpay
        · cases hread
      · rfl
    · rfl
  rw [step, hpending]
  simp only [Reader.step_of_deaf hstep, bind, Except.bind]
  rfl

theorem payload_hasCallback {t : RecOtherType} (ht : t.hasCallback = true) (size : Nat)
    (r : Reader) :
    payload env (some t) size r = (env.control t size r).map fun r => (.again, r) := by
  have hcontrol : payload env (some t) size r = (do
      let r ← env.control t size r
      return (.again, r)) := by
    cases t <;> first | rfl | cases ht
  rw [hcontrol]
  cases env.control t size r with
  | error e => rfl
  | ok r => rfl

theorem payload_congr {t : Option RecOtherType} (ht : t.any RecOtherType.hasCallback = false)
    (f : RecOtherType → Nat → Reader → Except Abort Reader) (size : Nat) (r : Reader) :
    payload { env with control := f } t size r = payload env t size r := by
  cases t with
  | none => rfl
  | some t => cases t <;> first | rfl | cases ht

/-- For the reader, a turn of the session is a turn of its own. -/
theorem step_reader (env : ReaderEnv) (h : Handlers) (s : Session) :
    (s.step env h).map (fun x => (x.1, x.2.reader)) =
      Reader.step { env with control := takesArguments h } s.reader := by
  cases hpending : s.pending h with
  | some branch =>
    have hinput : ∃ code bs t, s.reader.input = 0 :: code :: bs ∧
        RecOtherType.ofCode code = some t ∧ handler h t = some branch := by
      rw [pending] at hpending
      split at hpending
      · rename_i byte code bs hin
        split at hpending
        · rename_i hz
          obtain ⟨t, ht, hbranch⟩ := Option.bind_eq_some_iff.mp hpending
          exact ⟨code, bs, t, by rw [hin, hz], ht, hbranch⟩
        · cases hpending
      · cases hpending
    obtain ⟨code, bs, t, hin, ht, hbranch⟩ := hinput
    have hc : t.hasCallback = true := by rw [← handler_isSome h t, hbranch, Option.isSome_some]
    have hother : Reader.step { env with control := takesArguments h } s.reader =
        Reader.other { env with control := takesArguments h } s.reader := by
      rw [Reader.step, hin]
      rfl
    rw [hother, Reader.other, step, hpending]
    simp only [bind, Except.bind]
    cases hread : s.reader.readBytes 6 with
    | error e => rfl
    | ok x =>
      obtain ⟨rec, r⟩ := x
      have hcode : rec.getD 1 0 = code := by
        rw [readBytes, hin] at hread
        split at hread
        · cases hread
          rfl
        · cases hread
      simp only [hcode, ht, payload_hasCallback hc, takesArguments, hbranch]
      cases branch (leValue (rec.drop 2)) r with
      | error e => rfl
      | ok y => rfl
  | none =>
    have hstep : Reader.step { env with control := takesArguments h } s.reader =
        Reader.step env s.reader := by
      rw [Reader.step, Reader.step]
      split
      · rfl
      · rename_i byte bs hin
        split
        · rename_i hz
          rw [Reader.other, Reader.other]
          cases hread : s.reader.readBytes 6 with
          | error e => rfl
          | ok x =>
            obtain ⟨rec, r⟩ := x
            refine payload_congr ?_ _ _ _
            rw [readBytes, hin] at hread
            split at hread
            · cases hread
              cases bs with
              | nil =>
                rename_i hlen
                simp at hlen
              | cons code bs =>
                rw [pending, hin] at hpending
                simp only [hz, if_true, Option.bind_eq_none_iff] at hpending
                simp only [List.take_succ_cons, List.getD_cons_succ, List.getD_cons_zero]
                cases ht : RecOtherType.ofCode code with
                | none => rfl
                | some t => rw [Option.any_some, ← handler_isSome h t, hpending t ht]; rfl
            · cases hread
        · rfl
    rw [hstep, step, hpending]
    simp only [bind, Except.bind]
    cases Reader.step env s.reader with
    | error e => rfl
    | ok x => rfl

/-- Turn by turn from `s` to `s'`, with no more turns than bytes. -/
structure Passes (env : ReaderEnv) (h : Handlers) (s s' : Session) : Prop where
  turns : Relation.ReflTransGen (Turn env h) s s'
  readAll : ∃ n, n + s'.reader.input.length ≤ s.reader.input.length ∧
    ∀ fuel, readAll env h (n + fuel) s = readAll env h fuel s'

theorem Passes.refl (s : Session) : Passes env h s s where
  turns := .refl
  readAll := ⟨0, by omega, fun fuel => by rw [Nat.zero_add]⟩

theorem Passes.trans {s s' s'' : Session} (h₁ : Passes env h s s') (h₂ : Passes env h s' s'') :
    Passes env h s s'' where
  turns := h₁.turns.trans h₂.turns
  readAll := by
    obtain ⟨n, hn, hread⟩ := h₁.readAll
    obtain ⟨m, hm, hread'⟩ := h₂.readAll
    exact ⟨n + m, by omega, fun fuel => by rw [Nat.add_assoc, hread, hread']⟩

theorem Passes.of_step {s s' : Session} {item : Item} (hstep : s.step env h = .ok (item, s'))
    (hitem : item ≠ .stop) (hlt : s'.reader.input.length < s.reader.input.length) :
    Passes env h s s' where
  turns := .single ⟨item, hstep, hitem⟩
  readAll := by
    refine ⟨1, by omega, fun fuel => ?_⟩
    rw [Nat.add_comm, Session.readAll, hstep]
    cases item with
    | stop => exact absurd rfl hitem
    | again => rfl
    | insn i => rfl
    | stale => rfl

theorem Passes.of_skips {bs : List UInt8} {r r' : Reader} (hk : Skips env.deaf bs r r')
    (es : List Event) (rest : List UInt8) :
    Passes env h ⟨r.withInput (bs ++ rest), es⟩ ⟨r'.withInput rest, es⟩ := by
  induction hk with
  | refl r => exact Passes.refl _
  | @turn bs cs r r' r'' hb hstep _ ih =>
    have hone := hstep (cs ++ rest)
    rw [List.append_assoc]
    have hturn := step_of_deaf (h := h) (s := ⟨r.withInput (bs ++ (cs ++ rest)), es⟩) hone
    simp only [Item.events, List.append_nil] at hturn
    refine (Passes.of_step hturn Item.noConfusion ?_).trans ih
    simp only [withInput, List.length_append]
    omega

end Session

/-- The callbacks the reader asserts to be set. -/
structure Handlers.Complete (h : Handlers) : Prop where
  syscall : h.syscall = true
  newThread : h.newThread = true
  join : h.join = true
  fork : h.fork = true

/-- The user of the reader learns of the call. -/
def Call.heard (h : Handlers) : Call → Bool
  | .instruction _ => true
  | .control c => h.calls c.callback

/-- An event is the one a call is to cause: the same instruction, or the callback with the same
arguments. -/
def Matches : Call → Event → Prop
  | .instruction i, .insn o => Agrees i o
  | .control c, .callback k => k = c.callback
  | _, _ => False

/-- An event is the one a call causes, strings as they arrive. -/
def Arrives : Call → Event → Prop
  | .instruction i, .insn o => Agrees i o
  | .control c, .callback k => k = c.received
  | _, _ => False

/-- The calls, those without a callback apart, and what has come of them. -/
def Delivers (h : Handlers) (cs : List Call) (es : List Event) : Prop :=
  List.Forall₂ Matches (cs.filter (·.heard h)) es

/-- A call whose record the reader gets over. -/
def Call.Readable (env : ReaderEnv) (cfg : WriterConfig) (sizeAt : Word → Nat) : Call → Prop
  | .instruction i => Traceable env cfg sizeAt i
  | .control c => c.Fits

theorem Traceable.deaf {i : Instr} (hi : Traceable env cfg sizeAt i) :
    Traceable env.deaf cfg sizeAt i :=
  ⟨hi.one_le_size, hi.size_le, hi.numAddresses, hi.sizeAt_addr, hi.belowTopPage, hi.decodes⟩

theorem Handlers.calls_received (h : Handlers) (c : Control) :
    h.calls c.received = h.calls c.callback := by
  cases c <;> rfl

/-- Writing a control record changes nothing the reader keeps. -/
theorem Synced.withInput {w : Writer} {r : Reader} (hr : Synced cfg sizeAt w r) (t : RecOtherType)
    (size : Nat) (payload rest : List UInt8) :
    Synced cfg sizeAt (w.writeOther t size payload) (r.withInput rest) :=
  ⟨hr.lastAddress, hr.seenEnd, hr.arch32, hr.sent, hr.sizes, hr.scache⟩

/-- The bytes of a sending step are skipped without an event. -/
theorem Sends.passes {w w' : Writer} {s : Session} {bs rest : List UInt8}
    (hs : Sends env.deaf cfg sizeAt w w') (hr : Synced cfg sizeAt w s.reader)
    (ho : w'.output = w.output ++ bs) (hin : s.reader.input = bs ++ rest) :
    ∃ r', Session.Passes env h s ⟨r'.withInput rest, s.events⟩ ∧ Synced cfg sizeAt w' r' := by
  obtain ⟨bs', r', ho', hk, hsync⟩ := hs.follows s.reader hr
  have hbs : bs' = bs := List.append_cancel_left (ho'.symm.trans ho)
  subst hbs
  have hpass := Session.Passes.of_skips (h := h) hk s.events rest
  rw [withInput_self hin] at hpass
  exact ⟨r', hpass, hsync⟩

theorem control_passes {w w' : Writer} {c : Control} {s : Session} {bs rest : List UInt8}
    (hh : h.Complete) (hc : c.Fits) (hw : w.control cfg c = .ok w')
    (ho : w'.output = w.output ++ bs) (hr : Synced cfg sizeAt w s.reader)
    (hin : s.reader.input = bs ++ rest) :
    ∃ s', Session.Passes env h s s' ∧ s'.reader.input = rest ∧ Synced cfg sizeAt w' s'.reader ∧
      s'.events = s.events ++ if h.calls c.callback then [.callback c.received] else [] := by
  obtain ⟨as, rfl⟩ := control_writes hw
  have hs : Sends env.deaf cfg sizeAt w (as.foldl (sendVa2pa cfg) w) := foldl_sendVa2pa_sends as w
  obtain ⟨bs₁, ho₁⟩ : w.output <+: (as.foldl (sendVa2pa cfg) w).output :=
    foldl_sendVa2pa_output as w
  have hbs : bs = bs₁ ++ (otherBytes c.type c.size ++ c.payload) := by
    simp only [writeOther, write, ← ho₁, List.append_assoc] at ho
    exact (List.append_cancel_left ho).symm
  rw [hbs, List.append_assoc] at hin
  obtain ⟨r₁, hpass, hr₁⟩ := hs.passes (h := h) hr ho₁.symm hin
  obtain ⟨branch, hbranch, hread⟩ := c.handler_payload hc
    ⟨hh.syscall, hh.newThread, hh.join, hh.fork⟩
  have hstep := Session.step_otherBytes env (h := h)
    (s := ⟨r₁.withInput (otherBytes c.type c.size ++ c.payload ++ rest), s.events⟩) hbranch
    (List.append_assoc ..)
  have hone : (r₁.withInput (otherBytes c.type c.size ++ c.payload ++ rest)).withInput
      (c.payload ++ rest) = r₁.withInput (c.payload ++ rest) := rfl
  rw [hone, hread] at hstep
  refine ⟨_, hpass.trans (.of_step hstep Item.noConfusion ?_), rfl, hr₁.withInput .., ?_⟩
  · simp only [Session.called, withInput, List.length_append, length_otherBytes]
    omega
  · rw [← h.calls_received]
    simp only [Session.called]
    split
    · rfl
    · rw [List.append_nil]

theorem instruction_passes {w w' : Writer} {i : Instr} {s : Session} {bs rest : List UInt8}
    (hi : Traceable env cfg sizeAt i) (hw : w.instruction cfg i = .ok w')
    (ho : w'.output = w.output ++ bs) (hr : Synced cfg sizeAt w s.reader)
    (hin : s.reader.input = bs ++ rest) :
    ∃ s' o, Session.Passes env h s s' ∧ s'.reader.input = rest ∧ Synced cfg sizeAt w' s'.reader ∧
      s'.events = s.events ++ [.insn o] ∧ Agrees i o := by
  obtain ⟨-, -, w₁, hok, rfl⟩ := instruction_ok hw
  obtain ⟨w₁', hok', hs₁, hcode⟩ := sendIcache_sends w hi.one_le_size hi.size_le
    hi.sizeAt_addr hi.belowTopPage
  rw [hok] at hok'
  cases hok'
  have hs₂ : Sends env.deaf cfg sizeAt w₁ _ := sendAddresses_sends w₁ i
  obtain ⟨bs₁, ho₁⟩ := (sendIcache_output hok).trans ((sendVa2pa_output w₁ i.addr).trans
    (foldl_sendVa2pa_output i.addresses _))
  obtain ⟨bs₂, ho₂⟩ := sendRecord_output
    (i.addresses.foldl (sendVa2pa cfg) (w₁.sendVa2pa cfg i.addr)) i
  have hbs : bs = bs₁ ++ bs₂ := by
    rw [← ho₂, ← ho₁, List.append_assoc] at ho
    exact (List.append_cancel_left ho).symm
  rw [hbs, List.append_assoc] at hin
  obtain ⟨r₁, hpass, hr₁⟩ := (hs₁.trans hs₂).passes (h := h) hr ho₁.symm hin
  obtain ⟨bs₂', ho₂', hl, hstep⟩ := sendRecord_step hr₁ hi.deaf (hcode _ r₁ hs₂ hr₁)
  have hbs₂ : bs₂' = bs₂ := List.append_cancel_left (ho₂'.symm.trans ho₂.symm)
  subst hbs₂
  obtain ⟨o, r₂, hturn, hin₂, hag, hr₂⟩ := hstep rest
  have hturn' := Session.step_of_deaf (h := h) (s := ⟨r₁.withInput (bs₂' ++ rest), s.events⟩) hturn
  refine ⟨_, o, hpass.trans (.of_step hturn' Item.noConfusion ?_), hin₂, hr₂, rfl, hag⟩
  simp only [withInput, hin₂, List.length_append]
  omega

theorem call_passes {w w' : Writer} {c : Call} {s : Session} {bs rest : List UInt8}
    (hh : h.Complete) (hc : c.Readable env cfg sizeAt) (hw : w.call cfg c = .ok w')
    (ho : w'.output = w.output ++ bs) (hr : Synced cfg sizeAt w s.reader)
    (hin : s.reader.input = bs ++ rest) :
    ∃ s' es, Session.Passes env h s s' ∧ s'.reader.input = rest ∧
      Synced cfg sizeAt w' s'.reader ∧ s'.events = s.events ++ es ∧
      List.Forall₂ Arrives ([c].filter (·.heard h)) es := by
  cases c with
  | instruction i =>
    obtain ⟨s', o, hpass, hin', hr', he, hag⟩ := instruction_passes hc hw ho hr hin
    exact ⟨s', [.insn o], hpass, hin', hr', he, .cons hag .nil⟩
  | control c =>
    obtain ⟨s', hpass, hin', hr', he⟩ := control_passes hh hc hw ho hr hin
    refine ⟨s', _, hpass, hin', hr', he, ?_⟩
    by_cases hcalls : h.calls c.callback = true
    · have hheard : (Call.control c).heard h = true := hcalls
      rw [if_pos hcalls, List.filter_cons_of_pos hheard]
      exact .cons rfl .nil
    · have hheard : ¬(Call.control c).heard h = true := hcalls
      rw [if_neg hcalls, List.filter_cons_of_neg hheard]
      exact .nil

/-- A sequence of readable calls is read to its last byte. -/
theorem calls_passes {cs : List Call} {w w' : Writer} {s : Session} {bs rest : List UInt8}
    (hh : h.Complete) (hcs : ∀ c ∈ cs, c.Readable env cfg sizeAt) (hw : w.calls cfg cs = .ok w')
    (ho : w'.output = w.output ++ bs) (hr : Synced cfg sizeAt w s.reader)
    (hin : s.reader.input = bs ++ rest) :
    ∃ s' es, Session.Passes env h s s' ∧ s'.reader.input = rest ∧
      Synced cfg sizeAt w' s'.reader ∧ s'.events = s.events ++ es ∧
      List.Forall₂ Arrives (cs.filter (·.heard h)) es := by
  induction cs generalizing w s bs with
  | nil =>
    cases hw
    have hnil : bs = [] := by simpa using ho
    rw [hnil, List.nil_append] at hin
    exact ⟨s, [], .refl s, hin, hr, (List.append_nil _).symm, .nil⟩
  | cons c cs ih =>
    simp only [calls, except_bind_eq_ok] at hw
    obtain ⟨w₁, hw₁, hw'⟩ := hw
    obtain ⟨bs₁, ho₁⟩ := call_output hw₁
    obtain ⟨bs₂, ho₂⟩ := calls_output hw'
    have hbs : bs = bs₁ ++ bs₂ := by
      rw [← ho₂, ← ho₁, List.append_assoc] at ho
      exact (List.append_cancel_left ho).symm
    rw [hbs, List.append_assoc] at hin
    obtain ⟨s₁, es₁, hpass₁, hin₁, hr₁, he₁, ha₁⟩ :=
      call_passes hh (hcs c List.mem_cons_self) hw₁ ho₁.symm hr hin
    obtain ⟨s₂, es₂, hpass₂, hin₂, hr₂, he₂, ha₂⟩ :=
      ih (fun d hd => hcs d (List.mem_cons_of_mem c hd)) hw' ho₂.symm hr₁ hin₁
    refine ⟨s₂, es₁ ++ es₂, hpass₁.trans hpass₂, hin₂, hr₂, by rw [he₂, he₁, List.append_assoc], ?_⟩
    have hcons : (c :: cs).filter (·.heard h) = [c].filter (·.heard h) ++ cs.filter (·.heard h) := by
      rw [← List.filter_append, List.singleton_append]
    rw [hcons]
    exact List.rel_append ha₁ ha₂

/-- A control call whose record the reader gets over and whose arguments arrive whole. -/
def Control.Carried (h : Handlers) (c : Control) : Prop :=
  c.Fits ∧ (h.calls c.callback = true → c.StringsFit)

theorem matches_iff_arrives {cs : List Call} {es : List Event} (ha : List.Forall₂ Arrives cs es) :
    List.Forall₂ Matches cs es ↔ ∀ c, Call.control c ∈ cs → c.StringsFit := by
  induction ha with
  | nil => simp
  | @cons c e cs es he _ ih =>
    rw [List.forall₂_cons, ih]
    cases c with
    | instruction i =>
      have hm : Matches (.instruction i) e := by
        cases e with
        | insn o => exact he
        | callback k => exact he.elim
      simp [hm]
    | control c =>
      cases e with
      | insn o => exact he.elim
      | callback k =>
        have hk : k = c.received := he
        subst hk
        simp only [Matches, c.received_eq_callback, List.mem_cons, Call.control.injEq]
        constructor
        · rintro ⟨hc, hcs⟩ d (rfl | hd)
          · exact hc
          · exact hcs d hd
        · exact fun hall => ⟨hall c (.inl rfl), fun d hd => hall d (.inr hd)⟩

theorem delivers_iff {cs : List Call} {es : List Event}
    (ha : List.Forall₂ Arrives (cs.filter (·.heard h)) es) :
    Delivers h cs es ↔
      ∀ c, Call.control c ∈ cs → h.calls c.callback = true → c.StringsFit := by
  rw [Delivers, matches_iff_arrives ha]
  constructor
  · exact fun hall c hc hcalls => hall c (List.mem_filter.mpr ⟨hc, hcalls⟩)
  · intro hall c hc
    obtain ⟨hmem, hcalls⟩ := List.mem_filter.mp hc
    exact hall c hmem hcalls

/-- A record that is too short for its assertion, or too long for its size field, stops the
reader. -/
theorem control_stops {w w' : Writer} {c : Control} {s : Session} {bs rest : List UInt8}
    (hc : ¬c.Fits) (hw : w.control cfg c = .ok w') (ho : w'.output = w.output ++ bs)
    (hr : Synced cfg sizeAt w s.reader) (hin : s.reader.input = bs ++ rest) :
    ∃ s', Session.Passes env h s s' ∧ s'.step env h = .error .recordSize := by
  obtain ⟨as, rfl⟩ := control_writes hw
  have hs : Sends env.deaf cfg sizeAt w (as.foldl (sendVa2pa cfg) w) := foldl_sendVa2pa_sends as w
  obtain ⟨bs₁, ho₁⟩ : w.output <+: (as.foldl (sendVa2pa cfg) w).output :=
    foldl_sendVa2pa_output as w
  have hbs : bs = bs₁ ++ (otherBytes c.type c.size ++ c.payload) := by
    simp only [writeOther, write, ← ho₁, List.append_assoc] at ho
    exact (List.append_cancel_left ho).symm
  rw [hbs, List.append_assoc] at hin
  obtain ⟨r₁, hpass, -⟩ := hs.passes (h := h) hr ho₁.symm hin
  obtain ⟨branch, hbranch, hfails⟩ := c.handler_fails hc
  refine ⟨_, hpass, ?_⟩
  rw [Session.step_otherBytes env hbranch (List.append_assoc ..), hfails]
  rfl

/-- Where a turn fails, reading up to the end fails. -/
theorem Session.Passes.readAll_error {s s' : Session} {e : Abort} (hp : Session.Passes env h s s')
    (hstep : s'.step env h = .error e) {fuel : Nat} (hf : s.reader.input.length < fuel) :
    s.readAll env h fuel = .error e := by
  obtain ⟨n, hn, hread⟩ := hp.readAll
  obtain ⟨k, rfl⟩ : ∃ k, fuel = n + (k + 1) := ⟨fuel - n - 1, by omega⟩
  rw [hread, Session.readAll, hstep]
  rfl

/-- At the end record, reading up to the end is done. -/
theorem Session.Passes.readAll_end {s s' : Session} (hp : Session.Passes env h s s')
    (hin : s'.reader.input = otherBytes .end 0) {fuel : Nat} (hf : s.reader.input.length < fuel) :
    s.readAll env h fuel =
      .ok ⟨{ s'.reader with input := [], seenEnd := true }, s'.events⟩ := by
  obtain ⟨n, hn, hread⟩ := hp.readAll
  obtain ⟨k, rfl⟩ : ∃ k, fuel = n + (k + 1) := ⟨fuel - n - 1, by omega⟩
  have hstep := Session.step_of_deaf (h := h) (s := s')
    (@step_end env.deaf s'.reader [] (by rw [hin, List.append_nil]))
  rw [hread, Session.readAll, hstep]
  simp only [Item.events, List.append_nil]
  rfl

/-- The trace of `cs` is read to its end without a failure. After each call the reader stands
behind the last byte of the call, and the calls so far have had their callbacks or been
returned. -/
def ControlRoundTrips (env : ReaderEnv) (cfg : WriterConfig) (deflate : List UInt8 → List UInt8)
    (h : Handlers) (cs : List Call) : Prop :=
  ∀ file w, writeCalls cfg deflate cs = .ok file → Writer.fresh.calls cfg cs = .ok w →
    ∃ r, initStream env file = .ok r ∧
      (∃ s, Session.readAll env h (r.input.length + 1) ⟨r, []⟩ = .ok s ∧ s.reader.input = [] ∧
        Delivers h cs s.events) ∧
      ∀ pre post w₁, cs = pre ++ post → Writer.fresh.calls cfg pre = .ok w₁ →
        ∃ s, Relation.ReflTransGen (Session.Turn env h) ⟨r, []⟩ s ∧
          w₁.output ++ s.reader.input = w.close.output ∧ Delivers h pre s.events

theorem initStream_writeCalls {deflate : List UInt8 → List UInt8} {cs : List Call}
    {file : List UInt8} {w : Writer} (hzlib : ∀ bs, env.inflate (deflate bs) = bs)
    (hfile : writeCalls cfg deflate cs = .ok file) (hw : Writer.fresh.calls cfg cs = .ok w) :
    initStream env file = .ok { Reader.fresh (w.output ++ otherBytes .end 0) with
      arch32 := cfg.arch32, traceHasPa := cfg.sendVa2paMapping } := by
  simp only [writeCalls, hw, bind, Except.bind, pure_eq_ok] at hfile
  subst hfile
  rw [initStream_headerBytes]
  by_cases hz : cfg.useCompression = true
  · simp only [WriterConfig.options, hz, if_true, hzlib]
    rfl
  · simp only [WriterConfig.options, hz]
    rfl

theorem call_of_mem {cs : List Call} {w w' : Writer} (hw : w.calls cfg cs = .ok w') {c : Call}
    (hc : c ∈ cs) : ∃ w₁ w₂ : Writer, w₁.call cfg c = .ok w₂ := by
  obtain ⟨pre, post, rfl⟩ := List.append_of_mem hc
  obtain ⟨w₁, -, hpost⟩ := calls_append hw
  simp only [calls, except_bind_eq_ok] at hpost
  obtain ⟨w₂, h₂, -⟩ := hpost
  exact ⟨w₁, w₂, h₂⟩

def Call.insn? : Call → Option Instr
  | .instruction i => some i
  | .control _ => none

/-- The instructions among the calls are ones the reader gets over: their code is not empty and
does not wrap, an address keeps its size, and the decoder accepts them. -/
structure InstructionsReadable (env : ReaderEnv) (cfg : WriterConfig) (cs : List Call) : Prop where
  one_le_size : ∀ i, .instruction i ∈ cs → 1 ≤ i.size
  noWrap : ∀ i, .instruction i ∈ cs → NoWrap cfg i
  sameSize : ∀ i j, .instruction i ∈ cs → .instruction j ∈ cs → i.addr = j.addr → i.size = j.size
  decodes : ∀ i, .instruction i ∈ cs →
    env.xedDecode cfg.arch32 (getCode cfg.code i.addr i.size) = true

theorem InstructionsReadable.traceable {cs : List Call} {w w' : Writer}
    (hi : InstructionsReadable env cfg cs) (hw : w.calls cfg cs = .ok w') {i : Instr}
    (hmem : .instruction i ∈ cs) :
    Traceable env cfg (firstSize (cs.filterMap Call.insn?)) i := by
  obtain ⟨w₁, w₂, hcall⟩ := call_of_mem hw hmem
  obtain ⟨h15, hnum, w₃, hok, -⟩ := instruction_ok (show w₁.instruction cfg i = .ok w₂ from hcall)
  have hmap : ∀ j ∈ cs.filterMap Call.insn?, .instruction j ∈ cs := by
    intro j hj
    obtain ⟨c, hc, hcj⟩ := List.mem_filterMap.mp hj
    cases c with
    | control c => cases hcj
    | instruction k =>
      cases hcj
      exact hc
  have h1 := hi.one_le_size i hmem
  refine ⟨h1, h15, hnum, firstSize_eq (List.mem_filterMap.mpr ⟨_, hmem, rfl⟩) ?_, fun hp => ?_,
    hi.decodes i hmem⟩
  · exact fun j hj k hk => hi.sameSize j k (hmap j hj) (hmap k hk)
  · exact belowTopPage_of_ok hp h1 (hi.noWrap i hmem hp) hok

/-- The types the switch of `Read` has a branch for. -/
def RecOtherType.handled : RecOtherType → Bool
  | .end | .icache | .icacheVariable | .logical2Physical => true
  | t => t.hasCallback

/-- A record of any other type is skipped, whatever it holds. -/
theorem Session.step_skip {s : Session} {code : UInt8} {data rest : List UInt8}
    (hcode : (RecOtherType.ofCode code).any RecOtherType.handled = false)
    (hlen : data.length < 2 ^ 32)
    (hin : s.reader.input = [0, code] ++ leBytes 4 data.length ++ (data ++ rest)) :
    s.step env h = .ok (.again, ⟨s.reader.withInput rest, s.events⟩) := by
  have hlen' : data.length < 256 ^ 4 := hlen
  have hread := readBytes_append (r := s.reader) (n := 6) hin (by simp)
  have hskip : (s.reader.withInput (data ++ rest)).skip data.length =
      .ok (.again, s.reader.withInput rest) := by
    rw [skip, readBytes_withInput rfl]
    rfl
  have hpay : payload env.deaf (RecOtherType.ofCode code) data.length
      (s.reader.withInput (data ++ rest)) = .ok (.again, s.reader.withInput rest) := by
    cases ht : RecOtherType.ofCode code with
    | none => exact hskip
    | some t =>
      rw [ht, Option.any_some] at hcode
      cases t <;> first | exact hskip | exact absurd hcode (by decide)
  have hother : s.reader.other env.deaf = .ok (.again, s.reader.withInput rest) := by
    rw [other, hread]
    simp only [bind, Except.bind, List.cons_append, List.nil_append, List.getD_cons_succ,
      List.getD_cons_zero, List.drop_succ_cons, List.drop_zero, leValue_leBytes_of_lt hlen']
    exact hpay
  have hstep : Reader.step env.deaf s.reader = .ok (.again, s.reader.withInput rest) := by
    rw [Reader.step, hin]
    exact hother
  rw [step_of_deaf hstep]
  simp [Item.events]

theorem synced_start {w : Writer} : Synced cfg sizeAt Writer.fresh
    { Reader.fresh (w.output ++ otherBytes .end 0) with
      arch32 := cfg.arch32, traceHasPa := cfg.sendVa2paMapping } :=
  synced_fresh rfl rfl rfl rfl rfl

/-- Where every control call is carried, the whole trace goes through. -/
theorem controlRoundTrips_of_carried {deflate : List UInt8 → List UInt8} {cs : List Call}
    (hh : h.Complete) (hzlib : ∀ bs, env.inflate (deflate bs) = bs)
    (hi : InstructionsReadable env cfg cs) (hc : ∀ c, .control c ∈ cs → c.Carried h) :
    ControlRoundTrips env cfg deflate h cs := by
  intro file w hfile hw
  have hcs : ∀ c ∈ cs, c.Readable env cfg (firstSize (cs.filterMap Call.insn?)) := by
    intro c hmem
    cases c with
    | instruction i => exact hi.traceable hw hmem
    | control c => exact (hc c hmem).1
  refine ⟨_, initStream_writeCalls hzlib hfile hw, ?_, fun pre post w₁ he hw₁ => ?_⟩
  · obtain ⟨s, es, hpass, hin, -, he, ha⟩ := calls_passes hh hcs hw (List.nil_append _).symm
      synced_start (s := ⟨_, []⟩) rfl
    have hd : Delivers h cs s.events := by
      rw [he]
      exact (delivers_iff ha).mpr fun c hmem hcalls => (hc c hmem).2 hcalls
    exact ⟨_, hpass.readAll_end hin (Nat.lt_succ_self _), rfl, hd⟩
  · subst he
    obtain ⟨w₁', hw₁', hpost⟩ := calls_append hw
    rw [hw₁] at hw₁'
    cases hw₁'
    obtain ⟨bs, ho⟩ := calls_output hpost
    obtain ⟨s, es, hpass, hin, -, he, ha⟩ := calls_passes hh
      (fun c hmem => hcs c (List.mem_append_left _ hmem)) hw₁ (List.nil_append _).symm
      (synced_start (w := w)) (s := ⟨_, []⟩) (by
        rw [← ho, List.append_assoc]
        rfl)
    refine ⟨s, hpass.turns, by rw [hin, ← List.append_assoc, ho]; rfl, ?_⟩
    rw [he]
    exact (delivers_iff ha).mpr fun c hmem hcalls =>
      (hc c (List.mem_append_left _ hmem)).2 hcalls

theorem exists_first {α : Type} {p : α → Prop} {l : List α} (hne : ∃ a ∈ l, ¬p a) :
    ∃ pre a post, l = pre ++ a :: post ∧ (∀ b ∈ pre, p b) ∧ ¬p a := by
  induction l with
  | nil =>
    obtain ⟨a, ha, -⟩ := hne
    exact absurd ha List.not_mem_nil
  | cons b l ih =>
    by_cases hb : p b
    · have hrest : ∃ a ∈ l, ¬p a := by
        obtain ⟨a, ha, hpa⟩ := hne
        rcases List.mem_cons.mp ha with rfl | ha
        · exact absurd hb hpa
        · exact ⟨a, ha, hpa⟩
      obtain ⟨pre, a, post, rfl, hpre, hpa⟩ := ih hrest
      refine ⟨b :: pre, a, post, rfl, fun c hc => ?_, hpa⟩
      rcases List.mem_cons.mp hc with rfl | hc
      · exact hb
      · exact hpre c hc
    · exact ⟨[], b, l, rfl, fun c hc => absurd hc List.not_mem_nil, hb⟩

/-- A trace that goes through has no call the reader stops at. -/
theorem readable_of_readAll {cs : List Call} {w : Writer} {s : Session} (hh : h.Complete)
    (hi : InstructionsReadable env cfg cs) (hw : Writer.fresh.calls cfg cs = .ok w) {r : Reader}
    (hr : Synced cfg (firstSize (cs.filterMap Call.insn?)) Writer.fresh r)
    (hin : r.input = w.output ++ otherBytes .end 0)
    (hread : Session.readAll env h (r.input.length + 1) ⟨r, []⟩ = .ok s) :
    ∀ c ∈ cs, c.Readable env cfg (firstSize (cs.filterMap Call.insn?)) := by
  by_contra hne
  push Not at hne
  obtain ⟨pre, c, post, he, hpre, hc⟩ := exists_first hne
  cases c with
  | instruction i => exact hc (hi.traceable hw (he ▸ List.mem_append_right pre List.mem_cons_self))
  | control c =>
    rw [he] at hw
    obtain ⟨w₁, hw₁, hpost⟩ := calls_append hw
    simp only [calls, except_bind_eq_ok] at hpost
    obtain ⟨w₂, hw₂, hw₃⟩ := hpost
    have hw₂' : w₁.control cfg c = .ok w₂ := hw₂
    obtain ⟨bs₂, ho₂⟩ := call_output hw₂
    obtain ⟨bs₃, ho₃⟩ := calls_output hw₃
    have hin₀ : r.input = w₁.output ++ (bs₂ ++ (bs₃ ++ otherBytes .end 0)) := by
      rw [hin, ← ho₃, ← ho₂]
      simp only [List.append_assoc]
    obtain ⟨s₁, es, hpass, hin₁, hr₁, -, -⟩ :=
      calls_passes (s := ⟨r, []⟩) hh hpre hw₁ (List.nil_append _).symm hr hin₀
    obtain ⟨s₂, hpass₂, hstep⟩ := control_stops (h := h) hc hw₂' ho₂.symm hr₁ hin₁
    rw [(hpass.trans hpass₂).readAll_error hstep (Nat.lt_succ_self _)] at hread
    cases hread

theorem carried_of_controlRoundTrips {deflate : List UInt8 → List UInt8} {cs : List Call}
    {file : List UInt8} (hh : h.Complete) (hzlib : ∀ bs, env.inflate (deflate bs) = bs)
    (hi : InstructionsReadable env cfg cs) (hfile : writeCalls cfg deflate cs = .ok file)
    (hrt : ControlRoundTrips env cfg deflate h cs) : ∀ c, .control c ∈ cs → c.Carried h := by
  obtain ⟨w, hw⟩ : ∃ w, Writer.fresh.calls cfg cs = .ok w := by
    simp only [writeCalls, except_bind_eq_ok] at hfile
    obtain ⟨w, hw, -⟩ := hfile
    exact ⟨w, hw⟩
  obtain ⟨r, hinit, ⟨s, hread, -, hdel⟩, -⟩ := hrt file w hfile hw
  rw [initStream_writeCalls hzlib hfile hw] at hinit
  cases hinit
  have hcs := readable_of_readAll hh hi hw synced_start rfl hread
  obtain ⟨s', es, hpass, hin, -, he, ha⟩ := calls_passes hh hcs hw (List.nil_append _).symm
    synced_start (s := ⟨_, []⟩) rfl
  rw [hpass.readAll_end hin (Nat.lt_succ_self _)] at hread
  cases hread
  rw [he] at hdel
  exact fun c hmem => ⟨hcs _ hmem, fun hcalls => (delivers_iff ha).mp hdel c hmem hcalls⟩

/-- With the callbacks the reader asserts and instructions it gets over, the trace of any calls
goes through exactly when each `Output` and each `Syscall` has data and a size that fits its
record, and each string announced to a callback fits sixteen bits. Records of other types are
skipped. -/
theorem controlRoundTrips_iff_carried (env : ReaderEnv) (cfg : WriterConfig)
    (deflate : List UInt8 → List UInt8) (h : Handlers) (cs : List Call) (hh : h.Complete)
    (hzlib : ∀ bs, env.inflate (deflate bs) = bs) (hi : InstructionsReadable env cfg cs)
    (hfile : ∃ file, writeCalls cfg deflate cs = .ok file) :
    (ControlRoundTrips env cfg deflate h cs ↔ ∀ c, .control c ∈ cs → c.Carried h) ∧
    ∀ (s : Session) (code : UInt8) (data rest : List UInt8),
      (RecOtherType.ofCode code).any RecOtherType.handled = false → data.length < 2 ^ 32 →
      s.reader.input = [0, code] ++ leBytes 4 data.length ++ (data ++ rest) →
      s.step env h = .ok (.again, ⟨s.reader.withInput rest, s.events⟩) := by
  obtain ⟨file, hfile⟩ := hfile
  exact ⟨⟨carried_of_controlRoundTrips hh hzlib hi hfile, controlRoundTrips_of_carried hh hzlib hi⟩,
    fun _ _ _ _ => Session.step_skip⟩

/-- All callbacks set. -/
def allHandlers : Handlers := ⟨true, true, true, true, true, true, true, true, true, true, true⟩

theorem allHandlers_complete : allHandlers.Complete := ⟨rfl, rfl, rfl, rfl⟩

/-- One call of each kind. -/
def callsOfEachKind : List Call :=
  [.instruction (nop 0x1fff 1 [] false), .control (.output 1 ⟨[104, 105], by decide⟩),
   .control (.syscall Writer.SYS_futex ⟨List.replicate 48 7, by decide⟩), .control .newThread,
   .control (.join 3), .control .sync, .control .fork, .control (.magic 1 2 3),
   .control (.emulate .cpuid 0x700000004), .control (.routineChange .exit 0x1000 0x2000 0x3000),
   .control (.routineAnnounce 0x1000 ⟨[102], by decide⟩ ⟨[], by decide⟩ 16 4 2 ⟨[97, 46, 99], by decide⟩),
   .control (.instructionCount 100), .control (.cacheOnly 1 .memWrite 0x1000 0x5000),
   .instruction (nop 0x2000 1 [0x6000] false)]

theorem controlRoundTrips_iff_carried_eachKind :
    ControlRoundTrips nopEnv (nopConfig true) id allHandlers callsOfEachKind := by
  have hi : InstructionsReadable nopEnv (nopConfig true) callsOfEachKind := by
    have hmem : ∀ i, .instruction i ∈ callsOfEachKind →
        i = nop 0x1fff 1 [] false ∨ i = nop 0x2000 1 [0x6000] false := by
      intro i hi
      simpa [callsOfEachKind] using hi
    refine ⟨fun i hm => ?_, fun i _ hp => absurd hp (by decide), fun i j hm hm' => ?_, fun i hm => ?_⟩
    · rcases hmem i hm with rfl | rfl <;> decide
    · rcases hmem i hm with rfl | rfl <;> rcases hmem j hm' with rfl | rfl <;> decide
    · rcases hmem i hm with rfl | rfl <;> decide
  refine (controlRoundTrips_iff_carried nopEnv (nopConfig true) id allHandlers callsOfEachKind
    allHandlers_complete (fun _ => rfl) hi ⟨_, rfl⟩).1.mpr ?_
  intro c hc
  simp only [callsOfEachKind, List.mem_cons, Call.control.injEq, reduceCtorEq, List.not_mem_nil,
    or_false, false_or] at hc
  rcases hc with rfl | rfl | rfl | rfl | rfl | rfl | rfl | rfl | rfl | rfl | rfl | rfl <;>
    simp [Control.Carried, Control.Fits, Control.StringsFit]

/-- An `Output` without data is written, and stops the reader. -/
theorem empty_output_stops :
    ¬ControlRoundTrips nopEnv (nopConfig true) id allHandlers
      [.control (.output 1 ⟨[], by decide⟩)] := by
  intro hrt
  have hi : InstructionsReadable nopEnv (nopConfig true) [.control (.output 1 ⟨[], by decide⟩)] := by
    constructor <;> simp
  have hc := carried_of_controlRoundTrips allHandlers_complete (fun _ => rfl) hi rfl hrt _
    List.mem_cons_self
  exact absurd hc.1.1 (by decide)

end Sniper.Sift
