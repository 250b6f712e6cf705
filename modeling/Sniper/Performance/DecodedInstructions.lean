import Sniper.Performance.CycleProgress
import Sniper.Performance.Squashing
set_option autoImplicit false

/-! Instructions as they are decoded, and how one enters the reorder buffer. -/

namespace Sniper.Performance
open Sniper.Lib DynamicMicroOp

/-- The micro-operations of an instruction as they come from the decoder: its loads, at most one
execute, which depends on all loads, and its stores, which depend on the execute. The registers that
an address is computed from are read. -/
structure DecodedInstruction where
  numLoads : Nat
  numExecs : Nat
  numStores : Nat
  uops : List DynamicMicroOp
  execs : numExecs ≤ 1
  length : uops.length = numLoads + numExecs + numStores
  size : uops.length < 2 ^ 32
  shape : ∀ (i : Nat) (uop : DynamicMicroOp), uops[i]? = some uop →
    (uop.microOp.type, uop.microOpTypeOffset, uop.intraInstructionDependencies) =
      decodedShape numLoads numExecs i
  fresh : ∀ uop ∈ uops, uop.dependencies = [] ∧ uop.squashed = false
  address : ∀ uop ∈ uops, ∀ reg, some reg ∈ uop.microOp.addressRegisters →
    reg ∈ uop.microOp.sourceRegisters

namespace DecodedInstruction
open RobState

variable {d : DecodedInstruction} {k : Nat} {uop : DynamicMicroOp}

/-- No load reads what an earlier load of the instruction writes, no store what an earlier store
writes, and an execute with several loads has room for its dependencies. -/
structure Plain (d : DecodedInstruction) : Prop where
  apart : ∀ (i j : Nat) (earlier uop : DynamicMicroOp), i < j → d.uops[i]? = some earlier →
    d.uops[j]? = some uop → earlier.microOp.type = uop.microOp.type →
    ∀ reg ∈ uop.microOp.sourceRegisters, reg ∉ earlier.microOp.destinationRegisters
  room : 2 ≤ d.numLoads → ∀ uop ∈ d.uops, uop.microOp.type = .execute →
    d.numLoads + uop.microOp.sourceRegisters.length + 1 ≤ maximumNumberOfDependencies

theorem uops_fresh (h : d.uops[k]? = some uop) : uop.Fresh := by
  have hsize := d.size
  have hlength := d.length
  have hexecs := d.execs
  have hlt := (List.getElem?_eq_some_iff.mp h).1
  refine ⟨?_, (d.fresh uop (List.mem_of_getElem? h)).1⟩
  rcases decodedShape_cases (d.shape k uop h) with
    ⟨-, -, hoffset, hintra⟩ | ⟨-, -, -, hoffset, hintra⟩ | ⟨-, -, hoffset, hintra⟩
  · exact ⟨by omega, by omega⟩
  · exact ⟨by omega, by omega⟩
  · exact ⟨by omega, by omega⟩

/-- The range that is depended on is within the instruction. -/
theorem uops_range (h : d.uops[k]? = some uop) :
    uop.microOpTypeOffset + uop.intraInstructionDependencies ≤ k := by
  rcases decodedShape_cases (d.shape k uop h) with
    ⟨-, -, hoffset, hintra⟩ | ⟨hk, -, -, hoffset, hintra⟩ | ⟨hk, -, hoffset, hintra⟩
  · omega
  · omega
  · omega

/-- What is of another kind is before the first of the own kind. -/
theorem uops_between (h : d.uops[k]? = some uop) {m : Nat} {earlier : DynamicMicroOp} (hm : m < k)
    (hearlier : d.uops[m]? = some earlier) (hkind : earlier.microOp.type ≠ uop.microOp.type) :
    m < k - uop.microOpTypeOffset := by
  rcases decodedShape_cases (d.shape k uop h) with
    ⟨hk, htype, hoffset, -⟩ | ⟨hk, hk', htype, hoffset, -⟩ | ⟨hk, htype, hoffset, -⟩
  · rcases decodedShape_cases (d.shape m earlier hearlier) with
      ⟨-, htype', -⟩ | ⟨hm', -⟩ | ⟨hm', -⟩
    · exact absurd (htype'.trans htype.symm) hkind
    · omega
    · omega
  · rcases decodedShape_cases (d.shape m earlier hearlier) with
      ⟨hm', -⟩ | ⟨-, -, htype', -⟩ | ⟨hm', -⟩
    · omega
    · exact absurd (htype'.trans htype.symm) hkind
    · omega
  · rcases decodedShape_cases (d.shape m earlier hearlier) with
      ⟨hm', -⟩ | ⟨-, hm', -⟩ | ⟨-, htype', -⟩
    · omega
    · omega
    · exact absurd (htype'.trans htype.symm) hkind

/-- There is at most one execute. -/
theorem uops_execute_unique (h : d.uops[k]? = some uop) {m : Nat} {earlier : DynamicMicroOp}
    (hearlier : d.uops[m]? = some earlier) (hkind : uop.microOp.type = .execute)
    (hkind' : earlier.microOp.type = .execute) : m = k := by
  have hplace : ∀ (i : Nat) (u : DynamicMicroOp), d.uops[i]? = some u → u.microOp.type = .execute →
      i = d.numLoads := by
    intro i u hu htype
    have hexecs := d.execs
    rcases decodedShape_cases (d.shape i u hu) with ⟨-, hother, -⟩ | ⟨hi, hi', -⟩ | ⟨-, hother, -⟩
    · exact nomatch hother.symm.trans htype
    · omega
    · exact nomatch hother.symm.trans htype
  rw [hplace k uop h hkind, hplace m earlier hearlier hkind']

theorem Plain.room_uop (hplain : d.Plain) (h : d.uops[k]? = some uop)
    (htwo : 2 ≤ uop.intraInstructionDependencies) :
    uop.microOp.type = .execute ∧ uop.intraInstructionDependencies +
      uop.microOp.sourceRegisters.length + 1 ≤ maximumNumberOfDependencies := by
  have hexecs := d.execs
  rcases decodedShape_cases (d.shape k uop h) with
    ⟨-, -, -, hintra⟩ | ⟨-, -, htype, -, hintra⟩ | ⟨-, -, -, hintra⟩
  · omega
  · rw [hintra] at htwo ⊢
    exact ⟨htype, hplain.room htwo uop (List.mem_of_getElem? h) htype⟩
  · omega

theorem uops_load (h : d.uops[k]? = some uop) (hload : uop.microOp.isLoad = true) :
    uop.intraInstructionDependencies = 0 := by
  have htype : uop.microOp.type = .load := of_decide_eq_true hload
  rcases decodedShape_cases (d.shape k uop h) with
    ⟨-, -, -, hintra⟩ | ⟨-, -, hother, -⟩ | ⟨-, hother, -⟩
  · exact hintra
  · exact nomatch hother.symm.trans htype
  · exact nomatch hother.symm.trans htype

/-- What the decoder sets in the micro-operations of an instruction. -/
def shaped (numLoads numExecs : Nat) (uops : List DynamicMicroOp) : List DynamicMicroOp :=
  uops.mapIdx fun i uop => { uop with
    microOp := { uop.microOp with type := (decodedShape numLoads numExecs i).1 }
    microOpTypeOffset := (decodedShape numLoads numExecs i).2.1
    intraInstructionDependencies := (decodedShape numLoads numExecs i).2.2 }

/-- An instruction whose addresses are known when it is decoded. -/
def ofUops (numLoads numExecs numStores : Nat) (uops : List DynamicMicroOp) (hexecs : numExecs ≤ 1)
    (hlength : uops.length = numLoads + numExecs + numStores) (hsize : uops.length < 2 ^ 32)
    (hfresh : ∀ uop ∈ uops, uop.dependencies = [] ∧ uop.squashed = false ∧
      uop.microOp.addressRegisters = []) : DecodedInstruction where
  numLoads := numLoads
  numExecs := numExecs
  numStores := numStores
  uops := shaped numLoads numExecs uops
  execs := hexecs
  length := List.length_mapIdx.trans hlength
  size := List.length_mapIdx.trans_lt hsize
  shape := by
    intro i uop h
    rw [shaped, List.getElem?_mapIdx, Option.map_eq_some_iff] at h
    obtain ⟨u, -, rfl⟩ := h
    rfl
  fresh := by
    intro uop h
    obtain ⟨i, hi, rfl⟩ := List.mem_mapIdx.mp h
    have hbare := hfresh _ (List.getElem_mem hi)
    exact ⟨hbare.1, hbare.2.1⟩
  address := by
    intro uop h reg hreg
    obtain ⟨i, hi, rfl⟩ := List.mem_mapIdx.mp h
    have hbare := hfresh _ (List.getElem_mem hi)
    rw [show _ = [] from hbare.2.2] at hreg
    cases hreg

/-- An instruction that is one execute. -/
def executeOnly (latency : Nat) (sources destinations : List Nat) : DecodedInstruction :=
  ofUops 0 1 0 [{ plainUop .execute sources destinations with execLatency := latency }]
    (Nat.le_refl 1) rfl (show 1 < 2 ^ 32 by decide) (by simp [plainUop])

theorem executeOnly_plain (latency : Nat) (sources destinations : List Nat) :
    (executeOnly latency sources destinations).Plain where
  apart := by
    intro i j earlier uop hij _ hj
    have hlt : j < 1 := (List.getElem?_eq_some_iff.mp hj).1
    omega
  room := fun htwo => absurd htwo (show ¬2 ≤ 0 by decide)

end DecodedInstruction

namespace RobTimer

variable {σ μ : Type} {cfg : RobConfig σ μ} {start s s' : RobTimer μ} {first : Nat}
  {earlier : List DynamicMicroOp} {uop : DynamicMicroOp}

/-- What the tables name is before an instruction, or one of those of the instruction that have
entered: a writer of the register, a store, or a barrier. -/
structure Filed (s : RobTimer μ) (first : Nat) (earlier : List DynamicMicroOp) : Prop where
  next : s.nextSequenceNumber = first + earlier.length
  lowest : s.lowest ≤ first
  registers : ∀ reg n, s.registerDependencies.producers reg = some n → n < first ∨
    ∃ m v, n = first + m ∧ earlier[m]? = some v ∧ reg ∈ v.microOp.destinationRegisters
  stores : ∀ store ∈ s.memoryDependencies.producers, store.1 < first ∨
    ∃ m v, store.1 = first + m ∧ earlier[m]? = some v ∧ v.microOp.type = .store
  membar : ∀ n, s.memoryDependencies.membar = some n → n < first ∨
    ∃ m v, n = first + m ∧ earlier[m]? = some v ∧ v.microOp.type = .execute

theorem Filed.new (h : TablesKnown s) (hlow : s.lowest ≤ s.nextSequenceNumber) :
    Filed s s.nextSequenceNumber [] where
  next := rfl
  lowest := hlow
  registers := fun reg n hn => .inl (h.registers reg n hn)
  stores := fun store hstore => .inl (h.stores store hstore)
  membar := fun n hn => .inl (h.membar n hn)

/-- What is named for a micro-operation writes what it reads, is a store that it loads from, or is
a barrier. -/
theorem Filed.announced (h : Filed s first earlier) {n : Nat} (hn : n ∈ s.announced uop) :
    n < first ∨ ∃ m v, n = first + m ∧ earlier[m]? = some v ∧
      (v.microOp.type ≠ uop.microOp.type ∨ v.microOp.type = .execute ∨
        ∃ reg ∈ uop.microOp.sourceRegisters, reg ∈ v.microOp.destinationRegisters) := by
  rw [RobTimer.announced, List.mem_append, List.mem_append] at hn
  rcases hn with (hn | hn) | hn
  · obtain ⟨reg, hreg, hpeek⟩ := List.mem_filterMap.mp hn
    obtain ⟨hproducer, -⟩ := Option.filter_eq_some_iff.mp hpeek
    refine (h.registers reg n hproducer).imp_right ?_
    rintro ⟨m, v, hm, hv, hwrites⟩
    exact ⟨m, v, hm, hv, .inr (.inr ⟨reg, hreg, hwrites⟩)⟩
  · rw [storeAnnounced] at hn
    split at hn
    · next hload =>
      rw [Option.mem_toList, MemoryDependencies.find, Option.map_eq_some_iff] at hn
      obtain ⟨store, hfind, rfl⟩ := hn
      have hstore := List.mem_reverse.mp (List.mem_of_find?_eq_some hfind)
      have hmem := (List.dropWhile_sublist _).subset hstore
      refine (h.stores store hmem).imp_right ?_
      rintro ⟨m, v, hm, hv, hkind⟩
      refine ⟨m, v, hm, hv, .inl ?_⟩
      rw [hkind, of_decide_eq_true hload]
      decide
    · cases hn
  · rw [barrierAnnounced] at hn
    split at hn
    · rw [Option.mem_toList, Option.filter_eq_some_iff] at hn
      refine (h.membar n hn.1).imp_right ?_
      rintro ⟨m, v, hm, hv, hkind⟩
      exact ⟨m, v, hm, hv, .inr (.inl hkind)⟩
    · cases hn

theorem Entered.lowest {dependencies : List Nat} {final : RobEntry}
    (he : Entered s s' uop dependencies final) : s'.lowest = s.lowest := by
  rw [RobTimer.lowest, RobTimer.lowest, he.rob]
  cases s.rob with
  | nil => exact he.number
  | cons x rest => rfl

theorem Filed.enqueue (h : Filed s first earlier) (hn : Numbered s) (hs : uop.Small)
    (hsquashed : uop.squashed = false) (henqueue : enqueue cfg s uop = .ok s') :
    Filed s' first (earlier ++ [uop]) := by
  -- what was named by the tables is among those that have entered, and the new one too
  have hstill : ∀ (n : Nat) (P : DynamicMicroOp → Prop),
      (n < first ∨ ∃ m v, n = first + m ∧ earlier[m]? = some v ∧ P v) →
      n < first ∨ ∃ m v, n = first + m ∧ (earlier ++ [uop])[m]? = some v ∧ P v := by
    rintro n P (hbefore | ⟨m, v, hm, hv, hP⟩)
    · exact .inl hbefore
    · refine .inr ⟨m, v, hm, ?_, hP⟩
      rw [List.getElem?_append_left (List.getElem?_eq_some_iff.mp hv).1, hv]
  have hnew : ∀ P : DynamicMicroOp → Prop, P uop →
      ∃ m v, s.nextSequenceNumber = first + m ∧ (earlier ++ [uop])[m]? = some v ∧ P v :=
    fun P hP => ⟨earlier.length, uop, h.next, List.getElem?_concat_length, hP⟩
  have hentered := enqueue_entered hn hs henqueue
  rcases enqueue_cases henqueue with ⟨htrue, -⟩ |
    ⟨-, t, entry, uop3, u, readyMax, done, uop4, hprepare, hfold, -, -, rfl⟩
  · rw [hsquashed] at htrue
    cases htrue
  have ha := prepare_spec hs hprepare
  obtain ⟨rfl, -, -⟩ := dependOn_all uop3.allDependencies (hn.append rfl ha.rob ha.next) hfold
  rcases hentered with hsame | ⟨_, _, _, final, -, hentered, -⟩
  · have hnext := congrArg RobTimer.nextSequenceNumber hsame
    exact absurd (ha.next.symm.trans hnext) (Nat.succ_ne_self _)
  obtain ⟨uop1, uop2, hregisters, hmemory, -⟩ := prepare_steps hprepare
  obtain ⟨rfl, hproducers⟩ := registers_known hregisters
  obtain ⟨-, hstores, hmembar⟩ := memory_known hmemory
  refine ⟨?_, hentered.lowest.trans_le h.lowest, ?_, ?_, ?_⟩
  · rw [hentered.next, h.next, List.length_append]
    rfl
  · intro reg n hreg
    rcases hproducers reg n hreg with hold | ⟨rfl, hwrites⟩
    · exact hstill n _ (h.registers reg n hold)
    · exact .inr (hnew _ hwrites)
  · intro store hstore
    rcases hstores store hstore with hold | ⟨hkind, hnumber⟩
    · exact hstill store.1 _ (h.stores store hold)
    · rw [hnumber]
      exact .inr (hnew _ hkind)
  · intro n hm
    rcases hmembar n hm with hold | ⟨hkind, rfl⟩
    · exact hstill n _ (h.membar n hold)
    · exact .inr (hnew _ hkind)

/-- The tables lead no micro-operation of the instruction to one that it cannot remove again. -/
theorem Filed.fits {d : DecodedInstruction} {k : Nat} (h : Filed s first (d.uops.take k))
    (hn : Numbered s) (hplain : d.Plain) (hk : d.uops[k]? = some uop)
    (hbounded : first + d.uops.length ≤ 2 ^ 64) : Fits s uop := by
  have hlt : k < d.uops.length := (List.getElem?_eq_some_iff.mp hk).1
  have hnext : s.nextSequenceNumber = first + k := by
    rw [h.next, List.length_take, Nat.min_eq_left hlt.le]
  have hrange := DecodedInstruction.uops_range hk
  have hmem := List.mem_of_getElem? hk
  have hstart : uop.microOpTypeOffset + uop.intraInstructionDependencies ≤ s.nextSequenceNumber := by
    omega
  have hbound : s.nextSequenceNumber < 2 ^ 64 := by omega
  have hfirst : (s.renumbered uop).firstIntra =
      s.nextSequenceNumber - uop.microOpTypeOffset - uop.intraInstructionDependencies :=
    firstIntra_eq hstart hbound
  have hown : ∀ n, n ∈ s.ownProducers uop ↔ (s.renumbered uop).firstIntra ≤ n ∧
      n < (s.renumbered uop).firstIntra + uop.intraInstructionDependencies := fun n =>
    @mem_intraDependencies (s.renumbered uop) hstart hbound n
  refine ⟨DecodedInstruction.uops_fresh hk, (d.fresh uop hmem).2, hstart, hbound, ?_, ?_, ?_,
    DecodedInstruction.uops_load hk, fun _ => d.address uop hmem⟩
  · intro n hin
    have hbetween := (hown n).mp hin
    have hlow := h.lowest
    exact holds_of_window hn (by omega) (by omega)
  · intro n hin hle
    rw [hown]
    refine ⟨hle, ?_⟩
    rcases h.announced hin with hbefore | ⟨m, v, rfl, hv, hcase⟩
    · omega
    · rw [List.getElem?_take] at hv
      split at hv
      · next hm =>
        have hkind : v.microOp.type ≠ uop.microOp.type := by
          intro hsame
          rcases hcase with hne | hexecute | ⟨reg, hreads, hwrites⟩
          · exact hne hsame
          · exact hm.ne (DecodedInstruction.uops_execute_unique hk hv (hsame ▸ hexecute) hexecute)
          · exact hplain.apart m k v uop hm hv hk hsame reg hreads hwrites
        have hbetween := DecodedInstruction.uops_between hk hm hv hkind
        omega
      · cases hv
  · intro htwo
    obtain ⟨hkind, hroom⟩ := hplain.room_uop hk htwo
    have hload : ¬uop.microOp.isLoad = true := by simp [MicroOp.isLoad, hkind]
    have hregisters : (registersAnnounced s.registerDependencies s.lowest
        uop.microOp.sourceRegisters).length ≤ uop.microOp.sourceRegisters.length :=
      List.length_filterMap_le _ _
    have hbarrier : (barrierAnnounced s.memoryDependencies s.lowest uop).length ≤ 1 := by
      rw [barrierAnnounced]
      split
      · cases s.memoryDependencies.membar.filter fun membar => s.lowest < membar with
        | none => exact Nat.zero_le 1
        | some membar => exact Nat.le_refl 1
      · exact Nat.zero_le 1
    rw [RobTimer.announced, storeAnnounced, if_neg hload, List.append_nil, List.length_append]
    omega

/-- What holds of the buffer while an instruction enters it. -/
theorem Bookkept.enter {d : DecodedInstruction} (h : Bookkept cfg start s)
    (hlow : s.lowest ≤ s.nextSequenceNumber) (hplain : d.Plain)
    (hbounded : s.nextSequenceNumber + d.uops.length ≤ 2 ^ 64) (k : Nat) {t : RobTimer μ}
    (hfold : (d.uops.take k).foldlM (RobTimer.enqueue cfg) s = .ok t) :
    Bookkept cfg start t ∧ Filed t s.nextSequenceNumber (d.uops.take k) := by
  induction k generalizing t with
  | zero =>
    cases hfold
    exact ⟨h, Filed.new h.tables hlow⟩
  | succ k ih =>
    cases hk : d.uops[k]? with
    | none =>
      have hsame : d.uops.take (k + 1) = d.uops.take k := by
        rw [List.take_add_one, hk, Option.toList_none, List.append_nil]
      rw [hsame] at hfold ⊢
      exact ih hfold
    | some uop =>
      have hmore : d.uops.take (k + 1) = d.uops.take k ++ [uop] := by
        rw [List.take_add_one, hk, Option.toList_some]
      rw [hmore, List.foldlM_append] at hfold
      obtain ⟨u, hfirst, hstep⟩ := except_bind_eq_ok.mp hfold
      rw [List.foldlM_cons] at hstep
      obtain ⟨t', hstep, hlast⟩ := except_bind_eq_ok.mp hstep
      cases hlast
      obtain ⟨hbook, hfiled⟩ := ih hfirst
      have hn := hbook.history.links.numbered
      have hfits := hfiled.fits hn hplain hk hbounded
      rw [hmore]
      exact ⟨hbook.enqueue hfits hstep, hfiled.enqueue hn hfits.fresh.small hfits.squashed hstep⟩

theorem Numbered.lowest_le_next (h : Numbered s) : s.lowest ≤ s.nextSequenceNumber := by
  rw [RobTimer.lowest, List.head?_eq_getElem?]
  cases hfirst : s.rob[0]? with
  | none => exact Nat.le_refl _
  | some first =>
    have hzero := h 0 first hfirst
    simp only
    omega

theorem Bookkept.new (loads stores : Nat) (memory : μ) (contention : σ) :
    Bookkept cfg (RobState.new loads stores memory contention).timer
      (RobState.new loads stores memory contention).timer where
  history := HasHistory.start (RobState.links_new loads stores memory contention) rfl
  tables := ⟨nofun, fun _ hstore => absurd hstore List.not_mem_nil, List.Pairwise.nil, nofun⟩
  sound := fun _ he => absurd he List.not_mem_nil

end RobTimer

end Sniper.Performance
