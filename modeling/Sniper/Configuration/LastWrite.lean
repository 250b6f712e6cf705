import Sniper.Configuration.Store
import Mathlib.Data.List.Basic
import Mathlib.Data.List.Induction
set_option autoImplicit false

/-! What is read from a configuration is what was last written to the place that the path names. -/

namespace Sniper.Configuration
open Sniper.Lib

variable {V : Type}

/-! ### Paths -/

/-- The case that names are looked up in. -/
def foldCase (caseSensitive : Bool) (name : List Char) : List Char :=
  if caseSensitive then name else name.map Char.toLower

/-- The names on the way from the root to a key. -/
def place (caseSensitive : Bool) (path : List Char) : List (List Char) :=
  (path.splitOn '/').map (foldCase caseSensitive)

theorem place_ne_nil (caseSensitive : Bool) (path : List Char) : place caseSensitive path ≠ [] := by
  rw [place, ne_eq, List.map_eq_nil_iff]
  exact List.splitOn_ne_nil _ _

theorem beforeLast_append {base last : List Char} (h : '/' ∉ last) :
    beforeLast (base ++ '/' :: last) = base := by
  have hidx : (base ++ '/' :: last).reverse.idxOf '/' = last.length := by
    rw [List.reverse_append, List.reverse_cons, List.append_assoc, List.idxOf_append_of_notMem
      (by simpa using h), List.length_reverse]
    simp
  rw [beforeLast, hidx]
  simp

/-- A path that is not of one name only is cut before its last name. -/
theorem splitPath_eq {path : List Char} (h : isLeaf path = false) :
    ∃ base last, splitPath path = (base, last) ∧
      path.splitOn '/' = base.splitOn '/' ++ [last] := by
  have hmem : '/' ∈ path.reverse := by simpa [isLeaf] using h
  obtain ⟨last, base, heq, hlast⟩ := List.eq_append_cons_of_mem hmem
  have hpath : path = base.reverse ++ '/' :: last.reverse := by
    rw [← List.reverse_reverse path, heq]
    simp
  have hlast' : '/' ∉ last.reverse := by simpa using hlast
  have hsplit : path.splitOn '/' = base.reverse.splitOn '/' ++ [last.reverse] := by
    rw [hpath, List.splitOn_append_cons_self, List.splitOn_eq_singleton hlast']
  refine ⟨base.reverse, last.reverse, ?_, hsplit⟩
  simp only [splitPath, splitPathElements, hsplit, List.getLastD_concat]
  rw [hpath, beforeLast_append hlast']
  simp

theorem splitOn_of_leaf {path : List Char} (h : isLeaf path = true) : path.splitOn '/' = [path] := by
  refine List.splitOn_eq_singleton ?_
  simpa [isLeaf] using h

/-! ### Entries -/

/-- What a section holds under a name. -/
abbrev Entry (V : Type) := Option (Key V) × Option (List (Option (Key V)))

def SectionData.entry (s : SectionData V) (iname : List Char) : Entry V :=
  (s.keys iname, s.arrayKeys iname)

namespace Entry

/-- A section with this entry and no other. -/
def alone (e : Entry V) : SectionData V := ⟨[], fun _ => e.1, fun _ => e.2⟩

def get (e : Entry V) (index : Nat) : Except Failure (Key V) := e.alone.getKey [] index

def has (e : Entry V) (index : Nat) : Bool := e.alone.hasKey [] index

def add (e : Entry V) (key : Key V) (index : Nat) : Entry V :=
  (e.alone.addKey [] key index).entry []

end Entry

theorem SectionData.entry_addKey (s : SectionData V) (iname n : List Char) (key : Key V)
    (index : Nat) : (s.addKey iname key index).entry n =
      if n = iname then (s.entry iname).add key index else s.entry n := by
  rw [Entry.add, SectionData.addKey, SectionData.addKey]
  by_cases hn : n = iname
  · subst hn
    split <;> simp [SectionData.entry, Entry.alone]
  · split <;> simp [SectionData.entry, hn]

theorem storeAt_getElem? (arr : List (Option (Key V))) (j index : Nat) (key : Key V) :
    ((SectionData.storeAt arr j key)[index]?).join =
      if index = j then some key else (arr[index]?).join := by
  have hlen : j < (arr ++ List.replicate (j + 1 - arr.length) none).length := by
    simp only [List.length_append, List.length_replicate]
    omega
  rw [SectionData.storeAt, List.getElem?_set]
  by_cases h : index = j
  · subst h
    rw [if_pos rfl, if_pos rfl, if_pos hlen]
    rfl
  · rw [if_neg (Ne.symm h), if_neg h]
    rcases Nat.lt_or_ge index arr.length with hin | hout
    · rw [List.getElem?_append_left hin]
    · rw [List.getElem?_append_right hout, List.getElem?_eq_none hout, List.getElem?_replicate]
      split <;> rfl

namespace Entry

theorem get_add (e : Entry V) (key : Key V) (j index : Nat) :
    (e.add key j).get index = if j = noIndex ∨ j = index then .ok key else e.get index := by
  simp only [get, add, SectionData.addKey, SectionData.getKey, SectionData.override,
    SectionData.entry, alone]
  by_cases hj : j = noIndex
  · simp [hj]
  · by_cases hindex : index = noIndex
    · simp [hj, hindex]
    · by_cases h : j = index
      · simp [hindex, storeAt_getElem?, h]
      · cases e.2 <;> simp [hj, hindex, storeAt_getElem?, h, Ne.symm h]

theorem has_add (e : Entry V) (key : Key V) (j index : Nat) :
    (e.add key j).has index =
      (decide (j = noIndex ∨ j = index ∨ index = noIndex) || e.has index) := by
  simp only [has, add, SectionData.addKey, SectionData.hasKey, SectionData.override,
    SectionData.entry, alone]
  by_cases hj : j = noIndex
  · simp [hj]
  · by_cases hindex : index = noIndex
    · simp [hj, hindex]
    · by_cases h : j = index
      · simp [hindex, storeAt_getElem?, h]
      · cases e.2 <;> simp [hj, hindex, storeAt_getElem?, h, Ne.symm h]

end Entry

/-! ### Sections -/

namespace Config

theorem iname_eq (c : Config V) : c.iname = foldCase c.caseSensitive := rfl

theorem enterAll_eq (c : Config V) (section_ : Nat) (names : List (List Char)) :
    c.enterAll section_ names =
      let r := c.sections.descend section_
        (names.map fun name => (foldCase c.caseSensitive name, SectionData.empty name))
      (r.1, { c with sections := r.2 }) := by
  induction names generalizing c section_ with
  | nil => rfl
  | cons name names ih => exact ih _ _

/-- A path of one name only is no special case. -/
theorem getSection_eq (c : Config V) (path : List Char) :
    c.getSection path = c.enterAll 0 (path.splitOn '/') := by
  rw [getSection]
  split
  next h =>
    rw [splitOn_of_leaf h]
    rfl
  next => rfl

@[simp] theorem caseSensitive_getSection (c : Config V) (path : List Char) :
    (c.getSection path).2.caseSensitive = c.caseSensitive := by
  rw [getSection_eq, enterAll_eq]

/-- The invariant of the tree of sections. -/
def Wf (c : Config V) : Prop := ∃ path, NameTree.Wf path c.sections

/-- What the section that the names before the last one lead to holds under the last. -/
def entryAt (c : Config V) (names : List (List Char)) : Entry V :=
  c.sections.lookup (fun s => s.entry (names.getLastD [])) (none, none) names.dropLast

theorem getSection_wf {c : Config V} (h : c.Wf) (path : List Char) :
    ∃ path', NameTree.Wf path' (c.getSection path).2.sections ∧
      (c.getSection path).1 < (c.getSection path).2.sections.size ∧
      path' (c.getSection path).1 = place c.caseSensitive path := by
  obtain ⟨path', hwf⟩ := h
  rw [getSection_eq, enterAll_eq]
  obtain ⟨path'', hwf', hsize, hpath⟩ := hwf.descend hwf.size_pos
    ((path.splitOn '/').map fun name => (foldCase c.caseSensitive name, SectionData.empty name))
  refine ⟨path'', hwf', hsize, ?_⟩
  rw [hpath, hwf.root, List.nil_append, List.map_map]
  rfl

theorem entryAt_getSection {c : Config V} (h : c.Wf) (path : List Char) (names : List (List Char)) :
    (c.getSection path).2.entryAt names = c.entryAt names := by
  obtain ⟨path', hwf⟩ := h
  rw [getSection_eq, enterAll_eq]
  refine hwf.lookup_descend hwf.size_pos fun e he => ?_
  obtain ⟨name, -, rfl⟩ := List.mem_map.mp he
  rfl

/-- A section is read at its path. -/
theorem entry_sectionData {c : Config V} {path : Nat → List (List Char)}
    (hwf : NameTree.Wf path c.sections) {section_ : Nat} (h : section_ < c.sections.size)
    (n : List Char) : (c.sectionData section_).entry n = c.entryAt (path section_ ++ [n]) := by
  rw [entryAt, List.dropLast_concat, hwf.lookup_path h, List.getLastD_concat]
  rfl

theorem entryAt_addKeyTo {c : Config V} {path : Nat → List (List Char)}
    (hwf : NameTree.Wf path c.sections) {section_ : Nat} (h : section_ < c.sections.size)
    (name : List Char) (value : V) (index : Nat) {names : List (List Char)} (hnames : names ≠ []) :
    (c.addKeyTo section_ name value index).entryAt names =
      if names = path section_ ++ [c.iname name] then
        (c.entryAt names).add ⟨c.getFullPath section_, name, value⟩ index
      else c.entryAt names := by
  obtain ⟨init, last, rfl⟩ : ∃ init last, names = init ++ [last] :=
    ⟨_, _, (List.dropLast_concat_getLast hnames).symm⟩
  rw [entryAt, addKeyTo, hwf.lookup_modify h, List.dropLast_concat, List.getLastD_concat,
    SectionData.entry_addKey]
  by_cases hinit : init = path section_
  · subst hinit
    rw [if_pos rfl]
    by_cases hlast : last = c.iname name
    · subst hlast
      rw [if_pos rfl, if_pos rfl, ← entry_sectionData hwf h]
      rfl
    · rw [if_neg hlast, if_neg (by simpa using hlast), ← entry_sectionData hwf h]
      rfl
  · rw [if_neg hinit, if_neg (by simp [hinit]), entryAt, List.dropLast_concat,
      List.getLastD_concat]

theorem place_of_leaf {c : Config V} {path : List Char} (h : isLeaf path = true) :
    place c.caseSensitive path = [c.iname path] := by
  rw [place, splitOn_of_leaf h]
  rfl

/-- Keys are stored under the place that their path names. -/
theorem entryAt_addKey {c : Config V} (h : c.Wf) (path : List Char) (value : V) (index : Nat) :
    ∃ key, key.value = value ∧ ∀ names, names ≠ [] → (c.addKey path value index).entryAt names =
      if names = place c.caseSensitive path then (c.entryAt names).add key index
      else c.entryAt names := by
  rw [addKey]
  split
  next hleaf =>
    obtain ⟨path', hwf⟩ := h
    refine ⟨⟨c.getFullPath 0, path, value⟩, rfl, fun names hnames => ?_⟩
    rw [entryAt_addKeyTo hwf hwf.size_pos path value index hnames, hwf.root, place_of_leaf hleaf]
    rfl
  next hleaf =>
    obtain ⟨base, last, hsplit, heq⟩ := splitPath_eq (Bool.eq_false_iff.mpr hleaf)
    obtain ⟨path', hwf, hsize, hpath⟩ := getSection_wf h base
    rw [hsplit]
    refine ⟨⟨(c.getSection base).2.getFullPath (c.getSection base).1, last, value⟩, rfl,
      fun names hnames => ?_⟩
    rw [entryAt_addKeyTo hwf hsize last value index hnames, hpath, entryAt_getSection h,
      iname_eq, caseSensitive_getSection, place, place, heq, List.map_append]
    rfl

theorem entry_of_leaf {c : Config V} (h : c.Wf) {path : List Char} (hleaf : isLeaf path = true) :
    (c.sectionData 0).entry (c.iname path) = c.entryAt (place c.caseSensitive path) := by
  obtain ⟨path', hwf⟩ := h
  have hroot := entry_sectionData hwf hwf.size_pos (c.iname path)
  rwa [hwf.root, List.nil_append, ← place_of_leaf hleaf] at hroot

theorem entry_of_path {c : Config V} (h : c.Wf) {path : List Char} (hleaf : isLeaf path = false) :
    ((c.getSection (splitPath path).1).2.sectionData (c.getSection (splitPath path).1).1).entry
      (c.iname (splitPath path).2) = c.entryAt (place c.caseSensitive path) := by
  obtain ⟨base, last, hsplit, heq⟩ := splitPath_eq hleaf
  obtain ⟨path', hwf, hsize, hpath⟩ := getSection_wf h base
  have hplace : place c.caseSensitive path = path' (c.getSection base).1 ++ [c.iname last] := by
    rw [hpath, place, place, heq, List.map_append]
    rfl
  rw [hsplit, hplace, ← entryAt_getSection h base]
  exact entry_sectionData hwf hsize _

theorem getKey_eq {c : Config V} (h : c.Wf) (path : List Char) (index : Nat) :
    (c.getKey path index).1 =
      if (c.entryAt (place c.caseSensitive path)).has index then
        (c.entryAt (place c.caseSensitive path)).get index
      else .error (.notFound path index) := by
  rw [getKey]
  split
  next hleaf =>
    rw [← entry_of_leaf h hleaf]
    rfl
  next hleaf =>
    rw [← entry_of_path h (Bool.eq_false_iff.mpr hleaf)]
    rfl

theorem hasKey_eq {c : Config V} (h : c.Wf) (path : List Char) (index : Nat) :
    (c.hasKey path index).1 = (c.entryAt (place c.caseSensitive path)).has index := by
  rw [hasKey]
  split
  next hleaf =>
    rw [← entry_of_leaf h hleaf]
    rfl
  next hleaf =>
    rw [← entry_of_path h (Bool.eq_false_iff.mpr hleaf)]
    rfl

/-! ### Steps -/

theorem wf_of_getSection {c : Config V} (h : c.Wf) (path : List Char) : (c.getSection path).2.Wf := by
  obtain ⟨path', hwf, -⟩ := getSection_wf h path
  exact ⟨path', hwf⟩

theorem wf_addKey {c : Config V} (h : c.Wf) (path : List Char) (value : V) (index : Nat) :
    (c.addKey path value index).Wf := by
  rw [addKey]
  split
  · obtain ⟨path', hwf⟩ := h
    exact ⟨path', hwf.modify _ _⟩
  · obtain ⟨path', hwf, -⟩ := getSection_wf h (splitPath path).1
    exact ⟨path', hwf.modify _ _⟩

theorem caseSensitive_addKey (c : Config V) (path : List Char) (value : V) (index : Nat) :
    (c.addKey path value index).caseSensitive = c.caseSensitive := by
  rw [addKey]
  split
  · rfl
  · exact caseSensitive_getSection c _

/-- Looking for a key makes sections at most. -/
theorem hasKey_snd (c : Config V) (path : List Char) (index : Nat) :
    (c.hasKey path index).2 = c ∨ (c.hasKey path index).2 = (c.getSection (splitPath path).1).2 := by
  rw [hasKey]
  split
  · exact .inl rfl
  · exact .inr rfl

theorem getKey_snd (c : Config V) (path : List Char) (index : Nat) :
    (c.getKey path index).2 = c ∨ (c.getKey path index).2 = (c.getSection (splitPath path).1).2 := by
  rw [getKey]
  split
  · exact .inl rfl
  · exact .inr rfl

theorem addSection_snd {c : Config V} (h : c.Wf) (path : List Char) :
    (c.addSection path).2.Wf ∧ (c.addSection path).2.caseSensitive = c.caseSensitive ∧
      ∀ names, (c.addSection path).2.entryAt names = c.entryAt names := by
  obtain ⟨path', hwf, hsize, -⟩ := getSection_wf h (splitPath path).1
  obtain ⟨path'', hwf', -⟩ := hwf.enter hsize
    ((c.getSection (splitPath path).1).2.iname (splitPath path).2) (.empty (splitPath path).2)
  refine ⟨⟨path'', hwf'⟩, caseSensitive_getSection c _, fun names => ?_⟩
  refine Eq.trans ?_ (entryAt_getSection h (splitPath path).1 names)
  exact hwf.lookup_enter (a := .empty (splitPath path).2)
    (f := fun s => s.entry (names.getLastD [])) (d := (none, none)) hsize rfl

end Config

/-! ### Whole runs -/

/-- The values that were written to a place, with the index they were written for. -/
def writesTo (caseSensitive : Bool) (names : List (List Char)) (ops : List (Op V)) : List (Nat × V) :=
  ops.filterMap fun op =>
    match op with
    | .addKey path value index =>
      if place caseSensitive path = names then some (index, value) else none
    | _ => none

/-- The last of them for an index: a value written for no index is one for every index. -/
def lastFor (writes : List (Nat × V)) (index : Nat) : Option V :=
  ((writes.filter fun w => w.1 = noIndex ∨ w.1 = index).getLast?).map Prod.snd

theorem lastFor_concat (writes : List (Nat × V)) (j index : Nat) (value : V) :
    lastFor (writes ++ [(j, value)]) index =
      if j = noIndex ∨ j = index then some value else lastFor writes index := by
  rw [lastFor, List.filter_append]
  by_cases h : j = noIndex ∨ j = index
  · simp [h]
  · simp [h, lastFor]

/-- Where something was written for one index, a look for no index finds the name. -/
def known (writes : List (Nat × V)) (index : Nat) : Bool :=
  (lastFor writes index).isSome || decide (index = noIndex ∧ writes ≠ [])

/-- The entry tells what was written last, and whether anything was. -/
def Entry.Tells (e : Entry V) (writes : List (Nat × V)) : Prop :=
  ∀ index,
    (e.get index).map Key.value = (match lastFor writes index with
      | some value => .ok value
      | none => .error .nullKey) ∧
    e.has index = known writes index

theorem Entry.Tells.add {e : Entry V} {writes : List (Nat × V)} (h : e.Tells writes) (key : Key V)
    (j : Nat) : (e.add key j).Tells (writes ++ [(j, key.value)]) := by
  intro index
  obtain ⟨hget, hhas⟩ := h index
  rw [get_add, has_add, known, lastFor_concat]
  by_cases hj : j = noIndex ∨ j = index
  · rw [if_pos hj, if_pos hj]
    refine ⟨rfl, ?_⟩
    rcases hj with hj | hj <;> simp [hj]
  · rw [if_neg hj, if_neg hj, hhas, known]
    refine ⟨hget, ?_⟩
    rw [not_or] at hj
    by_cases hindex : index = noIndex <;> simp [hj, hindex]

theorem Entry.Tells.empty : Entry.Tells (V := V) (none, none) [] := by
  intro index
  refine ⟨?_, ?_⟩
  · simp only [get, alone, SectionData.getKey, SectionData.override]
    split <;> rfl
  · simp [has, alone, SectionData.hasKey, SectionData.override, known, lastFor]

/-- What a run keeps: the tree is in order, and each entry tells the writes to its place. -/
structure Holds (caseSensitive : Bool) (ops : List (Op V)) (c : Config V) : Prop where
  wf : c.Wf
  caseSensitive_eq : c.caseSensitive = caseSensitive
  tells : ∀ names, names ≠ [] → (c.entryAt names).Tells (writesTo caseSensitive names ops)

namespace Holds

variable {caseSensitive : Bool} {ops : List (Op V)} {c : Config V}

theorem new : Holds caseSensitive [] (.new caseSensitive : Config V) where
  wf := ⟨_, NameTree.Wf.root_tree _⟩
  caseSensitive_eq := rfl
  tells names _ := by
    have hentry : (Config.new caseSensitive : Config V).entryAt names = (none, none) :=
      NameTree.lookup_root rfl
    rw [hentry]
    exact .empty

/-- An operation that writes no key. -/
theorem of_read (h : Holds caseSensitive ops c) {c' : Config V} (op : Op V) (hwf : c'.Wf)
    (hcase : c'.caseSensitive = c.caseSensitive) (hentry : ∀ names, c'.entryAt names = c.entryAt names)
    (hwrites : ∀ names, writesTo caseSensitive names [op] = []) :
    Holds caseSensitive (ops ++ [op]) c' where
  wf := hwf
  caseSensitive_eq := hcase.trans h.caseSensitive_eq
  tells names hnames := by
    have htells := h.tells names hnames
    rw [writesTo, List.filterMap_append, ← writesTo, ← writesTo, hwrites, List.append_nil, hentry]
    exact htells

theorem of_getSection (h : Holds caseSensitive ops c) {c' : Config V} (op : Op V)
    (path : List Char) (hc' : c' = c ∨ c' = (c.getSection path).2)
    (hwrites : ∀ names, writesTo caseSensitive names [op] = []) :
    Holds caseSensitive (ops ++ [op]) c' := by
  rcases hc' with rfl | rfl
  · exact h.of_read op h.wf rfl (fun _ => rfl) hwrites
  · exact h.of_read op (Config.wf_of_getSection h.wf path) (Config.caseSensitive_getSection c path)
      (Config.entryAt_getSection h.wf path) hwrites

theorem addKey (h : Holds caseSensitive ops c) (path : List Char) (value : V) (index : Nat) :
    Holds caseSensitive (ops ++ [.addKey path value index]) (c.addKey path value index) where
  wf := Config.wf_addKey h.wf path value index
  caseSensitive_eq := (Config.caseSensitive_addKey c path value index).trans h.caseSensitive_eq
  tells names hnames := by
    obtain ⟨key, rfl, hentry⟩ := Config.entryAt_addKey h.wf path value index
    have htells := h.tells names hnames
    rw [hentry names hnames, h.caseSensitive_eq, writesTo, List.filterMap_append, ← writesTo]
    by_cases hplace : names = place caseSensitive path
    · rw [if_pos hplace]
      simpa [hplace] using htells.add key index
    · rw [if_neg hplace]
      simpa [Ne.symm hplace] using htells

theorem step (h : Holds caseSensitive ops c) (op : Op V) :
    Holds caseSensitive (ops ++ [op]) (c.apply op) := by
  cases op with
  | addKey path value index => exact h.addKey path value index
  | hasKey path index =>
    exact h.of_getSection _ _ (Config.hasKey_snd c path index) fun _ => rfl
  | getKey path index =>
    exact h.of_getSection _ _ (Config.getKey_snd c path index) fun _ => rfl
  | getSection path => exact h.of_getSection _ path (.inr rfl) fun _ => rfl
  | addSection path =>
    obtain ⟨hwf, hcase, hentry⟩ := Config.addSection_snd h.wf path
    exact h.of_read _ hwf hcase hentry fun _ => rfl

theorem of_run (caseSensitive : Bool) (ops : List (Op V)) :
    Holds caseSensitive ops (run caseSensitive ops) := by
  induction ops using List.reverseRecOn with
  | nil => exact new
  | append_singleton ops op ih =>
    rw [run, List.foldl_append]
    exact ih.step op

end Holds

/-- What a look for a key gives, from the writes to its place alone. -/
def expected (writes : List (Nat × V)) (path : List Char) (index : Nat) : Except Failure V :=
  match lastFor writes index with
  | some value => .ok value
  | none => .error (if known writes index then .nullKey else .notFound path index)

/-- After any run a key is there when it was written, and has the value that was written last: no
write under another name or for another index is seen, and looking for keys changes nothing. -/
theorem getKey_run (caseSensitive : Bool) (ops : List (Op V)) (path : List Char) (index : Nat) :
    let writes := writesTo caseSensitive (place caseSensitive path) ops
    (((run caseSensitive ops).getKey path index).1).map Key.value = expected writes path index ∧
      ((run caseSensitive ops).hasKey path index).1 = known writes index := by
  have h := Holds.of_run caseSensitive ops
  obtain ⟨hget, hhas⟩ := h.tells _ (place_ne_nil caseSensitive path) index
  rw [Config.getKey_eq h.wf, Config.hasKey_eq h.wf, h.caseSensitive_eq, hhas]
  refine ⟨?_, rfl⟩
  generalize writesTo caseSensitive (place caseSensitive path) ops = writes at hget ⊢
  rw [expected]
  cases hlast : lastFor writes index with
  | some value =>
    have hknown : known writes index = true := by simp [known, hlast]
    rw [if_pos hknown, hget, hlast]
  | none =>
    by_cases hknown : known writes index = true
    · rw [if_pos hknown, if_pos hknown, hget, hlast]
    · rw [if_neg hknown, if_neg hknown]
      rfl

end Sniper.Configuration
