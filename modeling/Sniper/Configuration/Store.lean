import Sniper.Lib.NameTree
import Mathlib.Algebra.Group.Nat.Defs
import Mathlib.Logic.Function.Basic
set_option autoImplicit false

/-! The configuration: sections in a tree, each with keys and, over them, keys that are given for
single indices. -/

namespace Sniper.Configuration
open Sniper.Lib

/-- `UINT64_MAX`: no index, the default for all of them. -/
def noIndex : Nat := 2 ^ 64 - 1

structure Key (V : Type) where
  parentPath : List Char
  name : List Char
  value : V
  deriving DecidableEq, Repr

/-- The fields of a `Section` but for its subsections and its parent. -/
structure SectionData (V : Type) where
  name : List Char
  keys : List Char → Option (Key V)
  arrayKeys : List Char → Option (List (Option (Key V)))

/-- Sections are numbered in the order in which they are made; `m_root` is section 0. -/
structure Config (V : Type) where
  caseSensitive : Bool
  sections : NameTree (List Char) (SectionData V)

/-- What ends the program: `config::Error`, or a null pointer that `Section::getKey` follows. -/
inductive Failure where
  | notFound (path : List Char) (index : Nat)
  | nullKey
  deriving DecidableEq, Repr

variable {V : Type}

/-! ### Paths -/

def isLeaf (path : List Char) : Bool := !path.contains '/'

/-- `path.substr(0, path.rfind("/"))`. -/
def beforeLast (path : List Char) : List Char :=
  path.take (path.length - 1 - path.reverse.idxOf '/')

def splitPathElements (path : List Char) : (List Char × List Char) × List (List Char) :=
  let pathElements := path.splitOn '/'
  let keyName := pathElements.getLastD []
  let basePath := if path.contains '/' then beforeLast path else []
  ((basePath, keyName), pathElements)

def splitPath (path : List Char) : List Char × List Char := (splitPathElements path).1

/-! ### Sections -/

namespace SectionData

def empty (name : List Char) : SectionData V := ⟨name, fun _ => none, fun _ => none⟩

/-- `arr.resize(needed_size)`, or the old key at the index is dropped; then the new one is stored. -/
def storeAt (arr : List (Option (Key V))) (index : Nat) (key : Key V) : List (Option (Key V)) :=
  (arr ++ List.replicate (index + 1 - arr.length) none).set index (some key)

/-- `addKeyInternal` with the name in the case it is looked up in. -/
def addKey (iname : List Char) (key : Key V) (index : Nat) (s : SectionData V) : SectionData V :=
  if index = noIndex then
    { s with
      keys := Function.update s.keys iname (some key)
      arrayKeys := Function.update s.arrayKeys iname none }
  else
    { s with
      arrayKeys := Function.update s.arrayKeys iname
        (some (storeAt ((s.arrayKeys iname).getD []) index key)) }

/-- The key that is given for an index. -/
def override (s : SectionData V) (iname : List Char) (index : Nat) : Option (Key V) :=
  (s.arrayKeys iname).bind fun arr => (arr[index]?).join

def hasKey (s : SectionData V) (iname : List Char) (index : Nat) : Bool :=
  if index = noIndex then (s.keys iname).isSome || (s.arrayKeys iname).isSome
  else (s.override iname index).isSome || (s.keys iname).isSome

def getKey (s : SectionData V) (iname : List Char) (index : Nat) : Except Failure (Key V) :=
  let default : Except Failure (Key V) :=
    match s.keys iname with
    | some key => .ok key
    | none => .error .nullKey
  if index = noIndex then default
  else
    match s.override iname index with
    | some key => .ok key
    | none => default

end SectionData

namespace Config

/-- The case that names are looked up in. -/
def iname (c : Config V) (name : List Char) : List Char :=
  if c.caseSensitive then name else name.map Char.toLower

/-- `Config(case_sensitive)`. -/
def new (caseSensitive : Bool) : Config V := ⟨caseSensitive, .root (.empty [])⟩

/-- `addSubsection` where there is no section of the name, then `getSection_unsafe`. -/
def enter (c : Config V) (section_ : Nat) (name : List Char) : Nat × Config V :=
  let r := c.sections.enter section_ (c.iname name) (.empty name)
  (r.1, { c with sections := r.2 })

def enterAll (c : Config V) (section_ : Nat) : List (List Char) → Nat × Config V
  | [] => (section_, c)
  | name :: rest => (c.enter section_ name).2.enterAll (c.enter section_ name).1 rest

/-- `Config::getSection_unsafe`. -/
def getSection (c : Config V) (path : List Char) : Nat × Config V :=
  if isLeaf path then c.enter 0 path else c.enterAll 0 (splitPathElements path).2

def sectionData (c : Config V) (section_ : Nat) : SectionData V := (c.sections.node section_).payload

/-- `Section::getFullPath`; a section has a greater number than its parent. -/
def getFullPathFuel (c : Config V) : Nat → Nat → List Char
  | 0, _ => []
  | fuel + 1, section_ =>
    if section_ = 0 then []
    else if (c.sections.node section_).parent = 0 then (c.sectionData section_).name
    else c.getFullPathFuel fuel (c.sections.node section_).parent ++
      '/' :: (c.sectionData section_).name

def getFullPath (c : Config V) (section_ : Nat) : List Char := c.getFullPathFuel section_ section_

def addKeyTo (c : Config V) (section_ : Nat) (name : List Char) (value : V) (index : Nat) :
    Config V :=
  let key : Key V := ⟨c.getFullPath section_, name, value⟩
  { c with sections := c.sections.modify section_ (.addKey (c.iname name) key index) }

/-- `Config::addKeyInternal`. -/
def addKey (c : Config V) (path : List Char) (value : V) (index : Nat) : Config V :=
  if isLeaf path then c.addKeyTo 0 path value index
  else
    let r := c.getSection (splitPath path).1
    r.2.addKeyTo r.1 (splitPath path).2 value index

/-- A look for a key may make the sections on the way to it. -/
def hasKey (c : Config V) (path : List Char) (index : Nat) : Bool × Config V :=
  if isLeaf path then ((c.sectionData 0).hasKey (c.iname path) index, c)
  else
    let r := c.getSection (splitPath path).1
    ((r.2.sectionData r.1).hasKey (c.iname (splitPath path).2) index, r.2)

def getKey (c : Config V) (path : List Char) (index : Nat) : Except Failure (Key V) × Config V :=
  if isLeaf path then
    (if (c.sectionData 0).hasKey (c.iname path) index then
      (c.sectionData 0).getKey (c.iname path) index
    else .error (.notFound path index), c)
  else
    let r := c.getSection (splitPath path).1
    (if (r.2.sectionData r.1).hasKey (c.iname (splitPath path).2) index then
      (r.2.sectionData r.1).getKey (c.iname (splitPath path).2) index
    else .error (.notFound path index), r.2)

def addSection (c : Config V) (path : List Char) : Nat × Config V :=
  let r := c.getSection (splitPath path).1
  r.2.enter r.1 (splitPath path).2

end Config

/-! ### Whole runs -/

/-- What is done with a configuration. -/
inductive Op (V : Type) where
  | addKey (path : List Char) (value : V) (index : Nat)
  | hasKey (path : List Char) (index : Nat)
  | getKey (path : List Char) (index : Nat)
  | getSection (path : List Char)
  | addSection (path : List Char)

def Config.apply (c : Config V) : Op V → Config V
  | .addKey path value index => c.addKey path value index
  | .hasKey path index => (c.hasKey path index).2
  | .getKey path index => (c.getKey path index).2
  | .getSection path => (c.getSection path).2
  | .addSection path => (c.addSection path).2

def run (caseSensitive : Bool) (ops : List (Op V)) : Config V :=
  ops.foldl Config.apply (.new caseSensitive)

end Sniper.Configuration
