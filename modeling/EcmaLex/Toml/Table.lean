import EcmaLex.Toml.Scalar

/-!
# Tables of TOML

A table is a list of entries in the order in which they are written. A dotted key opens tables
inside of its table, which later dotted keys may extend, but which no other entry may stand for.
Two entries may share a key: what reads the table decides whether that matters. Headers open tables
too, and the headers of a text have to agree with each other.
-/

namespace EcmaLex.Toml

inductive Value where
  | string (t : Text)
  | boolean (b : Bool)
  | scalar (s : Scalar)
  | array (items : List Value)
  /-- A table in braces. -/
  | inline (entries : List (Text × Value))
  /-- A table that dotted keys have opened. -/
  | dotted (entries : List (Text × Value))
deriving Repr

abbrev Entries := List (Text × Value)

namespace Entries

/-- Adds a value under a dotted key. -/
def insert? (value : Value) : List Text → Entries → Option Entries
  | [], _ => none
  | [key], es => some (es ++ [(key, value)])
  | key :: path, es =>
    match es.findIdx? (·.1 = key) with
    | none => do
      let inner ← insert? value path []
      return es ++ [(key, .dotted inner)]
    | some i =>
      match es[i]? with
      | some (_, .dotted inner) => do
        let inner ← insert? value path inner
        return es.set i (key, .dotted inner)
      | _ => none

/-- The values of the entries with a key. -/
def valuesOf (es : Entries) (key : Text) : List Value :=
  es.filterMap fun (k, v) => if k = key then some v else none

end Entries

/-- A header and the entries below it. -/
structure Section where
  header : List Text
  array : Bool
  entries : Entries
deriving Repr

/-- How a table came to be. -/
inductive Opening where
  /-- Only a longer header names it. -/
  | implicit
  | single
  | array
deriving DecidableEq, Repr

/-- A table that headers have opened, and those inside of it. Of an array of tables it is the
latest one. -/
inductive OpenTable where
  | node (opening : Opening) (inner : List (Text × OpenTable))

namespace OpenTable

abbrev Tables := List (Text × OpenTable)

def put (key : Text) (table : OpenTable) (tables : Tables) : Tables :=
  (key, table) :: tables.filter (·.1 ≠ key)

/-- Opens a table of which one with the same header may be open. -/
def open? (array : Bool) : Option OpenTable → Option OpenTable
  | none => some (node (if array then .array else .single) [])
  | some (node .implicit inner) => if array then none else some (node .single inner)
  | some (node .single _) => none
  | some (node .array _) => if array then some (node .array []) else none

/-- Opens the table of a header. -/
def header? (array : Bool) : List Text → Tables → Option Tables
  | [], _ => none
  | [key], tables => (open? array (tables.lookup key)).map (put key · tables)
  | key :: path, tables =>
    let (opening, inner) := match tables.lookup key with
      | some (node opening inner) => (opening, inner)
      | none => (.implicit, [])
    (header? array path inner).map fun inner => put key (node opening inner) tables

/-- Opens the tables of some sections one after another. -/
def sections? (tables : Tables) (sections : List Section) : Option Tables :=
  sections.foldlM (fun tables s => header? s.array s.header tables) tables

end OpenTable

end EcmaLex.Toml
