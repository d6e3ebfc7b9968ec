import EcmaLex.Options
import EcmaLex.Toml.Document

/-!
# Options in TOML

Options may be read from a TOML text, under the keys that name them. The text may hold more: other
keys and all tables are passed over. A flag is a boolean and the length of a line an integer that
is not negative. A line of no characters is refused, but only if all else is well.
-/

namespace EcmaLex

inductive ConfigError where
  /-- The text is not TOML, or an option has a value of the wrong type. -/
  | toml
  | zeroMaxlen
deriving DecidableEq, Repr

def ConfigError.message : ConfigError → String
  | toml => "invalid lexer options"
  | zeroMaxlen => "`maxlen` must be greater than zero"

namespace Options

open Toml

/-- The keys of the options. -/
def keys : List Text :=
  ["json".toList, "multistr".toList, "maxlen".toList, "trailing".toList, "smarttabs".toList,
   "scripturl".toList, "proto".toList, "iterator".toList]

/-- The value of a flag. One that is absent is off. -/
def flag? (es : Entries) (key : String) : Option Bool :=
  match es.valuesOf key.toList with
  | [] => some false
  | [.boolean b] => some b
  | _ => none

/-- The value of the option for the length of a line. -/
def maxlen? (es : Entries) : Option (Option Nat) :=
  match es.valuesOf "maxlen".toList with
  | [] => some none
  | [.scalar (.integer n)] => if 0 ≤ n then some (some n.toNat) else none
  | _ => none

/-- The options of a document, of which no section may bear the name of one. -/
def ofDocument? (d : Document) : Option Options := do
  if d.sections.any fun s => s.header.head?.any keys.contains then none
  let es := d.entries
  return { json := ← flag? es "json", multistr := ← flag? es "multistr", maxlen := ← maxlen? es,
           trailing := ← flag? es "trailing", smarttabs := ← flag? es "smarttabs",
           scripturl := ← flag? es "scripturl", proto := ← flag? es "proto",
           iterator := ← flag? es "iterator" }

/-- Reads options from a TOML text. -/
def ofToml (t : Text) : Except ConfigError Options :=
  match Document.ofText? t >>= ofDocument? with
  | none => .error .toml
  | some o => if o.maxlen = some 0 then .error .zeroMaxlen else .ok o

end Options

end EcmaLex
