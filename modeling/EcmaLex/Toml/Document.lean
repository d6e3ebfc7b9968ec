import EcmaLex.Toml.Table

/-!
# Documents of TOML

A document is a list of lines: entries and headers. The entries before the first header belong to
the document itself. Each reading function says how many tokens it takes.
-/

namespace EcmaLex.Toml

/-- How many blanks stand at the start of some tokens. -/
def blanks (ts : List Token) : Nat := (ts.takeWhile Token.isBlank).length

/-- How many blanks, newlines and comments stand at the start of some tokens. -/
def fillers (ts : List Token) : Nat := (ts.takeWhile Token.isFiller).length

theorem length_lt_of_drop_eq_cons {t : Token} {ts rest : List Token} {n : Nat}
    (h : ts.drop n = t :: rest) : rest.length < ts.length := by
  have := congrArg List.length h
  simp at this
  omega

/-- A dotted key and the blanks behind it. -/
def key? : List Token → Option (List Text × Nat)
  | [] => none
  | token :: ts => do
    let key ← token.key?
    let a := blanks ts
    match h : ts.drop a with
    | .period :: rest =>
      have := length_lt_of_drop_eq_cons h
      let b := blanks rest
      let (path, n) ← key? (rest.drop b)
      return (key :: path, 2 + a + b + n)
    | _ => return ([key], 1 + a)
termination_by ts => ts.length

/-- A value that starts with a bare word, and how many tokens behind it belong to it. -/
def bareValue? (t : Text) (ts : List Token) : Option (Value × Nat) :=
  if t = "true".toList then some (.boolean true, 0)
  else if t = "false".toList then some (.boolean false, 0)
  else if t = "inf".toList || t = "nan".toList || t.head?.any (fun c => c = '-' || c.isDigit) then
    (Scalar.ofBare? t ts).map fun (s, n) => (.scalar s, n)
  else none

mutual

def value? : List Token → Option (Value × Nat)
  | .string t _ :: _ => some (.string t, 1)
  | .bare t :: ts => (bareValue? t ts).map fun (v, n) => (v, n + 1)
  | .plus :: .bare t :: ts => (Scalar.number? t ts).map fun (s, n) => (.scalar s, n + 2)
  | .leftBracket :: ts => (items? ts).map fun (vs, n) => (.array vs, n + 1)
  | .leftBrace :: ts =>
    let a := blanks ts
    if (ts.drop a).head? = some .rightBrace then some (.inline [], a + 2)
    else (entries? [] (ts.drop a)).map fun (es, n) => (.inline es, 1 + a + n)
  | _ => none
termination_by ts => 2 * ts.length

/-- The items of an array and its closing bracket. -/
def items? (ts : List Token) : Option (List Value × Nat) :=
  let a := fillers ts
  if (ts.drop a).head? = some .rightBracket then some ([], a + 1)
  else do
    let (v, n) ← value? (ts.drop a)
    let b := fillers (ts.drop (a + n))
    match h : ts.drop (a + n + b) with
    | .rightBracket :: _ => return ([v], a + n + b + 1)
    | .comma :: rest =>
      have := length_lt_of_drop_eq_cons h
      let (vs, m) ← items? rest
      return (v :: vs, a + n + b + 1 + m)
    | _ => none
termination_by 2 * ts.length + 1

/-- The entries of a table in braces behind some others, and its closing brace. -/
def entries? (es : Entries) (ts : List Token) : Option (Entries × Nat) := do
  let (path, n) ← key? ts
  match h : ts.drop n with
  | .equals :: rest =>
    have := length_lt_of_drop_eq_cons h
    let a := blanks rest
    let (v, m) ← value? (rest.drop a)
    let es ← es.insert? v path
    let b := blanks (rest.drop (a + m))
    match h : rest.drop (a + m + b) with
    | .rightBrace :: _ => return (es, n + 1 + a + m + b + 1)
    | .comma :: rest =>
      have := length_lt_of_drop_eq_cons h
      let d := blanks rest
      let (es, k) ← entries? es (rest.drop d)
      return (es, n + 1 + a + m + b + 1 + d + k)
    | _ => none
  | _ => none
termination_by 2 * ts.length + 1

end

/-- How many tokens the end of a line takes. -/
def lineEnd? (ts : List Token) : Option Nat :=
  let a := blanks ts
  let b := if (ts.drop a).head? = some .comment then a + 1 else a
  match ts.drop b with
  | [] => some b
  | .newline :: _ => some (b + 1)
  | _ => none

/-- An entry that fills a line. -/
def entryLine? (ts : List Token) : Option ((List Text × Value) × Nat) := do
  let (path, n) ← key? ts
  if (ts.drop n).head? = some .equals then
    let a := blanks (ts.drop (n + 1))
    let (v, m) ← value? (ts.drop (n + 1 + a))
    let b ← lineEnd? (ts.drop (n + 1 + a + m))
    return ((path, v), n + 1 + a + m + b)
  else none

/-- A header that fills a line, behind its first bracket. -/
def headerLine? (ts : List Token) : Option (Section × Nat) := do
  let array := ts.head? = some .leftBracket
  let brackets := if array then 1 else 0
  let a := brackets + blanks (ts.drop brackets)
  let (header, n) ← key? (ts.drop a)
  let closing := List.replicate (brackets + 1) Token.rightBracket
  if closing.isPrefixOf (ts.drop (a + n)) then
    let b := a + n + brackets + 1
    let c ← lineEnd? (ts.drop b)
    return ({ header, array, entries := [] }, b + c)
  else none

/-- The sections of a document of which one is open. -/
def sections? (current : Section) : List Token → Option (List Section)
  | [] => some [current]
  | token :: ts =>
    if token.isFiller then sections? current ts
    else if token = .leftBracket then do
      let (next, n) ← headerLine? ts
      let sections ← sections? next (ts.drop n)
      return current :: sections
    else do
      let ((path, v), n) ← entryLine? (token :: ts)
      let entries ← current.entries.insert? v path
      sections? { current with entries } (ts.drop (n - 1))
termination_by ts => ts.length

structure Document where
  entries : Entries
  sections : List Section
deriving Repr

/-- Reads a document. Its headers have to agree with each other. -/
def Document.ofText? (t : Text) : Option Document := do
  let tokens ← Token.ofText? t
  match ← sections? { header := [], array := false, entries := [] } tokens with
  | [] => none
  | root :: sections =>
    let _ ← OpenTable.sections? [] sections
    return { entries := root.entries, sections }

end EcmaLex.Toml
