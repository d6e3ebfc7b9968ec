import EcmaLex.Diagnostic
import EcmaLex.LineCheck
import EcmaLex.Text.Source
import EcmaLex.Trace

/-!
# Readers

A reader follows traces over a source. It reports each unsafe character when it is read, checks
each line when it is left, and gives each remark that counts its position. The diagnostics stay in
the order in which this happens.
-/

namespace EcmaLex

structure Reader where
  source : Source
  options : Options
  diagnostics : Diagnostics := {}
  /-- A line was left since the flag was last cleared. -/
  leftLine : Bool := false
deriving DecidableEq, Repr

namespace Reader

def rest (r : Reader) : Text := r.source.cursor.rest

def position (r : Reader) : Position := r.source.cursor.position

def offset (r : Reader) : Nat := r.source.cursor.offset

def report (r : Reader) (i : Issue) (p : Position) : Reader :=
  { r with diagnostics := r.diagnostics.push (i.diagnostic p) }

/-- The diagnostics of a whole line. -/
def lineDiagnostics (r : Reader) (n : Nat) : List Diagnostic :=
  match r.source.line? n with
  | none => []
  | some line =>
    (LineCheck.issues r.options line).map fun (column, i) => i.diagnostic { line := n, column }

def checkLine (r : Reader) (n : Nat) : Reader :=
  { r with diagnostics := r.diagnostics.extend (r.lineDiagnostics n) }

/-- Moves the cursor behind the next character. -/
def advance (r : Reader) : Reader :=
  { r with source := { r.source with cursor := r.source.cursor.advance } }

/-- Reports the next character, which is `c`, if it is unsafe. -/
def inspect (r : Reader) (c : Char) : Reader :=
  if isUnsafeChar c then r.report .unsafeCharacter r.position else r

/-- Checks line `n`, if the cursor is behind it. -/
def leave (r : Reader) (n : Nat) : Reader :=
  if r.position.line = n then r else { r with leftLine := true }.checkLine n

/-- Reads the next character, which is `c`. -/
def read (r : Reader) (c : Char) : Reader := ((r.inspect c).advance).leave r.position.line

/-- The position of a place, given the positions of the characters read so far, the latest
first. -/
def locate (r : Reader) (start : Position) (visited : List Position) : Place → Position
  | .start => start
  | .back 0 => r.position
  | .back (n + 1) => visited.getD n start

/-- Follows a trace from the place where it started. -/
def followFrom (r : Reader) (start : Position) (visited : List Position) : Trace → Reader
  | [] => r
  | .read c :: t => (r.read c).followFrom start (r.position :: visited) t
  | .note place remark :: t =>
    let r' := if remark.rule.holds r.options then
        r.report remark.issue (r.locate start visited place)
      else r
    r'.followFrom start visited t

/-- Follows a trace that starts at the cursor. -/
def follow (r : Reader) (t : Trace) : Reader := r.followFrom r.position [] t

@[simp] theorem rest_checkLine (r : Reader) (n : Nat) : (r.checkLine n).rest = r.rest := rfl

@[simp] theorem rest_inspect (r : Reader) (c : Char) : (r.inspect c).rest = r.rest := by
  unfold inspect
  split <;> rfl

@[simp] theorem rest_leave (r : Reader) (n : Nat) : (r.leave n).rest = r.rest := by
  unfold leave
  split <;> rfl

@[simp] theorem rest_advance (r : Reader) : r.advance.rest = r.rest.tail :=
  Cursor.rest_advance r.source.cursor

@[simp] theorem rest_read (r : Reader) (c : Char) : (r.read c).rest = r.rest.tail := by
  simp [read]

theorem rest_followFrom (r : Reader) (p : Position) (ps : List Position) (t : Trace) :
    (r.followFrom p ps t).rest = r.rest.drop t.text.length := by
  induction t generalizing r ps with
  | nil => simp [followFrom]
  | cons e t ih =>
    cases e with
    | read c => simp [followFrom, ih]
    | note place remark =>
      rw [followFrom, ih]
      split <;> simp [rest, report]

@[simp] theorem rest_follow (r : Reader) (t : Trace) :
    (r.follow t).rest = r.rest.drop t.text.length := rest_followFrom r r.position [] t

end Reader

end EcmaLex
