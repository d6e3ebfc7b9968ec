import EcmaLex.Issue
import EcmaLex.Options

/-!
# Traces

Reading a piece of text leaves a trace: the characters that are read, and between them the remarks
that are made on the way, in order. A remark names its place relative to the characters read, and
the options under which it counts. So a trace depends on the text alone.
-/

namespace EcmaLex

/-- The options under which a remark counts. -/
inductive Rule where
  | always
  | json
  | script
  | singleLine
  | jsonMultiline
  | scripturl
  | proto
  | iterator
deriving DecidableEq, Repr

def Rule.holds (o : Options) : Rule → Bool
  | always => true
  | json => o.json
  | script => !o.json
  | singleLine => !o.multistr
  | jsonMultiline => o.multistr && o.json
  | scripturl => !o.scripturl
  | proto => !o.proto
  | iterator => !o.iterator

structure Remark where
  issue : Issue
  rule : Rule := .always
deriving DecidableEq, Repr

inductive Place where
  /-- Where the trace starts. -/
  | start
  /-- Before the last `n` characters read. -/
  | back (n : Nat)
deriving DecidableEq, Repr

inductive Event where
  | read (c : Char)
  | note (place : Place) (remark : Remark)
deriving DecidableEq, Repr

abbrev Trace := List Event

namespace Trace

/-- The characters that are read. -/
def text : Trace → Text
  | [] => []
  | .read c :: t => c :: text t
  | .note _ _ :: t => text t

def reads (t : Text) : Trace := t.map .read

def noteAt (place : Place) (issue : Issue) (rule : Rule := .always) : Trace :=
  [.note place { issue, rule }]

/-- A remark at the cursor. -/
def noteHere (issue : Issue) : Trace := noteAt (.back 0) issue

/-- A remark at the start of the trace. -/
def noteStart (issue : Issue) (rule : Rule := .always) : Trace := noteAt .start issue rule

/-- A trace that is left only under a condition, and computed only then. -/
@[macro_inline] def onlyIf (b : Bool) (t : Trace) : Trace := if b then t else []

@[simp] theorem text_nil : text [] = [] := rfl

@[simp] theorem text_read (c : Char) (t : Trace) : text (.read c :: t) = c :: text t := rfl

@[simp] theorem text_note (p : Place) (r : Remark) (t : Trace) :
    text (.note p r :: t) = text t := rfl

@[simp] theorem text_append (s t : Trace) : text (s ++ t) = text s ++ text t := by
  induction s with
  | nil => rfl
  | cons e s ih => cases e <;> simp [ih]

@[simp] theorem text_flatMap {α : Type} (f : α → Trace) (as : List α) :
    text (as.flatMap f) = as.flatMap fun a => text (f a) := by
  induction as with
  | nil => rfl
  | cons a as ih => simp [ih]

@[simp] theorem text_reads (t : Text) : text (reads t) = t := by
  induction t with
  | nil => rfl
  | cons c t ih => simpa [reads] using ih

@[simp] theorem text_noteAt (p : Place) (i : Issue) (r : Rule) : text (noteAt p i r) = [] := rfl

@[simp] theorem text_noteHere (i : Issue) : text (noteHere i) = [] := rfl

@[simp] theorem text_noteStart (i : Issue) (r : Rule) : text (noteStart i r) = [] := rfl

@[simp] theorem text_onlyIf (b : Bool) (t : Trace) :
    text (onlyIf b t) = if b then text t else [] := by cases b <;> rfl

end Trace

end EcmaLex
