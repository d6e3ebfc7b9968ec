import EcmaLex.Issue
import EcmaLex.Text.Position

/-!
# Diagnostics

A diagnostic is a message at a position. A pass over a text collects its diagnostics in the order
in which it finds them. They are handed out in the order of their positions, and those that share
a position stay in the order in which they were found.
-/

namespace EcmaLex

structure Diagnostic where
  position : Position := {}
  severity : Severity
  code : String
  message : String
deriving DecidableEq, Repr

def Diagnostic.render (d : Diagnostic) : String :=
  d.position.render ++ ": " ++ d.severity.label ++ "[" ++ d.code ++ "]: " ++ d.message

/-- The diagnostic that reports an issue at a position. -/
def Issue.diagnostic (i : Issue) (p : Position) : Diagnostic :=
  { position := p, severity := i.severity, code := i.code, message := i.message }

/-- The diagnostics found so far, the latest last. -/
structure Diagnostics where
  items : Array Diagnostic := #[]
deriving DecidableEq, Repr

namespace Diagnostics

def push (ds : Diagnostics) (d : Diagnostic) : Diagnostics := ⟨ds.items.push d⟩

def extend (ds : Diagnostics) (more : List Diagnostic) : Diagnostics := ⟨ds.items ++ more⟩

def toList (ds : Diagnostics) : List Diagnostic := ds.items.toList

def size (ds : Diagnostics) : Nat := ds.items.size

def isEmpty (ds : Diagnostics) : Bool := ds.items.isEmpty

def hasErrors (ds : Diagnostics) : Bool := ds.items.any fun d => d.severity = .error

def sorted (ds : Diagnostics) : List Diagnostic :=
  ds.toList.mergeSort fun d e => d.position ≤ e.position

@[simp] theorem toList_empty : ({} : Diagnostics).toList = [] := rfl

@[simp] theorem toList_push (ds : Diagnostics) (d : Diagnostic) :
    (ds.push d).toList = ds.toList ++ [d] := by simp [toList, push]

@[simp] theorem toList_extend (ds : Diagnostics) (more : List Diagnostic) :
    (ds.extend more).toList = ds.toList ++ more := by simp [toList, extend]

end Diagnostics

end EcmaLex
