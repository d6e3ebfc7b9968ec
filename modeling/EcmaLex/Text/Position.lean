import EcmaLex.Text.Basic

/-!
# Positions

A position is a line and a column, both counted from one. A column counts characters. Positions
are ordered by line first and by column second.
-/

namespace EcmaLex

structure Position where
  line : Nat := 1
  column : Nat := 1
deriving DecidableEq, Repr

namespace Position

instance : Inhabited Position := ⟨{}⟩

instance : LE Position :=
  ⟨fun p q => p.line < q.line ∨ p.line = q.line ∧ p.column ≤ q.column⟩

instance : LT Position :=
  ⟨fun p q => p.line < q.line ∨ p.line = q.line ∧ p.column < q.column⟩

theorem le_def (p q : Position) :
    p ≤ q ↔ p.line < q.line ∨ p.line = q.line ∧ p.column ≤ q.column := Iff.rfl

theorem lt_def (p q : Position) :
    p < q ↔ p.line < q.line ∨ p.line = q.line ∧ p.column < q.column := Iff.rfl

instance (p q : Position) : Decidable (p ≤ q) := decidable_of_iff _ (le_def p q).symm

instance (p q : Position) : Decidable (p < q) := decidable_of_iff _ (lt_def p q).symm

instance : Std.IsLinearOrder Position where
  le_refl p := .inr ⟨rfl, Nat.le_refl p.column⟩
  le_trans p q r := by
    simp only [le_def]
    omega
  le_antisymm := by
    rintro ⟨m, i⟩ ⟨n, j⟩
    simp only [le_def, mk.injEq]
    omega
  le_total p q := by
    simp only [le_def]
    omega

instance : Std.LawfulOrderLT Position where
  lt_iff p q := by
    simp only [le_def, lt_def]
    omega

def render (p : Position) : String := s!"{p.line}:{p.column}"

/-- A carriage return ends its line unless a line feed follows, which then ends it. -/
def endsLine (c : Char) (following : Option Char) : Bool :=
  c = '\n' || c = '\r' && following ≠ some '\n'

/-- The position after a character. -/
def step (p : Position) (c : Char) (following : Option Char) : Position :=
  if endsLine c following then { line := p.line + 1, column := 1 }
  else { p with column := p.column + 1 }

theorem lt_step (p : Position) (c : Char) (following : Option Char) : p < p.step c following := by
  rw [lt_def, step]
  split
  · exact .inl (Nat.lt_succ_self p.line)
  · exact .inr ⟨rfl, Nat.lt_succ_self p.column⟩

end Position

end EcmaLex
