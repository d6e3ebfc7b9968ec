import EcmaLex.Reader

/-!
# Cursors

Following a trace moves the cursor by as many characters as the trace reads, and leaves a line if
and only if the cursor ends on another one.
-/

namespace EcmaLex

namespace Cursor

theorem advance_cons {k : Cursor} {c : Char} {t : Text} (h : k.rest = c :: t) :
    k.advance.rest = t ∧ k.advance.offset = k.offset + c.utf8Size ∧
      k.advance.position = k.position.step c t.head? := by
  unfold advance
  rw [h]
  exact ⟨rfl, rfl, rfl⟩

theorem advance_nil {k : Cursor} (h : k.rest = []) : k.advance = k := by
  unfold advance
  rw [h]

theorem position_advance_of_endsLine {k : Cursor} {c : Char} {t : Text} (h : k.rest = c :: t)
    (hc : Position.endsLine c t.head?) :
    k.advance.position = { line := k.position.line + 1, column := 1 } := by
  rw [(advance_cons h).2.2, Position.step, if_pos hc]

theorem position_advance_of_not_endsLine {k : Cursor} {c : Char} {t : Text} (h : k.rest = c :: t)
    (hc : Position.endsLine c t.head? = false) :
    k.advance.position = { k.position with column := k.position.column + 1 } := by
  rw [(advance_cons h).2.2, Position.step, if_neg (by simp [hc])]

theorem advanceBy_append {k : Cursor} {p t : Text} (h : k.rest = p ++ t) :
    (k.advanceBy p.length).rest = t ∧ (k.advanceBy p.length).offset = k.offset + p.utf8Size := by
  induction p generalizing k with
  | nil => exact ⟨h, rfl⟩
  | cons c p ih =>
    obtain ⟨hr, ho, -⟩ := advance_cons h
    obtain ⟨hr', ho'⟩ := ih hr
    refine ⟨hr', ho'.trans ?_⟩
    rw [ho, Text.utf8Size_cons]
    omega

theorem line_le_advance (k : Cursor) : k.position.line ≤ k.advance.position.line := by
  cases h : k.rest with
  | nil => exact Nat.le_of_eq (by rw [advance_nil h])
  | cons c t =>
    obtain ⟨-, -, hp⟩ := advance_cons h
    rw [hp, Position.step]
    split
    · simp
    · simp

theorem line_le_advanceBy (k : Cursor) (n : Nat) :
    k.position.line ≤ (k.advanceBy n).position.line := by
  induction n generalizing k with
  | zero => exact Nat.le_refl _
  | succ n ih => exact Nat.le_trans (line_le_advance k) (ih k.advance)

theorem advanceBy_add (k : Cursor) (m n : Nat) :
    k.advanceBy (m + n) = (k.advanceBy m).advanceBy n := by
  induction m generalizing k with
  | zero => rw [Nat.zero_add, advanceBy]
  | succ m ih => rw [Nat.add_right_comm, advanceBy, ih, advanceBy]

theorem leftLine_trans {b : Bool} {m n p : Nat} (hmn : m ≤ n) (hnp : n ≤ p) :
    (b || decide (n ≠ m) || decide (p ≠ n)) = (b || decide (p ≠ m)) := by
  rw [Bool.or_assoc, ← Bool.decide_or]
  congr 2
  apply propext
  constructor
  · omega
  · omega

end Cursor

def Source.advanceBy (s : Source) (n : Nat) : Source := { s with cursor := s.cursor.advanceBy n }

namespace Reader

theorem source_inspect (r : Reader) (c : Char) : (r.inspect c).source = r.source := by
  unfold inspect
  split <;> rfl

theorem source_leave (r : Reader) (n : Nat) : (r.leave n).source = r.source := by
  unfold leave
  split <;> rfl

theorem source_read (r : Reader) (c : Char) : (r.read c).source = r.source.advanceBy 1 := by
  rw [read, source_leave, advance, source_inspect]
  rfl

theorem source_followFrom (r : Reader) (p : Position) (ps : List Position) (t : Trace) :
    (r.followFrom p ps t).source = r.source.advanceBy t.text.length := by
  induction t generalizing r ps with
  | nil => rfl
  | cons e t ih =>
    cases e with
    | read c =>
      rw [followFrom, ih, source_read]
      rfl
    | note place remark =>
      rw [followFrom, ih]
      split <;> rfl

theorem source_follow (r : Reader) (t : Trace) :
    (r.follow t).source = r.source.advanceBy t.text.length := source_followFrom r _ [] t

def cursor (r : Reader) : Cursor := r.source.cursor

@[simp] theorem cursor_inspect (r : Reader) (c : Char) : (r.inspect c).cursor = r.cursor :=
  congrArg Source.cursor (source_inspect r c)

@[simp] theorem cursor_leave (r : Reader) (n : Nat) : (r.leave n).cursor = r.cursor :=
  congrArg Source.cursor (source_leave r n)

@[simp] theorem cursor_read (r : Reader) (c : Char) : (r.read c).cursor = r.cursor.advance :=
  congrArg Source.cursor (source_read r c)

theorem cursor_followFrom (r : Reader) (p : Position) (ps : List Position) (t : Trace) :
    (r.followFrom p ps t).cursor = r.cursor.advanceBy t.text.length :=
  congrArg Source.cursor (source_followFrom r p ps t)

theorem cursor_follow (r : Reader) (t : Trace) :
    (r.follow t).cursor = r.cursor.advanceBy t.text.length := cursor_followFrom r _ [] t

@[simp] theorem leftLine_inspect (r : Reader) (c : Char) :
    (r.inspect c).leftLine = r.leftLine := by
  unfold inspect
  split <;> rfl

theorem leftLine_leave (r : Reader) (n : Nat) :
    (r.leave n).leftLine = (r.leftLine || decide (r.cursor.position.line ≠ n)) := by
  unfold leave
  split
  · rename_i h
    have h' : r.cursor.position.line = n := h
    simp [h']
  · rename_i h
    have h' : r.cursor.position.line ≠ n := h
    simp [h', checkLine]

theorem leftLine_read (r : Reader) (c : Char) : (r.read c).leftLine =
    (r.leftLine || decide (r.cursor.advance.position.line ≠ r.cursor.position.line)) := by
  have hl : ((r.inspect c).advance).leftLine = (r.inspect c).leftLine := rfl
  have hc : ((r.inspect c).advance).cursor = (r.inspect c).cursor.advance := rfl
  rw [read, leftLine_leave, hl, hc, leftLine_inspect, cursor_inspect]
  rfl

theorem leftLine_followFrom (r : Reader) (p : Position) (ps : List Position) (t : Trace) :
    (r.followFrom p ps t).leftLine = (r.leftLine ||
      decide ((r.cursor.advanceBy t.text.length).position.line ≠ r.cursor.position.line)) := by
  induction t generalizing r ps with
  | nil => simp [followFrom, Cursor.advanceBy]
  | cons e t ih =>
    cases e with
    | read c =>
      have h₁ := r.cursor.line_le_advance
      have h₂ := r.cursor.advance.line_le_advanceBy (Trace.text t).length
      rw [followFrom, ih, leftLine_read, cursor_read]
      exact Cursor.leftLine_trans h₁ h₂
    | note place remark =>
      rw [followFrom, ih]
      split <;> rfl

theorem leftLine_follow (r : Reader) (t : Trace) : (r.follow t).leftLine = (r.leftLine ||
    decide ((r.follow t).cursor.position.line ≠ r.cursor.position.line)) := by
  rw [cursor_follow]
  exact leftLine_followFrom r _ [] t

end Reader

end EcmaLex
