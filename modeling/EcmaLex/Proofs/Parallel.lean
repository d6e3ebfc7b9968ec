import EcmaLex.Proofs.Agreement
import EcmaLex.Proofs.Cuts

/-!
# Parallel runs

Two lexers that stand before the same text at the same position, in the same context, read the same
tokens, whatever their options are and wherever the text starts in the source. Of their diagnostics
they find the same ones, as far as readers that agree do.
-/

namespace EcmaLex

namespace Cursor

def shifted (d : Nat) (k : Cursor) : Cursor := { k with offset := k.offset + d }

theorem advance_shifted (d : Nat) (k : Cursor) : (k.shifted d).advance = k.advance.shifted d := by
  cases h : k.rest with
  | nil => rw [advance_nil h, advance_nil (k := k.shifted d) h]
  | cons c t =>
    have hadvance : k.advance =
        { rest := t, offset := k.offset + c.utf8Size, position := k.position.step c t.head? } := by
      unfold advance
      rw [h]
    have hshifted : (k.shifted d).advance =
        { rest := t, offset := k.offset + d + c.utf8Size,
          position := k.position.step c t.head? } := by
      have h' : (k.shifted d).rest = c :: t := h
      unfold advance
      rw [h']
      rfl
    rw [hadvance, hshifted, shifted, Nat.add_right_comm]

theorem advanceBy_shifted (d : Nat) (k : Cursor) (n : Nat) :
    (k.shifted d).advanceBy n = (k.advanceBy n).shifted d := by
  induction n generalizing k with
  | zero => rfl
  | succ n ih => rw [advanceBy, advance_shifted, ih, advanceBy]

end Cursor

theorem Reader.shifted {r' r : Reader} {d : Nat} (h : r'.cursor = r.cursor.shifted d) :
    r'.rest = r.rest ∧ r'.position = r.position ∧ r'.offset = r.offset + d := by
  have hrest := congrArg Cursor.rest h
  have hposition := congrArg Cursor.position h
  have hoffset := congrArg Cursor.offset h
  exact ⟨hrest, hposition, hoffset⟩

def Token.shifted (d : Nat) (k : Token) : Token :=
  { k with range := (k.range.1 + d, k.range.2 + d) }

@[simp] theorem Token.shifted_zero (k : Token) : k.shifted 0 = k := rfl

structure Settling [Primitives] (kept : Diagnostic → Bool) (o' o : Options) : Prop where
  gap : ∀ t, (gap t).Settled kept o' o
  scan : ∀ context t, (Lexeme.scan context t).trace.Settled kept o' o

theorem settling_self [Primitives] (kept : Diagnostic → Bool) (o : Options) :
    Settling kept o o where
  gap := fun _ _ m _ => m.settled_self kept o
  scan := fun _ _ _ m _ => m.settled_self kept o

theorem Lexer.options_after_reading [Primitives] (l : Lexer) :
    l.reading.after.options = l.reader.options := by
  rw [after_reading_eq, before_reading]
  split
  · exact (Reader.options_follow _ _).trans (Reader.options_follow _ _)
  · rw [Reader.options_follow, Reader.options_follow]

/-- A lexer under the options `o'` goes along with one under the options `o` over the same text,
with `d` more bytes before it. -/
structure Parallel (kept : Diagnostic → Bool) (d : Nat) (o' o : Options) (l' l : Lexer) : Prop where
  finished : l'.finished = l.finished
  withComments : l'.withComments = l.withComments
  context : l'.context = l.context
  cursor : l'.reader.cursor = l.reader.cursor.shifted d
  options : l'.reader.options = o' ∧ l.reader.options = o
  agrees : l'.reader.Agrees kept l.reader

namespace Parallel

variable {kept : Diagnostic → Bool} {d : Nat} {o' o : Options} {l l' : Lexer}

theorem follow {r' r : Reader} {t : Trace} (hc : r'.cursor = r.cursor.shifted d)
    (ha : r'.Agrees kept r) (hs : t.Settled kept r'.options r.options) :
    (r'.follow t).cursor = (r.follow t).cursor.shifted d ∧
      (r'.follow t).Agrees kept (r.follow t) := by
  constructor
  · rw [Reader.cursor_follow, Reader.cursor_follow, hc, Cursor.advanceBy_shifted]
  · apply ha.follow hs
    intro n _
    rw [hc, Cursor.advanceBy_shifted]
    rfl

/-- What parallel lexers read next is the same, and the readers agree on both sides of it. -/
theorem reading [Primitives] (h : Parallel kept d o' o l' l) (hs : Settling kept o' o) :
    l'.reading.lexeme = l.reading.lexeme ∧
      l'.reading.before.cursor = l.reading.before.cursor.shifted d ∧
      l'.reading.after.cursor = l.reading.after.cursor.shifted d ∧
      l'.reading.after.Agrees kept l.reading.after := by
  obtain ⟨rfl, rfl⟩ := h.options
  have hrest : l'.reader.rest = l.reader.rest := (Reader.shifted h.cursor).1
  have hbefore : l'.reading.before = l'.reader.follow (gap l.reader.rest) := by
    rw [← hrest, Lexer.reading]
  obtain ⟨hcursor, hagrees⟩ := follow h.cursor h.agrees (hs.gap l.reader.rest)
  rw [← hbefore] at hcursor hagrees
  have hlexeme : l'.reading.lexeme = l.reading.lexeme := by
    rw [Lexer.lexeme_reading, Lexer.lexeme_reading, (Reader.shifted hcursor).1, h.context,
      Lexer.before_reading]
  refine ⟨hlexeme, hcursor, ?_⟩
  have hsettled : l.reading.lexeme.trace.Settled kept l'.reading.before.options
      l.reading.before.options := by
    rw [hbefore, Lexer.before_reading, Reader.options_follow, Reader.options_follow]
    exact hs.scan _ _
  obtain ⟨hcursor', hagrees'⟩ := follow hcursor hagrees hsettled
  rw [Lexer.after_reading_eq, Lexer.after_reading_eq, hlexeme]
  split
  · rw [(Reader.shifted hcursor').2.1]
    exact ⟨hcursor', hagrees'.checkLine _⟩
  · exact ⟨hcursor', hagrees'⟩

theorem token [Primitives] (h : Parallel kept d o' o l' l) (hs : Settling kept o' o) :
    l'.reading.token = l.reading.token.shifted d := by
  obtain ⟨hlexeme, hbefore, hafter, hagrees⟩ := h.reading hs
  obtain ⟨-, hstart, hfirst⟩ := Reader.shifted hbefore
  obtain ⟨-, hstop, hlast⟩ := Reader.shifted hafter
  simp only [Lexer.Reading.token, Token.shifted, hlexeme, hstart, hstop, hfirst, hlast,
    hagrees.leftLine]

theorem behind [Primitives] (h : Parallel kept d o' o l' l) (hs : Settling kept o' o) :
    Parallel kept d o' o (l'.behind l'.reading) (l.behind l.reading) := by
  obtain ⟨hlexeme, -, hcursor, hagrees⟩ := h.reading hs
  have hagrees' : ({ l'.reading.after with leftLine := false } : Reader).Agrees kept
      { l.reading.after with leftLine := false } := ⟨rfl, hagrees.diagnostics, hagrees.lines⟩
  have hoptions : l'.reading.after.options = o' ∧ l.reading.after.options = o :=
    h.options.imp (l'.options_after_reading.trans ·) (l.options_after_reading.trans ·)
  rw [Lexer.behind, Lexer.behind, hlexeme]
  split
  · exact ⟨h.finished, h.withComments, h.context, hcursor, hoptions, hagrees⟩
  · exact ⟨rfl, h.withComments, h.context, hcursor, hoptions, hagrees⟩
  · exact ⟨h.finished, h.withComments, by rw [h.context], hcursor, hoptions, hagrees'⟩

theorem lockstep [Primitives] (hs : Settling kept o' o) :
    Lexer.Lockstep (Parallel kept d o' o) id (Token.shifted d) where
  finished := fun h => h.finished
  withComments := fun h => h.withComments
  token := fun h _ => h.token hs
  isComment := fun h _ => by rw [h.token hs]; rfl
  behind := fun h _ => h.behind hs

theorem tokens [Primitives] (h : Parallel kept d o' o l' l) (hs : Settling kept o' o) :
    l'.tokens.1 = l.tokens.1.map (Token.shifted d) ∧
      l'.tokens.2.diagnostics.toList.filter kept = l.tokens.2.diagnostics.toList.filter kept := by
  obtain ⟨htokens, hlast⟩ := (lockstep hs).tokens h
  rw [List.map_id] at htokens
  exact ⟨htokens, hlast.agrees.diagnostics⟩

end Parallel

end EcmaLex
