import EcmaLex.Lexeme.Scan
import EcmaLex.Reader

/-!
# Lexers

A lexer yields the tokens of a source one by one and ends with one token that marks the end of the
text. Comments are passed over unless they are asked for. The diagnostics that are found on the way
are collected, and no defect stops the lexer.
-/

namespace EcmaLex

structure Lexer where
  reader : Reader
  context : Context := {}
  withComments : Bool := false
  /-- The token at the end of the text has been yielded. -/
  finished : Bool := false
deriving DecidableEq, Repr

namespace Lexer

def ofText (t : Text) (o : Options) : Lexer :=
  { reader := { source := .ofText t, options := o } }

def options (l : Lexer) : Options := l.reader.options

def shebang (l : Lexer) : Option Text := l.reader.source.shebang

def diagnostics (l : Lexer) : Diagnostics := l.reader.diagnostics

/-- A lexeme, and the reader on both sides of it. -/
structure Reading where
  before : Reader
  lexeme : Lexeme
  after : Reader
deriving DecidableEq, Repr

def Reading.token (s : Reading) : Token :=
  { raw := s.lexeme.raw
    value := s.lexeme.value
    start := s.before.position
    stop := s.after.position
    range := (s.before.offset, s.after.offset)
    newline := s.after.leftLine
    malformed := s.lexeme.malformed
    unclosed := s.lexeme.unclosed }

/-- Reads past the gap and the lexeme behind it. The last line is left at the end of the text. -/
def reading [Primitives] (l : Lexer) : Reading :=
  let before := l.reader.follow (gap l.reader.rest)
  let lexeme := Lexeme.scan l.context before.rest
  let after := before.follow lexeme.trace
  { before, lexeme,
    after := if lexeme.kind = .eof then after.checkLine after.position.line else after }

/-- The lexer behind a lexeme. -/
def behind (l : Lexer) (s : Reading) : Lexer :=
  match s.lexeme.kind with
  | .comment => { l with reader := s.after }
  | .eof => { l with reader := s.after, finished := true }
  | kind =>
    { l with
      reader := { s.after with leftLine := false }
      context := l.context.update kind s.lexeme.raw }

/-- How much is left to yield at most. -/
def size (l : Lexer) : Nat := if l.finished then 0 else l.reader.rest.length + 1

theorem rest_after_lt [Primitives] (l : Lexer) (he : l.reading.lexeme.kind ≠ .eof) :
    l.reading.after.rest.length < l.reader.rest.length := by
  have hb : l.reading.before.rest.length ≤ l.reader.rest.length := by simp [reading]
  have ha : l.reading.after.rest.length < l.reading.before.rest.length := by
    have hl : l.reading.lexeme = Lexeme.scan l.context l.reading.before.rest := rfl
    have hf : l.reading.after = l.reading.before.follow l.reading.lexeme.trace := if_neg he
    rw [hf, Reader.rest_follow]
    cases hr : l.reading.before.rest with
    | nil => simp [hl, hr, Lexeme.scan, Lexeme.eof, Lexeme.kind, TokenValue.kind] at he
    | cons c t =>
      have hn : l.reading.lexeme.raw ≠ [] := by
        simpa [hl, hr, Lexeme.scan] using Lexeme.raw_scanCons_ne_nil l.context c t
      have := List.length_pos_iff.mpr hn
      simp only [Lexeme.raw] at this
      simp only [List.length_drop, List.length_cons]
      omega
  omega

theorem size_behind_lt [Primitives] (l : Lexer) (h : l.finished = false) :
    (l.behind l.reading).size < l.size := by
  by_cases he : l.reading.lexeme.kind = .eof
  · simp [size, behind, he, h]
  · have hr : (l.behind l.reading).finished = false ∧
        (l.behind l.reading).reader.rest = l.reading.after.rest := by
      unfold behind
      split <;> simp_all [Reader.rest]
    have := rest_after_lt l he
    simp [size, h, hr]
    omega

/-- The next token that is to be yielded, and the lexer behind it. -/
def next [Primitives] (l : Lexer) : Option (Token × Lexer) :=
  if l.finished then none
  else
    let s := l.reading
    if s.token.isComment && !l.withComments then (l.behind s).next
    else some (s.token, l.behind s)
termination_by l.size
decreasing_by exact size_behind_lt l (by simpa using ‹¬ l.finished = true›)

theorem size_lt_of_next [Primitives] {l l' : Lexer} {t : Token} (h : l.next = some (t, l')) :
    l'.size < l.size := by
  fun_induction next l with
  | case1 => simp at h
  | case2 l hf _ _ ih => exact Nat.lt_trans (ih h) (size_behind_lt l (by simpa using hf))
  | case3 l hf _ _ =>
    obtain ⟨-, rfl⟩ := Prod.mk.inj (Option.some.inj h)
    exact size_behind_lt l (by simpa using hf)

/-- All tokens that are left, and the lexer behind them. -/
def tokens [Primitives] (l : Lexer) : List Token × Lexer :=
  match _h : l.next with
  | none => ([], l)
  | some (t, l') =>
    let (ts, last) := l'.tokens
    (t :: ts, last)
termination_by l.size
decreasing_by exact size_lt_of_next _h

/-- The diagnostics found so far in the order of their positions. -/
def finish (l : Lexer) : List Diagnostic := l.diagnostics.sorted

end Lexer

/-- What a pass over a whole text yields. -/
structure Lexed where
  tokens : List Token
  diagnostics : List Diagnostic
deriving DecidableEq, Repr

namespace Lexed

def ofLexer [Primitives] (l : Lexer) : Lexed :=
  let (tokens, last) := l.tokens
  { tokens, diagnostics := last.finish }

def hasErrors (x : Lexed) : Bool := x.diagnostics.any fun d => d.severity = .error

end Lexed

/-- Lexes a whole text. -/
def lex [Primitives] (t : Text) (o : Options) : Lexed := .ofLexer (.ofText t o)

end EcmaLex
