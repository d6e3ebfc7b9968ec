import EcmaLex.Proofs.Guarded.Dispatch
import EcmaLex.Proofs.Guarded.Lines

/-!
# Guarded runs

A guarded run cuts what is left to read off the text before and behind each character, looks up what
scans a lexeme, slices out what the lexeme takes from the text, checks each line that it leaves, and
slices out each token. It never fails: every number of lexemes can be read, and once all of them are
the tokens are those of the run without guards.
-/

namespace EcmaLex

open Text (StandsAt)
open Lexer (Reading)

namespace Guarded

def advance (s : Source) : Option Source := do
  let rest ← s.text.from? s.cursor.offset
  rest.head?.elim (some s) fun c => do
    let behind ← s.text.from? (s.cursor.offset + c.utf8Size)
    return { s with
      cursor := {
        rest := behind
        offset := s.cursor.offset + c.utf8Size
        position := s.cursor.position.step c behind.head? } }

def advanceBy : Nat → Source → Option Source
  | 0, s => some s
  | n + 1, s => do
    let next ← advance s
    advanceBy n next

def passShebang (s : Source) : Option Source :=
  if ['#', '!'].isPrefixOf s.cursor.rest then do
    let passed ← advanceBy (s.cursor.rest.takeWhile (!isLineTerminator ·)).length s
    let shebang ← s.text.slice? s.cursor.offset passed.cursor.offset
    return { passed with shebang := some shebang }
  else some s

def source (text : Text) : Option Source := do
  let whole ← text.from? 0
  let offset := if whole.head? = some byteOrderMark then byteOrderMark.utf8Size else 0
  let rest ← text.from? offset
  passShebang { text, lines := text.lines, shebang := none, cursor := { rest, offset } }

/-- The cursor of a source stands where its offset says, and the lines are those of the text. -/
structure Placed (s : Source) : Prop where
  stands : StandsAt s.text s.cursor.offset s.cursor.rest
  lines : s.lines = s.text.lines

namespace Placed

variable {s : Source}

theorem advance (hs : Placed s) : Placed (s.advanceBy 1) := by
  refine ⟨?_, hs.lines⟩
  have hstands := hs.stands
  cases hrest : s.cursor.rest with
  | nil =>
    have hsame : s.cursor.advanceBy 1 = s.cursor := Cursor.advance_nil hrest
    rwa [Source.advanceBy, hsame]
  | cons c t =>
    obtain ⟨hr, ho, -⟩ := Cursor.advance_cons hrest
    rw [hrest] at hstands
    have hbehind := hstands.behind_cons
    rwa [← hr, ← ho] at hbehind

theorem advanceBy (hs : Placed s) (n : Nat) : Placed (s.advanceBy n) := by
  induction n generalizing s with
  | zero => exact hs
  | succ n ih => exact ih hs.advance

end Placed

theorem advance_eq {s : Source} (hs : Placed s) : advance s = some (s.advanceBy 1) := by
  have hstands := hs.stands
  rw [advance, hstands.from?_eq, Option.bind_eq_bind, Option.bind_some]
  cases hrest : s.cursor.rest with
  | nil =>
    have hsame : s.cursor.advanceBy 1 = s.cursor := Cursor.advance_nil hrest
    rw [Source.advanceBy, hsame]
    rfl
  | cons c t =>
    rw [hrest] at hstands
    have hnext : s.cursor.advanceBy 1 =
        ⟨t, s.cursor.offset + c.utf8Size, s.cursor.position.step c t.head?⟩ := by
      rw [Cursor.advanceBy, Cursor.advanceBy, Cursor.advance, hrest]
    rw [Source.advanceBy, hnext, List.head?_cons, Option.elim_some, hstands.behind_cons.from?_eq]
    rfl

theorem advanceBy_eq {s : Source} (hs : Placed s) (n : Nat) :
    advanceBy n s = some (s.advanceBy n) := by
  induction n generalizing s with
  | zero => rfl
  | succ n ih =>
    rw [advanceBy, advance_eq hs]
    exact ih hs.advance

theorem passShebang_eq {s : Source} (hs : Placed s) (hnone : s.shebang = none) :
    passShebang s = some { s.advanceBy ((shebang? s.cursor.rest).elim 0 List.length) with
      shebang := shebang? s.cursor.rest } := by
  rw [passShebang, Text.shebang?_eq]
  by_cases hline : ['#', '!'] <+: s.cursor.rest
  · obtain ⟨t, ht⟩ := List.takeWhile_prefix (!isLineTerminator ·) (l := s.cursor.rest)
    obtain ⟨-, hoffset⟩ := Cursor.advanceBy_append ht.symm
    rw [if_pos (List.isPrefixOf_iff_prefix.mpr hline), if_pos hline, Option.elim_some,
      advanceBy_eq hs, Option.bind_eq_bind, Option.bind_some, Source.advanceBy, hoffset,
      hs.stands.slice?_of_prefix (List.takeWhile_prefix _)]
    rfl
  · rw [if_neg (by rwa [List.isPrefixOf_iff_prefix]), if_neg hline, Option.elim_none, ← hnone]
    rfl

theorem placed_ofText (t : Text) : Placed (Source.ofText t) := by
  obtain ⟨r, ht, hrest, hoffset⟩ := Source.exists_rest t
  exact ⟨⟨t.preamble, by rw [hrest]; exact ht, hoffset.symm⟩, rfl⟩

theorem source_eq (t : Text) : source t = some (Source.ofText t) := by
  have hoffset : (if t.head? = some byteOrderMark then byteOrderMark.utf8Size else 0) =
      t.leadingMark.utf8Size := by
    rw [Text.leadingMark_eq]
    split
    · rfl
    · rfl
  have hstands : StandsAt t t.leadingMark.utf8Size (t.drop t.leadingMark.length) :=
    ⟨t.leadingMark, (List.prefix_iff_eq_append.mp t.leadingMark_prefix).symm, rfl⟩
  simp only [source, (StandsAt.start t).from?_eq, hoffset, hstands.from?_eq, Option.bind_eq_bind,
    Option.bind_some, Source.ofText, Cursor.skipByteOrderMark_eq]
  exact passShebang_eq ⟨hstands, rfl⟩ rfl

def checkLine (r : Reader) (n : Nat) : Option Reader := do
  let found ← lineDiagnostics r n
  return { r with diagnostics := r.diagnostics.extend found }

def leave (r : Reader) (n : Nat) : Option Reader :=
  if r.position.line = n then some r else checkLine { r with leftLine := true } n

def read (r : Reader) (c : Char) : Option Reader := do
  let source ← advance r.source
  leave { r.inspect c with source } r.position.line

def followFrom (r : Reader) (start : Position) (visited : List Position) : Trace → Option Reader
  | [] => some r
  | .read c :: t => do
    let next ← read r c
    followFrom next start (r.position :: visited) t
  | .note place remark :: t =>
    followFrom
      (if remark.rule.holds r.options then r.report remark.issue (r.locate start visited place)
        else r)
      start visited t

def follow (r : Reader) (t : Trace) : Option Reader := followFrom r r.position [] t

section

variable {r : Reader}

theorem checkLine_eq (hr : Placed r.source) (n : Nat) : checkLine r n = some (r.checkLine n) := by
  rw [checkLine, lineDiagnostics_eq hr.lines]
  rfl

theorem leave_eq (hr : Placed r.source) (n : Nat) : leave r n = some (r.leave n) := by
  unfold leave Reader.leave
  split
  · rfl
  · exact checkLine_eq (r := { r with leftLine := true }) hr n

theorem read_eq (hr : Placed r.source) (c : Char) : read r c = some (r.read c) := by
  have hadvance : (r.inspect c).advance = { r.inspect c with source := r.source.advanceBy 1 } := by
    rw [Reader.advance, Reader.source_inspect]
    rfl
  rw [read, advance_eq hr, Option.bind_eq_bind, Option.bind_some, Reader.read, hadvance]
  exact leave_eq hr.advance _

theorem followFrom_eq (hr : Placed r.source) (start : Position) (visited : List Position)
    (t : Trace) : followFrom r start visited t = some (r.followFrom start visited t) := by
  induction t generalizing r visited with
  | nil => rfl
  | cons e t ih =>
    cases e with
    | read c =>
      rw [followFrom, read_eq hr, Option.bind_eq_bind, Option.bind_some, Reader.followFrom]
      exact ih (r.source_read c ▸ hr.advance) _
    | note place remark =>
      rw [followFrom, Reader.followFrom]
      split
      · exact ih (r := r.report remark.issue (r.locate start visited place)) hr visited
      · exact ih hr visited

theorem follow_eq (hr : Placed r.source) (t : Trace) : follow r t = some (r.follow t) :=
  followFrom_eq hr r.position [] t

theorem placed_follow (hr : Placed r.source) (t : Trace) : Placed (r.follow t).source :=
  Reader.source_follow r t ▸ hr.advanceBy _

end

def behindLexeme (before : Reader) (lexeme : Lexeme) : Option Reader := do
  let after ← follow before lexeme.trace
  if lexeme.kind = .eof then checkLine after after.position.line else some after

def reading [Primitives] (l : Lexer) : Option (Reading × Token) := do
  let rest ← l.reader.source.text.from? l.reader.offset
  let before ← follow l.reader (gap rest)
  let t ← before.source.text.from? before.offset
  let lexeme ← lexeme before.source.text l.context before.offset t
  let after ← behindLexeme before lexeme
  let raw ← after.source.text.slice? before.offset after.offset
  return (⟨before, lexeme, after⟩, { Reading.token ⟨before, lexeme, after⟩ with raw })

def steps [Primitives] : Nat → Lexer → Option (List Token × Lexer)
  | 0, l => some ([], l)
  | n + 1, l =>
    if l.finished then some ([], l)
    else do
      let (s, k) ← reading l
      let (ks, last) ← steps n (l.behind s)
      return (if l.yields s then k :: ks else ks, last)

/-- A run over a text that reads `n` lexemes, or all of them if there are fewer. -/
def run [Primitives] (t : Text) (o : Options) (withComments : Bool) (n : Nat) :
    Option (List Token × Lexer) := do
  let source ← source t
  steps n { reader := { source, options := o }, withComments }

theorem behindLexeme_eq {r : Reader} (hr : Placed r.source) (x : Lexeme) :
    behindLexeme r x = some (if x.kind = .eof then
      (r.follow x.trace).checkLine (r.follow x.trace).position.line else r.follow x.trace) := by
  rw [behindLexeme, follow_eq hr, Option.bind_eq_bind, Option.bind_some]
  split
  · exact checkLine_eq (placed_follow hr _) _
  · rfl

/-- The lexeme of a reading can be sliced out from where it starts to where it ends. -/
theorem slice?_reading [Primitives] {l : Lexer} (hl : Placed l.reader.source) :
    l.reading.after.source.text.slice? l.reading.before.offset l.reading.after.offset =
      some l.reading.lexeme.raw := by
  have hbefore : Placed l.reading.before.source := placed_follow hl _
  have hafter : l.reading.after.source =
      l.reading.before.source.advanceBy l.reading.lexeme.raw.length := by
    rw [Lexer.after_reading_eq]
    split
    · exact Reader.source_follow _ _
    · exact Reader.source_follow _ _
  obtain ⟨u, hu⟩ : l.reading.lexeme.raw <+: l.reading.before.rest := Lexeme.scan_prefix _ _
  obtain ⟨-, hoffset⟩ := Cursor.advanceBy_append hu.symm
  rw [Reader.offset, Reader.offset, hafter, Source.advanceBy, hoffset]
  exact hbefore.stands.slice?_of_prefix ⟨u, hu⟩

theorem reading_eq [UnicodePrimitives] {l : Lexer} (hl : Placed l.reader.source) :
    reading l = some (l.reading, l.reading.token) := by
  have hrest : l.reader.source.text.from? l.reader.offset = some l.reader.rest :=
    hl.stands.from?_eq
  have hfollow : follow l.reader (gap l.reader.rest) = some l.reading.before := follow_eq hl _
  have hbefore : Placed l.reading.before.source := placed_follow hl _
  have hbehind : l.reading.before.source.text.from? l.reading.before.offset =
      some l.reading.before.rest := hbefore.stands.from?_eq
  have hlexeme : lexeme l.reading.before.source.text l.context l.reading.before.offset
      l.reading.before.rest = some l.reading.lexeme := lexeme_eq hbefore.stands l.context
  have hafter : behindLexeme l.reading.before l.reading.lexeme = some l.reading.after :=
    behindLexeme_eq hbefore _
  simp only [reading, hrest, hfollow, hbehind, hlexeme, hafter, slice?_reading hl,
    Option.bind_eq_bind, Option.bind_some]
  rfl

theorem placed_behind [Primitives] {l : Lexer} (hl : Placed l.reader.source) :
    Placed (l.behind l.reading).reader.source := by
  rw [Lexer.reader_behind_of_checkLine Reader.source (fun _ => rfl) (fun _ _ => rfl)]
  exact placed_follow (placed_follow hl _) _

theorem steps_eq [UnicodePrimitives] {l : Lexer} (hl : Placed l.reader.source) (n : Nat) :
    ∃ ks last, steps n l = some (ks, last) ∧ ks <+: l.tokens.1 ∧
      (l.readings.length ≤ n → (ks, last) = l.tokens) := by
  -- By induction on the lexemes that are read. Behind each of them the cursor is placed again.
  induction n generalizing l with
  | zero =>
    refine ⟨[], l, rfl, List.nil_prefix, fun hlength => ?_⟩
    cases hf : l.finished with
    | true => rw [Lexer.tokens_of_finished hf]
    | false =>
      rw [Lexer.readings_of_not_finished hf] at hlength
      exact absurd hlength (Nat.not_succ_le_zero _)
  | succ n ih =>
    cases hf : l.finished with
    | true =>
      refine ⟨[], l, if_pos hf, List.nil_prefix, fun _ => ?_⟩
      rw [Lexer.tokens_of_finished hf]
    | false =>
      obtain ⟨ks, last, hsteps, hprefix, hall⟩ := ih (placed_behind hl)
      have hstep : steps (n + 1) l =
          some (if l.yields l.reading then l.reading.token :: ks else ks, last) := by
        simp only [steps, hf, reading_eq hl, hsteps, Option.bind_eq_bind, Option.bind_some]
        rfl
      have hlength : l.readings.length ≤ n + 1 →
          (l.behind l.reading).readings.length ≤ n := by
        rw [Lexer.readings_of_not_finished hf, List.length_cons]
        exact Nat.le_of_succ_le_succ
      rw [Lexer.tokens_of_not_finished hf]
      refine ⟨_, _, hstep, ?_, fun hn => ?_⟩
      · split
        · exact List.cons_prefix_cons.mpr ⟨rfl, hprefix⟩
        · exact hprefix
      · rw [← hall (hlength hn)]

end Guarded

/-- No slice, difference or lookup of a run over a text fails, however far the run goes. As far as
it goes it yields the tokens of the text, and all of them if it goes to the end. Neither does the
decoding of any numeral or of any digits fail. -/
theorem guarded_run_succeeds [UnicodePrimitives] (t : Text) (o : Options) (withComments : Bool) :
    (∀ n, ∃ ks last, Guarded.run t o withComments n = some (ks, last) ∧
      ks <+: (Lexer.start t o withComments).tokens.1 ∧
      ((Lexer.start t o withComments).readings.length ≤ n →
        (ks, last) = (Lexer.start t o withComments).tokens)) ∧
    (∀ raw, Guarded.numberValue raw = some (numberValue raw)) ∧
    ∀ digits, Guarded.decodeHex digits = some (decodeHex? digits) := by
  refine ⟨fun n => ?_, Guarded.numberValue_eq, Guarded.decodeHex_eq⟩
  rw [Guarded.run, Guarded.source_eq]
  exact Guarded.steps_eq (Guarded.placed_ofText t) n

end EcmaLex
