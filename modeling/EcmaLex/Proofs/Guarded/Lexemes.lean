import EcmaLex.Proofs.Extent.Opening
import EcmaLex.Proofs.Guarded.Pieces

/-!
# Guarded lexemes

What a lexeme holds of its text is sliced out of the whole text, between the offset where it starts
and the one that is reached. Groups and nested comments are counted, and the counts never fall below
zero.
-/

namespace EcmaLex

open Text (StandsAt)
open Trace (reads onlyIf noteAt noteHere noteStart)

namespace Guarded

variable (text : Text)

def name [Primitives] (context : Context) (n : Nat) (t : Text) : Option Lexeme := do
  let parts ← nameParts text n false t
  let name := parts.filterMap NamePart.char
  return {
    value := if isKeyword name then .keyword name else .identifier name
    malformed := parts.any fun p => p.char.isNone
    trace := parts.flatMap NamePart.trace ++ Name.remarks context name }

/-- The trace of the pieces of a string from an offset on. What stands before it on its line starts
at `lineStart`, and is sliced out where a message quotes it. -/
def stringTraces (quote : Char) (lineStart n : Nat) : List StringPiece → Option Trace
  | [] => some []
  | .plain c :: ps => do
    let remark ← if StringPiece.isControl c then
        (text.slice? lineStart n).map fun line => noteHere (.controlCharacterInString line)
      else some []
    let traces ← stringTraces quote lineStart (n + c.utf8Size) ps
    return remark ++ .read c :: traces
  | .escape s :: ps => do
    let behind := n + s.text.utf8Size
    let traces ← stringTraces quote (if s.isContinuation then behind else lineStart) behind ps
    return s.trace (StringPiece.onLetter quote) StringPiece.onContinuation ++ traces

def string (quote : Char) (n : Nat) (t : Text) : Option Lexeme := do
  let pieces ← stringPieces text quote n t
  let traces ← stringTraces text quote n n pieces
  let value := pieces.flatMap StringPiece.decoded
  let closed := (t.drop (pieces.flatMap StringPiece.text).length).head? = some quote
  return {
    value := .string value
    malformed := !closed
    unclosed := !closed
    trace :=
      onlyIf (quote = '\'') (noteStart .singleQuotedString .json) ++ .read quote :: traces ++
      (if closed then [.read quote] else noteStart .unclosedString) ++
      onlyIf (StringLiteral.isScriptUrl value) (noteStart .scriptUrl .scripturl) }

/-- The template whose text behind its opening backtick starts at an offset. Its body ends one byte
before the offset behind its closing backtick. -/
def template (n : Nat) (t : Text) : Option Lexeme := do
  let (pieces, closed) ← templatePieces text n [.body] t
  let behind := n + Text.utf8Size (pieces.flatMap TemplatePiece.text)
  let stop ← if closed then minus? behind 1 else some behind
  let body ← text.slice? n stop
  return {
    value := .template body
    malformed := !closed
    unclosed := !closed
    trace :=
      .read '\x60' :: pieces.flatMap TemplatePiece.trace ++
      onlyIf (!closed) (noteStart .unclosedTemplate) }

variable {text} {n : Nat} {t : Text}

theorem name_eq [Primitives] (h : StandsAt text n t) (context : Context) :
    name text context n t = some (Lexeme.name context t) := by
  simp only [name, nameParts_eq h]
  rfl

theorem stringTraces_eq {quote : Char} {lineStart : Nat} {line u : Text} {ps : List StringPiece}
    (h : StandsAt text lineStart (line ++ (ps.flatMap StringPiece.text ++ u))) :
    stringTraces text quote lineStart (lineStart + line.utf8Size) ps =
      some (StringPiece.traces quote line.reverse ps) := by
  induction ps generalizing lineStart line with
  | nil => rfl
  | cons p ps ih =>
    cases p with
    | plain c =>
      have hslice := h.slice?_eq
      have hline : StandsAt text lineStart (line ++ [c] ++ (ps.flatMap StringPiece.text ++ u)) := by
        simpa [StringPiece.text] using h
      have hrest := ih hline
      have hsize : lineStart + Text.utf8Size (line ++ [c]) =
          lineStart + line.utf8Size + c.utf8Size := by
        simp [Nat.add_assoc]
      rw [hsize, List.reverse_append] at hrest
      simp only [stringTraces, StringPiece.traces, hslice, hrest, Option.map_some,
        List.reverse_reverse, Option.bind_eq_bind, onlyIf]
      split <;> rfl
    | escape s =>
      have hline : StandsAt text lineStart
          (line ++ s.text ++ (ps.flatMap StringPiece.text ++ u)) := by
        simpa [StringPiece.text] using h
      simp only [stringTraces, StringPiece.traces]
      cases s.isContinuation with
      | true =>
        have hbehind : StandsAt text (lineStart + line.utf8Size + s.text.utf8Size)
            ([] ++ (ps.flatMap StringPiece.text ++ u)) := by
          have hsize : lineStart + line.utf8Size + s.text.utf8Size =
              lineStart + Text.utf8Size (line ++ s.text) := by
            rw [Text.utf8Size_append, Nat.add_assoc]
          rw [hsize]
          exact hline.behind
        have hcontinued : stringTraces text quote _ _ ps = _ := ih hbehind
        rw [if_pos rfl, if_pos rfl]
        exact congrArg (Option.bind · _) hcontinued
      | false =>
        have hrest := ih hline
        rw [Text.utf8Size_append, ← Nat.add_assoc, List.reverse_append] at hrest
        rw [if_neg Bool.false_ne_true, if_neg Bool.false_ne_true]
        exact congrArg (Option.bind · _) hrest

theorem string_eq (h : StandsAt text n t) (quote : Char) :
    string text quote n t = some (Lexeme.string quote t) := by
  obtain ⟨r, hr, -⟩ := StringPiece.exists_body quote t
  have hstart : StandsAt text n
      ([] ++ ((StringPiece.scan quote t).flatMap StringPiece.text ++ r)) := hr ▸ h
  have htraces : stringTraces text quote n n (StringPiece.scan quote t) =
      some (StringPiece.traces quote [] (StringPiece.scan quote t)) := stringTraces_eq hstart
  simp only [string, stringPieces_eq h, htraces, Option.bind_eq_bind, Option.bind_some]
  rfl

theorem template_eq (h : StandsAt text n t) : template text n t = some (Lexeme.template t) := by
  obtain ⟨r, hr, -⟩ := TemplatePiece.exists_pieces [.template] t
  have hpieces : templatePieces text n [.body] t = some (TemplatePiece.scan [.template] t) :=
    templatePieces_eq h (by simp [TemplateLevel.IsOpen])
  obtain ⟨ps, closed, hps⟩ : ∃ ps closed, TemplatePiece.scan [.template] t = (ps, closed) :=
    ⟨_, _, rfl⟩
  simp only [template, Lexeme.template, hpieces, hps, Option.bind_eq_bind, Option.bind_some]
  rw [hps] at hr
  cases closed with
  | true =>
    -- The character that closes a template takes up one byte.
    obtain ⟨b, d, hb, hd⟩ := TemplatePiece.exists_last (t := t) (List.cons_ne_nil .template [])
      (by rw [hps])
    have hsize : d.utf8Size = 1 := by rcases hd with rfl | rfl <;> rfl
    rw [hps] at hb
    have hstop : minus? (n + Text.utf8Size (b ++ [d])) 1 = some (n + Text.utf8Size b) := by
      rw [Text.utf8Size_append, Text.utf8Size_cons, hsize, minus?_eq (by omega)]
      rfl
    have hbody : text.slice? n (n + Text.utf8Size b) = some b := by
      rw [hr, hb, List.append_assoc] at h
      exact h.slice?_eq
    simp only [hb, hstop, hbody, if_true, Option.bind_some, List.dropLast_concat]
    rfl
  | false =>
    have hbody : text.slice? n (n + Text.utf8Size (ps.flatMap TemplatePiece.text)) =
        some (ps.flatMap TemplatePiece.text) := by
      rw [hr] at h
      exact h.slice?_eq
    simp only [hbody, Bool.false_eq_true, if_false, Option.bind_some]
    rfl

def commentPieces (depth : Nat) : Text → Option (List CommentPiece)
  | [] => some []
  | '/' :: '*' :: t => (commentPieces (depth + 1) t).map (.opening :: ·)
  | '*' :: '/' :: t =>
    if depth > 1 then do
      let depth ← minus? depth 1
      let pieces ← commentPieces depth t
      return .closing :: pieces
    else some []
  | c :: t => (commentPieces depth t).map (.char c :: ·)

def directive (body : Text) : Option (Option Directive) :=
  let stop := (body.findByte? (!Char.isAlpha ·)).getD body.utf8Size
  (body.upTo? stop).map Directive.ofBody?

variable (text) in
def lineComment (n : Nat) (t : Text) : Option Lexeme := do
  let read : Text := t.takeWhile (!isLineTerminator ·)
  let body ← text.slice? n (n + read.utf8Size)
  return { value := .comment .line body none, trace := reads ('/' :: '/' :: read) }

variable (text) in
def blockComment (n : Nat) (t : Text) : Option Lexeme := do
  let pieces ← commentPieces 1 t
  let read : Text := pieces.flatMap CommentPiece.text
  let body ← text.slice? n (n + read.utf8Size)
  let directive ← directive body
  let closed := !(t.drop read.length).isEmpty
  return {
    value := .comment .block body directive
    unclosed := !closed
    trace :=
      reads ['/', '*'] ++ pieces.flatMap CommentPiece.trace ++
      if closed then reads ['*', '/'] else noteHere .unclosedComment }

/-- The mark that opens a comment is one of those that are to be closed. -/
theorem commentPieces_eq (depth : Nat) (t : Text) :
    commentPieces (depth + 1) t = some (CommentPiece.scan depth t) := by
  fun_induction CommentPiece.scan depth t with
  | case1 => rfl
  | case2 depth t ih => rw [commentPieces, ih, Option.map_some]
  | case3 t => rfl
  | case4 t depth ih =>
    rw [commentPieces, if_pos (by omega), minus?_eq (by omega)]
    simp only [Option.bind_eq_bind, Option.bind_some, Nat.add_sub_cancel, ih]
    rfl
  | case5 depth c t hopen hclose ih =>
    rw [commentPieces.eq_4 _ _ _ hopen hclose, ih, Option.map_some]

theorem directive_eq (body : Text) : directive body = some (Directive.ofBody? body) := by
  rcases body.findByte?_cases (!Char.isAlpha ·) with ⟨hnone, -⟩ | ⟨a, c, u, rfl, ha, hc, hsome⟩
  · have hall := Text.upTo?_append body []
    rw [List.append_nil] at hall
    rw [directive, hnone, Option.getD_none, hall, Option.map_some]
  · have halpha : ∀ d ∈ a, d.isAlpha := fun d hd => by simpa using ha d hd
    have hword : (a ++ c :: u).takeWhile Char.isAlpha = a.takeWhile Char.isAlpha := by
      rw [List.takeWhile_append_of_pos halpha, List.takeWhile_cons_of_neg (by simpa using hc),
        List.append_nil, List.takeWhile_eq_self_iff.mpr halpha]
    rw [directive, hsome, Option.getD_some, Text.upTo?_append, Option.map_some]
    simp only [Directive.ofBody?, hword]

theorem lineComment_eq (h : StandsAt text n t) :
    lineComment text n t = some (Lexeme.lineComment t) := by
  simp only [lineComment, h.slice?_of_prefix (List.takeWhile_prefix _)]
  rfl

theorem blockComment_eq (h : StandsAt text n t) :
    blockComment text n t = some (Lexeme.blockComment t) := by
  obtain ⟨r, hr, -⟩ := CommentPiece.exists_pieces 0 t
  have hslice := h.slice?_of_prefix ⟨r, hr.symm⟩
  simp only [blockComment, commentPieces_eq, hslice, directive_eq, Option.bind_eq_bind,
    Option.bind_some]
  rfl

def nest (depth : Nat) : RegexElement → Option Nat
  | .closing => if depth = 0 then some 0 else minus? depth 1
  | e => some (e.nest depth)

def regexTraces (depth : Nat) (behindAtom : Bool) : List RegexTerm → Option (Trace × Nat)
  | [] => some ([], depth)
  | m :: terms => do
    let inner ← nest depth m.element
    let (traces, last) ← regexTraces inner m.element.isAtom terms
    return (m.element.trace depth behindAtom ++ m.quantifier.elim [] Quantifier.trace ++ traces,
      last)

variable (text) in
def regex [Primitives] (n : Nat) (t : Text) : Option Lexeme := do
  let terms := RegexTerm.scan t
  let read : Text := terms.flatMap RegexTerm.text
  let (traces, depth) ← regexTraces 0 false terms
  let pattern ← text.slice? n (n + read.utf8Size)
  let body : Trace :=
    .read '/' :: onlyIf (t.head? = some '=') (noteStart .regexConfusedWithAssign) ++ traces
  return match t.drop read.length with
  | '/' :: rest =>
    let letters := rest.takeWhile isWordPart
    let following := (rest.drop letters.length).head?
    { value := .regex pattern (RegexFlag.ofLetters letters)
      trace :=
        body ++ .read '/' :: onlyIf (depth > 0) (noteAt (.back 1) (.unterminatedGroups depth)) ++
        RegexFlag.traces [] letters ++
        onlyIf (following = some '/' || following = some '*') (noteStart .confusingRegex) }
  | _ =>
    { value := .regex pattern []
      malformed := true
      unclosed := true
      trace := body ++ noteStart .unclosedRegex }

theorem nest_eq (depth : Nat) (e : RegexElement) : nest depth e = some (e.nest depth) := by
  cases e with
  | closing =>
    rw [nest]
    split
    · rename_i hdepth
      rw [hdepth]
      rfl
    · exact minus?_eq (by omega)
  | _ => rfl

theorem regexTraces_eq (depth : Nat) (behindAtom : Bool) (terms : List RegexTerm) :
    regexTraces depth behindAtom terms =
      some (RegexTerm.traces depth behindAtom terms, RegexTerm.nest depth terms) := by
  induction terms generalizing depth behindAtom with
  | nil => rfl
  | cons m terms ih =>
    simp only [regexTraces, nest_eq, ih, Option.bind_eq_bind, Option.bind_some]
    rfl

theorem regex_eq [Primitives] (h : StandsAt text n t) : regex text n t = some (Lexeme.regex t) := by
  have hslice := h.slice?_of_prefix (RegexTerm.pieceScan.flatMap_prefix () t)
  simp only [regex, regexTraces_eq, hslice, Option.bind_eq_bind, Option.bind_some]
  rfl

def hasExtraZero (raw : Text) : Option Bool :=
  if raw.utf8Size > 1 then do
    let first ← raw[0]?
    if first = '0' then (raw[1]?).map Char.isDigit else some false
  else some false

def spelling (raw : Text) : Option Trace :=
  match NumberForm.announced? raw with
  | some form => some (onlyIf (form = .hex) (noteStart (.avoidHexNumber raw) .json))
  | none => do
    let extraZero ← hasExtraZero raw
    let first ← raw[0]?
    return onlyIf extraZero (noteStart (.leadingZeros raw)) ++
      onlyIf (first = '.') (noteStart (.leadingDecimalPoint raw)) ++
      onlyIf (raw.getLast? = some '.') (noteStart (.trailingDecimalPoint raw))

variable (text) in
def number [Primitives] (n : Nat) (t : Text) : Option Lexeme := do
  let read : Text := NumberLiteral.extent t
  let raw ← text.slice? n (n + read.utf8Size)
  let value ← numberValue raw
  let remarks ← spelling raw
  return {
    value := .number value
    malformed := !value.isFinite
    trace :=
      reads read ++ remarks ++ onlyIf (!value.isFinite) (noteStart (.badNumber raw)) ++
      onlyIf ((t.drop read.length).head?.any NumberLiteral.runsInto)
        (noteStart (.missingSpaceAfterNumber raw)) }

theorem hasExtraZero_eq (raw : Text) :
    hasExtraZero raw = some (NumberLiteral.hasExtraZero raw) := by
  rcases raw with _ | ⟨c, _ | ⟨d, r⟩⟩
  · rfl
  · by_cases hc : c = '0'
    · subst hc
      rfl
    · simp [hasExtraZero, NumberLiteral.hasExtraZero, hc]
  · have hsize : Text.utf8Size (c :: d :: r) > 1 := by
      have := c.utf8Size_pos
      have := d.utf8Size_pos
      rw [Text.utf8Size_cons, Text.utf8Size_cons]
      omega
    by_cases hc : c = '0'
    · subst hc
      rw [hasExtraZero, if_pos hsize]
      rfl
    · simp [hasExtraZero, NumberLiteral.hasExtraZero, hc]

theorem spelling_eq {raw : Text} (h : raw ≠ []) :
    spelling raw = some (NumberLiteral.spelling raw) := by
  obtain ⟨c, r, rfl⟩ := List.exists_cons_of_ne_nil h
  have hfirst : (c :: r)[0]? = some c := rfl
  simp only [spelling, NumberLiteral.spelling, hfirst, hasExtraZero_eq, Option.bind_eq_bind,
    Option.bind_some]
  cases NumberForm.announced? (c :: r) with
  | some form => rfl
  | none => simp

theorem number_eq [Primitives] (h : StandsAt text n t) (ht : NumberLiteral.begins t) :
    number text n t = some (Lexeme.number t) := by
  have hslice := h.slice?_of_prefix (NumberLiteral.extent_prefix t)
  simp only [number, Lexeme.number, hslice, numberValue_eq,
    spelling_eq (NumberLiteral.extent_ne_nil ht), Option.bind_eq_bind, Option.bind_some]
  rfl

end Guarded

end EcmaLex
