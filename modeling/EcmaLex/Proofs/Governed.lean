import EcmaLex.Proofs.Remarks

/-!
# What options govern

Options govern the line checks and those remarks that are made under some rule. Every other remark
is made always. So the diagnostics whose codes options do not govern, and all tokens, are the same
under all options.
-/

namespace EcmaLex

def optionCodes : List String :=
  ["line_too_long", "trailing_whitespace", "mixed_spaces_and_tabs", "script_url", "proto_property",
   "iterator_property", "eol_escapement", "unnecessary_escapement", "json_hex_number",
   "json_single_quote", "json_vertical_tab_escape", "json_hex_escape", "json_single_quote_escape",
   "json_eol_escapement", "json_bareword_key"]

def Diagnostic.isFixed (d : Diagnostic) : Bool := !optionCodes.contains d.code

theorem Issue.isFixed_diagnostic (i : Issue) (p : Position) :
    (i.diagnostic p).isFixed = !optionCodes.contains i.code := rfl

def Remark.Governed (m : Remark) : Prop := m.rule = .always ∨ optionCodes.contains m.issue.code

@[simp] theorem Remark.governed_always (i : Issue) : Governed { issue := i } := .inl rfl

theorem Remark.Governed.settled {m : Remark} (h : m.Governed) (o' o : Options) :
    m.Settled Diagnostic.isFixed o' o := by
  rcases h with halways | hcode
  · left
    rw [halways]
    rfl
  · right
    intro p
    rw [Issue.isFixed_diagnostic, hcode]
    rfl

def Trace.Governed (t : Trace) : Prop := ∀ place m, Event.note place m ∈ t → m.Governed

namespace Trace

@[simp] theorem governed_nil : Governed [] := remarks_nil

@[simp] theorem governed_read (c : Char) (t : Trace) : Governed (.read c :: t) ↔ Governed t :=
  remarks_read c t

@[simp] theorem governed_note (place : Place) (m : Remark) (t : Trace) :
    Governed (.note place m :: t) ↔ m.Governed ∧ Governed t := remarks_note place m t

@[simp] theorem governed_append (s t : Trace) : Governed (s ++ t) ↔ Governed s ∧ Governed t :=
  remarks_append s t

@[simp] theorem governed_flatMap {α : Type} (f : α → Trace) (as : List α) :
    Governed (as.flatMap f) ↔ ∀ a ∈ as, Governed (f a) := remarks_flatMap f as

@[simp] theorem governed_reads (t : Text) : Governed (reads t) := remarks_reads t

@[simp] theorem governed_noteAt (place : Place) (i : Issue) (r : Rule) :
    Governed (noteAt place i r) ↔ Remark.Governed { issue := i, rule := r } :=
  remarks_noteAt place i r

@[simp] theorem governed_noteHere (i : Issue) : Governed (noteHere i) := by simp [noteHere]

@[simp] theorem governed_noteStart (i : Issue) (r : Rule) :
    Governed (noteStart i r) ↔ Remark.Governed { issue := i, rule := r } := remarks_noteStart i r

@[simp] theorem governed_onlyIf (b : Bool) (t : Trace) :
    Governed (onlyIf b t) ↔ (b = true → Governed t) := remarks_onlyIf b t

theorem Governed.settled {t : Trace} (h : t.Governed) (o' o : Options) :
    t.Settled Diagnostic.isFixed o' o := fun place m hm => (h place m hm).settled o' o

end Trace

theorem NamePart.governed_trace (p : NamePart) : p.trace.Governed := by simp [trace]

theorem Name.governed_remarks (c : Context) (name : Text) : (remarks c name).Governed := by
  simp only [remarks, Trace.governed_append, Trace.governed_onlyIf, Trace.governed_noteStart]
  refine ⟨⟨⟨fun _ => .inl rfl, fun _ => .inr ?_⟩, fun _ => .inr ?_⟩, fun _ => .inr ?_⟩
  · decide
  · decide
  · rfl

theorem NumberLiteral.governed_spelling (raw : Text) : (spelling raw).Governed := by
  unfold spelling
  split
  · simp [Remark.Governed, optionCodes, Issue.code]
  · simp

namespace EscapeSequence

theorem governed_onBackslash {rs : List Remark} (h : ∀ m ∈ rs, m.Governed) (n : Nat) :
    (onBackslash n rs).Governed := (remarks_onBackslash n rs).mpr h

theorem governed_trace {onLetter : Char → List Remark} {onContinuation : List Remark}
    (hletter : ∀ c, ∀ m ∈ onLetter c, m.Governed) (hline : ∀ m ∈ onContinuation, m.Governed)
    (s : EscapeSequence) : (s.trace onLetter onContinuation).Governed := by
  cases s with
  | lone => simp [trace]
  | continuation terminator => simp [trace, governed_onBackslash hline]
  | char letter decoded => simp [trace, governed_onBackslash (hletter letter)]
  | code letter written decoded => simp [trace, governed_onBackslash (hletter letter)]
  | bad letter written => simp [trace, governed_onBackslash (hletter letter)]

end EscapeSequence

theorem EscapeContext.code_of_issue? {context : EscapeContext} {c : Char} {i : Issue}
    (h : context.issue? c = some i) : optionCodes.contains i.code := by
  unfold EscapeContext.issue? at h
  split at h
  · obtain rfl := Option.some.inj h
    decide
  · obtain rfl := Option.some.inj h
    decide
  · obtain rfl := Option.some.inj h
    decide
  · simp at h

namespace StringPiece

theorem governed_onLetter (quote letter : Char) : ∀ m ∈ onLetter quote letter, m.Governed := by
  intro m hm
  rcases List.mem_append.mp hm with hm | hm
  · obtain ⟨i, hi, rfl⟩ := List.mem_map.mp hm
    exact .inr (EscapeContext.code_of_issue? (Option.mem_toList.mp hi))
  · split at hm
    · obtain rfl := List.mem_singleton.mp hm
      exact .inr (by decide)
    · simp at hm

theorem governed_onContinuation : ∀ m ∈ onContinuation, m.Governed := by
  simp [onContinuation, Remark.Governed, optionCodes, Issue.code]

theorem governed_traces (quote : Char) (line : Text) (ps : List StringPiece) :
    (traces quote line ps).Governed := by
  induction ps generalizing line with
  | nil => simp [traces]
  | cons p ps ih =>
    cases p with
    | plain c => simp [traces, ih]
    | escape s =>
      have hs := EscapeSequence.governed_trace (governed_onLetter quote) governed_onContinuation s
      simp [traces, ih, hs]

end StringPiece

theorem TemplatePiece.governed_trace (p : TemplatePiece) : p.trace.Governed := by
  cases p with
  | escape s => exact EscapeSequence.governed_trace (by simp) (by simp) s
  | _ => simp [trace]

theorem CommentPiece.governed_trace (p : CommentPiece) : p.trace.Governed := by
  cases p <;> simp [trace]

theorem RegexEscape.governed_trace (e : RegexEscape) : e.trace.Governed := by
  unfold trace
  split
  · simp
  · split <;> simp

namespace ClassItem

theorem governed_trace (slot : ClassSlot) (last : Bool) (i : ClassItem) :
    (i.trace slot last).Governed := by
  cases i with
  | hyphen => simp [trace]
  | escape e => simp [trace, RegexEscape.governed_trace]
  | char c =>
    simp only [trace]
    split <;> simp

theorem governed_traces (closed : Bool) (slot : ClassSlot) (items : List ClassItem) :
    (traces closed slot items).Governed := by
  induction items generalizing slot with
  | nil => simp [traces]
  | cons i items ih => simp [traces, governed_trace, ih]

end ClassItem

theorem CharacterClass.governed_trace (k : CharacterClass) : k.trace.Governed := by
  simp only [trace, opening, Trace.governed_append, Trace.governed_read]
  refine ⟨?_, ClassItem.governed_traces _ _ _⟩
  split <;> simp

theorem SkippedPiece.governed_trace (p : SkippedPiece) : p.trace.Governed := by
  cases p <;> simp [trace, RegexEscape.governed_trace]

theorem Quantifier.governed_trace (q : Quantifier) : q.trace.Governed := by
  cases q with
  | mark c isLazy => simp [trace]
  | noNumber found => simp [trace]
  | bounds low high ending isLazy =>
    have hending : ending.trace.Governed := by
      cases ending <;> simp [BoundsEnd.trace, SkippedPiece.governed_trace]
    have horder : ∀ n, (order n low high).Governed := by
      intro n
      unfold order
      split <;> simp
    simp [trace, hending, horder]

theorem GroupKind.governed_trace (k : GroupKind) : k.trace.Governed := by
  cases k <;> simp [trace]

theorem RegexElement.governed_trace (depth : Nat) (behindAtom : Bool) (e : RegexElement) :
    (e.trace depth behindAtom).Governed := by
  cases e <;> simp [trace, RegexEscape.governed_trace, GroupKind.governed_trace,
    CharacterClass.governed_trace]

theorem RegexTerm.governed_traces (depth : Nat) (behindAtom : Bool) (terms : List RegexTerm) :
    (traces depth behindAtom terms).Governed := by
  induction terms generalizing depth behindAtom with
  | nil => simp [traces]
  | cons m terms ih =>
    have hq : Trace.Governed (m.quantifier.elim [] Quantifier.trace) := by
      cases m.quantifier <;> simp [Quantifier.governed_trace]
    simp [traces, RegexElement.governed_trace, hq, ih]

theorem RegexFlag.governed_traces (seen : List RegexFlag) (t : Text) :
    (traces seen t).Governed := by
  induction t generalizing seen with
  | nil => simp [traces]
  | cons c t ih =>
    unfold traces
    split <;> simp [ih]

namespace Lexeme

theorem governed_mark (c : Char) (t : Text) : (mark c t).trace.Governed := by
  unfold mark
  split <;> simp [punctuator, unexpected]

theorem governed_regex [Primitives] (t : Text) : (regex t).trace.Governed := by
  unfold regex
  simp only
  split <;> simp [RegexTerm.governed_traces, RegexFlag.governed_traces]

theorem governed_string (quote : Char) (t : Text) : (string quote t).trace.Governed := by
  simp only [string, Trace.governed_append, Trace.governed_onlyIf, Trace.governed_noteStart,
    Trace.governed_read]
  refine ⟨⟨⟨fun _ => .inr ?_, StringPiece.governed_traces _ _ _⟩, ?_⟩, fun _ => .inr ?_⟩
  · decide
  · split <;> simp
  · decide

theorem governed_blockComment (t : Text) : (blockComment t).trace.Governed := by
  simp only [blockComment, Trace.governed_append]
  refine ⟨⟨Trace.governed_reads _, by simp [CommentPiece.governed_trace]⟩, ?_⟩
  split <;> simp

/-- Options govern what is reported of a lexeme, as far as it is not reported always. -/
theorem governed_scan [Primitives] (context : Context) (t : Text) :
    (scan context t).trace.Governed := by
  cases t with
  | nil => simp [scan, eof]
  | cons c t =>
    rw [scan, Opening.lexeme_of]
    cases Opening.of context.regexAllowed c t with
    | name => simp [Opening.lexeme, name, NamePart.governed_trace, Name.governed_remarks]
    | number => simp [Opening.lexeme, number, NumberLiteral.governed_spelling]
    | string => exact governed_string c t
    | template => simp [Opening.lexeme, template, TemplatePiece.governed_trace]
    | lineComment => simp [Opening.lexeme, lineComment]
    | blockComment => exact governed_blockComment t.tail
    | regex => exact governed_regex t
    | mark => exact governed_mark c t

end Lexeme

theorem governed_gap (t : Text) : (gap t).Governed := by
  fun_induction gap t with
  | case1 => simp
  | case2 t ih => simp [ih]
  | case3 => simp
  | case4 c t _ _ ih => simp [ih]

theorem settling_governed [Primitives] (o' o : Options) : Settling Diagnostic.isFixed o' o where
  gap := fun t => (governed_gap t).settled o' o
  scan := fun context t => (Lexeme.governed_scan context t).settled o' o

theorem Reader.filter_lineDiagnostics (r : Reader) (n : Nat) :
    (r.lineDiagnostics n).filter Diagnostic.isFixed = [] := by
  have hsubset : ∀ code ∈ lineCodes, optionCodes.contains code := by decide
  rw [List.filter_eq_nil_iff]
  intro d hd
  simpa [Diagnostic.isFixed] using hsubset d.code (of_mem_lineDiagnostics hd).2

namespace Lexer

theorem parallel_start (t : Text) (o' o : Options) (w : Bool) :
    Parallel Diagnostic.isFixed 0 o' o (start t o' w) (start t o w) where
  finished := rfl
  withComments := rfl
  context := rfl
  cursor := rfl
  options := ⟨rfl, rfl⟩
  agrees := {
    leftLine := rfl
    diagnostics := rfl
    lines := fun n => by rw [Reader.filter_lineDiagnostics, Reader.filter_lineDiagnostics] }

/-- Options do not change the tokens of a text, nor any diagnostic but those that they govern. -/
theorem tokens_independent_of_options [Primitives] (t : Text) (o' o : Options) (w : Bool) :
    (start t o' w).tokens.1 = (start t o w).tokens.1 ∧
      (start t o' w).tokens.2.diagnostics.toList.filter Diagnostic.isFixed =
        (start t o w).tokens.2.diagnostics.toList.filter Diagnostic.isFixed := by
  obtain ⟨htokens, hdiagnostics⟩ := (parallel_start t o' o w).tokens (settling_governed o' o)
  have hzero : Token.shifted 0 = id := by
    funext k
    exact k.shifted_zero
  rw [hzero, List.map_id] at htokens
  exact ⟨htokens, hdiagnostics⟩

end Lexer

end EcmaLex
