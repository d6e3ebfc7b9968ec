import EcmaLex.Primitives.Standard
import EcmaLex.Proofs.Findings

/-!
# Tokens with errors

An error that is found in a name, in a stray character or in a literal that is cut off marks its
token as malformed. The errors inside of strings, templates and regular expressions that are closed
leave their token unmarked.
-/

namespace EcmaLex

def errorCodes : List String :=
  ["unexpected_character", "bad_escapement", "unclosed_string", "unclosed_comment",
   "regex_expected", "regex_expected_number", "regex_unescaped", "regex_empty_class",
   "regex_quantifier_bounds", "unclosed_regex", "regex_invalid_flag", "unclosed_template"]

theorem Issue.code_mem_errorCodes {i : Issue} (h : i.severity = .error) : i.code ∈ errorCodes := by
  cases i with
  | unexpectedCharacter | badEscapement | unclosedString | unclosedComment | expected
  | expectedNumber | unescaped | emptyClass | quantifierBounds | unclosedRegex | invalidRegexFlag
  | unclosedTemplate =>
    rw [code]
    decide
  | _ => cases h

def TokenKind.unmarkedCodes : TokenKind → List String
  | string | template => ["bad_escapement"]
  | regex =>
    ["regex_expected", "regex_expected_number", "regex_unescaped", "regex_empty_class",
     "regex_quantifier_bounds", "regex_invalid_flag"]
  | _ => []

namespace Lexeme

def Marks (m : Lexeme) : Prop :=
  m.trace.Remarks fun r =>
    r.issue.severity = .error → m.malformed ∨ r.issue.code ∈ m.kind.unmarkedCodes

theorem Reports.marks {codes : List String} {m : Lexeme} (h : m.Reports codes)
    (hcodes : ∀ code ∈ codes, code ∈ errorCodes → code ∈ m.kind.unmarkedCodes)
    (hu : m.unclosed → m.malformed) : m.Marks := by
  refine h.remarks (fun r hr herror => ?_) fun i hunclosed _ _ => .inl (hu hunclosed)
  exact .inr (hcodes _ hr (Issue.code_mem_errorCodes herror))

theorem marks_name [Primitives] (context : Context) (t : Text) : (name context t).Marks := by
  have hparts : ∀ part ∈ NamePart.scan false t, part.trace.Remarks fun r =>
      r.issue.severity = .error → (name context t).malformed := by
    intro part hpart
    have hbad : part.char.isNone → (name context t).malformed := fun hnone =>
      List.any_eq_true.mpr ⟨part, hpart, hnone⟩
    simpa [NamePart.trace] using fun hnone _ => hbad hnone
  have hremarks : ∀ word, (Name.remarks context word).Remarks fun r =>
      r.issue.severity ≠ .error := by
    intro word
    simp only [Name.remarks, Trace.remarks_append, Trace.remarks_onlyIf, Trace.remarks_noteStart]
    exact ⟨⟨⟨fun _ => by decide, fun _ => by decide⟩, fun _ => by decide⟩,
      fun _ herror => by cases herror⟩
  have htrace : (name context t).trace =
      (NamePart.scan false t).flatMap NamePart.trace ++
        Name.remarks context ((NamePart.scan false t).filterMap NamePart.char) := rfl
  rw [Marks, htrace, Trace.remarks_append, Trace.remarks_flatMap]
  refine ⟨fun part hpart => (hparts part hpart).mono fun r h herror => .inl (h herror), ?_⟩
  exact (hremarks _).mono fun r h herror => absurd herror h

theorem marks_mark (c : Char) (t : Text) : (mark c t).Marks := by
  unfold mark
  split
  · simp [Marks, punctuator]
  · exact fun _ _ _ _ => .inl rfl

/-- Scanning a lexeme other than a comment, an error marks it or its kind leaves it unmarked. -/
theorem marks_lexeme [Primitives] (context : Context) (c : Char) (t : Text) (o : Opening)
    (hk : (o.lexeme context c t).kind ≠ .comment) : (o.lexeme context c t).Marks := by
  have hreports := o.reports_lexeme context c t
  cases o with
  | name => exact marks_name context (c :: t)
  | number =>
    have hcodes : ∀ code ∈ Opening.number.codes, code ∉ errorCodes := by decide
    exact hreports.marks (fun code hcode herror => absurd herror (hcodes code hcode)) nofun
  | string =>
    have hcodes : ∀ code ∈ Opening.string.codes, code ∈ errorCodes →
        code ∈ TokenKind.string.unmarkedCodes := by decide
    exact hreports.marks hcodes id
  | template =>
    have hcodes : ∀ code ∈ Opening.template.codes, code ∈ errorCodes →
        code ∈ TokenKind.template.unmarkedCodes := by decide
    exact hreports.marks hcodes id
  | regex =>
    have hcodes : ∀ code ∈ Opening.regex.codes, code ∈ errorCodes →
        code ∈ TokenKind.regex.unmarkedCodes := by decide
    refine hreports.marks (kind_regex t ▸ hcodes) fun hu => ?_
    exact (malformed_regex t).trans hu
  | lineComment => exact absurd rfl hk
  | blockComment => exact absurd rfl hk
  | mark => exact marks_mark c t

theorem marks_scan [Primitives] (context : Context) (t : Text)
    (hk : (scan context t).kind ≠ .comment) :
    (scan context t).Marks := by
  cases t with
  | nil => exact Trace.remarks_nil
  | cons c t =>
    rw [scan, Opening.lexeme_of] at hk ⊢
    exact marks_lexeme context c t _ hk

/-- Inside of strings, templates and regular expressions nothing marks but the lack of an end. -/
theorem malformed_scan [Primitives] (context : Context) (t : Text)
    (hk : (scan context t).kind = .string ∨ (scan context t).kind = .template ∨
      (scan context t).kind = .regex) :
    (scan context t).malformed = (scan context t).unclosed := by
  cases t with
  | nil => rfl
  | cons c t =>
    rw [scan, Opening.lexeme_of] at hk ⊢
    have hkinds := Opening.kind_mem_kinds context c t (Opening.of context.regexAllowed c t)
    generalize Opening.of context.regexAllowed c t = o at hk hkinds ⊢
    cases o with
    | string => rfl
    | template => rfl
    | regex => exact malformed_regex t
    | _ => rcases hk with hk | hk | hk <;> simp [hk, Opening.kinds] at hkinds

end Lexeme

/-- A reading finds no errors but those of the remarks on its lexeme. -/
theorem Lexer.exists_mild [Primitives] {l : Lexer}
    (h : l.reading.lexeme.trace.Remarks fun m => m.issue.severity ≠ .error) :
    ∃ ds, (l.behind l.reading).diagnostics.toList = l.diagnostics.toList ++ ds ∧
      ∀ d ∈ ds, d.severity ≠ .error := by
  obtain ⟨found, hfound, hp⟩ := l.adds_behind
  have hlines : ∀ code ∈ lineCodes, code ∉ errorCodes := by decide
  refine ⟨_, hfound, fun d hd herror => ?_⟩
  obtain ⟨⟨i, position⟩, hf, rfl⟩ := List.mem_map.mp hd
  rcases hp _ hf with hline | hgap | htoken
  · exact hlines _ hline (Issue.code_mem_errorCodes herror)
  · rcases hgap.source with rfl | rfl <;> cases herror
  · rcases htoken.source with rfl | ⟨place, m, hm, rfl⟩
    · cases herror
    · exact h place m hm herror

/-- The errors among what a call finds mark its token, apart from those inside of a string, a
template or a regular expression. These tokens are marked if and only if they are cut off. -/
structure Token.MarkedBy (k : Token) (ds : List Diagnostic) : Prop where
  error : ∀ d ∈ ds, d.severity = .error → k.malformed ∨ d.code ∈ k.kind.unmarkedCodes
  unclosed : k.kind = .string ∨ k.kind = .template ∨ k.kind = .regex → k.malformed = k.unclosed

namespace Lexer

/-- If comments are yielded, each call scans one token. What it finds marks the token so, unless that
is a comment. -/
theorem markedBy_calls [Primitives] (t : Text) (o : Options) (n : Nat) {k : Token} {l' : Lexer}
    (h : ((start t o true).calls n).2.next = some (k, l')) (hk : k.isComment = false) :
    ∃ ds, l'.diagnostics.toList = ((start t o true).calls n).2.diagnostics.toList ++ ds ∧
      k.MarkedBy ds := by
  have hw : ((start t o true).calls n).2.withComments = true := withComments_calls _ n
  generalize ((start t o true).calls n).2 = l at h hw ⊢
  obtain ⟨rfl, rfl⟩ := eq_reading_of_next hw h
  obtain ⟨found, hfound, hp⟩ := l.adds_behind
  have hmarks : l.reading.lexeme.Marks :=
    Lexeme.marks_scan l.context l.reading.before.rest (of_decide_eq_false hk)
  have hlines : ∀ code ∈ lineCodes, code ∉ errorCodes := by decide
  refine ⟨_, hfound, ?_, Lexeme.malformed_scan l.context l.reading.before.rest⟩
  intro d hd herror
  obtain ⟨⟨i, position⟩, hf, rfl⟩ := List.mem_map.mp hd
  rcases hp _ hf with hline | hgap | htoken
  · exact absurd (Issue.code_mem_errorCodes herror) (hlines _ hline)
  · rcases hgap.source with rfl | rfl <;> cases herror
  · rcases htoken.source with rfl | ⟨place, r, hr, rfl⟩
    · cases herror
    · exact hmarks place r hr herror

/-- The bad escape in a closed string is an error, and yet the token is not marked. -/
theorem markedBy_calls_of_bad_escape : ∃ k l',
    ((start "\"\\q\"".toList {} true).calls 0).2.next = some (k, l') ∧
      k.isComment = false ∧ k.malformed = false ∧
      ∃ ds, l'.diagnostics.toList =
          ((start "\"\\q\"".toList {} true).calls 0).2.diagnostics.toList ++ ds ∧
        k.MarkedBy ds ∧ ∃ d ∈ ds, d.severity = .error := by
  have hnone : ((start "\"\\q\"".toList {} true).calls 0).2.diagnostics.toList = [] := by
    decide +kernel
  have hcall : ((start "\"\\q\"".toList {} true).calls 0).2.next.any fun (k, l') =>
      !k.isComment && !k.malformed && l'.diagnostics.toList.any (·.severity = .error) := by
    decide +kernel
  obtain ⟨⟨k, l'⟩, h, hfacts⟩ := (Option.any_eq_true _ _).mp hcall
  simp only [Bool.and_eq_true, Bool.not_eq_true', List.any_eq_true, decide_eq_true_eq] at hfacts
  obtain ⟨⟨hk, hmalformed⟩, herror⟩ := hfacts
  obtain ⟨ds, hds, hmarked⟩ := markedBy_calls _ _ 0 h hk
  rw [hds, hnone] at herror
  exact ⟨k, l', h, hk, hmalformed, ds, hds, hmarked, herror⟩

end Lexer

end EcmaLex
