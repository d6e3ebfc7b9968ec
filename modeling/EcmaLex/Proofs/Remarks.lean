import EcmaLex.Proofs.Extent.Opening
import EcmaLex.Proofs.LeadingMark

/-!
# Remarks

Each scanner makes remarks with codes of its own. That a lexeme is cut off is remarked once, behind
all that is read of the lexeme, and no other remark has such a code.
-/

namespace EcmaLex

open Trace (onlyIf noteAt noteHere noteStart reads)

namespace Trace

def Remarks (p : Remark → Prop) (t : Trace) : Prop := ∀ place m, Event.note place m ∈ t → p m

variable {p : Remark → Prop}

@[simp] theorem remarks_nil : Remarks p [] := by simp [Remarks]

@[simp] theorem remarks_read (c : Char) (t : Trace) : Remarks p (.read c :: t) ↔ Remarks p t := by
  simp [Remarks]

@[simp] theorem remarks_note (place : Place) (m : Remark) (t : Trace) :
    Remarks p (.note place m :: t) ↔ p m ∧ Remarks p t := by
  simp only [Remarks, List.mem_cons, Event.note.injEq]
  constructor
  · intro h
    exact ⟨h place m (.inl ⟨rfl, rfl⟩), fun q n hn => h q n (.inr hn)⟩
  · rintro ⟨hm, ht⟩ q n (⟨rfl, rfl⟩ | hn)
    · exact hm
    · exact ht q n hn

@[simp] theorem remarks_append (s t : Trace) :
    Remarks p (s ++ t) ↔ Remarks p s ∧ Remarks p t := by
  simp only [Remarks, List.mem_append]
  constructor
  · exact fun h => ⟨fun q m hm => h q m (.inl hm), fun q m hm => h q m (.inr hm)⟩
  · rintro ⟨hs, ht⟩ q m (hm | hm)
    · exact hs q m hm
    · exact ht q m hm

@[simp] theorem remarks_flatMap {α : Type} (f : α → Trace) (as : List α) :
    Remarks p (as.flatMap f) ↔ ∀ a ∈ as, Remarks p (f a) := by
  induction as with
  | nil => simp
  | cons a as ih => simp [ih]

@[simp] theorem remarks_reads (t : Text) : Remarks p (reads t) := by simp [Remarks, reads]

@[simp] theorem remarks_noteAt (place : Place) (i : Issue) (r : Rule) :
    Remarks p (noteAt place i r) ↔ p { issue := i, rule := r } := by
  simp [noteAt]

@[simp] theorem remarks_noteHere (i : Issue) : Remarks p (noteHere i) ↔ p { issue := i } := by
  simp [noteHere]

@[simp] theorem remarks_noteStart (i : Issue) (r : Rule) :
    Remarks p (noteStart i r) ↔ p { issue := i, rule := r } := by
  simp [noteStart]

@[simp] theorem remarks_onlyIf (b : Bool) (t : Trace) :
    Remarks p (onlyIf b t) ↔ (b = true → Remarks p t) := by
  cases b <;> simp [onlyIf]

@[simp] theorem onlyIf_true (t : Trace) : onlyIf true t = t := rfl

@[simp] theorem onlyIf_false (t : Trace) : onlyIf false t = [] := rfl

theorem Remarks.mono {q : Remark → Prop} {t : Trace} (h : t.Remarks p) (hpq : ∀ m, p m → q m) :
    t.Remarks q := fun place m hm => hpq m (h place m hm)

end Trace

@[simp] theorem EscapeSequence.remarks_onBackslash {p : Remark → Prop} (n : Nat)
    (rs : List Remark) : (onBackslash n rs).Remarks p ↔ ∀ m ∈ rs, p m := by
  simp only [Trace.Remarks, onBackslash, List.mem_map, Event.note.injEq]
  constructor
  · exact fun h m hm => h (.back n) m ⟨m, hm, rfl, rfl⟩
  · rintro h _ _ ⟨m, hm, -, rfl⟩
    exact h m hm

def Remark.HasCode (codes : List String) (m : Remark) : Prop := m.issue.code ∈ codes

@[simp] theorem Remark.hasCode_mk (codes : List String) (i : Issue) (r : Rule) :
    HasCode codes { issue := i, rule := r } ↔ i.code ∈ codes := Iff.rfl

abbrev Trace.Within (codes : List String) (t : Trace) : Prop := t.Remarks (Remark.HasCode codes)

theorem Trace.Within.of_subset {codes codes' : List String} {t : Trace} (h : t.Within codes)
    (hcodes : codes ⊆ codes') : t.Within codes' :=
  Remarks.mono h fun _ hm => hcodes hm

def Opening.codes : Opening → List String
  | name =>
    ["bad_escapement", "has_own_property", "proto_property", "iterator_property",
     "json_bareword_key"]
  | number =>
    ["json_hex_number", "leading_zeros", "leading_decimal_point", "trailing_decimal_point",
     "bad_number", "missing_space_after_number"]
  | string =>
    ["json_single_quote", "control_character_in_string", "bad_escapement",
     "unnecessary_escapement", "json_vertical_tab_escape", "json_hex_escape",
     "json_single_quote_escape", "eol_escapement", "json_eol_escapement", "script_url"]
  | template => ["bad_escapement", "unnecessary_escapement"]
  | lineComment => []
  | blockComment => ["nested_comment", "unbegun_comment"]
  | regex =>
    ["regex_control_character", "regex_unexpected_escape", "regex_expected",
     "regex_expected_number", "regex_unescaped", "regex_empty_class", "regex_quantifier_bounds",
     "regex_spaces", "regex_confused_with_assign", "regex_unterminated_groups",
     "regex_invalid_flag", "confusing_regex"]
  | mark => ["unexpected_character"]

def elementCodes : List String :=
  ["regex_control_character", "regex_unexpected_escape", "regex_expected", "regex_unescaped",
   "regex_empty_class", "regex_spaces"]

def patternCodes : List String :=
  ["regex_control_character", "regex_unexpected_escape", "regex_expected",
   "regex_expected_number", "regex_unescaped", "regex_empty_class", "regex_quantifier_bounds",
   "regex_spaces"]

theorem NamePart.within_trace (p : NamePart) : p.trace.Within Opening.name.codes := by
  simp [trace, Issue.code, Opening.codes]

theorem Name.within_remarks (c : Context) (name : Text) :
    (remarks c name).Within Opening.name.codes := by
  simp only [remarks, Trace.remarks_append, Trace.remarks_onlyIf, Trace.remarks_noteStart,
    Remark.hasCode_mk]
  exact ⟨⟨⟨fun _ => by decide, fun _ => by decide⟩, fun _ => by decide⟩,
    fun _ => by simp [Issue.code, Opening.codes]⟩

theorem NumberLiteral.within_spelling (raw : Text) :
    (spelling raw).Within Opening.number.codes := by
  unfold spelling
  split
  · simp [Issue.code, Opening.codes]
  · simp [Issue.code, Opening.codes]

def EscapeSequence.isBad : EscapeSequence → Bool
  | bad _ _ => true
  | _ => false

theorem EscapeSequence.remarks_trace {p : Remark → Prop} {onLetter : Char → List Remark}
    {onContinuation : List Remark} (hletter : ∀ c, ∀ m ∈ onLetter c, p m)
    (hline : ∀ m ∈ onContinuation, p m) (hunnecessary : p { issue := .unnecessaryEscapement })
    (s : EscapeSequence) (hbad : s.isBad → p { issue := .badEscapement }) :
    (s.trace onLetter onContinuation).Remarks p := by
  cases s with
  | lone => simp [trace]
  | continuation terminator => simpa [trace] using hline
  | char letter decoded => simpa [trace] using hletter letter
  | code letter written decoded => simpa [trace, hunnecessary] using hletter letter
  | bad letter written =>
    have hbad := hbad rfl
    simpa [trace, hbad] using hletter letter

theorem EscapeSequence.within_trace {codes : List String} {onLetter : Char → List Remark}
    {onContinuation : List Remark} (hcodes : Opening.template.codes ⊆ codes)
    (hletter : ∀ c, ∀ m ∈ onLetter c, m.HasCode codes)
    (hline : ∀ m ∈ onContinuation, m.HasCode codes) (s : EscapeSequence) :
    (s.trace onLetter onContinuation).Within codes :=
  s.remarks_trace hletter hline (hcodes (by decide)) fun _ => hcodes (by decide)

namespace StringPiece

def escapeCodes : List String :=
  ["unnecessary_escapement", "json_vertical_tab_escape", "json_hex_escape",
   "json_single_quote_escape", "eol_escapement", "json_eol_escapement"]

theorem within_onLetter (quote letter : Char) :
    ∀ m ∈ onLetter quote letter, m.HasCode escapeCodes := by
  intro m hm
  rcases List.mem_append.mp hm with hm | hm
  · obtain ⟨i, hi, rfl⟩ := List.mem_map.mp hm
    rw [Option.mem_toList] at hi
    unfold EscapeContext.issue? at hi
    split at hi
    · obtain rfl := Option.some.inj hi
      simp [Issue.code, escapeCodes]
    · obtain rfl := Option.some.inj hi
      simp [Issue.code, escapeCodes]
    · obtain rfl := Option.some.inj hi
      simp [Issue.code, escapeCodes]
    · simp at hi
  · split at hm
    · obtain rfl := List.mem_singleton.mp hm
      simp [Issue.code, escapeCodes]
    · simp at hm

theorem within_onContinuation : ∀ m ∈ onContinuation, m.HasCode escapeCodes := by
  simp [onContinuation, Issue.code, escapeCodes]

theorem remarks_traces {p : Remark → Prop} {quote : Char} {ps : List StringPiece}
    (hcontrol : ∀ before, p { issue := .controlCharacterInString before })
    (hescape : ∀ s, escape s ∈ ps → (s.trace (onLetter quote) onContinuation).Remarks p)
    (line : Text) : (traces quote line ps).Remarks p := by
  induction ps generalizing line with
  | nil => simp [traces]
  | cons piece ps ih =>
    have hps := ih fun s hs => hescape s (List.mem_cons_of_mem piece hs)
    cases piece with
    | plain c => simp [traces, hps, hcontrol]
    | escape s => simp [traces, hps, hescape s List.mem_cons_self]

theorem within_traces (quote : Char) (line : Text) (ps : List StringPiece) :
    (traces quote line ps).Within Opening.string.codes := by
  have hcodes : escapeCodes ⊆ Opening.string.codes := by decide
  refine remarks_traces (fun _ => by simp [Issue.code, Opening.codes]) (fun s _ => ?_) line
  exact s.within_trace (by decide) (fun c m hm => hcodes (within_onLetter quote c m hm))
    fun m hm => hcodes (within_onContinuation m hm)

end StringPiece

theorem TemplatePiece.within_trace (p : TemplatePiece) :
    p.trace.Within Opening.template.codes := by
  cases p with
  | escape s => exact EscapeSequence.within_trace (by simp) (by simp) (by simp) s
  | _ => simp [trace]

theorem CommentPiece.within_trace (p : CommentPiece) :
    p.trace.Within Opening.blockComment.codes := by
  cases p <;> simp [trace, Issue.code, Opening.codes]

theorem RegexEscape.within_trace (e : RegexEscape) : e.trace.Within elementCodes := by
  unfold trace
  split
  · simp
  · split <;> simp [Issue.code, elementCodes]

namespace ClassItem

theorem within_trace (slot : ClassSlot) (last : Bool) (i : ClassItem) :
    (i.trace slot last).Within elementCodes := by
  cases i with
  | hyphen => simp [trace, Issue.code, elementCodes]
  | escape e =>
    have he := e.within_trace
    simp only [trace, Trace.remarks_append]
    exact ⟨he, by simp [Issue.code, elementCodes]⟩
  | char c =>
    simp only [trace]
    split <;> simp [Issue.code, elementCodes]

theorem within_traces (closed : Bool) (slot : ClassSlot) (items : List ClassItem) :
    (traces closed slot items).Within elementCodes := by
  induction items generalizing slot with
  | nil => simp [traces, Issue.code, elementCodes]
  | cons i items ih =>
    simp only [traces, Trace.remarks_append]
    exact ⟨within_trace _ _ _, ih _⟩

end ClassItem

theorem CharacterClass.within_trace (k : CharacterClass) :
    k.trace.Within elementCodes := by
  simp only [trace, opening, Trace.remarks_append, Trace.remarks_read]
  refine ⟨?_, ClassItem.within_traces _ _ _⟩
  split <;> simp [Issue.code, elementCodes]

theorem SkippedPiece.within_trace (p : SkippedPiece) : p.trace.Within elementCodes := by
  cases p with
  | escape e => exact e.within_trace
  | char c => simp [trace]

theorem BoundsEnd.within_trace (e : BoundsEnd) : e.trace.Within elementCodes := by
  cases e with
  | closed => simp [trace]
  | broken found skipped =>
    simp only [trace, Trace.remarks_append, Trace.remarks_flatMap]
    exact ⟨by simp [Issue.code, elementCodes], fun p _ => p.within_trace⟩

theorem Quantifier.within_trace (q : Quantifier) : q.trace.Within patternCodes := by
  cases q with
  | mark c isLazy => simp [trace]
  | noNumber found => simp [trace, Issue.code, patternCodes]
  | bounds low high ending isLazy =>
    have hending : ending.trace.Within patternCodes :=
      ending.within_trace.of_subset (by decide)
    have horder : ∀ n, (order n low high).Within patternCodes := by
      intro n
      unfold order
      split <;> simp [Issue.code, patternCodes]
    simp [trace, hending, horder]

theorem GroupKind.within_trace (k : GroupKind) : k.trace.Within elementCodes := by
  cases k <;> simp [trace, Issue.code, elementCodes]

theorem RegexElement.within_trace (depth : Nat) (behindAtom : Bool) (e : RegexElement) :
    (e.trace depth behindAtom).Within elementCodes := by
  cases e with
  | escape e => exact e.within_trace
  | opening kind => simpa [trace] using kind.within_trace
  | charClass k => exact k.within_trace
  | _ => simp [trace, Issue.code, elementCodes]

theorem RegexTerm.within_traces (depth : Nat) (behindAtom : Bool) (terms : List RegexTerm) :
    (traces depth behindAtom terms).Within patternCodes := by
  induction terms generalizing depth behindAtom with
  | nil => simp [traces]
  | cons m terms ih =>
    have hq : Trace.Within patternCodes (m.quantifier.elim [] Quantifier.trace) := by
      cases m.quantifier with
      | none => simp
      | some q => exact q.within_trace
    have helement : (m.element.trace depth behindAtom).Within patternCodes :=
      (m.element.within_trace depth behindAtom).of_subset (by decide)
    simp only [traces, Trace.remarks_append]
    exact ⟨⟨helement, hq⟩, ih _ _⟩

theorem RegexFlag.within_traces (seen : List RegexFlag) (t : Text) :
    (traces seen t).Within ["regex_invalid_flag"] := by
  induction t generalizing seen with
  | nil => simp [traces]
  | cons c t ih =>
    unfold traces
    split
    · simpa using ih _
    · simpa [Issue.code] using ih _

theorem within_gap (t : Text) : (gap t).Within ["unbegun_comment"] := by
  fun_induction gap t with
  | case1 => simp
  | case2 t ih => simpa [Issue.code] using ih
  | case3 => simp
  | case4 c t _ _ ih => simpa using ih

def unclosedCodes : List String :=
  ["unclosed_string", "unclosed_regex", "unclosed_template", "unclosed_comment"]

def TokenKind.unclosedIssue? : TokenKind → Option Issue
  | string => some .unclosedString
  | regex => some .unclosedRegex
  | template => some .unclosedTemplate
  | comment => some .unclosedComment
  | _ => none

theorem TokenKind.code_of_unclosedIssue? {k : TokenKind} {i : Issue}
    (h : k.unclosedIssue? = some i) : i.code ∈ unclosedCodes := by
  cases k with
  | string | regex | template | comment =>
    obtain rfl := Option.some.inj h
    decide
  | _ => cases h

def Lexeme.cut (m : Lexeme) : Trace :=
  if m.unclosed then
    m.kind.unclosedIssue?.elim [] fun i => if m.kind = .comment then noteHere i else noteStart i
  else []

/-- A lexeme remarks at most once that it is cut off, and reads nothing behind that remark. -/
def Lexeme.Reports (codes : List String) (m : Lexeme) : Prop :=
  ∃ s s', m.trace = s ++ (m.cut ++ s') ∧ s.Within codes ∧ s'.Within codes ∧ s'.text = []

theorem Lexeme.Reports.of_closed {codes : List String} {m : Lexeme} (h : m.unclosed = false)
    (hm : m.trace.Within codes) : m.Reports codes :=
  ⟨m.trace, [], by simp [cut, h], hm, by simp, rfl⟩

namespace Lexeme

theorem Reports.remarks {p : Remark → Prop} {codes : List String} {m : Lexeme}
    (h : m.Reports codes) (hcodes : ∀ r : Remark, r.HasCode codes → p r)
    (hcut : ∀ i, m.unclosed → m.kind.unclosedIssue? = some i → p { issue := i }) :
    m.trace.Remarks p := by
  obtain ⟨s, s', htrace, hs, hs', -⟩ := h
  have hcut : m.cut.Remarks p := by
    unfold cut
    split
    · rename_i hu
      cases hi : m.kind.unclosedIssue? with
      | none => exact Trace.remarks_nil
      | some i =>
        have hp := hcut i hu hi
        by_cases hk : m.kind = .comment <;> simpa [hk] using hp
    · exact Trace.remarks_nil
  rw [htrace, Trace.remarks_append, Trace.remarks_append]
  exact ⟨hs.mono hcodes, hcut, hs'.mono hcodes⟩

theorem reports_string (quote : Char) (t : Text) :
    (string quote t).Reports Opening.string.codes := by
  obtain ⟨body, r, rfl, hb, -⟩ := string_cases quote t
  have hbody := StringPiece.within_traces quote [] (StringPiece.scan quote (body ++ r))
  refine ⟨onlyIf (quote = '\'') (noteStart .singleQuotedString .json) ++ .read quote ::
      StringPiece.traces quote [] (StringPiece.scan quote (body ++ r)) ++
      onlyIf (r.head? = some quote) [.read quote],
    onlyIf (StringLiteral.isScriptUrl
      ((StringPiece.scan quote (body ++ r)).flatMap StringPiece.decoded))
      (noteStart .scriptUrl .scripturl), ?_, ?_, ?_, ?_⟩
  · by_cases hr : r.head? = some quote
    · simp [string, cut, hb, hr]
    · simp [string, cut, hb, hr, kind, TokenValue.kind, TokenKind.unclosedIssue?]
  · simpa [Issue.code, Opening.codes] using hbody
  · simp [Issue.code, Opening.codes]
  · simp

theorem reports_regex [Primitives] (t : Text) : (regex t).Reports Opening.regex.codes := by
  have hterms : (RegexTerm.traces 0 false (RegexTerm.scan t)).Within Opening.regex.codes :=
    (RegexTerm.within_traces _ _ _).of_subset (by decide)
  have hassign : Issue.regexConfusedWithAssign.code ∈ Opening.regex.codes := by decide
  unfold regex
  dsimp only
  split
  · rename_i rest _
    have hflags : (RegexFlag.traces [] (rest.takeWhile isWordPart)).Within Opening.regex.codes :=
      (RegexFlag.within_traces _ _).of_subset (by decide)
    have hgroups : (Issue.unterminatedGroups (RegexTerm.nest 0 (RegexTerm.scan t))).code ∈
        Opening.regex.codes := by simp [Issue.code, Opening.codes]
    have hconfusing : Issue.confusingRegex.code ∈ Opening.regex.codes := by decide
    apply Reports.of_closed rfl
    simp [hterms, hassign, hflags, hgroups, hconfusing]
  · refine ⟨.read '/' :: onlyIf (t.head? = some '=') (noteStart .regexConfusedWithAssign) ++
      RegexTerm.traces 0 false (RegexTerm.scan t), [], ?_, ?_, by simp, rfl⟩
    · simp [cut, kind, TokenValue.kind, TokenKind.unclosedIssue?]
    · simp [hterms, hassign]

theorem reports_template (t : Text) : (template t).Reports Opening.template.codes := by
  refine ⟨.read '\x60' :: (TemplatePiece.scan [.template] t).1.flatMap TemplatePiece.trace, [],
    ?_, ?_, by simp, rfl⟩
  · cases hclosed : (TemplatePiece.scan [.template] t).2 with
    | true => simp [template, cut, hclosed]
    | false => simp [template, cut, hclosed, kind, TokenValue.kind, TokenKind.unclosedIssue?]
  · simpa using fun p _ => TemplatePiece.within_trace p

theorem reports_blockComment (t : Text) :
    (blockComment t).Reports Opening.blockComment.codes := by
  obtain ⟨body, r, rfl, hb, -⟩ := blockComment_cases t
  refine ⟨reads ['/', '*'] ++
    (CommentPiece.scan 0 (body ++ r)).flatMap CommentPiece.trace ++
    onlyIf (!r.isEmpty) (reads ['*', '/']), [], ?_, ?_, by simp, rfl⟩
  · simp only [blockComment, cut, hb, List.drop_left]
    cases r.isEmpty <;> simp [kind, TokenValue.kind, TokenKind.unclosedIssue?]
  · simpa using fun p _ => CommentPiece.within_trace p

theorem within_mark (c : Char) (t : Text) : (mark c t).trace.Within Opening.mark.codes := by
  unfold mark
  split
  · simp [punctuator]
  · simp [unexpected, Issue.code, Opening.codes]

theorem within_number [Primitives] (t : Text) : (number t).trace.Within Opening.number.codes := by
  have hspelling := NumberLiteral.within_spelling (NumberLiteral.extent t)
  simpa [number, Issue.code, Opening.codes] using hspelling

theorem within_name [Primitives] (context : Context) (t : Text) :
    (name context t).trace.Within Opening.name.codes := by
  simp [name, NamePart.within_trace, Name.within_remarks]

end Lexeme

/-- What is remarked on a lexeme has a code of its scanner, or says that it is cut off. -/
theorem Opening.reports_lexeme [Primitives] (context : Context) (c : Char) (t : Text)
    (o : Opening) :
    (o.lexeme context c t).Reports o.codes := by
  cases o with
  | name => exact .of_closed rfl (Lexeme.within_name context (c :: t))
  | number => exact .of_closed rfl (Lexeme.within_number (c :: t))
  | string => exact Lexeme.reports_string c t
  | template => exact Lexeme.reports_template t
  | lineComment => exact .of_closed rfl (by simp [Opening.lexeme, Lexeme.lineComment])
  | blockComment => exact Lexeme.reports_blockComment t.tail
  | regex => exact Lexeme.reports_regex t
  | mark =>
    refine .of_closed ?_ (Lexeme.within_mark c t)
    change (Lexeme.mark c t).unclosed = false
    unfold Lexeme.mark
    split <;> rfl

theorem Lexeme.remarks_scan [Primitives] {p : Remark → Prop}
    (hcodes : ∀ (o : Opening) (r : Remark), r.HasCode o.codes → p r)
    (hcut : ∀ r : Remark, r.HasCode unclosedCodes → p r) (context : Context) (t : Text) :
    (scan context t).trace.Remarks p := by
  cases t with
  | nil => exact Trace.remarks_nil
  | cons c t =>
    rw [scan, Opening.lexeme_of]
    refine (Opening.reports_lexeme context c t _).remarks (hcodes _) fun i _ hi => ?_
    exact hcut { issue := i } (TokenKind.code_of_unclosedIssue? hi)

end EcmaLex
