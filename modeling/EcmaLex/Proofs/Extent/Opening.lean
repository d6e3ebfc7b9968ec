import EcmaLex.Lexeme.Scan
import EcmaLex.Proofs.Extent.Comment
import EcmaLex.Proofs.Extent.Number
import EcmaLex.Proofs.Extent.Punctuator
import EcmaLex.Proofs.Extent.Regex
import EcmaLex.Proofs.Extent.StringLiteral
import EcmaLex.Proofs.Extent.Template

/-!
# What opens a lexeme

The first two characters of a text tell what scans it. Where the second one matters, the lexeme
takes it up, so that what opens a lexeme does not change with what stands behind it.
-/

namespace EcmaLex

open Text (Echoes isOpen isOpen_of_pos)

inductive Opening where
  | name
  | number
  | string
  | template
  | lineComment
  | blockComment
  | regex
  | mark
deriving DecidableEq, Repr

namespace Opening

def of [Primitives] (regexAllowed : Bool) (c : Char) (t : Text) : Opening :=
  if Name.begins (c :: t) then name
  else if NumberLiteral.begins (c :: t) then number
  else if c = '"' || c = '\'' then string
  else if c = '\x60' then template
  else if c = '/' && t.head? = some '/' then lineComment
  else if c = '/' && t.head? = some '*' then blockComment
  else if c = '/' && regexAllowed then regex
  else mark

def lexeme [Primitives] (context : Context) (c : Char) (t : Text) : Opening → Lexeme
  | name => Lexeme.name context (c :: t)
  | number => Lexeme.number (c :: t)
  | string => Lexeme.string c t
  | template => Lexeme.template t
  | lineComment => Lexeme.lineComment t.tail
  | blockComment => Lexeme.blockComment t.tail
  | regex => Lexeme.regex t
  | mark => Lexeme.mark c t

def Fits [Primitives] (c : Char) (t : Text) : Opening → Prop
  | name => Name.begins (c :: t)
  | number => NumberLiteral.begins (c :: t)
  | string => c = '"' ∨ c = '\''
  | template => c = '\x60'
  | lineComment => c = '/' ∧ t.head? = some '/'
  | blockComment => c = '/' ∧ t.head? = some '*'
  | regex => c = '/'
  | mark => True

theorem fits_of [Primitives] (regexAllowed : Bool) (c : Char) (t : Text) :
    (of regexAllowed c t).Fits c t := by
  unfold of
  split
  · assumption
  split
  · assumption
  split
  · rename_i h
    simpa [Fits] using h
  split
  · assumption
  split
  · rename_i h
    simpa [Fits] using h
  split
  · rename_i h
    simpa [Fits] using h
  split
  · rename_i h
    simp only [Bool.and_eq_true, decide_eq_true_eq] at h
    exact h.1
  · trivial

theorem lexeme_of [Primitives] (context : Context) (c : Char) (t : Text) :
    Lexeme.scanCons context c t = (of context.regexAllowed c t).lexeme context c t := by
  unfold Lexeme.scanCons of
  split
  · rfl
  split
  · rfl
  split
  · rfl
  split
  · rfl
  split
  · rfl
  split
  · rfl
  split
  · rfl
  · rfl

def kinds : Opening → List TokenKind
  | name => [.identifier, .keyword]
  | number => [.number]
  | string => [.string]
  | template => [.template]
  | lineComment | blockComment => [.comment]
  | regex => [.regex]
  | mark => [.punctuator]

theorem kind_mem_kinds [Primitives] (context : Context) (c : Char) (t : Text) (o : Opening) :
    (o.lexeme context c t).kind ∈ o.kinds := by
  cases o with
  | name =>
    simp only [lexeme, Lexeme.kind, Lexeme.name]
    split <;> simp [TokenValue.kind, kinds]
  | regex =>
    simp only [lexeme, Lexeme.kind, Lexeme.regex]
    split <;> simp [TokenValue.kind, kinds]
  | mark =>
    simp only [lexeme, Lexeme.mark]
    split <;> simp [Lexeme.kind, Lexeme.punctuator, Lexeme.unexpected, TokenValue.kind, kinds]
  | _ => exact List.mem_singleton_self _

/-- Anything but the end of the text is scanned as it starts. -/
theorem exists_of_kind [Primitives] {context : Context} {t : Text}
    (h : (Lexeme.scan context t).kind ≠ .eof) :
    ∃ (o : Opening) (c : Char) (u : Text), t = c :: u ∧
      Lexeme.scan context t = o.lexeme context c u ∧ o.Fits c u ∧
      (Lexeme.scan context t).kind ∈ o.kinds := by
  cases t with
  | nil => exact absurd rfl h
  | cons c u =>
    have hscan : Lexeme.scan context (c :: u) =
        (of context.regexAllowed c u).lexeme context c u := lexeme_of context c u
    exact ⟨_, c, u, rfl, hscan, fits_of _ c u, hscan ▸ kind_mem_kinds context c u _⟩

def isPair (c d : Char) : Bool :=
  c = '\\' && d = 'u' || c = '.' && d.isDigit || c = '/' && (d = '/' || d = '*')

theorem isOpen_of_isPair {c d : Char} (h : isPair c d) : isOpen d :=
  isOpen_of_pos (p := isPair c) (by simp [isPair]) (by simp [isPair]) (by simp [isPair]) h

theorem begins_name_iff [Primitives] (c : Char) (t : Text) :
    Name.begins (c :: t) ↔ c = '\\' ∧ t.head? = some 'u' ∨ isWordStart c := by
  constructor
  · intro h
    unfold Name.begins at h
    split at h
    · rename_i heq
      obtain ⟨rfl, rfl⟩ := List.cons.inj heq
      exact .inl ⟨rfl, rfl⟩
    · rename_i heq
      obtain ⟨rfl, rfl⟩ := List.cons.inj heq
      exact .inr h
    · simp at h
  · rintro (⟨rfl, ht⟩ | hc)
    · obtain ⟨t, rfl⟩ := List.head?_eq_some_iff.mp ht
      rfl
    · unfold Name.begins
      split <;> simp_all

theorem begins_number_iff (c : Char) (t : Text) :
    NumberLiteral.begins (c :: t) ↔ (c = '.' ∧ ∃ d, t.head? = some d ∧ d.isDigit) ∨ c.isDigit := by
  cases t with
  | nil =>
    by_cases hc : c = '.'
    · subst hc
      simp [NumberLiteral.begins]
    · simp [NumberLiteral.begins]
  | cons d t =>
    by_cases hc : c = '.'
    · subst hc
      simp [NumberLiteral.begins]
    · simp [NumberLiteral.begins, hc]

theorem of_of_ne_slash [Primitives] {c : Char} (hc : c ≠ '/') (b b' : Bool) (t : Text) :
    of b c t = of b' c t := by
  simp [of, hc]

theorem of_slash [UnicodePrimitives] (b : Bool) (t : Text) :
    of b '/' t = if t.head? = some '/' then lineComment
      else if t.head? = some '*' then blockComment else if b then regex else mark := by
  have hword : isWordStart '/' = false := isWordStart_of_isAsciiMark (by decide)
  have hname : ¬ Name.begins ('/' :: t) := by simp [begins_name_iff, hword]
  have hnumber : ¬ NumberLiteral.begins ('/' :: t) := by simp [begins_number_iff]
  rw [of, if_neg hname, if_neg hnumber]
  simp

/-- Only the pairs that open a lexeme tell the openings of two texts apart. -/
theorem of_congr [Primitives] {c : Char} {t t' : Text}
    (h : ∀ d, isPair c d → (t.head? = some d ↔ t'.head? = some d)) (regexAllowed : Bool) :
    of regexAllowed c t = of regexAllowed c t' := by
  have hname : Name.begins (c :: t) = Name.begins (c :: t') := by
    rw [Bool.eq_iff_iff, begins_name_iff, begins_name_iff]
    apply or_congr_left
    apply and_congr_right
    rintro rfl
    exact h 'u' (by decide)
  have hnumber : NumberLiteral.begins (c :: t) = NumberLiteral.begins (c :: t') := by
    rw [Bool.eq_iff_iff, begins_number_iff, begins_number_iff]
    apply or_congr_left
    apply and_congr_right
    rintro rfl
    apply exists_congr
    intro d
    apply and_congr_left
    intro hd
    exact h d (by simp [isPair, hd])
  have hline : (c = '/' && t.head? = some '/') = (c = '/' && t'.head? = some '/') := by
    rw [Bool.eq_iff_iff]
    simp only [Bool.and_eq_true, decide_eq_true_eq]
    apply and_congr_right
    rintro rfl
    exact h '/' (by decide)
  have hblock : (c = '/' && t.head? = some '*') = (c = '/' && t'.head? = some '*') := by
    rw [Bool.eq_iff_iff]
    simp only [Bool.and_eq_true, decide_eq_true_eq]
    apply and_congr_right
    rintro rfl
    exact h '*' (by decide)
  simp only [of, hname, hnumber, hline, hblock]

/-- A lexeme takes up the pair that opens it. -/
theorem raw_ne_singleton_of_isPair [UnicodePrimitives] (context : Context) {c d : Char}
    (h : isPair c d) (t : Text) :
    (Lexeme.scanCons context c (d :: t)).raw ≠ [c] := by
  simp only [isPair, Bool.or_eq_true, Bool.and_eq_true, decide_eq_true_eq] at h
  rcases h with (⟨rfl, rfl⟩ | ⟨rfl, hd⟩) | ⟨rfl, hd⟩
  · have hgo := NamePart.pieceScan.go (s := false) (c := '\\') (t := 'u' :: t) rfl
    rw [Lexeme.scanCons, if_pos (by rfl), Lexeme.raw_name, hgo, List.flatMap_cons,
      NamePart.step_escape, NamePart.raw_ofEscape]
    simp
  · have hw : isWordStart '.' = false := isWordStart_of_isAsciiMark (by decide)
    have hname : ¬ Name.begins ('.' :: d :: t) := by simp [begins_name_iff, hw]
    have hnumber : NumberLiteral.begins ('.' :: d :: t) := hd
    rw [Lexeme.scanCons, if_neg hname, if_pos hnumber, Lexeme.raw_number]
    simp [NumberLiteral.extent, NumberForm.announced?, NumberLiteral.fraction, hd]
  · have hw : isWordStart '/' = false := isWordStart_of_isAsciiMark (by decide)
    have hname : ¬ Name.begins ('/' :: d :: t) := by simp [begins_name_iff, hw]
    have hnumber : ¬ NumberLiteral.begins ('/' :: d :: t) := by simp [begins_number_iff]
    rw [Lexeme.scanCons, if_neg hname, if_neg hnumber]
    rcases hd with rfl | rfl
    · simp [Lexeme.raw_lineComment]
    · simp [Lexeme.raw_blockComment]

theorem of_resume [UnicodePrimitives] (context : Context) {c : Char} {a u v : Text}
    (ha : (Lexeme.scanCons context c (a ++ u)).raw = c :: a) (h : Echoes v u)
    (regexAllowed : Bool) : of regexAllowed c (a ++ v) = of regexAllowed c (a ++ u) := by
  apply of_congr
  intro d hd
  cases a with
  | cons e a => rfl
  | nil =>
    constructor
    · exact fun hv => h.head? hv (isOpen_of_isPair hd)
    · intro hu
      obtain ⟨u, rfl⟩ := List.head?_eq_some_iff.mp hu
      exact absurd ha (raw_ne_singleton_of_isPair context hd u)

end Opening

end EcmaLex
