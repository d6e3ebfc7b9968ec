import EcmaLex.Proofs.Guarded.Lexemes
import EcmaLex.Proofs.Punctuators
import Mathlib.Data.List.Find

/-!
# Guarded dispatch

A table with an entry for each ASCII character tells what scans the lexeme that starts with it. An
entry for a punctuator lists the longer ones that start with the same character. Whatever character
a text starts with, it is looked up inside of the table, and the lexeme is the one that the text has
there.
-/

namespace EcmaLex

open Text (StandsAt)
open Trace (reads onlyIf noteStart)

namespace Guarded

inductive Handler where
  | unexpected (reported : Bool)
  | quote
  | name
  | number
  | point
  | slash
  | question
  | template
  | backslash
  /-- A character that is not ASCII. -/
  | wide
  /-- A punctuator of one character, or one of the longer ones. -/
  | punctuator (longer : List Text)
deriving DecidableEq, Repr

/-- The handlers of the ASCII characters, in stretches that end with digits and letters. -/
def dispatcher : List Handler := List.flatten
  [List.replicate 32 (.unexpected true),
   [.unexpected true, .punctuator ["!==".toList, "!=".toList], .quote, .unexpected false, .name,
    .punctuator ["%=".toList], .punctuator ["&&=".toList, "&&".toList, "&=".toList], .quote,
    .punctuator [], .punctuator [], .punctuator ["**=".toList, "**".toList, "*=".toList],
    .punctuator ["++".toList, "+=".toList], .punctuator [],
    .punctuator ["--".toList, "-=".toList], .point, .slash],
   List.replicate 10 .number,
   [.punctuator [], .punctuator [], .punctuator ["<<=".toList, "<<".toList, "<=".toList],
    .punctuator ["===".toList, "==".toList, "=>".toList],
    .punctuator [">>>=".toList, ">>>".toList, ">>=".toList, ">>".toList, ">=".toList],
    .question, .unexpected false],
   List.replicate 26 .name,
   [.punctuator [], .backslash, .punctuator [], .punctuator ["^=".toList], .name, .template],
   List.replicate 26 .name,
   [.punctuator [], .punctuator ["||=".toList, "||".toList, "|=".toList], .punctuator [],
    .punctuator [], .unexpected true]]

def handler (c : Char) : Option Handler :=
  if c.toNat < 128 then dispatcher[c.toNat]? else some .wide

section

variable (text : Text)

def punctuator (n : Nat) (t : Text) (longer : List Text) : Option Lexeme := do
  let length := ((longer.find? (·.isPrefixOf t)).map List.length).getD 1
  let read : Text := t.take length
  let name ← text.slice? n (n + read.utf8Size)
  return { value := .punctuator name, trace := reads read }

def unexpected (n : Nat) (c : Char) (reported : Bool) : Option Lexeme := do
  let name ← text.slice? n (n + c.utf8Size)
  return {
    value := .punctuator name
    malformed := true
    trace := .read c :: onlyIf reported (noteStart (.unexpectedCharacter c)) }

def Handler.lexeme [Primitives] (context : Context) (n : Nat) (c : Char) (t : Text) :
    Handler → Option Lexeme
  | unexpected reported => Guarded.unexpected text n c reported
  | quote => string text c (n + 1) t
  | name => Guarded.name text context n (c :: t)
  | number => Guarded.number text n (c :: t)
  | point =>
    if t.head?.any Char.isDigit then Guarded.number text n (c :: t)
    else Guarded.punctuator text n (c :: t) ["...".toList]
  | slash =>
    if t.head? = some '/' then lineComment text (n + 2) t.tail
    else if t.head? = some '*' then blockComment text (n + 2) t.tail
    else if context.regexAllowed then regex text (n + 1) t
    else Guarded.punctuator text n (c :: t) ["/=".toList]
  | question =>
    if Punctuator.isConditional (c :: t) then Guarded.punctuator text n (c :: t) []
    else Guarded.punctuator text n (c :: t) ["??=".toList, "??".toList, "?.".toList]
  | template => Guarded.template text (n + 1) t
  | backslash =>
    if t.head? = some 'u' then Guarded.name text context n (c :: t)
    else Guarded.unexpected text n c true
  | wide =>
    if isWordStart c then Guarded.name text context n (c :: t)
    else Guarded.unexpected text n c true
  | punctuator longer => Guarded.punctuator text n (c :: t) longer

/-- The lexeme at an offset, at which the text goes on with `t`. -/
def lexeme [Primitives] (context : Context) (n : Nat) : Text → Option Lexeme
  | [] => some .eof
  | c :: t => do
    let handler ← handler c
    handler.lexeme text context n c t

end

variable {text : Text} {n : Nat} {t : Text} {c : Char}

def marks (c : Char) : List Text := Punctuator.table.filter (·.head? = some c)

/-- Only the entries that start with the same character are looked through. -/
theorem find?_table (c : Char) (t : Text) :
    Punctuator.table.find? (·.isPrefixOf (c :: t)) = (marks c).find? (·.isPrefixOf (c :: t)) := by
  have hne : ∀ p ∈ Punctuator.table, p ≠ [] := by decide
  rw [marks, List.find?_filter]
  refine List.find?_congr fun p hp => ?_
  obtain ⟨d, r, rfl⟩ := List.exists_cons_of_ne_nil (hne p hp)
  rw [Bool.eq_iff_iff]
  simp only [decide_eq_true_eq, List.head?_cons, Option.some.injEq]
  rw [List.isPrefixOf_iff_prefix]
  constructor
  · intro h
    exact ⟨(List.cons_prefix_cons.mp h).1, h⟩
  · exact And.right

theorem punctuator_of_scan? (h : StandsAt text n (c :: t)) {longer : List Text} {p : Text}
    (hp : Punctuator.scan? (c :: t) = some p)
    (hlength : ((longer.find? (·.isPrefixOf (c :: t))).map List.length).getD 1 = p.length) :
    punctuator text n (c :: t) longer = some (Lexeme.mark c t) := by
  have hprefix := Punctuator.scan?_prefix hp
  have htake : (c :: t).take p.length = p := (List.prefix_iff_eq_take.mp hprefix).symm
  simp only [punctuator, hlength, htake, h.slice?_of_prefix hprefix, Lexeme.mark, hp]
  rfl

/-- Which entry of a list starts a text does not depend on the order of entries of one length. -/
theorem find?_isPrefixOf_congr {ps qs : List Text}
    (hps : ps.Pairwise fun p q => q.length ≤ p.length)
    (hqs : qs.Pairwise fun p q => q.length ≤ p.length) (hmem : ∀ p, p ∈ ps ↔ p ∈ qs) (t : Text) :
    ps.find? (·.isPrefixOf t) = qs.find? (·.isPrefixOf t) := by
  cases hp : ps.find? (·.isPrefixOf t) with
  | none =>
    refine (List.find?_eq_none.mpr fun q hq => ?_).symm
    exact List.find?_eq_none.mp hp q ((hmem q).mpr hq)
  | some p =>
    have hps' := List.mem_of_find?_eq_some hp
    have hstarts := List.find?_some hp
    have hprefix := List.isPrefixOf_iff_prefix.mp hstarts
    cases hq : qs.find? (·.isPrefixOf t) with
    | none =>
      have hnone := List.find?_eq_none.mp hq p ((hmem p).mp hps')
      exact absurd hstarts hnone
    | some q =>
      have hqs' := List.mem_of_find?_eq_some hq
      have hstarts' := List.find?_some hq
      have hprefix' := List.isPrefixOf_iff_prefix.mp hstarts'
      have hle := Punctuator.length_le_of_find? hps hp ((hmem q).mpr hqs') hprefix'
      have hle' := Punctuator.length_le_of_find? hqs hq ((hmem p).mp hps') hprefix
      have heq : p <+: q := List.prefix_of_prefix_length_le hprefix hprefix' hle'
      rw [heq.eq_of_length (by omega)]

structure Lists (c : Char) (longer : List Text) : Prop where
  sorted : (longer ++ [[c]]).Pairwise fun p q => q.length ≤ p.length
  perm : (marks c).Perm (longer ++ [[c]])

instance (c : Char) (longer : List Text) : Decidable (Lists c longer) :=
  decidable_of_iff
    ((longer ++ [[c]]).Pairwise (fun p q => q.length ≤ p.length) ∧
      (marks c).Perm (longer ++ [[c]]))
    ⟨fun h => ⟨h.1, h.2⟩, fun h => ⟨h.sorted, h.perm⟩⟩

theorem Lists.find?_eq {longer : List Text} (hc : Lists c longer) (t : Text) :
    Punctuator.table.find? (·.isPrefixOf (c :: t)) =
      (longer.find? (·.isPrefixOf (c :: t))).or (some [c]) := by
  have hone : [[c]].find? (·.isPrefixOf (c :: t)) = some [c] := by simp
  have hmarks : (marks c).Pairwise fun p q => q.length ≤ p.length :=
    Punctuator.pairwise_table.filter _
  rw [find?_table, find?_isPrefixOf_congr hmarks hc.sorted (fun p => hc.perm.mem_iff),
    List.find?_append, hone]

theorem not_isConditional (hc : c ≠ '?') (t : Text) :
    Punctuator.isConditional (c :: t) = false := by
  rw [Bool.eq_false_iff]
  intro hq
  obtain ⟨d, r, heq, -⟩ := Punctuator.isConditional_iff.mp hq
  exact hc (List.cons.inj heq).1

theorem punctuator_eq (h : StandsAt text n (c :: t)) {longer : List Text} (hc : Lists c longer)
    (hq : Punctuator.isConditional (c :: t) = false) :
    punctuator text n (c :: t) longer = some (Lexeme.mark c t) := by
  have hscan := hc.find?_eq t
  have htable : Punctuator.scan? (c :: t) =
      Punctuator.table.find? (·.isPrefixOf (c :: t)) := if_neg (by simp [hq])
  rw [← htable] at hscan
  cases hlonger : longer.find? (·.isPrefixOf (c :: t)) with
  | none =>
    rw [hlonger, Option.none_or] at hscan
    exact punctuator_of_scan? h hscan (by rw [hlonger]; rfl)
  | some p =>
    rw [hlonger, Option.some_or] at hscan
    exact punctuator_of_scan? h hscan (by rw [hlonger]; rfl)

theorem unexpected_eq (h : StandsAt text n (c :: t)) (hc : marks c = []) :
    unexpected text n c (c ≠ '#' && c ≠ '@') = some (Lexeme.mark c t) := by
  have hslice : text.slice? n (n + c.utf8Size) = some [c] := StandsAt.slice?_eq (w := [c]) h
  have hquestion : c ≠ '?' := by
    rintro rfl
    exact absurd hc (by decide)
  have hscan : Punctuator.scan? (c :: t) = none := by
    rw [Punctuator.scan?, if_neg (by simp [not_isConditional hquestion]), find?_table, hc,
      List.find?_nil]
  simp only [unexpected, hslice, Lexeme.mark, hscan]
  rfl

def isPlain (starts : Bool) (c : Char) : Bool :=
  !starts && !c.isDigit && decide (c ∉ ['\\', '.', '"', '\'', '\x60', '/'])

def Handler.serves (starts : Bool) (c : Char) : Handler → Bool
  | unexpected reported => isPlain starts c && marks c = [] && reported = (c ≠ '#' && c ≠ '@')
  | quote => c = '"' || c = '\''
  | name => starts
  | number => c.isDigit
  | point => c = '.'
  | slash => c = '/'
  | question => c = '?'
  | template => c = '\x60'
  | backslash => c = '\\'
  | wide => isPlain starts c && marks c = [] && (c ≠ '#' && c ≠ '@') || starts
  | punctuator longer => isPlain starts c && c ≠ '?' && Lists c longer

theorem serves_dispatcher : ∀ k < 128, dispatcher[k]?.any fun handler =>
    handler.serves (Char.ofNat k = '$' || Char.ofNat k = '_' || (Char.ofNat k).isAlpha)
      (Char.ofNat k) := by
  decide +kernel

/-- A character that is not ASCII is no digit, and no punctuator starts with it. -/
theorem serves_wide [Primitives] (hc : ¬ c.toNat < 128) :
    Handler.wide.serves (isWordStart c) c := by
  have hne : ∀ d : Char, d.toNat < 128 → c ≠ d := by
    rintro d hd rfl
    exact hc hd
  have hdigit : c.isDigit = false := by
    rw [Bool.eq_false_iff]
    intro hd
    simp only [Char.isDigit, Bool.and_eq_true, decide_eq_true_eq, UInt32.le_iff_toNat_le] at hd
    exact hc (Nat.lt_of_le_of_lt hd.2 (by decide))
  have hmarks : marks c = [] := by
    have hascii : ∀ p ∈ Punctuator.table, p.head?.any (·.toNat < 128) := by decide
    rw [marks, List.filter_eq_nil_iff]
    intro p hp hhead
    have hp' := hascii p hp
    rw [of_decide_eq_true hhead] at hp'
    exact hc (of_decide_eq_true hp')
  have hopens : c ∉ ['\\', '.', '"', '\'', '\x60', '/'] := by
    intro hmem
    have hascii : ∀ d ∈ ['\\', '.', '"', '\'', '\x60', '/'], d.toNat < 128 := by simp
    exact hc (hascii c hmem)
  cases hword : isWordStart c with
  | true => simp [Handler.serves]
  | false =>
    simp [Handler.serves, isPlain, hdigit, hmarks, hopens, hne '#' (by decide),
      hne '@' (by decide)]

theorem exists_handler [UnicodePrimitives] (c : Char) :
    ∃ f, handler c = some f ∧ f.serves (isWordStart c) c := by
  by_cases hc : c.toNat < 128
  · have hserves := serves_dispatcher c.toNat hc
    rw [Char.ofNat_toNat, ← isWordStart_ascii hc] at hserves
    obtain ⟨f, hf, hfc⟩ := (Option.any_eq_true _ _).mp hserves
    exact ⟨f, (if_pos hc).trans hf, hfc⟩
  · exact ⟨.wide, if_neg hc, serves_wide hc⟩

/-- A number starts with a digit, or with a point and a digit. -/
theorem scanCons_number [UnicodePrimitives] (context : Context)
    (hc : c.isDigit ∨ c = '.' ∧ t.head?.any Char.isDigit) :
    NumberLiteral.begins (c :: t) ∧
      Lexeme.scanCons context c t = Lexeme.number (c :: t) := by
  have hnumber : NumberLiteral.begins (c :: t) := by
    rw [Opening.begins_number_iff]
    rcases hc with hc | ⟨hc, ht⟩
    · exact .inr hc
    · exact .inl ⟨hc, (Option.any_eq_true _ _).mp ht⟩
  have hname : ¬ Name.begins (c :: t) := by
    rw [Opening.begins_name_iff]
    rintro (⟨rfl, -⟩ | hword)
    · rcases hc with hc | ⟨hc, -⟩
      · exact absurd hc (by decide)
      · exact absurd hc (by decide)
    · rcases hc with hc | ⟨rfl, -⟩
      · simp [isDigit_of_isWordStart hword] at hc
      · simp [isWordStart_of_isAsciiMark (c := '.') (by decide)] at hword
  exact ⟨hnumber, by rw [Lexeme.scanCons, if_neg hname, if_pos hnumber]⟩

/-- What starts neither a name nor a number is told by its first two characters. -/
theorem scanCons_of_not_begins [Primitives] (context : Context) (hword : isWordStart c = false)
    (hdigit : c.isDigit = false) (hescape : ¬ (c = '\\' ∧ t.head? = some 'u'))
    (hpoint : ¬ (c = '.' ∧ t.head?.any Char.isDigit)) :
    Lexeme.scanCons context c t =
      if c = '"' ∨ c = '\'' then Lexeme.string c t
      else if c = '\x60' then Lexeme.template t
      else if c = '/' ∧ t.head? = some '/' then Lexeme.lineComment t.tail
      else if c = '/' ∧ t.head? = some '*' then Lexeme.blockComment t.tail
      else if c = '/' ∧ context.regexAllowed then Lexeme.regex t
      else Lexeme.mark c t := by
  have hname : ¬ Name.begins (c :: t) := by
    rw [Opening.begins_name_iff]
    simp [hescape, hword]
  have hnumber : ¬ NumberLiteral.begins (c :: t) := by
    rw [Opening.begins_number_iff]
    rintro (⟨hc, hd⟩ | hc)
    · exact hpoint ⟨hc, (Option.any_eq_true _ _).mpr hd⟩
    · simp [hdigit] at hc
  simp only [Lexeme.scanCons, if_neg hname, if_neg hnumber, Bool.or_eq_true, Bool.and_eq_true,
    decide_eq_true_eq]

theorem scanCons_of_isPlain [Primitives] (context : Context) (hc : isPlain (isWordStart c) c)
    (t : Text) :
    Lexeme.scanCons context c t = Lexeme.mark c t := by
  simp only [isPlain, Bool.and_eq_true, Bool.not_eq_true', decide_eq_true_eq, List.mem_cons,
    List.not_mem_nil, or_false, not_or] at hc
  obtain ⟨⟨hword, hdigit⟩, hescape, hpoint, hdouble, hsingle, hbacktick, hslash⟩ := hc
  rw [scanCons_of_not_begins context hword hdigit (by simp [hescape]) (by simp [hpoint])]
  simp [hdouble, hsingle, hbacktick, hslash]

namespace Handler

theorem lexeme_quote [UnicodePrimitives] (h : StandsAt text n (c :: t)) (context : Context)
    (hc : c = '"' ∨ c = '\'') :
    quote.lexeme text context n c t = some (Lexeme.scanCons context c t) := by
  have hbehind : StandsAt text (n + 1) t := by
    rcases hc with rfl | rfl
    · exact h.behind_cons
    · exact h.behind_cons
  have hplain : isAsciiMark c ∧ c.isDigit = false ∧ c ≠ '\\' ∧ c ≠ '.' := by
    rcases hc with rfl | rfl
    · decide
    · decide
  obtain ⟨hmark, hdigit, hescape, hpoint⟩ := hplain
  rw [scanCons_of_not_begins context (isWordStart_of_isAsciiMark hmark) hdigit
    (by simp [hescape]) (by simp [hpoint]), if_pos hc]
  exact string_eq hbehind c

theorem lexeme_name [Primitives] (h : StandsAt text n (c :: t)) (context : Context)
    (hc : isWordStart c) :
    name.lexeme text context n c t = some (Lexeme.scanCons context c t) := by
  rw [Lexeme.scanCons, if_pos ((Opening.begins_name_iff c t).mpr (.inr hc))]
  exact name_eq h context

theorem lexeme_number [UnicodePrimitives] (h : StandsAt text n (c :: t)) (context : Context)
    (hc : c.isDigit) :
    number.lexeme text context n c t = some (Lexeme.scanCons context c t) := by
  obtain ⟨hnumber, hscan⟩ := scanCons_number (t := t) context (.inl hc)
  rw [hscan]
  exact number_eq h hnumber

/-- A point starts a number if a digit follows. -/
theorem lexeme_point [UnicodePrimitives] (h : StandsAt text n ('.' :: t)) (context : Context) :
    point.lexeme text context n '.' t = some (Lexeme.scanCons context '.' t) := by
  by_cases hd : t.head?.any Char.isDigit
  · obtain ⟨hnumber, hscan⟩ := scanCons_number context (.inr ⟨rfl, hd⟩)
    rw [hscan, lexeme, if_pos hd]
    exact number_eq h hnumber
  · have hscan := scanCons_of_not_begins (c := '.') (t := t) context
      (isWordStart_of_isAsciiMark (by decide)) (by decide) (by simp) (by simpa using hd)
    rw [hscan, lexeme, if_neg hd]
    exact punctuator_eq h (by decide) (not_isConditional (by decide) t)

/-- A slash opens a comment or, where one is allowed, a regular expression. -/
theorem lexeme_slash [UnicodePrimitives] (h : StandsAt text n ('/' :: t)) (context : Context) :
    slash.lexeme text context n '/' t = some (Lexeme.scanCons context '/' t) := by
  have hbehind : StandsAt text (n + 1) t := h.behind_cons
  rw [scanCons_of_not_begins context (isWordStart_of_isAsciiMark (by decide)) (by decide) (by simp)
    (by simp), lexeme]
  by_cases hline : t.head? = some '/'
  · obtain ⟨u, rfl⟩ := List.head?_eq_some_iff.mp hline
    exact lineComment_eq hbehind.behind_cons
  by_cases hblock : t.head? = some '*'
  · obtain ⟨u, rfl⟩ := List.head?_eq_some_iff.mp hblock
    exact blockComment_eq hbehind.behind_cons
  by_cases hregex : context.regexAllowed
  · simp only [hline, hblock, hregex]
    exact regex_eq hbehind
  · simp only [hline, hblock, hregex]
    exact punctuator_eq h (by decide) (not_isConditional (by decide) t)

theorem lexeme_question [UnicodePrimitives] (h : StandsAt text n ('?' :: t)) (context : Context) :
    question.lexeme text context n '?' t = some (Lexeme.scanCons context '?' t) := by
  have hplain : isPlain (isWordStart '?') '?' := by
    rw [isWordStart_of_isAsciiMark (by decide)]
    decide
  rw [scanCons_of_isPlain context hplain, lexeme]
  by_cases hq : Punctuator.isConditional ('?' :: t)
  · rw [if_pos hq]
    exact punctuator_of_scan? h (if_pos hq) rfl
  · rw [if_neg hq]
    exact punctuator_eq h (by decide) (by simpa using hq)

theorem lexeme_template [UnicodePrimitives] (h : StandsAt text n ('\x60' :: t))
    (context : Context) :
    template.lexeme text context n '\x60' t = some (Lexeme.scanCons context '\x60' t) := by
  have hbehind : StandsAt text (n + 1) t := h.behind_cons
  rw [scanCons_of_not_begins context (isWordStart_of_isAsciiMark (by decide)) (by decide) (by simp)
    (by simp)]
  exact template_eq hbehind

/-- A backslash starts a name if the letter of a Unicode escape follows. -/
theorem lexeme_backslash [UnicodePrimitives] (h : StandsAt text n ('\\' :: t)) (context : Context) :
    backslash.lexeme text context n '\\' t = some (Lexeme.scanCons context '\\' t) := by
  by_cases hu : t.head? = some 'u'
  · have hname : Name.begins ('\\' :: t) := (Opening.begins_name_iff _ t).mpr (.inl ⟨rfl, hu⟩)
    rw [Lexeme.scanCons, if_pos hname, lexeme, if_pos hu]
    exact name_eq h context
  · have hscan := scanCons_of_not_begins (c := '\\') (t := t) context
      (isWordStart_of_isAsciiMark (by decide))
      (by decide) (by simpa using hu) (by simp)
    rw [hscan, lexeme, if_neg hu]
    exact unexpected_eq h (by decide)

/-- Every handler reads what starts with one of its characters. -/
theorem lexeme_eq [UnicodePrimitives] (h : StandsAt text n (c :: t)) (context : Context)
    {f : Handler}
    (hf : f.serves (isWordStart c) c) :
    f.lexeme text context n c t = some (Lexeme.scanCons context c t) := by
  cases f with
  | unexpected reported =>
    simp only [serves, Bool.and_eq_true, decide_eq_true_eq] at hf
    obtain ⟨⟨hplain, hmarks⟩, rfl⟩ := hf
    rw [scanCons_of_isPlain context hplain]
    exact unexpected_eq h hmarks
  | quote => exact lexeme_quote h context (by simpa [serves] using hf)
  | name => exact lexeme_name h context hf
  | number => exact lexeme_number h context hf
  | point =>
    obtain rfl : c = '.' := of_decide_eq_true hf
    exact lexeme_point h context
  | slash =>
    obtain rfl : c = '/' := of_decide_eq_true hf
    exact lexeme_slash h context
  | question =>
    obtain rfl : c = '?' := of_decide_eq_true hf
    exact lexeme_question h context
  | template =>
    obtain rfl : c = '\x60' := of_decide_eq_true hf
    exact lexeme_template h context
  | backslash =>
    obtain rfl : c = '\\' := of_decide_eq_true hf
    exact lexeme_backslash h context
  | wide =>
    by_cases hword : isWordStart c
    · rw [lexeme, if_pos hword]
      exact lexeme_name h context hword
    · have hplain : (isPlain (isWordStart c) c ∧ marks c = []) ∧ c ≠ '#' ∧ c ≠ '@' := by
        simpa [serves, hword] using hf
      obtain ⟨⟨hplain, hmarks⟩, hreported⟩ := hplain
      rw [lexeme, if_neg hword, scanCons_of_isPlain context hplain, ← unexpected_eq h hmarks]
      simp [hreported]
  | punctuator longer =>
    simp only [serves, Bool.and_eq_true, decide_eq_true_eq] at hf
    obtain ⟨⟨hplain, hquestion⟩, hlists⟩ := hf
    rw [scanCons_of_isPlain context hplain]
    exact punctuator_eq h hlists (not_isConditional hquestion t)

end Handler

theorem lexeme_eq [UnicodePrimitives] (h : StandsAt text n t) (context : Context) :
    lexeme text context n t = some (Lexeme.scan context t) := by
  cases t with
  | nil => rfl
  | cons c t =>
    obtain ⟨f, hf, hserves⟩ := exists_handler c
    rw [lexeme, hf]
    exact f.lexeme_eq h context hserves

end Guarded

end EcmaLex
