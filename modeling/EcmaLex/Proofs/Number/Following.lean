import EcmaLex.Primitives.Standard
import EcmaLex.Proofs.Number.Digits
import EcmaLex.Proofs.Number.Grammar

/-!
# What follows numeric literals

A number that a letter runs into is reported, and so is one before a backslash. A digit cannot
follow a number, unless it is none of the radix: then it is the next number.
-/

namespace EcmaLex

open Trace (onlyIf noteStart reads)

namespace NumberLiteral

variable {t : Text} {d : Char}

theorem IsDigits.concat (h : IsDigits t) (hd : d.isDigit) : IsDigits (t ++ [d]) where
  nonempty := by simp
  digits := List.forall_mem_append.mpr ⟨h.digits, by simpa using hd⟩

/-- A decimal literal goes on with any digit, and one with a radix with those of the radix. -/
theorem IsLiteral.concat (h : IsLiteral t) (hd : d.isDigit) : IsLiteral (t ++ [d]) ∨
    ∃ form, NumberForm.announced? t = some form ∧ (form = .binary ∨ form = .octal) ∧
      isDigitOf form.radix d = false := by
  cases h with
  | @radix c form ds hc hds =>
    by_cases hform : isDigitOf form.radix d
    · refine .inl (@IsLiteral.radix c form (ds ++ [d]) hc ?_)
      exact List.forall_mem_append.mpr ⟨hds, by simpa using hform⟩
    · have hhex : form ≠ .hex := by
        rintro rfl
        exact hform (isDigitOf_of_isDigit (by decide) hd)
      have hannounced : NumberForm.announced? ('0' :: c :: ds) = some form :=
        ofLetter?_eq_some_iff.mpr hc
      exact .inr ⟨form, hannounced, (forms_of_radixLetters hc).resolve_left hhex,
        by simpa using hform⟩
  | @decimal m i f e n hm he =>
    left
    cases he with
    | absent =>
      rw [List.append_nil]
      cases hm with
      | whole hi => simpa using IsLiteral.decimal (.whole (hi.concat hd)) .absent
      | @pointed i f hi hf =>
        have hdigits : ∀ c ∈ f ++ [d], c.isDigit :=
          List.forall_mem_append.mpr ⟨hf, by simpa using hd⟩
        simpa using IsLiteral.decimal (.pointed hi hdigits) .absent
      | fractional hf => simpa using IsLiteral.decimal (.fractional (hf.concat hd)) .absent
    | written hc hs hds => simpa using IsLiteral.decimal hm (.written hc hs (hds.concat hd))

theorem announced?_of_digit {r : Text} (hs : Starts t) (ht : t = extent t ++ d :: r)
    (hd : d.isDigit) : ∃ form, NumberForm.announced? (extent t) = some form ∧
      (form = .binary ∨ form = .octal) ∧ isDigitOf form.radix d = false := by
  refine ((isLiteral_extent hs).concat hd).resolve_left fun hlonger => ?_
  have hprefix : extent t ++ [d] <+: t := ⟨r, by rw [List.append_assoc]; exact ht.symm⟩
  have hlength := (isLongest_extent hs).longest _ hlonger hprefix
  rw [List.length_append, List.length_singleton] at hlength
  omega

def spellingCodes : List String :=
  ["json_hex_number", "leading_zeros", "leading_decimal_point", "trailing_decimal_point"]

theorem remarks_spelling (raw : Text) : (spelling raw).Within spellingCodes := by
  unfold spelling
  split
  · simp [Issue.code, spellingCodes]
  · simp [Issue.code, spellingCodes]

end NumberLiteral

open NumberLiteral (Starts runsInto spellingCodes)

namespace Lexeme

/-- What is found of a number apart from how it is written. -/
theorem foundOf_number [Primitives] {codes : List String}
    (hsafe : Issue.unsafeCharacter.code ∉ codes)
    (hspelling : ∀ code ∈ spellingCodes, code ∉ codes) (o : Options) (t : Text) :
    (number t).trace.foundOf codes o 0 =
      (if (number t).malformed ∧ "bad_number" ∈ codes then
        [(0, .badNumber (number t).raw)] else []) ++
      (if (t.drop (number t).raw.length).head?.any runsInto ∧
          "missing_space_after_number" ∈ codes then
        [(0, .missingSpaceAfterNumber (number t).raw)] else []) := by
  have hnote : ∀ (n : Nat) (b : Bool) (i : Issue), (onlyIf b (noteStart i)).foundOf codes o n =
      if b ∧ i.code ∈ codes then [(0, i)] else [] := by
    intro n b i
    cases b with
    | true => simp [noteStart, Trace.noteAt, Trace.foundOf_note, Rule.holds, Place.offset]
    | false => simp
  have hreads : ∀ n, (reads (NumberLiteral.extent t)).foundOf codes o n = [] :=
    fun n => Trace.foundOf_eq_nil hsafe (Trace.remarks_reads _)
  have hspell : ∀ n, (NumberLiteral.spelling (NumberLiteral.extent t)).foundOf codes o n = [] :=
    fun n => Trace.foundOf_eq_nil hsafe
      ((NumberLiteral.remarks_spelling _).mono fun m hm => hspelling _ hm)
  have htrace : (number t).trace = reads (NumberLiteral.extent t) ++
      NumberLiteral.spelling (NumberLiteral.extent t) ++
      onlyIf (number t).malformed (noteStart (.badNumber (NumberLiteral.extent t))) ++
      onlyIf ((t.drop (NumberLiteral.extent t).length).head?.any runsInto)
        (noteStart (.missingSpaceAfterNumber (NumberLiteral.extent t))) := rfl
  rw [htrace, raw_number]
  simp only [Trace.foundOf_append, hreads, hspell, hnote, List.nil_append]
  rfl

end Lexeme

namespace Lexer

variable {l l' : Lexer} {k : Token} {t : Text}

theorem ReadsLexeme.number [UnicodePrimitives] {context : Context} {u : Text}
    (h : ReadsLexeme t l k l' u (Lexeme.scan context u)) (hk : k.kind = .number) :
    Starts u ∧ ReadsLexeme t l k l' u (Lexeme.number u) := by
  have hkind : (Lexeme.scan context u).kind = .number := by
    rw [Lexeme.kind, ← h.value]
    exact hk
  have hs := Lexeme.starts_of_kind hkind
  exact ⟨hs, Lexeme.scan_of_starts context hs ▸ h⟩

/-- That a space is missing behind a number is reported if and only if a letter follows, or a
backslash. If a digit follows then the number is binary or octal, the digit is none of its radix,
and it starts another number. -/
theorem missing_spaces_reported [UnicodePrimitives] (t : Text) (o : Options) (w : Bool) (n : Nat)
    (h : ((start t o w).calls n).2.next = some (k, l')) (hk : k.kind = .number) : ∃ v : Text,
      (∃ p : Text, t = p ++ (k.raw ++ v) ∧ p.utf8Size = k.range.1) ∧
      l'.reader.reported ["missing_space_after_number"] =
        ((start t o w).calls n).2.reader.reported ["missing_space_after_number"] ++
          (if v.head?.any fun c => isWordStart c || c = '\\' then
            [(Issue.missingSpaceAfterNumber k.raw).diagnostic k.start] else []) ∧
      ∀ d ∈ v.head?, d.isDigit →
        (NumberForm.ofText k.raw = .binary ∨ NumberForm.ofText k.raw = .octal) ∧
        isDigitOf (NumberForm.ofText k.raw).radix d = false ∧
        ∃ k' l'', l'.next = some (k', l'') ∧ k'.kind = .number ∧ k'.range.1 = k.range.2 := by
  obtain ⟨u, context, hscan⟩ := exists_readsLexeme t o w n h
  obtain ⟨hs, hreads⟩ := hscan.number hk
  have hraw := hreads.raw
  refine ⟨l'.reader.rest, hreads.rest ▸ hreads.place, ?_, fun d hd hdigit => ?_⟩
  · have hdrop : u.drop (Lexeme.number u).raw.length = l'.reader.rest := by
      have hu := congrArg (List.drop k.raw.length) hreads.rest
      rw [List.drop_left] at hu
      rw [← hraw, hu]
    rw [hreads.reported _ (by decide), Lexeme.foundOf_number (by decide) (by decide), hdrop, ← hraw]
    have hruns : runsInto = fun c => isWordStart c || c = '\\' := rfl
    rw [hruns]
    cases hany : l'.reader.rest.head?.any fun c => isWordStart c || c = '\\' with
    | true => simp [Position.along]
    | false => simp
  · obtain ⟨r, hr⟩ := List.head?_eq_some_iff.mp hd
    have hextent : NumberLiteral.extent u = k.raw := by rw [hraw, Lexeme.raw_number]
    have hu : u = NumberLiteral.extent u ++ d :: r := by rw [hextent, ← hr]; exact hreads.rest
    obtain ⟨form, hform, hradix, hnot⟩ := NumberLiteral.announced?_of_digit hs hu hdigit
    have hof : NumberForm.ofText k.raw = form := by simp only [NumberForm.ofText, ← hextent, hform]
    have hne : k.raw ≠ [] := hextent ▸ NumberLiteral.extent_ne_nil
      ((NumberLiteral.begins_iff_starts u).mpr hs)
    obtain ⟨k', l'', hnext, hnumber, hrange⟩ := exists_next_number (hreads.finished hne)
      ⟨d, r, hdigit, .inl hr⟩
    exact ⟨hof ▸ hradix, hof ▸ hnot, k', l'', hnext, hnumber, hrange.trans hreads.offset⟩

/-- A letter runs into the second of two numbers. -/
theorem missing_spaces_reported_of_letter : ∃ k l',
    ((start "0b12px".toList {} false).calls 1).2.next = some (k, l') ∧ k.kind = .number ∧
      k.raw = "2".toList ∧ l'.reader.reported ["missing_space_after_number"] =
        [(Issue.missingSpaceAfterNumber "2".toList).diagnostic { column := 4 }] ∧
      ∃ v : Text, (∃ p : Text, "0b12px".toList = p ++ (k.raw ++ v) ∧ p.utf8Size = k.range.1) ∧
        l'.reader.reported ["missing_space_after_number"] =
          ((start "0b12px".toList {} false).calls 1).2.reader.reported
              ["missing_space_after_number"] ++
            (if v.head?.any fun c => isWordStart c || c = '\\' then
              [(Issue.missingSpaceAfterNumber k.raw).diagnostic k.start] else []) ∧
        ∀ d ∈ v.head?, d.isDigit →
          (NumberForm.ofText k.raw = .binary ∨ NumberForm.ofText k.raw = .octal) ∧
          isDigitOf (NumberForm.ofText k.raw).radix d = false ∧
          ∃ k' l'', l'.next = some (k', l'') ∧ k'.kind = .number ∧ k'.range.1 = k.range.2 := by
  have hcall : ((start "0b12px".toList {} false).calls 1).2.next.any fun (k, l') =>
      k.kind = .number && k.raw = "2".toList &&
      l'.reader.reported ["missing_space_after_number"] =
        [(Issue.missingSpaceAfterNumber "2".toList).diagnostic { column := 4 }] := by
    decide +kernel
  obtain ⟨⟨k, l'⟩, h, hfacts⟩ := (Option.any_eq_true _ _).mp hcall
  simp only [Bool.and_eq_true, decide_eq_true_eq] at hfacts
  obtain ⟨⟨hk, hraw⟩, hreported⟩ := hfacts
  exact ⟨k, l', h, hk, hraw, hreported, missing_spaces_reported _ _ _ 1 h hk⟩

/-- A digit that is part of words, but none of the radix, is taken for the next number, and nothing
is reported. -/
theorem missing_space_unreported : ∃ k ∈ (start "0b12".toList {} false).tokens.1,
    ∃ k' ∈ (start "0b12".toList {} false).tokens.1,
      k.kind = .number ∧ k.raw = "0b1".toList ∧ k'.kind = .number ∧ k'.raw = "2".toList ∧
        k'.range.1 = k.range.2 ∧ isWordPart '2' ∧
        (start "0b12".toList {} false).tokens.2.finish = [] := by
  decide +kernel

end Lexer

end EcmaLex
