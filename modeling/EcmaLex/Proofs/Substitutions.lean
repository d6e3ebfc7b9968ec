import EcmaLex.Primitives.Standard
import EcmaLex.Proofs.StringBody

/-!
# Strings in substitutions

A quoted string in a substitution of a template is passed over by a scanner of its own, which reads
the escapes as pairs of characters. Escapes take up nothing but digits and braces behind that, so
that both scanners stop at the same quote or end of a line. Only a line that is continued parts
them: in a substitution the string ends with the backslash.
-/

namespace EcmaLex

variable {quote : Char}

namespace TemplatePiece

theorem quotedTail_append {w : Text}
    (hw : ∀ c ∈ w, isLineTerminator c = false ∧ c ≠ quote ∧ c ≠ '\\') (t : Text) :
    quotedTail quote (w ++ t) = w ++ quotedTail quote t := by
  induction w with
  | nil => rfl
  | cons c w ih =>
    obtain ⟨hc, hw⟩ := List.forall_mem_cons.mp hw
    rw [List.cons_append, quotedTail_plain (by simp [hc.1]) hc.2.1 hc.2.2, ih hw, List.cons_append]

theorem quotedTail_backslash (hq : quote ≠ '\\') (t : Text) : quotedTail quote ('\\' :: t) =
    match t with
    | [] => ['\\']
    | c :: t => if isLineTerminator c then ['\\'] else '\\' :: c :: quotedTail quote t := by
  have hslash : isLineTerminator '\\' = false := by decide
  cases t with
  | nil => simp [quotedTail, hslash, hq.symm]
  | cons c t => simp [quotedTail, hslash, hq.symm]

end TemplatePiece

theorem EscapeSequence.scan_ne_continuation (context : EscapeContext) {c : Char}
    (hc : isLineTerminator c = false) (t v : Text) : scan context (c :: t) ≠ continuation v := by
  have hcode : ∀ code, ofCode c code ≠ continuation v := by
    intro code
    unfold ofCode
    split
    · simp
    · split <;> simp
  simp only [scan, hc, Bool.false_eq_true, if_false]
  split
  · simp
  · exact hcode _
  · exact hcode _
  · simp

def IsQuote (c : Char) : Prop := c = '"' ∨ c = '\''

theorem IsQuote.not_special (hq : IsQuote quote) : isLineTerminator quote = false ∧ quote ≠ '\\' ∧
    WrittenCode.isCodeChar quote = false := by
  rcases hq with rfl | rfl <;> decide

theorem TemplatePiece.next_quote (hq : IsQuote quote) (t : Text) :
    next .brace quote t = .quoted (quote :: quotedTail quote t) := by
  have hquote : (quote = '"' || quote = '\'') = true := by simpa [IsQuote] using hq
  rw [next, if_pos hquote]

theorem IsQuote.passes_codeChar (hq : IsQuote quote) {c : Char} (hc : WrittenCode.isCodeChar c) :
    isLineTerminator c = false ∧ c ≠ quote ∧ c ≠ '\\' := by
  have hne : ∀ d, WrittenCode.isCodeChar d = false → c ≠ d := fun _ =>
    WrittenCode.ne_of_isCodeChar hc
  refine ⟨?_, hne _ hq.not_special.2.2, hne _ (by decide)⟩
  simp [isLineTerminator, hne '\n' (by decide), hne '\r' (by decide)]

namespace StringPiece

open TemplatePiece (quotedTail)

/-- How a piece is passed over in a substitution: as a whole, or up to the end of its line. -/
theorem quotedTail_piece (hq : IsQuote quote) {c : Char} {w t : Text}
    (hs : stopsAt quote (c :: (w ++ t)) = false) (hw : (step c (w ++ t)).text = c :: w) :
    (quotedTail quote (c :: (w ++ t)) = c :: w ++ quotedTail quote t ∧
        (∀ d ∈ c :: w, isLineTerminator d = false) ∧
        ∀ v, step c (w ++ t) ≠ .escape (.continuation v)) ∨
      quotedTail quote (c :: (w ++ t)) = ['\\'] ∧
        ∃ d v, c :: w = '\\' :: d :: v ∧ isLineTerminator d ∧
          step c (w ++ t) = .escape (.continuation w) := by
  obtain ⟨-, hslash, -⟩ := hq.not_special
  have hc : c ≠ quote ∧ isLineTerminator c = false := by simpa [stopsAt] using hs
  by_cases hback : c = '\\'
  · subst hback
    rw [step, if_pos rfl] at hw ⊢
    -- An escape takes up the character behind the backslash, if there is one.
    cases w with
    | nil =>
      cases t with
      | nil =>
        refine .inl ⟨TemplatePiece.quotedTail_backslash hslash [], by simp [hc.2], fun v => ?_⟩
        simp [EscapeSequence.scan]
      | cons d t => exact absurd hw (EscapeSequence.text_scan_cons_ne .script d t)
    | cons d w =>
      rw [List.cons_append] at hw ⊢
      cases hd : isLineTerminator d with
      | true =>
        rw [EscapeSequence.scan_terminator .script hd] at hw ⊢
        have hv : EscapeSequence.terminatorOf (d :: (w ++ t)) = d :: w := (List.cons.inj hw).2
        rw [hv]
        have htail := (TemplatePiece.quotedTail_backslash hslash (d :: (w ++ t))).trans (if_pos hd)
        exact .inr ⟨htail, d, w, rfl, hd, rfl⟩
      | false =>
        obtain ⟨w', r, ht, htext, hcode⟩ := EscapeSequence.exists_text_scan .script hd (w ++ t)
        have hw : (EscapeSequence.scan .script (d :: (w ++ t))).text = '\\' :: d :: w := hw
        obtain rfl : w' = w := by simpa using htext.symm.trans hw
        have hpass := fun e he => hq.passes_codeChar (hcode e he)
        refine .inl ⟨?_, ?_, fun v h => ?_⟩
        · have htail := (TemplatePiece.quotedTail_backslash hslash (d :: (w' ++ t))).trans
            (if_neg (by simp [hd]))
          rw [htail, TemplatePiece.quotedTail_append hpass]
          rfl
        · simpa [hc.2, hd] using fun e he => (hpass e he).1
        · exact EscapeSequence.scan_ne_continuation .script hd _ v (StringPiece.escape.inj h)
  · rw [step, if_neg hback] at hw ⊢
    obtain rfl : w = [] := by simpa using (List.cons.inj hw).2.symm
    refine .inl ⟨TemplatePiece.quotedTail_plain (by simp [hc.2]) hc.1 hback t, by simp [hc.2], ?_⟩
    simp

/-- How a quoted string with such pieces before the text `r` is passed over in a substitution: up to
the end of its first line, which is its end if and only if it is continued on no other line. -/
structure PassedOver (quote : Char) (ps : List StringPiece) (r : Text) : Prop where
  firstLine : quotedTail quote (ps.flatMap text ++ r) = (ps.flatMap text ++
    if r.head? = some quote then [quote] else []).takeWhile (!isLineTerminator ·)
  inline : (∀ c ∈ ps.flatMap text, isLineTerminator c = false) ↔
    ∀ v, .escape (.continuation v) ∉ ps

theorem passedOver_nil (hq : IsQuote quote) {r : Text} (hs : stopsAt quote r) :
    PassedOver quote [] r := by
  obtain ⟨hline, -, -⟩ := hq.not_special
  refine ⟨?_, by simp⟩
  cases r with
  | nil => rfl
  | cons c r =>
    by_cases hc : c = quote
    · subst hc
      simp [TemplatePiece.quotedTail_quote, hline]
    · have hl : isLineTerminator c := by simpa [stopsAt, hc] using hs
      simp [TemplatePiece.quotedTail_terminator, hl, hc]

theorem PassedOver.cons {ps : List StringPiece} {r : Text} (h : PassedOver quote ps r)
    (hq : IsQuote quote) {c : Char} {w : Text}
    (hs : stopsAt quote (c :: (w ++ (ps.flatMap text ++ r))) = false)
    (hw : (step c (w ++ (ps.flatMap text ++ r))).text = c :: w) :
    PassedOver quote (step c (w ++ (ps.flatMap text ++ r)) :: ps) r := by
  have htext : (step c (w ++ (ps.flatMap text ++ r)) :: ps).flatMap text ++ r =
      c :: (w ++ (ps.flatMap text ++ r)) := by simp [hw]
  rcases quotedTail_piece hq hs hw with ⟨htail, hinline, hne⟩ | ⟨htail, d, v, hcons, hd, hstep⟩
  · refine ⟨?_, ?_⟩
    · have hkept : ∀ d ∈ c :: w, (!isLineTerminator d) = true := fun d hd => by simp [hinline d hd]
      rw [htext, htail, h.firstLine, List.flatMap_cons, hw, List.append_assoc (c :: w),
        List.takeWhile_append_of_pos hkept]
    · have hmem : ∀ v, .escape (.continuation v) ∉ step c (w ++ (ps.flatMap text ++ r)) :: ps ↔
          .escape (.continuation v) ∉ ps := fun v => by simp [(hne v).symm]
      simp only [hmem, ← h.inline, List.flatMap_cons, hw, List.forall_mem_append]
      exact and_iff_right hinline
  · obtain ⟨rfl, hv⟩ := List.cons.inj hcons
    refine ⟨?_, ?_⟩
    · rw [htext, htail, List.flatMap_cons, hw, hv, List.cons_append, List.cons_append,
        List.cons_append, List.cons_append, List.takeWhile_cons_of_pos rfl,
        List.takeWhile_cons_of_neg (by simp [hd])]
    · rw [hstep]
      constructor
      · intro hall
        have hterminator := hall d (by simp [EscapeSequence.text, text, hv])
        simp [hd] at hterminator
      · intro hall
        exact absurd List.mem_cons_self (hall w)

theorem exists_passedOver (hq : IsQuote quote) (t : Text) : ∃ r,
    t = (scan quote t).flatMap text ++ r ∧ PassedOver quote (scan quote t) r :=
  (pieceScan quote).exists_rest_of (s := ()) (t := t) (motive := PassedOver quote)
    (passedOver_nil hq) fun hs hw h => h.cons hq hs hw

end StringPiece

namespace Lexeme

/-- In a substitution a string is the first line of what it is at top level. -/
theorem takeWhile_raw_string (hq : IsQuote quote) (t : Text) :
    (string quote t).raw.takeWhile (!isLineTerminator ·) =
      quote :: TemplatePiece.quotedTail quote t := by
  obtain ⟨r, ht, hpassed⟩ := StringPiece.exists_passedOver hq t
  have hclosed : (string quote t).unclosed = !decide (r.head? = some quote) := by
    generalize hbody : (StringPiece.scan quote t).flatMap StringPiece.text = body at ht
    subst ht
    exact unclosed_string hbody
  have hfirst := hpassed.firstLine
  rw [← ht] at hfirst
  rw [hfirst, raw_string, List.takeWhile_cons_of_pos (by simp [hq.not_special.1]), hclosed]
  by_cases hr : r.head? = some quote <;> simp [hr]

theorem inline_string_iff (hq : IsQuote quote) (t : Text) :
    (∀ c ∈ (string quote t).raw, isLineTerminator c = false) ↔
      ∀ v, .escape (.continuation v) ∉ StringPiece.scan quote t := by
  obtain ⟨r, -, hpassed⟩ := StringPiece.exists_passedOver hq t
  obtain ⟨hline, -, -⟩ := hq.not_special
  have hquote : ∀ c ∈ (if (string quote t).unclosed then [] else [quote]),
      isLineTerminator c = false := by
    cases (string quote t).unclosed <;> simp [hline]
  rw [← hpassed.inline, raw_string, List.forall_mem_cons, List.forall_mem_append]
  exact ⟨fun h => h.2.1, fun h => ⟨hline, h, hquote⟩⟩

end Lexeme

/-- How the string `k`, which the text `quote :: t` starts with, is passed over where the same text
stands in a substitution: as the text `s`, behind which `u` is left to read. -/
structure Token.PassedOver (k : Token) (quote : Char) (t : Text) (outer : List TemplateFrame)
    (s u : Text) : Prop where
  text : quote :: t = s ++ u
  scan : TemplatePiece.scan (.brace :: outer) (quote :: t) =
    (.quoted s :: (TemplatePiece.scan (.brace :: outer) u).1,
      (TemplatePiece.scan (.brace :: outer) u).2)
  firstLine : s = k.raw.takeWhile (!isLineTerminator ·)
  /-- Both end at the same offset if and only if no line is continued. -/
  stop : s.utf8Size = k.range.2 ↔ ∀ v, .escape (.continuation v) ∉ StringPiece.scan quote t

theorem Text.utf8Size_takeWhile_eq_iff (p : Char → Bool) (t : Text) :
    Text.utf8Size (t.takeWhile p) = t.utf8Size ↔ ∀ c ∈ t, p c := by
  induction t with
  | nil => simp
  | cons c t ih =>
    have hc := c.utf8Size_pos
    cases hp : p c with
    | true => simp [hp, ih]
    | false => simp [hp]; omega

namespace Lexer

/-- A quoted string in a substitution of a template ends where the string ends that the same text
starts with at top level, but for a continued line, at the end of which it ends. -/
theorem substituted_strings_end [UnicodePrimitives] (hq : IsQuote quote) (t : Text) (o : Options)
    (w : Bool)
    (outer : List TemplateFrame) : ∃ k l' s u, (start (quote :: t) o w).next = some (k, l') ∧
      k.kind = .string ∧ k.range = (0, k.raw.utf8Size) ∧ k.PassedOver quote t outer s u := by
  obtain ⟨v, hv⟩ : ∃ v : Text, quote :: t = v := ⟨_, rfl⟩
  have hpreamble : v.preamble = [] := hv ▸ Text.preamble_quote hq t
  have hstarts : startsToken v := hv ▸ startsToken_quote hq t
  have hscan : Lexeme.scan (start v o w).context v = Lexeme.string quote t :=
    hv ▸ Lexeme.scan_quote hq _ t
  have hkind : (Lexeme.scan (start v o w).context v).kind = .string := hscan ▸ rfl
  obtain ⟨-, -, hlexeme, hnext, -⟩ := exists_first hpreamble hstarts o w (by simp [hkind])
  have hraw : (start v o w).reading.token.raw = (Lexeme.string quote t).raw :=
    congrArg Lexeme.raw (hlexeme.trans hscan)
  have hrange : (start v o w).reading.token.range = (0, (Lexeme.string quote t).raw.utf8Size) :=
    hscan ▸ range_first hpreamble hstarts o w
  obtain ⟨u, hu⟩ := TemplatePiece.quotedTail_prefix quote t
  have hfirst := Lexeme.takeWhile_raw_string hq t
  rw [hv]
  refine ⟨_, _, quote :: TemplatePiece.quotedTail quote t, u, hnext, ?_, by rw [hrange, hraw], ?_⟩
  · exact (congrArg Lexeme.kind hlexeme).trans hkind
  · have hpiece : TemplatePiece.next .brace quote (TemplatePiece.quotedTail quote t ++ u) =
        .quoted (quote :: TemplatePiece.quotedTail quote t) := by
      rw [hu, TemplatePiece.next_quote hq]
    refine ⟨by rw [List.cons_append, hu], ?_, by rw [hraw, hfirst], ?_⟩
    · have hcons : TemplatePiece.scan (.brace :: outer)
          (quote :: (TemplatePiece.quotedTail quote t ++ u)) = _ :=
        TemplatePiece.scan_cons (congrArg TemplatePiece.text hpiece)
      rwa [hpiece, hu] at hcons
    · rw [hrange, ← hfirst, Text.utf8Size_takeWhile_eq_iff, ← Lexeme.inline_string_iff hq]
      simp

/-- An escape of a code, an escaped quote, and a line that is continued behind a carriage return and
a line feed. -/
theorem substituted_strings_end_of_escapes : ∃ k l' s u,
    (start "'\\u\x7b41\x7d\\'\\\r\nb'c".toList { json := true } true).next = some (k, l') ∧
      k.kind = .string ∧ k.range = (0, k.raw.utf8Size) ∧
      k.PassedOver '\'' "\\u\x7b41\x7d\\'\\\r\nb'c".toList [.template] s u :=
  substituted_strings_end (.inr rfl) "\\u\x7b41\x7d\\'\\\r\nb'c".toList { json := true } true
    [.template]

/-- At top level the string goes on behind the line feed and is closed. In the template it ends
before the line feed, and the quote that should close it opens another string, which takes up what
should close the template. -/
theorem substituted_string_cut_off :
    (∃ k ∈ (start "'\\\n'".toList {} false).tokens.1,
      k.kind = .string ∧ k.range = (0, 4) ∧ k.unclosed = false) ∧
    TemplatePiece.next .brace '\'' "\\\n'\x7d\x60".toList = .quoted "'\\".toList ∧
    (∃ k ∈ (start "\x60$\x7b'\\\n'\x7d\x60".toList {} false).tokens.1,
      k.kind = .template ∧ k.unclosed ∧ k.malformed ∧
        k.value = .template "$\x7b'\\\n'\x7d\x60".toList) ∧
    (start "\x60$\x7b'\\\n'\x7d\x60".toList {} false).tokens.2.reader.reported
      ["unclosed_template"] = [Issue.unclosedTemplate.diagnostic {}] := by
  decide +kernel

end Lexer

end EcmaLex
