import EcmaLex.Primitives.Standard
import EcmaLex.Proofs.Substitutions
import EcmaLex.Proofs.Unclosed

/-!
# Nested templates

A template holds characters, escapes, and substitutions. A substitution holds code, in which braces
are balanced and quoted strings and templates are closed again. However deep these are nested, the
template ends at the backtick that belongs to the first one.
-/

namespace EcmaLex

/-- What stands between the quotes of a string in a substitution, which continues on no other
line. -/
inductive QuotedBody (quote : Char) : Text → Prop where
  | nil : QuotedBody quote []
  | plain {c : Char} {w : Text} (hc : c ∉ [quote, '\\', '\n', '\r']) (h : QuotedBody quote w) :
      QuotedBody quote (c :: w)
  | escape {c : Char} {w : Text} (hc : c ∉ ['\n', '\r']) (h : QuotedBody quote w) :
      QuotedBody quote ('\\' :: c :: w)

/-- What stands directly inside of a template or of a brace. -/
inductive Inside : TemplateFrame → Text → Prop where
  | nil {frame : TemplateFrame} : Inside frame []
  | plain {c : Char} {w : Text} (hc : c ∉ ['\x60', '\\']) (hs : c = '$' → w.head? ≠ some '\x7b')
      (h : Inside .template w) : Inside .template (c :: w)
  | escape {c : Char} {w : Text} (h : Inside .template w) : Inside .template ('\\' :: c :: w)
  | substitution {s w : Text} (hs : Inside .brace s) (h : Inside .template w) :
      Inside .template ('$' :: '\x7b' :: (s ++ '\x7d' :: w))
  | code {c : Char} {w : Text} (hc : c ∉ ['\x7b', '\x7d', '\x60', '"', '\''])
      (h : Inside .brace w) : Inside .brace (c :: w)
  | block {s w : Text} (hs : Inside .brace s) (h : Inside .brace w) :
      Inside .brace ('\x7b' :: (s ++ '\x7d' :: w))
  | template {s w : Text} (hs : Inside .template s) (h : Inside .brace w) :
      Inside .brace ('\x60' :: (s ++ '\x60' :: w))
  | quoted {quote : Char} {s w : Text} (hq : IsQuote quote) (hs : QuotedBody quote s)
      (h : Inside .brace w) : Inside .brace (quote :: (s ++ quote :: w))

inductive IsTemplate : Text → Prop where
  | mk {body : Text} (h : Inside .template body) : IsTemplate ('\x60' :: (body ++ ['\x60']))

def TemplateFrame.closing : TemplateFrame → Char
  | template => '\x60'
  | brace => '\x7d'

theorem QuotedBody.quotedTail_eq {quote : Char} (hq : IsQuote quote) {s : Text}
    (h : QuotedBody quote s) (t : Text) :
    TemplatePiece.quotedTail quote (s ++ quote :: t) = s ++ [quote] := by
  obtain ⟨hline, hslash, -⟩ := hq.not_special
  induction h with
  | nil => exact TemplatePiece.quotedTail_quote (by simp [hline]) t
  | @plain c w hc h ih =>
    simp only [List.mem_cons, List.not_mem_nil, or_false, not_or] at hc
    have hl : ¬ isLineTerminator c := by simp [isLineTerminator, hc]
    rw [List.cons_append, TemplatePiece.quotedTail_plain hl hc.1 hc.2.1, ih, List.cons_append]
  | @escape c w hc h ih =>
    simp only [List.mem_cons, List.not_mem_nil, or_false, not_or] at hc
    have hl : ¬ isLineTerminator c := by simp [isLineTerminator, hc]
    have htail := (TemplatePiece.quotedTail_backslash hslash (c :: (w ++ quote :: t))).trans
      (if_neg hl)
    rw [List.cons_append, List.cons_append, htail, ih, List.cons_append, List.cons_append]

namespace TemplatePiece

variable {frame : TemplateFrame} {frames outer : List TemplateFrame} {c : Char} {s v w rest : Text}

/-- Before the text `rest` a scan closes all that is open with the last character of `v`. -/
structure Closes (frames : List TemplateFrame) (v rest : Text) : Prop where
  text : (scan frames (v ++ rest)).1.flatMap text = v
  closed : (scan frames (v ++ rest)).2 = true

theorem closes_nil (rest : Text) : Closes [] [] rest := ⟨by simp [scan], by simp [scan]⟩

/-- A scan closes with `v` if it does so behind the first piece. -/
theorem closes_piece_iff (hw : (next frame c (w ++ (v ++ rest))).text = c :: w) :
    Closes (frame :: outer) (c :: (w ++ v)) rest ↔
      Closes (nest frame outer (next frame c (w ++ (v ++ rest)))) v rest := by
  have hscan : scan (frame :: outer) (c :: (w ++ v) ++ rest) = _ :=
    (congrArg (scan (frame :: outer)) (by simp)).trans (scan_cons hw)
  constructor
  · rintro ⟨htext, hclosed⟩
    rw [hscan] at htext hclosed
    exact ⟨by simpa [hw] using htext, hclosed⟩
  · rintro ⟨htext, hclosed⟩
    refine ⟨?_, by rw [hscan, hclosed]⟩
    rw [hscan, List.flatMap_cons, hw, htext, List.cons_append]

theorem closes_char_iff (hc : next frame c (v ++ rest) = .char c) :
    Closes (frame :: outer) (c :: v) rest ↔ Closes (nest frame outer (.char c)) v rest := by
  have hw : (next frame c ([] ++ (v ++ rest))).text = [c] := by
    rw [List.nil_append, hc]
    rfl
  have hiff : Closes (frame :: outer) (c :: ([] ++ v)) rest ↔ _ := closes_piece_iff hw
  rwa [List.nil_append, List.nil_append, hc] at hiff

theorem closes_closing (h : Closes outer v rest) :
    Closes (frame :: outer) (frame.closing :: v) rest := by
  cases frame with
  | template => exact (closes_char_iff rfl).mpr h
  | brace => exact (closes_char_iff rfl).mpr h

def isIdle (c : Char) : Bool := c ≠ '\x60' && c ≠ '\\' && c ≠ '$'

theorem closes_idle_iff (hw : ∀ c ∈ w, isIdle c) :
    Closes (.template :: outer) (w ++ v) rest ↔ Closes (.template :: outer) v rest := by
  induction w with
  | nil => rfl
  | cons c w ih =>
    obtain ⟨hc, hw⟩ := List.forall_mem_cons.mp hw
    have hc : (c ≠ '\x60' ∧ c ≠ '\\') ∧ c ≠ '$' := by simpa [isIdle] using hc
    have hnext : next .template c (w ++ v ++ rest) = .char c := by simp [next, hc]
    have hnest : nest .template outer (.char c) = .template :: outer := by simp [nest, hc]
    rw [List.cons_append, closes_char_iff hnext, hnest, ih hw]

/-- Behind the character that it escapes, a sequence takes up only characters that mean nothing. -/
theorem exists_text_escape (c : Char) (t : Text) : ∃ w r, t = w ++ r ∧
    (EscapeSequence.scan .template (c :: t)).text = '\\' :: c :: w ∧ ∀ d ∈ w, isIdle d := by
  cases hc : isLineTerminator c with
  | true =>
    rw [EscapeSequence.scan_terminator .template hc]
    by_cases hpair : c = '\r' ∧ t.head? = some '\n'
    · obtain ⟨rfl, ht⟩ := hpair
      obtain ⟨r, rfl⟩ := List.head?_eq_some_iff.mp ht
      exact ⟨['\n'], r, rfl, rfl, by simp [isIdle]⟩
    · rw [EscapeSequence.terminatorOf_cons_of_ne hpair]
      exact ⟨[], t, rfl, rfl, by simp⟩
  | false =>
    obtain ⟨w, r, ht, htext, hcode⟩ := EscapeSequence.exists_text_scan .template hc t
    refine ⟨w, r, ht, htext, fun d hd => ?_⟩
    have hne : ∀ e, WrittenCode.isCodeChar e = false → d ≠ e := fun _ =>
      WrittenCode.ne_of_isCodeChar (hcode d hd)
    simp [isIdle, hne '\x60' (by decide), hne '\\' (by decide), hne '$' (by decide)]

/-- An escape takes up part of what follows, but nothing that opens or closes. -/
theorem closes_escape (h : Closes (.template :: outer) (w ++ '\x60' :: v) rest) :
    Closes (.template :: outer) ('\\' :: c :: (w ++ '\x60' :: v)) rest := by
  obtain ⟨a, r, ht, htext, ha⟩ := exists_text_escape c (w ++ '\x60' :: v ++ rest)
  -- What the escape takes up holds no backtick, so it ends before the one that is to close here.
  obtain ⟨b, hb⟩ : ∃ b, w ++ '\x60' :: v = a ++ b := by
    rcases List.append_eq_append_iff.mp ht with ⟨a', rfl, -⟩ | ⟨b, hb, -⟩
    · exact absurd (ha '\x60' (by simp)) (by decide)
    · exact ⟨b, hb⟩
  rw [hb] at h ht htext ⊢
  rw [closes_idle_iff ha] at h
  have hnext : next .template '\\' (c :: a ++ (b ++ rest)) =
      .escape (EscapeSequence.scan .template (c :: (a ++ b ++ rest))) := by simp [next]
  have hw : (next .template '\\' (c :: a ++ (b ++ rest))).text = '\\' :: c :: a := by
    rw [hnext, text, htext]
  have hnest : nest .template outer (next .template '\\' (c :: a ++ (b ++ rest))) =
      .template :: outer := by
    rw [hnext]
    rfl
  exact (closes_piece_iff hw).mpr (hnest ▸ h)

/-- A scan closes behind what stands inside of the innermost frame. -/
theorem closes_inside (hs : Inside frame s) : ∀ {outer v},
    Closes (frame :: outer) (frame.closing :: v) rest →
      Closes (frame :: outer) (s ++ frame.closing :: v) rest := by
  -- Induction on the derivation, for all outer frames: where a part opens a frame, the part inside
  -- of it closes that frame, and what follows closes the one around it.
  induction hs with
  | nil => exact id
  | @plain c w hc hs h ih =>
    intro outer v hv
    simp only [List.mem_cons, List.not_mem_nil, or_false, not_or] at hc
    have hnext : next .template c (w ++ '\x60' :: v ++ rest) = .char c := by
      have hhead : c = '$' → (w ++ '\x60' :: v ++ rest).head? ≠ some '\x7b' := by
        intro hdollar
        cases w with
        | nil => simp
        | cons d w => exact hs hdollar
      simpa [next, hc] using hhead
    have hnest : nest .template outer (.char c) = .template :: outer := by simp [nest, hc]
    exact (closes_char_iff hnext).mpr (hnest ▸ ih hv)
  | escape h ih => exact fun hv => closes_escape (ih hv)
  | @substitution s w hs h ihs ih =>
    intro outer v hv
    have hbrace : Closes (.brace :: .template :: outer) (s ++ '\x7d' :: (w ++ '\x60' :: v)) rest :=
      ihs (closes_closing (ih hv))
    have hnext : ∀ t, next .template '$' ('\x7b' :: t) = .substitution := fun _ => rfl
    have hopens : Closes (.template :: outer)
        ('$' :: (['\x7b'] ++ (s ++ '\x7d' :: (w ++ '\x60' :: v)))) rest :=
      (closes_piece_iff (by rw [List.singleton_append, hnext]; rfl)).mpr hbrace
    simpa [TemplateFrame.closing] using hopens
  | @code c w hc h ih =>
    intro outer v hv
    simp only [List.mem_cons, List.not_mem_nil, or_false, not_or] at hc
    have hnext : next .brace c (w ++ '\x7d' :: v ++ rest) = .char c := by simp [next, hc]
    have hnest : nest .brace outer (.char c) = .brace :: outer := by simp [nest, hc]
    exact (closes_char_iff hnext).mpr (hnest ▸ ih hv)
  | @block s w hs h ihs ih =>
    intro outer v hv
    have hbrace : Closes (.brace :: .brace :: outer) (s ++ '\x7d' :: (w ++ '\x7d' :: v)) rest :=
      ihs (closes_closing (ih hv))
    have hopens : Closes (.brace :: outer) ('\x7b' :: (s ++ '\x7d' :: (w ++ '\x7d' :: v))) rest :=
      (closes_char_iff rfl).mpr hbrace
    simpa [TemplateFrame.closing] using hopens
  | @template s w hs h ihs ih =>
    intro outer v hv
    have htemplate : Closes (.template :: .brace :: outer) (s ++ '\x60' :: (w ++ '\x7d' :: v))
        rest := ihs (closes_closing (ih hv))
    have hopens : Closes (.brace :: outer) ('\x60' :: (s ++ '\x60' :: (w ++ '\x7d' :: v))) rest :=
      (closes_char_iff rfl).mpr htemplate
    simpa [TemplateFrame.closing] using hopens
  | @quoted quote s w hq hs h ih =>
    intro outer v hv
    have hnext : next .brace quote (s ++ [quote] ++ (w ++ '\x7d' :: v ++ rest)) =
        .quoted (quote :: (s ++ [quote])) := by
      rw [next_quote hq, List.append_assoc, List.singleton_append, hs.quotedTail_eq hq]
    have hpasses : Closes (.brace :: outer) (quote :: (s ++ [quote] ++ (w ++ '\x7d' :: v))) rest :=
      (closes_piece_iff (by rw [hnext]; rfl)).mpr (hnext ▸ ih hv)
    simpa [TemplateFrame.closing] using hpasses

end TemplatePiece

/-- A template that the grammar derives is closed by its last backtick. -/
theorem Lexeme.template_of_inside {body : Text} (h : Inside .template body) (rest : Text) :
    (template (body ++ '\x60' :: rest)).raw = '\x60' :: (body ++ ['\x60']) ∧
      (template (body ++ '\x60' :: rest)).value = .template body ∧
      (template (body ++ '\x60' :: rest)).unclosed = false ∧
      (template (body ++ '\x60' :: rest)).malformed = false := by
  have hcloses : TemplatePiece.Closes [.template] (body ++ ['\x60']) rest :=
    TemplatePiece.closes_inside h (TemplatePiece.closes_closing (TemplatePiece.closes_nil rest))
  obtain ⟨htext, hclosed⟩ := hcloses
  rw [List.append_assoc, List.singleton_append] at htext hclosed
  refine ⟨by rw [raw_template, htext], ?_, ?_, ?_⟩
  · simp [template, hclosed, htext]
  · simp [template, hclosed]
  · simp [template, hclosed]

theorem Lexeme.scan_backtick [UnicodePrimitives] (context : Context) (t : Text) :
    scan context ('\x60' :: t) = template t := by
  have hword : isWordStart '\x60' = false := isWordStart_of_isAsciiMark (by decide)
  have hname : ¬ Name.begins ('\x60' :: t) := by simp [Opening.begins_name_iff, hword]
  have hnumber : ¬ NumberLiteral.begins ('\x60' :: t) := by simp [Opening.begins_number_iff]
  rw [scan, scanCons, if_neg hname, if_neg hnumber, if_neg (by decide), if_pos rfl]

structure Token.IsTemplate (k : Token) (t : Text) : Prop where
  kind : k.kind = .template
  raw : k.raw = t
  range : k.range = (0, t.utf8Size)
  /-- Its value is what stands between the first character and the last one. -/
  value : k.value = .template t.tail.dropLast
  malformed : k.malformed = false
  unclosed : k.unclosed = false

namespace Lexer

/-- A text that starts with a template is lexed as that template first, however deep substitutions
are nested in it, and whatever follows it. -/
theorem templates_closed [UnicodePrimitives] {t : Text} (h : IsTemplate t) (rest : Text)
    (o : Options) (w : Bool) :
    ∃ k l', (start (t ++ rest) o w).next = some (k, l') ∧ k.IsTemplate t ∧
      l'.reader.rest = rest ∧ l'.reader.reported unclosedCodes = [] := by
  obtain @⟨body, hbody⟩ := h
  have htext : '\x60' :: (body ++ ['\x60']) ++ rest = '\x60' :: (body ++ '\x60' :: rest) := by simp
  rw [htext]
  obtain ⟨v, hv⟩ : ∃ v : Text, '\x60' :: (body ++ '\x60' :: rest) = v := ⟨_, rfl⟩
  have hpreamble : v.preamble = [] :=
    hv ▸ Text.preamble_eq_nil (by simp [byteOrderMark]) (by simp)
  have hstarts : startsToken v := hv ▸ rfl
  obtain ⟨hraw, hvalue, hunclosed, hmalformed⟩ := Lexeme.template_of_inside hbody rest
  have hscan : Lexeme.scan (start v o w).context v = Lexeme.template (body ++ '\x60' :: rest) :=
    hv ▸ Lexeme.scan_backtick _ _
  rw [← hscan] at hraw hvalue hunclosed hmalformed
  have hkind : (Lexeme.scan (start v o w).context v).kind = .template :=
    congrArg TokenValue.kind hvalue
  have hrange := range_first hpreamble hstarts o w
  obtain ⟨u, hu, hlexeme, hnext, hrest⟩ := exists_first hpreamble hstarts o w (by simp [hkind])
  rw [hraw] at hrange hu
  rw [← hlexeme] at hraw hvalue hunclosed hmalformed hkind
  have hu : u = rest := by
    rw [← hv, ← htext] at hu
    exact (List.append_cancel_left hu).symm
  have hreported : ((start v o w).behind (start v o w).reading).reader.reported unclosedCodes =
      [] := by
    rw [reported_behind, reported_reading, Lexeme.unclosedDiagnostics, hunclosed]
    rfl
  have hbody : ('\x60' :: (body ++ ['\x60'])).tail.dropLast = body := by simp
  rw [hv]
  refine ⟨_, _, hnext, ⟨hkind, hraw, hrange, ?_, hmalformed, hunclosed⟩, hrest.trans hu, hreported⟩
  rw [hbody]
  exact hvalue

/-- A template in a block in a substitution of another one. Around it are a backtick, braces and a
quote that close nothing, as they are escaped, stand in a string, or belong to a code. -/
theorem templates_closed_of_nested : ∃ k l',
    (start ("\x60\\\x60$\x7b'\x7d\\''\x7b\x60a$\x7bb\x7d\\u\x7b4\x7d\x60\x7d\x7d$\x60".toList ++
        "\x60'".toList) { json := true } true).next = some (k, l') ∧
      k.IsTemplate
        "\x60\\\x60$\x7b'\x7d\\''\x7b\x60a$\x7bb\x7d\\u\x7b4\x7d\x60\x7d\x7d$\x60".toList ∧
      l'.reader.rest = "\x60'".toList ∧ l'.reader.reported unclosedCodes = [] := by
  have hcode : Inside .template ['\\', 'u', '\x7b', '4', '\x7d'] :=
    .escape (.plain (by decide) (by decide) (.plain (by decide) (by decide)
      (.plain (by decide) (by decide) .nil)))
  have hinner : Inside .template ('a' :: '$' :: '\x7b' :: (['b'] ++ '\x7d' :: _)) :=
    .plain (by decide) (by decide) (.substitution (.code (by decide) .nil) hcode)
  have hquoted : QuotedBody '\'' ['\x7d', '\\', '\''] :=
    .plain (by decide) (.escape (by decide) .nil)
  have hbrace : Inside .brace ('\'' :: (_ ++ '\'' :: '\x7b' :: (('\x60' :: (_ ++ ['\x60'])) ++
      ['\x7d']))) :=
    .quoted (.inr rfl) hquoted (.block (.template hinner .nil) .nil)
  have hbody : Inside .template ('\\' :: '\x60' :: '$' :: '\x7b' :: (_ ++ '\x7d' :: ['$'])) :=
    .escape (.substitution hbrace (.plain (by decide) (by decide) .nil))
  exact templates_closed (.mk hbody) _ _ _

end Lexer

end EcmaLex
