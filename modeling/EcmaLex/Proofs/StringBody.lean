import EcmaLex.Primitives.Standard
import EcmaLex.Proofs.Errors
import EcmaLex.Proofs.Number.Digits
import EcmaLex.Proofs.Spelling

/-!
# Decoded strings

Between its quotes a string is a sequence of elements, each of which stands for some text: a
character for itself, an escape for the character that it names, and a continued line for nothing.
Whatever elements stand side by side, none of them takes up anything of the next one. So a string
stands for what its elements stand for, one after another.
-/

namespace EcmaLex

def letterEscapes : List (Char × Char) :=
  [('n', '\n'), ('r', '\r'), ('t', '\t'), ('b', '\x08'), ('f', '\x0c'), ('v', '\x0b'),
   ('0', '\x00'), ('\\', '\\'), ('\'', '\''), ('"', '"'), ('/', '/')]

def charOfHex (digits : Text) : Char := Char.ofNat (ofDigits 16 digits)

/-- Some hexadecimal digits denote the code of a character, and not that of a surrogate or something
beyond the last code point. -/
structure IsCharCode (digits : Text) : Prop where
  isHex : ∀ d ∈ digits, isHexDigit d
  valid : (ofDigits 16 digits).isValidChar

/-- An element of a string between such quotes, and what it stands for. -/
inductive StringElement (quote : Char) : Text → Text → Prop where
  | plain {c : Char} (hc : c ∉ [quote, '\\', '\n', '\r']) : StringElement quote [c] [c]
  | letter {d c : Char} (h : (d, c) ∈ letterEscapes) : StringElement quote ['\\', d] [c]
  | hex {digits : Text} (hn : digits.length = 2) (hd : ∀ d ∈ digits, isHexDigit d) :
      StringElement quote ('\\' :: 'x' :: digits) [charOfHex digits]
  | fixed {digits : Text} (hn : digits.length = 4) (hc : IsCharCode digits) :
      StringElement quote ('\\' :: 'u' :: digits) [charOfHex digits]
  | braced {digits : Text} (hn : 1 ≤ digits.length ∧ digits.length ≤ 6) (hc : IsCharCode digits) :
      StringElement quote ('\\' :: 'u' :: '\x7b' :: (digits ++ ['\x7d'])) [charOfHex digits]
  | continuation {terminator : Text} (h : terminator ∈ [['\n'], ['\r'], ['\r', '\n']]) :
      StringElement quote ('\\' :: terminator) []

/-- What stands between the quotes of a string, and what the string stands for. -/
inductive StringBody (quote : Char) : Text → Text → Prop where
  | nil : StringBody quote [] []
  | cons {w v body value : Text} (he : StringElement quote w v) (h : StringBody quote body value) :
      StringBody quote (w ++ body) (v ++ value)

variable {quote : Char} {w v t body value : Text}

theorem StringElement.exists_head (h : StringElement quote w v) :
    ∃ c u, w = c :: u ∧ c ≠ '\n' := by
  cases h with
  | @plain c hc => exact ⟨c, [], rfl, fun h => by simp [h] at hc⟩
  | _ => exact ⟨_, _, rfl, by decide⟩

theorem StringBody.head?_ne (h : StringBody quote body value) (hq : quote ≠ '\n') (rest : Text) :
    (body ++ quote :: rest).head? ≠ some '\n' := by
  cases h with
  | nil => simpa using hq
  | cons he h =>
    obtain ⟨c, u, rfl, hc⟩ := he.exists_head
    simpa using hc

theorem isCharCode_of_two {digits : Text} (hn : digits.length = 2)
    (hd : ∀ d ∈ digits, isHexDigit d) : IsCharCode digits := by
  refine ⟨hd, .inl ?_⟩
  match digits, hn with
  | [a, b], _ =>
    have ha := hexValue_lt (hd a (by simp))
    have hb := hexValue_lt (hd b (by simp))
    simp only [ofDigits, List.foldl_cons, List.foldl_nil]
    omega

theorem IsCharCode.decodeHex? {digits : Text} (h : IsCharCode digits) (hne : digits ≠ []) :
    decodeHex? digits = some (charOfHex digits) := by
  rw [decodeHex?_of_isHexDigit hne h.isHex, Char.ofCode?, dif_pos h.valid, charOfHex, Char.ofNat,
    dif_pos h.valid]

theorem EscapeSequence.ofCode_eq {letter : Char} {written digits : Text} (hc : IsCharCode digits)
    (hne : digits ≠ []) :
    ofCode letter (some ⟨written, digits⟩) = code letter written (charOfHex digits) := by
  have hdecoded : (WrittenCode.mk written digits).decoded? = some (charOfHex digits) :=
    hc.decodeHex? hne
  simp only [ofCode, hdecoded]

theorem EscapeSequence.terminatorOf_append {terminator t : Text}
    (h : terminator ∈ [['\n'], ['\r'], ['\r', '\n']]) (ht : t.head? ≠ some '\n') :
    terminatorOf (terminator ++ t) = terminator := by
  simp only [List.mem_cons, List.not_mem_nil, or_false] at h
  rcases h with rfl | rfl | rfl
  · rfl
  · exact terminatorOf_cons_of_ne (t := t) (by simp [ht])
  · rfl

namespace StringPiece

def IsSound : StringPiece → Prop
  | plain _ => True
  | escape s => s.isBad = false

theorem exists_scan_escape (hq : '\\' ≠ quote) {u : Text} {s : EscapeSequence}
    (hs : EscapeSequence.scan .script (u ++ t) = s) (htext : s.text = '\\' :: u)
    (hsound : s.isBad = false) : ∃ p, scan quote ('\\' :: u ++ t) = p :: scan quote t ∧
      p.text = '\\' :: u ∧ p.decoded = s.decoded ∧ p.IsSound := by
  subst hs
  exact ⟨.escape _, scan_escape hq htext, htext, rfl, hsound⟩

/-- An element is scanned as one piece. -/
theorem exists_scan_element (hq : '\\' ≠ quote) (h : StringElement quote w v)
    (ht : t.head? ≠ some '\n') :
    ∃ p, scan quote (w ++ t) = p :: scan quote t ∧ p.text = w ∧ p.decoded = v ∧ p.IsSound := by
  cases h with
  | @plain c hc =>
    simp only [List.mem_cons, List.not_mem_nil, or_false, not_or] at hc
    have hline : isLineTerminator c = false := by simp [isLineTerminator, hc]
    exact ⟨.plain c, scan_plain hc.1 hline hc.2.1 t, rfl, rfl, trivial⟩
  | @letter d c hd =>
    have hletter : ∀ e ∈ letterEscapes, isLineTerminator e.1 = false ∧
        Escape.ofChar? .script e.1 = some (.char e.2) := by decide
    obtain ⟨hline, hchar⟩ := hletter _ hd
    exact exists_scan_escape hq (u := [d]) (s := .char d c)
      (by simp [EscapeSequence.scan, hline, hchar]) rfl rfl
  | @hex digits hn hd =>
    have hcode := WrittenCode.fixed?_append hn hd t
    refine exists_scan_escape hq (u := 'x' :: digits) (s := .code 'x' digits (charOfHex digits))
      ?_ rfl rfl
    exact (congrArg (EscapeSequence.ofCode 'x') hcode).trans
      (EscapeSequence.ofCode_eq (isCharCode_of_two hn hd) (List.ne_nil_of_length_eq_add_one hn))
  | @fixed digits hn hc =>
    have hcode := WrittenCode.unicode?_fixed hn hc.isHex t
    refine exists_scan_escape hq (u := 'u' :: digits) (s := .code 'u' digits (charOfHex digits))
      ?_ rfl rfl
    exact (congrArg (EscapeSequence.ofCode 'u') hcode).trans
      (EscapeSequence.ofCode_eq hc (List.ne_nil_of_length_eq_add_one hn))
  | @braced digits hn hc =>
    have hne : digits ≠ [] := List.ne_nil_of_length_pos hn.1
    have hcode := WrittenCode.unicode?_braced hne hn.2 hc.isHex t
    have happ : '\x7b' :: (digits ++ ['\x7d']) ++ t = '\x7b' :: (digits ++ '\x7d' :: t) := by simp
    rw [← happ] at hcode
    refine exists_scan_escape hq (u := 'u' :: '\x7b' :: (digits ++ ['\x7d']))
      (s := .code 'u' ('\x7b' :: digits ++ ['\x7d']) (charOfHex digits)) ?_ rfl rfl
    exact (congrArg (EscapeSequence.ofCode 'u') hcode).trans (EscapeSequence.ofCode_eq hc hne)
  | @continuation terminator hterminator =>
    refine exists_scan_escape hq (s := .continuation terminator) ?_ rfl rfl
    obtain ⟨c, u, hcons, hline⟩ : ∃ c u, terminator = c :: u ∧ isLineTerminator c := by
      simp only [List.mem_cons, List.not_mem_nil, or_false] at hterminator
      rcases hterminator with rfl | rfl | rfl <;> exact ⟨_, _, rfl, rfl⟩
    have htext := EscapeSequence.terminatorOf_append hterminator ht
    subst hcons
    rw [List.cons_append] at htext ⊢
    rw [EscapeSequence.scan_terminator .script hline, htext]

/-- The pieces of a body are its elements. -/
theorem scan_body (hq : quote ∉ ['\\', '\n']) (h : StringBody quote body value) (rest : Text) :
    (scan quote (body ++ quote :: rest)).flatMap text = body ∧
      (scan quote (body ++ quote :: rest)).flatMap decoded = value ∧
      ∀ p ∈ scan quote (body ++ quote :: rest), p.IsSound := by
  obtain ⟨hback, hfeed⟩ : quote ≠ '\\' ∧ quote ≠ '\n' := by simpa using hq
  induction h with
  | nil =>
    rw [List.nil_append, scan, if_pos (by simp)]
    simp
  | @cons w v body value he h ih =>
    obtain ⟨p, hscan, rfl, rfl, hsound⟩ := exists_scan_element hback.symm he (h.head?_ne hfeed rest)
    obtain ⟨htext, hdecoded, hall⟩ := ih
    rw [List.append_assoc, hscan]
    refine ⟨?_, ?_, List.forall_mem_cons.mpr ⟨hsound, hall⟩⟩
    · rw [List.flatMap_cons, htext]
    · rw [List.flatMap_cons, hdecoded]

theorem mild_traces {ps : List StringPiece} (h : ∀ p ∈ ps, p.IsSound) (line : Text) :
    (traces quote line ps).Remarks fun m => m.issue.severity ≠ .error := by
  have hcodes : ∀ code ∈ escapeCodes, code ∉ errorCodes := by decide
  have hmild : ∀ m : Remark, m.HasCode escapeCodes → m.issue.severity ≠ .error :=
    fun m hm herror => hcodes _ hm (Issue.code_mem_errorCodes herror)
  refine remarks_traces (fun _ herror => by cases herror) (fun s hs => ?_) line
  refine s.remarks_trace (fun c m hm => hmild m (within_onLetter quote c m hm))
    (fun m hm => hmild m (within_onContinuation m hm)) (by decide) fun hbad => ?_
  have hsound : s.isBad = false := h _ hs
  simp [hsound] at hbad

end StringPiece

/-- A string without bad escapes is closed by its quote, stands for what its elements do, and has
no errors. -/
theorem Lexeme.string_of_body (hq : quote ∉ ['\\', '\n']) (h : StringBody quote body value)
    (rest : Text) : (string quote (body ++ quote :: rest)).raw = quote :: (body ++ [quote]) ∧
      (string quote (body ++ quote :: rest)).value = .string value ∧
      (string quote (body ++ quote :: rest)).unclosed = false ∧
      (string quote (body ++ quote :: rest)).trace.Remarks fun m => m.issue.severity ≠ .error := by
  obtain ⟨htext, hdecoded, hsound⟩ := StringPiece.scan_body hq h rest
  have hunclosed : (string quote (body ++ quote :: rest)).unclosed = false := by
    rw [unclosed_string htext]
    simp
  refine ⟨?_, congrArg TokenValue.string hdecoded, hunclosed, ?_⟩
  · rw [raw_string, htext, hunclosed]
    rfl
  · have hpieces : (StringPiece.traces quote [] (StringPiece.scan quote
        (body ++ quote :: rest))).Remarks fun m => m.issue.severity ≠ .error :=
      StringPiece.mild_traces hsound []
    have hquote : Issue.singleQuotedString.severity ≠ .error := by decide
    have hscript : Issue.scriptUrl.severity ≠ .error := by decide
    simp [string, htext, hpieces, hquote, hscript]

theorem Lexeme.scan_quote [UnicodePrimitives] (hq : quote = '"' ∨ quote = '\'') (context : Context)
    (t : Text) :
    scan context (quote :: t) = string quote t := by
  have hword : isWordStart quote = false :=
    isWordStart_of_isAsciiMark (by rcases hq with rfl | rfl <;> decide)
  have hname : ¬ Name.begins (quote :: t) := by
    rcases hq with rfl | rfl <;> simp [Opening.begins_name_iff, hword]
  have hnumber : ¬ NumberLiteral.begins (quote :: t) := by
    rcases hq with rfl | rfl <;> simp [Opening.begins_number_iff]
  rw [scan, scanCons, if_neg hname, if_neg hnumber, if_pos (by simpa using hq)]

theorem Text.preamble_quote (hq : quote = '"' ∨ quote = '\'') (t : Text) :
    Text.preamble (quote :: t) = [] := by
  rcases hq with rfl | rfl <;> exact preamble_eq_nil (by simp [byteOrderMark]) (by simp)

theorem startsToken_quote (hq : quote = '"' ∨ quote = '\'') (t : Text) :
    startsToken (quote :: t) := by
  rcases hq with rfl | rfl <;> rfl

structure Token.IsString (k : Token) (raw value : Text) : Prop where
  raw : k.raw = raw
  value : k.value = .string value
  malformed : k.malformed = false
  unclosed : k.unclosed = false

namespace Lexer

/-- A text that starts with a string is lexed as that string first, decoded element by element and
without errors, whatever follows it. -/
theorem strings_decoded [UnicodePrimitives] (hq : quote = '"' ∨ quote = '\'')
    (h : StringBody quote body value)
    (rest : Text) (o : Options) (w : Bool) :
    ∃ k l', (start (quote :: (body ++ quote :: rest)) o w).next = some (k, l') ∧
      k.IsString (quote :: (body ++ [quote])) value ∧ l'.reader.rest = rest ∧
      ∀ d ∈ l'.diagnostics.toList, d.severity ≠ .error := by
  obtain ⟨t, ht⟩ : ∃ t : Text, quote :: (body ++ quote :: rest) = t := ⟨_, rfl⟩
  obtain ⟨hraw, hvalue, hunclosed, hmild⟩ :=
    Lexeme.string_of_body (by rcases hq with rfl | rfl <;> decide) h rest
  have hscan := Lexeme.scan_quote hq (start t o w).context (body ++ quote :: rest)
  rw [← hscan, ht] at hraw hvalue hunclosed hmild
  have hpreamble : t.preamble = [] := ht ▸ Text.preamble_quote hq _
  have hstarts : startsToken t := ht ▸ startsToken_quote hq _
  have hkind : (Lexeme.scan (start t o w).context t).kind = .string :=
    congrArg TokenValue.kind hvalue
  obtain ⟨u, hu, hlexeme, hnext, hrest⟩ := exists_first hpreamble hstarts o w (by simp [hkind])
  have hu : u = rest := by
    rw [hraw, ← ht] at hu
    simpa using hu.symm
  rw [← hlexeme] at hmild hraw hvalue hunclosed hkind
  obtain ⟨ds, hds, herrors⟩ := exists_mild hmild
  have hmalformed : (start t o w).reading.lexeme.malformed = false := by
    rw [← hunclosed]
    exact Lexeme.malformed_scan _ _ (.inl hkind)
  rw [ht]
  refine ⟨_, _, hnext, ⟨hraw, hvalue, hmalformed, hunclosed⟩, hrest.trans hu, fun d hd => ?_⟩
  rw [hds] at hd
  exact herrors d hd

/-- A quote of the other kind, a digit behind an escape of two digits, a character beyond the basic
plane, and a line that is continued twice. -/
theorem strings_decoded_of_escapes : ∃ k l',
    (start "\"'\\x411\\u\x7b1F600\x7d\\\r\n\\\r\"2".toList { json := true } true).next =
        some (k, l') ∧
      k.IsString "\"'\\x411\\u\x7b1F600\x7d\\\r\n\\\r\"".toList "'A1😀".toList ∧
      l'.reader.rest = "2".toList ∧ ∀ d ∈ l'.diagnostics.toList, d.severity ≠ .error := by
  have hbody : StringBody '"'
      (['\''] ++ (['\\', 'x', '4', '1'] ++ (['1'] ++
        (['\\', 'u', '\x7b', '1', 'F', '6', '0', '0', '\x7d'] ++
          (['\\', '\r', '\n'] ++ (['\\', '\r'] ++ []))))))
      (['\''] ++ (['A'] ++ (['1'] ++ (['😀'] ++ ([] ++ ([] ++ [])))))) :=
    .cons (.plain (by decide)) <|
      .cons (@StringElement.hex _ ['4', '1'] rfl (List.all_eq_true.mp rfl)) <|
      .cons (.plain (by decide)) <|
      .cons (@StringElement.braced _ ['1', 'F', '6', '0', '0'] (by decide)
        ⟨List.all_eq_true.mp rfl, by decide⟩) <|
      .cons (.continuation (by decide)) <| .cons (.continuation (by decide)) .nil
  exact strings_decoded (.inl rfl) hbody ['2'] { json := true } true

end Lexer

end EcmaLex
