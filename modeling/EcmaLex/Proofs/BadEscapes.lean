import EcmaLex.Primitives.Standard
import EcmaLex.Proofs.Places
import EcmaLex.Proofs.StringBody
import Mathlib.Data.List.Basic

/-!
# Bad escapes

A bad escape of a string stands for its backslash and its letter. Most bad escapes are nothing more
than that, and so they are kept as they are written. Only the code that names no character is read
with its digits, which are lost. So a string stands for its characters, for what its escapes name,
and for its bad escapes without such digits.
-/

namespace EcmaLex

open Trace (onlyIf noteStart)

def EscapeSequence.lost : EscapeSequence → Text
  | bad _ written => written
  | _ => []

namespace StringPiece

def isBad : StringPiece → Bool
  | plain _ => false
  | escape s => s.isBad

def lost : StringPiece → Text
  | plain _ => []
  | escape s => s.lost

def verbatim (p : StringPiece) : Text := if p.isBad then p.text else p.decoded

def badPlaces (n : Nat) : List StringPiece → List Nat
  | [] => []
  | p :: ps => (if p.isBad then [n] else []) ++ badPlaces (n + p.text.length) ps

end StringPiece

/-- The code of no character as it is written behind the letter of an escape: in four digits, or in
up to six of them between braces. -/
inductive Nameless : Text → Prop where
  | fixed {digits : Text} (hn : digits.length = 4) (hd : ∀ d ∈ digits, isHexDigit d)
      (hv : ¬ (ofDigits 16 digits).isValidChar) : Nameless digits
  | braced {digits : Text} (hn : 1 ≤ digits.length ∧ digits.length ≤ 6)
      (hd : ∀ d ∈ digits, isHexDigit d) (hv : ¬ (ofDigits 16 digits).isValidChar) :
      Nameless ('\x7b' :: (digits ++ ['\x7d']))

inductive BadEscape : Char → Text → Prop where
  | kept {letter : Char} (h : letter ∉ letterEscapes.map Prod.fst) : BadEscape letter []
  | nameless {written : Text} (h : Nameless written) : BadEscape 'u' written

variable {quote : Char}

theorem decodeHex?_cases {digits : Text} (hne : digits ≠ []) (hd : ∀ d ∈ digits, isHexDigit d) :
    decodeHex? digits = some (charOfHex digits) ∧ IsCharCode digits ∨
      decodeHex? digits = none ∧ ¬ (ofDigits 16 digits).isValidChar := by
  by_cases hv : (ofDigits 16 digits).isValidChar
  · have hcode : IsCharCode digits := ⟨hd, hv⟩
    exact .inl ⟨hcode.decodeHex? hne, hcode⟩
  · refine .inr ⟨?_, hv⟩
    rw [decodeHex?_of_isHexDigit hne hd, Char.ofCode?, dif_neg hv]

theorem Escape.ofChar?_cases {c : Char} {e : Escape} (h : ofChar? .script c = some e) :
    (∃ d, e = char d ∧ (c, d) ∈ letterEscapes) ∨ e = hex ∧ c = 'x' ∨ e = unicode ∧ c = 'u' := by
  have hcommon : common? c = some e := h
  unfold common? at hcommon
  split at hcommon
  all_goals first
    | (obtain rfl := Option.some.inj hcommon; exact .inl ⟨_, rfl, by decide⟩)
    | (obtain rfl := Option.some.inj hcommon; exact .inr (by decide))
    | cases hcommon

theorem not_mem_letterEscapes {c : Char} (h : ∀ d, Escape.ofChar? .script c ≠ some (.char d)) :
    c ∉ letterEscapes.map Prod.fst := by
  have hletter : ∀ e ∈ letterEscapes, Escape.ofChar? .script e.1 = some (.char e.2) := by decide
  intro hc
  obtain ⟨e, he, rfl⟩ := List.mem_map.mp hc
  exact h _ (hletter e he)

theorem terminatorOf_mem {c : Char} (hc : isLineTerminator c) (t : Text) :
    EscapeSequence.terminatorOf (c :: t) ∈ [['\n'], ['\r'], ['\r', '\n']] := by
  unfold EscapeSequence.terminatorOf
  split
  · decide
  · have hc : c = '\n' ∨ c = '\r' := by simpa [isLineTerminator] using hc
    rcases hc with rfl | rfl <;> simp

namespace EscapeSequence

def Classified (quote : Char) (s : EscapeSequence) : Prop :=
  s.isBad = false ∧ StringElement quote s.text s.decoded ∨
    ∃ letter written, s = bad letter written ∧ BadEscape letter written

theorem classified_hex (t : Text) : Classified quote (ofCode 'x' (WrittenCode.fixed? 2 t)) := by
  cases hcode : WrittenCode.fixed? 2 t with
  | none => exact .inr ⟨'x', [], rfl, .kept (by decide)⟩
  | some w =>
    simp only [WrittenCode.fixed?, Option.ite_none_right_eq_some, Option.some.injEq,
      Bool.and_eq_true, decide_eq_true_eq, List.all_eq_true] at hcode
    obtain ⟨⟨hn, hd⟩, rfl⟩ := hcode
    have hne : t.take 2 ≠ [] := List.ne_nil_of_length_eq_add_one hn
    rw [ofCode_eq (isCharCode_of_two hn hd) hne]
    exact .inl ⟨rfl, .hex hn hd⟩

/-- A sequence of a code in hexadecimal digits is an element if the code names a character. -/
theorem classified_ofCode {written digits : Text} (hne : digits ≠ [])
    (hd : ∀ d ∈ digits, isHexDigit d)
    (helement : IsCharCode digits → StringElement quote ('\\' :: 'u' :: written)
      [charOfHex digits])
    (hnameless : ¬ (ofDigits 16 digits).isValidChar → Nameless written) :
    Classified quote (ofCode 'u' (some ⟨written, digits⟩)) := by
  rcases decodeHex?_cases hne hd with ⟨-, hc⟩ | ⟨hnone, hv⟩
  · rw [ofCode_eq hc hne]
    exact .inl ⟨rfl, helement hc⟩
  · have hdecoded : (WrittenCode.mk written digits).decoded? = none := hnone
    refine .inr ⟨'u', written, ?_, .nameless (hnameless hv)⟩
    simp only [ofCode, hdecoded]

theorem classified_unicode (t : Text) : Classified quote (ofCode 'u' (WrittenCode.unicode? t)) := by
  cases hcode : WrittenCode.unicode? t with
  | none => exact .inr ⟨'u', [], rfl, .kept (by decide)⟩
  | some w =>
    unfold WrittenCode.unicode? at hcode
    split at hcode
    · obtain ⟨-, -, hraw, hne, hn, hd⟩ := WrittenCode.braced?_eq_some hcode
      obtain ⟨written, digits⟩ := w
      obtain rfl : written = '\x7b' :: (digits ++ ['\x7d']) := hraw
      have hn : 1 ≤ digits.length ∧ digits.length ≤ 6 := ⟨List.length_pos_iff.mpr hne, hn⟩
      exact classified_ofCode hne hd (.braced hn) (.braced hn hd)
    · simp only [WrittenCode.fixed?, Option.ite_none_right_eq_some, Option.some.injEq,
        Bool.and_eq_true, decide_eq_true_eq, List.all_eq_true] at hcode
      obtain ⟨⟨hn, hd⟩, rfl⟩ := hcode
      have hne : List.take 4 _ ≠ [] := List.ne_nil_of_length_eq_add_one hn
      exact classified_ofCode hne hd (.fixed hn) (.fixed hn hd)

/-- Only a backslash at the end of the text is neither an element nor bad. -/
theorem classified_scan (c : Char) (t : Text) : Classified quote (scan .script (c :: t)) := by
  by_cases hc : isLineTerminator c
  · rw [scan_terminator .script hc]
    exact .inl ⟨rfl, .continuation (terminatorOf_mem hc t)⟩
  · simp only [scan, if_neg hc]
    cases he : Escape.ofChar? .script c with
    | none => exact .inr ⟨c, [], rfl, .kept (not_mem_letterEscapes fun d => by simp [he])⟩
    | some e =>
      rcases Escape.ofChar?_cases he with ⟨d, rfl, hd⟩ | ⟨rfl, rfl⟩ | ⟨rfl, rfl⟩
      · exact .inl ⟨rfl, .letter hd⟩
      · exact classified_hex t
      · exact classified_unicode t

/-- A bad escape is remarked on at its backslash, and nothing else is remarked on so. -/
theorem foundOf_trace (quote : Char) (o : Options) (n : Nat) (s : EscapeSequence) :
    (s.trace (StringPiece.onLetter quote) StringPiece.onContinuation).foundOf ["bad_escapement"] o
      n = if s.isBad then [(n, .badEscapement)] else [] := by
  have hsafe : Issue.unsafeCharacter.code ∉ ["bad_escapement"] := by decide
  have hcodes : ∀ code ∈ StringPiece.escapeCodes, code ∉ ["bad_escapement"] := by decide
  have hletter : ∀ c, ∀ m ∈ StringPiece.onLetter quote c, m.issue.code ∉ ["bad_escapement"] :=
    fun c m hm => hcodes _ (StringPiece.within_onLetter quote c m hm)
  cases hbad : s.isBad with
  | false =>
    refine Trace.foundOf_eq_nil hsafe (s.remarks_trace hletter
      (fun m hm => hcodes _ (StringPiece.within_onContinuation m hm)) (by decide) fun h => ?_)
    simp [hbad] at h
  | true =>
    cases s with
    | bad letter written =>
      have hremarks : (onBackslash 1 (StringPiece.onLetter quote letter)).foundOf
          ["bad_escapement"] o (n + 1) = [] :=
        Trace.foundOf_eq_nil hsafe ((remarks_onBackslash _ _).mpr (hletter letter))
      have hreads : ∀ k, (Trace.reads (letter :: written)).foundOf ["bad_escapement"] o k = [] :=
        fun k => Trace.foundOf_eq_nil hsafe (Trace.remarks_reads _)
      rw [trace, Trace.foundOf_append, hreads, Trace.foundOf_append, Trace.foundOf_read hsafe,
        hremarks, Trace.noteAt, Trace.foundOf_note]
      simp [Rule.holds, Issue.code, Place.offset]
    | _ => simp [isBad] at hbad

end EscapeSequence

namespace StringPiece

structure Classified (quote : Char) (p : StringPiece) : Prop where
  sound : p.isBad = false → StringElement quote p.text p.decoded
  bad : p.isBad → ∃ letter, BadEscape letter p.lost ∧ p.text = '\\' :: letter :: p.lost ∧
    p.decoded = ['\\', letter]

theorem lost_of_not_isBad {p : StringPiece} (h : p.isBad = false) : p.lost = [] := by
  cases p with
  | plain c => rfl
  | escape s =>
    cases s with
    | bad letter written => simp [isBad, EscapeSequence.isBad] at h
    | _ => rfl

theorem Classified.verbatim_eq {p : StringPiece} (h : p.Classified quote) :
    p.verbatim = p.decoded ++ p.lost := by
  cases hbad : p.isBad with
  | false => rw [verbatim, hbad, lost_of_not_isBad hbad, List.append_nil, if_neg Bool.false_ne_true]
  | true =>
    obtain ⟨letter, -, htext, hdecoded⟩ := h.bad hbad
    rw [verbatim, if_pos hbad, htext, hdecoded]
    rfl

/-- A piece that does not end the text is an element or a bad escape. -/
theorem classified_step {c : Char} {t : Text} (hs : stopsAt quote (c :: t) = false) (ht : t ≠ []) :
    (step c t).Classified quote := by
  have hs : c ≠ quote ∧ isLineTerminator c = false := by simpa [stopsAt] using hs
  have hline : c ≠ '\n' ∧ c ≠ '\r' := by simpa [isLineTerminator] using hs.2
  by_cases hc : c = '\\'
  · obtain ⟨d, t, rfl⟩ := List.exists_cons_of_ne_nil ht
    rw [step, if_pos hc]
    have hscan : EscapeSequence.Classified quote _ := EscapeSequence.classified_scan d t
    rcases hscan with ⟨hbad, helement⟩ | ⟨letter, written, hbad, hlost⟩
    · refine ⟨fun _ => helement, fun h => ?_⟩
      simp [isBad, hbad] at h
    · rw [hbad]
      refine ⟨fun h => ?_, fun _ => ⟨letter, hlost, rfl, rfl⟩⟩
      simp [isBad, EscapeSequence.isBad] at h
  · rw [step, if_neg hc]
    refine ⟨fun _ => .plain (by simp [hs.1, hc, hline]), fun h => ?_⟩
    simp [isBad] at h

theorem classified_scan {u r : Text} (hu : u = (scan quote u).flatMap text ++ quote :: r) :
    ∀ p ∈ scan quote u, p.Classified quote := by
  obtain ⟨r', hr', hall⟩ := (pieceScan quote).exists_rest_of (s := ()) (t := u)
    (motive := fun ps r => r ≠ [] → ∀ p ∈ ps, p.Classified quote) (by simp)
    (fun hs _ hps hr => List.forall_mem_cons.mpr
      ⟨classified_step hs (by simp [hr]), hps hr⟩)
  have hr : r' = quote :: r := List.append_cancel_left (hr'.symm.trans hu)
  exact hall (by simp [hr])

/-- The bad escapes among some pieces are remarked on where they stand. -/
theorem foundOf_traces (o : Options) (n : Nat) (line : Text) (ps : List StringPiece) :
    (traces quote line ps).foundOf ["bad_escapement"] o n =
      (badPlaces n ps).map fun n => (n, .badEscapement) := by
  have hsafe : Issue.unsafeCharacter.code ∉ ["bad_escapement"] := by decide
  induction ps generalizing n line with
  | nil => rfl
  | cons p ps ih =>
    cases p with
    | plain c =>
      have hcontrol : (Issue.controlCharacterInString line.reverse).code ∉ ["bad_escapement"] := by
        simp [Issue.code]
      rw [traces, Trace.foundOf_append,
        Trace.foundOf_eq_nil hsafe (by simpa using fun _ => by simpa using hcontrol),
        Trace.foundOf_read hsafe, ih]
      simp [badPlaces, isBad, text]
    | escape s =>
      rw [traces, Trace.foundOf_append, EscapeSequence.foundOf_trace, ih,
        EscapeSequence.text_trace, badPlaces, List.map_append]
      cases hbad : s.isBad <;> simp [isBad, hbad, text]

end StringPiece

namespace Lexeme

/-- What is remarked on a string as a bad escape. -/
theorem foundOf_string (o : Options) (u : Text) :
    (string quote u).trace.foundOf ["bad_escapement"] o 0 =
      (StringPiece.badPlaces 1 (StringPiece.scan quote u)).map fun n => (n, .badEscapement) := by
  have hsafe : Issue.unsafeCharacter.code ∉ ["bad_escapement"] := by decide
  have hquote : (onlyIf (quote = '\'') (noteStart .singleQuotedString .json)).foundOf
      ["bad_escapement"] o 0 = [] := Trace.foundOf_eq_nil hsafe (by simp [Issue.code])
  have hend : ∀ (closed : Prop) [Decidable closed] (isUrl : Bool) (k : Nat),
      Trace.foundOf ["bad_escapement"] o k
        ((if closed then [.read quote] else noteStart .unclosedString) ++
          onlyIf isUrl (noteStart .scriptUrl .scripturl)) = [] := by
    intro closed _ isUrl k
    refine Trace.foundOf_eq_nil hsafe ?_
    by_cases hclosed : closed <;> simp [hclosed, Issue.code]
  have hbody : ∀ s : Trace, Trace.foundOf ["bad_escapement"] o 0
      (onlyIf (quote = '\'') (noteStart .singleQuotedString .json) ++ .read quote :: s) =
        s.foundOf ["bad_escapement"] o 1 := by
    intro s
    rw [Trace.foundOf_append, hquote, Trace.foundOf_read hsafe]
    simp
  simp only [string, List.append_assoc, List.cons_append, hbody]
  rw [Trace.foundOf_append, StringPiece.foundOf_traces, hend, List.append_nil]

theorem exists_string_of_kind [Primitives] {context : Context} {t : Text}
    (h : (scan context t).kind = .string) : ∃ quote u, t = quote :: u ∧
      scan context t = string quote u := by
  have hne : (scan context t).kind ≠ .eof := by simp [h]
  obtain ⟨o, c, u, rfl, hscan, -, hkind⟩ := Opening.exists_of_kind hne
  rw [h] at hkind
  cases o with
  | string => exact ⟨c, u, rfl, hscan⟩
  | _ => simp [Opening.kinds] at hkind

end Lexeme

/-- The token `k` is a closed string between such quotes with these pieces. It stands for all of
them but for what its bad escapes lose. -/
structure Token.Keeps (k : Token) (quote : Char) (ps : List StringPiece) : Prop where
  raw : k.raw = quote :: (ps.flatMap StringPiece.text ++ [quote])
  pieces : ∀ p ∈ ps, p.Classified quote
  value : k.value = .string (ps.flatMap StringPiece.decoded)
  /-- The bad escapes are kept as they are written if and only if nothing is lost of them. -/
  verbatim : k.value = .string (ps.flatMap StringPiece.verbatim) ↔ ∀ p ∈ ps, p.lost = []
  /-- So it is with a body of plain characters and bad escapes, which then is its own value. -/
  body : (∀ p ∈ ps, p.isBad ∨ ∃ c, p = .plain c) →
    (k.value = .string (ps.flatMap StringPiece.text) ↔ ∀ p ∈ ps, p.lost = [])

namespace StringPiece

/-- Some pieces stand for all that they should if and only if nothing is lost of them. -/
theorem flatMap_decoded_eq_iff {ps : List StringPiece} (h : ∀ p ∈ ps, p.Classified quote) :
    ps.flatMap decoded = ps.flatMap verbatim ↔ ∀ p ∈ ps, p.lost = [] := by
  have hlength : ∀ qs ⊆ ps, (qs.flatMap verbatim).length =
      (qs.flatMap decoded).length + (qs.flatMap lost).length := by
    intro qs hqs
    induction qs with
    | nil => rfl
    | cons p qs ih =>
      have hp := (h p (hqs List.mem_cons_self)).verbatim_eq
      have hmore := ih (List.subset_of_cons_subset hqs)
      simp only [List.flatMap_cons, List.length_append, hp, hmore]
      omega
  constructor
  · intro heq
    have hall := hlength ps (List.Subset.refl ps)
    rw [heq] at hall
    have hnil : ps.flatMap lost = [] := List.length_eq_zero_iff.mp (by omega)
    exact List.flatMap_eq_nil_iff.mp hnil
  · intro hlost
    refine List.flatMap_congr fun p hp => ?_
    rw [(h p hp).verbatim_eq, hlost p hp, List.append_nil]

end StringPiece

/-- A string that is closed keeps its pieces. -/
theorem Token.keeps_of_string {k : Token} {u : Text} (hraw : k.raw = (Lexeme.string quote u).raw)
    (hvalue : k.value = (Lexeme.string quote u).value)
    (hclosed : (Lexeme.string quote u).unclosed = false) :
    k.Keeps quote (StringPiece.scan quote u) := by
  obtain ⟨body, r, hu, hbody, ⟨r, rfl, -⟩ | ⟨-, hopen⟩⟩ := Lexeme.string_cases quote u
  · rw [← hbody] at hu
    have hpieces := StringPiece.classified_scan hu
    have hvalue : k.value = .string ((StringPiece.scan quote u).flatMap StringPiece.decoded) :=
      hvalue
    have hverbatim : k.value = .string ((StringPiece.scan quote u).flatMap StringPiece.verbatim) ↔
        ∀ p ∈ StringPiece.scan quote u, p.lost = [] := by
      rw [hvalue, TokenValue.string.injEq, StringPiece.flatMap_decoded_eq_iff hpieces]
    refine ⟨?_, hpieces, hvalue, hverbatim, fun hbad => ?_⟩
    · rw [hraw, Lexeme.raw_string, hclosed]
      rfl
    · have htext : (StringPiece.scan quote u).flatMap StringPiece.text =
          (StringPiece.scan quote u).flatMap StringPiece.verbatim := by
        refine List.flatMap_congr fun p hp => ?_
        rcases hbad p hp with h | ⟨c, rfl⟩
        · rw [StringPiece.verbatim, if_pos h]
        · rfl
      rw [htext, hverbatim]
  · simp [hclosed] at hopen

namespace Lexer

/-- Every closed string of a text stands for what its characters, escapes, and continued lines do,
and keeps its bad escapes as they are written, but for the digits of codes that name no character.
Each bad escape is reported at its backslash. -/
theorem bad_escapes_kept [Primitives] (t : Text) (o : Options) (w : Bool) (n : Nat) {k : Token}
    {l' : Lexer}
    (h : ((start t o w).calls n).2.next = some (k, l')) (hk : k.kind = .string)
    (hclosed : k.unclosed = false) : ∃ (quote : Char) (u : Text),
      (∃ p : Text, t = p ++ quote :: u ∧ p.utf8Size = k.range.1) ∧
      k.Keeps quote (StringPiece.scan quote u) ∧
      l'.reader.reported ["bad_escapement"] =
        ((start t o w).calls n).2.reader.reported ["bad_escapement"] ++
          (StringPiece.badPlaces 1 (StringPiece.scan quote u)).map
            fun n => Issue.badEscapement.diagnostic (k.start.along (quote :: u) n) := by
  obtain ⟨v, context, hreads⟩ := exists_readsLexeme t o w n h
  have hkind : (Lexeme.scan context v).kind = .string := by
    rw [Lexeme.kind, ← hreads.value]
    exact hk
  obtain ⟨quote, u, rfl, hscan⟩ := Lexeme.exists_string_of_kind hkind
  rw [hscan] at hreads
  have hcodes : ∀ code ∈ passedCodes, code ∉ ["bad_escapement"] := by decide
  refine ⟨quote, u, hreads.place,
    Token.keeps_of_string hreads.raw hreads.value (hreads.unclosed.symm.trans hclosed), ?_⟩
  rw [hreads.reported _ hcodes, Lexeme.foundOf_string, List.map_map]
  rfl

/-- Three bad escapes on two lines, of which one is a code that names no character. -/
theorem bad_escapes_kept_of_surrogate : ∃ k l',
    ((start "x='\\q\\\n\\uD800\\x4'".toList {} false).calls 2).2.next = some (k, l') ∧
      k.kind = .string ∧ k.unclosed = false ∧ k.value = .string "\\q\\u\\x4".toList ∧
      l'.reader.reported ["bad_escapement"] =
        [{ line := 1, column := 4 }, { line := 2, column := 1 }, { line := 2, column := 7 }].map
          Issue.badEscapement.diagnostic ∧
      ∃ (quote : Char) (u : Text), (∃ p : Text, "x='\\q\\\n\\uD800\\x4'".toList = p ++ quote :: u ∧
          p.utf8Size = k.range.1) ∧
        k.Keeps quote (StringPiece.scan quote u) ∧
        l'.reader.reported ["bad_escapement"] =
          ((start "x='\\q\\\n\\uD800\\x4'".toList {} false).calls 2).2.reader.reported
              ["bad_escapement"] ++
            (StringPiece.badPlaces 1 (StringPiece.scan quote u)).map
              fun n => Issue.badEscapement.diagnostic (k.start.along (quote :: u) n) := by
  have hcall : ((start "x='\\q\\\n\\uD800\\x4'".toList {} false).calls 2).2.next.any fun (k, l') =>
      k.kind = .string && !k.unclosed && k.value = .string "\\q\\u\\x4".toList &&
      l'.reader.reported ["bad_escapement"] =
        [{ line := 1, column := 4 }, { line := 2, column := 1 }, { line := 2, column := 7 }].map
          Issue.badEscapement.diagnostic := by
    decide +kernel
  obtain ⟨⟨k, l'⟩, h, hfacts⟩ := (Option.any_eq_true _ _).mp hcall
  simp only [Bool.and_eq_true, Bool.not_eq_true', decide_eq_true_eq] at hfacts
  obtain ⟨⟨⟨hk, hclosed⟩, hvalue⟩, hreported⟩ := hfacts
  exact ⟨k, l', h, hk, hclosed, hvalue, hreported, bad_escapes_kept _ _ _ 2 h hk hclosed⟩

/-- The digits of the surrogate are read and reported, and yet are no part of the value. -/
theorem bad_escape_digits_lost : ∃ k ∈ (start "'\\uD800'".toList {} false).tokens.1,
    k.unclosed = false ∧ k.raw = "'\\uD800'".toList ∧ k.value = .string "\\u".toList ∧
      k.value ≠ .string ((StringPiece.scan '\'' "\\uD800'".toList).flatMap StringPiece.verbatim) ∧
      (start "'\\uD800'".toList {} false).tokens.2.reader.reported ["bad_escapement"] =
        [Issue.badEscapement.diagnostic { column := 2 }] := by
  decide +kernel

end Lexer

end EcmaLex
