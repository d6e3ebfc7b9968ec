import EcmaLex.Proofs.Gap
import EcmaLex.Proofs.LineEnds.Literal

/-!
# Lexemes of unified texts

What is scanned at the start of a unified text is what is scanned at the start of the text itself,
with a line feed for each line end in it.
-/

namespace EcmaLex

open Text (Inline Apart lineEnds inline_append inline_cons inline_nil)
open Trace (reads onlyIf noteAt noteHere noteStart)

namespace CommentPiece

theorem scan_opening (depth : Nat) (t : Text) :
    scan depth ('/' :: '*' :: t) = opening :: scan (depth + 1) t := scan.eq_2 depth t

theorem scan_zero_closing (t : Text) : scan 0 ('*' :: '/' :: t) = [] := scan.eq_3 t

theorem scan_succ_closing (depth : Nat) (t : Text) :
    scan (depth + 1) ('*' :: '/' :: t) = closing :: scan depth t := scan.eq_4 t depth

theorem scan_char {depth : Nat} {c : Char} {t : Text} (ho : ¬ (c = '/' ∧ t.head? = some '*'))
    (hc : ¬ (c = '*' ∧ t.head? = some '/')) : scan depth (c :: t) = char c :: scan depth t := by
  apply scan.eq_5
  · rintro r rfl rfl
    exact ho ⟨rfl, rfl⟩
  · rintro r rfl rfl
    exact hc ⟨rfl, rfl⟩

theorem scan_terminator (depth : Nat) {c : Char} (hc : isLineTerminator c) (t : Text) :
    scan depth (c :: t) = char c :: scan depth t := by
  rcases isLineTerminator_iff.mp hc with rfl | rfl
  · exact scan_char (by simp) (by simp)
  · exact scan_char (by simp) (by simp)

theorem trace_scan_lineEnd (depth : Nat) {b : Text} (hb : b ∈ lineEnds) (r : Text) :
    (scan depth (b ++ r)).flatMap trace = reads b ++ (scan depth r).flatMap trace := by
  simp only [lineEnds, List.mem_cons, List.not_mem_nil, or_false] at hb
  rcases hb with rfl | rfl | rfl
  all_goals
    simp only [List.cons_append, List.nil_append, scan_terminator _ (c := '\n') rfl,
      scan_terminator _ (c := '\r') rfl]
    rfl

theorem text_flatMap_trace (ps : List CommentPiece) :
    Trace.text (ps.flatMap trace) = ps.flatMap text := by
  simp only [Trace.text_flatMap, text_trace]

theorem scan_prefix (depth : Nat) (t : Text) : (scan depth t).flatMap text <+: t := by
  obtain ⟨r, hr, -⟩ := exists_pieces depth t
  exact ⟨r, hr.symm⟩

/-- The trace of a comment is unified with its text. -/
theorem unifies_scan (depth : Nat) (t : Text) (n : Nat) :
    Trace.Unifies n ((scan depth t.unified).flatMap trace) ((scan depth t).flatMap trace) := by
  induction t using Text.lineEnd_induction generalizing depth n with
  | nil => exact .nil
  | lineEnd b r hb hr hunified ih =>
    rw [hunified, trace_scan_lineEnd depth hb, scan_terminator depth rfl]
    exact .line hb (hr.of_prefix (text_flatMap_trace _ ▸ scan_prefix depth r)) (ih depth 0)
  | char c t hc ih =>
    have hopen : (Text.unified t).head? = some '*' ↔ t.head? = some '*' :=
      Text.head?_unified_eq_some_iff rfl
    have hclose : (Text.unified t).head? = some '/' ↔ t.head? = some '/' :=
      Text.head?_unified_eq_some_iff rfl
    rw [Text.unified_cons_inline hc]
    by_cases ho : c = '/' ∧ t.head? = some '*'
    · obtain ⟨rfl, ht⟩ := ho
      obtain ⟨t, rfl⟩ := List.head?_eq_some_iff.mp ht
      rw [Text.unified_cons_inline rfl, scan_opening, scan_opening]
      exact .back (Nat.zero_le n) (.char rfl (.char rfl (ih t (by simp) _ _)))
    · by_cases he : c = '*' ∧ t.head? = some '/'
      · obtain ⟨rfl, ht⟩ := he
        obtain ⟨t, rfl⟩ := List.head?_eq_some_iff.mp ht
        rw [Text.unified_cons_inline rfl]
        cases depth with
        | zero =>
          rw [scan_zero_closing, scan_zero_closing]
          exact .nil
        | succ depth =>
          rw [scan_succ_closing, scan_succ_closing]
          exact .back (Nat.zero_le n) (.char rfl (.char rfl (ih t (by simp) _ _)))
      · rw [scan_char (by rwa [hopen]) (by rwa [hclose]), scan_char ho he]
        exact .char hc (ih t (Nat.le_refl _) _ _)

end CommentPiece

theorem Directive.ofBody?_unified (body : Text) : ofBody? body.unified = ofBody? body := by
  have hword : body.unified.takeWhile Char.isAlpha = body.takeWhile Char.isAlpha := by
    apply Text.takeWhile_unified
    exact fun c hc => isLineTerminator_of_pos (by decide) (by decide) hc
  simp only [ofBody?, hword]

theorem Lexeme.unifies_blockComment (t : Text) :
    (blockComment t.unified).Unifies (blockComment t) := by
  obtain ⟨r, ht, hr⟩ := CommentPiece.exists_pieces 0 t
  have htrace := CommentPiece.unifies_scan 0 t 2
  have htext := htrace.text_eq
  rw [CommentPiece.text_flatMap_trace, CommentPiece.text_flatMap_trace] at htext
  obtain ⟨body, hbody⟩ : ∃ body, (CommentPiece.scan 0 t).flatMap CommentPiece.text = body :=
    ⟨_, rfl⟩
  rw [hbody] at ht htext
  have hapart : Apart body r := by
    intro _
    rcases hr with rfl | ⟨r', rfl⟩ <;> simp
  have hclosed : (t.unified.drop (Text.unified body).length).isEmpty =
      (t.drop body.length).isEmpty := by
    rw [ht, Text.unified_append hapart, List.drop_left, List.drop_left, Bool.eq_iff_iff,
      List.isEmpty_iff, List.isEmpty_iff, Text.unified_eq_nil_iff]
  simp only [blockComment, htext, hbody, hclosed, Directive.ofBody?_unified]
  refine ⟨rfl, rfl, rfl, .inl ?_⟩
  have hbegin : Trace.Unifies 0
      (reads ['/', '*'] ++ (CommentPiece.scan 0 t.unified).flatMap CommentPiece.trace)
      (reads ['/', '*'] ++ (CommentPiece.scan 0 t).flatMap CommentPiece.trace) :=
    .reads (by decide) htrace
  refine hbegin.append ?_ ?_
  · split
    · exact .char rfl (.char rfl .nil)
    · exact .back (Nat.le_refl 0) .nil
  · intro _
    split <;> simp

theorem Lexeme.lineComment_unified (t : Text) : lineComment t.unified = lineComment t := by
  have hbody : t.unified.takeWhile (!isLineTerminator ·) = t.takeWhile (!isLineTerminator ·) :=
    Text.takeWhile_unified (by simp) t
  simp only [lineComment, hbody]

theorem Lexeme.number_unified [UnicodePrimitives] {a u : Text} (ha : (number (a ++ u)).raw = a) :
    number (a ++ u.unified) = number (a ++ u) := by
  rw [raw_number] at ha
  have hextent := NumberLiteral.extent_resume ha (Text.echoes_unified u)
  have hsame : NumberLiteral.runsInto '\r' = NumberLiteral.runsInto '\n' := by
    simp [NumberLiteral.runsInto, isWordStart_of_isAsciiMark (c := '\r') (by decide),
      isWordStart_of_isAsciiMark (c := '\n') (by decide)]
  have hnext : u.unified.head?.any NumberLiteral.runsInto = u.head?.any NumberLiteral.runsInto :=
    Text.any_head?_unified hsame u
  simp only [number, ha, hextent, List.drop_left, hnext]

theorem NumberLiteral.begins_unified {t : Text} (h : begins t) : begins t.unified := by
  cases t with
  | nil => exact h
  | cons c t =>
    rw [Opening.begins_number_iff] at h
    have hc : isLineTerminator c = false := by
      rcases h with ⟨rfl, -⟩ | hd
      · rfl
      · exact isLineTerminator_of_isDigit hd
    rw [Text.unified_cons_inline hc, Opening.begins_number_iff]
    refine h.imp_left (And.imp_right ?_)
    rintro ⟨d, ht, hd⟩
    exact ⟨d, (Text.head?_unified_eq_some_iff (isLineTerminator_of_isDigit hd)).mpr ht, hd⟩

theorem Lexeme.mark_unified {c : Char} {a u : Text} (ha : (mark c (a ++ u)).raw = c :: a) :
    mark c (a ++ u.unified) = mark c (a ++ u) :=
  mark_resume ha (Text.echoes_unified u) fun hn _ => NumberLiteral.begins_unified hn

theorem Lexeme.regex_unified [UnicodePrimitives] {a u : Text}
    (ha : (regex (a ++ u)).raw = '/' :: a) :
    regex (a ++ u.unified) = regex (a ++ u) := by
  obtain ⟨pattern, r, ht, hp, ⟨r, rfl⟩ | hr⟩ := regex_cases (a ++ u)
  · rw [ht] at hp ha ⊢
    obtain ⟨-, hraw, -⟩ := regex_closed hp
    obtain ⟨letters, hl⟩ : ∃ letters, r.takeWhile isWordPart = letters := ⟨_, rfl⟩
    rw [hraw, hl, List.cons_inj_right] at ha
    subst ha
    obtain rfl : letters ++ u = r := by simpa using ht
    have hl' := Text.takeWhile_append_of_echoes (fun _ => isOpen_of_isWordPart) hl
      (Text.echoes_unified u)
    have hs := RegexTerm.scan_resume hp
      (show foundAt ('/' :: (letters ++ u)) = foundAt ('/' :: (letters ++ u.unified)) from rfl)
    have hhead : (pattern ++ '/' :: (letters ++ u.unified)).head? =
        (pattern ++ '/' :: (letters ++ u)).head? := by
      rw [List.head?_append, List.head?_append]
      rfl
    have hslash := Text.head?_unified_eq_some_iff (c := '/') rfl (t := u)
    have hstar := Text.head?_unified_eq_some_iff (c := '*') rfl (t := u)
    rw [List.append_assoc, List.cons_append]
    simp only [regex, hs, hp, hhead, List.drop_left, hl, hl', hslash, hstar]
  · rw [ht] at hp ha ⊢
    obtain ⟨-, hraw, -⟩ := regex_unclosed hr hp
    rw [hraw, List.cons_inj_right] at ha
    subst ha
    obtain rfl : u = r := by simpa using ht
    have hr' : Text.endsLine u.unified := by rwa [Text.endsLine_unified]
    -- A pattern finds nothing at the end of its line, whatever ends that.
    have hs := RegexTerm.scan_resume hp
      (((foundAt_eq_nil_iff u).mpr hr).trans ((foundAt_eq_nil_iff _).mpr hr').symm)
    have hhead : (pattern ++ u.unified).head? = some '=' ↔ (pattern ++ u).head? = some '=' := by
      cases pattern with
      | nil => exact Text.head?_unified_eq_some_iff rfl
      | cons c pattern => rfl
    have hslash : ∀ r, ¬ Text.endsLine ('/' :: r) := by simp [Text.endsLine, isLineTerminator]
    simp only [regex, hs, hp, hhead, List.drop_left]
    split
    · rename_i heq
      exact absurd (heq ▸ hr') (hslash _)
    · split
      · exact absurd hr (hslash _)
      · rfl

theorem gap_terminator {c : Char} (hc : isLineTerminator c) (t : Text) :
    gap (c :: t) = .read c :: gap t := by
  refine gap_char ?_ t
  rw [CharClass.ofChar, if_pos hc]
  decide

theorem gap_lineEnd {b : Text} (hb : b ∈ lineEnds) (r : Text) :
    gap (b ++ r) = reads b ++ gap r := by
  simp only [lineEnds, List.mem_cons, List.not_mem_nil, or_false] at hb
  rcases hb with rfl | rfl | rfl
  · exact gap_terminator rfl r
  · exact gap_terminator rfl r
  · exact (gap_terminator rfl _).trans (congrArg _ (gap_terminator rfl r))

/-- The trace of a gap is unified with its text. -/
theorem unifies_gap (t : Text) (n : Nat) : Trace.Unifies n (gap t.unified) (gap t) := by
  induction t using Text.lineEnd_induction generalizing n with
  | nil => exact .nil
  | lineEnd b r hb hr hunified ih =>
    obtain ⟨u, hu, -⟩ := exists_gap r
    rw [hunified, gap_lineEnd hb, gap_terminator rfl]
    exact .line hb (hr.of_prefix ⟨u, hu.symm⟩) (ih 0)
  | char c t hc ih =>
    have hslash : (Text.unified t).head? = some '/' ↔ t.head? = some '/' :=
      Text.head?_unified_eq_some_iff rfl
    rw [Text.unified_cons_inline hc]
    by_cases hm : c = '*' ∧ t.head? = some '/'
    · obtain ⟨rfl, ht⟩ := hm
      obtain ⟨t, rfl⟩ := List.head?_eq_some_iff.mp ht
      rw [Text.unified_cons_inline rfl, gap, gap]
      exact .back (Nat.zero_le n) (.char rfl (.char rfl (ih t (by simp) _)))
    · by_cases hp : CharClass.ofChar c = .printable
      · have hstarts : ∀ {t : Text}, ¬ (c = '*' ∧ t.head? = some '/') → startsToken (c :: t) := by
          intro t h
          simpa [startsToken, hp, List.head?_eq_getElem?, imp_iff_not_or] using h
        rw [gap_of_startsToken (hstarts hm), gap_of_startsToken (hstarts (by rwa [hslash]))]
        exact .nil
      · rw [gap_char hp, gap_char hp]
        exact .char hc (ih t (Nat.le_refl _) _)

namespace Context

def unified (context : Context) : Context :=
  { context with previous := context.previous.map fun p => (p.1, p.2.unified) }

theorem contains_unified {names : List Text} (h : ∀ p ∈ names, Inline p) (t : Text) :
    names.contains t.unified = names.contains t :=
  Text.apply_unified (f := names.contains) (b := false) (fun t ht => by
    rw [Bool.eq_false_iff]
    intro hc
    exact ht (h t (by simpa using hc))) t

@[simp] theorem regexAllowed_unified (context : Context) :
    context.unified.regexAllowed = context.regexAllowed := by
  cases hp : context.previous with
  | none => simp [regexAllowed, unified, hp]
  | some p =>
    obtain ⟨kind, raw⟩ := p
    simp only [regexAllowed, unified, hp, Option.map_some]
    rw [contains_unified (by decide), contains_unified (by decide)]

theorem follows_unified {p : Text} (hp : Inline p) (context : Context) :
    context.unified.follows p = context.follows p := by
  cases hc : context.previous with
  | none => simp [follows, unified, hc]
  | some q =>
    obtain ⟨kind, raw⟩ := q
    have hraw : decide (raw.unified = p) = decide (raw = p) :=
      Text.apply_unified (f := fun t => decide (t = p)) (b := false) (fun t ht => by
        rw [decide_eq_false_iff_not]
        rintro rfl
        exact ht hp) raw
    rw [decide_eq_decide] at hraw
    simp [follows, unified, hc, hraw]

@[simp] theorem afterDot_unified (context : Context) :
    context.unified.afterDot = context.afterDot := by
  rw [afterDot, afterDot, follows_unified (by decide), follows_unified (by decide)]

@[simp] theorem keyExpected_unified (context : Context) :
    context.unified.keyExpected = context.keyExpected := by
  rw [keyExpected, keyExpected, follows_unified (by decide), follows_unified (by decide)]
  rfl

theorem nest_unified (brackets : List Char) (raw : Text) :
    nest brackets raw.unified = nest brackets raw :=
  Text.apply_unified (f := nest brackets) (b := brackets) (fun t ht => by
    unfold nest
    split
    all_goals first | rfl | exact absurd (by decide) ht) raw

theorem update_unified (context : Context) (kind : TokenKind) (raw : Text) :
    context.unified.update kind raw.unified = (context.update kind raw).unified := by
  simp only [update, nest_unified]
  rfl

end Context

theorem Opening.of_unified [Primitives] (regexAllowed : Bool) (c : Char) (t : Text) :
    of regexAllowed c t.unified = of regexAllowed c t := by
  apply of_congr
  intro d hd
  apply Text.head?_unified_eq_some_iff
  exact isLineTerminator_of_pos (p := isPair c) (by simp [isPair]) (by simp [isPair]) hd

namespace Lexeme

theorem name_unified [UnicodePrimitives] {context : Context} {a u : Text}
    (ha : (name context (a ++ u)).raw = a) :
    name context.unified (a ++ u.unified) = name context (a ++ u) := by
  have hcontext : name context.unified (a ++ u.unified) = name context (a ++ u.unified) := by
    simp only [name, Name.remarks, Context.afterDot_unified, Context.keyExpected_unified]
  rw [hcontext, name_resume ha (Text.echoes_unified u) fun he =>
    NamePart.begins_of_prefix (Text.prefix_of_prefix_unified (by decide) he)]

/-- The value of a lexeme on one line holds no line end. -/
theorem value_unified_of_isInline [UnicodePrimitives] {context : Context} {o : Opening} {c : Char}
    {t : Text}
    (ho : o.isInline) (hc : isLineTerminator c = false) :
    (o.lexeme context c t).value.unified = (o.lexeme context c t).value := by
  have hinline : Inline (o.lexeme context c t).raw := Opening.inline_raw ho hc
  cases o with
  | name =>
    simp only [Opening.lexeme, name]
    split <;> rfl
  | lineComment =>
    rw [Opening.lexeme, raw_lineComment, inline_cons, inline_cons] at hinline
    simp only [Opening.lexeme, lineComment, TokenValue.unified]
    rw [hinline.2.2.unified]
  | regex =>
    simp only [Opening.lexeme, regex]
    split <;> rfl
  | mark =>
    simp only [Opening.lexeme, mark]
    split <;> rfl
  | number => rfl
  | _ => simp [Opening.isInline] at ho

/-- A lexeme on one line is the same in the unified text. -/
theorem lexeme_unified_of_isInline [UnicodePrimitives] {context : Context} {o : Opening} {c : Char}
    {a u : Text}
    (ho : o.isInline) (hfits : o.Fits c (a ++ u)) (hinline : Inline a)
    (ha : (o.lexeme context c (a ++ u)).raw = c :: a) :
    o.lexeme context.unified c (a ++ u.unified) = o.lexeme context c (a ++ u) := by
  cases o with
  | name => exact name_unified (a := c :: a) ha
  | number => exact number_unified (a := c :: a) ha
  | lineComment =>
    obtain ⟨rfl, -⟩ := hfits
    obtain ⟨a, rfl⟩ := exists_of_raw_lineComment ha
    have hbody := lineComment_unified (a ++ u)
    rw [((inline_cons _ _).mp hinline).2.unified_append] at hbody
    exact hbody
  | regex =>
    obtain rfl : c = '/' := hfits
    exact regex_unified ha
  | mark => exact mark_unified ha
  | _ => simp [Opening.isInline] at ho

theorem exists_raw_scanCons [Primitives] (context : Context) (c : Char) (t : Text) :
    ∃ a u, t = a ++ u ∧ (scanCons context c t).raw = c :: a := by
  obtain ⟨u, hu⟩ := scanCons_prefix context c t
  obtain ⟨d, a, hd⟩ := List.exists_cons_of_ne_nil (raw_scanCons_ne_nil context c t)
  rw [hd, List.cons_append] at hu
  obtain ⟨rfl, rfl⟩ := List.cons.inj hu
  exact ⟨a, u, rfl, hd⟩

/-- What is scanned at the start of a unified text is what is scanned in the text itself. -/
theorem unifies_scanCons [UnicodePrimitives] (context : Context) {c : Char}
    (hc : isLineTerminator c = false)
    (t : Text) : (scanCons context.unified c t.unified).Unifies (scanCons context c t) := by
  have hfits := Opening.fits_of context.regexAllowed c t
  rw [Opening.lexeme_of, Opening.lexeme_of, Context.regexAllowed_unified, Opening.of_unified]
  cases ho : (Opening.of context.regexAllowed c t).isInline with
  | true =>
    have hinline : Inline ((Opening.of context.regexAllowed c t).lexeme context c t).raw :=
      Opening.inline_raw ho hc
    obtain ⟨a, u, rfl, ha⟩ := exists_raw_scanCons context c t
    rw [Opening.lexeme_of] at ha
    have ha' : Inline a := ((inline_cons c a).mp (ha ▸ hinline)).2
    rw [ha'.unified_append, lexeme_unified_of_isInline ho hfits ha' ha]
    exact ⟨(value_unified_of_isInline ho hc).symm, rfl, rfl, .inr ⟨hinline, rfl⟩⟩
  | false =>
    cases h : Opening.of context.regexAllowed c t with
    | string => exact unifies_string hc t
    | template => exact unifies_template t
    | blockComment =>
      rw [h] at hfits
      obtain ⟨rfl, ht⟩ := hfits
      obtain ⟨t, rfl⟩ := List.head?_eq_some_iff.mp ht
      rw [Text.unified_cons_inline rfl]
      exact unifies_blockComment t
    | _ => simp [h, Opening.isInline] at ho

end Lexeme

end EcmaLex
