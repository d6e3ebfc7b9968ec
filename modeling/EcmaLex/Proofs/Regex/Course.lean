import EcmaLex.Proofs.Cuts
import EcmaLex.Proofs.Issues
import EcmaLex.Proofs.LineEnds.Extent

/-!
# The course of a pattern

What is still to be said of a pattern depends on the text that is left, on how many groups are open
and on whether an atom stands right before. So the issues of a pattern are told one part of its text
after another, and what stands behind a part may be looked at alone.
-/

namespace EcmaLex

open Trace (reads onlyIf noteAt noteStart)

def Lexeme.patternEnd [Primitives] (depth : Nat) (r : Text) : Trace :=
  match r with
  | '/' :: rest =>
    let letters := rest.takeWhile isWordPart
    let following := (rest.drop letters.length).head?
    .read '/' :: onlyIf (depth > 0) (noteAt (.back 1) (.unterminatedGroups depth)) ++
    RegexFlag.traces [] letters ++
    onlyIf (following = some '/' || following = some '*') (noteStart .confusingRegex)
  | _ => noteStart .unclosedRegex

namespace RegexTerm

def remainder (t : Text) : Text := t.drop ((scan t).flatMap text).length

/-- The trace of a text in a pattern, with `depth` groups open before it, directly behind an atom or
not. -/
def course [Primitives] (depth : Nat) (behindAtom : Bool) (t : Text) : Trace :=
  traces depth behindAtom (scan t) ++ Lexeme.patternEnd (nest depth (scan t)) (remainder t)

theorem flatMap_append_remainder (t : Text) : (scan t).flatMap text ++ remainder t = t := by
  obtain ⟨r, ht, -⟩ := exists_pattern t
  have hdrop := congrArg (List.drop ((scan t).flatMap text).length) ht
  rw [List.drop_left] at hdrop
  rw [remainder, hdrop, ← ht]

theorem scan_of_stopsAt {t : Text} (h : stopsAt t) : scan t = [] := pieceScan.stop (s := ()) h

theorem remainder_of_stopsAt {t : Text} (h : stopsAt t) : remainder t = t := by
  rw [remainder, scan_of_stopsAt h]
  rfl

theorem remainder_of_scan {a r : Text} (ms : List RegexTerm) (hs : scan (a ++ r) = ms ++ scan r)
    (ha : ms.flatMap text = a) : remainder (a ++ r) = remainder r := by
  rw [remainder, hs, List.flatMap_append, ha, List.length_append, ← List.drop_drop, List.drop_left]
  rfl

theorem flatMap_eq_of_remainder {p r : Text} (h : remainder (p ++ r) = r) :
    (scan (p ++ r)).flatMap text = p := by
  have hsplit := flatMap_append_remainder (p ++ r)
  rw [h] at hsplit
  exact List.append_cancel_right hsplit

end RegexTerm

theorem Quantifier.isSafe_of_isMark {c : Char} (h : isMark c) : isUnsafeChar c = false := by
  simp only [isMark, Bool.or_eq_true, decide_eq_true_eq] at h
  rcases h with (rfl | rfl) | rfl <;> decide

open RegexTerm (remainder course)

theorem Lexeme.trace_regex [Primitives] (t : Text) : (regex t).trace =
    .read '/' :: onlyIf (t.head? = some '=') (noteStart .regexConfusedWithAssign) ++
      course 0 false t := by
  obtain ⟨r, hr⟩ : ∃ r, t.drop ((RegexTerm.scan t).flatMap RegexTerm.text).length = r := ⟨_, rfl⟩
  simp only [regex, course, patternEnd, remainder, hr]
  split <;> simp

theorem Lexeme.issues_regex [Primitives] (o : Options) (t : Text) : (regex t).trace.issues o =
    (if t.head? = some '=' then [.regexConfusedWithAssign] else []) ++
      (course 0 false t).issues o := by
  rw [trace_regex, List.cons_append, Trace.issues_cons_read (by decide), Trace.issues_append]
  split <;> simp_all

theorem Lexeme.unclosed_regex [Primitives] (t : Text) :
    (regex t).unclosed = !decide ((remainder t).head? = some '/') := by
  obtain ⟨r, hr⟩ : ∃ r, t.drop ((RegexTerm.scan t).flatMap RegexTerm.text).length = r := ⟨_, rfl⟩
  simp only [regex, remainder, hr]
  split
  · rfl
  · rename_i hslash
    have hhead : r.head? ≠ some '/' := by
      intro hhead
      obtain ⟨r', hr'⟩ := List.head?_eq_some_iff.mp hhead
      exact hslash r' hr'
    rw [decide_eq_false hhead]
    rfl

def Lexeme.behindPattern [Primitives] : Text → Text
  | '/' :: r => r.dropWhile isWordPart
  | r => r

theorem Lexeme.raw_regex_append [Primitives] (t : Text) :
    (regex t).raw ++ behindPattern (remainder t) = '/' :: t := by
  obtain ⟨pattern, r, rfl, hp, hr⟩ := regex_cases t
  have hremainder : remainder (pattern ++ r) = r := by
    rw [remainder, hp, List.drop_left]
  rw [hremainder]
  rcases hr with ⟨r, rfl⟩ | hr
  · rw [(regex_closed hp).2.1, behindPattern]
    simp
  · rw [(regex_unclosed hr hp).2.1]
    have hbehind : behindPattern r = r := by
      unfold behindPattern
      split
      · simp [Text.endsLine, isLineTerminator] at hr
      · rfl
    rw [hbehind, List.cons_append]

/-- Over the text `w` of a pattern, which the text `r` follows, the issues `is` are found. They lead
from `d` groups that are open to `d'`, and from behind an atom or not to behind one or not. -/
structure Advances [Primitives] (o : Options) (d : Nat) (b : Bool) (w r : Text) (is : List Issue)
    (d' : Nat)
    (b' : Bool) : Prop where
  remainder : remainder (w ++ r) = remainder r
  issues : (course d b (w ++ r)).issues o = is ++ (course d' b' r).issues o

namespace Advances

variable [Primitives] {o : Options} {d d' d'' : Nat} {b b' b'' : Bool} {w w' r : Text}
    {is is' : List Issue}

theorem nil (o : Options) (d : Nat) (b : Bool) (r : Text) : Advances o d b [] r [] d b := ⟨rfl, rfl⟩

theorem append (h : Advances o d b w (w' ++ r) is d' b') (h' : Advances o d' b' w' r is' d'' b'') :
    Advances o d b (w ++ w') r (is ++ is') d'' b'' where
  remainder := by rw [List.append_assoc, h.remainder, h'.remainder]
  issues := by rw [List.append_assoc, h.issues, h'.issues, List.append_assoc]

theorem cast (h : Advances o d b w r is d' b') (hw : w = w') (his : is = is') :
    Advances o d b w' r is' d' b' := by
  subst hw his
  exact h

end Advances

namespace RegexElement

def isOrdinary (c : Char) : Bool := !("/\\()|[]\x7b\x7d?*+^".toList.contains c)

theorem scan_ordinary {c : Char} (hc : isOrdinary c) (hspace : c ≠ ' ') (t : Text) :
    scan c t = char c := by
  unfold scan
  split
  all_goals first | rfl | exact absurd hc (by decide) | exact absurd rfl hspace

def strays : Text := [']', '\x7d', '?', '*', '+', '\x7b']

theorem scan_stray {c : Char} (hc : c ∈ strays) (t : Text) : scan c t = stray c := by
  simp only [strays, List.mem_cons, List.not_mem_nil, or_false] at hc
  rcases hc with rfl | rfl | rfl | rfl | rfl | rfl <;> rfl

theorem scan_eq_caret_iff {c : Char} {t : Text} : scan c t = caret ↔ c = '^' := by
  unfold scan
  split <;> simp_all

theorem issues_trace_behindAtom (o : Options) (d : Nat) (e : RegexElement) :
    (e.trace d true).issues o =
      (if e = caret then [.unescaped '^'] else []) ++ (e.trace d false).issues o := by
  cases e <;> rfl

end RegexElement

namespace RegexTerm

variable {o : Options} {d : Nat} {b : Bool} {c : Char} {w q r : Text} {e : RegexElement}

/-- A term is passed over with the issues of its element and of its quantifier. -/
theorem advances_step [Primitives] (hstop : stopsAt (c :: (w ++ (q ++ r))) = false)
    (he : RegexElement.scan c (w ++ (q ++ r)) = e) (hw : e.text = c :: w)
    (hq : quantifierText (quantifierOf e (q ++ r)) = q) :
    Advances o d b (c :: (w ++ q)) r ((e.trace d b).issues o ++
      Trace.issues o ((quantifierOf e (q ++ r)).elim [] Quantifier.trace)) (e.nest d) e.isAtom := by
  have hstep : step c ((w ++ q) ++ r) = ⟨e, quantifierOf e (q ++ r)⟩ := by
    rw [List.append_assoc, step_eq (he ▸ hw), he]
  have htext : (step c ((w ++ q) ++ r)).text = c :: (w ++ q) := by
    rw [hstep, text, hw, hq, List.cons_append]
  have hscan := pieceScan.scan_cons (s := ()) (List.append_assoc w q r ▸ hstop) htext
  rw [hstep] at hscan htext
  have hremainder : remainder (c :: (w ++ q) ++ r) = remainder r :=
    remainder_of_scan [_] hscan (by simpa using htext)
  refine ⟨hremainder, ?_⟩
  rw [course, course, hremainder, List.cons_append, hscan, traces, nest]
  simp only [Trace.issues_append, List.append_assoc]

/-- An element without a quantifier is passed over with its issues. -/
theorem advances_bare [Primitives] (hstop : stopsAt (c :: (w ++ r)) = false)
    (he : RegexElement.scan c (w ++ r) = e) (hw : e.text = c :: w)
    (hq : e.isAtom → Quantifier.begins r = false) :
    Advances o d b (c :: w) r ((e.trace d b).issues o) (e.nest d) e.isAtom := by
  have hnone : quantifierOf e r = none := by
    unfold quantifierOf
    split
    · exact Quantifier.scan?_of_not_begins (hq ‹_›)
    · rfl
  have hadvances := advances_step (o := o) (d := d) (b := b) (q := []) hstop he hw
    (by rw [List.nil_append, hnone]; rfl)
  exact hadvances.cast (by rw [List.append_nil]) (by rw [List.nil_append, hnone]; simp)

theorem advances_stray [Primitives] (hc : c ∈ RegexElement.strays) (o : Options) (d : Nat)
    (b : Bool) (r : Text) : Advances o d b [c] r [.unescaped c] d false := by
  have hfacts : isUnsafeChar c = false ∧ ∀ t, stopsAt (c :: t) = false := by
    simp only [RegexElement.strays, List.mem_cons, List.not_mem_nil, or_false] at hc
    rcases hc with rfl | rfl | rfl | rfl | rfl | rfl <;> exact ⟨by decide, fun _ => rfl⟩
  have hadvances := advances_bare (o := o) (d := d) (b := b) (w := []) (r := r)
    (hfacts.2 _) (RegexElement.scan_stray hc _) rfl (by simp [RegexElement.isAtom])
  exact hadvances.cast rfl (Trace.issues_cons_read hfacts.1 _)

/-- The marks of quantifiers should have been escaped where they follow no atom. -/
theorem advances_marks [Primitives] (hw : ∀ c ∈ w, Quantifier.isMark c) (o : Options) (d : Nat)
    (r : Text) :
    Advances o d false w r (w.map .unescaped) d false := by
  induction w with
  | nil => exact .nil o d false r
  | cons c w ih =>
    obtain ⟨hc, hw⟩ := List.forall_mem_cons.mp hw
    have hstray : c ∈ RegexElement.strays := by
      simp only [Quantifier.isMark, Bool.or_eq_true, decide_eq_true_eq] at hc
      rcases hc with (rfl | rfl) | rfl <;> decide
    exact (advances_stray hstray o d false (w ++ r)).append (ih hw)

theorem stopsAt_ordinary (hc : RegexElement.isOrdinary c) (hline : isLineTerminator c = false)
    (t : Text) : stopsAt (c :: t) = false := by
  have hslash : c ≠ '/' := by
    rintro rfl
    exact absurd hc (by decide)
  simp [stopsAt, hslash, hline]

theorem not_begins_ordinary (hc : RegexElement.isOrdinary c) (t : Text) :
    Quantifier.begins (c :: t) = false := by
  have hmark : c ∉ ['?', '+', '*', '\x7b'] := by
    intro hmem
    simp only [List.mem_cons, List.not_mem_nil, or_false] at hmem
    rcases hmem with rfl | rfl | rfl | rfl <;> exact absurd hc (by decide)
  simpa [Quantifier.begins, Quantifier.isMark, and_assoc] using hmark

def isPlain (c : Char) : Bool :=
  RegexElement.isOrdinary c && c ≠ ' ' && !isUnsafeChar c && !isLineTerminator c

theorem isPlain_iff : isPlain c ↔ RegexElement.isOrdinary c ∧ c ≠ ' ' ∧ isUnsafeChar c = false ∧
    isLineTerminator c = false := by
  simp [isPlain, and_assoc]

/-- Plain characters without a quantifier. -/
theorem advances_plain [Primitives] (hw : ∀ c ∈ w, isPlain c) (hr : Quantifier.begins r = false)
    (o : Options)
    (d : Nat) (b : Bool) : Advances o d b w r [] d (b || !w.isEmpty) := by
  induction w generalizing b with
  | nil => exact (Bool.or_false b).symm ▸ .nil o d b r
  | cons c w ih =>
    obtain ⟨hc, hw⟩ := List.forall_mem_cons.mp hw
    obtain ⟨hordinary, hspace, hsafe, hline⟩ := isPlain_iff.mp hc
    have hnext : Quantifier.begins (w ++ r) = false := by
      cases w with
      | nil => exact hr
      | cons c' w => exact not_begins_ordinary (isPlain_iff.mp (hw c' List.mem_cons_self)).1 _
    have hchar := advances_bare (o := o) (d := d) (b := b) (w := []) (r := w ++ r)
      (stopsAt_ordinary hordinary hline _) (RegexElement.scan_ordinary hordinary hspace _) rfl
      (fun _ => hnext)
    have hissues : (RegexElement.trace d b (.char c)).issues o = [] := by
      rw [RegexElement.trace, hsafe]
      exact Trace.issues_cons_read hsafe _
    have hadvances := (hchar.cast rfl hissues).append (ih hw true)
    simpa using hadvances

theorem exists_traces_append (d : Nat) (b : Bool) (ms : List RegexTerm) :
    ∃ d' b', ∀ ns, nest d (ms ++ ns) = nest d' ns ∧
      traces d b (ms ++ ns) = traces d b ms ++ traces d' b' ns := by
  induction ms generalizing d b with
  | nil => exact ⟨d, b, fun ns => ⟨rfl, rfl⟩⟩
  | cons m ms ih =>
    obtain ⟨d', b', h⟩ := ih (m.element.nest d) m.element.isAtom
    refine ⟨d', b', fun ns => ⟨(h ns).1, ?_⟩⟩
    rw [List.cons_append, traces, traces, (h ns).2]
    simp only [List.append_assoc]

/-- The first terms of a pattern are passed over in the same way before any text that shows the same
character as the one that follows them. -/
theorem exists_advances [Primitives] {x u : Text} {ms ns : List RegexTerm}
    (hs : scan (x ++ u) = ms ++ ns)
    (hx : ms.flatMap text = x) (o : Options) : ∃ is d b, ∀ v,
      foundAt u = foundAt v → Advances o 0 false x v is d b := by
  subst hx
  obtain ⟨d, b, hmore⟩ := exists_traces_append 0 false ms
  refine ⟨(traces 0 false ms).issues o, d, b, fun v h => ?_⟩
  obtain ⟨-, -, hscan⟩ := pieceScan.resume_prefix (u := u) (v := v) (s := ()) (P := fun _ => True)
    (fun _ => trivial) (fun _ hstop hw => ⟨hstop, step_resume hw (foundAt_append _ h)⟩) hs trivial
  have hremainder := remainder_of_scan ms hscan rfl
  refine ⟨hremainder, ?_⟩
  rw [course, course, hremainder, hscan, (hmore _).1, (hmore _).2]
  simp only [Trace.issues_append, List.append_assoc]

/-- A caret right behind an atom is the only issue that comes from the atom. -/
theorem issues_course_behindAtom [Primitives] (o : Options) (d : Nat) (t : Text) :
    (course d true t).issues o = (if t.head? = some '^' then [.unescaped '^'] else []) ++
      (course d false t).issues o := by
  cases hstop : stopsAt t with
  | true =>
    have hcaret : t.head? ≠ some '^' := by
      intro hhead
      rw [stopsAt, hhead] at hstop
      exact absurd hstop (by decide)
    rw [course, course, scan_of_stopsAt hstop, if_neg hcaret]
    rfl
  | false =>
    obtain ⟨c, w, r, rfl, hw⟩ := pieceScan.exists_piece (s := ()) hstop
    have hscan := pieceScan.scan_cons (s := ()) hstop hw
    have hcaret : (step c (w ++ r)).element = .caret ↔ c = '^' := RegexElement.scan_eq_caret_iff
    simp only [course, hscan, traces, Trace.issues_append, RegexElement.issues_trace_behindAtom,
      List.append_assoc, List.head?_cons, Option.some.injEq, hcaret]

end RegexTerm

/-- The token `k` is the regular expression whose text behind its opening slash starts `t`, and
`rest` is left behind it. -/
structure Token.IsRegex [Primitives] (k : Token) (t rest : Text) : Prop where
  raw : k.raw = (Lexeme.regex t).raw
  value : k.value = (Lexeme.regex t).value
  unclosed : k.unclosed = (Lexeme.regex t).unclosed
  malformed : k.malformed = (Lexeme.regex t).malformed
  rest : rest = Lexeme.behindPattern (remainder t)

namespace Lexer

structure OpensRegex (l : Lexer) (t : Text) : Prop where
  finished : l.finished = false
  rest : l.reader.rest = '/' :: t
  regexAllowed : l.context.regexAllowed
  /-- Two other characters would make it a comment. -/
  head : t.head? ≠ some '/' ∧ t.head? ≠ some '*'

structure Finds [Primitives] (l : Lexer) (k : Token) (l' : Lexer) (ds : List Diagnostic) :
    Prop where
  next : l.next = some (k, l')
  diagnostics : l'.diagnostics.toList = l.diagnostics.toList ++ ds

variable {l : Lexer} {t : Text}

theorem OpensRegex.reading_eq [UnicodePrimitives] (h : l.OpensRegex t) : l.reading =
    ⟨l.reader, Lexeme.regex t, l.reader.follow (Lexeme.regex t).trace⟩ := by
  have hbefore : l.reader.follow (gap l.reader.rest) = l.reader := by
    rw [h.rest, gap_of_startsToken (by rfl)]
    rfl
  have hlexeme : Lexeme.scan l.context l.reader.rest = Lexeme.regex t := by
    have hword : isWordStart '/' = false := isWordStart_of_isAsciiMark (by decide)
    have hname : ¬ Name.begins ('/' :: t) := by simp [Opening.begins_name_iff, hword]
    have hnumber : ¬ NumberLiteral.begins ('/' :: t) := by simp [Opening.begins_number_iff]
    rw [h.rest, Lexeme.scan, Lexeme.scanCons, if_neg hname, if_neg hnumber]
    simp [h.head, h.regexAllowed]
  have hkind : (Lexeme.regex t).kind ≠ .eof := by simp [Lexeme.kind_regex]
  simp only [reading, hbefore, hlexeme, if_neg hkind]

/-- The call that reads a regular expression finds its issues, and nothing else. -/
theorem OpensRegex.exists_finds [UnicodePrimitives] (h : l.OpensRegex t) :
    ∃ k l' ds, l.Finds k l' ds ∧
    k.IsRegex t l'.reader.rest ∧
    ds.map Diagnostic.saying = ((Lexeme.regex t).trace.issues l.options).map Issue.saying := by
  have hraw := Lexeme.raw_regex_append t
  have hline : Text.Inline (Opening.regex.lexeme l.context '/' t).raw :=
    Opening.inline_raw rfl (by decide)
  have hrest := h.rest.trans hraw.symm
  obtain ⟨ds, hds, hsayings⟩ :=
    Reader.exists_sayings_follow hrest hline
  have hreader {α : Type} (f : Reader → α) (hf : ∀ r, f { r with leftLine := false } = f r) :
      f (l.behind l.reading).reader = f (l.reader.follow (Lexeme.regex t).trace) := by
    rw [l.reader_behind f hf, h.reading_eq]
  have hyields : l.yields l.reading = true := by
    have hkind : l.reading.token.kind = .regex := by
      rw [h.reading_eq]
      exact Lexeme.kind_regex t
    simp [yields, Token.isComment, hkind]
  have hrest' : (l.behind l.reading).reader.rest = Lexeme.behindPattern (remainder t) := by
    rw [hreader Reader.rest fun _ => rfl, Reader.rest_follow, hrest]
    exact List.drop_left
  have htoken : l.reading.token.IsRegex t (l.behind l.reading).reader.rest := by
    rw [hrest', h.reading_eq]
    exact ⟨rfl, rfl, rfl, rfl, rfl⟩
  refine ⟨l.reading.token, l.behind l.reading, ds, ⟨next_of_yields h.finished hyields, ?_⟩, htoken,
    hsayings⟩
  exact (congrArg Diagnostics.toList (hreader Reader.diagnostics fun _ => rfl)).trans hds

end Lexer

end EcmaLex
