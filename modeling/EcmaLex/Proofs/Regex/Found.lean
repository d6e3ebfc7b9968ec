import EcmaLex.Proofs.Passing
import EcmaLex.Proofs.Regex.ClosingSlash
import EcmaLex.Proofs.Regex.Course

/-!
# What is found in a regular expression

The call that yields a regular expression finds the issues of its trace, each as many columns behind
the opening slash as characters stand between. What else it finds, in gaps and in comments that it
passes over, has other codes. So where an issue is found that is told from all others is settled by
the trace alone.
-/

namespace EcmaLex

open Trace (onlyIf noteAt noteStart)

def Issue.isReportedBy (i : Issue) (d : Diagnostic) : Bool := d = i.diagnostic d.position

/-- An issue that no other one reads like. -/
def Issue.IsDistinct (i : Issue) : Prop := ∀ j : Issue, j.saying = i.saying → j = i

def Lexer.spots (l : Lexer) (i : Issue) : List Position :=
  (l.diagnostics.toList.filter i.isReportedBy).map Diagnostic.position

def Trace.spots (o : Options) (i : Issue) (n : Nat) (t : Trace) : List Nat :=
  ((t.found o n).filter fun f => f.2 = i).map Prod.fst

namespace Issue

theorem isReportedBy_diagnostic {i j : Issue} (hi : i.IsDistinct) (p : Position) :
    i.isReportedBy (j.diagnostic p) = decide (j = i) := by
  rw [isReportedBy, decide_eq_decide]
  constructor
  · intro h
    have hcode : j.code = i.code := congrArg Diagnostic.code h
    have hmessage : j.message = i.message := congrArg Diagnostic.message h
    exact hi j (Prod.ext hcode hmessage)
  · rintro rfl
    rfl

theorem code_of_isReportedBy {i : Issue} {d : Diagnostic} (h : i.isReportedBy d) :
    d.code = i.code := congrArg Diagnostic.code (of_decide_eq_true h)

theorem isDistinct_regexControlCharacter : IsDistinct .regexControlCharacter := by
  intro j hj
  have hcode : j.code = "regex_control_character" := congrArg Prod.fst hj
  cases j with
  | regexControlCharacter => rfl
  | _ => simp [code] at hcode

theorem isDistinct_unescaped (c : Char) : IsDistinct (.unescaped c) := by
  intro j hj
  have hcode : j.code = "regex_unescaped" := congrArg Prod.fst hj
  cases j with
  | unescaped d =>
    have hmessage : "Unescaped " ++ ("'" ++ String.ofList [d] ++ "'") ++ "." =
        "Unescaped " ++ ("'" ++ String.ofList [c] ++ "'") ++ "." := congrArg Prod.snd hj
    have hlist := congrArg String.toList hmessage
    simpa using hlist
  | _ => simp [code] at hcode

end Issue

namespace Trace

variable {o : Options} {i : Issue} {n : Nat}

@[simp] theorem spots_nil : spots o i n [] = [] := rfl

theorem spots_append (s t : Trace) :
    spots o i n (s ++ t) = spots o i n s ++ spots o i (n + s.text.length) t := by
  simp [spots, found_append]

theorem spots_read (hi : i ≠ .unsafeCharacter) (c : Char) (t : Trace) :
    spots o i n (.read c :: t) = spots o i (n + 1) t := by
  cases hc : isUnsafeChar c <;> simp [spots, found, hc, hi.symm]

theorem spots_note (place : Place) (j : Issue) (t : Trace) :
    spots o i n (.note place { issue := j } :: t) =
      (if j = i then [place.offset n] else []) ++ spots o i n t := by
  by_cases hj : j = i <;> simp [spots, found, Rule.holds, hj]

theorem spots_noteAt (place : Place) (j : Issue) :
    spots o i n (noteAt place j) = if j = i then [place.offset n] else [] :=
  (spots_note place j []).trans (List.append_nil _)

theorem spots_onlyIf (b : Bool) (t : Trace) :
    spots o i n (onlyIf b t) = if b then spots o i n t else [] := by cases b <;> rfl

theorem spots_reads (hi : i ≠ .unsafeCharacter) (w : Text) : spots o i n (reads w) = [] := by
  induction w generalizing n with
  | nil => rfl
  | cons c w ih => exact (spots_read hi c (reads w)).trans ih

theorem spots_eq_nil (hi : i ≠ .unsafeCharacter) {t : Trace} (ht : t.Remarks fun m => m.issue ≠ i) :
    spots o i n t = [] := by
  rw [spots, filter_found_eq_nil (fun j => j = i) (decide_eq_false hi.symm)
    (ht.mono fun _ => decide_eq_false), List.map_nil]

end Trace

def patternEndCodes : List String :=
  ["regex_unterminated_groups", "regex_invalid_flag", "confusing_regex", "unclosed_regex"]

theorem Lexeme.within_patternEnd [Primitives] (depth : Nat) (r : Text) :
    (patternEnd depth r).Within patternEndCodes := by
  have hgroups : (Issue.unterminatedGroups depth).code ∈ patternEndCodes := by
    simp [Issue.code, patternEndCodes]
  have hconfusing : Issue.confusingRegex.code ∈ patternEndCodes := by decide
  have hunclosed : Issue.unclosedRegex.code ∈ patternEndCodes := by decide
  unfold patternEnd
  split
  · rename_i rest
    have hflags : (RegexFlag.traces [] (rest.takeWhile isWordPart)).Within patternEndCodes :=
      (RegexFlag.within_traces _ _).of_subset (by decide)
    simp [hflags, hgroups, hconfusing]
  · simp [hunclosed]

/-- Issues of some sort that has only codes of patterns are found in the terms of the pattern. -/
theorem Lexeme.filter_found_regex [Primitives] (sort : Issue → Bool)
    (hsort : ∀ i, sort i → i.code ∈ patternCodes) (o : Options) (u : Text) :
    ((regex u).trace.found o 0).filter (fun f => sort f.2) =
      ((RegexTerm.traces 0 false (RegexTerm.scan u)).found o 1).filter fun f => sort f.2 := by
  have hother : ∀ i : Issue, i.code ∉ patternCodes → sort i = false := by
    intro i hi
    rw [Bool.eq_false_iff]
    exact fun h => hi (hsort i h)
  have hnone : ∀ {codes : List String} {s : Trace}, s.Within codes →
      (∀ code ∈ codes, code ∉ patternCodes) → ∀ n,
      (s.found o n).filter (fun f => sort f.2) = [] := fun hs hcodes _ =>
    Trace.filter_found_eq_nil sort (hother _ (by decide))
      (hs.mono fun _ hm => hother _ (hcodes _ hm))
  have hopening : Trace.Within ["regex_confused_with_assign"]
      (.read '/' :: onlyIf (u.head? = some '=') (noteStart .regexConfusedWithAssign)) := by
    simp [Issue.code]
  rw [trace_regex, RegexTerm.course, Trace.found_append, List.filter_append,
    hnone hopening (by decide), Trace.found_append, List.filter_append,
    hnone (within_patternEnd _ _) (by decide)]
  simp

theorem Lexeme.spots_regex [Primitives] {i : Issue} (hi : i.code ∈ patternCodes) (o : Options)
    (u : Text) :
    (regex u).trace.spots o i 0 =
      (RegexTerm.traces 0 false (RegexTerm.scan u)).spots o i 1 :=
  congrArg (List.map Prod.fst)
    (filter_found_regex (fun j => j = i) (fun _ hj => of_decide_eq_true hj ▸ hi) o u)

/-- Only some characters are remarked on as having no meaning where they stand. -/
theorem RegexTerm.mem_strays {t : Text} :
    ∀ m ∈ scan t, ∀ c, m.element = .stray c → c ∈ RegexElement.strays := by
  refine pieceScan.forall_mem (s := ())
    (P := fun m => ∀ c, m.element = .stray c → c ∈ RegexElement.strays) ?_ t
  intro _ d u _ c hstray
  have hscan : RegexElement.scan d u = .stray c := hstray
  unfold RegexElement.scan at hscan
  split at hscan
  all_goals first
    | exact RegexElement.stray.inj hscan ▸ by decide
    | cases hscan

abbrev Trace.Escaped (c : Char) (t : Trace) : Prop := t.Remarks fun m => m.issue ≠ .unescaped c

theorem RegexEscape.escaped_trace (c : Char) (e : RegexEscape) : e.trace.Escaped c := by
  unfold trace
  split
  · simp
  · split <;> simp

theorem ClassItem.escaped_trace_char {c : Char} (hc : c ∉ ['[', '^', '/']) (slot : ClassSlot)
    (last : Bool) (d : Char) : ((char d).trace slot last).Escaped c := by
  rw [trace]
  split
  · rename_i hd
    simp only [Bool.or_eq_true, decide_eq_true_eq] at hd
    rcases hd with (rfl | rfl) | rfl <;> simp_all [eq_comm]
  · simp

theorem Quantifier.escaped_trace (c : Char) (q : Quantifier) : q.trace.Escaped c := by
  have horder : ∀ n low high, (order n low high).Escaped c := by
    intro n low high
    unfold order
    split <;> simp
  cases q with
  | mark d isLazy => simp [trace]
  | noNumber found => simp [trace]
  | bounds low high ending isLazy =>
    have hending : ending.trace.Escaped c := by
      cases ending with
      | closed => simp [BoundsEnd.trace]
      | broken found skipped =>
        simp only [BoundsEnd.trace, Trace.remarks_append, Trace.remarks_flatMap]
        refine ⟨by simp, fun p _ => ?_⟩
        cases p with
        | escape e => exact e.escaped_trace c
        | char d => simp [SkippedPiece.trace]
    simp [trace, hending, horder]

/-- What the elements of a pattern have to say of an issue, if quantifiers have nothing to say of
it. -/
theorem RegexTerm.spots_traces {i : Issue} (hi : i ≠ .unsafeCharacter)
    (hquantifier : ∀ q : Quantifier, q.trace.Remarks fun m => m.issue ≠ i) (o : Options) (n : Nat)
    (depth : Nat) (behindAtom : Bool) (m : RegexTerm) (terms : List RegexTerm) :
    (traces depth behindAtom (m :: terms)).spots o i n =
      (m.element.trace depth behindAtom).spots o i n ++
        (traces (m.element.nest depth) m.element.isAtom terms).spots o i (n + m.text.length) := by
  have hq : ∀ k, Trace.spots o i k (m.quantifier.elim [] Quantifier.trace) = [] := by
    intro k
    cases m.quantifier with
    | none => rfl
    | some q => exact Trace.spots_eq_nil hi (hquantifier q)
  rw [traces, Trace.spots_append, text_trace, Trace.spots_append, hq, List.append_nil]

namespace Lexer

/-- The call of a lexer that yields the regular expression `k` behind the text `g`. The text `u`
follows the slash that opens it. -/
structure ReadsRegex [Primitives] (l : Lexer) (k : Token) (l' : Lexer) (g u : Text) : Prop where
  rest : l.reader.rest = g ++ '/' :: u
  start : k.range.1 = l.reader.offset + g.utf8Size
  value : k.value = (Lexeme.regex u).value
  unclosed : k.unclosed = (Lexeme.regex u).unclosed
  found : ∃ ds, (∀ d ∈ ds, d.code ∉ Opening.regex.codes) ∧
    l'.diagnostics.toList = l.diagnostics.toList ++ (ds ++
      ((Lexeme.regex u).trace.found l.options 0).map fun f => f.2.diagnostic (k.start.right f.1))

variable {l l' : Lexer} {k : Token}

/-- A call that yields a regular expression has read it behind a gap and maybe some comments. -/
theorem exists_readsRegex [UnicodePrimitives] (h : l.next = some (k, l')) (hk : k.kind = .regex) :
    ∃ g u, l.ReadsRegex k l' g u := by
  obtain ⟨m, g, hg, -, rfl, rfl⟩ := exists_leads h
  obtain ⟨gap, w, v, hc⟩ := exists_nextCut m
  have hkind : m.reading.lexeme.kind = .regex := hk
  have hlexeme := hc.lexeme
  rw [hlexeme] at hkind
  obtain ⟨u, hu, hscan⟩ := Lexeme.exists_regex_of_kind hkind
  rw [hscan] at hlexeme
  have hinline : Text.Inline (Opening.regex.lexeme m.context '/' u).raw :=
    Opening.inline_raw rfl (by decide)
  have hafter : (m.behind m.reading).diagnostics.toList =
      (m.reading.before.follow (Lexeme.regex u).trace).diagnostics.toList := by
    have hne : m.reading.lexeme.kind ≠ .eof := by
      rw [hlexeme, Lexeme.kind_regex]
      decide
    have hbehind := m.reader_behind Reader.diagnostics (fun _ => rfl) m.reading
    rw [after_reading_eq, if_neg hne, hlexeme] at hbehind
    exact congrArg Diagnostics.toList hbehind
  have hbefore : m.reading.before.rest = (Lexeme.regex u).trace.text ++ v := by
    have hraw := hc.raw
    rw [hlexeme] at hraw
    rw [hc.before]
    exact congrArg (· ++ v) hraw.symm
  obtain ⟨ds, hds, hpassed⟩ := exists_added hg.adds_before
  have hcodes : ∀ code ∈ passedCodes, code ∉ Opening.regex.codes := by decide
  refine ⟨g ++ gap, u, ?_, ?_, ?_, ?_, ds, fun d hd => hcodes _ (hpassed d hd), ?_⟩
  · rw [hg.rest, hc.text, hu, List.append_assoc]
  · have hstart : m.reading.token.range.1 = m.reading.before.offset := rfl
    rw [hstart, hc.offset_before, hg.offset]
    simp [Nat.add_assoc]
  · exact congrArg Lexeme.value hlexeme
  · exact congrArg Lexeme.unclosed hlexeme
  · have hoptions : m.reading.before.options = l.options :=
      (Reader.options_follow _ _).trans hg.options
    rw [hafter, Reader.diagnostics_follow_inline hbefore hinline, hds, hoptions, List.append_assoc]
    rfl

theorem ReadsRegex.filter_eq [Primitives] {g u : Text} (h : l.ReadsRegex k l' g u)
    (sort : Diagnostic → Bool)
    (hsort : ∀ d, sort d → d.code ∈ Opening.regex.codes) :
    l'.diagnostics.toList.filter sort = l.diagnostics.toList.filter sort ++
      (((Lexeme.regex u).trace.found l.options 0).map
        fun f => f.2.diagnostic (k.start.right f.1)).filter sort := by
  obtain ⟨ds, hcodes, hds⟩ := h.found
  have hother : ds.filter sort = [] :=
    List.filter_eq_nil_iff.mpr fun d hd hsorted => hcodes d hd (hsort d hsorted)
  rw [hds, List.filter_append, List.filter_append, hother, List.nil_append]

theorem ReadsRegex.spots_eq [Primitives] {g u : Text} (h : l.ReadsRegex k l' g u) {i : Issue}
    (hi : i.IsDistinct) (hcode : i.code ∈ Opening.regex.codes) : l'.spots i =
      l.spots i ++ ((Lexeme.regex u).trace.spots l.options i 0).map k.start.right := by
  have hfilter := h.filter_eq i.isReportedBy fun d hd =>
    Issue.code_of_isReportedBy hd ▸ hcode
  simp only [spots, hfilter, List.map_append, List.filter_map, Function.comp_def,
    Issue.isReportedBy_diagnostic hi, Trace.spots, List.map_map]
  rfl

theorem ReadsRegex.reported_eq [Primitives] {g u : Text} (h : l.ReadsRegex k l' g u)
    {codes : List String}
    (hcodes : ∀ code ∈ codes, code ∈ Opening.regex.codes) : l'.reader.reported codes =
      l.reader.reported codes ++ (((Lexeme.regex u).trace.found l.options 0).filter
        fun f => codes.contains f.2.code).map fun f => f.2.diagnostic (k.start.right f.1) := by
  have hfilter := h.filter_eq (fun d => codes.contains d.code) fun d hd =>
    hcodes _ (List.contains_iff_mem.mp hd)
  rw [List.filter_map] at hfilter
  exact hfilter

end Lexer

/-- The token `k` of the text `t` is a regular expression. The text `u` follows the slash that opens
it, and starts with the pattern. -/
structure Token.HasPattern (k : Token) (t u pattern : Text) : Prop where
  place : ∃ p, t = p ++ '/' :: u ∧ p.utf8Size = k.range.1
  value : ∃ flags, k.value = .regex pattern flags
  terms : (RegexTerm.scan u).flatMap RegexTerm.text = pattern
  closed : k.unclosed = false → ∃ r, u = pattern ++ '/' :: r

theorem Token.HasPattern.eq_cons {k : Token} {t u pattern : Text} (h : k.HasPattern t u pattern)
    (hstart : k.range.1 = 0) : t = '/' :: u := by
  obtain ⟨p, ht, hp⟩ := h.place
  cases p with
  | nil => exact ht
  | cons c p =>
    have hc := c.utf8Size_pos
    rw [hstart, Text.utf8Size_cons] at hp
    omega

namespace Lexer

/-- A call of a run that yields a regular expression reads it at its place in the text. -/
theorem exists_readsRegex_calls [UnicodePrimitives] (t : Text) (o : Options) (w : Bool) (n : Nat)
    {k : Token}
    {l' : Lexer} (h : ((start t o w).calls n).2.next = some (k, l')) (hk : k.kind = .regex) :
    ∃ g u pattern, ((start t o w).calls n).2.ReadsRegex k l' g u ∧ k.HasPattern t u pattern := by
  obtain ⟨g, u, hreads⟩ := exists_readsRegex h hk
  obtain ⟨p, ht, hp⟩ := exists_text_calls t o w n
  obtain ⟨pattern, r, hu, hpattern, hr⟩ := Lexeme.regex_cases u
  refine ⟨g, u, pattern, hreads, ⟨p ++ g, ?_, ?_⟩, ?_, hpattern, fun hclosed => ?_⟩
  · rw [List.append_assoc, ← hreads.rest, ← ht]
  · rw [Text.utf8Size_append, hp, hreads.start]
  · subst hu
    rw [hreads.value]
    rcases hr with ⟨r, rfl⟩ | hr
    · exact ⟨_, (Lexeme.regex_closed hpattern).1⟩
    · exact ⟨_, (Lexeme.regex_unclosed hr hpattern).1⟩
  · subst hu
    rcases hr with ⟨r, rfl⟩ | hr
    · exact ⟨r, rfl⟩
    · rw [hreads.unclosed, (Lexeme.regex_unclosed hr hpattern).2.2.2] at hclosed
      simp at hclosed

end Lexer

end EcmaLex
