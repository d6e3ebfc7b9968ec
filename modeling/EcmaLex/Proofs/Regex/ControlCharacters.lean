import EcmaLex.Primitives.Standard
import EcmaLex.Proofs.Regex.Found
import Mathlib.Data.List.Basic

/-!
# Control characters in patterns

Whatever takes up a character of a pattern looks at it first and reports a control character. The
one exception is what is skipped behind broken bounds: the escapes there are looked at, all other
characters are not.
-/

namespace EcmaLex

open Trace (reads onlyIf noteAt noteHere)

def Text.seen (t : Text) : List (Char × Bool) := t.map (·, true)

namespace Text

@[simp] theorem map_fst_seen (t : Text) : t.seen.map Prod.fst = t := by
  simp [seen, Function.comp_def]

theorem seen_append (s t : Text) : (s ++ t).seen = s.seen ++ t.seen := List.map_append

end Text

def SkippedPiece.seen : SkippedPiece → List (Char × Bool)
  | escape e => e.text.seen
  | char c => [(c, false)]

def BoundsEnd.seen : BoundsEnd → List (Char × Bool)
  | closed => Text.seen ['\x7d']
  | broken _ skipped => skipped.flatMap SkippedPiece.seen

def Quantifier.seen : Quantifier → List (Char × Bool)
  | bounds low high ending isLazy =>
    Text.seen ('\x7b' :: low ++ highText high) ++ ending.seen ++ (lazyText isLazy).seen
  | q => q.text.seen

def RegexTerm.seen (m : RegexTerm) : List (Char × Bool) :=
  m.element.text.seen ++ m.quantifier.elim [] Quantifier.seen

def seenControls (n : Nat) (cs : List (Char × Bool)) : List Nat :=
  cs.findIdxs (fun c => c.2 && isUnsafeChar c.1) n

/-- Control characters that are skipped are not among them. -/
example : seenControls 1 ((RegexTerm.scan "a\x7b1\x00\\\x01\x7d\x02".toList).flatMap
    RegexTerm.seen) = [6, 8] := by decide +kernel

theorem seenControls_seen (n : Nat) (t : Text) :
    seenControls n t.seen = t.findIdxs isUnsafeChar n := by
  simp [seenControls, Text.seen, List.findIdxs_map, Function.comp_def]

theorem seenControls_append (n : Nat) (cs cs' : List (Char × Bool)) :
    seenControls n (cs ++ cs') = seenControls n cs ++ seenControls (n + cs.length) cs' :=
  List.findIdxs_append

/-- Over a trace the characters `cs` are read, and the control characters are reported that are
looked at. -/
structure Inspects (o : Options) (t : Trace) (cs : List (Char × Bool)) : Prop where
  text : t.text = cs.map Prod.fst
  spots : ∀ n, t.spots o .regexControlCharacter n = seenControls n cs

namespace Inspects

variable {o : Options} {s t : Trace} {cs cs' : List (Char × Bool)}

theorem nil : Inspects o [] [] := ⟨rfl, fun _ => rfl⟩

theorem append (hs : Inspects o s cs) (ht : Inspects o t cs') :
    Inspects o (s ++ t) (cs ++ cs') where
  text := by rw [Trace.text_append, hs.text, ht.text, List.map_append]
  spots := by
    intro n
    rw [Trace.spots_append, hs.spots, ht.spots, hs.text, List.length_map, seenControls_append]

theorem cast (h : Inspects o s cs) (hs : s = t) (hcs : cs = cs') : Inspects o t cs' := by
  subst hs hcs
  exact h

theorem flatMap {α : Type} {f : α → Trace} {g : α → List (Char × Bool)} {as : List α}
    (h : ∀ a ∈ as, Inspects o (f a) (g a)) : Inspects o (as.flatMap f) (as.flatMap g) := by
  induction as with
  | nil => exact nil
  | cons a as ih =>
    obtain ⟨ha, has⟩ := List.forall_mem_cons.mp h
    exact ha.append (ih has)

theorem silent (h : Inspects o s cs) (ht : t.text = [])
    (hremarks : t.Remarks fun m => m.issue ≠ .regexControlCharacter) : Inspects o (s ++ t) cs := by
  have hspots : ∀ n, t.spots o .regexControlCharacter n = seenControls n [] := fun _ =>
    Trace.spots_eq_nil (by decide) hremarks
  exact (h.append ⟨ht, hspots⟩).cast rfl (List.append_nil cs)

theorem note (h : Inspects o s cs) (place : Place) {i : Issue} (hi : i ≠ .regexControlCharacter) :
    Inspects o (s ++ noteAt place i) cs := h.silent rfl (by simpa using hi)

theorem noteIf (h : Inspects o s cs) (b : Bool) (place : Place) {i : Issue}
    (hi : i ≠ .regexControlCharacter) : Inspects o (s ++ onlyIf b (noteAt place i)) cs :=
  h.silent (by simp) (by simp [hi])

theorem reads {w : Text} (hw : w.any isUnsafeChar = false) : Inspects o (reads w) w.seen where
  text := by rw [Trace.text_reads, Text.map_fst_seen]
  spots := by
    intro n
    rw [Trace.spots_reads (by decide), seenControls_seen,
      List.findIdxs_eq_nil_iff.mpr (by simpa using hw)]

theorem char (c : Char) :
    Inspects o (onlyIf (isUnsafeChar c) (noteHere .regexControlCharacter) ++ [.read c])
      (Text.seen [c]) where
  text := by simp [Text.seen]
  spots := by
    intro n
    rw [Trace.spots_append, Trace.spots_onlyIf, noteHere, Trace.spots_noteAt, if_pos rfl,
      Trace.spots_read (by decide), seenControls_seen, List.findIdxs_singleton]
    cases isUnsafeChar c <;> rfl

theorem skipped (c : Char) : Inspects o [.read c] [(c, false)] where
  text := rfl
  spots := by
    intro n
    rw [Trace.spots_read (by decide), seenControls, List.findIdxs_singleton]
    rfl

end Inspects

open Inspects

variable {o : Options}

theorem RegexEscape.inspects (e : RegexEscape) : Inspects o e.trace e.text.seen := by
  have hback : Inspects o [.read '\\'] (Text.seen ['\\']) := .reads (w := ['\\']) (by decide)
  cases he : e.escaped with
  | none => exact hback.cast (by simp [trace, he]) (by simp [text, he])
  | some c =>
    have hchar : Inspects o ((if isUnsafeChar c then noteHere .regexControlCharacter
        else onlyIf (isUnexpected c) (noteHere (.regexUnexpectedEscape c))) ++ [.read c])
        (Text.seen [c]) := by
      cases hc : isUnsafeChar c with
      | true => exact (Inspects.char c).cast (by simp [hc]) rfl
      | false =>
        have hnote := Inspects.nil (o := o).noteIf (isUnexpected c) (.back 0)
          (i := .regexUnexpectedEscape c) (by simp)
        exact hnote.append (.reads (w := [c]) (by simp [hc]))
    exact (hback.append hchar).cast (by simp [trace, he]) (by simp [text, he, Text.seen])

namespace ClassItem

theorem inspects (slot : ClassSlot) (last : Bool) (i : ClassItem) :
    Inspects o (i.trace slot last) i.text.seen := by
  cases i with
  | hyphen =>
    have hread : Inspects o [.read '-'] (Text.seen ['-']) := .reads (w := ['-']) (by decide)
    exact hread.noteIf _ _ (by simp)
  | escape e => exact e.inspects.noteIf _ _ (by simp)
  | char c =>
    rw [trace]
    split
    · rename_i hc
      have hsafe : isUnsafeChar c = false := by
        simp only [Bool.or_eq_true, decide_eq_true_eq] at hc
        rcases hc with (rfl | rfl) | rfl <;> decide
      have hnote := Inspects.nil (o := o).note (.back 0) (i := .unescaped c) (by simp)
      exact hnote.append (.reads (w := [c]) (by simp [hsafe]))
    · exact .char c

theorem inspects_traces (closed : Bool) (slot : ClassSlot) (items : List ClassItem) :
    Inspects o (traces closed slot items)
      (Text.seen (items.flatMap text ++ if closed then [']'] else [])) := by
  induction items generalizing slot with
  | nil =>
    cases closed with
    | false => exact .nil
    | true =>
      have hread : Inspects o [.read ']'] (Text.seen [']']) := .reads (w := [']']) (by decide)
      exact hread.noteIf _ _ (by simp)
  | cons i items ih =>
    exact ((i.inspects _ _).append (ih _)).cast rfl (by simp [Text.seen])

end ClassItem

theorem CharacterClass.inspects (k : CharacterClass) : Inspects o k.trace k.text.seen := by
  have hopening : Inspects o k.opening (Text.seen ('[' :: caret k.negated)) := by
    unfold opening caret
    cases k.negated with
    | true =>
      have hread : Inspects o (reads ['[', '^']) (Text.seen ['[', '^']) := .reads (by decide)
      exact hread.noteIf _ _ (by simp)
    | false =>
      have hread : Inspects o (reads ['[']) (Text.seen ['[']) := .reads (by decide)
      exact hread.noteIf _ _ (by simp)
  refine (hopening.append (ClassItem.inspects_traces k.closed .start k.items)).cast rfl ?_
  rw [text_eq, ← Text.seen_append, List.cons_append]

theorem isSafe_of_isDigit {c : Char} (h : c.isDigit) : isUnsafeChar c = false := by
  have hcode : 48 ≤ c.toNat ∧ c.toNat ≤ 57 := by
    simpa [Char.isDigit, UInt32.le_iff_toNat_le] using h
  simp only [isUnsafeChar, unsafeRanges, CodeRanges.contains]
  grind

namespace Quantifier

theorem remarks_order (n : Nat) (low : Text) (high : Option Text) :
    (order n low high).Remarks fun m => m.issue ≠ .regexControlCharacter := by
  unfold order
  split <;> simp

theorem isSafe_digits (t : Text) : (t.takeWhile Char.isDigit).any isUnsafeChar = false := by
  simpa using fun c hc => isSafe_of_isDigit (List.mem_takeWhile_imp hc)

theorem isSafe_highText {high : Option Text} {t : Text} (h : highAt t = high) :
    (highText high).any isUnsafeChar = false := by
  subst h
  unfold highAt
  split
  · exact isSafe_digits _
  · rfl

theorem isSafe_lazyText (isLazy : Bool) : (lazyText isLazy).any isUnsafeChar = false := by
  cases isLazy <;> decide

theorem inspects_scanBounds (t : Text) : Inspects o (scanBounds t).trace (scanBounds t).seen := by
  by_cases hl : t.takeWhile Char.isDigit = []
  · rw [scanBounds_of_not_digit hl]
    have hbrace : Inspects o (reads ['\x7b']) (Text.seen ['\x7b']) := .reads (by decide)
    exact hbrace.note _ (by simp)
  · obtain ⟨low, high, ending, r, hb⟩ := exists_bounds t
    rw [hb.scan_eq (hb.low ▸ hl)]
    have hfront : ('\x7b' :: low ++ highText high).any isUnsafeChar = false := by
      rw [List.any_append, isSafe_highText hb.high, hb.low.symm, Bool.or_false]
      exact isSafe_digits t
    have hending : Inspects o ending.trace ending.seen := by
      cases ending with
      | closed => exact .reads (w := ['\x7d']) (by decide)
      | broken found skipped =>
        have hnote := Inspects.nil (o := o).note (.back 0) (i := .expected '\x7d' found) (by simp)
        refine hnote.append (.flatMap fun p _ => ?_)
        cases p with
        | escape e => exact e.inspects
        | char c => exact .skipped c
    exact (((Inspects.reads hfront).append hending).append (.reads (isSafe_lazyText _))).silent
      (text_order _ low high) (remarks_order _ low high)

theorem inspects_scan? (t : Text) :
    Inspects o ((scan? t).elim [] trace) ((scan? t).elim [] seen) := by
  cases hb : begins t with
  | false =>
    rw [scan?_of_not_begins hb]
    exact .nil
  | true =>
    rcases begins_cases hb with ⟨c, r, rfl, hc⟩ | ⟨r, rfl⟩
    · rw [scan?_mark hc]
      have hsafe : (c :: lazyText (r.head? = some '?')).any isUnsafeChar = false := by
        rw [List.any_cons, isSafe_of_isMark hc, isSafe_lazyText, Bool.or_self]
      exact .reads hsafe
    · rw [scan?_brace]
      exact inspects_scanBounds r

end Quantifier

theorem GroupKind.inspects (t : Text) : Inspects o (scan t).trace (scan t).text.seen := by
  unfold scan
  split
  any_goals exact .reads (by decide)
  · rename_i t
    have hmark : Inspects o (reads ['?']) (Text.seen ['?']) := .reads (by decide)
    exact hmark.note _ (by simp)
  · exact .nil

/-- Whatever element a character starts, its characters are looked at. -/
theorem RegexElement.inspects (depth : Nat) (behindAtom : Bool) (c : Char) (t : Text) :
    Inspects o ((scan c t).trace depth behindAtom) (scan c t).text.seen := by
  have hstray : ∀ d, isUnsafeChar d = false →
      Inspects o (trace depth behindAtom (.stray d)) (Text.seen [d]) := by
    intro d hd
    have hread : Inspects o (reads [d]) (Text.seen [d]) := .reads (by simpa using hd)
    exact hread.note _ (by simp)
  unfold scan
  split
  · exact RegexEscape.inspects _
  · have hopen : Inspects o (reads ['(']) (Text.seen ['(']) := .reads (by decide)
    exact hopen.append (GroupKind.inspects t)
  · have hread : Inspects o (reads [')']) (Text.seen [')']) := .reads (by decide)
    exact hread.noteIf _ _ (by simp)
  · exact .reads (w := ['|']) (by decide)
  · have hread : Inspects o (reads ['^']) (Text.seen ['^']) := .reads (by decide)
    exact hread.noteIf _ _ (by simp)
  · refine (Inspects.reads ?_).noteIf _ _ (by simp)
    rw [List.any_replicate, if_neg (Nat.succ_ne_zero _)]
    decide
  · exact CharacterClass.inspects _
  all_goals first | exact hstray _ (by decide) | exact .char c

namespace RegexTerm

theorem inspects_quantifierOf (e : RegexElement) (t : Text) :
    Inspects o ((quantifierOf e t).elim [] Quantifier.trace)
      ((quantifierOf e t).elim [] Quantifier.seen) := by
  unfold quantifierOf
  split
  · exact Quantifier.inspects_scan? t
  · exact .nil

theorem inspects_of_mem_scan (t : Text) : ∀ m ∈ scan t, ∀ depth behindAtom,
    Inspects o (m.element.trace depth behindAtom ++ m.quantifier.elim [] Quantifier.trace)
      m.seen :=
  pieceScan.forall_mem (s := ())
    (fun _ _ _ => (RegexElement.inspects _ _ _ _).append (inspects_quantifierOf _ _)) t

theorem inspects_traces {terms : List RegexTerm}
    (hterms : ∀ m ∈ terms, ∀ depth behindAtom,
      Inspects o (m.element.trace depth behindAtom ++ m.quantifier.elim [] Quantifier.trace) m.seen)
    (depth : Nat) (behindAtom : Bool) :
    Inspects o (traces depth behindAtom terms) (terms.flatMap seen) := by
  induction terms generalizing depth behindAtom with
  | nil => exact .nil
  | cons m terms ih =>
    obtain ⟨hm, hterms⟩ := List.forall_mem_cons.mp hterms
    exact (hm depth behindAtom).append (ih hterms _ _)

theorem inspects_scan (t : Text) : Inspects o (traces 0 false (scan t)) ((scan t).flatMap seen) :=
  inspects_traces (inspects_of_mem_scan t) 0 false

/-- What is skipped unseen are the plain characters behind broken bounds. -/
theorem mem_seen_iff (m : RegexTerm) (c : Char) : (c, false) ∈ m.seen ↔ .char c ∈ m.skipped := by
  have htext : ∀ t : Text, (c, false) ∉ t.seen := by simp [Text.seen]
  have hpiece : ∀ p : SkippedPiece, (c, false) ∈ p.seen ↔ p = .char c := by
    intro p
    cases p with
    | escape e => simp [SkippedPiece.seen, htext]
    | char d => simp [SkippedPiece.seen, eq_comm]
  have hending : ∀ e : BoundsEnd, (c, false) ∈ e.seen ↔ .char c ∈ e.skipped := by
    intro e
    cases e with
    | closed => simp [BoundsEnd.seen, BoundsEnd.skipped, htext]
    | broken found skipped => simp [BoundsEnd.seen, BoundsEnd.skipped, hpiece]
  rw [seen, skipped, List.mem_append, or_iff_right (htext _)]
  cases m.quantifier with
  | none => simp
  | some q => cases q <;> simp [Quantifier.seen, Quantifier.skipped, htext, hending]

end RegexTerm

/-- Where no control character is skipped unseen, all of them are reported. -/
theorem seenControls_eq_of_safe {cs : List (Char × Bool)}
    (h : ∀ c, (c, false) ∈ cs → isUnsafeChar c = false) (n : Nat) :
    seenControls n cs = (cs.map Prod.fst).findIdxs isUnsafeChar n := by
  have hcongr : ∀ c ∈ cs, (c.2 && isUnsafeChar c.1) = isUnsafeChar c.1 := by
    rintro ⟨c, b⟩ hc
    cases b with
    | true => rfl
    | false => exact (h c hc).symm
  rw [seenControls, List.findIdxs_map]
  clear h
  induction cs generalizing n with
  | nil => rfl
  | cons c cs ih =>
    obtain ⟨hc, hcs⟩ := List.forall_mem_cons.mp hcongr
    rw [List.findIdxs_cons, List.findIdxs_cons, hc, ih (n + 1) hcs]
    rfl

/-- The positions at which control characters of the regular expression `k` are reported. The text
`u` follows the slash that opens it, and starts with the pattern. -/
structure Token.ReportsControls (k : Token) (u pattern : Text) (ps : List Position) : Prop where
  /-- They are those of the control characters that are looked at. -/
  seen : ps = (seenControls 1 ((RegexTerm.scan u).flatMap RegexTerm.seen)).map k.start.right
  characters : ((RegexTerm.scan u).flatMap RegexTerm.seen).map Prod.fst = pattern
  all : (∀ m ∈ RegexTerm.scan u, ∀ c, .char c ∈ m.skipped → isUnsafeChar c = false) →
    ps = (pattern.findIdxs isUnsafeChar 1).map k.start.right

namespace Lexer

/-- A call that yields a regular expression reports each control character of the pattern once, at
its position, but for the plain characters that are skipped behind broken bounds. -/
theorem control_characters_reported [UnicodePrimitives] (t : Text) (o : Options) (w : Bool)
    (n : Nat) {k : Token}
    {l' : Lexer} (h : ((start t o w).calls n).2.next = some (k, l')) (hk : k.kind = .regex) :
    ∃ u pattern ps, k.HasPattern t u pattern ∧ k.ReportsControls u pattern ps ∧
      l'.spots .regexControlCharacter =
        ((start t o w).calls n).2.spots .regexControlCharacter ++ ps := by
  obtain ⟨g, u, pattern, hreads, hpattern⟩ := exists_readsRegex_calls t o w n h hk
  have hspots := hreads.spots_eq Issue.isDistinct_regexControlCharacter (by decide)
  have hinspects := RegexTerm.inspects_scan (o := ((start t o w).calls n).2.options) u
  rw [Lexeme.spots_regex (by decide), hinspects.spots] at hspots
  have hcharacters : ((RegexTerm.scan u).flatMap RegexTerm.seen).map Prod.fst = pattern := by
    rw [← hinspects.text, RegexTerm.text_traces, hpattern.terms]
  refine ⟨u, pattern, _, hpattern, ⟨rfl, hcharacters, fun hsafe => ?_⟩, hspots⟩
  rw [seenControls_eq_of_safe, hcharacters]
  intro c hc
  obtain ⟨m, hm, hc⟩ := List.mem_flatMap.mp hc
  exact hsafe m hm c ((m.mem_seen_iff c).mp hc)

/-- A control character in plain text, behind a backslash, in a class, and behind broken bounds with
a backslash and without one. -/
theorem control_characters_reported_of_broken_bounds : ∃ k l',
    ((start "/\x01\\\x01[\x01]a\x7b1\\\x01\x01\x7d/".toList {} true).calls 0).2.next =
        some (k, l') ∧ k.kind = .regex ∧
      l'.spots .regexControlCharacter =
        [{ column := 2 }, { column := 4 }, { column := 6 }, { column := 12 }] ∧
      ∃ u pattern ps,
        k.HasPattern "/\x01\\\x01[\x01]a\x7b1\\\x01\x01\x7d/".toList u pattern ∧
        k.ReportsControls u pattern ps ∧
        l'.spots .regexControlCharacter =
          ((start "/\x01\\\x01[\x01]a\x7b1\\\x01\x01\x7d/".toList {} true).calls 0).2.spots
            .regexControlCharacter ++ ps := by
  have hcall : ((start "/\x01\\\x01[\x01]a\x7b1\\\x01\x01\x7d/".toList {} true).calls 0).2.next.any
      fun (k, l') => k.kind = .regex && l'.spots .regexControlCharacter =
        [{ column := 2 }, { column := 4 }, { column := 6 }, { column := 12 }] := by
    decide +kernel
  obtain ⟨⟨k, l'⟩, h, hfacts⟩ := (Option.any_eq_true _ _).mp hcall
  simp only [Bool.and_eq_true, decide_eq_true_eq] at hfacts
  exact ⟨k, l', h, hfacts.1, hfacts.2, control_characters_reported _ _ _ 0 h hfacts.1⟩

/-- The control character that is skipped behind the broken bounds is not reported. -/
theorem control_character_unreported :
    ∃ k ∈ (start "/a\x7b1x\x01\x7d/".toList {} false).tokens.1,
      k.value = .regex "a\x7b1x\x01\x7d".toList [] ∧ isUnsafeChar '\x01' ∧
      (start "/a\x7b1x\x01\x7d/".toList {} false).tokens.2.spots .regexControlCharacter = [] := by
  decide +kernel

end Lexer

end EcmaLex
