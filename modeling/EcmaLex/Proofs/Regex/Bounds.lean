import EcmaLex.Primitives.Standard
import EcmaLex.Proofs.Places
import EcmaLex.Proofs.Regex.CleanParts
import EcmaLex.Proofs.Regex.Found

/-!
# The bounds of quantifiers

The lower bound of a quantifier may not be above the upper one. A bound may have any number of
digits, but only numbers of 64 bits are told apart: a greater one counts as the greatest of them. A
pair of bounds in the wrong order is reported at its brace, whether a brace closes it or not, and
nothing else is.
-/

namespace EcmaLex

open Trace (noteAt)

/-- The number that some decimal digits stand for, or the greatest one of 64 bits if it is beyond
that. -/
def cappedNumber (digits : Text) : Nat := min (ofDigits 10 digits) (2 ^ 64 - 1)

theorem cappedNumber_lt_iff {a b : Text} : cappedNumber b < cappedNumber a ↔
    ofDigits 10 b < ofDigits 10 a ∧ ofDigits 10 b < 2 ^ 64 - 1 := by
  unfold cappedNumber
  omega

theorem isNumber_of_takeWhile {a r : Text} (h : (a ++ r).takeWhile Char.isDigit = a)
    (hne : a ≠ []) : IsNumber a ∧ ∀ c, r.head? = some c → c.isDigit = false := by
  refine ⟨⟨hne, ?_⟩, fun c => Text.head?_not_of_takeWhile h⟩
  rw [← h]
  exact List.all_takeWhile

namespace Quantifier

theorem length_text_pos (q : Quantifier) : 0 < q.text.length := by
  cases q <;> simp [text]

def reversal : Quantifier → List Issue
  | bounds low (some high) _ _ =>
    if high ≠ [] ∧ cappedNumber high < cappedNumber low then
      [.quantifierBounds (cappedNumber low) (cappedNumber high)]
    else []
  | _ => []

theorem order_eq (n : Nat) (low : Text) (high : Option Text) (ending : BoundsEnd)
    (isLazy : Bool) :
    order n low high = (bounds low high ending isLazy).reversal.flatMap (noteAt (.back n)) := by
  have hvalue : ∀ digits, boundValue digits = cappedNumber digits := boundValue_eq
  cases high with
  | none => rfl
  | some high =>
    cases high with
    | nil => rfl
    | cons c high =>
      by_cases h : cappedNumber (c :: high) < cappedNumber low
      · simp [order, reversal, hvalue, h]
      · simp [order, reversal, hvalue, h]

theorem foundOf_order (o : Options) (n k : Nat) (low : Text) (high : Option Text)
    (ending : BoundsEnd) (isLazy : Bool) :
    (order k low high).foundOf ["regex_quantifier_bounds"] o n =
      (bounds low high ending isLazy).reversal.map (n - k, ·) := by
  rw [order_eq k low high ending isLazy]
  unfold reversal
  split
  · split <;> simp [noteAt, Trace.foundOf_note, Rule.holds, Issue.code, Place.offset]
  · rfl

/-- A quantifier is reported for its bounds at its brace, if at all. -/
theorem foundOf_trace (o : Options) (n : Nat) (q : Quantifier) :
    q.trace.foundOf ["regex_quantifier_bounds"] o n = q.reversal.map (n, ·) := by
  have hsafe : Issue.unsafeCharacter.code ∉ ["regex_quantifier_bounds"] := by decide
  cases q with
  | mark c isLazy => exact Trace.foundOf_eq_nil hsafe (by simp [trace])
  | noNumber found => exact Trace.foundOf_eq_nil hsafe (by simp [trace, Issue.code])
  | bounds low high ending isLazy =>
    have hcodes : ∀ code ∈ elementCodes, code ∉ ["regex_quantifier_bounds"] := by decide
    have hending : ending.trace.Remarks fun m => m.issue.code ∉ ["regex_quantifier_bounds"] :=
      ending.within_trace.mono fun m hm => hcodes _ hm
    rw [trace, Trace.foundOf_append, Trace.foundOf_eq_nil hsafe (by simpa using hending),
      foundOf_order o _ _ low high ending isLazy, List.nil_append]
    simp [text, Nat.add_assoc]

theorem exists_scan?_bounds {a r : Text} (ha : IsNumber a)
    (hr : ∀ c, r.head? = some c → c.isDigit = false) :
    ∃ ending isLazy, scan? ('\x7b' :: (a ++ r)) = some (bounds a (highAt r) ending isLazy) := by
  have hne : a.isEmpty = false := by simpa using ha.nonempty
  rw [scan?_brace, scanBounds]
  simp only [takeWhile_isDigit ha.digits hr, hne, List.drop_left]
  exact ⟨_, _, rfl⟩

theorem highAt_number {b r : Text} (hb : IsNumber b)
    (hr : ∀ c, r.head? = some c → c.isDigit = false) : highAt (',' :: (b ++ r)) = some b :=
  congrArg some (takeWhile_isDigit hb.digits hr)

/-- A pair of bounds is two numbers with a comma between them. -/
theorem of_scan?_eq_bounds {t low high : Text} {ending : BoundsEnd} {isLazy : Bool}
    (h : scan? t = some (bounds low (some high) ending isLazy)) (hne : high ≠ []) :
    ∃ r, t = '\x7b' :: (low ++ ',' :: (high ++ r)) ∧ IsNumber low ∧ IsNumber high ∧
      ∀ c, r.head? = some c → c.isDigit = false := by
  cases hb : begins t with
  | false =>
    rw [scan?_of_not_begins hb] at h
    cases h
  | true =>
    rcases begins_cases hb with ⟨c, r, rfl, hc⟩ | ⟨t, rfl⟩
    · rw [scan?_mark hc] at h
      cases h
    · rw [scan?_brace, Option.some_inj] at h
      by_cases hlow : t.takeWhile Char.isDigit = []
      · rw [scanBounds_of_not_digit hlow] at h
        cases h
      · obtain ⟨low', high', ending', r, hbounds⟩ := exists_bounds t
        have hlow' : low' ≠ [] := hbounds.low ▸ hlow
        rw [hbounds.scan_eq hlow', bounds.injEq] at h
        obtain ⟨rfl, rfl, rfl, -⟩ := h
        have hlower := isNumber_of_takeWhile (hbounds.text ▸ hbounds.low) hlow'
        have hupper := isNumber_of_takeWhile (Option.some.inj hbounds.high) hne
        exact ⟨ending'.text ++ r, congrArg ('\x7b' :: ·) hbounds.text, hlower.1, hupper⟩

end Quantifier

namespace RegexTerm

structure AtomAt (u x : Text) (e : RegexElement) (y : Text) : Prop where
  text : u = x ++ (e.text ++ y)
  isAtom : e.isAtom
  terms : ∃ ms m ns, scan u = ms ++ m :: ns ∧ ms.flatMap RegexTerm.text = x ∧ m.element = e

variable {u x y : Text} {e : RegexElement} {ms ns terms : List RegexTerm} {m : RegexTerm}
  {q : Quantifier}

/-- The quantifier of a term is the one that stands behind its element. -/
theorem exists_behind (h : scan u = ms ++ m :: ns) :
    ∃ y, u = ms.flatMap text ++ (m.element.text ++ y) ∧
      m.quantifier = quantifierOf m.element y := by
  obtain ⟨v, rfl⟩ : ms.flatMap text <+: u := by
    refine .trans ?_ (pieceScan.flatMap_prefix () u)
    rw [h, List.flatMap_append]
    exact List.prefix_append _ _
  -- behind the terms before it, a term is the first one of the text that is left
  obtain ⟨-, hv, -⟩ := pieceScan.resume_prefix (v := v) (s := ()) (P := fun _ => True)
    (fun _ => trivial) (fun _ hstop _ => ⟨hstop, rfl⟩) h trivial
  cases hstop : stopsAt v with
  | true =>
    rw [scan_of_stopsAt hstop] at hv
    cases hv
  | false =>
    obtain ⟨c, w, z, rfl, hw⟩ := pieceScan.exists_piece (s := ()) hstop
    rw [pieceScan.scan_cons (s := ()) hstop hw] at hv
    obtain ⟨rfl, -⟩ := List.cons.inj hv
    obtain ⟨a, y, hy, ha⟩ := RegexElement.exists_split c (w ++ z)
    rw [hy] at ha ⊢
    rw [step_eq ha]
    exact ⟨y, by rw [ha]; rfl, rfl⟩

theorem AtomAt.exists_term (h : AtomAt u x e y) : ∃ ms m ns, scan u = ms ++ m :: ns ∧
    ms.flatMap RegexTerm.text = x ∧ m.element = e ∧ m.quantifier = Quantifier.scan? y := by
  obtain ⟨ms, m, ns, hscan, hx, he⟩ := h.terms
  obtain ⟨y', hu, hq⟩ := exists_behind hscan
  rw [h.text, hx, he] at hu
  obtain rfl : y = y' := List.append_cancel_left (List.append_cancel_left hu)
  rw [he, quantifierOf, if_pos h.isAtom] at hq
  exact ⟨ms, m, ns, hscan, hx, he, hq⟩

theorem exists_atomAt (h : scan u = ms ++ m :: ns) (hq : m.quantifier = some q) :
    ∃ y, AtomAt u (ms.flatMap text) m.element y ∧ Quantifier.scan? y = some q := by
  obtain ⟨y, hu, hquantifier⟩ := exists_behind h
  rw [hq, quantifierOf] at hquantifier
  split at hquantifier
  · exact ⟨y, ⟨hu, ‹_›, ms, m, ns, h, rfl, rfl⟩, hquantifier.symm⟩
  · cases hquantifier

theorem text_of_quantifier (hq : m.quantifier = some q) : m.text = m.element.text ++ q.text := by
  rw [text, hq]
  rfl

def reversals (n : Nat) : List RegexTerm → List (Nat × Issue)
  | [] => []
  | m :: terms =>
    (m.quantifier.elim [] Quantifier.reversal).map (n + m.element.text.length, ·) ++
      reversals (n + m.text.length) terms

theorem foundOf_traces (o : Options) (n depth : Nat) (behindAtom : Bool)
    (terms : List RegexTerm) :
    (traces depth behindAtom terms).foundOf ["regex_quantifier_bounds"] o n =
      reversals n terms := by
  induction terms generalizing n depth behindAtom with
  | nil => rfl
  | cons m terms ih =>
    have hcodes : ∀ code ∈ elementCodes, code ∉ ["regex_quantifier_bounds"] := by decide
    have helement : ∀ k, (m.element.trace depth behindAtom).foundOf
        ["regex_quantifier_bounds"] o k = [] := fun k =>
      Trace.foundOf_eq_nil (by decide)
        ((m.element.within_trace depth behindAtom).mono fun _ hm => hcodes _ hm)
    have hquantifier : ∀ k, Trace.foundOf ["regex_quantifier_bounds"] o k
        (m.quantifier.elim [] Quantifier.trace) =
          (m.quantifier.elim [] Quantifier.reversal).map (k, ·) := by
      intro k
      cases m.quantifier with
      | none => rfl
      | some q => exact q.foundOf_trace o k
    rw [traces, Trace.foundOf_append, text_trace, Trace.foundOf_append, helement, hquantifier, ih,
      RegexElement.text_trace, List.nil_append, reversals]

theorem reversals_append (n : Nat) (ms ns : List RegexTerm) :
    reversals n (ms ++ ns) = reversals n ms ++ reversals (n + (ms.flatMap text).length) ns := by
  induction ms generalizing n with
  | nil => rfl
  | cons m ms ih => simp [reversals, ih, Nat.add_assoc]

/-- Each issue is that of a quantifier, and stands where the quantifier does. -/
theorem exists_of_mem_reversals {n : Nat} {f : Nat × Issue} (h : f ∈ reversals n terms) :
    ∃ ms m ns q, terms = ms ++ m :: ns ∧ m.quantifier = some q ∧ f.2 ∈ q.reversal ∧
      f.1 = n + (ms.flatMap text ++ m.element.text).length := by
  induction terms generalizing n with
  | nil => cases h
  | cons m terms ih =>
    rcases List.mem_append.mp h with h | h
    · obtain ⟨i, hi, rfl⟩ := List.mem_map.mp h
      cases hq : m.quantifier with
      | none =>
        rw [hq] at hi
        cases hi
      | some q =>
        rw [hq] at hi
        exact ⟨[], m, terms, q, rfl, hq, hi, rfl⟩
    · obtain ⟨ms, m', ns, q, rfl, hq, hissue, hplace⟩ := ih h
      refine ⟨m :: ms, m', ns, q, rfl, hq, hissue, ?_⟩
      rw [hplace]
      simp [Nat.add_assoc]

theorem place_of_mem_reversals {n : Nat} {f : Nat × Issue} (h : f ∈ reversals n terms) :
    n ≤ f.1 ∧ f.1 < n + (terms.flatMap text).length := by
  obtain ⟨ms, m, ns, q, rfl, hq, -, hplace⟩ := exists_of_mem_reversals h
  have hpos := q.length_text_pos
  simp only [List.flatMap_append, List.flatMap_cons, text_of_quantifier hq,
    List.length_append] at hplace ⊢
  omega

/-- At the place of a quantifier only its own issue stands. -/
theorem filter_reversals {n p : Nat} (hq : m.quantifier = some q)
    (hp : p = n + (ms.flatMap text ++ m.element.text).length) :
    (reversals n (ms ++ m :: ns)).filter (·.1 = p) = q.reversal.map (p, ·) := by
  have hpos := q.length_text_pos
  rw [List.length_append] at hp
  have hbefore : (reversals n ms).filter (·.1 = p) = [] := by
    refine List.filter_eq_nil_iff.mpr fun f hf => ?_
    have hplace := place_of_mem_reversals hf
    rw [decide_eq_true_eq]
    omega
  have hbehind : (reversals (n + (ms.flatMap text).length + m.text.length) ns).filter (·.1 = p) =
      [] := by
    refine List.filter_eq_nil_iff.mpr fun f hf => ?_
    have hplace := place_of_mem_reversals hf
    rw [text_of_quantifier hq, List.length_append] at hplace
    rw [decide_eq_true_eq]
    omega
  have hown : n + (ms.flatMap text).length + m.element.text.length = p := by omega
  rw [reversals_append, List.filter_append, hbefore, reversals, hq, List.filter_append, hbehind,
    hown]
  simp

/-- In the pattern at the start of the text `u`, a brace and the bounds `a` and `b` follow the atom
`e` behind `x`. What stands behind them need not be a brace. -/
structure BoundsAt (u x : Text) (e : RegexElement) (a b r : Text) : Prop where
  atom : AtomAt u x e ('\x7b' :: (a ++ ',' :: (b ++ r)))
  low : IsNumber a
  high : IsNumber b
  behind : ∀ c, r.head? = some c → c.isDigit = false

theorem BoundsAt.exists_scan? {a b r : Text} (h : BoundsAt u x e a b r) :
    ∃ ending isLazy, Quantifier.scan? ('\x7b' :: (a ++ ',' :: (b ++ r))) =
      some (.bounds a (some b) ending isLazy) := by
  have hcomma : ∀ c, (',' :: (b ++ r)).head? = some c → c.isDigit = false := by simp
  obtain ⟨ending, isLazy, hscan⟩ := Quantifier.exists_scan?_bounds h.low hcomma
  rw [Quantifier.highAt_number h.high h.behind] at hscan
  exact ⟨ending, isLazy, hscan⟩

/-- A pair of bounds in the wrong order stands behind an atom. -/
theorem exists_boundsAt {i : Issue} (h : scan u = ms ++ m :: ns) (hq : m.quantifier = some q)
    (hi : i ∈ q.reversal) :
    ∃ a b r, BoundsAt u (ms.flatMap text) m.element a b r ∧ cappedNumber b < cappedNumber a ∧
      i = .quantifierBounds (cappedNumber a) (cappedNumber b) := by
  obtain ⟨y, hatom, hscan⟩ := exists_atomAt h hq
  unfold Quantifier.reversal at hi
  split at hi
  · split at hi
    · rename_i low high ending isLazy hreversed
      obtain ⟨r, rfl, hlow, hhigh, hbehind⟩ := Quantifier.of_scan?_eq_bounds hscan hreversed.1
      exact ⟨low, high, r, ⟨hatom, hlow, hhigh, hbehind⟩, hreversed.2, List.mem_singleton.mp hi⟩
    · cases hi
  · cases hi

end RegexTerm

open RegexTerm (AtomAt BoundsAt reversals)

namespace Token

def behindAtom (k : Token) (x : Text) (e : RegexElement) : Position :=
  k.start.right (1 + (x ++ e.text).length)

/-- The diagnostics `ds` are those of bounds in the wrong order in the regular expression `k`. The
text `u` follows the slash that opens it. -/
structure ReportsBounds (k : Token) (u : Text) (ds : List Diagnostic) : Prop where
  /-- Bounds are reported once, at their brace, or not at all. -/
  between : ∀ {x e a b r}, BoundsAt u x e a b r →
    ds.filter (·.position = k.behindAtom x e) =
      if cappedNumber b < cappedNumber a then
        [(Issue.quantifierBounds (cappedNumber a) (cappedNumber b)).diagnostic (k.behindAtom x e)]
      else []
  inOrder : ∀ {x e a b r}, BoundsAt u x e a b r → ofDigits 10 a ≤ ofDigits 10 b →
    ∀ d ∈ ds, d.position ≠ k.behindAtom x e
  reversed : ∀ {x e a b r}, BoundsAt u x e a b r → ofDigits 10 b < ofDigits 10 a →
    ofDigits 10 b < 2 ^ 64 - 1 → ∃ d ∈ ds, d.position = k.behindAtom x e
  /-- A lower bound alone is fine. -/
  lowerOnly : ∀ {x e a r}, AtomAt u x e ('\x7b' :: (a ++ r)) → IsNumber a →
    ['\x7d'] <+: r ∨ [',', '\x7d'] <+: r → ∀ d ∈ ds, d.position ≠ k.behindAtom x e
  only : ∀ d ∈ ds, ∃ x e a b r, BoundsAt u x e a b r ∧ cappedNumber b < cappedNumber a ∧
    d = (Issue.quantifierBounds (cappedNumber a) (cappedNumber b)).diagnostic (k.behindAtom x e)

def boundsReports (k : Token) (u : Text) : List Diagnostic :=
  (reversals 1 (RegexTerm.scan u)).map fun f => f.2.diagnostic (k.start.right f.1)

theorem filter_boundsReports {u x y : Text} {e : RegexElement} (h : AtomAt u x e y)
    {q : Quantifier} (hq : Quantifier.scan? y = some q) (k : Token) :
    (k.boundsReports u).filter (·.position = k.behindAtom x e) =
      q.reversal.map (·.diagnostic (k.behindAtom x e)) := by
  obtain ⟨ms, m, ns, hscan, rfl, rfl, hquantifier⟩ := h.exists_term
  have hfilter : (reversals 1 (ms ++ m :: ns)).filter
      (·.1 = 1 + (ms.flatMap RegexTerm.text ++ m.element.text).length) =
        q.reversal.map (1 + (ms.flatMap RegexTerm.text ++ m.element.text).length, ·) :=
    RegexTerm.filter_reversals (hquantifier.trans hq) rfl
  have hposition : ∀ f : Nat × Issue,
      decide ((f.2.diagnostic (k.start.right f.1)).position =
        k.behindAtom (ms.flatMap RegexTerm.text) m.element) =
      decide (f.1 = 1 + (ms.flatMap RegexTerm.text ++ m.element.text).length) := by
    intro f
    rw [decide_eq_decide]
    simp [behindAtom, Position.right, Issue.diagnostic]
  rw [boundsReports, List.filter_map, Function.comp_def]
  simp only [hposition]
  rw [hscan, hfilter, List.map_map]
  rfl

theorem filter_boundsReports_between {u x a b r : Text} {e : RegexElement}
    (h : BoundsAt u x e a b r) (k : Token) :
    (k.boundsReports u).filter (·.position = k.behindAtom x e) =
      if cappedNumber b < cappedNumber a then
        [(Issue.quantifierBounds (cappedNumber a) (cappedNumber b)).diagnostic (k.behindAtom x e)]
      else [] := by
  obtain ⟨ending, isLazy, hscan⟩ := h.exists_scan?
  rw [filter_boundsReports h.atom hscan, Quantifier.reversal]
  by_cases hlt : cappedNumber b < cappedNumber a
  · rw [if_pos ⟨h.high.nonempty, hlt⟩, if_pos hlt]
    rfl
  · rw [if_neg fun hreversed => hlt hreversed.2, if_neg hlt]
    rfl

/-- Nothing is reported of a lower bound alone. -/
theorem filter_boundsReports_lowerOnly {u x a r : Text} {e : RegexElement}
    (h : AtomAt u x e ('\x7b' :: (a ++ r))) (ha : IsNumber a)
    (hr : ['\x7d'] <+: r ∨ [',', '\x7d'] <+: r) (k : Token) :
    (k.boundsReports u).filter (·.position = k.behindAtom x e) = [] := by
  obtain ⟨high, hhigh, hhead, hat⟩ : ∃ high, (high = none ∨ high = some []) ∧
      (∀ c, r.head? = some c → c.isDigit = false) ∧ Quantifier.highAt r = high := by
    rcases hr with ⟨r, rfl⟩ | ⟨r, rfl⟩
    · exact ⟨none, .inl rfl, by simp, rfl⟩
    · exact ⟨some [], .inr rfl, by simp, rfl⟩
  obtain ⟨ending, isLazy, hscan⟩ := Quantifier.exists_scan?_bounds ha hhead
  rw [hat] at hscan
  rw [filter_boundsReports h hscan]
  rcases hhigh with rfl | rfl <;> rfl

theorem reportsBounds (k : Token) (u : Text) : k.ReportsBounds u (k.boundsReports u) where
  between := fun h => filter_boundsReports_between h k
  inOrder := by
    intro x e a b r h hle d hd hposition
    have hfilter := filter_boundsReports_between h k
    rw [if_neg fun hlt => by rw [cappedNumber_lt_iff] at hlt; omega] at hfilter
    exact List.filter_eq_nil_iff.mp hfilter d hd (decide_eq_true hposition)
  reversed := by
    intro x e a b r h hlt hcap
    have hfilter := filter_boundsReports_between h k
    rw [if_pos (cappedNumber_lt_iff.mpr ⟨hlt, hcap⟩)] at hfilter
    have hmem := List.mem_filter.mp (hfilter ▸ List.mem_singleton_self _)
    exact ⟨_, hmem.1, rfl⟩
  lowerOnly := by
    intro x e a r h ha hr d hd hposition
    have hfilter := filter_boundsReports_lowerOnly h ha hr k
    exact List.filter_eq_nil_iff.mp hfilter d hd (decide_eq_true hposition)
  only := by
    intro d hd
    obtain ⟨⟨p, i⟩, hf, rfl⟩ := List.mem_map.mp hd
    obtain ⟨ms, m, ns, q, hscan, hq, hi, hp⟩ := RegexTerm.exists_of_mem_reversals hf
    obtain ⟨a, b, r, hbounds, hlt, rfl⟩ := RegexTerm.exists_boundsAt hscan hq hi
    exact ⟨_, _, a, b, r, hbounds, hlt, congrArg _ (congrArg k.start.right hp)⟩

end Token

namespace Lexer

/-- A call that yields a regular expression reports the bounds of its quantifiers that are in the
wrong order, and none else, however many digits they have. -/
theorem quantifier_bounds_reported [UnicodePrimitives] (t : Text) (o : Options) (w : Bool)
    (n : Nat) {k : Token}
    {l' : Lexer} (h : ((start t o w).calls n).2.next = some (k, l')) (hk : k.kind = .regex) :
    ∃ u pattern ds, k.HasPattern t u pattern ∧ k.ReportsBounds u ds ∧
      l'.reader.reported ["regex_quantifier_bounds"] =
        ((start t o w).calls n).2.reader.reported ["regex_quantifier_bounds"] ++ ds := by
  obtain ⟨g, u, pattern, hreads, hpattern⟩ := exists_readsRegex_calls t o w n h hk
  have hcodes : ∀ i : Issue, ["regex_quantifier_bounds"].contains i.code →
      i.code ∈ patternCodes := by
    intro i hi
    rw [List.mem_singleton.mp (List.contains_iff_mem.mp hi)]
    decide
  have hfound := (Lexeme.filter_found_regex _ hcodes ((start t o w).calls n).2.options u).trans
    (RegexTerm.foundOf_traces _ 1 0 false (RegexTerm.scan u))
  refine ⟨u, pattern, _, hpattern, k.reportsBounds u, ?_⟩
  exact (hreads.reported_eq (by decide)).trans (congrArg _ (congrArg (List.map _) hfound))

/-- The first pair of bounds is beyond 64 bits, no brace ends the second one, and behind the last
comma no upper bound stands. -/
theorem quantifier_bounds_reported_of_broken_bounds : ∃ k l',
    ((start "/a\x7b99999999999999999999,18446744073709551615\x7d(b)\x7b10,9x\x7dc\x7b3,\x7d/".toList
        {} true).calls 0).2.next = some (k, l') ∧ k.kind = .regex ∧
      l'.reader.reported ["regex_quantifier_bounds"] =
        [(Issue.quantifierBounds 10 9).diagnostic { column := 49 }] ∧ ∃ u pattern ds,
        k.HasPattern
          "/a\x7b99999999999999999999,18446744073709551615\x7d(b)\x7b10,9x\x7dc\x7b3,\x7d/".toList
          u pattern ∧
        k.ReportsBounds u ds ∧
        l'.reader.reported ["regex_quantifier_bounds"] = ((start
          "/a\x7b99999999999999999999,18446744073709551615\x7d(b)\x7b10,9x\x7dc\x7b3,\x7d/".toList
          {} true).calls 0).2.reader.reported ["regex_quantifier_bounds"] ++ ds := by
  have hcall : ((start
      "/a\x7b99999999999999999999,18446744073709551615\x7d(b)\x7b10,9x\x7dc\x7b3,\x7d/".toList
      {} true).calls 0).2.next.any fun (k, l') =>
        k.kind = .regex && l'.reader.reported ["regex_quantifier_bounds"] =
          [(Issue.quantifierBounds 10 9).diagnostic { column := 49 }] := by
    decide +kernel
  obtain ⟨⟨k, l'⟩, h, hfacts⟩ := (Option.any_eq_true _ _).mp hcall
  simp only [Bool.and_eq_true, decide_eq_true_eq] at hfacts
  exact ⟨k, l', h, hfacts.1, hfacts.2, quantifier_bounds_reported _ _ _ 0 h hfacts.1⟩

end Lexer

end EcmaLex
