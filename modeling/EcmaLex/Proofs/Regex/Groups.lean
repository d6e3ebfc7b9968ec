import EcmaLex.Primitives.Standard
import EcmaLex.Proofs.Regex.Found
import Mathlib.Logic.Relation

/-!
# Groups

The parentheses of a pattern make up a word. In whatever order the pairs of it are cancelled, the
same parentheses are left: closing ones, and behind them opening ones. The lexer only counts how
many groups are open, and yet reports exactly what is left.
-/

namespace EcmaLex

open Trace (onlyIf noteAt noteStart)

namespace Parenthesis

inductive Cancels : List Parenthesis → List Parenthesis → Prop where
  | pair (v : List Parenthesis) (p q : Nat) (w : List Parenthesis) :
    Cancels (v ++ opening p :: closing q :: w) (v ++ w)

/-- Cancelling pairs of a word leaves the closing parentheses at `ks`, followed by the opening ones
at `ns`. -/
def Leaves (w : List Parenthesis) (ks ns : List Nat) : Prop :=
  Relation.ReflTransGen Cancels w (ks.map closing ++ ns.map opening)

def strayClosings (depth : Nat) : List Parenthesis → List Nat
  | [] => []
  | opening _ :: w => strayClosings (depth + 1) w
  | closing n :: w => (if depth = 0 then [n] else []) ++ strayClosings (depth - 1) w

def openGroups (pending : List Nat) : List Parenthesis → List Nat
  | [] => pending.reverse
  | opening n :: w => openGroups (n :: pending) w
  | closing _ :: w => openGroups pending.tail w

variable {v w : List Parenthesis}

theorem Cancels.strayClosings_eq (h : Cancels v w) (depth : Nat) :
    strayClosings depth v = strayClosings depth w := by
  obtain ⟨v, p, q, w⟩ := h
  induction v generalizing depth with
  | nil => rfl
  | cons a v ih => cases a <;> simp [strayClosings, ih]

theorem Cancels.openGroups_eq (h : Cancels v w) (pending : List Nat) :
    openGroups pending v = openGroups pending w := by
  obtain ⟨v, p, q, w⟩ := h
  induction v generalizing pending with
  | nil => rfl
  | cons a v ih => cases a <;> simp [openGroups, ih]

theorem strayClosings_openings (depth : Nat) (ns : List Nat) :
    strayClosings depth (ns.map opening) = [] := by
  induction ns generalizing depth with
  | nil => rfl
  | cons n ns ih => exact ih (depth + 1)

theorem strayClosings_closings (ks : List Nat) (w : List Parenthesis) :
    strayClosings 0 (ks.map closing ++ w) = ks ++ strayClosings 0 w := by
  induction ks with
  | nil => rfl
  | cons k ks ih => exact congrArg (k :: ·) ih

theorem openGroups_openings (pending ns : List Nat) :
    openGroups pending (ns.map opening) = pending.reverse ++ ns := by
  induction ns generalizing pending with
  | nil => exact (List.append_nil _).symm
  | cons n ns ih => simp [openGroups, ih]

theorem openGroups_closings (ks : List Nat) (w : List Parenthesis) :
    openGroups [] (ks.map closing ++ w) = openGroups [] w := by
  induction ks with
  | nil => rfl
  | cons k ks ih => exact ih

theorem Leaves.eq {ks ns : List Nat} (h : Leaves w ks ns) :
    ks = strayClosings 0 w ∧ ns = openGroups [] w := by
  have hsame : ∀ v, Relation.ReflTransGen Cancels w v →
      strayClosings 0 w = strayClosings 0 v ∧ openGroups [] w = openGroups [] v := by
    intro v hv
    induction hv with
    | refl => exact ⟨rfl, rfl⟩
    | tail _ hstep ih =>
      exact ⟨ih.1.trans (hstep.strayClosings_eq 0), ih.2.trans (hstep.openGroups_eq [])⟩
  obtain ⟨hclosings, hopenings⟩ := hsame _ h
  rw [strayClosings_closings, strayClosings_openings, List.append_nil] at hclosings
  rw [openGroups_closings, openGroups_openings] at hopenings
  exact ⟨hclosings.symm, hopenings.symm⟩

/-- Behind closing parentheses that are left and groups that are pending, a word cancels down to
more of both. -/
theorem cancels_from (ks pending : List Nat) (w : List Parenthesis) :
    Relation.ReflTransGen Cancels (ks.map closing ++ (pending.reverse.map opening ++ w))
      ((ks ++ strayClosings pending.length w).map closing ++
        (openGroups pending w).map opening) := by
  induction w generalizing ks pending with
  | nil =>
    rw [strayClosings, openGroups, List.append_nil, List.append_nil]
  | cons a w ih =>
    cases a with
    | opening n => simpa [strayClosings, openGroups] using ih ks (n :: pending)
    | closing n =>
      cases pending with
      | nil => simpa [strayClosings, openGroups] using ih (ks ++ [n]) []
      | cons p pending =>
        have hpair := Cancels.pair (ks.map closing ++ pending.reverse.map opening) p n w
        refine .head ?_ (ih ks pending)
        simpa using hpair

theorem leaves_iff (w : List Parenthesis) (ks ns : List Nat) :
    Leaves w ks ns ↔ ks = strayClosings 0 w ∧ ns = openGroups [] w := by
  refine ⟨Leaves.eq, ?_⟩
  rintro ⟨rfl, rfl⟩
  exact cancels_from [] [] w

end Parenthesis

open Parenthesis (strayClosings openGroups)

namespace RegexElement

theorem strayClosings_parentheses (e : RegexElement) (n depth : Nat) (w : List Parenthesis) :
    strayClosings depth (e.parentheses n ++ w) =
      (if e = closing ∧ depth = 0 then [n] else []) ++ strayClosings (e.nest depth) w := by
  cases e <;> simp [parentheses, strayClosings, nest]

theorem length_openGroups_parentheses (e : RegexElement) (n : Nat) (pending : List Nat)
    (w : List Parenthesis) : ∃ pending', pending'.length = e.nest pending.length ∧
      openGroups pending (e.parentheses n ++ w) = openGroups pending' w := by
  cases e with
  | opening kind => exact ⟨n :: pending, rfl, rfl⟩
  | closing => exact ⟨pending.tail, List.length_tail, rfl⟩
  | _ => exact ⟨pending, rfl, rfl⟩

end RegexElement

/-- No character of a class is a parenthesis out of place. -/
theorem CharacterClass.escaped_trace (k : CharacterClass) : k.trace.Escaped ')' := by
  have hitem : ∀ slot last (i : ClassItem), (i.trace slot last).Escaped ')' := by
    intro slot last i
    cases i with
    | hyphen => simp [ClassItem.trace]
    | escape e => simp [ClassItem.trace, e.escaped_trace ')']
    | char c => exact ClassItem.escaped_trace_char (by decide) slot last c
  have hitems : ∀ slot items, (ClassItem.traces k.closed slot items).Escaped ')' := by
    intro slot items
    induction items generalizing slot with
    | nil => simp [ClassItem.traces]
    | cons i items ih =>
      simp only [ClassItem.traces, Trace.Escaped, Trace.remarks_append]
      exact ⟨hitem _ _ i, ih _⟩
  simp only [trace, opening, Trace.Escaped, Trace.remarks_append, Trace.remarks_read]
  refine ⟨?_, hitems _ _⟩
  split <;> simp

variable {o : Options}

/-- A closing parenthesis is reported where no group is open. -/
theorem RegexElement.spots_closing {e : RegexElement} (he : ∀ c, e = .stray c → c ∈ strays)
    (n depth : Nat) (behindAtom : Bool) :
    (e.trace depth behindAtom).spots o (.unescaped ')') n =
      if e = closing ∧ depth = 0 then [n] else [] := by
  have hnone : (e.trace depth behindAtom).Escaped ')' →
      (e.trace depth behindAtom).spots o (.unescaped ')') n = [] := Trace.spots_eq_nil (by decide)
  cases e with
  | closing =>
    rw [trace, Trace.spots_read (by decide), Trace.spots_onlyIf, Trace.spots_noteAt, if_pos rfl]
    simp [Place.offset]
  | charClass k => simpa using hnone k.escaped_trace
  | escape e => simpa using hnone (e.escaped_trace ')')
  | opening kind => simpa using hnone (by cases kind <;> simp [trace, GroupKind.trace])
  | stray c =>
    have hne : c ≠ ')' := by
      rintro rfl
      exact absurd (he ')' rfl) (by decide)
    simpa using hnone (by simp [trace, hne])
  | _ => simpa using hnone (by simp [trace])

namespace RegexTerm

theorem spots_closing {terms : List RegexTerm}
    (hterms : ∀ m ∈ terms, ∀ c, m.element = .stray c → c ∈ RegexElement.strays)
    (n depth : Nat) (behindAtom : Bool) :
    (traces depth behindAtom terms).spots o (.unescaped ')') n =
      strayClosings depth (parentheses n terms) := by
  induction terms generalizing n depth behindAtom with
  | nil => rfl
  | cons m terms ih =>
    obtain ⟨hm, hterms⟩ := List.forall_mem_cons.mp hterms
    rw [spots_traces (by decide) (Quantifier.escaped_trace ')'), RegexElement.spots_closing hm,
      ih hterms, parentheses, RegexElement.strayClosings_parentheses]

theorem length_openGroups (pending : List Nat) (n : Nat) (terms : List RegexTerm) :
    (openGroups pending (parentheses n terms)).length = nest pending.length terms := by
  induction terms generalizing pending n with
  | nil => exact List.length_reverse
  | cons m terms ih =>
    obtain ⟨pending', hlength, hopen⟩ :=
      m.element.length_openGroups_parentheses n pending (parentheses (n + m.text.length) terms)
    rw [parentheses, hopen, ih, hlength, nest]

theorem parentheses_pattern {t pattern : Text} (hp : (scan t).flatMap text = pattern)
    (hskipped : ∀ m ∈ scan t, ∀ c ∈ "[()".toList, .char c ∉ m.skipped) (n : Nat) :
    PatternSpot.parentheses {} n pattern = parentheses n (scan t) := by
  obtain ⟨r, -, -, hspans⟩ := spans_scan t
  rw [hp] at hspans
  exact (hspans.crosses fun c hc m hm => hskipped m hm c hc).parentheses n

end RegexTerm

def Issue.isOpenGroups (i : Issue) : Bool := ["regex_unterminated_groups"].contains i.code

namespace Lexeme

theorem filter_openGroups_eq_nil {codes : List String} {s : Trace} (hs : s.Within codes)
    (hcodes : ∀ code ∈ codes, ["regex_unterminated_groups"].contains code = false) (n : Nat) :
    (s.found o n).filter (fun f => f.2.isOpenGroups) = [] :=
  Trace.filter_found_eq_nil _ rfl (hs.mono fun _ hm => hcodes _ hm)

theorem found_patternEnd [Primitives] (depth n : Nat) (r : Text) :
    ((patternEnd depth ('/' :: r)).found o n).filter (fun f => f.2.isOpenGroups) =
      if depth = 0 then [] else [(n, .unterminatedGroups depth)] := by
  have hflags := filter_openGroups_eq_nil (o := o)
    (RegexFlag.within_traces [] (r.takeWhile isWordPart)) (by decide)
  have hconfusing : ∀ b n, ((onlyIf b (noteStart .confusingRegex)).found o n).filter
      (fun f => f.2.isOpenGroups) = [] := by
    intro b n
    have hwithin : Trace.Within ["confusing_regex"] (onlyIf b (noteStart .confusingRegex)) := by
      simp [Issue.code]
    exact filter_openGroups_eq_nil hwithin (by decide) n
  have hslash : isUnsafeChar '/' = false := by decide
  have hgroups : (Issue.unterminatedGroups depth).isOpenGroups = true := rfl
  simp only [patternEnd, Trace.found_append, List.filter_append, hflags, hconfusing]
  by_cases hdepth : depth = 0
  · simp [Trace.found, hslash, hdepth]
  · simp [Trace.found, hslash, hdepth, hgroups, Nat.pos_of_ne_zero, noteAt, Place.offset,
      Rule.holds]

/-- The remark on groups that are left open is made once, on the slash that closes the pattern. -/
theorem found_groups [Primitives] {t pattern r : Text} (ht : t = pattern ++ '/' :: r)
    (hp : (RegexTerm.scan t).flatMap RegexTerm.text = pattern) :
    ((regex t).trace.found o 0).filter (fun f => f.2.isOpenGroups) =
      if RegexTerm.nest 0 (RegexTerm.scan t) = 0 then []
      else [(pattern.length + 1, .unterminatedGroups (RegexTerm.nest 0 (RegexTerm.scan t)))] := by
  have hremainder : RegexTerm.remainder t = '/' :: r := by
    rw [RegexTerm.remainder, hp, ht, List.drop_left]
  have hopening : (Trace.Within ["regex_confused_with_assign"]
      (.read '/' :: onlyIf (t.head? = some '=') (noteStart .regexConfusedWithAssign))) := by
    simp [Issue.code]
  have hterms := filter_openGroups_eq_nil (o := o)
    (RegexTerm.within_traces 0 false (RegexTerm.scan t)) (by decide)
  rw [trace_regex, RegexTerm.course, hremainder, Trace.found_append, List.filter_append,
    filter_openGroups_eq_nil hopening (by decide), Trace.found_append, List.filter_append, hterms,
    found_patternEnd, RegexTerm.text_traces, hp]
  simp [Nat.add_comm]

end Lexeme

namespace Lexer

/-- The call that yields the closed regular expression `k` reports the parentheses that are left of
its pattern: the closing ones where they stand, and the number of the opening ones on the slash that
closes the literal. -/
structure ReportsGroups (l : Lexer) (k : Token) (l' : Lexer) (pattern : Text)
    (closings openings : List Nat) : Prop where
  /-- These are left in whatever order pairs are cancelled. -/
  left : ∀ ks ns, Parenthesis.Leaves (PatternSpot.parentheses {} 1 pattern) ks ns ↔
    ks = closings ∧ ns = openings
  closings : l'.spots (.unescaped ')') = l.spots (.unescaped ')') ++ closings.map k.start.right
  openings : l'.reader.reported ["regex_unterminated_groups"] =
    l.reader.reported ["regex_unterminated_groups"] ++
      if openings = [] then []
      else [(Issue.unterminatedGroups openings.length).diagnostic
        (k.start.right (pattern.length + 1))]

/-- A call that yields a closed regular expression reports the parentheses of the pattern that have
no partner, as long as no bracket or parenthesis is skipped behind broken bounds. -/
theorem unmatched_parentheses_reported [UnicodePrimitives] (t : Text) (o : Options) (w : Bool)
    (n : Nat) {k : Token}
    {l' : Lexer} (h : ((start t o w).calls n).2.next = some (k, l')) (hk : k.kind = .regex)
    (hclosed : k.unclosed = false) :
    ∃ u pattern, k.HasPattern t u pattern ∧
      ((∀ m ∈ RegexTerm.scan u, ∀ c ∈ "[()".toList, .char c ∉ m.skipped) →
        ∃ closings openings,
          ((start t o w).calls n).2.ReportsGroups k l' pattern closings openings) := by
  obtain ⟨g, u, pattern, hreads, hpattern⟩ := exists_readsRegex_calls t o w n h hk
  obtain ⟨r, hu⟩ := hpattern.closed hclosed
  refine ⟨u, pattern, hpattern, fun hskipped => ?_⟩
  have hword := RegexTerm.parentheses_pattern hpattern.terms hskipped 1
  have hspots := hreads.spots_eq (Issue.isDistinct_unescaped ')') (by decide)
  rw [Lexeme.spots_regex (by decide), RegexTerm.spots_closing RegexTerm.mem_strays, ← hword]
    at hspots
  have hnest := RegexTerm.length_openGroups [] 1 (RegexTerm.scan u)
  have hgroups := Lexeme.found_groups (o := ((start t o w).calls n).2.options) hu hpattern.terms
  rw [List.length_nil, ← hword] at hnest
  rw [← hnest] at hgroups
  refine ⟨_, _, Parenthesis.leaves_iff _, hspots, (hreads.reported_eq (by decide)).trans ?_⟩
  refine congrArg _ ((congrArg (List.map _) hgroups).trans ?_)
  cases openGroups [] (PatternSpot.parentheses {} 1 pattern) <;> rfl

/-- Escaped parentheses and those in classes do not count, and neither a broken group nor broken
bounds change anything. -/
theorem unmatched_parentheses_reported_of_groups : ∃ k l',
    ((start "/)(?x(a\x7b1x\x7d[(]\\()())((b/".toList {} true).calls 0).2.next = some (k, l') ∧
      k.kind = .regex ∧ k.unclosed = false ∧
      l'.spots (.unescaped ')') = [{ column := 2 }] ∧
      l'.reader.reported ["regex_unterminated_groups"] =
        [(Issue.unterminatedGroups 2).diagnostic { column := 24 }] ∧ ∃ u pattern,
        k.HasPattern "/)(?x(a\x7b1x\x7d[(]\\()())((b/".toList u pattern ∧
        (∀ m ∈ RegexTerm.scan u, ∀ c ∈ "[()".toList, .char c ∉ m.skipped) ∧
        ∃ closings openings,
          ((start "/)(?x(a\x7b1x\x7d[(]\\()())((b/".toList {} true).calls 0).2.ReportsGroups k l'
            pattern closings openings := by
  have hcall :
      ((start "/)(?x(a\x7b1x\x7d[(]\\()())((b/".toList {} true).calls 0).2.next.any fun (k, l') =>
        k.kind = .regex && !k.unclosed && k.range.1 = 0 &&
        l'.spots (.unescaped ')') = [{ column := 2 }] &&
        l'.reader.reported ["regex_unterminated_groups"] =
          [(Issue.unterminatedGroups 2).diagnostic { column := 24 }] := by
    decide +kernel
  have hskipped : ((RegexTerm.scan "/)(?x(a\x7b1x\x7d[(]\\()())((b/".toList.tail).all fun m =>
      "[()".toList.all fun c => .char c ∉ m.skipped) = true := by
    decide +kernel
  obtain ⟨⟨k, l'⟩, h, hfacts⟩ := (Option.any_eq_true _ _).mp hcall
  simp only [Bool.and_eq_true, Bool.not_eq_true', decide_eq_true_eq] at hfacts
  obtain ⟨⟨⟨⟨hkind, hclosed⟩, hstart⟩, hspots⟩, hgroups⟩ := hfacts
  obtain ⟨u, pattern, hpattern, hreports⟩ :=
    unmatched_parentheses_reported _ _ _ 0 h hkind hclosed
  rw [hpattern.eq_cons hstart, List.tail_cons] at hskipped
  simp only [List.all_eq_true, decide_eq_true_eq] at hskipped
  exact ⟨k, l', h, hkind, hclosed, hspots, hgroups, u, pattern, hpattern, hskipped,
    hreports hskipped⟩

end Lexer

end EcmaLex
