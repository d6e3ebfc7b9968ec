import EcmaLex.Proofs.Regex.Grammar

/-!
# Derived quantifiers and classes

A quantifier or a class that the grammar derives is read to its end, whatever follows it, and
nothing is said of it. Over the items of a class this is carried by the slot in which each of them
is read.
-/

namespace EcmaLex

namespace Quantifier

theorem boundValue_eq (digits : Text) : boundValue digits = min (ofDigits 10 digits) maxBound := by
  have hfold : ∀ n, digits.foldl (fun n c => saturate (saturate (n * 10) + hexValue c))
      (min n maxBound) = min (digits.foldl (fun n c => n * 10 + hexValue c) n) maxBound := by
    induction digits with
    | nil => exact fun _ => rfl
    | cons c digits ih =>
      intro n
      have hstep : saturate (saturate (min n maxBound * 10) + hexValue c) =
          min (n * 10 + hexValue c) maxBound := by
        simp only [saturate]
        omega
      rw [List.foldl_cons, List.foldl_cons, hstep, ih]
  exact hfold 0

theorem takeWhile_isDigit {n r : Text} (hn : n.all Char.isDigit)
    (hr : ∀ c, r.head? = some c → c.isDigit = false) : (n ++ r).takeWhile Char.isDigit = n := by
  refine Text.takeWhile_append_of_head? (u := []) ?_ hr
  rw [List.append_nil, List.takeWhile_eq_self_iff]
  exact List.all_eq_true.mp hn

theorem bounds_closed {n : Text} {high : Option Text} (hn : n.all Char.isDigit)
    (hhigh : ∀ m ∈ high, m.all Char.isDigit) (r : Text) :
    Bounds (n ++ (highText high ++ '\x7d' :: r)) n high .closed r where
  text := rfl
  low := by
    cases high with
    | none => exact takeWhile_isDigit hn (by simp [highText])
    | some m => exact takeWhile_isDigit hn (by simp [highText])
  high := by
    cases high with
    | none => rfl
    | some m => exact congrArg some (takeWhile_isDigit (hhigh m rfl) (by simp [BoundsEnd.text]))
  ending := rfl

theorem head?_lazyText {r : Text} (hr : r.head? ≠ some '?') (isLazy : Bool) :
    decide ((lazyText isLazy ++ r).head? = some '?') = isLazy := by
  cases isLazy with
  | true => rfl
  | false => exact decide_eq_false hr

/-- Bounds in order are read to their brace, and nothing is said of them. -/
theorem scan?_bounds {n r : Text} (high : Option Text) (hn : IsNumber n)
    (hhigh : ∀ m ∈ high, m.all Char.isDigit)
    (horder : ∀ m ∈ high, m ≠ [] → ofDigits 10 n ≤ ofDigits 10 m) (hr : r.head? ≠ some '?')
    (isLazy : Bool) :
    scan? ('\x7b' :: (n ++ (highText high ++ '\x7d' :: (lazyText isLazy ++ r)))) =
        some (bounds n high .closed isLazy) ∧
      (bounds n high .closed isLazy).trace.Remarks fun _ => False := by
  constructor
  · rw [scan?_brace, (bounds_closed hn.digits hhigh _).scan_eq hn.nonempty, head?_lazyText hr]
  · simp only [trace, BoundsEnd.trace, Trace.remarks_append, Trace.remarks_reads,
      Trace.remarks_read, Trace.remarks_nil, true_and]
    cases high with
    | none => simp [order]
    | some m =>
      cases m with
      | nil => simp [order]
      | cons c m =>
        have hle := horder (c :: m) rfl (List.cons_ne_nil c m)
        have hvalue : boundValue n ≤ boundValue (c :: m) := by
          rw [boundValue_eq, boundValue_eq]
          omega
        simp [order, Nat.not_lt.mpr hvalue]

end Quantifier

open Quantifier (lazyText)

/-- A derived quantifier is read as one, and nothing is said of it. -/
theorem IsQuantifier.exists_scan? {q r : Text} (h : IsQuantifier q) (hr : r.head? ≠ some '?') :
    ∃ k, Quantifier.scan? (q ++ r) = some k ∧ k.text = q ∧ k.trace.Remarks fun _ => False := by
  cases h with
  | mark hc isLazy =>
    refine ⟨.mark _ isLazy, ?_, rfl, by simp [Quantifier.trace]⟩
    rw [List.cons_append, Quantifier.scan?_mark hc, Quantifier.head?_lazyText hr]
  | exactly hn isLazy =>
    obtain ⟨hscan, hsilent⟩ := Quantifier.scan?_bounds none hn (by simp) (by simp) hr isLazy
    exact ⟨_, by simpa [Quantifier.highText] using hscan,
      by simp [Quantifier.text, Quantifier.highText, BoundsEnd.text], hsilent⟩
  | atLeast hn isLazy =>
    obtain ⟨hscan, hsilent⟩ :=
      Quantifier.scan?_bounds (some []) hn (by simp) (by simp) hr isLazy
    exact ⟨_, by simpa [Quantifier.highText] using hscan,
      by simp [Quantifier.text, Quantifier.highText, BoundsEnd.text], hsilent⟩
  | @between n m hn hm hle isLazy =>
    obtain ⟨hscan, hsilent⟩ :=
      Quantifier.scan?_bounds (some m) hn (by simpa using hm.digits) (by simp [hle]) hr isLazy
    exact ⟨_, by simpa [Quantifier.highText] using hscan,
      by simp [Quantifier.text, Quantifier.highText, BoundsEnd.text], hsilent⟩

/-- A text of which nothing is said that is always wrong in a pattern. -/
def IsTidy (w : Text) : Prop := ∀ c ∈ w, isUnsafeChar c = false ∧ isLineTerminator c = false

theorem isTidy_cons {c : Char} {w : Text} :
    IsTidy (c :: w) ↔ (isUnsafeChar c = false ∧ isLineTerminator c = false) ∧ IsTidy w :=
  List.forall_mem_cons

theorem isTidy_append {w w' : Text} : IsTidy (w ++ w') ↔ IsTidy w ∧ IsTidy w' :=
  List.forall_mem_append

namespace RegexEscape

theorem isUnexpected_of_isEscapable {c : Char} (hc : isEscapable c) : isUnexpected c = false := by
  simp only [isEscapable, Bool.and_eq_true, Bool.or_eq_true, Bool.not_eq_true',
    decide_eq_true_eq] at hc
  simp only [isUnexpected, Bool.or_eq_false_iff, Bool.and_eq_false_iff, Bool.not_eq_false',
    decide_eq_false_iff_not]
  exact ⟨hc.1, hc.2⟩

theorem scan_cons {c : Char} (hc : isLineTerminator c = false) (t : Text) :
    scan (c :: t) = ⟨some c⟩ := by
  simp [scan, hc]

theorem remarks_trace_of_isEscapable {c : Char} (hc : isEscapable c)
    (hsafe : isUnsafeChar c = false) : Trace.Remarks (fun _ => False) (trace ⟨some c⟩) := by
  simp [trace, hsafe, isUnexpected_of_isEscapable hc]

end RegexEscape

namespace ClassItem

/-- The text `w` is read as the items `is`, which lead from one slot to another, and nothing is said
of them. -/
structure Fills (slot : ClassSlot) (w : Text) (is : List ClassItem) (slot' : ClassSlot) : Prop where
  scan : ∀ r, scan (w ++ r) = is ++ scan r
  text : is.flatMap text = w
  silent : ∀ js, (traces true slot' js).Remarks (fun _ => False) →
    (traces true slot (is ++ js)).Remarks fun _ => False

variable {slot slot' slot'' : ClassSlot} {w w' : Text} {is is' : List ClassItem} {c : Char}

theorem Fills.nil (slot : ClassSlot) : Fills slot [] [] slot := ⟨fun _ => rfl, rfl, fun _ => id⟩

theorem Fills.append (h : Fills slot w is slot') (h' : Fills slot' w' is' slot'') :
    Fills slot (w ++ w') (is ++ is') slot'' where
  scan := fun r => by rw [List.append_assoc, h.scan, h'.scan, List.append_assoc]
  text := by rw [List.flatMap_append, h.text, h'.text]
  silent := fun js hjs => by
    rw [List.append_assoc]
    exact h.silent _ (h'.silent js hjs)

def behindChar (slot : ClassSlot) : ClassSlot := if slot = .range then .settled else .literal

theorem fills_char (hc : isMember c) (htidy : isUnsafeChar c = false ∧ isLineTerminator c = false)
    (slot : ClassSlot) : Fills slot [c] [char c] (behindChar slot) := by
  have hnot : c ≠ ']' ∧ c ≠ '[' ∧ c ≠ '^' ∧ c ≠ '/' ∧ c ≠ '\\' ∧ c ≠ '-' := by
    simpa [isMember] using hc
  refine ⟨fun r => ?_, rfl, fun js hjs => ?_⟩
  · rw [List.cons_append, scan]
    simp [hnot, htidy]
  · rw [List.cons_append, traces, Trace.remarks_append]
    exact ⟨by simp [trace, hnot, htidy], hjs⟩

theorem scan_escape (hc : isLineTerminator c = false) (r : Text) :
    scan ('\\' :: c :: r) = escape ⟨some c⟩ :: scan r := by
  rw [scan]
  simp [RegexEscape.scan_cons hc, isLineTerminator, RegexEscape.text]

theorem fills_escape (hc : isEscapable c) (hclass : c ∉ RegexEscape.classLetters)
    (htidy : isUnsafeChar c = false ∧ isLineTerminator c = false) (slot : ClassSlot) :
    Fills slot ['\\', c] [escape ⟨some c⟩] (behindChar slot) := by
  have hkind : RegexEscape.isClass ⟨some c⟩ = false := by
    simpa [RegexEscape.isClass] using hclass
  refine ⟨scan_escape htidy.2, rfl, fun js hjs => ?_⟩
  rw [List.cons_append, traces, Trace.remarks_append]
  refine ⟨?_, ?_⟩
  · simp [trace, hkind, RegexEscape.remarks_trace_of_isEscapable hc htidy.1]
  · simpa [after, hkind, behindChar] using hjs

theorem fills_classEscape (hc : c ∈ RegexEscape.classLetters) (hslot : slot ≠ .range) :
    Fills slot ['\\', c] [escape ⟨some c⟩] .settled := by
  have hletters : RegexEscape.classLetters.all fun c =>
      isEscapable c && !isUnsafeChar c && !isLineTerminator c := by
    decide +kernel
  obtain ⟨⟨hescapable, hsafe⟩, hline⟩ : (isEscapable c ∧ isUnsafeChar c = false) ∧
      isLineTerminator c = false := by simpa using List.all_eq_true.mp hletters c hc
  have hkind : RegexEscape.isClass ⟨some c⟩ := by simpa [RegexEscape.isClass] using hc
  refine ⟨scan_escape hline, rfl, fun js hjs => ?_⟩
  rw [List.cons_append, traces, Trace.remarks_append]
  refine ⟨?_, ?_⟩
  · simp [trace, hslot, RegexEscape.remarks_trace_of_isEscapable hescapable hsafe]
  · simpa [after, hkind] using hjs

theorem fills_hyphen : Fills .literal ['-'] [hyphen] .range := by
  refine ⟨fun r => ?_, rfl, fun js hjs => ?_⟩
  · rw [List.cons_append, scan]
    simp [isLineTerminator]
  · rw [List.cons_append, traces, Trace.remarks_append]
    exact ⟨by simp [trace], hjs⟩

end ClassItem

open ClassItem (Fills behindChar)

theorem IsClassAtom.exists_fills {a : Text} (h : IsClassAtom a) (ht : IsTidy a) :
    ∃ i, ∀ slot, Fills slot a [i] (behindChar slot) := by
  cases h with
  | char hc => exact ⟨_, ClassItem.fills_char hc (isTidy_cons.mp ht).1⟩
  | escape hc hclass =>
    obtain ⟨-, ht⟩ := isTidy_cons.mp ht
    exact ⟨_, ClassItem.fills_escape hc hclass (isTidy_cons.mp ht).1⟩

theorem IsClassItem.exists_fills {a : Text} (h : IsClassItem a) (ht : IsTidy a) {slot : ClassSlot}
    (hslot : slot ≠ .range) : ∃ is slot', Fills slot a is slot' ∧ slot' ≠ .range := by
  cases h with
  | single ha =>
    obtain ⟨i, hi⟩ := ha.exists_fills ht
    exact ⟨[i], .literal, by simpa [behindChar, hslot] using hi slot, by decide⟩
  | @range a z ha hz =>
    obtain ⟨hta, htz⟩ := isTidy_append.mp ht
    obtain ⟨i, hi⟩ := ha.exists_fills hta
    obtain ⟨j, hj⟩ := hz.exists_fills (isTidy_cons.mp htz).2
    have hstart : Fills slot a [i] .literal := by simpa [behindChar, hslot] using hi slot
    exact ⟨_, .settled, hstart.append (ClassItem.fills_hyphen.append (hj .range)), by decide⟩
  | classEscape hc => exact ⟨_, .settled, ClassItem.fills_classEscape hc hslot, by decide⟩

/-- An item starts with no character that means something at the start of a class. -/
theorem IsClassItem.exists_cons {a : Text} (h : IsClassItem a) :
    ∃ c w, a = c :: w ∧ c ≠ '^' := by
  have hatom : ∀ {a}, IsClassAtom a → ∃ c w, a = c :: w ∧ c ≠ '^' := by
    intro a ha
    cases ha with
    | char hc =>
      refine ⟨_, [], rfl, ?_⟩
      rintro rfl
      exact absurd hc (by decide)
    | escape _ _ => exact ⟨_, _, rfl, by decide⟩
  cases h with
  | single ha => exact hatom ha
  | range ha _ =>
    obtain ⟨c, w, rfl, hc⟩ := hatom ha
    exact ⟨c, _, rfl, hc⟩
  | classEscape _ => exact ⟨_, _, rfl, by decide⟩

theorem exists_fills_flatten {items : List Text} (h : ∀ a ∈ items, IsClassItem a)
    (ht : IsTidy items.flatten) {slot : ClassSlot} (hslot : slot ≠ .range) :
    ∃ is slot', Fills slot items.flatten is slot' ∧ slot' ≠ .range := by
  induction items generalizing slot with
  | nil => exact ⟨[], slot, .nil slot, hslot⟩
  | cons a items ih =>
    obtain ⟨ha, hitems⟩ := List.forall_mem_cons.mp h
    rw [List.flatten_cons] at ht
    obtain ⟨hta, ht⟩ := isTidy_append.mp ht
    obtain ⟨is, slot', hfills, hslot'⟩ := ha.exists_fills hta hslot
    obtain ⟨is', slot'', hfills', hslot''⟩ := ih hitems ht hslot'
    exact ⟨is ++ is', slot'', hfills.append hfills', hslot''⟩

/-- What a class has between its brackets, and that nothing is said of it. -/
theorem exists_items_classBody {hyphen : Bool} {items : List Text} (hne : items ≠ [])
    (hitems : ∀ a ∈ items, IsClassItem a)
    (ht : IsTidy ((if hyphen then ['-'] else []) ++ items.flatten)) :
    ∃ is : List ClassItem, is ≠ [] ∧
      is.flatMap ClassItem.text = (if hyphen then ['-'] else []) ++ items.flatten ∧
      (∀ r, ClassItem.scan ((if hyphen then ['-'] else []) ++ items.flatten ++ ']' :: r) = is) ∧
      (ClassItem.traces true .start is).Remarks fun _ => False := by
  have hstop : ∀ r, ClassItem.scan (']' :: r) = [] := fun r => by simp [ClassItem.scan]
  have hend : ∀ slot, slot ≠ .range →
      (ClassItem.traces true slot []).Remarks fun _ => False := by
    intro slot hslot
    simp [ClassItem.traces, hslot]
  have hfull : items.flatten ≠ [] := by
    obtain ⟨a, items', rfl⟩ := List.exists_cons_of_ne_nil hne
    obtain ⟨c, w, rfl, -⟩ := (hitems a List.mem_cons_self).exists_cons
    simp
  have hfills : ∀ slot : ClassSlot, slot ≠ .range → IsTidy items.flatten →
      ∃ is : List ClassItem, is ≠ [] ∧ is.flatMap ClassItem.text = items.flatten ∧
        (∀ r, ClassItem.scan (items.flatten ++ ']' :: r) = is) ∧
        (ClassItem.traces true slot is).Remarks fun _ => False := by
    intro slot hslot ht
    obtain ⟨is, slot', hfills, hslot'⟩ := exists_fills_flatten hitems ht hslot
    refine ⟨is, ?_, hfills.text, fun r => ?_, ?_⟩
    · rintro rfl
      exact hfull hfills.text.symm
    · simpa [hstop] using hfills.scan (']' :: r)
    · simpa using hfills.silent [] (hend slot' hslot')
  cases hyphen with
  | false => exact hfills .start (by decide) ht
  | true =>
    obtain ⟨is, hne, htext, hscan, hsilent⟩ := hfills .literal (by decide) (isTidy_cons.mp ht).2
    refine ⟨.hyphen :: is, List.cons_ne_nil _ is, ?_, fun r => ?_, ?_⟩
    · rw [List.flatMap_cons, htext]
      rfl
    · rw [← hscan r]
      simp [ClassItem.scan, isLineTerminator]
    · have hlast : is.isEmpty = false := by simpa using hne
      rw [ClassItem.traces, hlast, Trace.remarks_append]
      exact ⟨by simp [ClassItem.trace], hsilent⟩

/-- A derived class is read as one, and nothing is said of it. -/
theorem exists_scan_classBody {negated hyphen : Bool} {items : List Text} (hne : items ≠ [])
    (hitems : ∀ a ∈ items, IsClassItem a) (ht : IsTidy (classBody negated hyphen items)) :
    ∃ k : CharacterClass, k.text = '[' :: (classBody negated hyphen items ++ [']']) ∧
      (∀ r, CharacterClass.scan (classBody negated hyphen items ++ [']'] ++ r) = k) ∧
      k.trace.Remarks fun _ => False := by
  obtain ⟨is, hne', htext, hscan, hsilent⟩ :=
    exists_items_classBody hne hitems (isTidy_append.mp ht).2
  refine ⟨⟨negated, is, true⟩, ?_, fun r => ?_, ?_⟩
  · simp [CharacterClass.text_eq, htext, classBody]
  · have hparts : CharacterClass.Parts (classBody negated hyphen items ++ [']'] ++ r) negated is
        (']' :: r) := by
      refine ⟨by simp [htext, classBody], ?_, by rw [htext, hscan]⟩
      cases negated with
      | true => rfl
      | false =>
        cases hyphen with
        | true => rfl
        | false =>
          obtain ⟨a, items, rfl⟩ := List.exists_cons_of_ne_nil hne
          obtain ⟨c, w, rfl, hc⟩ := (hitems a List.mem_cons_self).exists_cons
          simp [classBody, CharacterClass.caret, hc]
    exact hparts.scan_eq
  · have hempty : is.isEmpty = false := by simpa using hne'
    rw [CharacterClass.trace, Trace.remarks_append]
    refine ⟨?_, hsilent⟩
    cases negated <;> simp [CharacterClass.opening, hempty]

end EcmaLex
