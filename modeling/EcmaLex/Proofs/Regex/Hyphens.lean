import EcmaLex.Primitives.Standard
import EcmaLex.Proofs.Regex.Found

/-!
# Hyphens in classes

From the left, the items of a class are ranges and single items. A hyphen between the ends of a
range is never reported, and neither is one that starts the class, unless the closing bracket
follows it. A hyphen behind a range or a class escape is reported, whatever follows it, and so is
one that a range needs but no end follows.
-/

namespace EcmaLex

open Trace (onlyIf noteAt noteHere)

def ClassItem.isClass : ClassItem → Bool
  | escape e => e.isClass
  | _ => false

/-- A single item of a class, or a range from one item to another. -/
inductive ClassPart where
  | single (i : ClassItem)
  | range (low high : ClassItem)
deriving DecidableEq, Repr

namespace ClassPart

def items : ClassPart → List ClassItem
  | single i => [i]
  | range low high => [low, .hyphen, high]

def text (p : ClassPart) : Text := p.items.flatMap ClassItem.text

def isComplete : ClassPart → Bool
  | single i => i.isClass
  | range _ _ => true

def split : List ClassItem → List ClassPart
  | [] => []
  | i :: .hyphen :: j :: items =>
    if i.isClass || j.isClass then single i :: split (.hyphen :: j :: items)
    else range i j :: split items
  | i :: items => single i :: split items

/-- Where a hyphen is reported that the part at place `n` starts with. One that stands right before
the bracket, or behind a character and before a class escape, is reported at what follows it. -/
def hyphenSpot (closed : Bool) (n : Nat) (before after : Option ClassPart) : ClassPart → List Nat
  | single .hyphen =>
    if after.isNone && closed then [n + 1]
    else if before.any isComplete then [n]
    else if before.isSome && after.isSome then [n + 1]
    else []
  | range .hyphen _ => if before.any isComplete then [n] else []
  | _ => []

def hyphenSpots (closed : Bool) (n : Nat) (before : Option ClassPart) : List ClassPart → List Nat
  | [] => []
  | p :: parts =>
    p.hyphenSpot closed n before parts.head? ++
      hyphenSpots closed (n + p.text.length) (some p) parts

@[simp] theorem text_single (i : ClassItem) : (single i).text = i.text := by simp [text, items]

@[simp] theorem text_range (low high : ClassItem) :
    (range low high).text = low.text ++ '-' :: high.text := by
  simp [text, items, ClassItem.text]

theorem flatMap_split (items : List ClassItem) :
    (split items).flatMap ClassPart.items = items := by
  fun_induction split items with
  | case1 => rfl
  | case2 i j items hclass ih => rw [List.flatMap_cons, ih]; rfl
  | case3 i j items hclass ih => rw [List.flatMap_cons, ih]; rfl
  | case4 i items hrange ih => rw [List.flatMap_cons, ih]; rfl

/-- A range has ends that are no classes. -/
theorem isClass_of_range_mem_split {items : List ClassItem} {low high : ClassItem}
    (h : range low high ∈ split items) : low.isClass = false ∧ high.isClass = false := by
  fun_induction split items with
  | case1 => cases h
  | case2 i j items hclass ih => exact ih (by simpa using h)
  | case3 i j items hclass ih =>
    rcases List.mem_cons.mp h with heq | h
    · obtain ⟨rfl, rfl⟩ := range.inj heq
      simpa using hclass
    · exact ih h
  | case4 i items hrange ih => exact ih (by simpa using h)

end ClassPart

/-- The hyphen behind the range is reported, and the last one where the bracket stands. -/
example : ClassPart.split (ClassItem.scan "-a-z-0-".toList) =
      [.single .hyphen, .range (.char 'a') (.char 'z'), .single .hyphen, .single (.char '0'),
        .single .hyphen] ∧
    ClassPart.hyphenSpots true 2 none (ClassPart.split (ClassItem.scan "-a-z-0-".toList)) =
      [6, 9] := by decide +kernel

def CharacterClass.hyphenSpots (n : Nat) (k : CharacterClass) : List Nat :=
  ClassPart.hyphenSpots k.closed (n + ('[' :: caret k.negated).length) none
    (ClassPart.split k.items)

def RegexElement.hyphenSpots (n : Nat) : RegexElement → List Nat
  | charClass k => k.hyphenSpots n
  | _ => []

def RegexTerm.hyphenSpots (n : Nat) : List RegexTerm → List Nat
  | [] => []
  | m :: terms => m.element.hyphenSpots n ++ hyphenSpots (n + m.text.length) terms

namespace ClassItem

variable {o : Options} {slot : ClassSlot} {closed last : Bool} {n : Nat} {i j : ClassItem}
  {items : List ClassItem}

theorem spots_trace_hyphen : (trace slot last .hyphen).spots o (.unescaped '-') n =
    if slot = .settled && !last then [n] else [] := by
  rw [trace, Trace.spots_read (by decide), Trace.spots_onlyIf, Trace.spots_noteAt, if_pos rfl]
  rfl

/-- An item other than a hyphen is reported only if it is a class escape that would end a range. -/
theorem spots_trace (hi : i ≠ .hyphen) : (i.trace slot last).spots o (.unescaped '-') n =
    if i.isClass && slot = .range then [n] else [] := by
  cases i with
  | hyphen => exact absurd rfl hi
  | escape e =>
    have hescape : ∀ n, e.trace.spots o (.unescaped '-') n = [] := fun n =>
      Trace.spots_eq_nil (by decide) (e.escaped_trace '-')
    rw [trace, Trace.spots_append, hescape, Trace.spots_onlyIf, Trace.spots_noteAt, if_pos rfl,
      RegexEscape.text_trace, Place.offset, Nat.add_sub_cancel]
    rfl
  | char c => exact Trace.spots_eq_nil (by decide) (escaped_trace_char (by decide) slot last c)

theorem spots_traces_nil : (traces closed slot []).spots o (.unescaped '-') n =
    if closed && slot = .range then [n] else [] := by
  cases closed with
  | false => rfl
  | true =>
    rw [traces, Trace.onlyIf_true, Trace.spots_read (by decide), Trace.spots_onlyIf,
      Trace.spots_noteAt, if_pos rfl]
    rfl

theorem spots_traces_cons : (traces closed slot (i :: items)).spots o (.unescaped '-') n =
    (i.trace slot (items.isEmpty && closed)).spots o (.unescaped '-') n ++
      (traces closed (i.after slot (items.isEmpty && closed)) items).spots o (.unescaped '-')
        (n + i.text.length) := by
  rw [traces, Trace.spots_append, text_trace]

theorem after_of_isClass (hi : i.isClass) : i.after slot last = .settled := by
  cases i with
  | escape e =>
    have he : e.isClass = true := hi
    simp [after, he]
  | _ => cases hi

theorem after_of_not_isClass (hi : i.isClass = false) (hne : i ≠ .hyphen) (hslot : slot ≠ .range) :
    i.after slot last = .literal := by
  cases i with
  | hyphen => exact absurd rfl hne
  | escape e =>
    have he : e.isClass = false := hi
    simp [after, he, hslot]
  | char c => simp [after, hslot]

theorem ne_hyphen_of_isClass (hi : i.isClass) : i ≠ .hyphen := by
  rintro rfl
  cases hi

/-- A range that is left open is reported where no end of it follows. -/
theorem spots_traces_range (hitems : ∀ j ∈ items.head?, j.isClass) :
    (traces closed .range items).spots o (.unescaped '-') n =
      (if items.isEmpty && !closed then [] else [n]) ++
        (traces closed .literal items).spots o (.unescaped '-') n := by
  cases items with
  | nil =>
    rw [spots_traces_nil, spots_traces_nil]
    cases closed <;> rfl
  | cons j items =>
    have hj : j.isClass := hitems j rfl
    rw [spots_traces_cons, spots_traces_cons, after_of_isClass hj, after_of_isClass hj,
      spots_trace (ne_hyphen_of_isClass hj), spots_trace (ne_hyphen_of_isClass hj), hj]
    rfl

end ClassItem

namespace ClassPart

open ClassItem

inductive SlotBehind : Option ClassPart → ClassSlot → List ClassItem → Prop where
  | start {items : List ClassItem} : SlotBehind none .start items
  | complete {p : ClassPart} {items : List ClassItem} (hp : p.isComplete) :
      SlotBehind (some p) .settled items
  /-- No range goes on from the part, since it would be a part of that range. -/
  | literal {p : ClassPart} {items : List ClassItem} (hp : p.isComplete = false)
      (hrange : ∀ j more, items = .hyphen :: j :: more → j.isClass) :
      SlotBehind (some p) .literal items

variable {o : Options} {before : Option ClassPart} {slot : ClassSlot} {closed : Bool} {n : Nat}
  {i j : ClassItem} {items : List ClassItem}

theorem SlotBehind.ne_range (h : SlotBehind before slot items) : slot ≠ .range := by
  cases h <;> simp

theorem isNone_head?_split (items : List ClassItem) :
    (split items).head?.isNone = items.isEmpty := by
  unfold split
  split
  · rfl
  · split <;> rfl
  · rfl

/-- A hyphen that begins a part by itself is told by what stands around it. -/
theorem spots_hyphen (h : SlotBehind before slot (.hyphen :: items)) :
    (traces closed slot (.hyphen :: items)).spots o (.unescaped '-') n =
      (single .hyphen).hyphenSpot closed n before (split items).head? ++
        (traces closed .literal items).spots o (.unescaped '-') (n + 1) := by
  have hnone := isNone_head?_split items
  have hsome : (split items).head?.isSome = !items.isEmpty := by
    rw [← hnone]
    cases (split items).head? <;> rfl
  rw [spots_traces_cons, spots_trace_hyphen, hyphenSpot, hnone, hsome]
  cases hlast : items.isEmpty && closed with
  | true =>
    have hafter : ClassItem.after slot true .hyphen = .range := by cases h <;> rfl
    obtain ⟨hempty, rfl⟩ : items.isEmpty = true ∧ closed = true := by simpa using hlast
    obtain rfl : items = [] := List.isEmpty_iff.mp hempty
    rw [hafter, spots_traces_range (by simp)]
    simp [ClassItem.text]
  | false =>
    cases h with
    | start => simp [ClassItem.after, ClassItem.text]
    | complete hp => simp [ClassItem.after, ClassItem.text, hp]
    | literal hp hrange =>
      have hitems : ∀ j ∈ items.head?, j.isClass := by
        intro j hj
        obtain ⟨more, rfl⟩ := List.head?_eq_some_iff.mp hj
        exact hrange j more rfl
      have hafter : ClassItem.after .literal false .hyphen = .range := rfl
      rw [hafter, spots_traces_range hitems]
      cases hempty : items.isEmpty <;> simp_all [ClassItem.text]

/-- A single item is passed over with what is reported of a hyphen. -/
theorem spots_single (closed : Bool) (o : Options) (n : Nat)
    (h : SlotBehind before slot (i :: items))
    (hi : i.isClass ∨ ∀ j more, items = .hyphen :: j :: more → j.isClass) :
    ∃ slot', SlotBehind (some (single i)) slot' items ∧
      (traces closed slot (i :: items)).spots o (.unescaped '-') n =
        (single i).hyphenSpot closed n before (split items).head? ++
          (traces closed slot' items).spots o (.unescaped '-') (n + i.text.length) := by
  by_cases hhyphen : i = .hyphen
  · subst hhyphen
    have hrange := hi.resolve_left (by simp [ClassItem.isClass])
    exact ⟨.literal, .literal rfl hrange, spots_hyphen h⟩
  · have hspot : (single i).hyphenSpot closed n before (split items).head? = [] := by
      cases i with
      | hyphen => exact absurd rfl hhyphen
      | _ => rfl
    have hread : (i.trace slot (items.isEmpty && closed)).spots o (.unescaped '-') n = [] := by
      rw [spots_trace hhyphen, if_neg (by simp [h.ne_range])]
    rw [spots_traces_cons, hspot, hread]
    cases hclass : i.isClass with
    | true => exact ⟨.settled, .complete hclass, by rw [after_of_isClass hclass]⟩
    | false =>
      refine ⟨.literal, .literal hclass (hi.resolve_left (by simp [hclass])), ?_⟩
      rw [after_of_not_isClass hclass hhyphen h.ne_range]

/-- A range is passed over with what is reported of a hyphen that it starts with. -/
theorem spots_range (h : SlotBehind before slot (i :: .hyphen :: j :: items))
    (hi : i.isClass = false) (hj : j.isClass = false) :
    (traces closed slot (i :: .hyphen :: j :: items)).spots o (.unescaped '-') n =
      (range i j).hyphenSpot closed n before (split items).head? ++
        (traces closed .settled items).spots o (.unescaped '-') (n + (range i j).text.length) := by
  -- Only the first of the three items may be reported: a range behind it is complete.
  have hlow : (i.trace slot false).spots o (.unescaped '-') n =
      (range i j).hyphenSpot closed n before (split items).head? ∧
        i.after slot false = .literal := by
    by_cases hhyphen : i = .hyphen
    · subst hhyphen
      rw [spots_trace_hyphen]
      cases h with
      | start => exact ⟨rfl, rfl⟩
      | complete hp => exact ⟨by simp [hyphenSpot, hp], rfl⟩
      | literal hp hrange => cases hrange .hyphen _ rfl
    · refine ⟨?_, after_of_not_isClass hi hhyphen h.ne_range⟩
      rw [spots_trace hhyphen, hi]
      cases i with
      | hyphen => exact absurd rfl hhyphen
      | _ => rfl
  have hhigh : ∀ last m, (j.trace .range last).spots o (.unescaped '-') m = [] := by
    intro last m
    by_cases hhyphen : j = .hyphen
    · subst hhyphen
      rw [spots_trace_hyphen]
      rfl
    · rw [spots_trace hhyphen, hj]
      rfl
  have hsettled : ∀ last, j.after .range last = .settled := by
    intro last
    cases j <;> simp [ClassItem.after]
  have hempty : ∀ x : ClassItem, ∀ more, ((x :: more).isEmpty && closed) = false := fun _ _ => rfl
  have hafter : ClassItem.after .literal false .hyphen = .range := rfl
  rw [spots_traces_cons, hempty, hlow.1, hlow.2, spots_traces_cons, hempty, spots_trace_hyphen,
    hafter, spots_traces_cons, hhigh, hsettled]
  have hlength : n + i.text.length + ClassItem.hyphen.text.length + j.text.length =
      n + (range i j).text.length := by
    simp only [ClassItem.text, text_range, List.length_append, List.length_cons, List.length_nil]
    omega
  rw [hlength]
  rfl

/-- The reports of a class are those of its parts. -/
theorem spots_traces (h : SlotBehind before slot items) :
    (traces closed slot items).spots o (.unescaped '-') n =
      hyphenSpots closed n before (split items) := by
  fun_induction split items generalizing before slot n with
  | case1 =>
    rw [spots_traces_nil, if_neg (by simp [h.ne_range])]
    rfl
  | case2 i j items hclass ih =>
    have hi : i.isClass ∨ ∀ j' more, ClassItem.hyphen :: j :: items = .hyphen :: j' :: more →
        j'.isClass := by
      refine (Bool.or_eq_true_iff.mp hclass).imp_right fun hj j' more heq => ?_
      obtain ⟨rfl, -⟩ : j = j' ∧ items = more := by simpa using heq
      exact hj
    obtain ⟨slot', hslot, hspots⟩ := spots_single closed o n h hi
    rw [hspots, ih hslot, hyphenSpots, text_single]
  | case3 i j items hclass ih =>
    obtain ⟨hi, hj⟩ := Bool.or_eq_false_iff.mp (Bool.not_eq_true _ ▸ hclass)
    rw [spots_range h hi hj, ih (.complete (p := range i j) rfl), hyphenSpots]
  | case4 i items hrange ih =>
    have hi : ∀ j more, items = .hyphen :: j :: more → j.isClass :=
      fun j more heq => absurd heq (hrange j more)
    obtain ⟨slot', hslot, hspots⟩ := spots_single closed o n h (.inr hi)
    rw [hspots, ih hslot, hyphenSpots, text_single]

end ClassPart

variable {o : Options} {n : Nat}

theorem CharacterClass.spots_hyphen (k : CharacterClass) :
    k.trace.spots o (.unescaped '-') n = k.hyphenSpots n := by
  have hopening : k.opening.text = '[' :: caret k.negated ∧
      k.opening.spots o (.unescaped '-') n = [] := by
    unfold opening caret
    cases k.negated with
    | true => exact ⟨by simp, Trace.spots_eq_nil (by decide) (by simp)⟩
    | false => exact ⟨by simp, Trace.spots_eq_nil (by decide) (by simp)⟩
  rw [trace, Trace.spots_append, hopening.2, List.nil_append, hopening.1, hyphenSpots,
    ClassPart.spots_traces .start]

/-- Only classes have hyphens that should have been escaped. -/
theorem RegexElement.spots_hyphen {e : RegexElement} (he : ∀ c, e = .stray c → c ∈ strays)
    (depth : Nat) (behindAtom : Bool) :
    (e.trace depth behindAtom).spots o (.unescaped '-') n = e.hyphenSpots n := by
  have hnone : (e.trace depth behindAtom).Escaped '-' →
      (e.trace depth behindAtom).spots o (.unescaped '-') n = [] := Trace.spots_eq_nil (by decide)
  cases e with
  | charClass k => exact k.spots_hyphen
  | escape e => exact hnone (e.escaped_trace '-')
  | opening kind => exact hnone (by cases kind <;> simp [trace, GroupKind.trace])
  | stray c =>
    have hne : c ≠ '-' := by
      rintro rfl
      exact absurd (he '-' rfl) (by decide)
    exact hnone (by simp [trace, hne])
  | _ => exact hnone (by simp [trace])

theorem RegexTerm.spots_hyphen {terms : List RegexTerm}
    (hterms : ∀ m ∈ terms, ∀ c, m.element = .stray c → c ∈ RegexElement.strays) (depth : Nat)
    (behindAtom : Bool) :
    (traces depth behindAtom terms).spots o (.unescaped '-') n = hyphenSpots n terms := by
  induction terms generalizing depth behindAtom n with
  | nil => rfl
  | cons m terms ih =>
    obtain ⟨hm, hterms⟩ := List.forall_mem_cons.mp hterms
    rw [spots_traces (by decide) (Quantifier.escaped_trace '-'), RegexElement.spots_hyphen hm,
      ih hterms, hyphenSpots]

namespace Lexer

/-- A call that yields a regular expression reports a hyphen as unescaped exactly where the parts of
a class tell: a hyphen behind a range or a class escape, and a range of which an end is missing. -/
theorem unescaped_hyphens_reported [UnicodePrimitives] (t : Text) (o : Options) (w : Bool)
    (n : Nat) {k : Token}
    {l' : Lexer} (h : ((start t o w).calls n).2.next = some (k, l')) (hk : k.kind = .regex) :
    ∃ u pattern, k.HasPattern t u pattern ∧
      l'.spots (.unescaped '-') = ((start t o w).calls n).2.spots (.unescaped '-') ++
        (RegexTerm.hyphenSpots 1 (RegexTerm.scan u)).map k.start.right := by
  obtain ⟨g, u, pattern, hreads, hpattern⟩ := exists_readsRegex_calls t o w n h hk
  have hcode : (Issue.unescaped '-').code ∈ patternCodes := by decide
  have hspots := hreads.spots_eq (Issue.isDistinct_unescaped '-') (by decide)
  rw [Lexeme.spots_regex hcode, RegexTerm.spots_hyphen RegexTerm.mem_strays] at hspots
  exact ⟨u, pattern, hpattern, hspots⟩

/-- Of these classes only the first one is as it should be. -/
theorem unescaped_hyphens_reported_of_classes : ∃ k l',
    ((start "/[-a-z][a-z-0][a-][a-\\d]/".toList {} true).calls 0).2.next = some (k, l') ∧
      k.kind = .regex ∧
      l'.spots (.unescaped '-') = [{ column := 12 }, { column := 18 }, { column := 22 }] ∧
      ∃ u pattern, k.HasPattern "/[-a-z][a-z-0][a-][a-\\d]/".toList u pattern ∧
        l'.spots (.unescaped '-') =
          ((start "/[-a-z][a-z-0][a-][a-\\d]/".toList {} true).calls 0).2.spots (.unescaped '-') ++
            (RegexTerm.hyphenSpots 1 (RegexTerm.scan u)).map k.start.right := by
  have hcall : ((start "/[-a-z][a-z-0][a-][a-\\d]/".toList {} true).calls 0).2.next.any
      fun (k, l') => k.kind = .regex && l'.spots (.unescaped '-') =
        [{ column := 12 }, { column := 18 }, { column := 22 }] := by
    decide +kernel
  obtain ⟨⟨k, l'⟩, h, hfacts⟩ := (Option.any_eq_true _ _).mp hcall
  simp only [Bool.and_eq_true, decide_eq_true_eq] at hfacts
  exact ⟨k, l', h, hfacts.1, hfacts.2, unescaped_hyphens_reported _ _ _ 0 h hfacts.1⟩

/-- The hyphen comes right behind the range, no bracket follows it, and yet it is reported. -/
theorem hyphen_behind_range_reported :
    ∃ k ∈ (start "/[a-z-0]/".toList {} false).tokens.1,
      k.value = .regex "[a-z-0]".toList [] ∧ k.unclosed = false ∧
      ClassPart.split (ClassItem.scan "a-z-0]/".toList) =
        [.range (.char 'a') (.char 'z'), .single .hyphen, .single (.char '0')] ∧
      (start "/[a-z-0]/".toList {} false).tokens.2.spots (.unescaped '-') = [{ column := 6 }] := by
  decide +kernel

end Lexer

end EcmaLex
