import EcmaLex.Primitives.Standard
import EcmaLex.Proofs.Regex.CleanParts

/-!
# Clean patterns

Nothing is reported of a pattern that the grammar derives, unless it has unsafe characters or spaces
in a row, or starts with an equals sign.
-/

namespace EcmaLex

open Quantifier (begins)
open RegexElement (isOrdinary)
open RegexTerm (quantifierText quantifierOf stopsAt remainder course)

def EndsAlternative (r : Text) : Prop := ∃ c ∈ ['|', ')', '/'], r.head? = some c

theorem EndsAlternative.not_begins {r : Text} (h : EndsAlternative r) :
    begins r = false ∧ r.head? ≠ some ' ' := by
  obtain ⟨c, hc, hr⟩ := h
  simp only [List.mem_cons, List.not_mem_nil, or_false] at hc
  rw [begins, hr]
  rcases hc with rfl | rfl | rfl <;> decide

theorem begins_append {p r : Text} (hp : begins p = false) (hr : begins r = false) :
    begins (p ++ r) = false := by
  cases p with
  | nil => exact hr
  | cons c p => exact hp

theorem head?_ne_of_not_begins {r : Text} (hr : begins r = false) : r.head? ≠ some '?' := by
  intro hhead
  rw [begins, hhead] at hr
  exact absurd hr (by decide)

theorem IsQuantifier.exists_cons {q : Text} (h : IsQuantifier q) :
    ∃ c t, q = c :: t ∧ c ≠ ' ' := by
  cases h with
  | mark hc _ =>
    refine ⟨_, _, rfl, ?_⟩
    rintro rfl
    exact absurd hc (by decide)
  | exactly _ _ => exact ⟨_, _, rfl, by decide⟩
  | atLeast _ _ => exact ⟨_, _, rfl, by decide⟩
  | between _ _ _ _ => exact ⟨_, _, rfl, by decide⟩

namespace Derives

/-- What is derived starts neither with a quantifier nor with a slash. -/
theorem not_begins {part : PatternPart} {p : Text} (h : Derives part p) :
    (part = .atom → p ≠ []) ∧ begins p = false ∧ p.head? ≠ some '/' := by
  induction h with
  | single _ ih => exact ⟨nofun, ih.2⟩
  | @either a p _ _ ih _ =>
    refine ⟨nofun, ?_⟩
    cases a with
    | nil => exact ⟨by rfl, by simp⟩
    | cons c a => exact ih.2
  | plain _ ih => exact ⟨nofun, ih.2⟩
  | anchored _ _ => exact ⟨nofun, by rfl, by simp⟩
  | nil => exact ⟨nofun, by rfl, by simp⟩
  | @term a q t _ _ _ ih _ =>
    obtain ⟨c, a, rfl⟩ := List.exists_cons_of_ne_nil (ih.1 rfl)
    exact ⟨nofun, ih.2⟩
  | @char c hc =>
    refine ⟨fun _ => List.cons_ne_nil c [], RegexTerm.not_begins_ordinary hc [], ?_⟩
    simp only [List.head?_cons, ne_eq, Option.some.injEq]
    rintro rfl
    exact absurd hc (by decide)
  | escape _ => exact ⟨fun _ => List.cons_ne_nil _ _, by rfl, by simp⟩
  | group _ _ _ => exact ⟨fun _ => List.cons_ne_nil _ _, by rfl, by simp⟩
  | charClass _ _ => exact ⟨fun _ => List.cons_ne_nil _ _, by rfl, by simp⟩

end Derives

section Atoms

variable [Primitives] {o : Options} {d : Nat} {b : Bool} {c : Char} {w q r : Text}
    {e : RegexElement}

/-- An atom that is one element is passed over with its quantifier, and nothing is said of it. -/
theorem advances_atom (he : RegexElement.scan c (w ++ (q ++ r)) = e) (hw : e.text = c :: w)
    (hatom : e.isAtom) (hsilent : (e.trace d b).Remarks fun _ => False) (hslash : c ≠ '/')
    (ht : IsTidy (c :: (w ++ q))) (hq : q = [] ∨ IsQuantifier q) (hr : begins r = false) :
    Advances o d b (c :: (w ++ q)) r [] (e.nest d) true := by
  have hstop : stopsAt (c :: (w ++ (q ++ r))) = false := by
    simp [stopsAt, hslash, (isTidy_cons.mp ht).1.2]
  have htrace : (e.trace d b).issues o = [] := by
    refine Trace.issues_eq_nil (fun a ha => ?_) hsilent
    rw [RegexElement.text_trace, hw] at ha
    exact (ht a (List.mem_append_left q ha)).1
  rcases hq with rfl | hq
  · have hadvances := RegexTerm.advances_bare (o := o) (d := d) (b := b) hstop he hw (fun _ => hr)
    rw [htrace, hatom] at hadvances
    rwa [List.append_nil]
  · obtain ⟨k, hk, htext, hsilent'⟩ := hq.exists_scan? (head?_ne_of_not_begins hr)
    have hof : quantifierOf e (q ++ r) = some k := by rw [quantifierOf, if_pos hatom, hk]
    have hissues : k.trace.issues o = [] := by
      refine Trace.issues_eq_nil (fun a ha => ?_) hsilent'
      rw [Quantifier.text_trace, htext] at ha
      exact (ht a (List.mem_append_right (c :: w) ha)).1
    have hadvances := RegexTerm.advances_step (o := o) (d := d) (b := b) hstop he hw
      (by rw [hof]; exact htext)
    rw [hof, htrace, hatom, Option.elim_some, hissues] at hadvances
    exact hadvances

theorem advances_ordinary (hc : isOrdinary c) (ht : IsTidy (c :: q)) (hq : q = [] ∨ IsQuantifier q)
    (hr : begins r = false) (hspace : c = ' ' → q = [] → r.head? ≠ some ' ') :
    Advances o d b (c :: q) r [] d true := by
  have hslash : c ≠ '/' := by
    rintro rfl
    exact absurd hc (by decide)
  by_cases hblank : c = ' '
  · subst hblank
    have htake : (q ++ r).takeWhile (· = ' ') = [] := by
      have hhead : (q ++ r).head? ≠ some ' ' := by
        rcases hq with rfl | hq
        · exact hspace rfl rfl
        · obtain ⟨a, t, rfl, ha⟩ := hq.exists_cons
          simpa using ha
      generalize q ++ r = t at hhead
      cases t with
      | nil => rfl
      | cons a t => simpa using hhead
    have he : RegexElement.scan ' ' ([] ++ (q ++ r)) = .spaces 1 := by
      rw [List.nil_append, RegexElement.scan, htake]
      rfl
    exact advances_atom he rfl rfl (by simp [RegexElement.trace]) hslash ht hq hr
  · have he : RegexElement.scan c ([] ++ (q ++ r)) = .char c :=
      RegexElement.scan_ordinary hc hblank _
    have hsafe := (isTidy_cons.mp ht).1.1
    exact advances_atom he rfl rfl (by simp [RegexElement.trace, hsafe]) hslash ht hq hr

theorem advances_escape (hc : isEscapable c) (ht : IsTidy ('\\' :: c :: q))
    (hq : q = [] ∨ IsQuantifier q) (hr : begins r = false) :
    Advances o d b ('\\' :: c :: q) r [] d true := by
  obtain ⟨hsafe, hline⟩ := (isTidy_cons.mp (isTidy_cons.mp ht).2).1
  have he : RegexElement.scan '\\' ([c] ++ (q ++ r)) = .escape ⟨some c⟩ := by
    rw [RegexElement.scan, List.cons_append, RegexEscape.scan_cons hline]
  exact advances_atom he rfl rfl (RegexEscape.remarks_trace_of_isEscapable hc hsafe) (by decide) ht
    hq hr

theorem advances_charClass {negated hyphen : Bool} {items : List Text} (hne : items ≠ [])
    (hitems : ∀ a ∈ items, IsClassItem a)
    (ht : IsTidy ('[' :: (classBody negated hyphen items ++ [']'] ++ q)))
    (hq : q = [] ∨ IsQuantifier q) (hr : begins r = false) :
    Advances o d b ('[' :: (classBody negated hyphen items ++ [']'] ++ q)) r [] d true := by
  have htbody : IsTidy (classBody negated hyphen items) :=
    (isTidy_append.mp (isTidy_append.mp (isTidy_cons.mp ht).2).1).1
  obtain ⟨k, htext, hscan, hsilent⟩ := exists_scan_classBody hne hitems htbody
  have he : RegexElement.scan '[' (classBody negated hyphen items ++ [']'] ++ (q ++ r)) =
      .charClass k := congrArg RegexElement.charClass (hscan (q ++ r))
  exact advances_atom he htext rfl hsilent (by decide) ht hq hr

theorem advances_opening {k : Text} (hk : k = [] ∨ k ∈ GroupKind.marks) (ht : IsTidy ('(' :: k))
    (hr : r.head? ≠ some '?') : Advances o d b ('(' :: k) r [] (d + 1) false := by
  obtain ⟨kind, hkind, htext, hsilent⟩ : ∃ kind, GroupKind.scan (k ++ r) = kind ∧ kind.text = k ∧
      kind.trace.Remarks fun _ => False := by
    rcases hk with rfl | hk
    · exact ⟨_, GroupKind.scan_plain hr, rfl, by simp [GroupKind.trace]⟩
    · exact ⟨_, GroupKind.scan_mark hk r, rfl, by simp [GroupKind.trace]⟩
  have hissues : (RegexElement.trace d b (.opening kind)).issues o = [] := by
    have hsilent' : (RegexElement.trace d b (.opening kind)).Remarks fun _ => False := by
      simpa [RegexElement.trace] using hsilent
    refine Trace.issues_eq_nil (fun a ha => (ht a ?_).1) hsilent'
    rwa [RegexElement.text_trace, RegexElement.text, htext] at ha
  have he : RegexElement.scan '(' (k ++ r) = .opening kind := congrArg RegexElement.opening hkind
  have hw : (RegexElement.opening kind).text = '(' :: k := by rw [RegexElement.text, htext]
  exact (RegexTerm.advances_bare rfl he hw (by simp [RegexElement.isAtom])).cast rfl hissues

/-- A group is opened, and is closed again behind the pattern in it. -/
theorem advances_group {k p : Text} {b' : Bool} (hk : k = [] ∨ k ∈ GroupKind.marks)
    (hp : Advances o (d + 1) false p (')' :: (q ++ r)) [] (d + 1) b') (hbegins : begins p = false)
    (ht : IsTidy ('(' :: (k ++ (p ++ [')'])))) (htq : IsTidy q) (hq : q = [] ∨ IsQuantifier q)
    (hr : begins r = false) :
    Advances o d b ('(' :: (k ++ (p ++ [')'])) ++ q) r [] d true := by
  have hopening : Advances o d b ('(' :: k) (p ++ ')' :: q ++ r) [] (d + 1) false := by
    refine advances_opening hk (isTidy_append (w := '(' :: k).mp ht).1 ?_
    rw [List.append_assoc]
    exact head?_ne_of_not_begins (begins_append hbegins rfl)
  have hclosing : Advances o (d + 1) b' (')' :: q) r [] d true :=
    advances_atom (w := []) (e := .closing) rfl rfl rfl (by simp [RegexElement.trace]) (by decide)
      (isTidy_cons.mpr ⟨by decide, htq⟩) hq hr
  have hclosed : Advances o (d + 1) false (p ++ ')' :: q) r [] d true := hp.append hclosing
  exact (hopening.append hclosed).cast (by simp) rfl

end Atoms

/-- A text of which nothing is said but what is said of its place in a pattern. -/
structure IsFine (p : Text) : Prop where
  tidy : IsTidy p
  spaces : ¬ [' ', ' '] <:+: p

theorem IsFine.of_infix {w p : Text} (h : IsFine p) (hw : w <:+: p) : IsFine w where
  tidy := fun c hc => h.tidy c (hw.subset hc)
  spaces := fun hspaces => h.spaces (hspaces.trans hw)

def PatternPart.Passes [Primitives] (o : Options) (p : Text) : PatternPart → Prop
  | .disjunction | .alternative => ∀ d r, EndsAlternative r →
      ∃ b', Advances o d false p r [] d b'
  | .terms => ∀ d b r, EndsAlternative r → ∃ b', Advances o d b p r [] d b'
  | .atom => ∀ d b q r, (q = [] ∨ IsQuantifier q) → IsTidy q → begins r = false →
      (p = [' '] → q = [] → r.head? ≠ some ' ') → Advances o d b (p ++ q) r [] d true

theorem passes_term [Primitives] {o : Options} {a q t : Text} (ha : PatternPart.Passes o a .atom)
    (hq : q = [] ∨ IsQuantifier q) (ht : PatternPart.Passes o t .terms)
    (hbegins : begins t = false) (hfine : IsFine (a ++ (q ++ t))) :
    PatternPart.Passes o (a ++ (q ++ t)) .terms := by
  intro d b r hr
  obtain ⟨b', hadvances⟩ := ht d true r hr
  have htidy : IsTidy q := (isTidy_append.mp (isTidy_append.mp hfine.tidy).2).1
  have hspace : a = [' '] → q = [] → (t ++ r).head? ≠ some ' ' := by
    rintro rfl rfl hhead
    cases t with
    | nil => exact hr.not_begins.2 hhead
    | cons c t =>
      obtain rfl : c = ' ' := by simpa using hhead
      exact hfine.spaces ⟨[], t, rfl⟩
  have hatom := ha d b q (t ++ r) hq htidy (begins_append hbegins hr.not_begins.1) hspace
  exact ⟨b', (hatom.append hadvances).cast (List.append_assoc a q t) rfl⟩

/-- What the grammar derives is passed over, and nothing is said of it. -/
theorem Derives.passes [Primitives] {part : PatternPart} {p : Text} (h : Derives part p)
    (hfine : IsFine p)
    (o : Options) : part.Passes o p := by
  induction h with
  | single _ ih => exact ih hfine
  | @either a p _ _ iha ihp =>
    intro d r hr
    obtain ⟨b₁, ha⟩ := iha (hfine.of_infix (List.infix_append [] a _)) d ('|' :: (p ++ r))
      ⟨'|', by simp, rfl⟩
    obtain ⟨b₂, hp⟩ := ihp (hfine.of_infix ⟨a ++ ['|'], [], by simp⟩) d r hr
    have hbar : Advances o d b₁ ['|'] (p ++ r) [] d false :=
      RegexTerm.advances_bare (w := []) (e := .bar) rfl rfl rfl nofun
    exact ⟨b₂, ha.append (hbar.append hp)⟩
  | plain _ ih => exact fun d r hr => ih hfine d false r hr
  | @anchored t _ ih =>
    intro d r hr
    obtain ⟨b', ht⟩ := ih (hfine.of_infix ⟨['^'], [], by simp⟩) d false r hr
    have hcaret : Advances o d false ['^'] (t ++ r) [] d false :=
      RegexTerm.advances_bare (w := []) (e := .caret) rfl rfl rfl nofun
    exact ⟨b', hcaret.append ht⟩
  | nil => exact fun d b r _ => ⟨b, .nil o d b r⟩
  | @term a q t _ hq ht iha iht =>
    exact passes_term (iha (hfine.of_infix (List.infix_append [] a _))) hq
      (iht (hfine.of_infix ⟨a ++ q, [], by simp⟩)) ht.not_begins.2.1 hfine
  | @char c hc =>
    intro d b q r hq ht hr hspace
    refine advances_ordinary hc (isTidy_append.mpr ⟨hfine.tidy, ht⟩) hq hr ?_
    rintro rfl
    exact hspace rfl
  | escape hc =>
    intro d b q r hq ht hr _
    exact advances_escape hc (isTidy_append.mpr ⟨hfine.tidy, ht⟩) hq hr
  | @group k p hk hp ih =>
    intro d b q r hq ht hr _
    -- One more group is open inside of the parentheses.
    obtain ⟨b', hadvances⟩ := ih (hfine.of_infix ⟨'(' :: k, [')'], by simp⟩) (d + 1)
      (')' :: (q ++ r)) ⟨')', by simp, rfl⟩
    exact advances_group hk hadvances hp.not_begins.2.1 hfine.tidy ht hq hr
  | charClass hne hitems =>
    intro d b q r hq ht hr _
    exact advances_charClass hne hitems (isTidy_append.mpr ⟨hfine.tidy, ht⟩) hq hr

namespace RegexFlag

theorem ofChar?_letter (f : RegexFlag) : ofChar? f.letter = some f := by cases f <;> rfl

theorem isWordPart_letter [UnicodePrimitives] (f : RegexFlag) : isWordPart f.letter := by
  have hletter : f.letter.toNat < 128 ∧ f.letter.isAlphanum := by cases f <;> decide
  simp [isWordPart_ascii hletter.1, hletter.2]

theorem isSafe_letter (f : RegexFlag) : isUnsafeChar f.letter = false := by cases f <;> rfl

theorem eq_of_letter {f g : RegexFlag} (h : f.letter = g.letter) : f = g :=
  Option.some.inj ((ofChar?_letter f).symm.trans ((congrArg ofChar? h).trans (ofChar?_letter g)))

/-- Nothing is said of flags that are all different. -/
theorem remarks_traces {seen fs : List RegexFlag} (hfs : fs.Nodup) (hseen : ∀ f ∈ fs, f ∉ seen) :
    (traces seen (fs.map letter)).Remarks fun _ => False := by
  induction fs generalizing seen with
  | nil => simp [traces]
  | cons f fs ih =>
    obtain ⟨hf, hfs⟩ := List.nodup_cons.mp hfs
    obtain ⟨hnew, hseen⟩ := List.forall_mem_cons.mp hseen
    have hmore : ∀ g ∈ fs, g ∉ f :: seen := by
      intro g hg hmem
      rcases List.mem_cons.mp hmem with rfl | hmem
      · exact hf hg
      · exact hseen g hg hmem
    simpa [traces, ofChar?_letter, Option.filter, hnew] using ih hfs hmore

theorem ofLetters_map (fs : List RegexFlag) :
    ofLetters (fs.map letter) = all.filter fun f => decide (f ∈ fs) := by
  refine List.filter_congr fun f _ => ?_
  rw [Bool.eq_iff_iff, List.contains_iff_mem, List.mem_map, decide_eq_true_iff]
  constructor
  · rintro ⟨g, hg, hletter⟩
    exact eq_of_letter hletter ▸ hg
  · exact fun hf => ⟨f, hf, rfl⟩

end RegexFlag

structure FollowsFlags [Primitives] (v : Text) : Prop where
  not_word : ∀ c ∈ v.head?, isWordPart c = false
  not_slash : v.head? ≠ some '/'
  not_star : v.head? ≠ some '*'

section Literals

variable [UnicodePrimitives] {p v : Text} {fs : List RegexFlag}

theorem takeWhile_letters (hv : FollowsFlags v) :
    (fs.map RegexFlag.letter ++ v).takeWhile isWordPart = fs.map RegexFlag.letter := by
  have hstop : v.takeWhile isWordPart = [] := by
    cases v with
    | nil => rfl
    | cons c v => simp [hv.not_word c rfl]
  rw [List.takeWhile_append_of_pos, hstop, List.append_nil]
  intro c hc
  obtain ⟨f, -, rfl⟩ := List.mem_map.mp hc
  exact f.isWordPart_letter

theorem Lexeme.issues_patternEnd (hfs : fs.Nodup) (hv : FollowsFlags v) (o : Options) :
    (patternEnd 0 ('/' :: (fs.map RegexFlag.letter ++ v))).issues o = [] := by
  have htext : (patternEnd 0 ('/' :: (fs.map RegexFlag.letter ++ v))).text =
      '/' :: fs.map RegexFlag.letter := by
    simp [patternEnd, takeWhile_letters hv, RegexFlag.text_traces]
  have hsilent := RegexFlag.remarks_traces hfs (fun f _ => List.not_mem_nil (a := f))
  refine Trace.issues_eq_nil ?_ ?_
  · rw [htext]
    refine List.forall_mem_cons.mpr ⟨by decide, fun c hc => ?_⟩
    obtain ⟨f, -, rfl⟩ := List.mem_map.mp hc
    exact f.isSafe_letter
  · simp [patternEnd, takeWhile_letters hv, hsilent, hv.not_slash, hv.not_star]

/-- A clean pattern is followed to its end, and nothing is said of it. -/
theorem IsCleanPattern.issues_regex (hp : IsCleanPattern p) (hfs : fs.Nodup) (hv : FollowsFlags v)
    (o : Options) :
    remainder (p ++ '/' :: (fs.map RegexFlag.letter ++ v)) =
        '/' :: (fs.map RegexFlag.letter ++ v) ∧
      (Lexeme.regex (p ++ '/' :: (fs.map RegexFlag.letter ++ v))).trace.issues o = [] := by
  obtain ⟨u, hu⟩ : ∃ u, '/' :: (fs.map RegexFlag.letter ++ v) = u := ⟨_, rfl⟩
  have hstop : stopsAt u := hu ▸ rfl
  have htidy : IsTidy p := fun c hc => ⟨hp.safe c hc, hp.inline c hc⟩
  have hpasses : PatternPart.Passes o p .disjunction := hp.derives.passes ⟨htidy, hp.spaces⟩ o
  obtain ⟨b, hadvances⟩ := hpasses 0 u ⟨'/', by simp, hu ▸ rfl⟩
  have hhead : (p ++ u).head? ≠ some '=' := by
    obtain ⟨c, p, rfl⟩ := List.exists_cons_of_ne_nil hp.nonempty
    exact hp.head
  have hend : (course 0 b u).issues o = [] := by
    rw [course, RegexTerm.scan_of_stopsAt hstop, RegexTerm.remainder_of_stopsAt hstop, ← hu]
    exact Lexeme.issues_patternEnd hfs hv o
  rw [hu]
  refine ⟨hadvances.remainder.trans (RegexTerm.remainder_of_stopsAt hstop), ?_⟩
  rw [Lexeme.issues_regex, if_neg hhead, hadvances.issues, hend]
  rfl

end Literals

namespace Lexer

/-- A clean pattern between slashes, with flags that are all different behind it, is a closed
regular expression of which nothing is reported. -/
theorem finds_clean_regex [UnicodePrimitives] {l : Lexer} {p v : Text} {fs : List RegexFlag}
    (hf : l.finished = false)
    (hallowed : l.context.regexAllowed) (hp : IsCleanPattern p) (hfs : fs.Nodup)
    (hv : FollowsFlags v)
    (hrest : l.reader.rest = '/' :: (p ++ '/' :: (fs.map RegexFlag.letter ++ v))) :
    ∃ k l', l.Finds k l' [] ∧
      k.raw = '/' :: (p ++ '/' :: fs.map RegexFlag.letter) ∧
      k.value = .regex p (RegexFlag.all.filter fun f => decide (f ∈ fs)) ∧
      k.unclosed = false ∧ k.malformed = false ∧ l'.reader.rest = v := by
  have hhead : (p ++ '/' :: (fs.map RegexFlag.letter ++ v)).head? ≠ some '/' ∧
      (p ++ '/' :: (fs.map RegexFlag.letter ++ v)).head? ≠ some '*' := by
    obtain ⟨-, hbegins, hslash⟩ := hp.derives.not_begins
    obtain ⟨c, p, rfl⟩ := List.exists_cons_of_ne_nil hp.nonempty
    refine ⟨hslash, fun hstar => ?_⟩
    obtain rfl : c = '*' := by simpa using hstar
    exact absurd hbegins (by simp [begins, Quantifier.isMark])
  obtain ⟨hremainder, hissues⟩ := hp.issues_regex hfs hv l.options
  obtain ⟨k, l', ds, hfinds, hk, hsayings⟩ :=
    OpensRegex.exists_finds ⟨hf, hrest, hallowed, hhead⟩
  obtain rfl : ds = [] := by simpa [hissues] using hsayings
  obtain ⟨hvalue, hraw, hmalformed, hunclosed⟩ :=
    Lexeme.regex_closed (RegexTerm.flatMap_eq_of_remainder hremainder)
  rw [takeWhile_letters hv] at hvalue hraw
  refine ⟨k, l', hfinds, hk.raw.trans hraw, ?_, hk.unclosed.trans hunclosed,
    hk.malformed.trans hmalformed, ?_⟩
  · rw [hk.value, hvalue, RegexFlag.ofLetters_map]
  · have hbehind := hk.rest
    rw [hremainder] at hbehind
    have hword := List.takeWhile_append_dropWhile (p := isWordPart)
      (l := fs.map RegexFlag.letter ++ v)
    rw [takeWhile_letters hv] at hword
    exact hbehind.trans (List.append_cancel_left hword)

/-- A group with alternatives, a class with a range, bounds and a lazy quantifier are clean. -/
theorem isCleanPattern_group : IsCleanPattern
    ['^', '(', '?', ':', '\\', 'd', '|', '[', '^', '-', 'a', '-', 'z', '\\', 'w', ']', '\x7b', '2',
      ',', '3', '\x7d', ')', '*', '?', 'b'] := by
  have hclass : Derives .atom
      ('[' :: (classBody true true [['a', '-', 'z'], ['\\', 'w']] ++ [']'])) := by
    refine .charClass (List.cons_ne_nil _ _) fun a ha => ?_
    simp only [List.mem_cons, List.not_mem_nil, or_false] at ha
    rcases ha with rfl | rfl
    · exact .range (.char (by decide)) (.char (by decide))
    · exact .classEscape (by decide)
  have hbounds : IsQuantifier ['\x7b', '2', ',', '3', '\x7d'] :=
    .between (n := ['2']) (m := ['3']) ⟨by simp, by decide⟩ ⟨by simp, by decide⟩ (by decide) false
  have hinside : Derives .disjunction _ :=
    .either (.plain (.term (.escape (c := 'd') (by decide)) (.inl rfl) .nil))
      (.single (.plain (.term hclass (.inr hbounds) .nil)))
  have hgroup : Derives .atom _ := .group (k := ['?', ':']) (.inr (by decide)) hinside
  have hlast : Derives .terms _ := .term (.char (c := 'b') (by decide)) (.inl rfl) .nil
  have hlazy : IsQuantifier ['*', '?'] := .mark (by decide) true
  have hderives : Derives .disjunction _ := .single (.anchored (.term hgroup (.inr hlazy) hlast))
  have htidy : List.all
      ['^', '(', '?', ':', '\\', 'd', '|', '[', '^', '-', 'a', '-', 'z', '\\', 'w', ']', '\x7b',
        '2', ',', '3', '\x7d', ')', '*', '?', 'b']
      fun c => !isUnsafeChar c && !isLineTerminator c := by
    decide
  have hchar := fun c hc => List.all_eq_true.mp htidy c hc
  simp only [Bool.and_eq_true, Bool.not_eq_true'] at hchar
  exact ⟨hderives, List.cons_ne_nil _ _, fun c hc => (hchar c hc).1, fun c hc => (hchar c hc).2,
    by decide, by decide⟩

theorem finds_clean_regex_of_group :
    ∃ k l', (start "/^(?:\\d|[^-a-z\\w]\x7b2,3\x7d)*?b/gi;".toList {} false).Finds k l' [] ∧
      k.raw = "/^(?:\\d|[^-a-z\\w]\x7b2,3\x7d)*?b/gi".toList ∧
      k.value = .regex "^(?:\\d|[^-a-z\\w]\x7b2,3\x7d)*?b".toList [.global, .ignoreCase] ∧
      k.unclosed = false ∧ k.malformed = false ∧ l'.reader.rest = [';'] := by
  have hallowed :
      (start "/^(?:\\d|[^-a-z\\w]\x7b2,3\x7d)*?b/gi;".toList {} false).context.regexAllowed := by
    decide
  have hv : FollowsFlags [';'] := by
    refine ⟨fun c hc => ?_, by decide, by decide⟩
    obtain rfl : ';' = c := by simpa using hc
    decide +kernel
  have hflags : [RegexFlag.global, RegexFlag.ignoreCase].Nodup := by decide
  exact finds_clean_regex rfl hallowed isCleanPattern_group hflags hv (by decide +kernel)

end Lexer

end EcmaLex
