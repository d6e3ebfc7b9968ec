import EcmaLex.Proofs.Extent.Opening
import EcmaLex.Proofs.Gap
import EcmaLex.Proofs.Number.Digits

/-!
# Spellings

A word can be written in many ways: each of its characters as itself, as a `\u` escape with four
digits, or as one with braces. Every spelling is read as the name of that word, and every name that
is not malformed is a spelling of a word.
-/

namespace EcmaLex

theorem ofChar_of_isWordStart [UnicodePrimitives] {c : Char} (h : isWordStart c) :
    CharClass.ofChar c = .printable := by
  simp only [isWordStart, Bool.or_eq_true, decide_eq_true_eq] at h
  obtain (rfl | rfl) | hc := h
  · decide
  · decide
  · exact UnicodePrimitives.ofChar_of_isXidStart hc

theorem isWordStart_of_ofChar [UnicodePrimitives] {c : Char} (h : CharClass.ofChar c ≠ .printable) :
    isWordStart c = false := Bool.eq_false_iff.mpr fun hc => h (ofChar_of_isWordStart hc)

def isWord [Primitives] : Text → Bool
  | [] => false
  | c :: t => isWordStart c && t.all isWordPart

/-- The first text spells the second one. -/
inductive Spells : Text → Text → Prop where
  | nil : Spells [] []
  | char (c : Char) {raw name : Text} (h : Spells raw name) : Spells (c :: raw) (c :: name)
  | fixed {c : Char} {digits raw name : Text} (hn : digits.length = 4)
      (hc : decodeHex? digits = some c) (h : Spells raw name) :
      Spells ('\\' :: 'u' :: (digits ++ raw)) (c :: name)
  | braced {c : Char} {digits raw name : Text} (hn : digits.length ≤ 6)
      (hc : decodeHex? digits = some c) (h : Spells raw name) :
      Spells ('\\' :: 'u' :: '\x7b' :: (digits ++ '\x7d' :: raw)) (c :: name)

namespace WrittenCode

theorem fixed?_append {n : Nat} {digits : Text} (hn : digits.length = n)
    (hd : ∀ d ∈ digits, isHexDigit d) (t : Text) :
    fixed? n (digits ++ t) = some ⟨digits, digits⟩ := by
  have htake : (digits ++ t).take n = digits := List.take_left' hn
  simp only [fixed?, htake, hn]
  simpa using hd

theorem unicode?_fixed {digits : Text} (hn : digits.length = 4) (hd : ∀ d ∈ digits, isHexDigit d)
    (t : Text) : unicode? (digits ++ t) = some ⟨digits, digits⟩ := by
  rw [← fixed?_append hn hd t]
  apply unicode?.eq_2
  intro t' ht
  cases digits with
  | nil => simp at hn
  | cons d digits =>
    obtain rfl : d = '\x7b' := (List.cons.inj ht).1
    exact absurd (hd _ List.mem_cons_self) (by decide)

theorem unicode?_braced {digits : Text} (hne : digits ≠ []) (hn : digits.length ≤ 6)
    (hd : ∀ d ∈ digits, isHexDigit d) (t : Text) :
    unicode? ('\x7b' :: (digits ++ '\x7d' :: t)) =
      some ⟨'\x7b' :: digits ++ ['\x7d'], digits⟩ :=
  braced?_append (w := ⟨'\x7b' :: digits ++ ['\x7d'], digits⟩) rfl hne hn hd t

end WrittenCode

namespace NamePart

def allows [Primitives] (started : Bool) (c : Char) :
    Bool := if started then isWordPart c else isWordStart c

theorem isWordPart_of_allows [Primitives] {started : Bool} {c : Char} (h : allows started c) :
    isWordPart c := by
  cases started with
  | false => exact isWordPart_of_isWordStart h
  | true => exact h

/-- A name goes on behind an escape that it allows. -/
theorem scan_escape [Primitives] {started : Bool} {written digits t : Text} {c : Char}
    (hw : WrittenCode.unicode? (written ++ t) = some ⟨written, digits⟩)
    (hc : decodeHex? digits = some c) (ha : allows started c) :
    scan started ('\\' :: 'u' :: (written ++ t)) =
      ⟨'\\' :: 'u' :: written, some c⟩ :: scan true t := by
  have hdecoded : (WrittenCode.mk written digits).decoded? = some c := hc
  have hfilter : (some c).filter (if started then isWordPart else isWordStart) = some c := by
    rw [Option.filter_some, if_pos]
    cases started with
    | false => exact ha
    | true => exact ha
  have hstep : step started '\\' ('u' :: written ++ t) = ⟨'\\' :: 'u' :: written, some c⟩ := by
    rw [List.cons_append, step_escape]
    simp only [ofEscape, hw, hdecoded, hfilter]
  have hscan := pieceScan.scan_cons (s := started) (c := '\\') (w := 'u' :: written) (r := t) rfl
    (by rw [hstep])
  rw [hstep] at hscan
  simpa using hscan

theorem scan_char [UnicodePrimitives] (started : Bool) {c : Char} (hc : isWordPart c) (t : Text) :
    scan started (c :: t) = ⟨[c], some c⟩ :: scan true t := by
  have hstep : step started c ([] ++ t) = ⟨[c], some c⟩ := step_word hc started t
  have hscan := pieceScan.scan_cons (s := started) (c := c) (w := []) (r := t)
    (by simp [begins_char hc]) (by rw [hstep])
  rw [hstep] at hscan
  simpa using hscan

theorem allows_of_mem_head? [Primitives] {name : Text} (h : ∀ c ∈ name, isWordPart c) :
    ∀ c ∈ name.head?, allows true c := fun c hc => h c (List.mem_of_mem_head? hc)

/-- The parts of a name that is spelled so are its characters, written so. -/
theorem scan_spelling [UnicodePrimitives] {raw name u : Text} (h : Spells raw name)
    (hu : begins u = false)
    {started : Bool} (hfirst : ∀ c ∈ name.head?, allows started c)
    (hpart : ∀ c ∈ name, isWordPart c) :
    (scan started (raw ++ u)).flatMap NamePart.raw = raw ∧
      (scan started (raw ++ u)).map NamePart.char = name.map some := by
  induction h generalizing started with
  | nil =>
    rw [List.nil_append, pieceScan.stop (by simp [hu])]
    exact ⟨rfl, rfl⟩
  | char c h ih =>
    obtain ⟨hc, hname⟩ := List.forall_mem_cons.mp hpart
    obtain ⟨hraw, hchars⟩ := ih (allows_of_mem_head? hname) hname
    rw [List.cons_append, scan_char started hc]
    exact ⟨congrArg (c :: ·) hraw, congrArg (some c :: ·) hchars⟩
  | @fixed c digits raw name hn hc h ih =>
    obtain ⟨-, hname⟩ := List.forall_mem_cons.mp hpart
    obtain ⟨hraw, hchars⟩ := ih (allows_of_mem_head? hname) hname
    have hcode := WrittenCode.unicode?_fixed hn (digits_of_decodeHex? hc).2 (raw ++ u)
    rw [List.cons_append, List.cons_append, List.append_assoc,
      scan_escape hcode hc (hfirst c rfl)]
    simp [hraw, hchars]
  | @braced c digits raw name hn hc h ih =>
    obtain ⟨-, hname⟩ := List.forall_mem_cons.mp hpart
    obtain ⟨hraw, hchars⟩ := ih (allows_of_mem_head? hname) hname
    obtain ⟨hne, hd⟩ := digits_of_decodeHex? hc
    have hcode := WrittenCode.unicode?_braced hne hn hd (raw ++ u)
    have happ : '\x7b' :: (digits ++ '\x7d' :: (raw ++ u)) =
        ('\x7b' :: digits ++ ['\x7d']) ++ (raw ++ u) := by simp
    have htext : '\\' :: 'u' :: '\x7b' :: (digits ++ '\x7d' :: raw) ++ u =
        '\\' :: 'u' :: (('\x7b' :: digits ++ ['\x7d']) ++ (raw ++ u)) := by simp
    rw [happ] at hcode
    rw [htext, scan_escape hcode hc (hfirst c rfl)]
    simp [hraw, hchars]

theorem allows_of_ofEscape [Primitives] {started : Bool} {t : Text} {c : Char}
    (h : (ofEscape started t).char = some c) : allows started c := by
  unfold ofEscape at h
  split at h
  · have hp := (Option.filter_eq_some_iff.mp h).2
    cases started with
    | false => exact hp
    | true => exact hp
  · simp at h

theorem isWordPart_of_mem_scan [Primitives] {started : Bool} {t : Text} :
    ∀ p ∈ scan started t, ∀ c, p.char = some c → isWordPart c := by
  refine pieceScan.forall_mem (P := fun p => ∀ c, p.char = some c → isWordPart c) ?_ started t
  intro started c t hs d hd
  rcases begins_cases (by simpa using hs) with ⟨t, rfl, rfl⟩ | ⟨hc, hne⟩
  · exact isWordPart_of_allows (allows_of_ofEscape hd)
  · rw [step_char hne] at hd
    exact Option.some.inj hd ▸ hc

/-- A `\u` escape in front of a spelling spells the character of its code, and the rest. -/
theorem spells_ofEscape [Primitives] {started : Bool} {t raw name : Text} {c : Char}
    (h : (ofEscape started t).char = some c) (hs : Spells raw name) :
    Spells ((ofEscape started t).raw ++ raw) (c :: name) := by
  unfold ofEscape at h ⊢
  split at h
  · rename_i w hw
    have hc : decodeHex? w.digits = some c := (Option.filter_eq_some_iff.mp h).1
    unfold WrittenCode.unicode? at hw
    split at hw
    · obtain ⟨-, -, hraw, -, hn, -⟩ := WrittenCode.braced?_eq_some hw
      rw [hraw]
      simpa using Spells.braced hn hc hs
    · simp only [WrittenCode.fixed?, Option.ite_none_right_eq_some, Option.some.injEq,
        Bool.and_eq_true, decide_eq_true_eq] at hw
      obtain ⟨⟨hn, -⟩, rfl⟩ := hw
      simpa using Spells.fixed hn hc hs
  · simp at h

/-- The text of a name with no bad escape spells the characters of the name. -/
theorem spells_scan [Primitives] {started : Bool} {t : Text}
    (hsome : ∀ p ∈ scan started t, p.char.isSome) :
    Spells ((scan started t).flatMap NamePart.raw) ((scan started t).filterMap NamePart.char) := by
  have hpart : ∀ p ∈ scan started t, ∀ c raw name, p.char = some c → Spells raw name →
      Spells (p.raw ++ raw) (c :: name) := by
    refine pieceScan.forall_mem (P := fun p => ∀ c raw name, p.char = some c → Spells raw name →
      Spells (p.raw ++ raw) (c :: name)) ?_ started t
    intro started c t hs d raw name hd hspells
    rcases begins_cases (by simpa using hs) with ⟨t, rfl, rfl⟩ | ⟨-, hne⟩
    · exact spells_ofEscape hd hspells
    · rw [step_char hne] at hd ⊢
      obtain rfl := Option.some.inj hd
      exact .char c hspells
  -- From here on only what is known of the single parts counts.
  generalize scan started t = ps at hsome hpart
  induction ps with
  | nil => exact .nil
  | cons p ps ih =>
    obtain ⟨⟨c, hc⟩, hsome⟩ := (List.forall_mem_cons.mp hsome).imp_left Option.isSome_iff_exists.mp
    obtain ⟨hp, hpart⟩ := List.forall_mem_cons.mp hpart
    rw [List.flatMap_cons, List.filterMap_cons_some hc]
    exact hp c _ _ hc (ih hsome hpart)

/-- The characters of a name that starts properly, and has no bad escape, are a word. -/
theorem isWord_scan [UnicodePrimitives] {c : Char} {t : Text} (hb : Name.begins (c :: t))
    (hsome : ∀ p ∈ scan false (c :: t), p.char.isSome) :
    isWord ((scan false (c :: t)).filterMap NamePart.char) := by
  have hpart : ∀ p ∈ scan false (c :: t), ∀ d, p.char = some d → isWordPart d :=
    isWordPart_of_mem_scan
  have hgo : scan false (c :: t) = step false c t :: _ := pieceScan.go (by
    rcases (Opening.begins_name_iff c t).mp hb with ⟨rfl, ht⟩ | hc
    · obtain ⟨t, rfl⟩ := List.head?_eq_some_iff.mp ht
      rfl
    · simp [begins_char (isWordPart_of_isWordStart hc)])
  rw [hgo] at hsome hpart ⊢
  obtain ⟨d, hd⟩ := Option.isSome_iff_exists.mp (hsome _ List.mem_cons_self)
  have hstart : isWordStart d := by
    rcases (Opening.begins_name_iff c t).mp hb with ⟨rfl, ht⟩ | hc
    · obtain ⟨t, rfl⟩ := List.head?_eq_some_iff.mp ht
      have ha : allows false d := allows_of_ofEscape hd
      exact ha
    · rw [step_word (isWordPart_of_isWordStart hc)] at hd
      exact Option.some.inj hd ▸ hc
  rw [List.filterMap_cons_some hd, isWord, Bool.and_eq_true, List.all_eq_true]
  refine ⟨hstart, fun e he => ?_⟩
  obtain ⟨p, hp, he⟩ := List.mem_filterMap.mp he
  exact hpart p (List.mem_cons_of_mem _ hp) e he

end NamePart

theorem isWord_cons [Primitives] (c : Char) (t : Text) :
    isWord (c :: t) ↔ isWordStart c ∧ ∀ d ∈ t, isWordPart d := by
  simp [isWord]

theorem isWordPart_of_mem_isWord [Primitives] {name : Text} (h : isWord name) :
    ∀ c ∈ name, isWordPart c := by
  cases name with
  | nil => simp
  | cons c t =>
    obtain ⟨hc, ht⟩ := (isWord_cons c t).mp h
    exact List.forall_mem_cons.mpr ⟨isWordPart_of_isWordStart hc, ht⟩

theorem isWordStart_of_head?_isWord [Primitives] {name : Text} (h : isWord name) :
    ∀ c ∈ name.head?, isWordStart c := by
  cases name with
  | nil => simp
  | cons c t =>
    intro d hd
    obtain rfl : c = d := by simpa using hd
    exact ((isWord_cons c t).mp h).1

namespace Spells

variable {raw name : Text}

theorem exists_cons [Primitives] (h : Spells raw name) (hw : isWord name) :
    ∃ c t, raw = c :: t ∧ (isWordStart c ∨ c = '\\' ∧ ∃ t', t = 'u' :: t') := by
  cases h with
  | nil => simp [isWord] at hw
  | char c h => exact ⟨c, _, rfl, .inl ((isWord_cons _ _).mp hw).1⟩
  | fixed => exact ⟨'\\', _, rfl, .inr ⟨rfl, _, rfl⟩⟩
  | braced => exact ⟨'\\', _, rfl, .inr ⟨rfl, _, rfl⟩⟩

theorem begins [Primitives] (h : Spells raw name) (hw : isWord name) (u : Text) :
    Name.begins (raw ++ u) := by
  obtain ⟨c, t, rfl, hc | ⟨rfl, t, rfl⟩⟩ := h.exists_cons hw
  · exact (Opening.begins_name_iff _ _).mpr (.inr hc)
  · rfl

theorem startsToken [UnicodePrimitives] (h : Spells raw name) (hw : isWord name) (u : Text) :
    startsToken (raw ++ u) := by
  obtain ⟨c, t, rfl, hc | ⟨rfl, t, rfl⟩⟩ := h.exists_cons hw
  · have hstar : c ≠ '*' := by
      rintro rfl
      simp [isWordStart_of_isAsciiMark (c := '*') (by decide)] at hc
    simp [EcmaLex.startsToken, ofChar_of_isWordStart hc, hstar]
  · simp [EcmaLex.startsToken]
    decide

end Spells

def Name.value (word : Text) : TokenValue :=
  if isKeyword word then .keyword word else .identifier word

def Name.content (word raw : Text) : Content :=
  { kind := (Name.value word).kind
    raw
    value := Name.value word
    malformed := false
    unclosed := false }

namespace Lexeme

/-- Every spelling of a word is read as its name. -/
theorem name_spelling [UnicodePrimitives] (context : Context) {raw word u : Text}
    (h : Spells raw word)
    (hw : isWord word) (hu : NamePart.begins u = false) :
    (name context (raw ++ u)).content = Name.content word raw := by
  have hfirst : ∀ c ∈ word.head?, NamePart.allows false c := isWordStart_of_head?_isWord hw
  obtain ⟨hraw, hchars⟩ := NamePart.scan_spelling h hu hfirst (isWordPart_of_mem_isWord hw)
  have hname : (NamePart.scan false (raw ++ u)).filterMap NamePart.char = word := by
    have hmap := congrArg (List.filterMap id) hchars
    simpa [List.filterMap_map] using hmap
  have hgood : ((NamePart.scan false (raw ++ u)).any fun p => p.char.isNone) = false := by
    have hany : ((NamePart.scan false (raw ++ u)).map NamePart.char).any Option.isNone = false := by
      rw [hchars]
      simp
    rwa [List.any_map] at hany
  have hvalue : (name context (raw ++ u)).value = Name.value word := by
    simp only [name, hname, Name.value]
  rw [content, Name.content, Content.mk.injEq, kind, hvalue, raw_name, hraw]
  exact ⟨rfl, rfl, rfl, hgood, rfl⟩

/-- A name that is not malformed is that of a word, which its text spells, and ends where no name
goes on. -/
theorem exists_word [UnicodePrimitives] {context : Context} {c : Char} {a u : Text}
    (hb : Name.begins (c :: (a ++ u)))
    (ha : (name context (c :: (a ++ u))).raw = c :: a)
    (hm : (name context (c :: (a ++ u))).malformed = false) :
    ∃ word, isWord word ∧ Spells (c :: a) word ∧
      (name context (c :: (a ++ u))).content = Name.content word (c :: a) ∧
      NamePart.begins u = false := by
  have hsome : ∀ p ∈ NamePart.scan false (c :: (a ++ u)), p.char.isSome := by
    intro p hp
    simpa [Option.isSome_iff_ne_none] using List.any_eq_false.mp hm p hp
  have htext := ha
  rw [raw_name] at htext
  refine ⟨_, NamePart.isWord_scan hb hsome, htext ▸ NamePart.spells_scan hsome, ?_, ?_⟩
  · rw [content, Name.content, ha, hm]
    rfl
  · obtain ⟨r, hr, -, hstop⟩ := NamePart.pieceScan.exists_rest false (c :: (a ++ u))
    rw [htext] at hr
    obtain rfl : u = r := by simpa using hr
    simpa using hstop

end Lexeme

end EcmaLex
