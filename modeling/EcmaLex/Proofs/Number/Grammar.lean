import EcmaLex.Primitives.Standard
import EcmaLex.Proofs.Blanking
import EcmaLex.Proofs.Place
import EcmaLex.Proofs.Places

/-!
# The grammar of numeric literals

A numeric literal is a radix with digits of it, or a decimal mantissa with or without an exponent. A
literal goes on as long as it can: it is the longest text of the grammar that stands at its place.
-/

namespace EcmaLex

namespace NumberLiteral

def radixLetters : List (Char × NumberForm) :=
  [('x', .hex), ('X', .hex), ('b', .binary), ('B', .binary), ('o', .octal), ('O', .octal)]

structure IsDigits (t : Text) : Prop where
  nonempty : t ≠ []
  digits : ∀ c ∈ t, c.isDigit

inductive IsMantissa : Text → Text → Text → Prop where
  | whole {i : Text} (hi : IsDigits i) : IsMantissa i i []
  | pointed {i f : Text} (hi : IsDigits i) (hf : ∀ c ∈ f, c.isDigit) :
      IsMantissa (i ++ '.' :: f) i f
  | fractional {f : Text} (hf : IsDigits f) : IsMantissa ('.' :: f) [] f

def signed (s ds : Text) : Int := if s = ['-'] then -ofDigits 10 ds else ofDigits 10 ds

inductive IsExponent : Text → Int → Prop where
  | absent : IsExponent [] 0
  | written {c : Char} {s ds : Text} (hc : c = 'e' ∨ c = 'E') (hs : IsSign s) (hd : IsDigits ds) :
      IsExponent (c :: (s ++ ds)) (signed s ds)

/-- The texts of numeric literals. -/
inductive IsLiteral : Text → Prop where
  | radix {c : Char} {form : NumberForm} {ds : Text} (hc : (c, form) ∈ radixLetters)
      (hd : ∀ d ∈ ds, isDigitOf form.radix d) : IsLiteral ('0' :: c :: ds)
  | decimal {m i f e : Text} {n : Int} (hm : IsMantissa m i f) (he : IsExponent e n) :
      IsLiteral (m ++ e)

structure IsLongest (raw t : Text) : Prop where
  isLiteral : IsLiteral raw
  isPrefix : raw <+: t
  longest : ∀ w, IsLiteral w → w <+: t → w.length ≤ raw.length

def Starts (t : Text) : Prop := ∃ d r, d.isDigit ∧ (t = d :: r ∨ t = '.' :: d :: r)

theorem ofLetter?_eq_some_iff {c : Char} {form : NumberForm} :
    NumberForm.ofLetter? c = some form ↔ (c, form) ∈ radixLetters := by
  unfold NumberForm.ofLetter? radixLetters
  split
  · grind
  split
  · grind
  split
  · grind
  · grind

theorem forms_of_radixLetters {c : Char} {form : NumberForm} (h : (c, form) ∈ radixLetters) :
    form = .hex ∨ form = .binary ∨ form = .octal := by
  have hall : ∀ p ∈ radixLetters, p.2 = .hex ∨ p.2 = .binary ∨ p.2 = .octal := by decide
  exact hall _ h

theorem isDigit_of_mem_radixLetters {c : Char} {form : NumberForm} (h : (c, form) ∈ radixLetters) :
    c.isDigit = false ∧ c ≠ '.' ∧ c ≠ 'e' ∧ c ≠ 'E' := by
  have hall : ∀ p ∈ radixLetters, p.1.isDigit = false ∧ p.1 ≠ '.' ∧ p.1 ≠ 'e' ∧ p.1 ≠ 'E' := by
    decide
  exact hall _ h

theorem begins_iff_starts (t : Text) : begins t ↔ Starts t := by
  cases t with
  | nil => simp [begins, Starts]
  | cons c t =>
    rw [Opening.begins_number_iff]
    constructor
    · rintro (⟨rfl, d, ht, hd⟩ | hc)
      · obtain ⟨t, rfl⟩ := List.head?_eq_some_iff.mp ht
        exact ⟨d, t, hd, .inr rfl⟩
      · exact ⟨c, t, hc, .inl rfl⟩
    · rintro ⟨d, r, hd, ht | ht⟩
      · obtain ⟨rfl, rfl⟩ := List.cons.inj ht
        exact .inr hd
      · obtain ⟨rfl, rfl⟩ := List.cons.inj ht
        exact .inl ⟨rfl, d, rfl, hd⟩

def mantissa (t : Text) : Text :=
  t.takeWhile Char.isDigit ++ fraction (t.drop (t.takeWhile Char.isDigit).length)

theorem extent_eq_mantissa {t : Text} (h : NumberForm.announced? t = none) :
    extent t = mantissa t ++ exponent (t.drop (mantissa t).length) := by
  simp only [extent, h, mantissa, List.length_append]

theorem takeWhile_digits {ds : Text} (hd : ∀ c ∈ ds, c.isDigit) (t : Text) :
    (ds ++ t).takeWhile Char.isDigit = ds ++ t.takeWhile Char.isDigit :=
  List.takeWhile_append_of_pos hd

theorem takeWhile_of_head? {p : Char → Bool} {t : Text} (ht : ∀ c ∈ t.head?, p c = false) :
    t.takeWhile p = [] := by
  cases t with
  | nil => rfl
  | cons c t => exact List.takeWhile_cons_of_neg (by simp [ht c rfl])

theorem mantissa_pointed {i : Text} (hi : ∀ c ∈ i, c.isDigit) (t : Text) :
    mantissa (i ++ '.' :: t) = i ++ '.' :: t.takeWhile Char.isDigit := by
  have hinteger : (i ++ '.' :: t).takeWhile Char.isDigit = i := by
    rw [takeWhile_digits hi, List.takeWhile_cons_of_neg (by decide), List.append_nil]
  rw [mantissa, hinteger, List.drop_left]
  rfl

theorem mantissa_whole {i t : Text} (hi : ∀ c ∈ i, c.isDigit)
    (ht : ∀ c ∈ t.head?, c.isDigit = false ∧ c ≠ '.') : mantissa (i ++ t) = i := by
  have hinteger : (i ++ t).takeWhile Char.isDigit = i := by
    rw [takeWhile_digits hi, takeWhile_of_head? fun c hc => (ht c hc).1, List.append_nil]
  have hfraction : fraction t = [] := by
    unfold fraction
    split
    · exact absurd rfl (ht '.' rfl).2
    · rfl
  rw [mantissa, hinteger, List.drop_left, hfraction, List.append_nil]

namespace IsMantissa

variable {m i f : Text}

theorem prefix_mantissa (h : IsMantissa m i f) (t : Text) : m <+: mantissa (m ++ t) := by
  cases h with
  | whole hi =>
    rw [mantissa, takeWhile_digits hi.digits, List.append_assoc]
    exact List.prefix_append _ _
  | pointed hi hf =>
    rw [List.append_assoc, List.cons_append, mantissa_pointed hi.digits, takeWhile_digits hf,
      List.prefix_append_right_inj, List.prefix_cons_inj]
    exact List.prefix_append _ _
  | fractional hf =>
    have hmantissa := mantissa_pointed (i := []) (by simp) (f ++ t)
    rw [List.nil_append, List.nil_append, takeWhile_digits hf.digits] at hmantissa
    rw [List.cons_append, hmantissa, List.prefix_cons_inj]
    exact List.prefix_append _ _

/-- A mantissa ends before anything but a digit and a point. -/
theorem mantissa_eq (h : IsMantissa m i f) {t : Text}
    (ht : ∀ c ∈ t.head?, c.isDigit = false ∧ c ≠ '.') : mantissa (m ++ t) = m := by
  have hnone : t.takeWhile Char.isDigit = [] := takeWhile_of_head? fun c hc => (ht c hc).1
  cases h with
  | whole hi => exact mantissa_whole hi.digits ht
  | pointed hi hf =>
    rw [List.append_assoc, List.cons_append, mantissa_pointed hi.digits, takeWhile_digits hf,
      hnone, List.append_nil]
  | fractional hf =>
    have hmantissa := mantissa_pointed (i := []) (by simp) (f ++ t)
    rwa [List.nil_append, List.nil_append, takeWhile_digits hf.digits, hnone,
      List.append_nil] at hmantissa

theorem isDigit (h : IsMantissa m i f) : ∀ c ∈ i ++ f, c.isDigit := by
  intro c hc
  cases h with
  | whole hi => exact hi.digits c (by simpa using hc)
  | pointed hi hf => exact (List.mem_append.mp hc).elim (hi.digits c) (hf c)
  | fractional hf => exact hf.digits c hc

theorem digits_ne_nil (h : IsMantissa m i f) : i ++ f ≠ [] := by
  cases h with
  | whole hi => simpa using hi.nonempty
  | pointed hi => simp [hi.nonempty]
  | fractional hf => simpa using hf.nonempty

theorem ne_nil (h : IsMantissa m i f) : m ≠ [] := by
  cases h with
  | whole hi => exact hi.nonempty
  | pointed => simp
  | fractional => simp

end IsMantissa

theorem isDigits_takeWhile {c : Char} (hc : c.isDigit) (t : Text) :
    IsDigits ((c :: t).takeWhile Char.isDigit) where
  nonempty := by simp [hc]
  digits := fun _ hd => List.mem_takeWhile_imp hd

theorem fraction_cases (t : Text) :
    fraction t = [] ∨ ∃ f : Text, fraction t = '.' :: f ∧ ∀ c ∈ f, c.isDigit := by
  unfold fraction
  split
  · exact .inr ⟨_, rfl, fun _ hc => List.mem_takeWhile_imp hc⟩
  · exact .inl rfl

theorem exists_isMantissa {t : Text} (h : Starts t) : ∃ i f, IsMantissa (mantissa t) i f := by
  obtain ⟨d, r, hd, rfl | rfl⟩ := h
  · have hi := isDigits_takeWhile hd r
    rw [mantissa]
    rcases fraction_cases ((d :: r).drop ((d :: r).takeWhile Char.isDigit).length) with hf | hf
    · rw [hf, List.append_nil]
      exact ⟨_, _, .whole hi⟩
    · obtain ⟨f, hf, hdigits⟩ := hf
      rw [hf]
      exact ⟨_, _, .pointed hi hdigits⟩
  · have hmantissa := mantissa_pointed (i := []) (by simp) (d :: r)
    rw [List.nil_append, List.nil_append] at hmantissa
    rw [hmantissa]
    exact ⟨_, _, .fractional (isDigits_takeWhile hd r)⟩

theorem exists_isExponent (t : Text) : ∃ n, IsExponent (exponent t) n := by
  by_cases h : exponent t = []
  · exact ⟨0, h ▸ .absent⟩
  · obtain ⟨c, s, d, r, rfl, hc, hs, hd⟩ := exponent_cases h
    rw [exponent_eq_of_isSign hc hs hd]
    exact ⟨_, .written hc hs (isDigits_takeWhile hd r)⟩

namespace IsExponent

variable {e : Text} {n : Int}

theorem head?_isDigit (h : IsExponent e n) : ∀ c ∈ e.head?, c.isDigit = false ∧ c ≠ '.' := by
  cases h with
  | absent => simp
  | written hc =>
    intro c' hc'
    obtain rfl : _ = c' := by simpa using hc'
    rcases hc with rfl | rfl <;> decide

theorem prefix_exponent (h : IsExponent e n) (t : Text) : e <+: exponent (e ++ t) := by
  cases h with
  | absent => exact List.nil_prefix
  | @written c s ds hc hs hd =>
    obtain ⟨d, ds, rfl⟩ := List.exists_cons_of_ne_nil hd.nonempty
    have hdigits : (d :: (ds ++ t)).takeWhile Char.isDigit = d :: ds ++ t.takeWhile Char.isDigit :=
      takeWhile_digits hd.digits t
    have htext : c :: (s ++ d :: ds) ++ t = c :: (s ++ d :: (ds ++ t)) := by simp
    rw [htext, exponent_eq_of_isSign hc hs (hd.digits d List.mem_cons_self), hdigits,
      List.cons_append, List.prefix_cons_inj, List.prefix_append_right_inj]
    exact List.prefix_append _ _

end IsExponent

/-- What a text starts with is a literal. -/
theorem isLiteral_extent {t : Text} (h : Starts t) : IsLiteral (extent t) := by
  cases hn : NumberForm.announced? t with
  | some form =>
    obtain ⟨c, t, rfl, hc⟩ := announced?_eq_some hn
    rw [extent_announced hc]
    exact .radix (ofLetter?_eq_some_iff.mp hc) fun d hd => List.mem_takeWhile_imp hd
  | none =>
    obtain ⟨i, f, hm⟩ := exists_isMantissa h
    obtain ⟨n, he⟩ := exists_isExponent (t.drop (mantissa t).length)
    rw [extent_eq_mantissa hn]
    exact .decimal hm he

/-- A decimal literal does not go on behind the mantissa and the exponent of its text. -/
theorem prefix_decimal {m i f e : Text} {n : Int} (hm : IsMantissa m i f) (he : IsExponent e n)
    (t : Text) : m ++ e <+: mantissa (m ++ (e ++ t)) ++
      exponent ((m ++ (e ++ t)).drop (mantissa (m ++ (e ++ t))).length) := by
  by_cases hnil : e = []
  · rw [hnil, List.append_nil]
    exact (hm.prefix_mantissa _).trans (List.prefix_append _ _)
  · obtain ⟨c, r, rfl⟩ := List.exists_cons_of_ne_nil hnil
    have hhead : ∀ d ∈ (c :: r ++ t).head?, d.isDigit = false ∧ d ≠ '.' := he.head?_isDigit
    rw [hm.mantissa_eq hhead, List.drop_left, List.prefix_append_right_inj]
    exact he.prefix_exponent t

/-- Only the zero before the letter of a radix is a decimal literal. -/
theorem eq_zero_of_announced {m i f e t : Text} {n : Int} {form : NumberForm}
    (hm : IsMantissa m i f) (he : IsExponent e n)
    (h : NumberForm.announced? (m ++ (e ++ t)) = some form) : m = ['0'] ∧ e = [] := by
  obtain ⟨c, r, htext, hc⟩ := announced?_eq_some h
  obtain ⟨hdigit, hpoint, hlower, hupper⟩ :=
    isDigit_of_mem_radixLetters (ofLetter?_eq_some_iff.mp hc)
  have hmantissa : mantissa ('0' :: c :: r) = ['0'] :=
    mantissa_whole (i := ['0']) (t := c :: r) (by simp) (by simp [hdigit, hpoint])
  have hprefix := hm.prefix_mantissa (e ++ t)
  rw [htext, hmantissa] at hprefix
  have hzero : m = ['0'] := hprefix.eq_of_length_le (List.length_pos_iff.mpr hm.ne_nil)
  refine ⟨hzero, ?_⟩
  rw [hzero] at htext
  have hrest : e ++ t = c :: r := (List.cons.inj htext).2
  cases he with
  | absent => rfl
  | @written c' s ds hc' =>
    obtain rfl : c' = c := (List.cons.inj hrest).1
    exact absurd hc' (by simp [hlower, hupper])

/-- No literal at the start of a text is longer than what is read there. -/
theorem prefix_extent {w t : Text} (hw : IsLiteral w) (ht : w <+: t) : w <+: extent t := by
  obtain ⟨u, rfl⟩ := ht
  cases hw with
  | @radix c form ds hc hd =>
    have htext : '0' :: c :: ds ++ u = '0' :: c :: (ds ++ u) := rfl
    rw [htext, extent_announced (ofLetter?_eq_some_iff.mpr hc), List.takeWhile_append_of_pos hd,
      List.prefix_cons_inj, List.prefix_cons_inj]
    exact List.prefix_append _ _
  | @decimal m i f e n hm he =>
    rw [List.append_assoc]
    cases hn : NumberForm.announced? (m ++ (e ++ u)) with
    | none =>
      rw [extent_eq_mantissa hn]
      exact prefix_decimal hm he u
    | some form =>
      obtain ⟨rfl, rfl⟩ := eq_zero_of_announced hm he hn
      obtain ⟨c, r, htext, hc⟩ := announced?_eq_some hn
      rw [htext, extent_announced hc]
      exact ⟨_, rfl⟩

theorem isLongest_extent {t : Text} (h : Starts t) : IsLongest (extent t) t where
  isLiteral := isLiteral_extent h
  isPrefix := extent_prefix t
  longest := fun _ hw hprefix => (prefix_extent hw hprefix).length_le

end NumberLiteral

open NumberLiteral (IsLongest Starts begins_iff_starts isLongest_extent)

def questions : List Text := [['?'], ['?', '?']]

theorem Punctuator.scan?_questions {q v : Text} (hq : q ∈ questions) (hv : Starts v) :
    scan? (q ++ v) = some q := by
  obtain ⟨d, r, hd, hv⟩ := hv
  simp only [questions, List.mem_cons, List.not_mem_nil, or_false] at hq
  rcases hq with rfl | rfl
  · rcases hv with rfl | rfl
    · have hpoint : d ≠ '.' := by rintro rfl; simp at hd
      have hquestion : d ≠ '?' := by rintro rfl; simp at hd
      have hconditional : ¬ isConditional (['?'] ++ d :: r) := by
        rw [isConditional_iff]
        rintro ⟨c, r', ht, -⟩
        exact hpoint (List.cons.inj (List.cons.inj ht).2).1
      rw [scan?, if_neg hconditional]
      exact find?_question (by simpa using hpoint) (by simpa using hquestion)
    · exact if_pos (isConditional_iff.mpr ⟨d, r, rfl, hd⟩)
  · obtain ⟨c, t, rfl, hc⟩ : ∃ c t, v = c :: t ∧ '=' ≠ c := by
      rcases hv with rfl | rfl
      · exact ⟨d, r, rfl, by rintro rfl; simp at hd⟩
      · exact ⟨'.', d :: r, rfl, by decide⟩
    simp [scan?, isConditional, table, List.isPrefixOf, hc]

namespace Lexeme

/-- A text that starts with a digit, or with a point and a digit, starts with a number. -/
theorem scan_of_starts [UnicodePrimitives] (context : Context) {t : Text} (h : Starts t) :
    scan context t = number t := by
  have hbegins : NumberLiteral.begins t := (begins_iff_starts t).mpr h
  have hname : ¬ Name.begins t := by
    obtain ⟨d, r, hd, rfl | rfl⟩ := h
    · rw [Opening.begins_name_iff]
      rintro (⟨rfl, -⟩ | hc)
      · simp at hd
      · simp [isDigit_of_isWordStart hc] at hd
    · have hpoint : isWordStart '.' = false := isWordStart_of_isAsciiMark (by decide)
      simp [Opening.begins_name_iff, hpoint]
  cases t with
  | nil => simp [NumberLiteral.begins] at hbegins
  | cons c t => rw [scan, scanCons, if_neg hname, if_pos hbegins]

theorem starts_of_kind [Primitives] {context : Context} {t : Text}
    (h : (scan context t).kind = .number) :
    Starts t := by
  have hne : (scan context t).kind ≠ .eof := by simp [h]
  obtain ⟨o, c, u, rfl, -, hfits, hkind⟩ := Opening.exists_of_kind hne
  rw [h] at hkind
  cases o with
  | number => exact (begins_iff_starts _).mp hfits
  | _ => simp [Opening.kinds] at hkind

/-- Question marks before a number are a token of their own. -/
theorem raw_scan_questions [UnicodePrimitives] (context : Context) {q v : Text}
    (hq : q ∈ questions) (hv : Starts v) :
    (scan context (q ++ v)).raw = q := by
  have hpunctuator := Punctuator.scan?_questions hq hv
  obtain ⟨t, ht⟩ : ∃ t, q ++ v = '?' :: t := by
    simp only [questions, List.mem_cons, List.not_mem_nil, or_false] at hq
    rcases hq with rfl | rfl
    · exact ⟨_, rfl⟩
    · exact ⟨_, rfl⟩
  have hquestion : isWordStart '?' = false := isWordStart_of_isAsciiMark (by decide)
  have hname : ¬ Name.begins ('?' :: t) := by simp [Opening.begins_name_iff, hquestion]
  have hnumber : ¬ NumberLiteral.begins ('?' :: t) := by simp [Opening.begins_number_iff]
  have hscan : scan context ('?' :: t) = mark '?' t := by
    rw [scan, scanCons, if_neg hname, if_neg hnumber]
    rfl
  rw [ht] at hpunctuator ⊢
  rw [hscan, mark, hpunctuator]
  exact raw_punctuator q

end Lexeme

namespace Lexer

variable {l l' : Lexer} {k : Token}

/-- A number that comes next is yielded at once. -/
theorem exists_next_number [UnicodePrimitives] (hf : l.finished = false)
    (hs : Starts l.reader.rest) :
    ∃ k l', l.next = some (k, l') ∧ k.kind = .number ∧ k.range.1 = l.reader.offset := by
  have hbegins := (begins_iff_starts _).mpr hs
  have hscan := Lexeme.scan_of_starts l.context hs
  obtain ⟨u, hu⟩ := Lexeme.scan_prefix l.context l.reader.rest
  have hcut : NextCut l [] (Lexeme.scan l.context l.reader.rest).raw u := by
    refine nextCut_of_text hu.symm .nil ?_ (by rw [hu])
    rw [hu]
    exact NumberLiteral.startsToken_of_begins hbegins
  have hkind : l.reading.lexeme.kind = .number := by
    rw [hcut.lexeme, hu, hscan]
    rfl
  have hcomment : l.reading.token.isComment = false :=
    decide_eq_false (p := l.reading.lexeme.kind = .comment) (by simp [hkind])
  refine ⟨_, _, next_of_yields hf (by simp [yields, hcomment]), hkind, ?_⟩
  exact hcut.offset_before.trans (Nat.add_zero _)

/-- A token is a number if and only if a digit, or a point and a digit, stands where it starts. It
is the longest literal there. Question marks before such a place are a token, and behind it comes
the number. -/
theorem numbers_longest [UnicodePrimitives] (t : Text) (o : Options) (w : Bool) (n : Nat)
    (h : ((start t o w).calls n).2.next = some (k, l')) : ∃ u : Text,
      (∃ p : Text, t = p ++ u ∧ p.utf8Size = k.range.1) ∧ (k.kind = .number ↔ Starts u) ∧
      (k.kind = .number → IsLongest k.raw u) ∧
      ∀ q ∈ questions, ∀ v : Text, u = q ++ v → Starts v → k.raw = q ∧
        ∃ k' l'', l'.next = some (k', l'') ∧ k'.kind = .number ∧ k'.range.1 = k.range.2 := by
  obtain ⟨u, context, hreads⟩ := exists_readsLexeme t o w n h
  have hkind : k.kind = (Lexeme.scan context u).kind := congrArg TokenValue.kind hreads.value
  refine ⟨u, hreads.place, ⟨fun hk => ?_, fun hs => ?_⟩, fun hk => ?_, fun q hq v hv hs => ?_⟩
  · exact Lexeme.starts_of_kind (hkind.symm.trans hk)
  · rw [hkind, Lexeme.scan_of_starts _ hs]
    rfl
  · have hs := Lexeme.starts_of_kind (hkind.symm.trans hk)
    rw [hreads.raw, Lexeme.scan_of_starts _ hs, Lexeme.raw_number]
    exact isLongest_extent hs
  · have hraw : k.raw = q := by rw [hreads.raw, hv, Lexeme.raw_scan_questions _ hq hs]
    have hrest : l'.reader.rest = v := by
      have htext := hreads.rest
      rw [hraw, hv] at htext
      exact (List.append_cancel_left htext).symm
    have hne : k.raw ≠ [] := by
      rw [hraw]
      rintro rfl
      simp [questions] at hq
    obtain ⟨k', l'', hnext, hnumber, hrange⟩ :=
      exists_next_number (hreads.finished hne) (hrest ▸ hs)
    exact ⟨hraw, k', l'', hnext, hnumber, hrange.trans hreads.offset⟩

/-- The letter behind the point is no part of the number, since no digit follows its sign. -/
theorem numbers_longest_of_sign : ∃ k l',
    ((start "x=1.e+?.5".toList {} false).calls 2).2.next = some (k, l') ∧
      k.kind = .number ∧ k.raw = "1.".toList ∧
      ∃ u : Text, (∃ p : Text, "x=1.e+?.5".toList = p ++ u ∧ p.utf8Size = k.range.1) ∧
        (k.kind = .number ↔ Starts u) ∧ (k.kind = .number → IsLongest k.raw u) ∧
        ∀ q ∈ questions, ∀ v : Text, u = q ++ v → Starts v → k.raw = q ∧
          ∃ k' l'', l'.next = some (k', l'') ∧ k'.kind = .number ∧ k'.range.1 = k.range.2 := by
  have hcall : ((start "x=1.e+?.5".toList {} false).calls 2).2.next.any fun (k, _) =>
      k.kind = .number && k.raw = "1.".toList := by
    decide +kernel
  obtain ⟨⟨k, l'⟩, h, hfacts⟩ := (Option.any_eq_true _ _).mp hcall
  simp only [Bool.and_eq_true, decide_eq_true_eq] at hfacts
  exact ⟨k, l', h, hfacts.1, hfacts.2, numbers_longest _ _ _ 2 h⟩

end Lexer

end EcmaLex
