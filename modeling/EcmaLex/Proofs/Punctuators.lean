import EcmaLex.Primitives.Standard
import EcmaLex.Proofs.Preamble
import EcmaLex.Proofs.Respelling
import Mathlib.Data.List.Infix

/-!
# Punctuators as long as can be

A punctuator is the longest entry of the table that the text has at its place, except that the mark
of an optional chain is not offered before a digit. Any other token takes up all that the table
offers where it starts, so that no two tokens with nothing between them split a punctuator.
-/

namespace EcmaLex

namespace Punctuator

/-- An entry of the table that a text starts with. The mark of an optional chain does not count
before a digit. -/
structure Offered (q t : Text) : Prop where
  mem : q ∈ table
  isPrefix : q <+: t
  unconditional : q = ['?', '.'] → ∀ d ∈ t[2]?, d.isDigit = false

structure IsLongest (raw t : Text) : Prop where
  offered : Offered raw t
  longest : ∀ q, Offered q t → q.length ≤ raw.length

variable {p q t : Text} {c d : Char}

theorem pairwise_table : table.Pairwise fun p q => q.length ≤ p.length := by decide

/-- No entry of the table starts as a name, a decimal literal, a string or a template does. -/
theorem exists_cons_of_mem_table [UnicodePrimitives] (h : q ∈ table) : ∃ c r, q = c :: r ∧
    isWordStart c = false ∧ c.isDigit = false ∧ c ∉ ['\\', '"', '\'', '\x60'] := by
  have hall : table.all fun q => q.head?.any fun c =>
      isAsciiMark c && !c.isDigit && decide (c ∉ ['\\', '"', '\'', '\x60']) := by decide
  have hq := List.all_eq_true.mp hall q h
  cases q with
  | nil => simp at hq
  | cons c r =>
    simp only [List.head?_cons, Option.any_some, Bool.and_eq_true, Bool.not_eq_true',
      decide_eq_true_eq] at hq
    exact ⟨c, r, rfl, isWordStart_of_isAsciiMark hq.1.1, hq.1.2, hq.2⟩

namespace Offered

theorem exists_cons [UnicodePrimitives] (h : Offered q (c :: t)) :
    isWordStart c = false ∧ c.isDigit = false ∧ c ∉ ['\\', '"', '\'', '\x60'] := by
  obtain ⟨e, r, rfl, hstart⟩ := exists_cons_of_mem_table h.mem
  obtain ⟨v, hv⟩ := h.isPrefix
  rw [List.cons_append] at hv
  exact (List.cons.inj hv).1 ▸ hstart

theorem take_two (h : Offered q (c :: d :: t)) (hlen : 2 ≤ q.length) : q.take 2 = [c, d] := by
  have htake : q.take 2 <+: [c, d] := List.IsPrefix.take h.isPrefix 2
  exact htake.eq_of_length (by simp [hlen])

/-- The pairs that open another lexeme start no entry. -/
theorem length_le_one_of_isPair (h : Offered q (c :: d :: t)) (hp : Opening.isPair c d) :
    q.length ≤ 1 := by
  have hall : table.all fun q => q.head?.all fun c => q[1]?.all fun d =>
      !Opening.isPair c d := by decide +kernel
  by_contra hlen
  have hq := List.all_eq_true.mp hall q h.mem
  have htake := h.take_two (by omega)
  obtain ⟨e, q, rfl⟩ := List.exists_cons_of_length_pos (l := q) (by omega)
  obtain ⟨f, r, rfl⟩ := List.exists_cons_of_ne_nil (l := q) (by simpa using hlen)
  obtain ⟨rfl, rfl⟩ : e = c ∧ f = d := by simpa using htake
  simp [hp] at hq

theorem not_isConditional (h : Offered ['?', '.'] t) : isConditional t = false := by
  rw [Bool.eq_false_iff]
  intro hc
  obtain ⟨d, r, rfl, hd⟩ := isConditional_iff.mp hc
  simp [h.unconditional rfl d rfl] at hd

theorem eq_question (h : Offered q t) (hc : isConditional t) : q = ['?'] := by
  have hentries : ∀ p ∈ table, p.take 2 <+: ['?', '.'] → p = ['?'] ∨ p = ['?', '.'] := by decide
  obtain ⟨d, r, rfl, -⟩ := isConditional_iff.mp hc
  rcases hentries q h.mem (List.IsPrefix.take h.isPrefix 2) with hq | rfl
  · exact hq
  · simp [h.not_isConditional] at hc

end Offered

theorem offered_of_find? (hc : ¬ isConditional t) (h : p ∈ table) (ht : p <+: t) :
    Offered p t where
  mem := h
  isPrefix := ht
  unconditional := by
    rintro rfl d hd
    obtain ⟨r, rfl⟩ := ht
    have hhead : r.head? = some d := by simpa [List.head?_eq_getElem?] using hd
    obtain ⟨r, rfl⟩ := List.head?_eq_some_iff.mp hhead
    rw [Bool.eq_false_iff]
    exact fun hdigit => hc hdigit

theorem length_le_of_find? {ps : List Text} (hps : ps.Pairwise fun p q => q.length ≤ p.length)
    (h : ps.find? (·.isPrefixOf t) = some p) (hq : q ∈ ps) (ht : q <+: t) :
    q.length ≤ p.length := by
  obtain ⟨-, before, after, rfl, hbefore⟩ := List.find?_eq_some_iff_append.mp h
  rcases List.mem_append.mp hq with hq | hq
  · have hstarts := hbefore q hq
    simp [List.isPrefixOf_iff_prefix.mpr ht] at hstarts
  rcases List.mem_cons.mp hq with rfl | hq
  · exact Nat.le_refl _
  · exact List.rel_of_pairwise_cons (List.pairwise_append.mp hps).2.1 hq

theorem isLongest_scan? (h : scan? t = some p) : IsLongest p t := by
  unfold scan? at h
  split at h
  · rename_i hc
    obtain rfl := Option.some.inj h
    obtain ⟨d, r, rfl, -⟩ := isConditional_iff.mp hc
    exact {
      offered := { mem := by decide, isPrefix := ⟨_, rfl⟩, unconditional := by simp }
      longest := fun q hq => by rw [hq.eq_question hc] }
  · rename_i hc
    have hp := List.find?_some h
    have hstarts := List.isPrefixOf_iff_prefix.mp hp
    refine ⟨offered_of_find? hc (List.mem_of_find?_eq_some h) hstarts, fun q hq => ?_⟩
    exact length_le_of_find? pairwise_table h hq.mem hq.isPrefix

theorem not_offered_of_scan? (h : scan? t = none) : ¬ Offered q t := by
  intro hq
  unfold scan? at h
  split at h
  · simp at h
  · exact List.find?_eq_none.mp h q hq.mem (List.isPrefixOf_iff_prefix.mpr hq.isPrefix)

end Punctuator

open Punctuator

/-- A pattern takes up the sign that it starts with. -/
theorem Lexeme.length_regex [Primitives] (t : Text) : 2 ≤ (regex ('=' :: t)).raw.length := by
  obtain ⟨pattern, r, ht, hp, hr⟩ := regex_cases ('=' :: t)
  have hpattern : 0 < pattern.length := by
    rw [List.length_pos_iff]
    rintro rfl
    obtain rfl : '=' :: t = r := ht
    rcases hr with ⟨r, hr⟩ | hr
    · simp at hr
    · simp [Text.endsLine, isLineTerminator] at hr
  rw [ht] at hp ⊢
  rcases hr with ⟨r, rfl⟩ | hr
  · rw [(regex_closed hp).2.1, List.length_cons, List.length_append]
    omega
  · rw [(regex_unclosed hr hp).2.1, List.length_cons]
    omega

/-- A lexeme is at least as long as all that the table offers where it starts. -/
theorem Opening.length_le_of_offered [UnicodePrimitives] {o : Opening} {context : Context}
    {c : Char} {q t : Text}
    (hfits : o.Fits c t) (hne : (o.lexeme context c t).raw ≠ []) (h : Offered q (c :: t)) :
    q.length ≤ (o.lexeme context c t).raw.length := by
  have hpos := List.length_pos_iff.mpr hne
  obtain ⟨hword, hdigit, hquote⟩ := h.exists_cons
  have hpair : (∃ d, t.head? = some d ∧ isPair c d) →
      q.length ≤ (o.lexeme context c t).raw.length := by
    rintro ⟨d, ht, hd⟩
    obtain ⟨t, rfl⟩ := List.head?_eq_some_iff.mp ht
    exact (h.length_le_one_of_isPair hd).trans hpos
  -- No entry of the table starts like a name, a number or a quoted literal. Of those that start
  -- like a comment or like a number with a point, none is longer than one character.
  cases o with
  | name =>
    rcases (begins_name_iff c t).mp hfits with ⟨rfl, -⟩ | hc
    · simp at hquote
    · simp [hc] at hword
  | number =>
    rcases (begins_number_iff c t).mp hfits with ⟨rfl, d, ht, hd⟩ | hc
    · exact hpair ⟨d, ht, by simp [isPair, hd]⟩
    · simp [hc] at hdigit
  | string => rcases hfits with rfl | rfl <;> simp at hquote
  | template =>
    obtain rfl := hfits
    simp at hquote
  | lineComment =>
    obtain ⟨rfl, ht⟩ := hfits
    exact hpair ⟨'/', ht, by decide⟩
  | blockComment =>
    obtain ⟨rfl, ht⟩ := hfits
    exact hpair ⟨'*', ht, by decide⟩
  | regex =>
    obtain rfl : c = '/' := hfits
    have hentries : ∀ p ∈ table, p.take 1 <+: ['/'] → p = ['/'] ∨ p = ['/', '='] := by decide
    rcases hentries q h.mem (List.IsPrefix.take h.isPrefix 1) with rfl | rfl
    · exact hpos
    · obtain ⟨v, hv⟩ := h.isPrefix
      obtain rfl : t = '=' :: v := by simpa using hv.symm
      exact Lexeme.length_regex v
  | mark =>
    show q.length ≤ (Lexeme.mark c t).raw.length
    unfold Lexeme.mark
    split
    · rename_i p hp
      rw [Lexeme.raw_punctuator]
      exact (isLongest_scan? hp).longest q h
    · rename_i hp
      exact absurd h (not_offered_of_scan? hp)

namespace Lexeme

theorem length_le_of_offered [UnicodePrimitives] {context : Context} {q t : Text}
    (h : Offered q t) :
    q.length ≤ (scan context t).raw.length := by
  cases t with
  | nil =>
    obtain ⟨c, r, rfl, -⟩ := exists_cons_of_mem_table h.mem
    have hnil := h.isPrefix
    simp at hnil
  | cons c t =>
    have hne := raw_scanCons_ne_nil context c t
    rw [Opening.lexeme_of] at hne
    rw [scan, Opening.lexeme_of]
    exact Opening.length_le_of_offered (Opening.fits_of _ c t) hne h

/-- A punctuator that is not malformed is the longest one that is offered. -/
theorem isLongest_of_kind [Primitives] {context : Context} {t : Text}
    (hkind : (scan context t).kind = .punctuator) (hm : (scan context t).malformed = false) :
    IsLongest (scan context t).raw t := by
  have hne : (scan context t).kind ≠ .eof := by simp [hkind]
  obtain ⟨o, c, u, rfl, hscan, -, hmem⟩ := Opening.exists_of_kind hne
  rw [hkind] at hmem
  rw [hscan] at hm ⊢
  cases o with
  | mark =>
    simp only [Opening.lexeme, mark] at hm ⊢
    split at hm
    · rename_i p hp
      rw [raw_punctuator]
      exact isLongest_scan? hp
    · simp [unexpected] at hm
  | _ => simp [Opening.kinds] at hmem

end Lexeme

namespace Lexer

/-- The range of a token has the size of its text. -/
theorem stop_of_mem_readings [Primitives] {l : Lexer} :
    ∀ s ∈ l.readings, s.token.range.2 = s.token.range.1 + s.token.raw.utf8Size := by
  induction l using readings_induction with
  | finished l h => simp [readings_of_finished h]
  | reading l h ih =>
    obtain ⟨g, w, u, hc⟩ := exists_nextCut l
    have hstart : l.reading.token.range.1 = l.reader.offset + g.utf8Size := hc.offset_before
    have hstop : l.reading.token.range.2 = l.reader.offset + g.utf8Size + w.utf8Size :=
      hc.offset_after
    have hraw : l.reading.token.raw = w := hc.raw
    rw [readings_of_not_finished h]
    refine List.forall_mem_cons.mpr ⟨?_, ih⟩
    rw [hstop, hstart, hraw]

/-- A token of a run stands in the text where its range says, and is what is scanned there. -/
theorem exists_place_of_mem [Primitives] {t : Text} {o : Options} {w : Bool} {k : Token}
    (h : k ∈ (start t o w).tokens.1) : ∃ p u context, t = p ++ (k.raw ++ u) ∧
      k.range = (p.utf8Size, (p ++ k.raw).utf8Size) ∧
      k.content = (Lexeme.scan context (k.raw ++ u)).content := by
  obtain ⟨before, after, htokens⟩ := List.append_of_mem h
  obtain ⟨rs, s, rs', hreadings, -, rfl, -, -⟩ := exists_readings_of_tokens htokens
  obtain ⟨p, u, hs⟩ := exists_readsAt hreadings
  obtain ⟨r, ht, hrest, hoffset⟩ := exists_rest t o w
  have hmem : s ∈ (start t o w).readings := by
    rw [hreadings]
    exact List.mem_append_right _ List.mem_cons_self
  have hstart : s.token.range.1 = (t.preamble ++ p).utf8Size := by
    rw [hs.start, hoffset, Text.utf8Size_append]
  refine ⟨t.preamble ++ p, u, _, ?_, Prod.ext hstart ?_, congrArg Lexeme.content hs.lexeme⟩
  · have htext : p ++ (s.token.raw ++ u) = r := hs.text.symm.trans hrest
    rw [List.append_assoc, htext]
    exact ht
  · rw [stop_of_mem_readings s hmem, hstart, Text.utf8Size_append _ s.token.raw]

/-- Two tokens of a run with nothing between them stand in the text one behind the other. -/
theorem exists_place_of_adjacent [Primitives] {t : Text} {o : Options} {w : Bool} {k k' : Token}
    (hk : k ∈ (start t o w).tokens.1) (hk' : k' ∈ (start t o w).tokens.1)
    (h : k.range.2 = k'.range.1) : ∃ p u context, t = p ++ (k.raw ++ (k'.raw ++ u)) ∧
      p.utf8Size = k.range.1 ∧
      k.content = (Lexeme.scan context (k.raw ++ (k'.raw ++ u))).content := by
  obtain ⟨p, u, context, ht, hrange, hcontent⟩ := exists_place_of_mem hk
  obtain ⟨p', u', -, ht', hrange', -⟩ := exists_place_of_mem hk'
  rw [hrange, hrange'] at h
  have hsplit : (p ++ k.raw) ++ u = p' ++ (k'.raw ++ u') := by rw [List.append_assoc, ← ht, ht']
  obtain ⟨-, rfl⟩ := Text.append_inj_of_utf8Size hsplit h
  exact ⟨p, u', context, ht, by rw [hrange], hcontent⟩

/-- Every punctuator of a text that is not malformed is the longest one that stands at its place,
and no two tokens with nothing between them split a punctuator that starts where the first one
does. -/
theorem punctuators_longest [UnicodePrimitives] (t : Text) (o : Options) (w : Bool) :
    (∀ k ∈ (start t o w).tokens.1, k.kind = .punctuator → k.malformed = false →
      ∃ p u, t = p ++ (k.raw ++ u) ∧ p.utf8Size = k.range.1 ∧ IsLongest k.raw (k.raw ++ u)) ∧
    ∀ k ∈ (start t o w).tokens.1, ∀ k' ∈ (start t o w).tokens.1, k.range.2 = k'.range.1 →
      ∃ p u, t = p ++ (k.raw ++ (k'.raw ++ u)) ∧ p.utf8Size = k.range.1 ∧
        ∀ q, Offered q (k.raw ++ (k'.raw ++ u)) → q.length ≤ k.raw.length := by
  constructor
  · intro k hk hkind hm
    obtain ⟨p, u, context, ht, hrange, hcontent⟩ := exists_place_of_mem hk
    have hraw : k.raw = (Lexeme.scan context (k.raw ++ u)).raw := congrArg Content.raw hcontent
    have hlongest : IsLongest (Lexeme.scan context (k.raw ++ u)).raw (k.raw ++ u) :=
      Lexeme.isLongest_of_kind ((congrArg Content.kind hcontent).symm.trans hkind)
        ((congrArg Content.malformed hcontent).symm.trans hm)
    rw [← hraw] at hlongest
    exact ⟨p, u, ht, by rw [hrange], hlongest⟩
  · intro k hk k' hk' h
    obtain ⟨p, u, context, ht, hstart, hcontent⟩ := exists_place_of_adjacent hk hk' h
    refine ⟨p, u, ht, hstart, fun q hq => ?_⟩
    have hraw : k.raw = _ := congrArg Content.raw hcontent
    exact (Lexeme.length_le_of_offered hq).trans_eq (congrArg List.length hraw).symm

/-- The question mark before a number that starts with a point is as long as can be, and splits no
mark of an optional chain. -/
theorem punctuators_longest_of_conditional :
    let ts := (start "a?.5:b".toList {} true).tokens.1
    ∃ k ∈ ts, ∃ k' ∈ ts, k.raw = ['?'] ∧ k'.raw = ['.', '5'] ∧
      (k.kind = .punctuator ∧ k.malformed = false ∧ k.range.2 = k'.range.1) ∧
      (∃ p u : Text, "a?.5:b".toList = p ++ (k.raw ++ u) ∧ p.utf8Size = k.range.1 ∧
        IsLongest k.raw (k.raw ++ u)) ∧
      ∃ p u : Text, "a?.5:b".toList = p ++ (k.raw ++ (k'.raw ++ u)) ∧ p.utf8Size = k.range.1 ∧
        ∀ q, Offered q (k.raw ++ (k'.raw ++ u)) → q.length ≤ k.raw.length := by
  intro ts
  obtain ⟨k, hk, hraw, hkind, hm, hrange⟩ : ∃ k ∈ ts, k.raw = ['?'] ∧ k.kind = .punctuator ∧
      k.malformed = false ∧ k.range.2 = 2 := by decide +kernel
  obtain ⟨k', hk', hraw', hrange'⟩ : ∃ k ∈ ts, k.raw = ['.', '5'] ∧ k.range.1 = 2 := by
    decide +kernel
  have hadjacent : k.range.2 = k'.range.1 := hrange.trans hrange'.symm
  obtain ⟨hlongest, hsplit⟩ := punctuators_longest "a?.5:b".toList {} true
  exact ⟨k, hk, k', hk', hraw, hraw', ⟨hkind, hm, hadjacent⟩, hlongest k hk hkind hm,
    hsplit k hk k' hk' hadjacent⟩

end Lexer

end EcmaLex
