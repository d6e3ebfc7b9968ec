import EcmaLex.Primitives.Standard
import EcmaLex.Proofs.Cuts
import EcmaLex.Proofs.Preamble
import Mathlib.Data.List.Induction

/-!
# Line breaks

Whatever is broken in a text, the lexer recovers at the next line feed, unless a comment or a
template is still open there. So a text that is put on a new line is lexed as if it stood alone.
-/

namespace EcmaLex

open Text (Echoes)

theorem Text.echoes_line (u t : Text) : Echoes (u ++ '\n' :: t) u := by
  induction u with
  | nil => exact List.nil_prefix
  | cons c u ih => exact Text.echoes_cons ih

/-- What stands on one line is not cut by the line feed behind it. -/
theorem Text.prefix_of_prefix_line {p u t : Text} (hp : '\n' ∉ p) (h : p <+: u ++ '\n' :: t) :
    p <+: u := by
  induction u generalizing p with
  | nil =>
    cases p with
    | nil => exact List.nil_prefix
    | cons c p => simp [(List.cons_prefix_cons.mp h).1] at hp
  | cons c u ih =>
    cases p with
    | nil => exact List.nil_prefix
    | cons d p =>
      rw [List.cons_append, List.cons_prefix_cons] at h
      exact List.cons_prefix_cons.mpr ⟨h.1, ih (fun hn => hp (List.mem_cons_of_mem _ hn)) h.2⟩

theorem NumberLiteral.begins_append {u : Text} (h : begins u) (v : Text) : begins (u ++ v) := by
  match u with
  | [] => simp [begins] at h
  | [c] =>
    have hc : c.isDigit := by simpa [begins] using h
    simp [Opening.begins_number_iff, hc]
  | c :: d :: u => simpa [Opening.begins_number_iff] using h

theorem Text.getLast?_ne_of_append {s t : Text} {c : Char} (h : (s ++ t).getLast? ≠ some c) :
    t.getLast? ≠ some c := by
  intro ht
  exact h (by rw [List.getLast?_append, ht, Option.some_or])

/-- A lexeme admits a line feed behind the end of its text if it is not open there. -/
theorem Lexeme.admits_line [Primitives] {m : Lexeme} {u : Text} (t : Text)
    (hlast : u = [] → m.raw.getLast? ≠ some '\\' ∧ m.raw.getLast? ≠ some '\r')
    (hcut : m.unclosed → m.kind ≠ .comment ∧ m.kind ≠ .template) :
    m.Admits u (u ++ '\n' :: t) where
  continues := {
    echoes := Text.echoes_line u t
    lone := fun hu _ => (hlast hu).1
    paired := by
      intro hv hu
      cases u with
      | nil => exact (hlast rfl).2
      | cons c u => exact absurd hv hu }
  escape := fun he => NamePart.begins_of_prefix (Text.prefix_of_prefix_line (by decide) he)
  number := fun h _ => NumberLiteral.begins_append h _
  ends := by
    intro h
    cases u with
    | nil => rfl
    | cons c u => exact h
  cut := by
    intro hu hk
    obtain ⟨hcomment, htemplate⟩ := hcut hu
    exact absurd hk (by simp [hcomment, htemplate])

/-- The last significant lexeme of a text settles whether a slash opens a regular expression. -/
theorem Context.regexAllowed_foldl_behind {context : Context} {ms : List Lexeme}
    (hc : context.regexAllowed)
    (h : ∀ k, ((ms.map Lexeme.content).filter (!·.isComment)).getLast? = some k →
      (({} : Context).update k.kind k.raw).regexAllowed) :
    (ms.foldl behind context).regexAllowed := by
  induction ms using List.reverseRecOn with
  | nil => exact hc
  | append_singleton ms m ih =>
    rw [List.map_append, List.filter_append] at h
    rw [List.foldl_append, List.foldl_cons, List.foldl_nil, behind]
    by_cases hk : m.kind = .comment
    · have hm : [m.content].filter (!·.isComment) = [] :=
        List.filter_cons_of_neg (by simp [Content.isComment, Lexeme.content, hk])
      rw [if_pos hk]
      apply ih
      intro k hlast
      apply h
      rwa [List.map_singleton, hm, List.append_nil]
    · have hm : [m.content].filter (!·.isComment) = [m.content] :=
        List.filter_cons_of_pos (by simp [Content.isComment, Lexeme.content, hk])
      rw [if_neg hk]
      apply h m.content
      rw [List.map_singleton, hm, List.getLast?_concat]

namespace Cuts

/-- The cut of a text goes on behind a line feed, in the contents, as a cut of what follows does. -/
theorem append_line [UnicodePrimitives] {context : Context} {s t : Text} {ms ns : List Lexeme}
    (hs : Cuts context s ms) (hlast : s.getLast? ≠ some '\\' ∧ s.getLast? ≠ some '\r')
    (hcut : ∀ m ∈ ms, m.unclosed → m.kind ≠ .comment ∧ m.kind ≠ .template)
    (hslash : (ms.foldl Context.behind context).regexAllowed) (ht : Cuts {} t ns) :
    ∃ js, Cuts context (s ++ '\n' :: t) js ∧
      js.map Lexeme.content = ms.map Lexeme.content ++ ns.map Lexeme.content := by
  induction hs with
  | @done context g hg =>
    -- Behind all lexemes the context agrees with the one that a text starts in.
    have hallowed : ({} : Context).regexAllowed = context.regexAllowed := hslash.symm
    obtain ⟨js, hjs, hmap⟩ := ht.congr hallowed
    refine ⟨js, ?_, hmap⟩
    have hline : Skippable ['\n'] := .char (by decide) .nil
    exact (hjs.gap hline).gap hg
  | @more context g c a u ms hg hstart hraw h ih =>
    have happ : g ++ c :: (a ++ u) = g ++ c :: a ++ u := by simp
    have hadmits : (Lexeme.scanCons context c (a ++ u)).Admits u (u ++ '\n' :: t) := by
      refine Lexeme.admits_line t ?_ (hcut _ List.mem_cons_self)
      rintro rfl
      rw [hraw]
      rw [List.append_nil] at hlast
      exact hlast.imp Text.getLast?_ne_of_append Text.getLast?_ne_of_append
    rw [happ] at hlast
    obtain ⟨js, hjs, hmap⟩ := ih
      (hlast.imp Text.getLast?_ne_of_append Text.getLast?_ne_of_append)
      (fun n hn => hcut n (List.mem_cons_of_mem _ hn)) hslash
    have hcontent := Lexeme.scanCons_resume rfl hraw hadmits
    have hstart' := startsToken_resume hstart (Text.echoes_line u t)
    have hraw' := (congrArg Content.raw hcontent).trans hraw
    rw [← context.behind_congr hcontent] at hjs
    refine ⟨Lexeme.scanCons context c (a ++ (u ++ '\n' :: t)) :: js, ?_, ?_⟩
    · have hmore := Cuts.more hg hstart' hraw' hjs
      rw [List.append_assoc, List.cons_append, List.append_assoc]
      exact hmore
    · rw [List.map_cons, List.map_cons, hcontent, hmap, List.cons_append]

end Cuts

theorem Lexer.exists_token_of_mem [Primitives] {t : Text} {o : Options} {ms : List Lexeme}
    {m : Lexeme}
    (hms : Cuts {} (start t o true).reader.rest ms) (hm : m ∈ ms) :
    ∃ k ∈ (start t o true).tokens.1, k.content = m.content := by
  have hmem : m.content ∈ (start t o true).tokens.1.map Token.content := by
    rw [contents_tokens (l := start t o true) rfl hms]
    apply List.mem_append_left
    exact List.mem_filter.mpr ⟨List.mem_map_of_mem hm, rfl⟩
  exact List.mem_map.mp hmem

namespace Lexed

/-- The tokens of a text on a new line follow those of the text before it. -/
theorem contents_append_line [UnicodePrimitives] (s t : Text) (o : Options)
    (hcut : ∀ k ∈ (Lexer.start s o true).tokens.1, k.unclosed →
      k.kind ≠ .comment ∧ k.kind ≠ .template)
    (hlast : s.getLast? ≠ some '\\' ∧ s.getLast? ≠ some '\r')
    (hslash : ∀ k, ((lex s o).tokens.filter (!·.isEof)).getLast? = some k →
      (({} : Context).update k.kind k.raw).regexAllowed)
    (hstart : t.head? ≠ some byteOrderMark ∧ ¬ ['#', '!'] <+: t) :
    (lex (s ++ '\n' :: t) o).tokens.map Token.content =
      ((lex s o).tokens.filter (!·.isEof)).map Token.content ++
        (lex t o).tokens.map Token.content := by
  obtain ⟨r, hs, hrest, -⟩ := Lexer.exists_rest s o true
  obtain ⟨r', ht, hrest', -⟩ := Lexer.exists_rest t o false
  obtain ⟨x, hx, hrestx, -⟩ := Lexer.exists_rest (s ++ '\n' :: t) o false
  obtain rfl : r' = t := by
    rw [Text.preamble_eq_nil hstart.1 hstart.2] at ht
    exact ht.symm
  obtain rfl : x = r ++ '\n' :: r' := by
    rw [Text.preamble_append_line] at hx
    refine List.append_cancel_left (hx.symm.trans ?_)
    rw [← List.append_assoc, ← hs]
  obtain ⟨ms, hms, -⟩ := (Lexer.start s o true).exists_cuts rfl
  obtain ⟨ns, hns, -⟩ := (Lexer.start r' o false).exists_cuts rfl
  have hbody := contents_body (t := s) (o := o) hms
  have hcut' : ∀ m ∈ ms, m.unclosed → m.kind ≠ .comment ∧ m.kind ≠ .template := by
    intro m hm
    obtain ⟨k, hk, heq⟩ := Lexer.exists_token_of_mem hms hm
    have hkind : k.kind = m.kind := congrArg Content.kind heq
    have hunclosed : k.unclosed = m.unclosed := congrArg Content.unclosed heq
    rw [← hkind, ← hunclosed]
    exact hcut k hk
  have hslash' : (ms.foldl Context.behind {}).regexAllowed := by
    apply Context.regexAllowed_foldl_behind rfl
    intro k hk
    rw [← hbody, List.getLast?_map, Option.map_eq_some_iff] at hk
    obtain ⟨k', hk', rfl⟩ := hk
    exact hslash k' hk'
  have hlast' : r.getLast? ≠ some '\\' ∧ r.getLast? ≠ some '\r' := by
    rw [hs] at hlast
    exact hlast.imp Text.getLast?_ne_of_append Text.getLast?_ne_of_append
  rw [hrest] at hms
  obtain ⟨js, hjs, hmap⟩ := hms.append_line hlast' hcut' hslash' (hrest' ▸ hns)
  rw [contents_tokens (hrestx ▸ hjs), contents_tokens hns, hmap, List.filter_append, hbody,
    List.append_assoc]

/-- A string, a class and a comment that are cut off on lines of their own do not reach the last
line, on which a slash opens a regular expression. -/
theorem contents_append_line_of_broken_lines :
    (lex ("x = 'a\n+ /[b\n* // c".toList ++ '\n' :: "/d/g.e".toList) {}).tokens.map Token.content =
      ((lex "x = 'a\n+ /[b\n* // c".toList {}).tokens.filter (!·.isEof)).map Token.content ++
        (lex "/d/g.e".toList {}).tokens.map Token.content ∧
    ((lex "x = 'a\n+ /[b\n* // c".toList {}).tokens.map fun k => (k.kind, k.raw)) =
      [(.identifier, "x".toList), (.punctuator, "=".toList), (.string, "'a".toList),
        (.punctuator, "+".toList), (.regex, "/[b".toList), (.punctuator, "*".toList), (.eof, [])] ∧
    ((lex "/d/g.e".toList {}).tokens.map fun k => (k.kind, k.raw)) =
      [(.regex, "/d/g".toList), (.punctuator, ".".toList), (.identifier, "e".toList),
        (.eof, [])] := by
  refine ⟨?_, by decide +kernel, by decide +kernel⟩
  apply contents_append_line
  · decide +kernel
  · decide
  · change ∀ k ∈ ((lex "x = 'a\n+ /[b\n* // c".toList {}).tokens.filter (!·.isEof)).getLast?, _
    decide +kernel
  · decide +kernel

end Lexed

end EcmaLex
