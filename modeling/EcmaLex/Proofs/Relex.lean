import EcmaLex.Primitives.Standard
import EcmaLex.Proofs.LineBreak

/-!
# Lexing what was lexed

The significant tokens of a text, each put on a line of its own, are lexed as themselves. Where a
token ends is settled by the token, and a line feed is as good as whatever stood behind it.
-/

namespace EcmaLex

open Text (Echoes preamble)

namespace Lexeme

/-- A lexeme admits nothing or a line feed behind it, and nothing if nothing stood there before. -/
theorem admits_end [Primitives] {m : Lexeme} {u v : Text} (hv : v = [] ∨ ∃ t, v = '\n' :: t)
    (hu : u = [] → v = []) (hcr : m.raw.getLast? ≠ some '\r')
    (hcut : m.unclosed → m.kind = .template ∨ m.kind = .comment → u = []) : m.Admits u v where
  continues := {
    echoes := by
      rcases hv with rfl | ⟨t, rfl⟩
      · exact List.nil_prefix
      · exact List.nil_prefix
    lone := fun h hne => absurd (hu h) hne
    paired := fun _ _ => hcr }
  escape := by
    rcases hv with rfl | ⟨t, rfl⟩
    · simp
    · simp
  number := by
    intro hn hh
    rcases hv with rfl | ⟨t, rfl⟩
    · cases u with
      | nil => simp [NumberLiteral.begins] at hn
      | cons c u => simp at hh
    · cases u with
      | nil => simp [NumberLiteral.begins] at hn
      | cons c u =>
        obtain rfl : '\n' = c := by simpa using hh
        simp [Opening.begins_number_iff] at hn
  ends := by
    intro _
    rcases hv with rfl | ⟨t, rfl⟩
    · rfl
    · rfl
  cut := fun h hk => hu (hcut h hk)

theorem raw_scanCons_hash [UnicodePrimitives] (context : Context) (t : Text) :
    (scanCons context '#' t).raw = ['#'] := by
  have hw : isWordStart '#' = false := isWordStart_of_isAsciiMark (by decide)
  have hname : ¬ Name.begins ('#' :: t) := by simp [Opening.begins_name_iff, hw]
  have hnumber : ¬ NumberLiteral.begins ('#' :: t) := by simp [Opening.begins_number_iff]
  have hnone : Punctuator.scan? ('#' :: t) = none := by
    simp [Punctuator.scan?, Punctuator.isConditional, Punctuator.table, List.isPrefixOf]
  rw [scanCons, if_neg hname, if_neg hnumber]
  simp [mark, hnone, raw_unexpected]

end Lexeme

def onLines (ks : List Content) : Text := ['\n'].intercalate (ks.map Content.raw)

def linesBehind (ks : List Content) : Text := if ks = [] then [] else '\n' :: onLines ks

theorem onLines_cons (k : Content) (ks : List Content) :
    onLines (k :: ks) = k.raw ++ linesBehind ks := by
  cases ks with
  | nil => simp [onLines, linesBehind, List.intercalate_singleton]
  | cons k' ks =>
    rw [onLines, List.map_cons, List.map_cons, List.intercalate_cons_cons, linesBehind,
      if_neg (by simp), List.append_assoc, List.singleton_append]
    rfl

theorem linesBehind_cases (ks : List Content) :
    linesBehind ks = [] ∨ ∃ t, linesBehind ks = '\n' :: t := by
  unfold linesBehind
  split
  · exact .inl rfl
  · exact .inr ⟨_, rfl⟩

theorem echoes_linesBehind (ks : List Content) (u : Text) : Echoes (linesBehind ks) u := by
  rcases linesBehind_cases ks with h | ⟨t, h⟩
  · rw [h]
    exact List.nil_prefix
  · rw [h]
    exact List.nil_prefix

namespace Cuts

theorem behind_line [Primitives] {context : Context} {ks : List Content} {ns : List Lexeme}
    (h : Cuts context (onLines ks) ns) : Cuts context (linesBehind ks) ns := by
  unfold linesBehind
  split
  · rename_i hks
    rw [hks] at h
    exact h
  · exact h.gap (.char (by decide) .nil)

/-- The significant lexemes of a text are cut out of their own texts on lines again. -/
theorem relex [UnicodePrimitives] {context context' : Context} {t : Text} {ms : List Lexeme}
    (h : Cuts context t ms) (hcr : '\r' ∉ t) (hr : context.regexAllowed = context'.regexAllowed) :
    ∃ ns, Cuts context' (onLines ((ms.map Lexeme.content).filter (!·.isComment))) ns ∧
      ns.map Lexeme.content = (ms.map Lexeme.content).filter (!·.isComment) := by
  induction h generalizing context' with
  | done => exact ⟨[], .done .nil, rfl⟩
  | @more context g c a u ms hg hstart hraw h ih =>
    obtain ⟨m, hm⟩ : ∃ m, Lexeme.scanCons context c (a ++ u) = m := ⟨_, rfl⟩
    have hcru : '\r' ∉ u := fun hu => hcr (by simp [hu])
    rw [hm] at h ih hraw ⊢
    rw [List.map_cons]
    cases hk : m.content.isComment with
    | true =>
      rw [List.filter_cons_of_neg (by simp [hk])]
      have hcomment : m.kind = .comment := of_decide_eq_true hk
      -- A comment is dropped, and the context behind it is the one before it.
      refine ih hcru ?_
      rw [Context.behind, if_pos hcomment]
      exact hr
    | false =>
      rw [List.filter_cons_of_pos (by simp [hk])]
      obtain ⟨ks, hks⟩ : ∃ ks, (ms.map Lexeme.content).filter (!·.isComment) = ks := ⟨_, rfl⟩
      rw [hks] at ih ⊢
      -- In the new text a line feed stands behind the lexeme, or nothing if it is the last one.
      have hadmits : m.Admits u (linesBehind ks) := by
        refine Lexeme.admits_end (linesBehind_cases ks) ?_ ?_ ?_
        · rintro rfl
          rw [h.eq_nil] at hks
          rw [← hks]
          rfl
        · rw [hraw]
          intro hlast
          exact hcr (List.mem_append_right g (by
            rw [← List.cons_append]
            exact List.mem_append_left u (List.mem_of_getLast? hlast)))
        · rw [← hm] at hraw ⊢
          exact Lexeme.scanCons_eq_nil_of_unclosed hraw
      rw [← hm] at hadmits hraw ih ⊢
      have hcontent := Lexeme.scanCons_resume hr hraw hadmits
      have hraw' := (congrArg Content.raw hcontent).trans hraw
      have hstart' := startsToken_resume hstart (echoes_linesBehind ks u)
      obtain ⟨ns, hns, hmap⟩ := ih hcru (Context.regexAllowed_behind hr hcontent.symm)
      refine ⟨Lexeme.scanCons context' c (a ++ linesBehind ks) :: ns, ?_, ?_⟩
      · have hmore := Cuts.more .nil hstart' hraw' hns.behind_line
        have hline : (Lexeme.scanCons context c (a ++ u)).content.raw = c :: a := hraw
        rw [onLines_cons, hline]
        exact hmore
      · rw [List.map_cons, hcontent, hmap]

/-- Tokens on lines of their own start with no preamble. -/
theorem preamble_onLines [UnicodePrimitives] {context : Context} {t : Text} {ms : List Lexeme}
    (h : Cuts context t ms) :
    preamble (onLines ((ms.map Lexeme.content).filter (!·.isComment))) = [] := by
  induction h with
  | done => rfl
  | @more context g c a u ms hg hstart hraw h ih =>
    rw [List.map_cons]
    cases hk : (Lexeme.scanCons context c (a ++ u)).content.isComment with
    | true =>
      rw [List.filter_cons_of_neg (by simp [hk])]
      exact ih
    | false =>
      have hline : (Lexeme.scanCons context c (a ++ u)).content.raw = c :: a := hraw
      rw [List.filter_cons_of_pos (by simp [hk]), onLines_cons, hline]
      generalize (ms.map Lexeme.content).filter (!·.isComment) = ks
      apply Text.preamble_eq_nil
      · intro hb
        obtain rfl : c = byteOrderMark := by simpa using hb
        have hbom : CharClass.ofChar byteOrderMark ≠ .printable := by decide
        simp [startsToken, hbom] at hstart
      · rintro ⟨r, hbang⟩
        obtain ⟨rfl, hbang⟩ := List.cons.inj hbang
        rw [Lexeme.raw_scanCons_hash] at hraw
        obtain rfl : [] = a := (List.cons.inj hraw).2
        rcases linesBehind_cases ks with hnil | ⟨t, ht⟩
        · simp [hnil] at hbang
        · simp [ht] at hbang

end Cuts

/-- The significant tokens of a text, put on a line each, are lexed as themselves. -/
theorem Lexed.contents_lines [UnicodePrimitives] (t : Text) (o : Options) (hcr : '\r' ∉ t) :
    (lex (['\n'].intercalate (((lex t o).tokens.filter (!·.isEof)).map Token.raw)) o).tokens.map
        Token.content =
      ((lex t o).tokens.filter (!·.isEof)).map Token.content ++ [Lexeme.eof.content] := by
  obtain ⟨ms, hms, -⟩ := (Lexer.start t o false).exists_cuts rfl
  have hbody := contents_body (t := t) (o := o) hms
  have hraws : ((lex t o).tokens.filter (!·.isEof)).map Token.raw =
      ((ms.map Lexeme.content).filter (!·.isComment)).map Content.raw := by
    rw [← hbody, List.map_map]
    rfl
  obtain ⟨r, ht, hrest, -⟩ := Lexer.exists_rest t o false
  rw [hrest] at hms
  have hcr' : '\r' ∉ r := by
    rw [ht] at hcr
    exact fun hr => hcr (List.mem_append_right _ hr)
  have hallowed : (Lexer.start t o false).context.regexAllowed = ({} : Context).regexAllowed := rfl
  obtain ⟨ns, hns, hmap⟩ := hms.relex hcr' hallowed
  obtain ⟨r', ht', hrest', -⟩ :=
    Lexer.exists_rest (onLines ((ms.map Lexeme.content).filter (!·.isComment))) o false
  rw [hms.preamble_onLines, List.nil_append] at ht'
  rw [ht', ← hrest'] at hns
  rw [hraws]
  refine (contents_tokens hns).trans ?_
  rw [hmap, hbody, List.filter_filter]
  simp

/-- A name with half an escape, a condition before a number, and a string that is cut off behind a
continued line are lexed as themselves. -/
theorem Lexed.contents_lines_of_malformed :
    (lex (['\n'].intercalate (((lex "a\\u/*b*/?.5:1e'c\\\nd".toList {}).tokens.filter
        (!·.isEof)).map Token.raw)) {}).tokens.map Token.content =
      ((lex "a\\u/*b*/?.5:1e'c\\\nd".toList {}).tokens.filter (!·.isEof)).map Token.content ++
        [Lexeme.eof.content] ∧
    ((lex "a\\u/*b*/?.5:1e'c\\\nd".toList {}).tokens.map fun k => (k.kind, k.raw)) =
      [(.identifier, "a\\u".toList), (.punctuator, "?".toList), (.number, ".5".toList),
        (.punctuator, ":".toList), (.number, "1".toList), (.identifier, "e".toList),
        (.string, "'c\\\nd".toList), (.eof, [])] := by
  refine ⟨?_, by decide +kernel⟩
  apply contents_lines
  decide

end EcmaLex
