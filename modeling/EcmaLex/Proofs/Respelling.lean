import EcmaLex.Primitives.Standard
import EcmaLex.Proofs.Place
import EcmaLex.Proofs.Tiling

/-!
# Respelling a name

A name in a text may be spelled in another way. The rest of the text is then read as before, unless
a token before the name takes up what the new spelling starts with, as a number does that becomes
one with an exponent, or a slash comes next: the text of a keyword, and not its word, says whether
it is a value.
-/

namespace EcmaLex

theorem Text.append_inj_of_utf8Size {s t s' t' : Text} (h : s ++ t = s' ++ t')
    (hs : s.utf8Size = s'.utf8Size) : s = s' ∧ t = t' := by
  have hsplit := splitAtByte_append s t
  rw [h, hs, splitAtByte_append] at hsplit
  obtain ⟨rfl, rfl⟩ := Prod.mk.inj (Option.some.inj hsplit)
  exact ⟨rfl, rfl⟩

def TokenValue.Names (v : TokenValue) (word : Text) : Prop :=
  v = .identifier word ∨ v = .keyword word

theorem Name.eq_of_names {word word' : Text} (h : (Name.value word).Names word') :
    word' = word := by
  unfold value at h
  split at h
  · simpa [TokenValue.Names, eq_comm] using h
  · simpa [TokenValue.Names, eq_comm] using h

theorem Opening.eq_name_of_names [Primitives] {o : Opening} {context : Context} {c : Char}
    {t word : Text}
    (h : (o.lexeme context c t).value.Names word) : o = .name := by
  have hkinds := kind_mem_kinds context c t o
  have hk : (o.lexeme context c t).kind = .identifier ∨ (o.lexeme context c t).kind = .keyword :=
    h.imp (congrArg TokenValue.kind) (congrArg TokenValue.kind)
  cases o with
  | name => rfl
  | _ => rcases hk with hk | hk <;> simp [hk, kinds] at hkinds

/-- A lexeme with `u` behind it is the name of a word, spelled by its text, and no name goes on
there. -/
structure Lexeme.IsNameOf [Primitives] (m : Lexeme) (word u : Text) : Prop where
  isWord : isWord word
  spells : Spells m.raw word
  content : m.content = Name.content word m.raw
  begins : Name.begins (m.raw ++ u)
  ends : NamePart.begins u = false

/-- A lexeme that names a word, and is not malformed, is the name of the word. -/
theorem Lexer.ReadsAt.isNameOf [UnicodePrimitives] {l : Lexer} {rs rs' : List Reading}
    {s : Reading} {p u word : Text} (h : ReadsAt l rs s rs' p u)
    (hs : s.lexeme.value.Names word) (hm : s.lexeme.malformed = false) :
    s.lexeme.IsNameOf word u := by
  have hlexeme := h.lexeme
  obtain ⟨context, hcontext⟩ :
      ∃ context, (rs.map Reading.lexeme).foldl Context.behind l.context = context := ⟨_, rfl⟩
  rw [hcontext] at hlexeme
  cases hraw : s.lexeme.raw with
  | nil =>
    rw [hraw, h.eof hraw] at hlexeme
    simp [hlexeme, Lexeme.scan, Lexeme.eof, TokenValue.Names] at hs
  | cons c a =>
    rw [hraw, List.cons_append, Lexeme.scan, Opening.lexeme_of] at hlexeme
    have hfits := Opening.fits_of context.regexAllowed c (a ++ u)
    have ho := Opening.eq_name_of_names (hlexeme ▸ hs)
    rw [ho] at hfits hlexeme
    rw [hlexeme] at hs hm hraw ⊢
    obtain ⟨word', hword, hspells, hcontent, hends⟩ := Lexeme.exists_word hfits hraw hm
    have hvalue : ((Opening.name).lexeme context c (a ++ u)).value = Name.value word' :=
      congrArg Content.value hcontent
    obtain rfl := Name.eq_of_names (hvalue ▸ hs)
    exact ⟨hword, hraw ▸ hspells, hraw ▸ hcontent, hraw ▸ hfits, hends⟩

theorem Lexer.ReadsAt.raw_ne_nil [Primitives] {l : Lexer} {rs rs' : List Reading}
    {s : Reading} {p u word : Text} (h : ReadsAt l rs s rs' p u)
    (hname : s.lexeme.IsNameOf word u) : s.lexeme.raw ≠ [] := by
  intro hnil
  have hbegins := hname.begins
  simp [hnil, h.eof hnil, Name.begins] at hbegins

theorem Lexeme.content_scan_spelling [UnicodePrimitives] (context : Context) {raw word u : Text}
    (h : Spells raw word)
    (hw : isWord word) (hu : NamePart.begins u = false) :
    (scan context (raw ++ u)).content = Name.content word raw := by
  rw [← name_spelling context h hw hu]
  obtain ⟨c, a, rfl, -⟩ := h.exists_cons hw
  exact congrArg content (if_pos (h.begins hw u))

theorem Name.value_kind (word : Text) :
    (Name.value word).kind = .keyword ∨ (Name.value word).kind = .identifier := by
  unfold value
  split
  · exact .inl rfl
  · exact .inr rfl

theorem Spells.eq_of_plain {raw word : Text} (h : Spells raw word) (hraw : '\\' ∉ raw) :
    word = raw := by
  induction h with
  | nil => rfl
  | char c h ih => rw [ih (List.not_mem_of_not_mem_cons hraw)]
  | fixed => simp at hraw
  | braced => simp at hraw

namespace Context

theorem contains_valueKeywords {raw word : Text} (h : Spells raw word)
    (hword : isKeyword word = false) : valueKeywords.contains raw = false := by
  have hall : ∀ w ∈ valueKeywords, isKeyword w ∧ '\\' ∉ w := by decide
  rw [Bool.eq_false_iff]
  intro hraw
  obtain ⟨hkeyword, hplain⟩ := hall raw (by simpa using hraw)
  rw [h.eq_of_plain hplain, hkeyword] at hword
  exact absurd hword (by decide)

/-- Behind two spellings of a name a slash means the same, if and only if both or none of them are
the plain text of a keyword that is a value. -/
theorem regexAllowed_update_name (context context' : Context) {word raw raw' : Text}
    (hraw : Spells raw word) (hraw' : Spells raw' word) :
    (context.update (Name.value word).kind raw).regexAllowed =
        (context'.update (Name.value word).kind raw').regexAllowed ↔
      valueKeywords.contains raw = valueKeywords.contains raw' := by
  cases hword : isKeyword word with
  | true =>
    have hvalue : (Name.value word).kind = .keyword := by simp [Name.value, hword, TokenValue.kind]
    rw [hvalue]
    exact Bool.not_inj_iff
  | false =>
    have hvalue : (Name.value word).kind = .identifier := by
      simp [Name.value, hword, TokenValue.kind]
    rw [hvalue, contains_valueKeywords hraw hword, contains_valueKeywords hraw' hword]
    exact iff_of_true rfl rfl

theorem behind_name (context : Context) {m : Lexeme} {word raw : Text}
    (h : m.content = Name.content word raw) :
    context.behind m = context.update (Name.value word).kind raw := by
  have hkind : m.kind = (Name.value word).kind := congrArg Content.kind h
  have hraw : m.raw = raw := congrArg Content.raw h
  have hcomment : (Name.value word).kind ≠ .comment := by
    rcases Name.value_kind word with hk | hk <;> simp [hk]
  rw [behind, hkind, hraw, if_neg hcomment]

end Context

namespace Lexer

/-- A slash behind a significant token opens a regular expression if one is allowed there. -/
theorem kind_slash [UnicodePrimitives] {l : Lexer} {before after : List Token} {k : Token}
    (htokens : l.tokens.1 = before ++ k :: after) (hraw : k.raw ≠ []) (hk : k.kind ≠ .comment)
    {c : Content} (hc : (after.map Token.content).find? (!·.isComment) = some c)
    (hslash : c.raw.head? = some '/') :
    c.kind = if (Context.update {} k.kind k.raw).regexAllowed then .regex else .punctuator := by
  obtain ⟨rs, s, rs', hreadings, -, rfl, -, rfl⟩ := exists_readings_of_tokens htokens
  obtain ⟨p, u, hs⟩ := exists_readsAt hreadings
  obtain ⟨ms, hms, hafter⟩ := hs.after hraw
  rw [contents_filter_yields, Content.find?_filter_isComment, hafter, List.map_append,
    List.find?_append] at hc
  rcases Option.or_eq_some_iff.mp hc with hnext | ⟨-, heof⟩
  · have hkept : s.lexeme.kind ≠ .comment := hk
    have hkind := hms.kind_slash hnext hslash
    rwa [Context.behind, if_neg hkept] at hkind
  · obtain rfl : Lexeme.eof.content = c := Option.some.inj heof
    exact absurd hslash (by decide)

namespace ReadsAt

variable {l l' : Lexer} {rs rs' : List Reading} {s : Reading} {p u word raw : Text}

/-- Where the text before a name is cut as before, the whole text is, but for the name, unless a
slash comes next that means something else behind the new spelling. -/
theorem respell [UnicodePrimitives] (h : ReadsAt l rs s rs' p u) (hs : s.lexeme.value.Names word)
    (hm : s.lexeme.malformed = false) (hraw : Spells raw word)
    (hnext : Context.valueKeywords.contains raw = Context.valueKeywords.contains s.lexeme.raw ∨
      Content.slashNext ((rs'.map Reading.lexeme).map Lexeme.content) = false)
    {ns : List Lexeme} (hns : CutsBefore (raw ++ u) l'.context p ns)
    (hcontents : ns.map Lexeme.content = (rs.map Reading.lexeme).map Lexeme.content) :
    ∃ ms, Cuts l'.context (p ++ (raw ++ u)) ms ∧ ms.map Lexeme.content ++ [Lexeme.eof.content] =
      (rs.map Reading.lexeme).map Lexeme.content ++
        Name.content word raw :: (rs'.map Reading.lexeme).map Lexeme.content := by
  have hname := h.isNameOf hs hm
  obtain ⟨ms, hms, hafter⟩ := h.after (h.raw_ne_nil hname)
  have hcontent' :=
    Lexeme.content_scan_spelling (ns.foldl Context.behind l'.context) hraw hname.isWord hname.ends
  obtain ⟨js, hjs, hmap⟩ : ∃ js, Cuts ((ns.foldl Context.behind l'.context).behind
      (Lexeme.scan (ns.foldl Context.behind l'.context) (raw ++ u))) u js ∧
        js.map Lexeme.content = ms.map Lexeme.content := by
    rw [Context.behind_name _ hcontent']
    rw [Context.behind_name _ hname.content] at hms
    -- Either a slash means the same behind both spellings, or none is there to tell them apart.
    rcases hnext with hkeyword | hslash
    · exact hms.congr
        ((Context.regexAllowed_update_name _ _ hname.spells hraw).mpr hkeyword.symm)
    · rw [hafter, List.map_append] at hslash
      exact hms.congr_of_slashNext _ (Content.slashNext_of_append hslash)
  obtain ⟨c, a, rfl, -⟩ := hraw.exists_cons hname.isWord
  have hraw' := congrArg Content.raw hcontent'
  refine ⟨ns ++ _ :: js, hns.cuts (.more .nil (hraw.startsToken hname.isWord u) hraw' hjs), ?_⟩
  rw [List.map_append, List.map_cons, hcontents, hmap, hafter, List.map_append,
    List.append_assoc, List.cons_append]
  exact congrArg (_ ++ · :: _) hcontent'

/-- The text before a name is cut as before if the new spelling starts with an escape, or if a token
of the new text starts there. -/
theorem exists_cutsBefore [UnicodePrimitives] (h : ReadsAt l rs s rs' p u)
    (hs : s.lexeme.value.Names word)
    (hm : s.lexeme.malformed = false) (hraw : Spells raw word)
    (hplace : raw.head? = some '\\' ∨ ∃ k ∈ l'.tokens.1, k.range.1 = s.token.range.1)
    (hcontext : l.context.regexAllowed = l'.context.regexAllowed)
    (hoffset : l'.reader.offset = l.reader.offset) (hrest : l'.reader.rest = p ++ (raw ++ u)) :
    ∃ ns, CutsBefore (raw ++ u) l'.context p ns ∧
      ns.map Lexeme.content = (rs.map Reading.lexeme).map Lexeme.content := by
  have hname := h.isNameOf hs hm
  rcases hplace with hescape | ⟨k, hk, hrange⟩
  · have hhead : (raw ++ u).head? = some '\\' := by rw [List.head?_append, hescape, Option.some_or]
    exact h.before.replace hname.begins hhead (.inr rfl) hcontext
  · obtain ⟨before, after, htokens⟩ := List.append_of_mem hk
    obtain ⟨bs, b, bs', hreadings, -, rfl, -, -⟩ := exists_readings_of_tokens htokens
    obtain ⟨q, v, hb⟩ := exists_readsAt hreadings
    have hstart : q.utf8Size = p.utf8Size := by
      have := hb.start
      have := h.start
      omega
    obtain ⟨rfl, hv⟩ := Text.append_inj_of_utf8Size (hb.text.symm.trans hrest) hstart
    have hbefore := hv ▸ hb.before
    exact ⟨_, hbefore,
      h.before.contents_eq hname.begins (hraw.begins hname.isWord u) hbefore hcontext⟩

end ReadsAt

end Lexer

theorem Name.head?_ne_of_begins [Primitives] {n : Text} (hn : Name.begins n) {c : Char}
    (hc : isWordStart c = false) (hne : c ≠ '\\') : n.head? ≠ some c := by
  intro hhead
  obtain ⟨t, rfl⟩ := List.head?_eq_some_iff.mp hhead
  rcases (Opening.begins_name_iff c t).mp hn with ⟨rfl, -⟩ | hstart
  · exact hne rfl
  · simp [hc] at hstart

/-- A preamble stays if a name behind it is put for another one. -/
theorem Text.keepsPreamble_name [UnicodePrimitives] {p n n' : Text} (hn : Name.begins n)
    (hn' : Name.begins n') :
    KeepsPreamble (p ++ n) (p ++ n') where
  mark := by
    intro hv
    cases p with
    | nil =>
      have hmark := isWordStart_of_ofChar (c := byteOrderMark) (by decide)
      exact absurd hv (Name.head?_ne_of_begins hn' hmark (by decide))
    | cons c p => exact hv
  bang := by
    rintro ⟨r, hr⟩
    match p with
    | [] =>
      obtain rfl : '#' :: '!' :: r = n' := hr
      have hhash := isWordStart_of_isAsciiMark (c := '#') (by decide)
      exact absurd rfl (Name.head?_ne_of_begins hn' hhash (by decide))
    | [c] =>
      obtain rfl : '!' :: r = n' := (List.cons.inj hr).2
      have hbang := isWordStart_of_isAsciiMark (c := '!') (by decide)
      exact absurd rfl (Name.head?_ne_of_begins hn' hbang (by decide))
    | c :: d :: p =>
      obtain ⟨rfl, rfl, -⟩ : '#' = c ∧ '!' = d ∧ r = p ++ n' := by simpa using hr
      exact ⟨p ++ n, rfl⟩
  ends := by
    intro hu
    obtain ⟨c, t, rfl, -, hline⟩ := Name.exists_cons_of_begins hn
    cases p with
    | nil => simp [endsLine, hline] at hu
    | cons e p => exact hu

/-- The token `k` of the text `t` is a name that is not malformed, and `t'` is the text with `raw`,
another spelling of the name, in its place. -/
structure Token.Respelled (k : Token) (raw t t' : Text) : Prop where
  name : ∃ word, k.value.Names word ∧ Spells raw word
  malformed : k.malformed = false
  place : ∃ p u, t = p ++ (k.raw ++ u) ∧ t' = p ++ (raw ++ u) ∧ p.utf8Size = k.range.1

theorem Name.isComment_content (word raw : Text) : (Name.content word raw).isComment = false := by
  rcases Name.value_kind word with hk | hk <;> simp [Content.isComment, Name.content, hk]

namespace Lexer

/-- A run over the text with another spelling starts at the same offset, and finds that spelling
where the name was read. -/
theorem ReadsAt.rest_respelled [UnicodePrimitives] {t t' raw p u : Text} {o : Options} {w : Bool}
    {rs rs' : List Reading} {s : Reading} (h : ReadsAt (Lexer.start t o w) rs s rs' p u)
    (hk : s.token.Respelled raw t t') (hbegins : Name.begins (s.lexeme.raw ++ u))
    (hbegins' : Name.begins (raw ++ u)) :
    (Lexer.start t' o w).reader.rest = p ++ (raw ++ u) ∧
      (Lexer.start t' o w).reader.offset = (Lexer.start t o w).reader.offset := by
  obtain ⟨q, v, ht, ht', hq⟩ := hk.place
  obtain ⟨r, hr, hrest, hoffset⟩ := exists_rest t o w
  obtain rfl : r = p ++ (s.lexeme.raw ++ u) := hrest.symm.trans h.text
  -- The token stands in its text where it was read.
  have hsize : q.utf8Size = (t.preamble ++ p).utf8Size := by
    rw [hq, h.start, hoffset, Text.utf8Size_append]
  have hsplit : q ++ (s.token.raw ++ v) = (t.preamble ++ p) ++ (s.lexeme.raw ++ u) := by
    rw [← ht, List.append_assoc, ← hr]
  obtain ⟨rfl, hbehind⟩ := Text.append_inj_of_utf8Size hsplit hsize
  obtain rfl : v = u := List.append_cancel_left hbehind
  rw [List.append_assoc] at ht'
  have hkeeps := Text.keepsPreamble_name (p := p) hbegins hbegins'
  have hpreamble : t'.preamble = t.preamble := ht' ▸ hkeeps.preamble_eq hr
  obtain ⟨r', hr', hrest', hoffset'⟩ := exists_rest t' o w
  rw [hpreamble] at hr' hoffset'
  exact ⟨hrest'.trans (List.append_cancel_left (hr'.symm.trans ht')),
    hoffset'.trans hoffset.symm⟩

/-- Runs that agree on what stands behind a token, where a slash comes next, agree on slashes. -/
theorem regexAllowed_eq_of_slashNext [UnicodePrimitives] {l l' : Lexer} {before after : List Token}
    {k : Token} {cs : List Content} {raw : Text} (htokens : l.tokens.1 = before ++ k :: after)
    (hcontents : l'.tokens.1.map Token.content =
      cs ++ { k.content with raw } :: after.map Token.content)
    (hne : k.raw ≠ []) (hne' : raw ≠ []) (hk : k.kind ≠ .comment)
    (hslash : Content.slashNext (after.map Token.content)) :
    (Context.update {} k.kind k.raw).regexAllowed =
      (Context.update {} k.kind raw).regexAllowed := by
  obtain ⟨c, hc, hhead⟩ := (Option.any_eq_true _ _).mp hslash
  obtain ⟨bs, ks, htokens', -, hks⟩ := List.map_eq_append_iff.mp hcontents
  obtain ⟨k', after', rfl, hk', hafter⟩ := List.map_eq_cons_iff.mp hks
  obtain ⟨hkind, hraw⟩ : k'.kind = k.kind ∧ k'.raw = raw :=
    ⟨congrArg Content.kind hk', congrArg Content.raw hk'⟩
  have hopens := kind_slash htokens hne hk hc (by simpa using hhead)
  have hopens' :=
    kind_slash htokens' (hraw ▸ hne') (hkind ▸ hk) (hafter ▸ hc) (by simpa using hhead)
  rw [hkind, hraw, hopens] at hopens'
  by_contra hdiff
  rcases Bool.eq_false_or_eq_true (Context.update {} k.kind k.raw).regexAllowed with h | h
  · simp [h, Bool.eq_false_iff.mpr (h ▸ Ne.symm hdiff)] at hopens'
  · simp [h, Bool.eq_true_of_not_eq_false (h ▸ Ne.symm hdiff)] at hopens'

/-- Another spelling of a name changes no other token, unless a slash comes next and one of the
spellings, but not the other, is the plain text of a keyword that is a value. It is assumed that a
token of the new text starts where the name did, which is so of itself if the spelling starts with
an escape. -/
theorem contents_respelled [UnicodePrimitives] {t t' raw : Text} {o : Options} {w : Bool}
    {before after : List Token} {k : Token}
    (htokens : (start t o w).tokens.1 = before ++ k :: after) (hk : k.Respelled raw t t')
    (hplace : raw.head? = some '\\' ∨
      ∃ k' ∈ (start t' o w).tokens.1, k'.range.1 = k.range.1) :
    (start t' o w).tokens.1.map Token.content =
        before.map Token.content ++ { k.content with raw } :: after.map Token.content ↔
      Context.valueKeywords.contains raw = Context.valueKeywords.contains k.raw ∨
        Content.slashNext (after.map Token.content) = false := by
  obtain ⟨rs, s, rs', hreadings, rfl, rfl, -, rfl⟩ := exists_readings_of_tokens htokens
  obtain ⟨p, u, hs⟩ := exists_readsAt hreadings
  obtain ⟨word, hnames, hspells⟩ := hk.name
  have hname := hs.isNameOf hnames hk.malformed
  have hkind : s.token.kind = (Name.value word).kind := congrArg Content.kind hname.content
  constructor
  · intro hcontents
    rw [or_iff_not_imp_right, Bool.not_eq_false]
    intro hslash
    have hne : raw ≠ [] := by
      obtain ⟨c, a, rfl, -⟩ := hspells.exists_cons hname.isWord
      simp
    -- The slash is the same token in both runs, so it means the same behind both spellings.
    have hregex := regexAllowed_eq_of_slashNext htokens hcontents (hs.raw_ne_nil hname) hne
      (by rcases Name.value_kind word with hk | hk <;> simp [hkind, hk]) hslash
    rw [hkind] at hregex
    exact ((Context.regexAllowed_update_name {} {} hname.spells hspells).mp hregex).symm
  · intro hnext
    -- What stands before the name is cut as before, then comes the name, and then the rest.
    obtain ⟨hrest, hoffset⟩ :=
      hs.rest_respelled hk hname.begins (hspells.begins hname.isWord u)
    obtain ⟨ns, hns, hcontents⟩ :=
      hs.exists_cutsBefore hnames hk.malformed hspells hplace rfl hoffset hrest
    rw [contents_filter_yields, Content.slashNext_filter] at hnext
    obtain ⟨ms, hms, hmap⟩ := hs.respell hnames hk.malformed hspells hnext hns hcontents
    rw [← hrest] at hms
    have hcontent : { s.token.content with raw } = Name.content word raw :=
      congrArg (fun k : Content => { k with raw }) hname.content
    -- The tokens are those lexemes that the run yields.
    have heof : [Lexeme.eof.content].filter (fun k => w || !k.isComment) = [Lexeme.eof.content] :=
      List.filter_cons_of_pos (Bool.or_true w)
    have hyield : w || !(Name.content word raw).isComment := by simp [Name.isComment_content]
    have hfilter := congrArg (List.filter fun k => w || !k.isComment) hmap
    rw [List.filter_append, List.filter_append, heof,
      List.filter_cons_of_pos (p := fun k : Content => w || !k.isComment) hyield] at hfilter
    rw [Lexer.contents_tokens rfl hms, contents_filter_yields, contents_filter_yields, hcontent]
    exact hfilter

/-- A keyword keeps the regular expression and the comment behind it when its escape is undone. -/
theorem contents_respelled_of_keyword :
    (start "; return /b/g // c".toList {} true).tokens.1.map Token.content =
      ((start "; r\\u0065turn /b/g // c".toList {} true).tokens.1.take 1).map Token.content ++
        Name.content "return".toList "return".toList ::
          ((start "; r\\u0065turn /b/g // c".toList {} true).tokens.1.drop 2).map
            Token.content := by
  have hk : Token.Respelled {
      raw := "r\\u0065turn".toList
      value := .keyword "return".toList
      start := ⟨1, 3⟩
      stop := ⟨1, 14⟩
      range := (2, 13)
      newline := false
      malformed := false
      unclosed := false } "return".toList "; r\\u0065turn /b/g // c".toList
      "; return /b/g // c".toList := {
    name := ⟨"return".toList, .inr rfl,
      .char 'r' (.char 'e' (.char 't' (.char 'u' (.char 'r' (.char 'n' .nil)))))⟩
    malformed := rfl
    place := ⟨"; ".toList, " /b/g // c".toList, rfl, rfl, rfl⟩ }
  exact (contents_respelled (by decide +kernel) hk (.inr (by decide +kernel))).mpr
    (.inl (by decide))

/-- Behind a keyword that is a value, but is not plain text, a slash opens a regular expression. -/
theorem not_contents_respelled_of_value :
    ¬ ∀ (t t' raw : Text) (o : Options) (w : Bool) (before after : List Token) (k : Token),
      (start t o w).tokens.1 = before ++ k :: after → k.Respelled raw t t' →
        (∃ k' ∈ (start t' o w).tokens.1, k'.range.1 = k.range.1) →
          (start t' o w).tokens.1.map Token.content =
            before.map Token.content ++ { k.content with raw } :: after.map Token.content := by
  intro h
  have hk : Token.Respelled {
      raw := "this".toList
      value := .keyword "this".toList
      start := ⟨1, 1⟩
      stop := ⟨1, 5⟩
      range := (0, 4)
      newline := false
      malformed := false
      unclosed := false } "th\\u0069s".toList "this / 2".toList "th\\u0069s / 2".toList := {
    name := ⟨"this".toList, .inr rfl,
      .char 't' (.char 'h' (@Spells.fixed 'i' "0069".toList _ _ rfl (by decide) (.char 's' .nil)))⟩
    malformed := rfl
    place := ⟨[], " / 2".toList, rfl, rfl, rfl⟩ }
  have htokens := h _ _ _ {} true [] ((start "this / 2".toList {} true).tokens.1.drop 1) _
    (by decide +kernel) hk (by decide +kernel)
  exact absurd (congrArg List.length htokens) (by decide +kernel)

/-- A number takes up the name behind it if the new spelling makes that an exponent. -/
theorem not_contents_respelled_of_number :
    ¬ ∀ (t t' raw : Text) (o : Options) (w : Bool) (before after : List Token) (k : Token),
      (start t o w).tokens.1 = before ++ k :: after → k.Respelled raw t t' →
        (start t' o w).tokens.1.map Token.content =
          before.map Token.content ++ { k.content with raw } :: after.map Token.content := by
  intro h
  have hk : Token.Respelled {
      raw := "\\u00655".toList
      value := .identifier "e5".toList
      start := ⟨1, 2⟩
      stop := ⟨1, 9⟩
      range := (1, 8)
      newline := false
      malformed := false
      unclosed := false } "e5".toList "1\\u00655".toList "1e5".toList := {
    name := ⟨"e5".toList, .inl rfl, .char 'e' (.char '5' .nil)⟩
    malformed := rfl
    place := ⟨"1".toList, [], rfl, rfl, rfl⟩ }
  have htokens := h _ _ _ {} true ((start "1\\u00655".toList {} true).tokens.1.take 1)
    ((start "1\\u00655".toList {} true).tokens.1.drop 2) _ (by decide +kernel) hk
  exact absurd (congrArg List.length htokens) (by decide +kernel)

end Lexer

end EcmaLex
