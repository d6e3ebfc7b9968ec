import EcmaLex.Primitives.Standard
import EcmaLex.Proofs.Places
import EcmaLex.Proofs.Respelling

/-!
# Words

Every spelling of a word is lexed as the name of that word, whatever follows it that is no part of
a name. And what a name stands for, unless it is malformed, is such a word, so that the word is lexed
as the same name.
-/

namespace EcmaLex

open Trace (onlyIf noteAt reads)

/-- A token is the name of a word, and is spelled so. -/
structure Token.IsName (k : Token) (raw word : Text) : Prop where
  raw : k.raw = raw
  kind : k.kind = if isKeyword word then .keyword else .identifier
  value : k.value = if isKeyword word then .keyword word else .identifier word
  malformed : k.malformed = false

namespace Token.IsName

variable {k : Token} {raw word : Text}

theorem of_content (h : k.content = Name.content word raw) : k.IsName raw word where
  raw := congrArg Content.raw h
  kind := by
    have hkind : k.kind = (Name.value word).kind := congrArg Content.kind h
    rw [hkind, Name.value]
    split
    · rfl
    · rfl
  value := congrArg Content.value h
  malformed := congrArg Content.malformed h

end Token.IsName

theorem TokenValue.exists_names {v : TokenValue} (h : v.kind = .identifier ∨ v.kind = .keyword) :
    ∃ word, v.Names word := by
  cases v with
  | identifier word => exact ⟨word, .inl rfl⟩
  | keyword word => exact ⟨word, .inr rfl⟩
  | _ => simp [kind] at h

theorem Spells.self (word : Text) : Spells word word := by
  induction word with
  | nil => exact .nil
  | cons c word ih => exact .char c ih

theorem Text.preamble_spelling [UnicodePrimitives] {raw word : Text} (h : Spells raw word)
    (hw : isWord word)
    (rest : Text) : (raw ++ rest).preamble = [] := by
  have hbegins := h.begins hw rest
  apply Text.preamble_eq_nil
  · exact Name.head?_ne_of_begins hbegins (isWordStart_of_ofChar (by decide)) (by decide)
  · rintro ⟨r, hr⟩
    have hhead : ('#' :: '!' :: r).head? = some '#' := rfl
    rw [← hr] at hbegins
    exact Name.head?_ne_of_begins hbegins (isWordStart_of_isAsciiMark (by decide)) (by decide) hhead

/-- What follows a name that ends, if neither a character of a name nor an escape does. -/
theorem NamePart.begins_eq_false [Primitives] {rest : Text}
    (hpart : ∀ c ∈ rest.head?, isWordPart c = false)
    (hescape : ¬ ['\\', 'u'] <+: rest) : begins rest = false := by
  rw [Bool.eq_false_iff]
  intro hbegins
  cases rest with
  | nil => simp [begins] at hbegins
  | cons c t =>
    rcases begins_cases hbegins with ⟨t, rfl, rfl⟩ | ⟨hc, -⟩
    · exact hescape ⟨t, rfl⟩
    · simp [hpart c rfl] at hc

namespace Lexeme

/-- Nothing is bad about the escapes of a name that is not malformed. -/
theorem foundOf_name [Primitives] {context : Context} {t : Text}
    (h : (name context t).malformed = false)
    (o : Options) : (name context t).trace.foundOf ["bad_escapement"] o 0 = [] := by
  have hsome : ∀ p ∈ NamePart.scan false t, p.char.isNone = false := by
    intro p hp
    exact Bool.eq_false_iff.mpr (List.any_eq_false.mp h p hp)
  refine Trace.foundOf_eq_nil (by decide) ?_
  have hremarks : ∀ name, (Name.remarks context name).Remarks
      fun m => m.issue.code ∉ ["bad_escapement"] := by
    intro name
    simp only [Name.remarks, Trace.remarks_append, Trace.remarks_onlyIf, Trace.remarks_noteStart]
    exact ⟨⟨⟨fun _ => by decide, fun _ => by decide⟩, fun _ => by decide⟩,
      fun _ => by simp [Issue.code]⟩
  simp only [name, Trace.remarks_append, Trace.remarks_flatMap, hremarks, and_true]
  intro p hp
  simp [NamePart.trace, hsome p hp]

theorem exists_name_of_kind [Primitives] {context : Context} {t : Text}
    (h : (scan context t).kind = .identifier ∨ (scan context t).kind = .keyword) :
    scan context t = name context t := by
  have hne : (scan context t).kind ≠ .eof := by rcases h with h | h <;> simp [h]
  obtain ⟨o, c, u, rfl, hscan, -, hkind⟩ := Opening.exists_of_kind hne
  cases o with
  | name => exact hscan
  | _ => rcases h with h | h <;> simp [h, Opening.kinds] at hkind

end Lexeme

namespace Lexer

variable {l l' : Lexer} {k : Token} {t u : Text} {context : Context}

theorem ReadsLexeme.name [Primitives] (h : ReadsLexeme t l k l' u (Lexeme.scan context u))
    (hk : k.kind = .identifier ∨ k.kind = .keyword) :
    ReadsLexeme t l k l' u (Lexeme.name context u) := by
  have hkind : (Lexeme.scan context u).kind = k.kind := by
    rw [Lexeme.kind, ← h.value]
    rfl
  exact Lexeme.exists_name_of_kind (hkind ▸ hk) ▸ h

theorem ReadsLexeme.reported_name [Primitives] (h : ReadsLexeme t l k l' u (Lexeme.scan context u))
    (hk : k.kind = .identifier ∨ k.kind = .keyword) (hm : k.malformed = false) :
    l'.reader.reported ["bad_escapement"] = l.reader.reported ["bad_escapement"] := by
  have hname := h.name hk
  have hfound := Lexeme.foundOf_name (hname.malformed.symm.trans hm) l.options
  rw [hname.reported _ (by decide), hfound, List.map_nil, List.append_nil]

/-- The first token of a text that starts with a spelling of a word. -/
theorem exists_first_name [UnicodePrimitives] {raw word rest : Text} (hw : isWord word)
    (h : Spells raw word)
    (hrest : NamePart.begins rest = false) (o : Options) (w : Bool) :
    ∃ k l', (start (raw ++ rest) o w).next = some (k, l') ∧
      k.content = Name.content word raw ∧ l'.reader.rest = rest ∧
      l'.reader.reported ["bad_escapement"] = [] := by
  have hcontent := Lexeme.content_scan_spelling (start (raw ++ rest) o w).context h hw hrest
  have hkind : (Lexeme.scan (start (raw ++ rest) o w).context (raw ++ rest)).kind =
      (Name.value word).kind := congrArg Content.kind hcontent
  have hcomment : (Name.value word).kind ≠ .comment := by
    rcases Name.value_kind word with hk | hk <;> simp [hk]
  obtain ⟨u, hu, hlexeme, hnext, hbehind⟩ := exists_first (Text.preamble_spelling h hw rest)
    (h.startsToken hw rest) o w (hkind ▸ hcomment)
  have hraw : (Lexeme.scan (start (raw ++ rest) o w).context (raw ++ rest)).raw = raw :=
    congrArg Content.raw hcontent
  rw [hraw] at hu
  have htoken : (start (raw ++ rest) o w).reading.token.content = Name.content word raw := by
    rw [← hcontent, ← hlexeme]
    rfl
  have htokenKind : (start (raw ++ rest) o w).reading.token.kind = (Name.value word).kind :=
    congrArg Content.kind htoken
  obtain ⟨v, context, hreads⟩ := exists_readsLexeme (raw ++ rest) o w 0 hnext
  refine ⟨_, _, hnext, htoken, hbehind.trans (List.append_cancel_left hu).symm, ?_⟩
  exact hreads.reported_name (htokenKind ▸ (Name.value_kind word).symm)
    (congrArg Content.malformed htoken)

/-- A word alone is lexed as its name. -/
theorem tokens_word [UnicodePrimitives] {word : Text} (hw : isWord word) (o : Options) (w : Bool) :
    ∃ k e, (start word o w).tokens.1 = [k, e] ∧ k.content = Name.content word word ∧ e.isEof := by
  have hspells := Spells.self word
  have hpreamble := Text.preamble_spelling hspells hw []
  have hstarts := hspells.startsToken hw []
  have hcontent := Lexeme.content_scan_spelling {} hspells hw (u := []) rfl
  obtain ⟨c, a, rfl, -⟩ := hspells.exists_cons hw
  obtain ⟨r, ht, hrest, -⟩ := exists_rest (c :: a) o w
  rw [List.append_nil] at hpreamble
  rw [hpreamble, List.nil_append] at ht
  have hcuts : Cuts (start (c :: a) o w).context (start (c :: a) o w).reader.rest
      [Lexeme.scan {} (c :: a ++ [])] := by
    have hcontext : (start (c :: a) o w).context = {} := rfl
    have hmore := Cuts.more (u := []) .nil hstarts (congrArg Content.raw hcontent) (.done .nil)
    rw [hcontext, hrest, ← ht]
    rwa [List.append_nil] at hmore ⊢
  have hcontents := contents_tokens rfl hcuts
  rw [List.map_singleton, hcontent, List.filter_cons_of_pos (by simp [Name.isComment_content])]
    at hcontents
  obtain ⟨k, ks, hks, hk, hrest⟩ := List.map_eq_cons_iff.mp hcontents
  obtain ⟨e, rfl, he⟩ := List.map_eq_singleton_iff.mp hrest
  refine ⟨k, e, hks, hk, ?_⟩
  have hkind : e.kind = .eof := congrArg Content.kind he
  exact decide_eq_true hkind

/-- Every spelling of a word is lexed as its name, unless what follows is part of the name too. And
every name that is not malformed is the one of a word, which is lexed as that name again. -/
theorem words_canonical [UnicodePrimitives] :
    (∀ (word raw rest : Text) (o : Options) (w : Bool), isWord word → Spells raw word →
      (∀ c ∈ rest.head?, isWordPart c = false) → ¬ ['\\', 'u'] <+: rest →
      ∃ k l', (start (raw ++ rest) o w).next = some (k, l') ∧ k.IsName raw word ∧
        l'.reader.rest = rest ∧ l'.reader.reported ["bad_escapement"] = []) ∧
    ∀ (t : Text) (o : Options) (w : Bool), ∀ k ∈ (start t o w).tokens.1,
      k.kind = .identifier ∨ k.kind = .keyword → k.malformed = false →
      ∃ word, isWord word ∧ k.IsName k.raw word ∧ ∀ (o' : Options) (w' : Bool), ∃ k' e,
        (start word o' w').tokens.1 = [k', e] ∧ k'.IsName word word ∧ k'.value = k.value ∧
          e.isEof := by
  refine ⟨fun word raw rest o w hw h hpart hescape => ?_, fun t o w k hk hkind hm => ?_⟩
  · obtain ⟨k, l', hnext, hcontent, hrest, hreported⟩ :=
      exists_first_name hw h (NamePart.begins_eq_false hpart hescape) o w
    exact ⟨k, l', hnext, .of_content hcontent, hrest, hreported⟩
  · obtain ⟨before, after, htokens⟩ := List.append_of_mem hk
    obtain ⟨rs, s, rs', hreadings, -, rfl, -, -⟩ := exists_readings_of_tokens htokens
    obtain ⟨p, u, hreads⟩ := exists_readsAt hreadings
    obtain ⟨word, hnames⟩ := TokenValue.exists_names (v := s.lexeme.value) hkind
    have hnamed := hreads.isNameOf hnames hm
    have hname : s.token.content = Name.content word s.token.raw := hnamed.content
    refine ⟨word, hnamed.isWord, .of_content hname, fun o' w' => ?_⟩
    obtain ⟨k', e, hks, hk', he⟩ := tokens_word hnamed.isWord o' w'
    exact ⟨k', e, hks, .of_content hk',
      (congrArg Content.value hk').trans (congrArg Content.value hname).symm, he⟩

/-- A keyword that is all escapes, and a name with an escape behind a number. -/
theorem words_canonical_of_escapes :
    (∃ k l', (start ("\\u0069\\u\x7b66\x7d".toList ++ "(".toList) {} false).next = some (k, l') ∧
      k.IsName "\\u0069\\u\x7b66\x7d".toList "if".toList ∧ l'.reader.rest = "(".toList ∧
      l'.reader.reported ["bad_escapement"] = []) ∧
    ∃ k ∈ (start "1 + \\u00e9t".toList {} false).tokens.1, k.raw = "\\u00e9t".toList ∧
      k.malformed = false ∧ ∃ word, isWord word ∧ k.IsName k.raw word ∧
        ∀ (o' : Options) (w' : Bool), ∃ k' e,
          (start word o' w').tokens.1 = [k', e] ∧ k'.IsName word word ∧ k'.value = k.value ∧
            e.isEof := by
  have hspells : Spells "\\u0069\\u\x7b66\x7d".toList "if".toList :=
    @Spells.fixed 'i' "0069".toList _ _ rfl (by decide) <|
      @Spells.braced 'f' "66".toList _ _ (by decide) (by decide) .nil
  have htoken : (start "1 + \\u00e9t".toList {} false).tokens.1.any fun k =>
      k.raw = "\\u00e9t".toList && k.kind = .identifier && !k.malformed := by
    decide +kernel
  obtain ⟨k, hk, hfacts⟩ := List.any_eq_true.mp htoken
  simp only [Bool.and_eq_true, Bool.not_eq_true', decide_eq_true_eq] at hfacts
  obtain ⟨⟨hraw, hkind⟩, hm⟩ := hfacts
  refine ⟨words_canonical.1 _ _ _ {} false (by decide +kernel) hspells ?_ (by decide),
    k, hk, hraw, hm, words_canonical.2 _ _ _ k hk (.inl hkind) hm⟩
  rintro c ⟨⟩
  decide +kernel

end Lexer

end EcmaLex
