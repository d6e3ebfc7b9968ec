import EcmaLex.Proofs.UnsafeCharacters
import EcmaLex.Proofs.Words
import Mathlib.Data.List.Basic

/-!
# Keys without quotes

A key of an object is a name behind the brace or a comma of the object. The brace is told by the
tokens before the name: between the two, brackets balance each other, whatever their shapes. Each
such name is reported once, and nothing else is.
-/

namespace EcmaLex

open Trace (noteStart onlyIf)

namespace Token

theorem isPunctuator_iff {k : Token} {p : Text} :
    k.isPunctuator p ↔ k.kind = .punctuator ∧ k.raw = p := by simp [isPunctuator]

def opens (k : Token) : Bool :=
  k.isPunctuator ['{'] || k.isPunctuator ['['] || k.isPunctuator ['(']

def closes (k : Token) : Bool :=
  k.isPunctuator ['}'] || k.isPunctuator [']'] || k.isPunctuator [')']

end Token

/-- Among some tokens every closing bracket cancels the latest opening one before it that is not
cancelled yet, and all of them are cancelled in the end. The shapes of the brackets do not count. -/
inductive Balanced : List Token → Prop where
  | nil : Balanced []
  | other {k : Token} (ho : k.opens = false) (hc : k.closes = false) : Balanced [k]
  | pair {k k' : Token} {ks : List Token} (ho : k.opens) (hc : k'.closes) (h : Balanced ks) :
      Balanced (k :: (ks ++ [k']))
  | append {ks ks' : List Token} (h : Balanced ks) (h' : Balanced ks') : Balanced (ks ++ ks')

namespace Context

def ofTokens (ks : List Token) : Context := ks.foldl (fun c k => c.update k.kind k.raw) {}

variable {k : Token} {ks ks' : List Token}

theorem ofTokens_append (ks ks' : List Token) : ofTokens (ks ++ ks') =
    ks'.foldl (fun c k => c.update k.kind k.raw) (ofTokens ks) := List.foldl_append

theorem ofTokens_concat (ks : List Token) (k : Token) :
    ofTokens (ks ++ [k]) = (ofTokens ks).update k.kind k.raw := ofTokens_append ks [k]

theorem brackets_of_opens (h : k.opens) (c : Context) :
    ∃ b, k.isPunctuator [b] ∧ (c.update k.kind k.raw).brackets = b :: c.brackets := by
  have hupdate : ∀ b, k.isPunctuator [b] → nest c.brackets [b] = b :: c.brackets →
      ∃ b, k.isPunctuator [b] ∧ (c.update k.kind k.raw).brackets = b :: c.brackets := by
    intro b hb hnest
    obtain ⟨hk, hr⟩ := Token.isPunctuator_iff.mp hb
    exact ⟨b, hb, by rw [update, hk, hr]; exact hnest⟩
  rw [Token.opens, Bool.or_eq_true, Bool.or_eq_true] at h
  rcases h with (h | h) | h
  · exact hupdate '{' h rfl
  · exact hupdate '[' h rfl
  · exact hupdate '(' h rfl

theorem brackets_of_closes (h : k.closes) (c : Context) :
    (c.update k.kind k.raw).brackets = c.brackets.tail := by
  simp only [Token.closes, Bool.or_eq_true, Token.isPunctuator_iff] at h
  rcases h with (⟨hk, hr⟩ | ⟨hk, hr⟩) | ⟨hk, hr⟩ <;> rw [update, hk, hr] <;> rfl

theorem brackets_of_other (ho : k.opens = false) (hc : k.closes = false) (c : Context) :
    (c.update k.kind k.raw).brackets = c.brackets := by
  simp only [Token.opens, Token.closes, Token.isPunctuator, Bool.or_eq_false_iff,
    Bool.and_eq_false_iff, decide_eq_false_iff_not] at ho hc
  rw [update]
  dsimp only
  split
  · rename_i hk
    unfold nest
    split <;> simp_all
  · rfl

theorem brackets_of_balanced (h : Balanced ks) (c : Context) :
    (ks.foldl (fun c k => c.update k.kind k.raw) c).brackets = c.brackets := by
  induction h generalizing c with
  | nil => rfl
  | other ho hc => exact brackets_of_other ho hc c
  | pair ho hc _ ih =>
    obtain ⟨b, -, hb⟩ := brackets_of_opens ho c
    rw [List.foldl_cons, List.foldl_append, List.foldl_cons, List.foldl_nil,
      brackets_of_closes hc, ih, hb, List.tail_cons]
  | append _ _ ih ih' => rw [List.foldl_append, ih', ih]

/-- The innermost bracket that is open is the latest one behind which the tokens are balanced. -/
theorem exists_innermost {b : Char} {bs : List Char} (h : (ofTokens ks).brackets = b :: bs) :
    ∃ as k ks', ks = as ++ k :: ks' ∧ k.isPunctuator [b] ∧ k.opens ∧ Balanced ks' ∧
      (ofTokens as).brackets = bs := by
  induction hn : ks.length using Nat.strong_induction_on generalizing ks b bs with
  | _ n ih =>
    rcases List.eq_nil_or_concat' ks with rfl | ⟨ks, k, rfl⟩
    · simp [ofTokens] at h
    rw [List.length_append, List.length_singleton] at hn
    rw [ofTokens_concat] at h
    cases ho : k.opens with
    | true =>
      obtain ⟨b', hk, hb'⟩ := brackets_of_opens ho (ofTokens ks)
      obtain ⟨rfl, rfl⟩ := List.cons.inj (hb'.symm.trans h)
      exact ⟨ks, k, [], rfl, hk, ho, .nil, rfl⟩
    | false =>
      cases hc : k.closes with
      | true =>
        -- The bracket that is closed was the innermost one, and so balances with the closing one.
        rw [brackets_of_closes hc] at h
        obtain ⟨d, hd⟩ : ∃ d, (ofTokens ks).brackets = d :: b :: bs := by
          cases hks : (ofTokens ks).brackets with
          | nil => simp [hks] at h
          | cons d ds => exact ⟨d, congrArg (d :: ·) (by simpa [hks] using h)⟩
        obtain ⟨as, p, inner, rfl, -, hp, hinner, has⟩ := ih _ (by omega) hd rfl
        obtain ⟨as, q, between, rfl, hq, hqo, hbetween, hlast⟩ :=
          ih as.length (by simp at hn; omega) has rfl
        refine ⟨as, q, between ++ (p :: (inner ++ [k])), by simp, hq, hqo, ?_, hlast⟩
        exact hbetween.append (.pair hp hc hinner)
      | false =>
        rw [brackets_of_other ho hc] at h
        obtain ⟨as, p, inner, rfl, hp, hpo, hinner, has⟩ := ih _ (by omega) h rfl
        exact ⟨as, p, inner ++ [k], by simp, hp, hpo, hinner.append (.other ho hc), has⟩

theorem follows_ofTokens (ks : List Token) (p : Text) : (ofTokens ks).follows p ↔
    ∃ k, ks.getLast? = some k ∧ k.isPunctuator p := by
  rcases List.eq_nil_or_concat' ks with rfl | ⟨ks, k, rfl⟩
  · simp [ofTokens, follows]
  · simp [ofTokens_concat, update, follows, Token.isPunctuator]

end Context

/-- Behind the significant tokens `before`, the token `k` is a name where an object has a key: the
previous token is a brace or a comma, and of the brackets that are still open the innermost one is a
brace. -/
structure IsBarewordKey (before : List Token) (k : Token) : Prop where
  isName : k.kind = .identifier ∨ k.kind = .keyword
  previous : ∃ p, before.getLast? = some p ∧ (p.isPunctuator ['{'] ∨ p.isPunctuator [','])
  innermost : ∃ as p ks, before = as ++ p :: ks ∧ p.isPunctuator ['{'] ∧ Balanced ks

theorem Context.keyExpected_ofTokens (before : List Token) : (ofTokens before).keyExpected ↔
    (∃ p, before.getLast? = some p ∧ (p.isPunctuator ['{'] ∨ p.isPunctuator [','])) ∧
      ∃ as p ks, before = as ++ p :: ks ∧ p.isPunctuator ['{'] ∧ Balanced ks := by
  have hbrackets : (ofTokens before).brackets.head? = some '{' ↔
      ∃ as p ks, before = as ++ p :: ks ∧ p.isPunctuator ['{'] ∧ Balanced ks := by
    constructor
    · intro h
      obtain ⟨bs, hbs⟩ := List.head?_eq_some_iff.mp h
      obtain ⟨as, p, ks, hbefore, hp, -, hks, -⟩ := exists_innermost hbs
      exact ⟨as, p, ks, hbefore, hp, hks⟩
    · rintro ⟨as, p, ks, rfl, hp, hks⟩
      rw [Token.isPunctuator_iff] at hp
      rw [ofTokens_append, List.foldl_cons, brackets_of_balanced hks, update, hp.1, hp.2]
      rfl
  rw [keyExpected, Bool.and_eq_true, Bool.or_eq_true, decide_eq_true_eq, hbrackets,
    follows_ofTokens, follows_ofTokens, ← exists_or, and_comm]
  simp only [and_or_left]

theorem isBarewordKey_iff (before : List Token) (k : Token) : IsBarewordKey before k ↔
    (k.kind = .identifier ∨ k.kind = .keyword) ∧ (Context.ofTokens before).keyExpected := by
  rw [Context.keyExpected_ofTokens]
  exact ⟨fun h => ⟨h.isName, h.previous, h.innermost⟩, fun ⟨h, h', h''⟩ => ⟨h, h', h''⟩⟩

instance (before : List Token) (k : Token) : Decidable (IsBarewordKey before k) :=
  decidable_of_iff _ (isBarewordKey_iff before k).symm

def barewordKeys (before : List Token) : List Token → List Token
  | [] => []
  | k :: ks =>
    if IsBarewordKey before k then k :: barewordKeys (before ++ [k]) ks
    else barewordKeys (before ++ [k]) ks

theorem barewordKeys_sublist (before ks : List Token) : (barewordKeys before ks).Sublist ks := by
  induction ks generalizing before with
  | nil => exact .slnil
  | cons k ks ih =>
    rw [barewordKeys]
    split
    · exact (ih _).cons_cons k
    · exact (ih _).cons k

def TokenValue.word : TokenValue → Text
  | identifier name | keyword name => name
  | _ => []

def Token.barewordKey (k : Token) : Diagnostic :=
  (Issue.barewordKey k.value.word).diagnostic k.start

theorem map_barewordKeys_cons (before : List Token) (k : Token) (ks : List Token) :
    (barewordKeys before (k :: ks)).map Token.barewordKey =
      (if IsBarewordKey before k then [k.barewordKey] else []) ++
        (barewordKeys (before ++ [k]) ks).map Token.barewordKey := by
  rw [barewordKeys]
  split <;> rfl

def barewordCodes : List String := ["json_bareword_key"]

theorem Name.foundOf_remarks (context : Context) (name : Text) (o : Options) (n : Nat) :
    (Name.remarks context name).foundOf barewordCodes o n =
      if context.keyExpected && o.json then [(0, .barewordKey name)] else [] := by
  have hother : ∀ (b : Bool) (i : Issue) (r : Rule) (n : Nat), i.code ∉ barewordCodes →
      (onlyIf b (noteStart i r)).foundOf barewordCodes o n = [] := by
    intro b i r n hi
    exact Trace.foundOf_eq_nil (by decide) (by simp [hi])
  have hkey : ∀ n, (onlyIf context.keyExpected
      (noteStart (.barewordKey name) .json)).foundOf barewordCodes o n =
        if context.keyExpected && o.json then [(0, .barewordKey name)] else [] := by
    intro n
    cases context.keyExpected with
    | false => rfl
    | true =>
      have hcode : (Issue.barewordKey name).code ∈ barewordCodes := by
        simp [Issue.code, barewordCodes]
      rw [Trace.onlyIf_true, noteStart, Trace.noteAt, Trace.foundOf_note]
      simp [Rule.holds, hcode, Place.offset]
  rw [Name.remarks, Trace.foundOf_append, Trace.foundOf_append, Trace.foundOf_append, hkey,
    hother _ _ _ _ (by decide), hother _ _ _ _ (by decide), hother _ _ _ _ (by decide)]
  rfl

namespace Lexeme

variable {context : Context} {t : Text} {o : Options}

theorem foundOf_name_key [Primitives] (context : Context) (t : Text) (o : Options) :
    (name context t).trace.foundOf barewordCodes o 0 =
      if context.keyExpected && o.json then [(0, .barewordKey (name context t).value.word)]
      else [] := by
  have hparts : Trace.foundOf barewordCodes o 0 ((NamePart.scan false t).flatMap NamePart.trace) =
      [] := by
    refine Trace.foundOf_eq_nil (by decide) ((Trace.remarks_flatMap _ _).mpr fun p _ => ?_)
    simp [NamePart.trace, Issue.code, barewordCodes]
  have hword : (name context t).value.word = (NamePart.scan false t).filterMap NamePart.char := by
    unfold name
    dsimp only
    split <;> rfl
  rw [hword, name, Trace.foundOf_append, hparts, List.nil_append, Name.foundOf_remarks]

/-- What is not a name is not taken for a key. -/
theorem foundOf_other [Primitives] (h : ¬ ((scan context t).kind = .identifier ∨
    (scan context t).kind = .keyword)) : (scan context t).trace.foundOf barewordCodes o 0 = [] := by
  by_cases hne : (scan context t).kind = .eof
  · cases t with
    | nil => rfl
    | cons c t => exact absurd hne (kind_scanCons_ne_eof context c t)
  obtain ⟨op, c, u, -, hscan, -, hkind⟩ := Opening.exists_of_kind hne
  have hcodes : op ≠ .name → ∀ code ∈ op.codes, code ∉ barewordCodes := by cases op <;> decide
  have hcut : ∀ code ∈ unclosedCodes, code ∉ barewordCodes := by decide
  have hop : op ≠ .name := by
    rintro rfl
    exact h (by simpa [Opening.kinds] using hkind)
  rw [hscan]
  refine Trace.foundOf_eq_nil (by decide) ?_
  refine (Opening.reports_lexeme context c u op).remarks (fun r => hcodes hop r.issue.code) ?_
  exact fun i _ hi => hcut i.code (TokenKind.code_of_unclosedIssue? hi)

end Lexeme

namespace Lexer

variable {l : Lexer}

/-- A reading reports its token if that is a key. -/
theorem reported_key [Primitives] {before : List Token} (hbefore : l.context = .ofTokens before) :
    (l.behind l.reading).reader.reported barewordCodes = l.reader.reported barewordCodes ++
      if l.options.json ∧ IsBarewordKey before l.reading.token
      then [l.reading.token.barewordKey] else [] := by
  obtain ⟨g, w, u, hc⟩ := exists_nextCut l
  have hgap : l.reading.before.reported barewordCodes = l.reader.reported barewordCodes := by
    have hcode : ∀ code ∈ ["unbegun_comment"], code ∉ barewordCodes := by decide
    exact Reader.reported_followFrom (by decide) (by decide)
      ((within_gap _).mono fun r => hcode r.issue.code) _ _ []
  rw [reported_behind_reading (by decide) (by decide) hc, hgap]
  congr 1
  have hlexeme := hc.lexeme
  simp only [isBarewordKey_iff, ← hbefore]
  by_cases hk : l.reading.lexeme.kind = .identifier ∨ l.reading.lexeme.kind = .keyword
  · have hname := Lexeme.exists_name_of_kind (hlexeme ▸ hk)
    have htoken : l.reading.token.kind = .identifier ∨ l.reading.token.kind = .keyword := hk
    have hword : (Lexeme.name l.context (w ++ u)).value.word = l.reading.token.value.word := by
      rw [← hname, ← hlexeme]
      rfl
    rw [hlexeme, hname, Lexeme.foundOf_name_key, hword]
    cases l.context.keyExpected <;> cases l.options.json <;>
      simp [htoken, Token.barewordKey, Position.along]
  · have hfound := Lexeme.foundOf_other (o := l.options) (hlexeme ▸ hk)
    have htoken : ¬ (l.reading.token.kind = .identifier ∨ l.reading.token.kind = .keyword) := hk
    rw [hlexeme, hfound]
    simp [htoken]

theorem significant_tokens [Primitives] (l : Lexer) : l.tokens.1.filter (!·.isComment) =
    (l.readings.map Reading.token).filter (!·.isComment) := by
  rw [tokens_eq_map_readings, List.filter_map, List.filter_map, List.filter_filter]
  congr 1
  refine List.filter_congr fun s _ => ?_
  simp only [yields, Function.comp_apply]
  cases s.token.isComment <;> simp

/-- A run reports the keys among its tokens one after another. -/
theorem reported_keys [Primitives] {before : List Token} (hf : l.finished = false)
    (hbefore : l.context = .ofTokens before) :
    l.tokens.2.reader.reported barewordCodes = l.reader.reported barewordCodes ++
      if l.options.json
      then (barewordKeys before ((l.readings.map Reading.token).filter (!·.isComment))).map
        Token.barewordKey
      else [] := by
  induction l using readings_induction generalizing before with
  | finished l hl => simp [hl] at hf
  | reading l hl ih =>
    obtain ⟨g, w, u, hc⟩ := exists_nextCut l
    have hoptions : (l.behind l.reading).options = l.options :=
      (l.reader_behind Reader.options (fun _ => rfl) l.reading).trans l.options_after_reading
    rw [tokens_behind hl, readings_of_not_finished hl, List.map_cons]
    by_cases hcomment : l.reading.token.isComment
    · -- A comment is no key, and leaves the context as it is.
      have hkind : l.reading.lexeme.kind = .comment := of_decide_eq_true hcomment
      have hw : w ≠ [] := by
        intro hw
        simp [hc.kind_eq_eof_iff.mpr hw] at hkind
      have hcontext : (l.behind l.reading).context = .ofTokens before := by
        rw [hc.context_behind hw, Context.behind, if_pos hkind, hbefore]
      have hkey : ¬ IsBarewordKey before l.reading.token := by
        intro hkey
        have hname : l.reading.lexeme.kind = .identifier ∨ l.reading.lexeme.kind = .keyword :=
          hkey.isName
        simp [hkind] at hname
      rw [ih (hc.not_finished_behind hl hw) hcontext, reported_key hbefore, hoptions,
        List.filter_cons_of_neg (by simp [hcomment]), if_neg fun h => hkey h.2, List.append_nil]
    · rw [List.filter_cons_of_pos (by simp [hcomment]), map_barewordKeys_cons]
      have hreported := reported_key hbefore
      by_cases hw : w = []
      · have hfinished := (hc.finished_behind hl).mpr hw
        rw [tokens_of_finished hfinished, readings_of_finished hfinished, hreported]
        cases l.options.json <;> simp [barewordKeys]
      · have hkind : l.reading.lexeme.kind ≠ .comment := fun hk => hcomment (decide_eq_true hk)
        have hcontext : (l.behind l.reading).context = .ofTokens (before ++ [l.reading.token]) := by
          rw [hc.context_behind hw, Context.behind, if_neg hkind, hbefore, Context.ofTokens_concat]
          rfl
        rw [ih (hc.not_finished_behind hl hw) hcontext, hreported, hoptions, List.append_assoc]
        cases l.options.json <;> simp

theorem position_le_start [Primitives] (l : Lexer) : l.reader.position ≤ l.reading.token.start :=
  Reader.position_le_followFrom _ _ _ _

/-- A token that is not empty starts before the lexer stands behind it. -/
theorem start_lt_position_behind [Primitives] {g w u : Text} (hc : NextCut l g w u) (hw : w ≠ []) :
    l.reading.token.start < (l.behind l.reading).reader.position := by
  obtain ⟨c, a, rfl⟩ := List.exists_cons_of_ne_nil hw
  have hbehind : (l.behind l.reading).reader.position =
      (l.reading.before.cursor.advance.advanceBy a.length).position := by
    refine congrArg Cursor.position ((NextCut.cursor_behind l).trans ?_)
    rw [hc.cursor_after]
    rfl
  rw [hbehind]
  have hrest : l.reading.before.cursor.rest = c :: (a ++ u) := hc.before
  exact Std.lt_of_lt_of_le (Cursor.position_lt_advance hrest) (Cursor.position_le_advanceBy _ _)

/-- The tokens of a run start one behind the other. -/
theorem readings_start [Primitives] (l : Lexer) :
    (∀ s ∈ l.readings, l.reader.position ≤ s.token.start) ∧
      l.readings.Pairwise fun s s' => s.token.start < s'.token.start := by
  induction l using readings_induction with
  | finished l hl => simp [readings_of_finished hl]
  | reading l hl ih =>
    obtain ⟨g, w, u, hc⟩ := exists_nextCut l
    rw [readings_of_not_finished hl]
    by_cases hw : w = []
    · rw [readings_of_finished ((hc.finished_behind hl).mpr hw)]
      simpa using l.position_le_start
    · have hlt := start_lt_position_behind hc hw
      refine ⟨List.forall_mem_cons.mpr ⟨l.position_le_start, fun s hs => ?_⟩,
        .cons (fun s hs => Std.lt_of_lt_of_le hlt (ih.1 s hs)) ih.2⟩
      exact Std.le_trans l.position_le_start
        (Std.le_trans (Std.le_of_lt hlt) (ih.1 s hs))

theorem barewordKeys_start [Primitives] (l : Lexer) (before : List Token) :
    (barewordKeys before (l.tokens.1.filter (!·.isComment))).Pairwise
      fun k k' => k.start < k'.start := by
  have hreadings : (l.readings.map Reading.token).Pairwise fun k k' => k.start < k'.start :=
    List.pairwise_map.mpr l.readings_start.2
  rw [significant_tokens]
  exact (hreadings.sublist List.filter_sublist).sublist (barewordKeys_sublist _ _)

/-- In a JSON document each key without quotes is reported once, where it starts, and nothing else
is reported so. In other texts none is. -/
theorem bareword_keys_reported [Primitives] (t : Text) (o : Options) (w : Bool) :
    let keys := barewordKeys [] ((start t o w).tokens.1.filter (!·.isComment))
    let reports := if o.json then keys.map Token.barewordKey else []
    (start t o w).tokens.2.diagnostics.toList.filter (·.code = "json_bareword_key") = reports ∧
      (lex t o).diagnostics.filter (·.code = "json_bareword_key") = reports ∧
      keys.Pairwise fun k k' => k.start < k'.start := by
  intro keys reports
  -- The keys are told by the significant tokens, which do not depend on the comments yielded.
  have hkeys : ∀ w, barewordKeys [] ((start t o w).tokens.1.filter (!·.isComment)) = keys := by
    intro w'
    have hreadings : ∀ w, (start t o w).readings = (ofText t o).readings :=
      readings_withComments (ofText t o)
    rw [significant_tokens, hreadings, ← hreadings w, ← significant_tokens]
  have hpairwise : keys.Pairwise fun k k' => k.start < k'.start :=
    (start t o w).barewordKeys_start []
  have hfound : ∀ w, (start t o w).tokens.2.diagnostics.toList.filter
      (·.code = "json_bareword_key") = reports := by
    intro w'
    have hcontext : (start t o w').context = .ofTokens [] := rfl
    have hreported := reported_keys (l := start t o w') rfl hcontext
    rw [← significant_tokens, hkeys] at hreported
    have hcodes : (start t o w').tokens.2.diagnostics.toList.filter
        (·.code = "json_bareword_key") = (start t o w').tokens.2.reader.reported barewordCodes :=
      List.filter_congr fun d _ => by simp [barewordCodes]
    rw [hcodes, hreported]
    rfl
  refine ⟨hfound w, (Diagnostics.filter_sorted ?_).trans (hfound false), hpairwise⟩
  refine (hfound false).symm ▸ ?_
  show reports.Pairwise _
  cases hjson : o.json with
  | true =>
    simp only [reports, hjson, if_true]
    exact List.pairwise_map.mpr (hpairwise.imp Std.le_of_lt)
  | false =>
    simp only [reports, hjson]
    exact .nil

/-- A bracket closes the innermost one whatever its shape, and those in a string do not count. -/
example : (barewordKeys [] ((start "\x7ba:(b],'\x7b[',c".toList .forJson false).tokens.1.filter
    (!·.isComment))).map Token.raw = ["a".toList, "c".toList] := by decide +kernel

end Lexer

end EcmaLex
