import EcmaLex.Proofs.Cuts
import EcmaLex.Proofs.Veil

/-!
# Blanking

If everything between the significant tokens of a text is blanked, but for its line terminators, the
significant tokens stay what and where they are. A lexer of the blanked text goes along with one of
the text itself, and lags behind it by blanks wherever the other one has read a comment.
-/

namespace EcmaLex

open Text (Veils blank)

theorem ofChar_of_isDigit {c : Char} (hc : c.isDigit) : CharClass.ofChar c = .printable := by
  have hall : ∀ n < 58, 48 ≤ n → CharClass.ofChar (Char.ofNat n) = .printable := by decide
  have hlow : 48 ≤ c.toNat ∧ c.toNat ≤ 57 := by simpa [Char.isDigit_iff_toNat] using hc
  have h := hall c.toNat (by omega) hlow.1
  rwa [Char.ofNat_toNat] at h

namespace Lexer

def veiled [Primitives] (l : Lexer) : Text :=
  if _h : l.finished then []
  else
    blank (gap l.reader.rest).text ++
    ((if l.reading.token.isComment then blank l.reading.lexeme.raw else l.reading.lexeme.raw) ++
      (l.behind l.reading).veiled)
termination_by l.size
decreasing_by exact size_behind_lt l (by simpa using _h)

theorem veiled_of_finished [Primitives] {l : Lexer} (h : l.finished = true) : l.veiled = [] := by
  rw [veiled, dif_pos h]

end Lexer

namespace NextCut

variable {l : Lexer} {g w u : Text}

theorem veiled_eq [Primitives] (hf : l.finished = false) (h : NextCut l g w u) : l.veiled =
    blank g ++ ((if l.reading.token.isComment then blank w else w) ++
      (l.behind l.reading).veiled) := by
  rw [Lexer.veiled, dif_neg (by simp [hf]), h.gap, h.raw]

end NextCut

namespace NumberLiteral

/-- A number goes on as one if another text is put behind it. -/
theorem begins_of_raw [UnicodePrimitives] {context : Context} {c : Char} {a u : Text}
    (hb : begins (c :: (a ++ u))) (ha : (Lexeme.scanCons context c (a ++ u)).raw = c :: a)
    (v : Text) : begins (c :: (a ++ v)) := by
  rw [Opening.begins_number_iff] at hb ⊢
  rcases hb with ⟨rfl, d, hd, hdigit⟩ | hc
  · cases a with
    | nil =>
      obtain ⟨u, rfl⟩ := List.head?_eq_some_iff.mp hd
      have hpair : Opening.isPair '.' d := by simp [Opening.isPair, hdigit]
      exact absurd ha (Opening.raw_ne_singleton_of_isPair context hpair u)
    | cons e a => exact .inl ⟨rfl, d, hd, hdigit⟩
  · exact .inr hc

theorem startsToken_of_begins {t : Text} (h : begins t) : startsToken t := by
  cases t with
  | nil => rfl
  | cons c t =>
    rw [Opening.begins_number_iff] at h
    rcases h with ⟨rfl, -⟩ | hc
    · rfl
    · have hne : c ≠ '*' := by
        rintro rfl
        simp at hc
      simp [startsToken, ofChar_of_isDigit hc, hne]

theorem kind_scanCons_ne_comment [Primitives] (context : Context) {c : Char} {t : Text}
    (h : begins (c :: t)) : (Lexeme.scanCons context c t).kind ≠ .comment := by
  rw [Opening.lexeme_of, Opening.of]
  by_cases hn : Name.begins (c :: t)
  · rw [if_pos hn]
    simp only [Opening.lexeme, Lexeme.kind, Lexeme.name]
    split <;> simp [TokenValue.kind]
  · rw [if_neg hn, if_pos h]
    simp [Opening.lexeme, Lexeme.kind, Lexeme.number, TokenValue.kind]

end NumberLiteral

/-- What is veiled is the rest of the text. -/
theorem Lexer.veils_veiled [Primitives] (l : Lexer) (hf : l.finished = false) :
    Veils l.veiled l.reader.rest := by
  induction l using readings_induction with
  | finished l h => simp [h] at hf
  | reading l h ih =>
    obtain ⟨g, w, u, hc⟩ := exists_nextCut l
    have hnext : Veils (l.behind l.reading).veiled u := by
      cases hfin : (l.behind l.reading).finished with
      | true =>
        rw [veiled_of_finished hfin, hc.eof ((hc.finished_behind h).mp hfin)]
        exact .nil
      | false => exact hc.rest_behind ▸ ih hfin
    rw [hc.veiled_eq h, hc.text]
    refine (Text.veils_blank g).append (Veils.append ?_ hnext)
    split
    · exact Text.veils_blank w
    · exact Text.veils_refl w

theorem NextCut.veils_behind [Primitives] {l : Lexer} {g w u : Text} (h : NextCut l g w u)
    (hw : w ≠ [])
    (hf : l.finished = false) : Veils (l.behind l.reading).veiled u := by
  exact h.rest_behind ▸ Lexer.veils_veiled _ (h.not_finished_behind hf hw)

/-- A number that comes next is not veiled. -/
theorem Lexer.begins_veiled [UnicodePrimitives] {l : Lexer} (hf : l.finished = false)
    (h : NumberLiteral.begins l.reader.rest) : NumberLiteral.begins l.veiled := by
  obtain ⟨g, w, u, hc⟩ := exists_nextCut l
  have hstart := NumberLiteral.startsToken_of_begins h
  obtain ⟨rfl, hr⟩ := hc.skippable.cancel .nil hc.starts hstart hc.text.symm
  rw [← hr] at h
  cases w with
  | nil => simp [hc.eof rfl, NumberLiteral.begins] at h
  | cons c a =>
    have hscan : l.reading.lexeme = Lexeme.scanCons l.context c (a ++ u) := hc.lexeme
    have hkind : l.reading.lexeme.kind ≠ .comment := by
      rw [hscan]
      exact NumberLiteral.kind_scanCons_ne_comment l.context h
    have hcomment : l.reading.token.isComment = false := decide_eq_false hkind
    rw [hc.veiled_eq hf, hcomment]
    exact NumberLiteral.begins_of_raw h (hscan ▸ hc.raw) _

def Token.unranged (k : Token) : Token := { k with range := (0, 0) }

/-- A lexer of a blanked text stands behind one of the text itself: before some blanks, at the end
of which it will have come as far and left a line as well. -/
structure Lags [Primitives] (l' l : Lexer) (b : Text) : Prop where
  context : l'.context = l.context
  skippable : Skippable b
  rest : l'.reader.rest = b ++ l.veiled
  alike : (l'.reader.cursor.advanceBy b.length).Alike l.reader.cursor
  leftLine : l.reader.leftLine = (l'.reader.leftLine ||
    decide (l.reader.cursor.position.line ≠ l'.reader.cursor.position.line))

namespace Lags

variable {l l' : Lexer} {b g w u : Text}

theorem line_le [Primitives] (h : Lags l' l b) :
    l'.reader.cursor.position.line ≤ l.reader.cursor.position.line := by
  rw [← h.alike.position]
  exact Cursor.line_le_advanceBy _ _

theorem line_le_after [Primitives] (hc : NextCut l g w u) :
    l.reader.cursor.position.line ≤ l.reading.after.cursor.position.line := by
  rw [hc.cursor_after, hc.cursor_before, ← Cursor.advanceBy_add]
  exact Cursor.line_le_advanceBy _ _

theorem leftLine_after [Primitives] (h : Lags l' l b) (hc : NextCut l g w u) :
    l.reading.after.leftLine = (l'.reader.leftLine ||
      decide (l.reading.after.cursor.position.line ≠ l'.reader.cursor.position.line)) := by
  rw [hc.leftLine_after, h.leftLine]
  exact Cursor.leftLine_trans h.line_le (line_le_after hc)

/-- Behind a comment the lexer of the blanked text stands before more blanks. -/
theorem comment [Primitives] (h : Lags l' l b) (hf : l.finished = false) (hc : NextCut l g w u)
    (hk : l.reading.token.isComment = true) :
    Lags l' (l.behind l.reading) (b ++ (blank g ++ blank w)) := by
  have hkind : l.reading.lexeme.kind = .comment := of_decide_eq_true hk
  have hbehind : l.behind l.reading = { l with reader := l.reading.after } := by
    rw [Lexer.behind, hkind]
  refine ⟨?_, ?_, ?_, ?_, ?_⟩
  · rw [hbehind]
    exact h.context
  · exact h.skippable.append ((Text.skippable_blank g).append (Text.skippable_blank w))
  · rw [h.rest, hc.veiled_eq hf, hk, if_pos rfl]
    simp
  · rw [List.length_append, Cursor.advanceBy_add, List.length_append, Cursor.advanceBy_add,
      Text.length_blank, Text.length_blank, NextCut.cursor_behind, hc.cursor_after,
      hc.cursor_before]
    exact (h.alike.advanceBy _).advanceBy _
  · rw [hbehind]
    exact h.leftLine_after hc

/-- The lexer of the blanked text reads a significant token as the other one does. -/
theorem significant [UnicodePrimitives] (h : Lags l' l b) (hf : l.finished = false)
    (hc : NextCut l g w u)
    (hk : l.reading.token.isComment = false) :
    NextCut l' (b ++ blank g) w (l.behind l.reading).veiled ∧
      l'.reading.lexeme.content = l.reading.lexeme.content := by
  have hskip : Skippable (b ++ blank g) := h.skippable.append (Text.skippable_blank g)
  have hrest : l'.reader.rest = b ++ blank g ++ (w ++ (l.behind l.reading).veiled) := by
    rw [h.rest, hc.veiled_eq hf, hk, List.append_assoc]
    rfl
  cases w with
  | nil =>
    have hnil : (l.behind l.reading).veiled = [] :=
      Lexer.veiled_of_finished ((hc.finished_behind hf).mpr rfl)
    rw [hnil] at hrest ⊢
    have hc' : NextCut l' (b ++ blank g) [] [] := nextCut_of_text hrest hskip rfl rfl
    exact ⟨hc', by rw [hc'.lexeme_eq_eof, hc.lexeme_eq_eof]⟩
  | cons c a =>
    have hveils := hc.veils_behind (by simp) hf
    have hscan : l.reading.lexeme = Lexeme.scanCons l.context c (a ++ u) := hc.lexeme
    have hraw := hscan ▸ hc.raw
    -- What follows is veiled, and a lexeme does not tell that from the text itself.
    have hadmits : (Lexeme.scanCons l.context c (a ++ u)).Admits u (l.behind l.reading).veiled := {
      continues := hveils.continues _
      escape := fun he => NamePart.begins_of_prefix (hveils.prefix_of_prefix (by decide) he)
      number := by
        intro hb _
        exact Lexer.begins_veiled (hc.not_finished_behind hf (by simp)) (hc.rest_behind ▸ hb)
      ends := hveils.endsLine_iff.mpr
      cut := fun hu hk => hveils.eq_nil_iff.mpr (Lexeme.scanCons_eq_nil_of_unclosed hraw hu hk) }
    have hallowed : l.context.regexAllowed = l'.context.regexAllowed := by rw [h.context]
    have hcontent := Lexeme.scanCons_resume hallowed hraw hadmits
    have hraw' := (congrArg Content.raw hcontent).trans hraw
    have hc' : NextCut l' (b ++ blank g) (c :: a) (l.behind l.reading).veiled :=
      nextCut_of_text hrest hskip (startsToken_resume hc.starts hveils.echoes) hraw'
    have hscan' : l'.reading.lexeme =
        Lexeme.scanCons l'.context c (a ++ (l.behind l.reading).veiled) := hc'.lexeme
    exact ⟨hc', by rw [hscan, hscan', hcontent]⟩

theorem alike_before [Primitives] (h : Lags l' l b) (hc : NextCut l g w u) {v : Text}
    (hc' : NextCut l' (b ++ blank g) w v) :
    l'.reading.before.cursor.Alike l.reading.before.cursor := by
  rw [hc'.cursor_before, List.length_append, Cursor.advanceBy_add, Text.length_blank,
    hc.cursor_before]
  exact h.alike.advanceBy _

theorem alike_after [Primitives] (h : Lags l' l b) (hc : NextCut l g w u) {v : Text}
    (hc' : NextCut l' (b ++ blank g) w v) :
    l'.reading.after.cursor.Alike l.reading.after.cursor := by
  rw [hc'.cursor_after, hc.cursor_after]
  exact (h.alike_before hc hc').advanceBy _

theorem unranged_token [UnicodePrimitives] (h : Lags l' l b) (hf : l.finished = false)
    (hc : NextCut l g w u)
    (hk : l.reading.token.isComment = false) :
    l'.reading.token.unranged = l.reading.token.unranged := by
  obtain ⟨hc', hcontent⟩ := h.significant hf hc hk
  have hbefore := (h.alike_before hc hc').position
  have hafter := (h.alike_after hc hc').position
  have hnewline : l'.reading.after.leftLine = l.reading.after.leftLine := by
    rw [hc'.leftLine_after, h.leftLine_after hc, hafter]
  rw [Token.unranged, Token.unranged, Token.mk.injEq]
  refine ⟨?_, ?_, hbefore, hafter, rfl, hnewline, ?_, ?_⟩
  · exact congrArg Content.raw hcontent
  · exact congrArg Content.value hcontent
  · exact congrArg Content.malformed hcontent
  · exact congrArg Content.unclosed hcontent

/-- Behind a significant token the lexer of the blanked text has caught up. -/
theorem behind [UnicodePrimitives] (h : Lags l' l b) (hf : l.finished = false)
    (hc : NextCut l g w u)
    (hk : l.reading.token.isComment = false) (hw : w ≠ []) :
    Lags (l'.behind l'.reading) (l.behind l.reading) [] := by
  obtain ⟨hc', hcontent⟩ := h.significant hf hc hk
  have halike := h.alike_after hc hc'
  have hleft : ∀ {k : Lexer}, k.reading.lexeme.content = l.reading.lexeme.content →
      (k.behind k.reading).reader.leftLine = false := by
    intro k hcontent
    have hkind : k.reading.lexeme.kind = l.reading.lexeme.kind := congrArg Content.kind hcontent
    have hcomment : l.reading.lexeme.kind ≠ .comment := of_decide_eq_false hk
    have heof : l.reading.lexeme.kind ≠ .eof := fun heof => hw (hc.kind_eq_eof_iff.mp heof)
    unfold Lexer.behind
    split
    · exact absurd ‹_› (hkind ▸ hcomment)
    · exact absurd ‹_› (hkind ▸ heof)
    · rfl
  refine ⟨?_, .nil, hc'.rest_behind, ?_, ?_⟩
  · rw [hc'.context_behind hw, hc.context_behind hw, h.context]
    exact Context.behind_congr l.context hcontent
  · rw [NextCut.cursor_behind, NextCut.cursor_behind]
    exact halike
  · rw [hleft hcontent, hleft rfl, NextCut.cursor_behind, NextCut.cursor_behind, halike.position]
    simp

end Lags

namespace Lexer

def significant [Primitives] (l : Lexer) : List Token :=
  ((l.readings.map Reading.token).filter (!·.isComment)).map Token.unranged

theorem significant_of_finished [Primitives] {l : Lexer} (h : l.finished = true) :
    l.significant = [] := by
  rw [significant, readings_of_finished h]
  rfl

theorem significant_of_comment [Primitives] {l : Lexer} (h : l.finished = false)
    (hk : l.reading.token.isComment = true) :
    l.significant = (l.behind l.reading).significant := by
  rw [significant, readings_of_not_finished h, List.map_cons,
    List.filter_cons_of_neg (by simp [hk])]
  rfl

theorem significant_of_not_comment [Primitives] {l : Lexer} (h : l.finished = false)
    (hk : l.reading.token.isComment = false) :
    l.significant = l.reading.token.unranged :: (l.behind l.reading).significant := by
  rw [significant, readings_of_not_finished h, List.map_cons,
    List.filter_cons_of_pos (by simp [hk])]
  rfl

/-- A run over a blanked text yields the significant tokens of one over the text itself. -/
theorem significant_of_lags [UnicodePrimitives] {l l' : Lexer} {b : Text} (hf : l.finished = false)
    (hf' : l'.finished = false) (h : Lags l' l b) : l'.significant = l.significant := by
  induction l using readings_induction generalizing l' b with
  | finished l hfin => simp [hfin] at hf
  | reading l hl ih =>
    obtain ⟨g, w, u, hc⟩ := exists_nextCut l
    cases hk : l.reading.token.isComment with
    | true =>
      have hfin : (l.behind l.reading).finished = false := by
        have hkind : l.reading.lexeme.kind = .comment := of_decide_eq_true hk
        rw [behind, hkind]
        exact hl
      rw [significant_of_comment hl hk]
      exact ih hfin hf' (h.comment hl hc hk)
    | false =>
      obtain ⟨hc', hcontent⟩ := h.significant hl hc hk
      have hk' : l'.reading.token.isComment = false := by
        rw [← hk]
        exact congrArg Content.isComment hcontent
      rw [significant_of_not_comment hl hk, significant_of_not_comment hf' hk',
        h.unranged_token hl hc hk]
      by_cases hw : w = []
      · rw [significant_of_finished ((hc.finished_behind hl).mpr hw),
          significant_of_finished ((hc'.finished_behind hf').mpr hw)]
      · rw [ih (hc.not_finished_behind hl hw) (hc'.not_finished_behind hf' hw)
          (h.behind hl hc hk hw)]

theorem significant_eq [Primitives] (l : Lexer) :
    l.significant = (l.tokens.1.filter (!·.isComment)).map Token.unranged := by
  rw [tokens_eq_map_readings, significant, List.filter_map, List.filter_map, List.filter_filter]
  congr 3
  funext s
  simp only [yields, Function.comp_apply]
  cases s.token.isComment <;> simp

end Lexer

namespace Text

def maskFrom (kept : Nat → Bool) : Nat → Text → Text
  | _, [] => []
  | n, c :: t => (if kept n then c else veil c) :: maskFrom kept (n + c.utf8Size) t

theorem maskFrom_append (kept : Nat → Bool) (n : Nat) (s t : Text) :
    maskFrom kept n (s ++ t) = maskFrom kept n s ++ maskFrom kept (n + s.utf8Size) t := by
  induction s generalizing n with
  | nil => rfl
  | cons c s ih =>
    rw [List.cons_append, maskFrom, maskFrom, ih, utf8Size_cons, List.cons_append, Nat.add_assoc]

theorem maskFrom_congr {kept kept' : Nat → Bool} {n : Nat} {t : Text}
    (h : ∀ m, n ≤ m → m < n + t.utf8Size → kept m = kept' m) :
    maskFrom kept n t = maskFrom kept' n t := by
  induction t generalizing n with
  | nil => rfl
  | cons c t ih =>
    have hc := Char.utf8Size_pos c
    have hn : kept n = kept' n := h n (Nat.le_refl n) (by simp; omega)
    rw [maskFrom, maskFrom, hn, ih]
    intro m hm hlt
    exact h m (by omega) (by simp; omega)

theorem maskFrom_eq_self {kept : Nat → Bool} {n : Nat} {t : Text}
    (h : ∀ m, n ≤ m → m < n + t.utf8Size → kept m = true) : maskFrom kept n t = t := by
  induction t generalizing n with
  | nil => rfl
  | cons c t ih =>
    have hc := Char.utf8Size_pos c
    have hn : kept n = true := h n (Nat.le_refl n) (by simp; omega)
    rw [maskFrom, hn, if_pos rfl, ih]
    intro m hm hlt
    exact h m (by omega) (by simp; omega)

theorem maskFrom_eq_blank {kept : Nat → Bool} {n : Nat} {t : Text}
    (h : ∀ m, n ≤ m → m < n + t.utf8Size → kept m = false) : maskFrom kept n t = blank t := by
  rw [maskFrom_congr h]
  clear h
  induction t generalizing n with
  | nil => rfl
  | cons c t ih =>
    rw [maskFrom, ih]
    rfl

end Text

def covers (ks : List Token) (n : Nat) : Bool :=
  ks.any fun k => !k.isComment && (k.range.1 ≤ n && n < k.range.2)

/-- A text with everything blanked that lies behind its preamble and outside of its significant
tokens, but for its line terminators. -/
def Text.blanked [Primitives] (t : Text) (o : Options) : Text :=
  Text.maskFrom
    (fun n => n < t.preamble.utf8Size || covers (Lexer.start t o true).tokens.1 n) 0 t

theorem covers_cons (k : Token) (ks : List Token) (n : Nat) : covers (k :: ks) n =
    (!k.isComment && (k.range.1 ≤ n && n < k.range.2) || covers ks n) := List.any_cons

theorem covers_eq_false {ks : List Token} {n : Nat} (h : ∀ k ∈ ks, n < k.range.1) :
    covers ks n = false := by
  rw [covers, List.any_eq_false]
  intro k hk
  have hlt := h k hk
  simp
  omega

/-- A token keeps its own text, unless it is a comment, and nothing of the gap before it. -/
theorem maskFrom_covers_cons {k : Token} {ks : List Token} {n : Nat} {g w : Text} (u : Text)
    (hstart : k.range.1 = n + g.utf8Size) (hstop : k.range.2 = n + g.utf8Size + w.utf8Size)
    (hlater : ∀ k' ∈ ks, k.range.2 ≤ k'.range.1) :
    Text.maskFrom (covers (k :: ks)) n (g ++ (w ++ u)) =
      blank g ++ ((if k.isComment then blank w else w) ++
        Text.maskFrom (covers ks) k.range.2 u) := by
  -- The later tokens cover nothing before the end of this one.
  have hnone : ∀ m, m < k.range.2 → covers ks m = false := fun m hm =>
    covers_eq_false fun k' hk' => Nat.lt_of_lt_of_le hm (hlater k' hk')
  have hgap : Text.maskFrom (covers (k :: ks)) n g = blank g := by
    apply Text.maskFrom_eq_blank
    intro m _ hm
    have hlt : ¬ k.range.1 ≤ m := by omega
    rw [covers_cons, hnone m (by omega)]
    simp [hlt]
  have hword : Text.maskFrom (covers (k :: ks)) (n + g.utf8Size) w =
      if k.isComment then blank w else w := by
    cases hk : k.isComment with
    | true =>
      apply Text.maskFrom_eq_blank
      intro m _ hm
      rw [covers_cons, hnone m (by omega), hk]
      rfl
    | false =>
      apply Text.maskFrom_eq_self
      intro m hle hm
      have hl : k.range.1 ≤ m := by omega
      have hr : m < k.range.2 := by omega
      rw [covers_cons, hk]
      simp [hl, hr]
  have hrest : Text.maskFrom (covers (k :: ks)) k.range.2 u =
      Text.maskFrom (covers ks) k.range.2 u := by
    apply Text.maskFrom_congr
    intro m hm _
    have hlt : ¬ m < k.range.2 := by omega
    rw [covers_cons]
    simp [hlt]
  rw [Text.maskFrom_append, Text.maskFrom_append, hgap, hword, ← hstop, hrest]

namespace Lexer

theorem offset_le_of_mem_readings [Primitives] (l : Lexer) :
    ∀ k ∈ l.readings.map Reading.token, l.reader.offset ≤ k.range.1 := by
  induction l using readings_induction with
  | finished l h => simp [readings_of_finished h]
  | reading l h ih =>
    obtain ⟨g, w, u, hc⟩ := exists_nextCut l
    have hbefore := hc.offset_before
    have hafter := hc.offset_after
    rw [readings_of_not_finished h, List.map_cons]
    refine List.forall_mem_cons.mpr ⟨?_, fun k hk => ?_⟩
    · have hstart : l.reading.token.range.1 = l.reading.before.offset := rfl
      omega
    · have hle := ih k hk
      rw [NextCut.offset_behind] at hle
      omega

/-- Keeping what the significant tokens of a run cover, and nothing else, veils the rest. -/
theorem maskFrom_covers [Primitives] (l : Lexer) (hf : l.finished = false) :
    Text.maskFrom (covers (l.readings.map Reading.token)) l.reader.offset l.reader.rest =
      l.veiled := by
  induction l using readings_induction with
  | finished l h => simp [h] at hf
  | reading l h ih =>
    obtain ⟨g, w, u, hc⟩ := exists_nextCut l
    have hlater := (l.behind l.reading).offset_le_of_mem_readings
    rw [NextCut.offset_behind] at hlater
    have hmask := maskFrom_covers_cons (k := l.reading.token) u hc.offset_before hc.offset_after
      hlater
    rw [readings_of_not_finished h, List.map_cons, hc.veiled_eq h, hc.text, hmask]
    cases hfin : (l.behind l.reading).finished with
    | true =>
      rw [veiled_of_finished hfin, hc.eof ((hc.finished_behind h).mp hfin)]
      rfl
    | false =>
      have hrest := ih hfin
      rw [NextCut.offset_behind, hc.rest_behind] at hrest
      rw [← hrest]
      rfl

end Lexer

/-- A blanked text is veiled behind its preamble. -/
theorem Text.blanked_eq [Primitives] (t : Text) (o : Options) :
    t.blanked o = t.preamble ++ (Lexer.start t o true).veiled := by
  obtain ⟨r, ht, hrest, hoffset⟩ := Lexer.exists_rest t o true
  have hmask := (Lexer.start t o true).maskFrom_covers rfl
  rw [hrest, hoffset, ← Lexer.tokens_start] at hmask
  obtain ⟨ks, hks⟩ : ∃ ks, (Lexer.start t o true).tokens.1 = ks := ⟨_, rfl⟩
  obtain ⟨n, hn⟩ : ∃ n, t.preamble.utf8Size = n := ⟨_, rfl⟩
  have hblanked : t.blanked o =
      maskFrom (fun m => m < n || covers ks m) 0 (t.preamble ++ r) := by
    rw [blanked, hks, hn, ← ht]
  have hpreamble : maskFrom (fun m => m < n || covers ks m) 0 t.preamble = t.preamble := by
    apply maskFrom_eq_self
    intro m _ hm
    have hlt : m < n := by omega
    simp [hlt]
  have hbody : maskFrom (fun m => m < n || covers ks m) n r = maskFrom (covers ks) n r := by
    apply maskFrom_congr
    intro m hm _
    have hlt : ¬ m < n := by omega
    simp [hlt]
  rw [hblanked, maskFrom_append, hpreamble, Nat.zero_add, hn, hbody, ← hks, ← hn, hmask]

namespace Lexer

/-- At the start a lexer of the blanked text lags behind by nothing. -/
theorem lags_start [Primitives] (t : Text) (o : Options) (withComments : Bool) :
    Lags (start (t.blanked o) o withComments) (start t o true) [] := by
  obtain ⟨r, ht, hrest, -⟩ := exists_rest t o true
  have hveils : Veils (start t o true).veiled r := hrest ▸ (start t o true).veils_veiled rfl
  obtain ⟨r', ht', hrest', -⟩ := exists_rest (t.blanked o) o withComments
  have halike : (start (t.blanked o) o withComments).reader.cursor.Alike
      (start t o true).reader.cursor := by
    have hsource := Source.alike_ofText ht hveils
    rwa [← Text.blanked_eq] at hsource
  refine ⟨rfl, .nil, ?_, halike, ?_⟩
  · have hpreamble := hveils.keepsPreamble.preamble_eq ht
    rw [← Text.blanked_eq] at hpreamble
    rw [hpreamble, Text.blanked_eq] at ht'
    rw [hrest', ← List.append_cancel_left ht']
    rfl
  · rw [halike.position]
    simp [start, ofText]

/-- The significant tokens of a text do not depend on what stands between them. -/
theorem significant_tokens_blanked [UnicodePrimitives] (t : Text) (o : Options) (w w' : Bool) :
    ((start (t.blanked o) o w).tokens.1.filter (!·.isComment)).map Token.unranged =
      ((start t o w').tokens.1.filter (!·.isComment)).map Token.unranged := by
  have hlags := significant_of_lags rfl rfl (lags_start t o w)
  have hreadings : (start t o w').readings = (start t o true).readings :=
    readings_withComments (start t o true) w'
  rw [← significant_eq, ← significant_eq, hlags, significant, significant, hreadings]

end Lexer

end EcmaLex
