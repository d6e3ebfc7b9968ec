import EcmaLex.Primitives.Standard
import EcmaLex.Proofs.LineEnds.Extent
import EcmaLex.Proofs.Tiling

/-!
# The flag of a line end

The flag of a token is read once the token has been. So it says whether a line ends anywhere between
the end of the significant token before it and its own end, and not just before its start.
-/

namespace EcmaLex

open Text (Apart)

namespace Cursor

/-- A cursor comes to another line if and only if it goes over a line terminator. -/
theorem decide_line_advanceBy {k : Cursor} {a u : Text} (h : k.rest = a ++ u) (ha : Apart a u) :
    decide ((k.advanceBy a.length).position.line ≠ k.position.line) =
      a.any isLineTerminator := by
  induction a generalizing k with
  | nil => simp [advanceBy]
  | cons c a ih =>
    rw [List.cons_append] at h
    have hrest := (advance_cons h).1
    have hlater := ih hrest (Apart.of_append (b := [c]) ha)
    have hle := k.advance.line_le_advanceBy a.length
    rw [List.length_cons, advanceBy, List.any_cons]
    by_cases hend : Position.endsLine c (a ++ u).head?
    · have hc : isLineTerminator c := by
        simp only [Position.endsLine, Bool.or_eq_true, Bool.and_eq_true, decide_eq_true_eq] at hend
        exact isLineTerminator_iff.mpr (hend.imp_right And.left)
      have hline : k.advance.position.line = k.position.line + 1 := by
        rw [position_advance_of_endsLine h hend]
      rw [hc, Bool.true_or, decide_eq_true_iff]
      omega
    · have hline : k.advance.position.line = k.position.line := by
        rw [position_advance_of_not_endsLine h (by simpa using hend)]
      rw [← hline, hlater]
      by_cases hc : isLineTerminator c
      · -- A carriage return that ends no line has its line feed behind it.
        obtain ⟨rfl, hu⟩ : c = '\r' ∧ (a ++ u).head? = some '\n' := by
          rcases isLineTerminator_iff.mp hc with rfl | rfl
          · simp [Position.endsLine] at hend
          · exact ⟨rfl, by simpa [Position.endsLine, -List.head?_append] using hend⟩
        cases a with
        | nil => exact absurd hu (ha rfl)
        | cons d a =>
          obtain rfl : d = '\n' := by simpa using hu
          rfl
      · rw [Bool.eq_false_iff.mpr hc, Bool.false_or]

end Cursor

namespace NextCut

variable {l : Lexer} {g w u : Text}

theorem leftLine_after_eq [UnicodePrimitives] (h : NextCut l g w u) :
    l.reading.after.leftLine = (l.reader.leftLine || (g ++ w).any isLineTerminator) := by
  have htext : l.reader.cursor.rest = g ++ w ++ u := by
    rw [List.append_assoc]
    exact h.text
  rw [h.leftLine_after, h.cursor_after, h.cursor_before, ← Cursor.advanceBy_add,
    ← List.length_append, Cursor.decide_line_advanceBy htext h.apart]

end NextCut

/-- Each token is flagged if and only if a line terminator stands in the text between the end of the
significant token before it, which is at byte offset `n` for the first one, and the offset that
`upTo` gives. -/
def FlagsLines (t : Text) (upTo : Token → Nat) : Nat → List Token → Prop
  | _, [] => True
  | n, k :: ks => (t.slice? n (upTo k)).map (·.any isLineTerminator) = some k.newline ∧
      FlagsLines t upTo (if k.isComment then n else k.range.2) ks

instance (t : Text) (upTo : Token → Nat) : (n : Nat) → (ks : List Token) →
    Decidable (FlagsLines t upTo n ks)
  | _, [] => inferInstanceAs (Decidable True)
  | n, k :: ks =>
    have := instDecidableFlagsLines t upTo (if k.isComment then n else k.range.2) ks
    inferInstanceAs (Decidable (_ ∧ _))

/-- A lexer has passed over the text `s` behind its latest significant token, which ends at byte
offset `n`, and has noticed whether a line ends there. -/
structure Passed (t : Text) (n : Nat) (s : Text) (l : Lexer) : Prop where
  text : ∃ p, t = p ++ (s ++ l.reader.rest) ∧ p.utf8Size = n
  offset : l.reader.offset = n + s.utf8Size
  leftLine : l.reader.leftLine = s.any isLineTerminator

namespace Passed

variable {t s g w u : Text} {n : Nat} {l : Lexer}

/-- What is passed up to the end of the next token is the text up to there, and flagged so. -/
theorem reading [UnicodePrimitives] (h : Passed t n s l) (hc : NextCut l g w u) :
    (t.slice? n l.reading.token.range.2).map (·.any isLineTerminator) =
      some l.reading.token.newline := by
  obtain ⟨p, ht, rfl⟩ := h.text
  have hstop : l.reading.token.range.2 = p.utf8Size + (s ++ (g ++ w)).utf8Size := by
    have hafter : l.reading.token.range.2 = l.reading.after.offset := rfl
    rw [hafter, hc.offset_after, h.offset, Text.utf8Size_append, Text.utf8Size_append]
    omega
  have htext : t = p ++ ((s ++ (g ++ w)) ++ u) := by
    rw [ht, hc.text]
    simp
  have hnewline : l.reading.token.newline = l.reading.after.leftLine := rfl
  rw [hstop, htext, Text.slice?_append, Option.map_some, hnewline, hc.leftLine_after_eq,
    h.leftLine, ← List.any_append]

/-- Behind a comment a lexer has passed over that too. -/
theorem comment [UnicodePrimitives] (h : Passed t n s l) (hc : NextCut l g w u)
    (hk : l.reading.token.isComment = true) :
    Passed t n (s ++ (g ++ w)) (l.behind l.reading) := by
  have hkind : l.reading.lexeme.kind = .comment := of_decide_eq_true hk
  obtain ⟨p, ht, hp⟩ := h.text
  refine ⟨⟨p, ?_, hp⟩, ?_, ?_⟩
  · rw [hc.rest_behind, ht, hc.text]
    simp
  · rw [NextCut.offset_behind, hc.offset_after, h.offset, Text.utf8Size_append,
      Text.utf8Size_append]
    omega
  · have hbehind : (l.behind l.reading).reader = l.reading.after := by rw [Lexer.behind, hkind]
    rw [hbehind, hc.leftLine_after_eq, h.leftLine, ← List.any_append]

/-- Behind a significant token nothing has been passed over. -/
theorem significant [Primitives] (h : Passed t n s l) (hc : NextCut l g w u) (hw : w ≠ [])
    (hk : l.reading.token.isComment = false) :
    Passed t l.reading.token.range.2 [] (l.behind l.reading) := by
  obtain ⟨p, ht, rfl⟩ := h.text
  have hstop : l.reading.token.range.2 = l.reading.after.offset := rfl
  refine ⟨⟨p ++ (s ++ (g ++ w)), ?_, ?_⟩, ?_, ?_⟩
  · rw [hc.rest_behind, ht, hc.text]
    simp
  · rw [hstop, hc.offset_after, h.offset, Text.utf8Size_append, Text.utf8Size_append,
      Text.utf8Size_append]
    omega
  · rw [NextCut.offset_behind, hstop]
    simp
  · have hcomment : l.reading.lexeme.kind ≠ .comment := of_decide_eq_false hk
    have heof : l.reading.lexeme.kind ≠ .eof := fun heof => hw (hc.kind_eq_eof_iff.mp heof)
    unfold Lexer.behind
    split
    · exact absurd ‹_› hcomment
    · exact absurd ‹_› heof
    · rfl

/-- A run flags the tokens behind which a lexer stands. -/
theorem flagsLines [UnicodePrimitives] (h : Passed t n s l) (hf : l.finished = false) :
    FlagsLines t (·.range.2) n l.tokens.1 := by
  -- By induction on the readings. What has been passed over grows with each comment, yielded or not,
  -- and starts anew behind each significant token.
  induction l using Lexer.readings_induction generalizing n s with
  | finished l hl => simp [hl] at hf
  | reading l hl ih =>
    obtain ⟨g, w, u, hc⟩ := exists_nextCut l
    have hflag := h.reading hc
    have hrest : FlagsLines t (·.range.2)
        (if l.reading.token.isComment then n else l.reading.token.range.2)
        (l.behind l.reading).tokens.1 := by
      cases hfin : (l.behind l.reading).finished with
      | true =>
        rw [Lexer.tokens_of_finished hfin]
        trivial
      | false =>
        have hw : w ≠ [] := fun hw => by simp [(hc.finished_behind hl).mpr hw] at hfin
        cases hk : l.reading.token.isComment with
        | true => exact ih (h.comment hc hk) hfin
        | false => exact ih (h.significant hc hw hk) hfin
    cases hy : l.yields l.reading with
    | true =>
      rw [Lexer.tokens_of_yields hl hy]
      exact ⟨hflag, hrest⟩
    | false =>
      rw [Lexer.tokens_of_not_yields hl hy]
      rwa [Lexer.isComment_of_not_yields hy, if_pos rfl] at hrest

end Passed

namespace Lexer

theorem passed_start (t : Text) (o : Options) (w : Bool) :
    Passed t 0 t.preamble (start t o w) := by
  obtain ⟨r, ht, hrest, hoffset⟩ := exists_rest t o w
  refine ⟨⟨[], ?_, rfl⟩, ?_, ?_⟩
  · rw [hrest]
    exact ht
  · rw [hoffset, Nat.zero_add]
  · rw [Text.any_isLineTerminator_eq_false_iff.mpr t.inline_preamble]
    rfl

/-- A token is flagged if and only if a line terminator stands behind the significant token before
it, in front of the end of the token itself. -/
theorem flagsLines_start [UnicodePrimitives] (t : Text) (o : Options) (w : Bool) :
    FlagsLines t (·.range.2) 0 (start t o w).tokens.1 :=
  (passed_start t o w).flagsLines rfl

/-- A template over two lines is flagged, though no line ends before it. -/
theorem not_flagsLines_start_of_template :
    ¬ FlagsLines "\x60\n\x60".toList (·.range.1) 0
      (start "\x60\n\x60".toList {} false).tokens.1 := by
  decide +kernel

end Lexer

end EcmaLex
