import EcmaLex.Proofs.Blanking
import EcmaLex.Proofs.LineEnds.Lexeme

/-!
# Runs over unified texts

How its lines end is no part of what a text means. The tokens of the unified text stand at the same
places and mean the same, and the diagnostics are the same too.
-/

namespace EcmaLex

open Text (Inline Apart)

theorem TokenValue.kind_unified (v : TokenValue) : v.unified.kind = v.kind := by
  cases v <;> rfl

def Token.unified (k : Token) : Token :=
  { k with raw := k.raw.unified, value := k.value.unified }

namespace Lexeme.Unifies

variable {m' m : Lexeme}

theorem kind_eq (h : Unifies m' m) : m'.kind = m.kind := by
  rw [kind, kind, h.value, TokenValue.kind_unified]

theorem raw_eq (h : Unifies m' m) : m'.raw = m.raw.unified := by
  rcases h.trace with htrace | ⟨hinline, htrace⟩
  · exact htrace.text_eq
  · rw [hinline.unified, raw, raw, htrace]

theorem follow {r' r : Reader} {u : Text} (h : Unifies m' m) (hr : r'.Unifies r)
    (hrest : r.rest = m.raw ++ u) (hu : Apart m.raw u) :
    (r'.follow m'.trace).Unifies (r.follow m.trace) := by
  have hstart : r'.position = r.position := hr.position
  rw [Reader.follow, Reader.follow, hstart]
  rcases h.trace with htrace | ⟨hinline, htrace⟩
  · exact hr.followFrom htrace hrest hu _ (fun _ _ => rfl)
  · rw [htrace]
    exact hr.followFrom_inline hinline hrest _ _

end Lexeme.Unifies

theorem Lexeme.unifies_scan [UnicodePrimitives] (context : Context) {t : Text}
    (ht : startsToken t) :
    (scan context.unified t.unified).Unifies (scan context t) := by
  cases t with
  | nil => exact ⟨rfl, rfl, rfl, .inl .nil⟩
  | cons c t =>
    have hc := isLineTerminator_of_startsToken ht
    rw [Text.unified_cons_inline hc]
    exact unifies_scanCons context hc t

theorem Reader.Unifies.checkLine {r' r : Reader} (h : r'.Unifies r) (n : Nat) :
    (r'.checkLine n).Unifies (r.checkLine n) :=
  ⟨h.agrees.checkLine n, h.options, h.position, h.rest⟩

structure Lexer.Unifies (l' l : Lexer) : Prop where
  finished : l'.finished = l.finished
  withComments : l'.withComments = l.withComments
  context : l'.context = l.context.unified
  reader : l'.reader.Unifies l.reader

namespace Lexer.Unifies

variable {l' l : Lexer} {g w u : Text}

theorem before [Primitives] (h : Unifies l' l) (hc : NextCut l g w u) :
    l'.reading.before.Unifies l.reading.before := by
  have hstart : l'.reader.position = l.reader.position := h.reader.position
  have hgap : (gap l.reader.rest).text = g := hc.gap
  have hrest : l.reader.rest = (gap l.reader.rest).text ++ (w ++ u) := hgap.symm ▸ hc.text
  rw [before_reading, before_reading, Reader.follow, Reader.follow, hstart, h.reader.rest]
  exact h.reader.followFrom (unifies_gap _ 0) hrest (hgap.symm ▸ hc.apart_gap) _ (fun _ _ => rfl)

theorem lexeme [UnicodePrimitives] (h : Unifies l' l) (hc : NextCut l g w u) :
    l'.reading.lexeme.Unifies l.reading.lexeme := by
  rw [lexeme_reading, lexeme_reading, (h.before hc).rest, h.context, hc.before]
  exact Lexeme.unifies_scan l.context hc.starts

theorem after [UnicodePrimitives] (h : Unifies l' l) (hc : NextCut l g w u) :
    l'.reading.after.Unifies l.reading.after := by
  have hlexeme := h.lexeme hc
  have hrest : l.reading.before.rest = l.reading.lexeme.raw ++ u := by rw [hc.before, hc.raw]
  have hapart : Apart l.reading.lexeme.raw u := hc.raw.symm ▸ hc.apart.of_append
  have hfollow := hlexeme.follow (h.before hc) hrest hapart
  have hstop : (l'.reading.before.follow l'.reading.lexeme.trace).position =
      (l.reading.before.follow l.reading.lexeme.trace).position := hfollow.position
  rw [after_reading_eq, after_reading_eq, hlexeme.kind_eq, hstop]
  split
  · exact hfollow.checkLine _
  · exact hfollow

theorem token [UnicodePrimitives] (h : Unifies l' l) (hc : NextCut l g w u) :
    l'.reading.token.unranged = l.reading.token.unified.unranged := by
  have hlexeme := h.lexeme hc
  have hstart : l'.reading.before.position = l.reading.before.position := (h.before hc).position
  have hstop : l'.reading.after.position = l.reading.after.position := (h.after hc).position
  simp only [Reading.token, Token.unranged, Token.unified, hlexeme.raw_eq, hlexeme.value, hstart,
    hstop, (h.after hc).agrees.leftLine, hlexeme.malformed, hlexeme.unclosed]

theorem behind [UnicodePrimitives] (h : Unifies l' l) (hc : NextCut l g w u) :
    Unifies (l'.behind l'.reading) (l.behind l.reading) := by
  have hlexeme := h.lexeme hc
  have hafter := h.after hc
  have hcleared : ({ l'.reading.after with leftLine := false } : Reader).Unifies
      { l.reading.after with leftLine := false } :=
    ⟨⟨rfl, hafter.agrees.diagnostics, hafter.agrees.lines⟩, hafter.options, hafter.position,
      hafter.rest⟩
  rw [Lexer.behind, Lexer.behind, hlexeme.kind_eq, hlexeme.raw_eq]
  split
  · exact ⟨h.finished, h.withComments, h.context, hafter⟩
  · exact ⟨rfl, h.withComments, h.context, hafter⟩
  · refine ⟨h.finished, h.withComments, ?_, hcleared⟩
    rw [h.context]
    exact Context.update_unified _ _ _

/-- Lexers of unified texts go along with each other. -/
theorem lockstep [UnicodePrimitives] :
    Lockstep Unifies Token.unranged fun k => k.unified.unranged where
  finished := fun h => h.finished
  withComments := fun h => h.withComments
  token := by
    intro l' l h _
    obtain ⟨g, w, u, hc⟩ := exists_nextCut l
    exact h.token hc
  isComment := by
    intro l' l h _
    obtain ⟨g, w, u, hc⟩ := exists_nextCut l
    exact congrArg (fun kind => decide (kind = .comment)) (h.lexeme hc).kind_eq
  behind := by
    intro l' l h _
    obtain ⟨g, w, u, hc⟩ := exists_nextCut l
    exact h.behind hc

end Lexer.Unifies

namespace Text

theorem leadingMark_unified (t : Text) : t.unified.leadingMark = t.leadingMark := by
  rw [leadingMark_eq, leadingMark_eq]
  simp only [head?_unified_eq_some_iff (c := byteOrderMark) (by decide)]

theorem shebang?_unified (t : Text) : shebang? t.unified = shebang? t := by
  have hbang : ['#', '!'] <+: t.unified ↔ ['#', '!'] <+: t := by
    constructor
    · exact fun h => (echoes_unified t).prefix_of_open h (by simp [isOpen_iff])
    · rintro ⟨r, rfl⟩
      exact ⟨unified r, rfl⟩
  rw [shebang?_eq, shebang?_eq, takeWhile_unified (by simp)]
  simp only [hbang]

theorem drop_leadingMark_unified (t : Text) :
    t.unified.drop t.leadingMark.length = unified (t.drop t.leadingMark.length) := by
  obtain ⟨s, hs⟩ := t.leadingMark_prefix
  obtain ⟨m, hm⟩ : ∃ m, t.leadingMark = m := ⟨_, rfl⟩
  have hinline := t.inline_leadingMark
  rw [hm] at hs hinline ⊢
  rw [← hs, hinline.unified_append, List.drop_left, List.drop_left]

theorem preamble_unified (t : Text) : t.unified.preamble = t.preamble := by
  rw [preamble, preamble, leadingMark_unified, drop_leadingMark_unified, shebang?_unified]

end Text

theorem Cursor.position_advanceBy_inline {k : Cursor} {a u : Text} (h : k.rest = a ++ u)
    (ha : Inline a) : (k.advanceBy a.length).position =
      { k.position with column := k.position.column + a.length } := by
  induction a generalizing k with
  | nil => rfl
  | cons c a ih =>
    obtain ⟨hc, ha⟩ := (Text.inline_cons c a).mp ha
    rw [List.length_cons, advanceBy, ih (advance_cons h).1 ha, position_advance_inline h hc,
      Position.mk.injEq, Nat.add_comm a.length, Nat.add_assoc]
    exact ⟨rfl, rfl⟩

namespace Source

theorem position_ofText (t : Text) : (ofText t).cursor.position =
    { column := 1 + ((shebang? (t.drop t.leadingMark.length)).getD []).length } := by
  obtain ⟨r, hr⟩ := Text.shebang?_prefix (t.drop t.leadingMark.length)
  rw [cursor_ofText]
  exact Cursor.position_advanceBy_inline hr.symm (Text.inline_shebang? _)

theorem position_ofText_unified (t : Text) :
    (ofText t.unified).cursor.position = (ofText t).cursor.position := by
  rw [position_ofText, position_ofText, Text.leadingMark_unified, Text.drop_leadingMark_unified,
    Text.shebang?_unified]

theorem line?_unified (t : Text) (n : Nat) : (ofText t.unified).line? n = (ofText t).line? n := by
  have hlines : ∀ t : Text, (ofText t).line? n =
      if n = 0 then none else (t.lines.map Line.content)[n - 1]? := by
    intro t
    rw [line?, List.getElem?_map]
    rfl
  rw [hlines, hlines, Text.contents_lines_unified]

end Source

namespace Lexer

theorem unifies_start (t : Text) (o : Options) (w : Bool) :
    Unifies (start t.unified o w) (start t o w) := by
  obtain ⟨r, ht, hrest, -⟩ := exists_rest t o w
  obtain ⟨r', ht', hrest', -⟩ := exists_rest t.unified o w
  refine ⟨rfl, rfl, rfl, ⟨rfl, rfl, fun n => ?_⟩, rfl, ?_, ?_⟩
  · have hline : (start t.unified o w).reader.source.line? n =
        (start t o w).reader.source.line? n := Source.line?_unified t n
    rw [Reader.lineDiagnostics, Reader.lineDiagnostics, hline]
    rfl
  · exact Source.position_ofText_unified t
  · rw [Text.preamble_unified] at ht'
    have hunified := t.inline_preamble.unified_append r
    rw [← ht, ht'] at hunified
    rw [hrest, hrest', List.append_cancel_left hunified]

/-- The tokens of a unified text are those of the text itself, with their texts unified, and stand
at the same places. The diagnostics are the same. -/
theorem tokens_unified [UnicodePrimitives] (t : Text) (o : Options) (w : Bool) :
    (start t.unified o w).tokens.1.map Token.unranged =
        (start t o w).tokens.1.map (fun k => k.unified.unranged) ∧
      (lex t.unified o).diagnostics = (lex t o).diagnostics := by
  refine ⟨(Unifies.lockstep.tokens (unifies_start t o w)).1, ?_⟩
  have hlast := (Unifies.lockstep.tokens (unifies_start t o false)).2
  exact congrArg (List.mergeSort · fun d e => d.position ≤ e.position)
    hlast.reader.agrees.toList_eq

end Lexer

end EcmaLex
