import EcmaLex.Highlight
import EcmaLex.Primitives.Standard
import EcmaLex.Proofs.Slices

/-!
# Highlighting

A painted text falls into characters and control sequences. Without the sequences it is the text
that was painted, since the tokens tile that text. And each span between a colour and the next reset
is one token.
-/

namespace EcmaLex

inductive PaintedPiece where
  | char (c : Char)
  | sequence (codes : Text)
deriving DecidableEq, Repr

namespace PaintedPiece

def codesAt? : Text → Option Text
  | '\x1b' :: '[' :: t =>
    let codes := t.takeWhile isStyleCode
    if (t.drop codes.length).head? = some 'm' then some codes else none
  | _ => none

def scan : Text → List PaintedPiece
  | [] => []
  | c :: t =>
    match codesAt? (c :: t) with
    | some codes => sequence codes :: scan (t.drop (codes.length + 2))
    | none => char c :: scan t
termination_by t => t.length
decreasing_by
  · simp only [List.length_drop, List.length_cons]; omega
  · simp

def char? : PaintedPiece → Option Char
  | char c => some c
  | sequence _ => none

def plain (ps : List PaintedPiece) : Text := ps.filterMap char?

def reset [Painter] : PaintedPiece := sequence Painter.resetCodes

def upToReset? [Painter] (ps : List PaintedPiece) : Option (List PaintedPiece) :=
  if reset ∈ ps then some (ps.takeWhile (· ≠ reset)) else none

/-- What stands behind each colour, up to the next reset. -/
def spans [Painter] : List PaintedPiece → List (Option (List PaintedPiece))
  | [] => []
  | char _ :: ps => spans ps
  | sequence codes :: ps =>
    if codes = Painter.resetCodes then spans ps else upToReset? ps :: spans ps

variable {a codes u : Text} {ps : List PaintedPiece}

theorem codesAt?_of_ne {c : Char} (h : c ≠ '\x1b') (t : Text) : codesAt? (c :: t) = none := by
  unfold codesAt?
  split
  · rename_i heq
    exact absurd (List.cons.inj heq).1 h
  · rfl

theorem scan_append (h : '\x1b' ∉ a) (u : Text) : scan (a ++ u) = a.map char ++ scan u := by
  induction a with
  | nil => rfl
  | cons c a ih =>
    obtain ⟨hc, ha⟩ : '\x1b' ≠ c ∧ '\x1b' ∉ a := by simpa using h
    rw [List.cons_append, scan, codesAt?_of_ne (Ne.symm hc)]
    exact congrArg (char c :: ·) (ih ha)

theorem scan_styleSequence (h : codes.all isStyleCode) (u : Text) :
    scan (styleSequence codes ++ u) = sequence codes :: scan u := by
  have htake : (codes ++ 'm' :: u).takeWhile isStyleCode = codes := by
    rw [List.takeWhile_append_of_pos (List.all_eq_true.mp h),
      List.takeWhile_cons_of_neg (by decide), List.append_nil]
  have hcodes : codesAt? ('\x1b' :: '[' :: (codes ++ 'm' :: u)) = some codes := by
    simp [codesAt?, htake]
  have htext : styleSequence codes ++ u = '\x1b' :: '[' :: (codes ++ 'm' :: u) := by
    simp [styleSequence]
  have hbehind : ('[' :: (codes ++ 'm' :: u)).drop (codes.length + 2) = u := by
    rw [List.drop_succ_cons, ← List.drop_drop, List.drop_left]
    rfl
  rw [htext, scan, hcodes]
  exact congrArg (sequence codes :: scan ·) hbehind

theorem plain_append (ps qs : List PaintedPiece) : plain (ps ++ qs) = plain ps ++ plain qs :=
  List.filterMap_append

theorem plain_char (a : Text) : plain (a.map char) = a := by
  induction a with
  | nil => rfl
  | cons c a ih => exact congrArg (c :: ·) ih

theorem spans_char_append [Painter] (a : Text) (ps : List PaintedPiece) :
    spans (a.map char ++ ps) = spans ps := by
  induction a with
  | nil => rfl
  | cons c a ih => exact ih

theorem spans_reset [Painter] (ps : List PaintedPiece) : spans (reset :: ps) = spans ps :=
  if_pos rfl

theorem plain_scan [Painter] (h : '\x1b' ∉ a) : plain (scan a) = a ∧ spans (scan a) = [] := by
  have hscan := scan_append h []
  rw [List.append_nil, scan.eq_1] at hscan
  rw [hscan, plain_append, plain_char, spans_char_append]
  exact ⟨List.append_nil a, rfl⟩

theorem upToReset?_char_append [Painter] (a : Text) (ps : List PaintedPiece) :
    upToReset? (a.map char ++ reset :: ps) = some (a.map char) := by
  have hne : ∀ p ∈ a.map char, decide (p ≠ reset) := by
    intro p hp
    obtain ⟨c, -, rfl⟩ := List.mem_map.mp hp
    rfl
  rw [upToReset?, if_pos (by simp), List.takeWhile_append_of_pos hne,
    List.takeWhile_cons_of_neg (by simp), List.append_nil]

end PaintedPiece

open PaintedPiece

namespace Token

def span (k : Token) : List (Option (List PaintedPiece)) :=
  if k.style = {} then [] else [some (k.raw.map .char)]

theorem plain_painted [Painter] {k : Token} (h : '\x1b' ∉ k.raw) (u : Text) :
    plain (scan (k.painted ++ u)) = k.raw ++ plain (scan u) ∧
      spans (scan (k.painted ++ u)) = k.span ++ spans (scan u) := by
  unfold painted span
  by_cases hk : k.style = {}
  · rw [hk, Painter.paint_plain, scan_append h, plain_append, plain_char, spans_char_append,
      if_pos rfl]
    exact ⟨rfl, rfl⟩
  · have hscan : scan (Painter.paint k.style k.raw ++ u) =
        sequence (Painter.codes k.style) :: (k.raw.map char ++ reset :: scan u) := by
      rw [Painter.paint_of_ne hk, List.append_assoc, List.append_assoc,
        scan_styleSequence (Painter.isStyleCode_codes _), scan_append h,
        scan_styleSequence Painter.isStyleCode_reset]
      rfl
    rw [hscan, if_neg hk]
    constructor
    · show plain (k.raw.map char ++ reset :: scan u) = _
      rw [plain_append, plain_char]
      rfl
    · rw [spans, if_neg (Painter.codes_ne_reset hk), upToReset?_char_append, spans_char_append,
        spans_reset]
      rfl

end Token

structure Shows [Painter] (painted text : Text) (found : List (Option (List PaintedPiece))) :
    Prop where
  plain : plain (scan painted) = text
  spans : spans (scan painted) = found

/-- A token is painted in its place behind some text `q` and the gap `g`, and then what follows
it. -/
theorem Shows.paint_cons [Painter] {q g u : Text} {m : Nat} {k : Token} {ks : List Token}
    (hr : '\x1b' ∉ q ++ (g ++ (k.raw ++ u)))
    (hstart : k.range.1 = m + q.utf8Size + g.utf8Size)
    (h : '\x1b' ∉ u → Shows (Highlight.paint k.range.2 u ks) u (ks.flatMap Token.span)) :
    Shows (Highlight.paint m (q ++ (g ++ (k.raw ++ u))) (k :: ks)) (q ++ (g ++ (k.raw ++ u)))
      ((k :: ks).flatMap Token.span) := by
  rw [← List.append_assoc] at hr ⊢
  obtain ⟨hgap, hrest⟩ : '\x1b' ∉ q ++ g ∧ '\x1b' ∉ k.raw ++ u :=
    ⟨fun hesc => hr (List.mem_append_left _ hesc), fun hesc => hr (List.mem_append_right _ hesc)⟩
  obtain ⟨hraw, hu⟩ : '\x1b' ∉ k.raw ∧ '\x1b' ∉ u := by simpa using hrest
  obtain ⟨hplain, hspans⟩ := Token.plain_painted hraw (Highlight.paint k.range.2 u ks)
  have hpaint : Highlight.paint m ((q ++ g) ++ (k.raw ++ u)) (k :: ks) =
      (q ++ g) ++ (k.painted ++ Highlight.paint k.range.2 u ks) := by
    have hsplit := Text.splitAtByte_append (q ++ g) (k.raw ++ u)
    rw [Highlight.paint, hstart, Nat.add_assoc, Nat.add_sub_cancel_left, ← Text.utf8Size_append,
      hsplit]
    simp
  rw [hpaint]
  constructor
  · rw [scan_append hgap, plain_append, plain_char, hplain, (h hu).plain]
  · rw [scan_append hgap, spans_char_append, hspans, (h hu).spans]
    rfl

namespace TilesFrom

variable {t p r : Text} {n : Nat} {ks : List Token}

/-- The text behind an offset starts with the gap and the token that are read there. -/
theorem exists_behind {g : Text} {k : Token} (ht : t = p ++ r) (hp : p.utf8Size = n)
    (hg : t.slice? n k.range.1 = some g) (hk : t.slice? k.range.1 k.range.2 = some k.raw) :
    ∃ u, r = g ++ (k.raw ++ u) ∧ k.range.1 = n + g.utf8Size ∧
      t = (p ++ (g ++ k.raw)) ++ u ∧ (p ++ (g ++ k.raw)).utf8Size = k.range.2 := by
  obtain ⟨p₁, u₁, ht₁, hp₁, hstart⟩ := Text.slice?_eq_some_iff.mp hg
  obtain ⟨p₂, u₂, ht₂, hp₂, hstop⟩ := Text.slice?_eq_some_iff.mp hk
  obtain ⟨-, rfl⟩ := Text.append_inj_of_utf8Size (ht.symm.trans ht₁) (hp.trans hp₁.symm)
  have hsize : (p ++ g).utf8Size = p₂.utf8Size := by rw [Text.utf8Size_append, hp, hp₂, hstart]
  have hsplit : (p ++ g) ++ u₁ = p₂ ++ (k.raw ++ u₂) := by rw [List.append_assoc, ← ht, ht₂]
  obtain ⟨-, rfl⟩ := Text.append_inj_of_utf8Size hsplit hsize
  refine ⟨u₂, rfl, hstart, by simp [ht], ?_⟩
  rw [Text.utf8Size_append, Text.utf8Size_append]
  omega

/-- Painting what is tiled shows it, with the tokens that have a colour for spans. What stands
before the tiles is kept. -/
theorem shows [Painter] {q : Text} (h : TilesFrom t n ks) (ht : t = (p ++ q) ++ r)
    (hp : (p ++ q).utf8Size = n) (hr : '\x1b' ∉ q ++ r) :
    Shows (Highlight.paint p.utf8Size (q ++ r) ks) (q ++ r) (ks.flatMap Token.span) := by
  induction h generalizing p q r with
  | @eof n g k hg hs hk hraw hrange =>
    have hslice := (TilesFrom.eof hg hs hk hraw hrange).slice k List.mem_cons_self
    obtain ⟨u, rfl, hstart, -⟩ := exists_behind ht hp hg hslice
    rw [← hp, Text.utf8Size_append] at hstart
    exact .paint_cons hr hstart fun hu => ⟨(plain_scan hu).1, (plain_scan hu).2⟩
  | @token n g k ks hg hs hk hraw hne h ih =>
    obtain ⟨u, rfl, hstart, ht', hstop⟩ := exists_behind ht hp hg hraw
    rw [← hp, Text.utf8Size_append] at hstart
    refine .paint_cons hr hstart fun hu => ?_
    rw [← List.append_nil (p ++ q ++ (g ++ k.raw))] at ht' hstop
    have hbehind := ih ht' hstop hu
    rw [List.append_nil] at hstop
    rwa [hstop] at hbehind

end TilesFrom

/-- Highlighting a text without control sequences adds nothing else to it. What stands between a
colour and the next reset is a token, and each token that has a colour makes one such span. -/
theorem highlight_adds_colour [Primitives] [Painter] (t : Text) (h : '\x1b' ∉ t) :
    plain (scan (highlight t)) = t ∧ spans (scan (highlight t)) =
      ((Lexer.start t {} true).tokens.1.filter (·.style ≠ {})).map
        fun k => some (k.raw.map .char) := by
  obtain ⟨r, ht, hrest, hoffset⟩ := Lexer.exists_rest t {} true
  have htiles := Lexer.tilesFrom_readings (Lexer.start t {} true) rfl (hrest ▸ ht) hoffset
  rw [← Lexer.tokens_start] at htiles
  obtain ⟨q, hq⟩ : ∃ q, t.preamble = q := ⟨_, rfl⟩
  rw [hq] at ht htiles
  have hshows := htiles.shows (p := []) (q := q) ht rfl (ht ▸ h)
  rw [← ht] at hshows
  refine ⟨hshows.plain, hshows.spans.trans ?_⟩
  induction (Lexer.start t {} true).tokens.1 with
  | nil => rfl
  | cons k ks ih =>
    rw [List.flatMap_cons, ih, Token.span]
    by_cases hk : k.style = {} <;> simp [hk]

/-- A keyword, and a string that is not closed. The name between them has no colour. -/
theorem highlight_adds_colour_of_malformed : '\x1b' ∉ "if a\n'b".toList ∧
    plain (scan (highlight "if a\n'b".toList)) = "if a\n'b".toList ∧
    spans (scan (highlight "if a\n'b".toList)) =
      [some ("if".toList.map .char), some ("'b".toList.map .char)] := by
  have hesc : '\x1b' ∉ "if a\n'b".toList := by decide
  obtain ⟨hplain, hspans⟩ := highlight_adds_colour _ hesc
  refine ⟨hesc, hplain, hspans.trans ?_⟩
  decide +kernel

end EcmaLex
