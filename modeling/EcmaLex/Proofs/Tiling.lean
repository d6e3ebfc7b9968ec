import EcmaLex.Proofs.Cuts
import EcmaLex.Proofs.Preamble

/-!
# Tilings

The tokens of a text with the gaps between them make up the whole text behind its preamble. Nothing
is lost: each token has the text at its range, and gaps hold only what may be skipped.
-/

namespace EcmaLex

namespace Text

theorem splitAtByte_append (s t : Text) : (s ++ t).splitAtByte s.utf8Size = some (s, t) := by
  induction s with
  | nil => cases t <;> rfl
  | cons c s ih =>
    have hc := Char.utf8Size_pos c
    obtain ⟨n, hn⟩ : ∃ n, utf8Size (c :: s) = n + 1 := ⟨utf8Size (c :: s) - 1, by simp; omega⟩
    have hlt : ¬ n + 1 < c.utf8Size := by rw [← hn, utf8Size_cons]; omega
    have hsub : n + 1 - c.utf8Size = utf8Size s := by rw [← hn, utf8Size_cons]; omega
    rw [hn, List.cons_append, splitAtByte, if_neg hlt, hsub, ih]
    · rfl
    · omega

theorem slice?_append (s m t : Text) :
    (s ++ (m ++ t)).slice? s.utf8Size (s.utf8Size + m.utf8Size) = some m := by
  rw [slice?, if_neg (by omega), splitAtByte_append, Nat.add_sub_cancel_left]
  simp [splitAtByte_append]

theorem le_of_slice?_eq_some {t s : Text} {m n : Nat} (h : t.slice? m n = some s) : m ≤ n := by
  unfold slice? at h
  split at h
  · simp at h
  · omega

end Text

def GapsFrom (t : Text) : Nat → List Token → Prop
  | _, [] => True
  | n, k :: ks => (∃ g, t.slice? n k.range.1 = some g ∧ Skippable g) ∧ GapsFrom t k.range.2 ks

/-- Tokens tile a text: each has the text at its range, they follow one another up to the end of the
text, which is the last of them, and they leave nothing out but gaps. -/
structure Tiling (t : Text) (ks : List Token) : Prop where
  slice : ∀ k ∈ ks, t.slice? k.range.1 k.range.2 = some k.raw
  nonempty : ∀ k ∈ ks, k.isEof = false → k.raw ≠ []
  ordered : ks.Pairwise fun k k' => k.range.2 ≤ k'.range.1
  ended : ∃ body e, ks = body ++ [e] ∧ (∀ k ∈ body, k.isEof = false) ∧ e.isEof = true ∧
    e.range = (t.utf8Size, t.utf8Size)
  gaps : GapsFrom t t.preamble.utf8Size ks

inductive TilesFrom (t : Text) : Nat → List Token → Prop where
  | eof {n : Nat} {g : Text} {k : Token} (hg : t.slice? n k.range.1 = some g) (hs : Skippable g)
      (hk : k.isEof = true) (hraw : k.raw = []) (hrange : k.range = (t.utf8Size, t.utf8Size)) :
      TilesFrom t n [k]
  | token {n : Nat} {g : Text} {k : Token} {ks : List Token}
      (hg : t.slice? n k.range.1 = some g) (hs : Skippable g) (hk : k.isEof = false)
      (hraw : t.slice? k.range.1 k.range.2 = some k.raw) (hne : k.raw ≠ [])
      (h : TilesFrom t k.range.2 ks) : TilesFrom t n (k :: ks)

namespace TilesFrom

variable {t : Text} {n : Nat} {ks : List Token}

theorem slice (h : TilesFrom t n ks) : ∀ k ∈ ks, t.slice? k.range.1 k.range.2 = some k.raw := by
  induction h with
  | eof hg hs hk hraw hrange =>
    intro k hmem
    obtain rfl := List.mem_singleton.mp hmem
    have hend := Text.slice?_append t [] []
    rw [hrange, hraw]
    simpa using hend
  | token hg hs hk hraw hne h ih => exact List.forall_mem_cons.mpr ⟨hraw, ih⟩

theorem nonempty (h : TilesFrom t n ks) : ∀ k ∈ ks, k.isEof = false → k.raw ≠ [] := by
  induction h with
  | eof hg hs hk hraw hrange =>
    intro k hmem hfalse
    obtain rfl := List.mem_singleton.mp hmem
    simp [hk] at hfalse
  | token hg hs hk hraw hne h ih => exact List.forall_mem_cons.mpr ⟨fun _ => hne, ih⟩

theorem le_start (h : TilesFrom t n ks) : ∀ k ∈ ks, n ≤ k.range.1 := by
  induction h with
  | eof hg hs hk hraw hrange =>
    intro k hmem
    obtain rfl := List.mem_singleton.mp hmem
    exact Text.le_of_slice?_eq_some hg
  | token hg hs hk hraw hne h ih =>
    have hstart := Text.le_of_slice?_eq_some hg
    have hstop := Text.le_of_slice?_eq_some hraw
    refine List.forall_mem_cons.mpr ⟨hstart, fun k' hk' => ?_⟩
    exact hstart.trans (hstop.trans (ih k' hk'))

theorem ordered (h : TilesFrom t n ks) : ks.Pairwise fun k k' => k.range.2 ≤ k'.range.1 := by
  induction h with
  | eof => exact List.pairwise_singleton _ _
  | token hg hs hk hraw hne h ih => exact List.pairwise_cons.mpr ⟨h.le_start, ih⟩

theorem ended (h : TilesFrom t n ks) : ∃ body e, ks = body ++ [e] ∧
    (∀ k ∈ body, k.isEof = false) ∧ e.isEof = true ∧ e.range = (t.utf8Size, t.utf8Size) := by
  induction h with
  | @eof n g k hg hs hk hraw hrange => exact ⟨[], k, rfl, by simp, hk, hrange⟩
  | @token n g k ks hg hs hk hraw hne h ih =>
    obtain ⟨body, e, rfl, hbody, he, hrange⟩ := ih
    exact ⟨k :: body, e, rfl, List.forall_mem_cons.mpr ⟨hk, hbody⟩, he, hrange⟩

theorem gaps (h : TilesFrom t n ks) : GapsFrom t n ks := by
  induction h with
  | eof hg hs => exact ⟨⟨_, hg, hs⟩, trivial⟩
  | token hg hs hk hraw hne h ih => exact ⟨⟨_, hg, hs⟩, ih⟩

end TilesFrom

namespace Lexer

/-- A run tiles the text from the place where its reader stands. -/
theorem tilesFrom_readings [Primitives] {t : Text} (l : Lexer) (hf : l.finished = false) {p : Text}
    (ht : t = p ++ l.reader.rest) (hp : l.reader.offset = p.utf8Size) :
    TilesFrom t p.utf8Size (l.readings.map Reading.token) := by
  induction l using readings_induction generalizing p with
  | finished l h => simp [h] at hf
  | reading l h ih =>
    obtain ⟨g, w, u, hc⟩ := exists_nextCut l
    -- The text `p` has been read: with each reading its gap and its lexeme are moved there.
    have hbefore := hp ▸ hc.offset_before
    have hafter := hp ▸ hc.offset_after
    have hgap : t.slice? p.utf8Size l.reading.token.range.1 = some g := by
      have hstart : l.reading.token.range.1 = p.utf8Size + g.utf8Size := hbefore
      rw [hstart, ht, hc.text]
      exact Text.slice?_append p g (w ++ u)
    rw [readings_of_not_finished h, List.map_cons]
    have hraw : l.reading.token.raw = w := hc.raw
    by_cases hw : w = []
    · have hu := hc.eof hw
      subst hw hu
      have hsize : t.utf8Size = p.utf8Size + g.utf8Size := by
        rw [ht, hc.text]
        simp
      rw [readings_of_finished ((hc.finished_behind h).mpr rfl)]
      refine .eof hgap hc.skippable (decide_eq_true (hc.kind_eq_eof_iff.mpr rfl)) hraw ?_
      rw [hsize]
      exact Prod.ext hbefore hafter
    · have hfin := hc.not_finished_behind h hw
      have hslice : t.slice? l.reading.token.range.1 l.reading.token.range.2 =
          some l.reading.token.raw := by
        have hrange : l.reading.token.range =
            (p.utf8Size + g.utf8Size, p.utf8Size + g.utf8Size + w.utf8Size) :=
          Prod.ext hbefore hafter
        rw [hrange, hraw, ht, hc.text, ← List.append_assoc, ← Text.utf8Size_append]
        exact Text.slice?_append (p ++ g) w u
      have hstop : (p ++ g ++ w).utf8Size = l.reading.token.range.2 := by
        rw [Text.utf8Size_append, Text.utf8Size_append]
        exact hafter.symm
      refine .token hgap hc.skippable ?_ hslice (hraw ▸ hw) ?_
      · exact decide_eq_false (fun hk => hw (hc.kind_eq_eof_iff.mp hk))
      · rw [← hstop]
        apply ih hfin
        · rw [hc.rest_behind, ht, hc.text]
          simp
        · rw [hstop]
          exact NextCut.offset_behind l

/-- Lexing a text with its comments comes to an end and tiles the text. -/
theorem start_yields_tiling [Primitives] (t : Text) (o : Options) : ∃ ks last,
    Yields (start t o true) ks last ∧ last.next = none ∧ Tiling t ks := by
  have hyields := yields_tokens (start t o true)
  obtain ⟨r, ht, hrest, hoffset⟩ := exists_rest t o true
  have htiles := tilesFrom_readings (start t o true) rfl (hrest ▸ ht) hoffset
  rw [← tokens_start] at htiles
  refine ⟨_, _, hyields, hyields.next_eq_none, ?_⟩
  exact {
    slice := htiles.slice
    nonempty := htiles.nonempty
    ordered := htiles.ordered
    ended := htiles.ended
    gaps := htiles.gaps }

end Lexer

end EcmaLex
