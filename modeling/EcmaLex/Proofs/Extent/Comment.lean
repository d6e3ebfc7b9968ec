import EcmaLex.Lexeme.Comment
import EcmaLex.Proofs.Echo

/-!
# The extent of comments

A comment is a prefix of its text. A line comment is the same before any end of a line, and a block
comment that is closed is the same before anything.
-/

namespace EcmaLex

namespace CommentPiece

/-- What is left behind the pieces of a comment: nothing, or the mark that closes it. -/
theorem exists_pieces (depth : Nat) (t : Text) : ∃ r, t = (scan depth t).flatMap text ++ r ∧
    (r = [] ∨ ∃ r', r = '*' :: '/' :: r') := by
  fun_induction scan depth t with
  | case1 => exact ⟨[], rfl, .inl rfl⟩
  | case2 depth t ih =>
    obtain ⟨r, ht, hr⟩ := ih
    exact ⟨r, by rw [List.flatMap_cons, List.append_assoc, ← ht]; rfl, hr⟩
  | case3 t => exact ⟨_, rfl, .inr ⟨t, rfl⟩⟩
  | case4 t n ih =>
    obtain ⟨r, ht, hr⟩ := ih
    exact ⟨r, by rw [List.flatMap_cons, List.append_assoc, ← ht]; rfl, hr⟩
  | case5 depth c t _ _ ih =>
    obtain ⟨r, ht, hr⟩ := ih
    exact ⟨r, by rw [List.flatMap_cons, List.append_assoc, ← ht]; rfl, hr⟩

theorem scan_resume {depth : Nat} {a u : Text} (v : Text)
    (ha : (scan depth (a ++ '*' :: '/' :: u)).flatMap text = a) :
    scan depth (a ++ '*' :: '/' :: v) = scan depth (a ++ '*' :: '/' :: u) := by
  induction depth, a using scan.induct with
  | case1 depth =>
    cases depth with
    | zero => rfl
    | succ n => simp [scan, text] at ha
  | case2 depth a ih =>
    rw [List.cons_append, List.cons_append, scan] at ha ⊢
    rw [ih (by simpa [text] using ha), List.cons_append, List.cons_append, scan]
  | case3 a => simp [scan] at ha
  | case4 a n ih =>
    rw [List.cons_append, List.cons_append, scan] at ha ⊢
    rw [ih (by simpa [text] using ha), List.cons_append, List.cons_append, scan]
  | case5 depth c a hopen hclose ih =>
    by_cases hc : c = '/' ∧ a = []
    · obtain ⟨rfl, rfl⟩ := hc
      simp [scan, text] at ha
    · have hopen' : ∀ w t, c = '/' → a ++ '*' :: '/' :: w = '*' :: t → False := by
        intro w t hc' heq
        cases a with
        | nil => exact hc ⟨hc', rfl⟩
        | cons d a => exact hopen a hc' (by rw [(List.cons.inj heq).1])
      have hclose' : ∀ w t, c = '*' → a ++ '*' :: '/' :: w = '/' :: t → False := by
        intro w t hc' heq
        cases a with
        | nil => simp at heq
        | cons d a => exact hclose a hc' (by rw [(List.cons.inj heq).1])
      rw [List.cons_append, scan.eq_5 _ _ _ (hopen' u) (hclose' u)] at ha
      rw [List.cons_append, scan.eq_5 _ _ _ (hopen' v) (hclose' v), List.cons_append,
        scan.eq_5 _ _ _ (hopen' u) (hclose' u), ih (by simpa [text] using ha)]

end CommentPiece

namespace Lexeme

theorem raw_lineComment (t : Text) :
    (lineComment t).raw = '/' :: '/' :: t.takeWhile (!isLineTerminator ·) := by
  simp [raw, lineComment]

theorem exists_of_raw_lineComment {a t : Text} (ha : (lineComment t).raw = '/' :: a) :
    ∃ a', a = '/' :: a' := by
  rw [raw_lineComment] at ha
  exact ⟨_, (List.cons.inj ha).2.symm⟩

theorem lineComment_prefix (t : Text) : (lineComment t).raw <+: '/' :: '/' :: t := by
  rw [raw_lineComment, List.prefix_cons_inj, List.prefix_cons_inj]
  exact List.takeWhile_prefix _

theorem lineComment_resume {a u v : Text} (ha : (lineComment (a ++ u)).raw = '/' :: '/' :: a)
    (hv : Text.endsLine u → Text.endsLine v) : lineComment (a ++ v) = lineComment (a ++ u) := by
  rw [raw_lineComment, List.cons_inj_right, List.cons_inj_right] at ha
  have hu : Text.endsLine u := by
    cases u with
    | nil => rfl
    | cons c u => simpa [Text.endsLine] using Text.head?_not_of_takeWhile ha (c := c) rfl
  have hva : (a ++ v).takeWhile (!isLineTerminator ·) = a := by
    apply Text.takeWhile_append_of_head? ha
    intro c hc
    simpa [Text.endsLine, hc] using hv hu
  simp only [lineComment, hva, ha]

theorem raw_blockComment (t : Text) : (blockComment t).raw =
    '/' :: '*' :: ((CommentPiece.scan 0 t).flatMap CommentPiece.text ++
      if (blockComment t).unclosed then [] else ['*', '/']) := by
  simp only [raw, blockComment]
  split <;> simp_all

theorem exists_of_raw_blockComment {a t : Text} (ha : (blockComment t).raw = '/' :: a) :
    ∃ a', a = '*' :: a' := by
  rw [raw_blockComment] at ha
  exact ⟨_, (List.cons.inj ha).2.symm⟩

theorem unclosed_blockComment {body r : Text}
    (hb : (CommentPiece.scan 0 (body ++ r)).flatMap CommentPiece.text = body) :
    (blockComment (body ++ r)).unclosed = r.isEmpty := by
  simp [blockComment, hb]

/-- A block comment is closed by its mark, or is the whole text. -/
theorem blockComment_cases (t : Text) : ∃ body r, t = body ++ r ∧
    (CommentPiece.scan 0 t).flatMap CommentPiece.text = body ∧
    ((∃ r', r = '*' :: '/' :: r' ∧ (blockComment t).unclosed = false) ∨
      r = [] ∧ (blockComment t).unclosed = true) := by
  obtain ⟨r, ht, hr⟩ := CommentPiece.exists_pieces 0 t
  generalize hb : (CommentPiece.scan 0 t).flatMap CommentPiece.text = body at ht
  subst ht
  refine ⟨body, r, rfl, rfl, ?_⟩
  rw [unclosed_blockComment hb]
  rcases hr with rfl | ⟨r', rfl⟩
  · exact .inr ⟨rfl, rfl⟩
  · exact .inl ⟨r', rfl, rfl⟩

theorem blockComment_prefix (t : Text) : (blockComment t).raw <+: '/' :: '*' :: t := by
  obtain ⟨body, r, ht, hb, ⟨r', rfl, hu⟩ | ⟨rfl, hu⟩⟩ := blockComment_cases t
  · rw [raw_blockComment, hb, hu, ht]
    exact ⟨r', by simp⟩
  · rw [raw_blockComment, hb, hu, ht]
    exact ⟨[], by simp⟩

theorem eq_nil_of_unclosed_blockComment {a u : Text}
    (ha : (blockComment (a ++ u)).raw = '/' :: '*' :: a) (hu : (blockComment (a ++ u)).unclosed) :
    u = [] := by
  obtain ⟨body, r, ht, hb, ⟨r', -, hu'⟩ | ⟨rfl, hu'⟩⟩ := blockComment_cases (a ++ u)
  · simp [hu'] at hu
  · rw [raw_blockComment, hb, hu', if_pos rfl, List.append_nil, List.cons_inj_right,
      List.cons_inj_right] at ha
    subst ha
    simpa using ht

theorem blockComment_resume {a u v : Text} (ha : (blockComment (a ++ u)).raw = '/' :: '*' :: a)
    (hv : (blockComment (a ++ u)).unclosed → v = []) :
    blockComment (a ++ v) = blockComment (a ++ u) := by
  obtain ⟨body, r, ht, hb, ⟨r', rfl, hu⟩ | ⟨-, hu⟩⟩ := blockComment_cases (a ++ u)
  · rw [raw_blockComment, hb, hu, List.cons_inj_right, List.cons_inj_right] at ha
    obtain rfl : a = body ++ ['*', '/'] := by simpa using ha.symm
    obtain rfl : u = r' := by simpa using ht
    rw [List.append_assoc] at hb ⊢
    have hs : CommentPiece.scan 0 (body ++ (['*', '/'] ++ v)) =
        CommentPiece.scan 0 (body ++ (['*', '/'] ++ u)) := CommentPiece.scan_resume v hb
    rw [List.append_assoc]
    simp only [blockComment, hs, hb, List.drop_left]
    rfl
  · rw [eq_nil_of_unclosed_blockComment ha hu, hv hu]

end Lexeme

end EcmaLex
