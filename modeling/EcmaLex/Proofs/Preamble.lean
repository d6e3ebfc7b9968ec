import EcmaLex.Proofs.Cursor
import EcmaLex.Proofs.Echo
import EcmaLex.Proofs.Run

/-!
# Preambles

A leading byte order mark and a shebang line are no part of what is lexed. They end where the first
line ends at the latest.
-/

namespace EcmaLex

namespace Text

def leadingMark : Text → Text
  | c :: _ => if c = byteOrderMark then [c] else []
  | [] => []

/-- What stands before the first character that is lexed. -/
def preamble (t : Text) : Text :=
  leadingMark t ++ (shebang? (t.drop (leadingMark t).length)).getD []

theorem leadingMark_eq (t : Text) :
    leadingMark t = if t.head? = some byteOrderMark then [byteOrderMark] else [] := by
  cases t with
  | nil => rfl
  | cons c t =>
    by_cases hc : c = byteOrderMark
    · simp [leadingMark, hc]
    · simp [leadingMark, hc]

theorem shebang?_eq (t : Text) : shebang? t =
    if ['#', '!'] <+: t then some (t.takeWhile (!isLineTerminator ·)) else none := by
  unfold shebang?
  split
  · simp [isLineTerminator]
  · rename_i h
    rw [if_neg]
    rintro ⟨r, rfl⟩
    exact h r rfl

theorem leadingMark_prefix (t : Text) : leadingMark t <+: t := by
  cases t with
  | nil => exact List.nil_prefix
  | cons c t =>
    rw [leadingMark]
    split
    · exact ⟨t, rfl⟩
    · exact List.nil_prefix

theorem shebang?_prefix (t : Text) : (shebang? t).getD [] <+: t := by
  unfold shebang?
  split
  · rw [Option.getD_some, List.prefix_cons_inj, List.prefix_cons_inj]
    exact List.takeWhile_prefix _
  · exact List.nil_prefix

theorem preamble_eq_nil {t : Text} (hb : t.head? ≠ some byteOrderMark)
    (hs : ¬ ['#', '!'] <+: t) : preamble t = [] := by
  have hmark : leadingMark t = [] := by rw [leadingMark_eq, if_neg hb]
  have hbang : shebang? t = none := by rw [shebang?_eq, if_neg hs]
  simp [preamble, hmark, hbang]

theorem leadingMark_append_line (s t : Text) :
    leadingMark (s ++ '\n' :: t) = leadingMark s := by
  cases s with
  | nil => rfl
  | cons c s => rfl

theorem shebang?_append_line (s t : Text) : shebang? (s ++ '\n' :: t) = shebang? s := by
  match s with
  | [] => rfl
  | [c] =>
    by_cases hc : c = '#'
    · subst hc
      rfl
    · simp [shebang?, hc]
  | c :: d :: s =>
    by_cases h : c = '#' ∧ d = '!'
    · obtain ⟨rfl, rfl⟩ := h
      have htake : ∀ r : Text, (r ++ '\n' :: t).takeWhile (!isLineTerminator ·) =
          r.takeWhile (!isLineTerminator ·) := by
        intro r
        induction r with
        | nil => rfl
        | cons e r ih => rw [List.cons_append, List.takeWhile_cons, List.takeWhile_cons, ih]
      simp [shebang?, htake]
    · simp_all [shebang?]

theorem preamble_append_line (s t : Text) : preamble (s ++ '\n' :: t) = preamble s := by
  obtain ⟨r, hr⟩ := leadingMark_prefix s
  rw [preamble, preamble, leadingMark_append_line,
    List.drop_append_of_le_length (List.IsPrefix.length_le ⟨r, hr⟩), shebang?_append_line]

structure KeepsPreamble (r v : Text) : Prop where
  mark : v.head? = some byteOrderMark → r.head? = some byteOrderMark
  bang : ['#', '!'] <+: v → ['#', '!'] <+: r
  ends : endsLine r → endsLine v

namespace KeepsPreamble

variable {r v : Text}

theorem leadingMark_eq (h : KeepsPreamble r v) {m s : Text} (hm : leadingMark (m ++ (s ++ r)) = m) :
    leadingMark (m ++ (s ++ v)) = m := by
  rw [Text.leadingMark_eq] at hm ⊢
  cases m with
  | cons c m => exact hm
  | nil =>
    have hr : (s ++ r).head? ≠ some byteOrderMark := by
      intro hr
      simp [hr] at hm
    refine if_neg ?_
    cases s with
    | nil => exact fun hv => hr (h.mark hv)
    | cons c s => exact hr

theorem shebang?_eq (h : KeepsPreamble r v) {s : Text} (hs : (shebang? (s ++ r)).getD [] = s) :
    shebang? (s ++ v) = shebang? (s ++ r) := by
  by_cases hbang : ['#', '!'] <+: s ++ r
  · obtain ⟨x, hx⟩ := hbang
    rw [← hx] at hs
    obtain ⟨s, rfl⟩ : ∃ s', s = '#' :: '!' :: s' := ⟨_, hs.symm⟩
    obtain rfl : s ++ r = x := by simpa using hx.symm
    have htake : (s ++ r).takeWhile (!isLineTerminator ·) = s := by simpa [shebang?] using hs
    have hr : endsLine r := by
      cases hr : r.head? with
      | none => simp [endsLine, hr]
      | some c => simpa [endsLine, hr] using head?_not_of_takeWhile htake hr
    have htake' : (s ++ v).takeWhile (!isLineTerminator ·) = s := by
      apply takeWhile_append_of_head? htake
      intro c hc
      simpa [endsLine, hc] using h.ends hr
    simp [shebang?, htake, htake']
  · obtain rfl : s = [] := by
      rw [Text.shebang?_eq, if_neg hbang] at hs
      exact hs.symm
    have hbang' : ¬ ['#', '!'] <+: v := fun hv => hbang (h.bang hv)
    rw [Text.shebang?_eq, Text.shebang?_eq, if_neg hbang, List.nil_append, if_neg hbang']

theorem exists_parts (h : KeepsPreamble r v) {t : Text} (ht : t = preamble t ++ r) :
    ∃ m s, preamble t = m ++ s ∧ leadingMark t = m ∧ leadingMark (m ++ (s ++ v)) = m ∧
      (shebang? (s ++ r)).getD [] = s ∧ shebang? (s ++ v) = shebang? (s ++ r) := by
  obtain ⟨m, hm⟩ : ∃ m, leadingMark t = m := ⟨_, rfl⟩
  obtain ⟨s, hs⟩ : ∃ s, (shebang? (t.drop m.length)).getD [] = s := ⟨_, rfl⟩
  have hp : preamble t = m ++ s := by rw [preamble, hm, hs]
  rw [hp, List.append_assoc] at ht
  have hdrop : t.drop m.length = s ++ r := by rw [ht, List.drop_left]
  rw [hdrop] at hs
  exact ⟨m, s, hp, hm, h.leadingMark_eq (ht ▸ hm), hs, h.shebang?_eq hs⟩

theorem preamble_eq (h : KeepsPreamble r v) {t : Text} (ht : t = preamble t ++ r) :
    preamble (preamble t ++ v) = preamble t := by
  obtain ⟨m, s, hp, -, hmark, hs, hbang⟩ := h.exists_parts ht
  rw [hp, List.append_assoc, preamble, hmark, List.drop_left, hbang, hs]

end KeepsPreamble

end Text

namespace Cursor

theorem skipByteOrderMark_eq (t : Text) : skipByteOrderMark t =
    { rest := t.drop (Text.leadingMark t).length, offset := (Text.leadingMark t).utf8Size } := by
  cases t with
  | nil => rfl
  | cons c t =>
    unfold skipByteOrderMark Text.leadingMark
    simp only
    split <;> simp

end Cursor

theorem Source.cursor_ofText (t : Text) : (ofText t).cursor =
    ({ rest := t.drop t.leadingMark.length, offset := t.leadingMark.utf8Size } : Cursor).advanceBy
      ((shebang? (t.drop t.leadingMark.length)).getD []).length := by
  have hlen : ∀ o : Option Text, o.elim 0 List.length = (o.getD []).length := by
    intro o
    cases o <;> rfl
  simp only [ofText, Cursor.skipByteOrderMark_eq, hlen]

theorem Source.exists_rest (t : Text) : ∃ r, t = t.preamble ++ r ∧
    (ofText t).cursor.rest = r ∧ (ofText t).cursor.offset = t.preamble.utf8Size := by
  obtain ⟨r, hr⟩ := Text.shebang?_prefix (t.drop t.leadingMark.length)
  have ht := List.prefix_iff_eq_append.mp t.leadingMark_prefix
  obtain ⟨hrest, hoffset⟩ := Cursor.advanceBy_append
    (k := { rest := t.drop t.leadingMark.length, offset := t.leadingMark.utf8Size }) hr.symm
  rw [← cursor_ofText] at hrest hoffset
  refine ⟨r, ?_, hrest, ?_⟩
  · rw [Text.preamble, List.append_assoc, hr, ht]
  · rw [hoffset, Text.preamble, Text.utf8Size_append]

theorem Lexer.exists_rest (t : Text) (o : Options) (withComments : Bool) :
    ∃ r, t = t.preamble ++ r ∧ (start t o withComments).reader.rest = r ∧
      (start t o withComments).reader.offset = t.preamble.utf8Size := Source.exists_rest t

end EcmaLex
