import EcmaLex.Lexeme.Template
import EcmaLex.Proofs.Extent.Escape

/-!
# The extent of templates

A template is a prefix of its text. One that is closed is the same before an echo of what follows
it, and one that is not is the whole text.
-/

namespace EcmaLex

open Text (Echoes)

namespace TemplatePiece

theorem quotedTail_prefix (quote : Char) (t : Text) : quotedTail quote t <+: t := by
  fun_induction quotedTail quote t with
  | case1 => exact List.nil_prefix
  | case2 => exact List.nil_prefix
  | case3 t => exact ⟨t, rfl⟩
  | case4 => exact List.prefix_rfl
  | case5 d t => exact ⟨d :: t, rfl⟩
  | case6 d t _ _ _ ih => exact (List.prefix_cons_inj _).mpr ((List.prefix_cons_inj _).mpr ih)
  | case7 c t _ _ _ ih => exact (List.prefix_cons_inj _).mpr ih

theorem quotedTail_terminator (quote : Char) {c : Char} (hc : isLineTerminator c) (t : Text) :
    quotedTail quote (c :: t) = [] := by
  rw [quotedTail.eq_def]
  exact if_pos hc

theorem quotedTail_quote {quote : Char} (hq : ¬ isLineTerminator quote) (t : Text) :
    quotedTail quote (quote :: t) = [quote] := by
  rw [quotedTail.eq_def]
  simp only [if_neg hq, if_pos]

theorem quotedTail_plain {quote c : Char} (hl : ¬ isLineTerminator c) (hq : c ≠ quote)
    (hc : c ≠ '\\') (t : Text) : quotedTail quote (c :: t) = c :: quotedTail quote t := by
  rw [quotedTail.eq_def]
  simp only [if_neg hl, if_neg hq, if_neg hc]

theorem quotedTail_cons_ne_nil (quote : Char) {c : Char} (hc : ¬ isLineTerminator c) (t : Text) :
    quotedTail quote (c :: t) ≠ [] := by
  rw [quotedTail.eq_def]
  simp only [if_neg hc]
  split
  · simp
  · split
    · split
      · simp
      · split <;> simp
    · simp

theorem quotedTail_resume {quote : Char} {a u v : Text} (ha : quotedTail quote (a ++ u) = a)
    (h : v.head? = u.head?) : quotedTail quote (a ++ v) = a := by
  induction a using quotedTail.induct quote with
  | case1 =>
    cases v with
    | nil => rfl
    | cons c v =>
      obtain ⟨u, rfl⟩ : ∃ u', u = c :: u' := List.head?_eq_some_iff.mp h.symm
      by_cases hc : isLineTerminator c
      · exact quotedTail_terminator quote hc v
      · exact absurd ha (quotedTail_cons_ne_nil quote hc u)
  | case2 c t hc =>
    rw [List.cons_append, quotedTail_terminator quote hc] at ha
    simp at ha
  | case3 t hq =>
    rw [List.cons_append, quotedTail_quote hq] at ha ⊢
    exact ha
  | case4 hl hq =>
    cases v with
    | nil => simp [quotedTail, hl, hq]
    | cons c v =>
      obtain ⟨u, rfl⟩ : ∃ u', u = c :: u' := List.head?_eq_some_iff.mp h.symm
      by_cases hc : isLineTerminator c
      · simp [quotedTail, hl, hq, hc]
      · simp [quotedTail, hl, hq, hc] at ha
  | case5 d t hd hl hq => simp [quotedTail, hl, hq, hd] at ha
  | case6 d t hd hl hq ih =>
    have ht : quotedTail quote (t ++ u) = t := by simpa [quotedTail, hl, hq, hd] using ha
    simp [quotedTail, hl, hq, hd, ih ht]
  | case7 c t hl hq hc ih =>
    rw [List.cons_append, quotedTail_plain hl hq hc, List.cons_inj_right] at ha
    rw [List.cons_append, quotedTail_plain hl hq hc, ih ha]

/-- What the next piece takes up behind its first character, and what it leaves. -/
theorem exists_split (frame : TemplateFrame) (c : Char) (t : Text) :
    ∃ a r, t = a ++ r ∧ (next frame c t).text = c :: a := by
  cases frame with
  | template =>
    simp only [next]
    split
    · rename_i hc
      obtain ⟨a, r, rfl, ha⟩ := EscapeSequence.exists_split .template t
      exact ⟨a, r, rfl, by rw [text, ha, hc]⟩
    · split
      · rename_i hc
        simp only [Bool.and_eq_true, decide_eq_true_eq] at hc
        obtain ⟨r, rfl⟩ := List.head?_eq_some_iff.mp hc.2
        exact ⟨['\x7b'], r, rfl, by rw [hc.1]; rfl⟩
      · exact ⟨[], t, rfl, rfl⟩
  | brace =>
    simp only [next]
    split
    · obtain ⟨r, hr⟩ := quotedTail_prefix c t
      exact ⟨_, r, hr.symm, rfl⟩
    · exact ⟨[], t, rfl, rfl⟩

theorem next_resume {frame : TemplateFrame} {c : Char} {a u v : Text}
    (ha : (next frame c (a ++ u)).text = c :: a) (h : Echoes v u) (hh : v.head? = u.head?) :
    next frame c (a ++ v) = next frame c (a ++ u) := by
  cases frame with
  | template =>
    by_cases hc : c = '\\'
    · subst hc
      have hraw : (EscapeSequence.scan .template (a ++ u)).text = '\\' :: a := by
        simpa [next, text] using ha
      have hs := EscapeSequence.scan_resume hraw (Text.continues_of_head?_eq h hh)
      simp [next, hs]
    · have hhead : (a ++ v).head? = (a ++ u).head? := by simp [List.head?_append, hh]
      simp [next, hc, hhead]
  | brace =>
    by_cases hc : c = '"' ∨ c = '\''
    · have hq : quotedTail c (a ++ u) = a := by simpa [next, hc, text] using ha
      simp [next, hc, hq, quotedTail_resume hq hh]
    · simp [next, hc]

/-- A piece that closes the outermost template is a single character, whatever follows it. -/
theorem next_eq_of_nest_eq_nil {frame : TemplateFrame} {outer : List TemplateFrame} {c : Char}
    {t : Text} (h : nest frame outer (next frame c t) = []) (t' : Text) :
    next frame c t' = next frame c t := by
  cases frame with
  | template =>
    by_cases hc : c = '\x60'
    · subst hc
      rfl
    · simp only [next] at h
      split at h
      · simp [nest] at h
      · split at h <;> simp [nest, hc] at h
  | brace =>
    by_cases hc : c = '\x7d'
    · subst hc
      rfl
    · simp only [next] at h
      split at h
      · simp [nest] at h
      · by_cases hb : c = '\x7b' ∨ c = '\x60'
        · rcases hb with rfl | rfl <;> simp [nest] at h
        · rw [not_or] at hb
          simp [nest, hc, hb.1, hb.2] at h

theorem scan_cons {frame : TemplateFrame} {outer : List TemplateFrame} {c : Char} {a t : Text}
    (ha : (next frame c (a ++ t)).text = c :: a) :
    scan (frame :: outer) (c :: (a ++ t)) =
      (next frame c (a ++ t) :: (scan (nest frame outer (next frame c (a ++ t))) t).1,
        (scan (nest frame outer (next frame c (a ++ t))) t).2) := by
  rw [scan]
  simp only [ha, List.length_cons, Nat.add_one_sub_one, List.drop_left]

/-- The pieces of a template, and that nothing is left behind them unless it is closed. -/
theorem exists_pieces (frames : List TemplateFrame) (t : Text) :
    ∃ r, t = (scan frames t).1.flatMap text ++ r ∧ ((scan frames t).2 = false → r = []) := by
  induction hn : t.length using Nat.strong_induction_on generalizing frames t with
  | _ n ih =>
    cases frames with
    | nil => exact ⟨t, by simp [scan], by simp [scan]⟩
    | cons frame outer =>
      cases t with
      | nil => exact ⟨[], by simp [scan], fun _ => rfl⟩
      | cons c t =>
        obtain ⟨a, r, rfl, ha⟩ := exists_split frame c t
        obtain ⟨s, hr, hs⟩ := ih r.length (by simp at hn; omega)
          (nest frame outer (next frame c (a ++ r))) r rfl
        refine ⟨s, ?_, ?_⟩
        · rw [scan_cons ha, List.flatMap_cons, ha, List.cons_append, List.cons_append,
            List.append_assoc, ← hr]
        · rw [scan_cons ha]
          exact hs

theorem eq_char_of_nest_eq_nil {frame : TemplateFrame} {outer : List TemplateFrame}
    {p : TemplatePiece} (h : nest frame outer p = []) : p = char '\x60' ∨ p = char '\x7d' := by
  cases p with
  | char c =>
    cases frame with
    | template =>
      by_cases hc : c = '\x60'
      · exact .inl (by rw [hc])
      · simp [nest, hc] at h
    | brace =>
      by_cases hc : c = '\x7d'
      · exact .inr (by rw [hc])
      · simp only [nest, hc, if_false] at h
        split at h
        · simp at h
        · split at h <;> simp at h
  | _ => simp [nest] at h

/-- A template ends with the character that closes it. -/
theorem exists_last {frames : List TemplateFrame} {t : Text} (hne : frames ≠ [])
    (hc : (scan frames t).2 = true) :
    ∃ b d, (scan frames t).1.flatMap text = b ++ [d] ∧ (d = '\x60' ∨ d = '\x7d') := by
  induction hn : t.length using Nat.strong_induction_on generalizing frames t with
  | _ n ih =>
    cases frames with
    | nil => exact absurd rfl hne
    | cons frame outer =>
      cases t with
      | nil => simp [scan] at hc
      | cons c t =>
        obtain ⟨a, r, rfl, ha⟩ := exists_split frame c t
        rw [scan_cons ha] at hc ⊢
        rw [List.flatMap_cons, ha]
        by_cases hnest : nest frame outer (next frame c (a ++ r)) = []
        · rw [hnest, scan, List.flatMap_nil, List.append_nil, ← ha]
          rcases eq_char_of_nest_eq_nil hnest with hp | hp <;> rw [hp]
          · exact ⟨[], '\x60', rfl, .inl rfl⟩
          · exact ⟨[], '\x7d', rfl, .inr rfl⟩
        · obtain ⟨b, d, hb, hd⟩ := ih r.length (by simp at hn; omega) hnest hc rfl
          exact ⟨c :: a ++ b, d, by rw [hb, List.append_assoc], hd⟩

theorem eq_nil_of_scan_empty {frames : List TemplateFrame} {t : Text}
    (ht : (scan frames t).1.flatMap text = []) (hc : (scan frames t).2 = true) : frames = [] := by
  cases frames with
  | nil => rfl
  | cons frame outer =>
    cases t with
    | nil => simp [scan] at hc
    | cons c t =>
      obtain ⟨a, r, rfl, ha⟩ := exists_split frame c t
      simp [scan_cons ha, ha] at ht

theorem scan_resume {frames : List TemplateFrame} {a u v : Text}
    (ha : (scan frames (a ++ u)).1.flatMap text = a) (hc : (scan frames (a ++ u)).2 = true)
    (h : Echoes v u) : scan frames (a ++ v) = scan frames (a ++ u) := by
  induction hn : a.length using Nat.strong_induction_on generalizing frames a with
  | _ n ih =>
    cases frames with
    | nil => rw [scan, scan]
    | cons frame outer =>
      cases hau : a ++ u with
      | nil => simp [hau, scan] at hc
      | cons c t =>
        obtain ⟨w, r, rfl, hw⟩ := exists_split frame c t
        rw [hau, scan_cons hw] at ha hc
        rw [List.flatMap_cons, hw] at ha
        obtain ⟨a', rfl⟩ : ∃ a', a = c :: (w ++ a') := ⟨_, ha.symm⟩
        obtain rfl : a' ++ u = r := by simpa using hau
        have ha' := ih a'.length (by simp at hn; omega) (by simpa using ha) hc rfl
        have hnext : next frame c (w ++ (a' ++ v)) = next frame c (w ++ (a' ++ u)) := by
          cases a' with
          | nil =>
            simp only [List.nil_append] at ha hc ⊢
            exact next_eq_of_nest_eq_nil (eq_nil_of_scan_empty (by simpa using ha) hc) _
          | cons d a' => exact next_resume hw (Text.echoes_append _ h) rfl
        rw [List.cons_append, List.append_assoc, scan_cons (hnext ▸ hw), scan_cons hw, hnext, ha']

end TemplatePiece

namespace Lexeme

theorem raw_template (t : Text) : (template t).raw =
    '\x60' :: (TemplatePiece.scan [.template] t).1.flatMap TemplatePiece.text := by
  simp [raw, template]

theorem unclosed_template (t : Text) :
    (template t).unclosed = !(TemplatePiece.scan [.template] t).2 := rfl

theorem template_prefix (t : Text) : (template t).raw <+: '\x60' :: t := by
  obtain ⟨r, hr, -⟩ := TemplatePiece.exists_pieces [.template] t
  rw [raw_template, List.prefix_cons_inj]
  exact ⟨r, hr.symm⟩

theorem eq_nil_of_unclosed_template {a u : Text} (ha : (template (a ++ u)).raw = '\x60' :: a)
    (hu : (template (a ++ u)).unclosed) : u = [] := by
  obtain ⟨r, hr, hnil⟩ := TemplatePiece.exists_pieces [.template] (a ++ u)
  rw [raw_template, List.cons_inj_right] at ha
  rw [ha] at hr
  rw [List.append_cancel_left hr]
  exact hnil (by simpa [unclosed_template] using hu)

theorem template_resume {a u v : Text} (ha : (template (a ++ u)).raw = '\x60' :: a)
    (h : Echoes v u) (hv : (template (a ++ u)).unclosed → v = []) :
    template (a ++ v) = template (a ++ u) := by
  cases hu : (template (a ++ u)).unclosed with
  | true => rw [eq_nil_of_unclosed_template ha hu, hv hu]
  | false =>
    rw [raw_template, List.cons_inj_right] at ha
    have hs := TemplatePiece.scan_resume ha (by simpa [unclosed_template] using hu) h
    simp only [template, hs]

end Lexeme

end EcmaLex
