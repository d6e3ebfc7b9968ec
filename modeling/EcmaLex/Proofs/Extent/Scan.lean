import EcmaLex.Proofs.Extent.Opening

/-!
# The extent of lexemes

A lexeme is a prefix of the text it is scanned from. Its content depends on that text alone, and on
whether the context lets a slash open a regular expression. It stays the same if something else is
put behind the lexeme, within bounds that the lexeme itself sets.
-/

namespace EcmaLex

open Text (Echoes Continues endsLine)

namespace Lexeme

/-- What may stand behind a lexeme in place of `u` without changing it. -/
structure Admits [Primitives] (l : Lexeme) (u v : Text) : Prop where
  continues : Continues l.raw u v
  escape : ['\\', 'u'] <+: v → NamePart.begins u
  number : NumberLiteral.begins u → v.head? = u.head? → NumberLiteral.begins v
  ends : endsLine u → endsLine v
  cut : l.unclosed → l.kind = .template ∨ l.kind = .comment → v = []

theorem mark_prefix (c : Char) (t : Text) : (mark c t).raw <+: c :: t := by
  unfold mark
  split
  · rename_i hp
    rw [raw_punctuator]
    exact Punctuator.scan?_prefix hp
  · rw [raw_unexpected]
    exact ⟨t, rfl⟩

theorem mark_resume {c : Char} {a u v : Text} (ha : (mark c (a ++ u)).raw = c :: a)
    (h : Echoes v u) (hn : NumberLiteral.begins u → v.head? = u.head? → NumberLiteral.begins v) :
    mark c (a ++ v) = mark c (a ++ u) := by
  unfold mark at ha ⊢
  split at ha
  · rename_i p hp
    rw [raw_punctuator] at ha
    subst ha
    rw [← List.cons_append] at hp ⊢
    rw [Punctuator.scan?_resume hp h hn]
  · rename_i hp
    rw [raw_unexpected, List.cons_inj_right] at ha
    subst ha
    rw [List.nil_append] at hp ⊢
    rw [Punctuator.scan?_eq_none hp h]

theorem scanCons_prefix [Primitives] (context : Context) (c : Char) (t : Text) :
    (scanCons context c t).raw <+: c :: t := by
  have hfits := Opening.fits_of context.regexAllowed c t
  rw [Opening.lexeme_of]
  cases h : Opening.of context.regexAllowed c t with
  | name => exact name_prefix context (c :: t)
  | number => exact number_prefix (c :: t)
  | string => exact string_prefix c t
  | template =>
    rw [h] at hfits
    obtain rfl : c = '\x60' := hfits
    exact template_prefix t
  | lineComment =>
    rw [h] at hfits
    obtain ⟨rfl, ht⟩ := hfits
    obtain ⟨t, rfl⟩ := List.head?_eq_some_iff.mp ht
    exact lineComment_prefix t
  | blockComment =>
    rw [h] at hfits
    obtain ⟨rfl, ht⟩ := hfits
    obtain ⟨t, rfl⟩ := List.head?_eq_some_iff.mp ht
    exact blockComment_prefix t
  | regex =>
    rw [h] at hfits
    obtain rfl : c = '/' := hfits
    exact regex_prefix t
  | mark => exact mark_prefix c t

theorem scan_prefix [Primitives] (context : Context) (t : Text) : (scan context t).raw <+: t := by
  cases t with
  | nil => exact List.nil_prefix
  | cons c t => exact scanCons_prefix context c t

theorem content_name [Primitives] (context context' : Context) (t : Text) :
    (name context t).content = (name context' t).content := by
  apply content_eq
  · rw [raw_name, raw_name]
  · rfl
  · rfl
  · rfl

theorem content_lexeme [Primitives] (o : Opening) (context context' : Context) (c : Char)
    (t : Text) :
    (o.lexeme context c t).content = (o.lexeme context' c t).content := by
  cases o with
  | name => exact content_name context context' (c :: t)
  | _ => rfl

theorem content_scan_congr [Primitives] {context context' : Context}
    (h : context.regexAllowed = context'.regexAllowed) (t : Text) :
    (scan context t).content = (scan context' t).content := by
  cases t with
  | nil => rfl
  | cons c t =>
    rw [scan, scan, Opening.lexeme_of, Opening.lexeme_of, h]
    exact content_lexeme _ context context' c t

/-- A slash opens a comment, or a regular expression where one is allowed. -/
theorem kind_scanCons_slash [UnicodePrimitives] (context : Context) (t : Text) :
    (scanCons context '/' t).kind =
      if t.head? = some '/' ∨ t.head? = some '*' then .comment
      else if context.regexAllowed then .regex else .punctuator := by
  have hkinds := Opening.kind_mem_kinds context '/' t (Opening.of context.regexAllowed '/' t)
  rw [← Opening.lexeme_of, Opening.of_slash] at hkinds
  split at hkinds
  · rename_i hline
    rw [if_pos (.inl hline)]
    exact List.mem_singleton.mp hkinds
  split at hkinds
  · rename_i hblock
    rw [if_pos (.inr hblock)]
    exact List.mem_singleton.mp hkinds
  rename_i hline hblock
  rw [if_neg (not_or.mpr ⟨hline, hblock⟩)]
  split at hkinds
  · rename_i hallowed
    rw [if_pos hallowed]
    exact List.mem_singleton.mp hkinds
  · rename_i hallowed
    rw [if_neg hallowed]
    exact List.mem_singleton.mp hkinds

/-- The context matters only for a slash that opens no comment. -/
theorem content_scanCons_congr [UnicodePrimitives] {context : Context} {c : Char} {t : Text}
    (h : c = '/' → (scanCons context c t).kind = .comment) (context' : Context) :
    (scanCons context' c t).content = (scanCons context c t).content := by
  have hof : Opening.of context'.regexAllowed c t = Opening.of context.regexAllowed c t := by
    by_cases hc : c = '/'
    · subst hc
      have hkind := h rfl
      rw [kind_scanCons_slash] at hkind
      have hcomment : t.head? = some '/' ∨ t.head? = some '*' := by
        by_contra hnone
        rw [if_neg hnone] at hkind
        split at hkind <;> exact absurd hkind (by simp)
      rw [Opening.of_slash, Opening.of_slash]
      rcases hcomment with hline | hblock
      · rw [if_pos hline, if_pos hline]
      · simp [hblock]
    · exact Opening.of_of_ne_slash hc _ _ t
  rw [Opening.lexeme_of, Opening.lexeme_of, hof]
  exact content_lexeme _ context' context c t

theorem lexeme_resume [UnicodePrimitives] {context : Context} {o : Opening} {c : Char}
    {a u v : Text}
    (ho : o.Fits c (a ++ u)) (ha : (o.lexeme context c (a ++ u)).raw = c :: a)
    (h : (o.lexeme context c (a ++ u)).Admits u v) :
    (o.lexeme context c (a ++ v)).content = (o.lexeme context c (a ++ u)).content := by
  have hc : Continues (c :: a) u v := ha ▸ h.continues
  cases o with
  | name => exact congrArg content (name_resume (a := c :: a) ha hc.echoes h.escape)
  | number => exact number_resume (a := c :: a) ha hc.echoes
  | string =>
    have hq : isLineTerminator c = false := by obtain rfl | rfl := ho <;> decide
    exact congrArg content (string_resume hq ha (hc.of_append (b := [c])) h.ends)
  | template =>
    obtain rfl : c = '\x60' := ho
    have hu := fun hu => h.cut hu (.inl rfl)
    exact congrArg content (template_resume ha hc.echoes hu)
  | lineComment =>
    obtain ⟨rfl, -⟩ := ho
    obtain ⟨a, rfl⟩ := exists_of_raw_lineComment ha
    exact congrArg content (lineComment_resume ha h.ends)
  | blockComment =>
    obtain ⟨rfl, -⟩ := ho
    obtain ⟨a, rfl⟩ := exists_of_raw_blockComment ha
    have hu := fun hu => h.cut hu (.inr rfl)
    exact congrArg content (blockComment_resume ha hu)
  | regex =>
    obtain rfl : c = '/' := ho
    exact regex_resume ha hc.echoes h.ends
  | mark => exact congrArg content (mark_resume ha hc.echoes h.number)

theorem lexeme_eq_nil_of_unclosed [Primitives] {context : Context} {o : Opening} {c : Char}
    {a u : Text}
    (ho : o.Fits c (a ++ u)) (ha : (o.lexeme context c (a ++ u)).raw = c :: a)
    (hu : (o.lexeme context c (a ++ u)).unclosed)
    (hk : (o.lexeme context c (a ++ u)).kind = .template ∨
      (o.lexeme context c (a ++ u)).kind = .comment) : u = [] := by
  cases o with
  | name => cases hu
  | number => cases hu
  | string => simp [Opening.lexeme, kind, string, TokenValue.kind] at hk
  | template =>
    obtain rfl : c = '\x60' := ho
    exact eq_nil_of_unclosed_template ha hu
  | lineComment => cases hu
  | blockComment =>
    obtain ⟨rfl, -⟩ := ho
    obtain ⟨a, rfl⟩ := exists_of_raw_blockComment ha
    exact eq_nil_of_unclosed_blockComment ha hu
  | regex =>
    have hkinds := Opening.kind_mem_kinds context c (a ++ u) .regex
    rcases hk with hk | hk <;> simp [hk, Opening.kinds] at hkinds
  | mark =>
    simp only [Opening.lexeme, mark] at hu
    split at hu <;> cases hu

theorem scanCons_eq_nil_of_unclosed [Primitives] {context : Context} {c : Char} {a u : Text}
    (ha : (scanCons context c (a ++ u)).raw = c :: a) (hu : (scanCons context c (a ++ u)).unclosed)
    (hk : (scanCons context c (a ++ u)).kind = .template ∨
      (scanCons context c (a ++ u)).kind = .comment) : u = [] := by
  rw [Opening.lexeme_of] at ha hu hk
  exact lexeme_eq_nil_of_unclosed (Opening.fits_of _ _ _) ha hu hk

/-- The content of a lexeme does not change with what stands behind it. -/
theorem scanCons_resume [UnicodePrimitives] {context context' : Context}
    (hr : context.regexAllowed = context'.regexAllowed) {c : Char} {a u v : Text}
    (ha : (scanCons context c (a ++ u)).raw = c :: a)
    (h : (scanCons context c (a ++ u)).Admits u v) :
    (scanCons context' c (a ++ v)).content = (scanCons context c (a ++ u)).content := by
  have hcongr : (scanCons context' c (a ++ v)).content = (scanCons context c (a ++ v)).content :=
    (content_scan_congr hr (c :: (a ++ v))).symm
  rw [Opening.lexeme_of] at ha h
  have hraw : (scanCons context c (a ++ u)).raw = c :: a := by rw [Opening.lexeme_of, ha]
  have ho := Opening.of_resume context hraw h.continues.echoes context.regexAllowed
  rw [hcongr, Opening.lexeme_of, Opening.lexeme_of, ho]
  exact lexeme_resume (Opening.fits_of _ _ _) ha h

end Lexeme

end EcmaLex
