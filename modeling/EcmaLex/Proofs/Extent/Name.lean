import EcmaLex.Lexeme.Name
import EcmaLex.Proofs.Extent.Code
import EcmaLex.Proofs.Extent.Pieces

/-!
# The extent of names

A name is a prefix of its text, and ends at the same place before an echo of what follows it that
does not go on with an escape.
-/

namespace EcmaLex

open Text (Echoes isOpen isOpen_iff isOpen_of_pos)

theorem isWordPart_backslash [UnicodePrimitives] : isWordPart '\\' = false :=
  isWordPart_of_isAsciiMark (by decide)

theorem isOpen_of_isWordPart [UnicodePrimitives] {c : Char} (h : isWordPart c) : isOpen c :=
  isOpen_of_pos (isWordPart_of_isAsciiMark (by decide)) (isWordPart_of_isAsciiMark (by decide))
    isWordPart_backslash h

namespace NamePart

theorem raw_ofEscape [Primitives] (started : Bool) (t : Text) :
    (ofEscape started t).raw =
      '\\' :: 'u' :: (WrittenCode.unicode? t).elim [] WrittenCode.raw := by
  unfold ofEscape
  split <;> simp_all

theorem raw_ofEscape_prefix [Primitives] (started : Bool) (t : Text) :
    (ofEscape started t).raw <+: '\\' :: 'u' :: t := by
  rw [raw_ofEscape, List.prefix_cons_inj, List.prefix_cons_inj]
  cases h : WrittenCode.unicode? t with
  | none => exact List.nil_prefix
  | some w => exact WrittenCode.readsCode_unicode?.isPrefix h

theorem ofEscape_resume [Primitives] {started : Bool} {a u v : Text}
    (ha : (ofEscape started (a ++ u)).raw = '\\' :: 'u' :: a) (h : Echoes v u) :
    ofEscape started (a ++ v) = ofEscape started (a ++ u) := by
  rw [raw_ofEscape, List.cons_inj_right, List.cons_inj_right] at ha
  unfold ofEscape
  rw [WrittenCode.readsCode_unicode?.resume ha h]

def begins [Primitives] : Text → Bool
  | '\\' :: 'u' :: _ => true
  | c :: _ => isWordPart c
  | [] => false

theorem begins_of_echoes [UnicodePrimitives] {u v : Text} (h : Echoes v u)
    (he : ['\\', 'u'] <+: v → begins u)
    (hv : begins v) : begins u := by
  unfold begins at hv
  split at hv
  · exact he ⟨_, rfl⟩
  · rename_i c v' _
    obtain ⟨u', rfl⟩ := h.prefix_of_open (List.prefix_append [c] v')
      (by simpa using isOpen_of_isWordPart hv)
    rw [List.singleton_append]
    unfold begins
    split
    · rfl
    · rename_i heq
      obtain ⟨rfl, rfl⟩ := List.cons.inj heq
      exact hv
    · simp at *
  · simp at hv

def step [Primitives] (started : Bool) (c : Char) (t : Text) : NamePart :=
  if c = '\\' && t.head? = some 'u' then ofEscape started t.tail else ⟨[c], some c⟩

theorem step_escape [Primitives] (started : Bool) (t : Text) :
    step started '\\' ('u' :: t) = ofEscape started t := rfl

theorem step_char [Primitives] {c : Char} {t : Text} (h : c = '\\' → t.head? ≠ some 'u')
    (started : Bool) : step started c t = ⟨[c], some c⟩ := by
  refine if_neg fun hc => ?_
  obtain ⟨rfl, ht⟩ : c = '\\' ∧ t.head? = some 'u' := by simpa using hc
  exact h rfl ht

theorem step_word [UnicodePrimitives] {c : Char} (hc : isWordPart c) (started : Bool) (t : Text) :
    step started c t = ⟨[c], some c⟩ := by
  refine step_char (fun h => ?_) started
  simp [h, isWordPart_backslash] at hc

/-- A part is an escape with the code that follows it, or a character. -/
theorem begins_cases [Primitives] {c : Char} {t : Text} (h : begins (c :: t)) :
    (∃ t', c = '\\' ∧ t = 'u' :: t') ∨ isWordPart c ∧ (c = '\\' → t.head? ≠ some 'u') := by
  unfold begins at h
  split at h
  · rename_i heq
    obtain ⟨rfl, rfl⟩ := List.cons.inj heq
    exact .inl ⟨_, rfl, rfl⟩
  · rename_i hne heq
    obtain ⟨rfl, rfl⟩ := List.cons.inj heq
    refine .inr ⟨h, ?_⟩
    rintro rfl ht
    obtain ⟨t, rfl⟩ := List.head?_eq_some_iff.mp ht
    exact hne t rfl rfl
  · simp at h

theorem begins_escape [Primitives] (t : Text) : begins ('\\' :: 'u' :: t) := rfl

theorem begins_of_prefix [Primitives] {t : Text} (h : ['\\', 'u'] <+: t) : begins t := by
  obtain ⟨r, rfl⟩ := h
  rfl

theorem begins_char [Primitives] {c : Char} (hc : isWordPart c) (t : Text) : begins (c :: t) := by
  unfold begins
  split
  · rfl
  · rename_i heq
    obtain ⟨rfl, rfl⟩ := List.cons.inj heq
    exact hc
  · simp at *

theorem exists_split [Primitives] {started : Bool} {c : Char} {t : Text} (h : begins (c :: t)) :
    ∃ w r, t = w ++ r ∧ (step started c t).raw = c :: w := by
  rcases begins_cases h with ⟨t, rfl, rfl⟩ | ⟨-, hne⟩
  · obtain ⟨r, hr⟩ := raw_ofEscape_prefix started t
    rw [raw_ofEscape, List.cons_append, List.cons_append, List.cons_inj_right] at hr
    exact ⟨_, r, hr.symm, by rw [step_escape, raw_ofEscape]⟩
  · exact ⟨[], t, rfl, by rw [step_char hne]⟩

theorem pieceScan [Primitives] : PieceScan scan raw (fun _ t => !begins t) step
    (fun started p => started || p.char.isSome) where
  stopsAt_nil := fun _ => rfl
  stop := by
    intro started t hs
    cases t with
    | nil => exact scan.eq_1 started
    | cons c t =>
      have hb : begins (c :: t) = false := by simpa using hs
      rw [scan, if_neg, if_neg]
      · intro hc
        simp [begins_char hc] at hb
      · intro hc
        obtain ⟨rfl, ht⟩ : c = '\\' ∧ t.head? = some 'u' := by simpa using hc
        obtain ⟨t, rfl⟩ := List.head?_eq_some_iff.mp ht
        simp [begins_escape] at hb
  piece := fun hs => exists_split (by simpa using hs)
  go := by
    intro started c t hs
    rcases begins_cases (by simpa using hs) with ⟨t, rfl, rfl⟩ | ⟨hc, hne⟩
    · rw [scan, step_escape]
      rfl
    · rw [step_char hne, scan, if_neg (by simpa using hne), if_pos hc]
      simp

theorem step_resume [UnicodePrimitives] {started : Bool} {c : Char} {w u v : Text}
    (hb : begins (c :: (w ++ u)))
    (hw : (step started c (w ++ u)).raw = c :: w) (h : Echoes v u) :
    begins (c :: (w ++ v)) ∧ step started c (w ++ v) = step started c (w ++ u) := by
  rcases begins_cases hb with ⟨t, rfl, ht⟩ | ⟨hc, -⟩
  · rw [ht, step_escape, raw_ofEscape] at hw
    obtain ⟨w, rfl⟩ : ∃ w', w = 'u' :: w' := ⟨_, (List.cons.inj hw).2.symm⟩
    obtain rfl : w ++ u = t := by simpa using ht
    refine ⟨begins_escape _, ?_⟩
    rw [List.cons_append, step_escape, List.cons_append, step_escape]
    exact ofEscape_resume (by rw [raw_ofEscape, hw]) h
  · exact ⟨begins_char hc _, by rw [step_word hc, step_word hc]⟩

theorem scan_resume [UnicodePrimitives] {started : Bool} {a u v : Text}
    (ha : (scan started (a ++ u)).flatMap raw = a) (h : Echoes v u)
    (he : ['\\', 'u'] <+: v → begins u) : scan started (a ++ v) = scan started (a ++ u) := by
  refine pieceScan.resume (P := fun _ => True) (fun _ => trivial) ?_ ?_ ha trivial
  · intro _ _ hs
    simp only [Bool.not_eq_true'] at hs ⊢
    rw [Bool.eq_false_iff]
    intro hv
    simp [begins_of_echoes h he hv] at hs
  · intro started c w a _ hs hw
    simp only [Bool.not_eq_false'] at hs ⊢
    exact step_resume hs hw (Text.echoes_append a h)

@[simp] theorem text_trace (p : NamePart) : p.trace.text = p.raw := by
  simp [trace]

end NamePart

namespace Lexeme

theorem text_remarks (context : Context) (n : Text) : (Name.remarks context n).text = [] := by
  simp only [Name.remarks, Trace.text_append, Trace.text_onlyIf, Trace.text_noteStart, ite_self,
    List.append_nil]

theorem raw_name [Primitives] (context : Context) (t : Text) :
    (name context t).raw = (NamePart.scan false t).flatMap NamePart.raw := by
  simp only [raw, name, Trace.text_append, text_remarks, Trace.text_flatMap, NamePart.text_trace,
    List.append_nil]

theorem name_prefix [Primitives] (context : Context) (t : Text) : (name context t).raw <+: t := by
  rw [raw_name]
  exact NamePart.pieceScan.flatMap_prefix false t

theorem name_resume [UnicodePrimitives] {context : Context} {a u v : Text}
    (ha : (name context (a ++ u)).raw = a)
    (h : Echoes v u) (he : ['\\', 'u'] <+: v → NamePart.begins u) :
    name context (a ++ v) = name context (a ++ u) := by
  rw [raw_name] at ha
  simp only [name, NamePart.scan_resume ha h he]

end Lexeme

end EcmaLex
