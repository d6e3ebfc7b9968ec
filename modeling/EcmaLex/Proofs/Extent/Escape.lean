import EcmaLex.Lexeme.EscapeSequence
import EcmaLex.Proofs.Extent.Code

/-!
# The extent of escape sequences

An escape sequence is a prefix of its text, and is the same before an echo of what follows it. The
two exceptions are a backslash at the end of the text, which takes up whatever is put behind it, and
a carriage return that continues a line, which takes up a line feed.
-/

namespace EcmaLex

open Text (Continues)

namespace EscapeSequence

theorem text_ofCode (letter : Char) (code : Option WrittenCode) :
    (ofCode letter code).text = '\\' :: letter :: code.elim [] WrittenCode.raw := by
  unfold ofCode
  split
  · rfl
  · split <;> rfl

theorem terminatorOf_cons_of_ne {c : Char} {t : Text} (h : ¬ (c = '\r' ∧ t.head? = some '\n')) :
    terminatorOf (c :: t) = [c] := by
  unfold terminatorOf
  split
  · rename_i heq
    obtain ⟨rfl, rfl⟩ := List.cons.inj heq
    exact absurd ⟨rfl, rfl⟩ h
  · rfl

theorem terminatorOf_prefix (t : Text) : terminatorOf t <+: t := by
  unfold terminatorOf
  split
  · exact ⟨_, rfl⟩
  · exact List.take_prefix 1 _

theorem scan_terminator (context : EscapeContext) {c : Char} (hc : isLineTerminator c) (t : Text) :
    scan context (c :: t) = continuation (terminatorOf (c :: t)) := by
  simp [scan, hc]

theorem text_scan_prefix (context : EscapeContext) (t : Text) :
    (scan context t).text <+: '\\' :: t := by
  cases t with
  | nil => exact List.prefix_rfl
  | cons c t =>
    by_cases hc : isLineTerminator c
    · rw [scan_terminator context hc]
      exact (List.prefix_cons_inj _).mpr <| terminatorOf_prefix _
    · simp only [scan, if_neg hc]
      split
      · exact ⟨t, rfl⟩
      · rw [text_ofCode, List.prefix_cons_inj, List.prefix_cons_inj]
        cases h : WrittenCode.fixed? 2 t with
        | none => exact List.nil_prefix
        | some w => exact (WrittenCode.readsCode_fixed? 2).isPrefix h
      · rw [text_ofCode, List.prefix_cons_inj, List.prefix_cons_inj]
        cases h : WrittenCode.unicode? t with
        | none => exact List.nil_prefix
        | some w => exact WrittenCode.readsCode_unicode?.isPrefix h
      · exact ⟨t, rfl⟩

theorem exists_split (context : EscapeContext) (t : Text) :
    ∃ a r, t = a ++ r ∧ (scan context t).text = '\\' :: a := by
  obtain ⟨r, hr⟩ := text_scan_prefix context t
  cases hs : (scan context t).text with
  | nil => exact absurd hs (text_ne_nil _)
  | cons c a =>
    rw [hs, List.cons_append] at hr
    obtain ⟨rfl, ht⟩ := List.cons.inj hr
    exact ⟨a, r, ht.symm, rfl⟩

/-- Behind its letter an escape takes up nothing but the code of a character. -/
theorem exists_text_scan (context : EscapeContext) {c : Char} (hc : isLineTerminator c = false)
    (t : Text) : ∃ w r, t = w ++ r ∧ (scan context (c :: t)).text = '\\' :: c :: w ∧
      ∀ d ∈ w, WrittenCode.isCodeChar d := by
  obtain ⟨a, r, ht, ha⟩ := exists_split context (c :: t)
  have hscan : ∃ w, (scan context (c :: t)).text = '\\' :: c :: w ∧
      ∀ d ∈ w, WrittenCode.isCodeChar d := by
    simp only [scan, hc, Bool.false_eq_true, if_false]
    split
    · exact ⟨[], rfl, by simp⟩
    · refine ⟨_, text_ofCode _ _, ?_⟩
      cases h : WrittenCode.fixed? 2 t with
      | none => simp
      | some w => exact WrittenCode.isCodeChar_of_mem_fixed? h
    · refine ⟨_, text_ofCode _ _, ?_⟩
      cases h : WrittenCode.unicode? t with
      | none => simp
      | some w => exact WrittenCode.isCodeChar_of_mem_unicode? h
    · exact ⟨[], rfl, by simp⟩
  obtain ⟨w, hw, hcode⟩ := hscan
  obtain rfl : a = c :: w := by simpa using ha.symm.trans hw
  exact ⟨w, r, (List.cons.inj ht).2, hw, hcode⟩

theorem text_scan_cons_ne (context : EscapeContext) (c : Char) (t : Text) :
    (scan context (c :: t)).text ≠ ['\\'] := by
  by_cases hc : isLineTerminator c
  · rw [scan_terminator context hc]
    unfold terminatorOf
    split <;> simp [text]
  · simp only [scan, if_neg hc]
    split
    · simp [text]
    · simp [text_ofCode]
    · simp [text_ofCode]
    · simp [text]

theorem scan_resume {context : EscapeContext} {a u v : Text}
    (ha : (scan context (a ++ u)).text = '\\' :: a) (h : Continues ('\\' :: a) u v) :
    scan context (a ++ v) = scan context (a ++ u) := by
  cases a with
  | nil =>
    obtain rfl : u = [] := by
      cases u with
      | nil => rfl
      | cons c u => exact absurd ha (text_scan_cons_ne context c u)
    obtain rfl : v = [] := by
      by_contra hv
      exact h.lone rfl hv rfl
    rfl
  | cons c a =>
    rw [List.cons_append] at ha ⊢
    rw [List.cons_append]
    by_cases hc : isLineTerminator c
    · rw [scan_terminator context hc] at ha ⊢
      rw [scan_terminator context hc]
      have ht : terminatorOf (c :: (a ++ u)) = c :: a := by simpa [text] using ha
      by_cases hu : c = '\r' ∧ (a ++ u).head? = some '\n'
      · obtain ⟨rfl, hu⟩ := hu
        obtain ⟨r, hr⟩ : ∃ r, a ++ u = '\n' :: r := List.head?_eq_some_iff.mp hu
        rw [hr] at ht
        obtain rfl : a = ['\n'] := by simpa [terminatorOf] using ht.symm
        rfl
      · rw [terminatorOf_cons_of_ne hu] at ht
        obtain rfl : a = [] := by simpa using ht.symm
        rw [terminatorOf_cons_of_ne hu, List.nil_append, terminatorOf_cons_of_ne]
        rintro ⟨rfl, hv⟩
        exact h.paired hv (fun hh => hu ⟨rfl, hh⟩) rfl
    · simp only [scan, if_neg hc] at ha ⊢
      split at ha
      · rfl
      · rw [text_ofCode, List.cons_inj_right, List.cons_inj_right] at ha
        rw [(WrittenCode.readsCode_fixed? 2).resume ha h.echoes]
      · rw [text_ofCode, List.cons_inj_right, List.cons_inj_right] at ha
        rw [WrittenCode.readsCode_unicode?.resume ha h.echoes]
      · rfl

end EscapeSequence

end EcmaLex
