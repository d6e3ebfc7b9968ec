import EcmaLex.Lexeme.StringLiteral
import EcmaLex.Proofs.Extent.Escape
import EcmaLex.Proofs.Extent.Pieces

/-!
# The extent of strings

The body of a string is a prefix of its text, and what follows it is its quote, a line terminator,
or nothing. It is the same before any other text that starts with its quote or a line terminator,
or before nothing.
-/

namespace EcmaLex

open Text (Continues)

namespace StringPiece

def stopsAt (quote : Char) (t : Text) : Bool :=
  t.head?.all fun c => c = quote || isLineTerminator c

def step (c : Char) (t : Text) : StringPiece :=
  if c = '\\' then escape (EscapeSequence.scan .script t) else plain c

theorem exists_split (c : Char) (t : Text) : ∃ w r, t = w ++ r ∧ (step c t).text = c :: w := by
  by_cases hc : c = '\\'
  · obtain ⟨w, r, ht, hw⟩ := EscapeSequence.exists_split .script t
    exact ⟨w, r, ht, by rw [step, if_pos hc, text, hw, hc]⟩
  · exact ⟨[], t, rfl, by rw [step, if_neg hc, text]⟩

theorem pieceScan (quote : Char) : PieceScan (fun (_ : Unit) => scan quote) text
    (fun _ => stopsAt quote) (fun _ => step) (fun _ _ => ()) where
  stopsAt_nil := fun _ => rfl
  stop := by
    intro _ t hs
    cases t with
    | nil => exact scan.eq_1 quote
    | cons c t =>
      rw [scan]
      exact if_pos (by simpa [stopsAt] using hs)
  piece := fun _ => exists_split _ _
  go := by
    intro _ c t hs
    rw [scan, if_neg (by simpa [stopsAt] using hs)]
    by_cases hc : c = '\\'
    · simp [hc, step, text]
    · simp [hc, step, text]

theorem step_resume {c : Char} {w u v : Text} (hw : (step c (w ++ u)).text = c :: w)
    (h : Continues (c :: w) u v) : step c (w ++ v) = step c (w ++ u) := by
  by_cases hc : c = '\\'
  · subst hc
    rw [step, if_pos rfl, text] at hw
    rw [step, if_pos rfl, step, if_pos rfl, EscapeSequence.scan_resume hw h]
  · rw [step, if_neg hc, step, if_neg hc]

theorem exists_body (quote : Char) (t : Text) :
    ∃ r, t = (scan quote t).flatMap text ++ r ∧ stopsAt quote r := by
  obtain ⟨r, hr, -, hs⟩ := (pieceScan quote).exists_rest () t
  exact ⟨r, hr, hs⟩

theorem scan_resume {quote : Char} {a u v : Text} (ha : (scan quote (a ++ u)).flatMap text = a)
    (h : Continues a u v) (hv : stopsAt quote v) : scan quote (a ++ v) = scan quote (a ++ u) := by
  refine (pieceScan quote).resume (s := ()) (P := fun a => Continues a u v)
    (fun h => h.of_append) (fun _ _ => hv) ?_ ha h
  intro _ c w a h hs hw
  exact ⟨hs, step_resume hw h.append⟩

@[simp] theorem text_traces (quote : Char) (line : Text) (ps : List StringPiece) :
    (traces quote line ps).text = ps.flatMap text := by
  induction ps generalizing line with
  | nil => rfl
  | cons p ps ih => cases p <;> simp [traces, text, ih]

end StringPiece

namespace Lexeme

theorem raw_string (quote : Char) (t : Text) :
    (string quote t).raw = quote :: ((StringPiece.scan quote t).flatMap StringPiece.text ++
      if (string quote t).unclosed then [] else [quote]) := by
  simp only [raw, string]
  split <;> simp_all

theorem unclosed_string {quote : Char} {body r : Text}
    (hb : (StringPiece.scan quote (body ++ r)).flatMap StringPiece.text = body) :
    (string quote (body ++ r)).unclosed = !decide (r.head? = some quote) := by
  simp only [string, hb, List.drop_left]

theorem string_congr {quote : Char} {t t' : Text}
    (hs : StringPiece.scan quote t = StringPiece.scan quote t')
    (hu : (string quote t).unclosed = (string quote t').unclosed) :
    string quote t = string quote t' := by
  simp only [string, hs] at hu ⊢
  have hc := decide_eq_decide.mp (Bool.not_inj hu)
  simp only [hc]

/-- A string is closed by its quote, or is cut off at the end of its line. -/
theorem string_cases (quote : Char) (t : Text) : ∃ body r, t = body ++ r ∧
    (StringPiece.scan quote t).flatMap StringPiece.text = body ∧
    ((∃ r', r = quote :: r' ∧ (string quote t).unclosed = false) ∨
      Text.endsLine r ∧ (string quote t).unclosed = true) := by
  obtain ⟨r, ht, hr⟩ := StringPiece.exists_body quote t
  generalize hb : (StringPiece.scan quote t).flatMap StringPiece.text = body at ht
  refine ⟨body, r, ht, rfl, ?_⟩
  subst ht
  rw [unclosed_string hb]
  by_cases hc : r.head? = some quote
  · obtain ⟨r', rfl⟩ := List.head?_eq_some_iff.mp hc
    exact .inl ⟨r', rfl, by simp⟩
  · refine .inr ⟨?_, by simpa using hc⟩
    cases r with
    | nil => rfl
    | cons c r =>
      have hne : c ≠ quote := by simpa using hc
      simpa [StringPiece.stopsAt, Text.endsLine, hne] using hr

theorem string_prefix (quote : Char) (t : Text) : (string quote t).raw <+: quote :: t := by
  obtain ⟨body, r, ht, hb, ⟨r', rfl, hu⟩ | ⟨-, hu⟩⟩ := string_cases quote t
  · rw [raw_string, hb, hu, ht]
    exact ⟨r', by simp⟩
  · rw [raw_string, hb, hu, ht]
    exact ⟨r, by simp⟩

theorem string_resume {quote : Char} (hq : isLineTerminator quote = false) {a u v : Text}
    (ha : (string quote (a ++ u)).raw = quote :: a) (h : Continues a u v)
    (hv : Text.endsLine u → Text.endsLine v) :
    string quote (a ++ v) = string quote (a ++ u) := by
  obtain ⟨body, r, ht, hb, ⟨r', rfl, hu⟩ | ⟨hr, hu⟩⟩ := string_cases quote (a ++ u)
  · rw [raw_string, hb, hu, List.cons_inj_right] at ha
    obtain rfl : a = body ++ [quote] := by simpa using ha.symm
    obtain rfl : u = r' := by simpa using ht
    rw [List.append_assoc] at hb ⊢
    have hs : StringPiece.scan quote (body ++ ([quote] ++ v)) =
        StringPiece.scan quote (body ++ ([quote] ++ u)) :=
      StringPiece.scan_resume hb h.append (by simp [StringPiece.stopsAt])
    rw [List.append_assoc]
    refine string_congr hs ?_
    rw [unclosed_string (hs ▸ hb), unclosed_string hb]
    rfl
  · rw [raw_string, hb, hu, if_pos rfl, List.append_nil, List.cons_inj_right] at ha
    subst ha
    obtain rfl : u = r := by simpa using ht
    have hend := hv hr
    have hs : StringPiece.scan quote (body ++ v) = StringPiece.scan quote (body ++ u) := by
      refine StringPiece.scan_resume hb h ?_
      cases v with
      | nil => rfl
      | cons c v => simp_all [StringPiece.stopsAt, Text.endsLine]
    refine string_congr hs ?_
    rw [hu, unclosed_string (hs ▸ hb)]
    cases v with
    | nil => rfl
    | cons c v =>
      have hne : c ≠ quote := by
        rintro rfl
        simp [Text.endsLine, hq] at hend
      simp [hne]

end Lexeme

end EcmaLex
