import EcmaLex.Proofs.Echo

/-!
# Scans that go piece by piece

Most literals are scanned one piece after another until something stops the scan. What the pieces
take up is a prefix of the text. If behind that prefix another text is put which stops the scan too,
and which no piece can tell from the first one, the pieces stay the same.
-/

namespace EcmaLex

/-- A scan in a state stops at some texts. At any other text it takes a piece from the start, which
leads to the next state. -/
structure PieceScan {σ α : Type} (scan : σ → Text → List α) (text : α → Text)
    (stopsAt : σ → Text → Bool) (step : σ → Char → Text → α) (after : σ → α → σ) : Prop where
  stopsAt_nil : ∀ s, stopsAt s []
  stop : ∀ {s t}, stopsAt s t → scan s t = []
  piece : ∀ {s c t}, stopsAt s (c :: t) = false →
    ∃ w r, t = w ++ r ∧ text (step s c t) = c :: w
  go : ∀ {s c t}, stopsAt s (c :: t) = false → scan s (c :: t) =
    step s c t :: scan (after s (step s c t)) (t.drop ((text (step s c t)).length - 1))

namespace PieceScan

variable {σ α : Type} {scan : σ → Text → List α} {text : α → Text} {stopsAt : σ → Text → Bool}
  {step : σ → Char → Text → α} {after : σ → α → σ} (h : PieceScan scan text stopsAt step after)

include h

theorem exists_piece {s : σ} {t : Text} (hs : stopsAt s t = false) :
    ∃ c w r, t = c :: (w ++ r) ∧ text (step s c (w ++ r)) = c :: w := by
  cases t with
  | nil => simp [h.stopsAt_nil s] at hs
  | cons c t =>
    obtain ⟨w, r, rfl, hw⟩ := h.piece hs
    exact ⟨c, w, r, rfl, hw⟩

theorem scan_cons {s : σ} {c : Char} {w r : Text} (hs : stopsAt s (c :: (w ++ r)) = false)
    (hw : text (step s c (w ++ r)) = c :: w) :
    scan s (c :: (w ++ r)) =
      step s c (w ++ r) :: scan (after s (step s c (w ++ r))) r := by
  rw [h.go hs, hw, List.length_cons, Nat.add_one_sub_one, List.drop_left]

/-- What is shown of the pieces of a text one by one, from the last piece to the first. -/
theorem exists_rest_of {motive : List α → Text → Prop}
    (stop : ∀ {s r}, stopsAt s r → motive [] r)
    (piece : ∀ {s c w ps r}, stopsAt s (c :: (w ++ (ps.flatMap text ++ r))) = false →
      text (step s c (w ++ (ps.flatMap text ++ r))) = c :: w → motive ps r →
      motive (step s c (w ++ (ps.flatMap text ++ r)) :: ps) r) (s : σ) (t : Text) :
    ∃ r, t = (scan s t).flatMap text ++ r ∧ motive (scan s t) r := by
  induction hn : t.length using Nat.strong_induction_on generalizing s t with
  | _ n ih =>
    cases hs : stopsAt s t with
    | true =>
      rw [h.stop hs]
      exact ⟨t, rfl, stop hs⟩
    | false =>
      obtain ⟨c, w, r, rfl, hw⟩ := h.exists_piece hs
      obtain ⟨z, hr, hz⟩ := ih r.length (by simp at hn; omega) (after s (step s c (w ++ r))) r rfl
      rw [h.scan_cons hs hw]
      refine ⟨z, ?_, ?_⟩
      · rw [List.flatMap_cons, hw, List.cons_append, List.cons_append, List.append_assoc, ← hr]
      · have hpiece := piece (s := s) (c := c) (w := w) (r := z) (hr ▸ hs) (hr ▸ hw) hz
        rwa [← hr] at hpiece

theorem exists_rest (s : σ) (t : Text) :
    ∃ r, t = (scan s t).flatMap text ++ r ∧ ∃ s', stopsAt s' r :=
  h.exists_rest_of (motive := fun _ r => ∃ s', stopsAt s' r) (fun hs => ⟨_, hs⟩)
    (fun _ _ hr => hr) s t

theorem flatMap_prefix (s : σ) (t : Text) : (scan s t).flatMap text <+: t := by
  obtain ⟨r, hr, -⟩ := h.exists_rest s t
  exact ⟨r, hr.symm⟩

theorem forall_mem {P : α → Prop}
    (hstep : ∀ {s c t}, stopsAt s (c :: t) = false → P (step s c t)) (s : σ) (t : Text) :
    ∀ p ∈ scan s t, P p := by
  obtain ⟨-, -, hall⟩ := h.exists_rest_of (motive := fun ps _ => ∀ p ∈ ps, P p) (by simp)
    (fun hs _ hps => List.forall_mem_cons.mpr ⟨hstep hs, hps⟩) s t
  exact hall

/-- The first pieces of a text do not change with what stands behind them, if none of them does.
The property `P` is what is known of the texts that end there. -/
theorem resume_prefix {u v : Text} {P : Text → Prop} (hP : ∀ {w a}, P (w ++ a) → P a)
    (hstep : ∀ {s c w a}, P (c :: w ++ a) → stopsAt s (c :: (w ++ (a ++ u))) = false →
      text (step s c (w ++ (a ++ u))) = c :: w →
      stopsAt s (c :: (w ++ (a ++ v))) = false ∧
        step s c (w ++ (a ++ v)) = step s c (w ++ (a ++ u)))
    {s : σ} {ps qs : List α} (hs : scan s (ps.flatMap text ++ u) = ps ++ qs)
    (hPa : P (ps.flatMap text)) :
    ∃ s', scan s' u = qs ∧ scan s (ps.flatMap text ++ v) = ps ++ scan s' v := by
  induction ps generalizing s with
  | nil => exact ⟨s, hs, rfl⟩
  | cons p ps ih =>
    cases hstop : stopsAt s ((p :: ps).flatMap text ++ u) with
    | true =>
      rw [h.stop hstop] at hs
      simp at hs
    | false =>
      obtain ⟨c, w, r, ht, hw⟩ := h.exists_piece hstop
      rw [ht] at hstop hs
      rw [h.scan_cons hstop hw, List.cons_append] at hs
      obtain ⟨rfl, hps⟩ := List.cons.inj hs
      rw [List.flatMap_cons, hw] at hPa
      rw [List.flatMap_cons, hw, List.append_assoc, List.cons_append] at ht
      obtain rfl : ps.flatMap text ++ u = r := by simpa using ht
      obtain ⟨hstop', hstep'⟩ := hstep hPa hstop hw
      obtain ⟨s', hu, hv⟩ := ih hps (hP hPa)
      refine ⟨s', hu, ?_⟩
      rw [List.flatMap_cons, hw, List.append_assoc, List.cons_append,
        h.scan_cons hstop' (hstep' ▸ hw), hstep', hv, List.cons_append]

theorem stopsAt_of_scan_eq_nil {s : σ} {t : Text} (ht : scan s t = []) : stopsAt s t := by
  by_contra hs
  rw [Bool.not_eq_true] at hs
  obtain ⟨c, w, r, rfl, hw⟩ := h.exists_piece hs
  simp [h.scan_cons hs hw] at ht

/-- The pieces do not change with what stands behind them, if the scan stops there too and no piece
changes. The property `P` is what is known of the texts that end there. -/
theorem resume {u v : Text} {P : Text → Prop} (hP : ∀ {w a}, P (w ++ a) → P a)
    (hstop : ∀ {s}, P [] → stopsAt s u → stopsAt s v)
    (hstep : ∀ {s c w a}, P (c :: w ++ a) → stopsAt s (c :: (w ++ (a ++ u))) = false →
      text (step s c (w ++ (a ++ u))) = c :: w →
      stopsAt s (c :: (w ++ (a ++ v))) = false ∧
        step s c (w ++ (a ++ v)) = step s c (w ++ (a ++ u)))
    {s : σ} {a : Text} (ha : (scan s (a ++ u)).flatMap text = a) (hPa : P a) :
    scan s (a ++ v) = scan s (a ++ u) := by
  obtain ⟨ps, hps⟩ : ∃ ps, scan s (a ++ u) = ps := ⟨_, rfl⟩
  rw [hps] at ha
  subst ha
  have hall : scan s (ps.flatMap text ++ u) = ps ++ [] := by rw [hps, List.append_nil]
  obtain ⟨s', hu, hv⟩ := h.resume_prefix hP hstep hall hPa
  have hnil : P [] := hP (w := ps.flatMap text) (by rwa [List.append_nil])
  rw [hv, hps, h.stop (hstop hnil (h.stopsAt_of_scan_eq_nil hu)), List.append_nil]

end PieceScan

end EcmaLex
