import EcmaLex.Proofs.Echo
import EcmaLex.Text.Lines
import EcmaLex.Text.Position

/-!
# Line ends

A line ends with a line feed, with a carriage return, or with both in that order. A text is unified
by putting a line feed for each of them. That changes nothing but the line ends: what a line holds,
and what a text on one line is, stays the same.
-/

namespace EcmaLex

theorem isLineTerminator_iff {c : Char} : isLineTerminator c ↔ c = '\n' ∨ c = '\r' := by
  simp [isLineTerminator]

theorem isLineTerminator_of_pos {p : Char → Bool} (hfeed : p '\n' = false)
    (hreturn : p '\r' = false) {c : Char} (h : p c) : isLineTerminator c = false := by
  rw [Bool.eq_false_iff]
  intro hc
  rcases isLineTerminator_iff.mp hc with rfl | rfl
  · simp [hfeed] at h
  · simp [hreturn] at h

namespace Text

def Inline (t : Text) : Prop := ∀ c ∈ t, isLineTerminator c = false

instance (t : Text) : Decidable (Inline t) := List.decidableBAll _ t

@[simp] theorem inline_nil : Inline [] := by simp [Inline]

@[simp] theorem inline_cons (c : Char) (t : Text) :
    Inline (c :: t) ↔ isLineTerminator c = false ∧ Inline t := List.forall_mem_cons

@[simp] theorem inline_append (s t : Text) : Inline (s ++ t) ↔ Inline s ∧ Inline t :=
  List.forall_mem_append

@[simp] theorem inline_flatMap {α : Type} (f : α → Text) (as : List α) :
    Inline (as.flatMap f) ↔ ∀ a ∈ as, Inline (f a) := by
  induction as with
  | nil => simp
  | cons a as ih => simp [ih]

theorem inline_takeWhile {p : Char → Bool} (hp : ∀ c, p c → isLineTerminator c = false) (t : Text) :
    Inline (t.takeWhile p) := fun c hc => hp c (List.mem_takeWhile_imp hc)

theorem any_isLineTerminator_eq_false_iff {t : Text} :
    t.any isLineTerminator = false ↔ Inline t := by
  simp [Inline]

/-- No line end lies half in `a` and half in the text `u` behind it. -/
def Apart (a u : Text) : Prop := a.getLast? = some '\r' → u.head? ≠ some '\n'

theorem Inline.apart {a : Text} (h : Inline a) (u : Text) : Apart a u := by
  intro hr
  have hmem := h '\r' (List.mem_of_getLast? hr)
  exact absurd hmem (by decide)

theorem apart_append {b a u : Text} (ha : a ≠ []) : Apart (b ++ a) u ↔ Apart a u := by
  obtain ⟨c, hc⟩ : ∃ c, a.getLast? = some c := by
    cases h : a.getLast? with
    | none => exact absurd (List.getLast?_eq_none_iff.mp h) ha
    | some c => exact ⟨c, rfl⟩
  rw [Apart, Apart, List.getLast?_append, hc, Option.some_or]

theorem Apart.of_append {b a u : Text} (h : Apart (b ++ a) u) : Apart a u := by
  cases a with
  | nil => simp [Apart]
  | cons c a => exact (apart_append (by simp)).mp h

theorem apart_append_inline {b a : Text} (ha : Inline a) (hne : a ≠ []) (u : Text) :
    Apart (b ++ a) u := (apart_append hne).mpr (ha.apart u)

theorem apart_nil_right (a : Text) : Apart a [] := by simp [Apart]

theorem Apart.append {b a u : Text} (h : Apart b a) (h' : Apart (b ++ a) u) : Apart b (a ++ u) := by
  cases a with
  | nil => simpa using h'
  | cons c a => exact h

theorem Apart.of_prefix {a u p : Text} (h : Apart a u) (hp : p <+: u) : Apart a p := by
  obtain ⟨r, rfl⟩ := hp
  cases p with
  | nil => exact apart_nil_right a
  | cons c p => exact h

def lineEnds : List Text := [['\n'], ['\r'], ['\r', '\n']]

def unified : Text → Text
  | [] => []
  | c :: t =>
    if c = '\r' then if t.head? = some '\n' then unified t else '\n' :: unified t
    else c :: unified t

@[simp] theorem unified_nil : unified [] = [] := rfl

theorem unified_cons {c : Char} (hc : c ≠ '\r') (t : Text) :
    unified (c :: t) = c :: unified t := if_neg hc

theorem unified_cons_inline {c : Char} (hc : isLineTerminator c = false) (t : Text) :
    unified (c :: t) = c :: unified t := by
  apply unified_cons
  rintro rfl
  exact absurd hc (by decide)

theorem unified_pair (t : Text) : unified ('\r' :: '\n' :: t) = '\n' :: unified t := rfl

theorem unified_return {t : Text} (ht : t.head? ≠ some '\n') :
    unified ('\r' :: t) = '\n' :: unified t := by
  rw [unified, if_pos rfl, if_neg ht]

theorem exists_unified_return (t : Text) : ∃ u, unified ('\r' :: t) = '\n' :: u := by
  by_cases ht : t.head? = some '\n'
  · obtain ⟨t, rfl⟩ := List.head?_eq_some_iff.mp ht
    exact ⟨_, unified_pair t⟩
  · exact ⟨_, unified_return ht⟩

/-- A text is unified on both sides of any cut that goes through no line end. -/
theorem unified_append {a u : Text} (h : Apart a u) :
    unified (a ++ u) = unified a ++ unified u := by
  induction a with
  | nil => rfl
  | cons c a ih =>
    have happ : Apart a u := Apart.of_append (b := [c]) h
    rw [List.cons_append]
    by_cases hc : c = '\r'
    · subst hc
      -- Nothing in `u` can complete the line end that starts here.
      have hhead : (a ++ u).head? = some '\n' ↔ a.head? = some '\n' := by
        cases a with
        | nil =>
          have hu : u.head? ≠ some '\n' := h rfl
          simp [hu]
        | cons d a => rfl
      rw [unified, unified, if_pos rfl, if_pos rfl, ih happ]
      simp only [hhead]
      split <;> rfl
    · rw [unified_cons hc, unified_cons hc, ih happ, List.cons_append]

theorem Inline.unified {a : Text} (h : Inline a) : unified a = a := by
  induction a with
  | nil => rfl
  | cons c a ih =>
    obtain ⟨hc, ha⟩ := (inline_cons c a).mp h
    rw [unified_cons_inline hc, ih ha]

theorem Inline.unified_append {a : Text} (h : Inline a) (u : Text) :
    Text.unified (a ++ u) = a ++ Text.unified u := by
  rw [Text.unified_append (h.apart u), h.unified]

theorem unified_of_mem_lineEnds {b : Text} (hb : b ∈ lineEnds) : unified b = ['\n'] := by
  have hall : ∀ b ∈ lineEnds, unified b = ['\n'] := by decide
  exact hall b hb

theorem unified_concat {d : Char} (hd : isLineTerminator d = false) (b : Text) :
    unified (b ++ [d]) = unified b ++ [d] := by
  have hne : d ≠ '\n' := by
    rintro rfl
    exact absurd hd (by decide)
  have hapart : Apart b [d] := fun _ => by simpa using hne
  rw [unified_append hapart, unified_cons_inline hd, unified_nil]

theorem exists_lineEnd {c : Char} (hc : isLineTerminator c) (t : Text) :
    ∃ b r, c :: t = b ++ r ∧ b ∈ lineEnds ∧ Apart b r ∧ unified (c :: t) = '\n' :: unified r := by
  rcases isLineTerminator_iff.mp hc with rfl | rfl
  · exact ⟨['\n'], t, rfl, by decide, by simp [Apart], unified_cons (by decide) t⟩
  · by_cases ht : t.head? = some '\n'
    · obtain ⟨t, rfl⟩ := List.head?_eq_some_iff.mp ht
      exact ⟨['\r', '\n'], t, rfl, by decide, by simp [Apart], unified_pair t⟩
    · exact ⟨['\r'], t, rfl, by decide, fun _ => ht, unified_return ht⟩

/-- Induction on a text, by whole line ends and single characters. A character may take up any part
of what follows it. -/
theorem lineEnd_induction {motive : Text → Prop} (nil : motive [])
    (lineEnd : ∀ b r, b ∈ lineEnds → Apart b r → unified (b ++ r) = '\n' :: unified r →
      motive r → motive (b ++ r))
    (char : ∀ c t, isLineTerminator c = false → (∀ r, r.length ≤ t.length → motive r) →
      motive (c :: t))
    (t : Text) : motive t := by
  induction hn : t.length using Nat.strong_induction_on generalizing t with
  | _ n ih =>
    cases t with
    | nil => exact nil
    | cons c t =>
      rw [List.length_cons] at hn
      by_cases hc : isLineTerminator c
      · obtain ⟨b, r, ht, hb, hr, hunified⟩ := exists_lineEnd hc t
        have hpos : 0 < b.length := by
          have hall : ∀ b ∈ lineEnds, 0 < b.length := by decide
          exact hall b hb
        have hlength := congrArg List.length ht
        rw [List.length_cons, List.length_append] at hlength
        rw [ht] at hunified ⊢
        exact lineEnd b r hb hr hunified (ih r.length (by omega) r rfl)
      · refine char c t (by simpa using hc) fun r hr => ih r.length ?_ r rfl
        omega

/-- What a text starts with once it is unified. -/
theorem head?_unified (t : Text) :
    (unified t).head? = t.head?.map fun c => if isLineTerminator c then '\n' else c := by
  cases t with
  | nil => rfl
  | cons c t =>
    by_cases hc : c = '\r'
    · subst hc
      obtain ⟨u, hu⟩ := exists_unified_return t
      rw [hu]
      rfl
    · rw [unified_cons hc]
      by_cases hn : c = '\n'
      · rw [hn]
        rfl
      · have hl : isLineTerminator c = false := by simp [isLineTerminator, hc, hn]
        simp [hl]

theorem head?_unified_eq_some_iff {c : Char} (hc : isLineTerminator c = false) {t : Text} :
    (unified t).head? = some c ↔ t.head? = some c := by
  rw [head?_unified]
  cases t.head? with
  | none => rfl
  | some d =>
    have hne : '\n' ≠ c := by
      rintro rfl
      exact absurd hc (by decide)
    by_cases hd : isLineTerminator d
    · have hdc : d ≠ c := by
        rintro rfl
        rw [hc] at hd
        exact absurd hd (by decide)
      simp [hd, hne, hdc]
    · simp [hd]

theorem unified_eq_nil_iff {t : Text} : unified t = [] ↔ t = [] := by
  rw [← List.head?_eq_none_iff, head?_unified, Option.map_eq_none_iff, List.head?_eq_none_iff]

/-- What all line terminators share is the same of the first character. -/
theorem map_head?_unified {α : Type} {f : Char → α} (hf : f '\r' = f '\n') (t : Text) :
    (unified t).head?.map f = t.head?.map f := by
  rw [head?_unified]
  cases t.head? with
  | none => rfl
  | some c =>
    simp only [Option.map_some, Option.some.injEq]
    split
    · rename_i hc
      rcases isLineTerminator_iff.mp hc with rfl | rfl
      · rfl
      · exact hf.symm
    · rfl

theorem any_head?_unified {p : Char → Bool} (hp : p '\r' = p '\n') (t : Text) :
    (unified t).head?.any p = t.head?.any p := by
  have h := congrArg (Option.any id) (map_head?_unified hp t)
  rwa [Option.any_map, Option.any_map] at h

theorem all_head?_unified {p : Char → Bool} (hp : p '\r' = p '\n') (t : Text) :
    (unified t).head?.all p = t.head?.all p := by
  have h := congrArg (Option.all id) (map_head?_unified hp t)
  rwa [Option.all_map, Option.all_map] at h

theorem endsLine_unified (t : Text) : endsLine (unified t) = endsLine t :=
  all_head?_unified rfl t

/-- A run of characters that end no line is the same in the unified text. -/
theorem takeWhile_unified {p : Char → Bool} (hp : ∀ c, p c → isLineTerminator c = false)
    (t : Text) : (unified t).takeWhile p = t.takeWhile p := by
  induction t with
  | nil => rfl
  | cons c t ih =>
    have hfeed : p '\n' = false := by
      rw [Bool.eq_false_iff]
      exact fun h => absurd (hp _ h) (by decide)
    have hreturn : p '\r' = false := by
      rw [Bool.eq_false_iff]
      exact fun h => absurd (hp _ h) (by decide)
    by_cases hc : c = '\r'
    · subst hc
      obtain ⟨u, hu⟩ := exists_unified_return t
      rw [hu, List.takeWhile_cons_of_neg (by simp [hfeed]),
        List.takeWhile_cons_of_neg (by simp [hreturn])]
    · rw [unified_cons hc, List.takeWhile_cons, List.takeWhile_cons, ih]

/-- What stands on one line at the start of a unified text starts the text itself. -/
theorem prefix_of_prefix_unified {p t : Text} (hp : Inline p) (h : p <+: unified t) : p <+: t := by
  induction p generalizing t with
  | nil => exact List.nil_prefix
  | cons c p ih =>
    obtain ⟨hc, hp⟩ := (inline_cons c p).mp hp
    obtain ⟨r, hr⟩ := h
    have hhead : t.head? = some c := (head?_unified_eq_some_iff hc).mp (by rw [← hr]; rfl)
    obtain ⟨t, rfl⟩ := List.head?_eq_some_iff.mp hhead
    rw [unified_cons_inline hc, List.cons_append, List.cons_inj_right] at hr
    exact List.cons_prefix_cons.mpr ⟨rfl, ih hp ⟨r, hr⟩⟩

/-- A unified text echoes the text itself. -/
theorem echoes_unified (t : Text) : Echoes (unified t) t := by
  induction t with
  | nil => exact echoes_nil []
  | cons c t ih =>
    by_cases hc : c = '\r'
    · subst hc
      obtain ⟨u, hu⟩ := exists_unified_return t
      rw [hu, Echoes, List.takeWhile_cons_of_neg (by decide)]
      exact List.nil_prefix
    · rw [unified_cons hc]
      exact echoes_cons ih

theorem Inline.continues {a : Text} (h : Inline a) (u : Text) : Continues a u (Text.unified u) where
  echoes := echoes_unified u
  lone := fun hu hv => absurd (unified_eq_nil_iff.mpr hu) hv
  paired := by
    intro _ _ ha
    exact absurd (h '\r' (List.mem_of_getLast? ha)) (by decide)

theorem inline_unified_iff {t : Text} : Inline (unified t) ↔ Inline t := by
  constructor
  · intro h
    induction t with
    | nil => exact inline_nil
    | cons c t ih =>
      by_cases hc : c = '\r'
      · subst hc
        obtain ⟨u, hu⟩ := exists_unified_return t
        rw [hu] at h
        exact absurd (h '\n' List.mem_cons_self) (by decide)
      · rw [unified_cons hc, inline_cons] at h
        exact (inline_cons c t).mpr ⟨h.1, ih h.2⟩
  · intro h
    rwa [h.unified]

theorem apply_unified {α : Type} {f : Text → α} {b : α} (hf : ∀ t, ¬ Inline t → f t = b)
    (t : Text) : f (unified t) = f t := by
  by_cases h : Inline t
  · rw [h.unified]
  · rw [hf t h, hf (unified t) (inline_unified_iff.not.mpr h)]

/-- The lines of a unified text hold the same as those of the text itself. -/
theorem contents_lines_unified (t : Text) :
    (unified t).lines.map Line.content = t.lines.map Line.content := by
  fun_induction lines t with
  | case1 => rfl
  | case2 t ih => rw [unified_pair, lines, List.map_cons, List.map_cons, ih]
  | case3 t ht ih =>
    have hhead : t.head? ≠ some '\n' := by
      intro h
      obtain ⟨t', rfl⟩ := List.head?_eq_some_iff.mp h
      exact ht t' rfl
    rw [unified_return hhead, lines, List.map_cons, List.map_cons, ih]
  | case4 t ih => rw [unified_cons (by decide), lines, List.map_cons, List.map_cons, ih]
  | case5 c t _ _ _ hnil => exact absurd hnil (lines_ne_nil t)
  | case6 c t hpair hreturn hfeed l more hlines ih =>
    have hc : c ≠ '\n' ∧ c ≠ '\r' := ⟨fun h => hfeed h, fun h => hreturn h⟩
    obtain ⟨l', more', hlines', hcons⟩ := exists_lines_cons hc.1 hc.2 (unified t)
    rw [hlines', hlines, List.map_cons, List.map_cons] at ih
    obtain ⟨hl, hmore⟩ := List.cons.inj ih
    rw [unified_cons hc.2, hcons, List.map_cons, List.map_cons, hmore, Line.cons, Line.cons, hl]

end Text

end EcmaLex
