import EcmaLex.Lexeme.Scan
import EcmaLex.Proofs.Echo

/-!
# Gaps

What stands between two tokens is made up of characters that are not printable and of closing marks
of comments that were never opened. A gap is as long as it can be: a token, or nothing, follows it.
-/

namespace EcmaLex

open Text (Echoes)

/-- The texts that may be skipped between two tokens. -/
inductive Skippable : Text → Prop where
  | nil : Skippable []
  | char {c : Char} {t : Text} (hc : CharClass.ofChar c ≠ .printable) (ht : Skippable t) :
      Skippable (c :: t)
  | mark {t : Text} (ht : Skippable t) : Skippable ('*' :: '/' :: t)

theorem gap_mark (t : Text) : (gap ('*' :: '/' :: t)).text = '*' :: '/' :: (gap t).text := by
  simp [gap]

theorem gap_char {c : Char} (hc : CharClass.ofChar c ≠ .printable) (t : Text) :
    gap (c :: t) = .read c :: gap t := by
  rw [gap, if_neg hc]
  rintro r rfl -
  exact hc (by decide)

theorem Skippable.text_gap_append {g : Text} (hg : Skippable g) (t : Text) :
    (gap (g ++ t)).text = g ++ (gap t).text := by
  induction hg with
  | nil => rfl
  | char hc _ ih => rw [List.cons_append, gap_char hc, Trace.text_read, ih, List.cons_append]
  | mark _ ih =>
    rw [List.cons_append, List.cons_append, gap_mark, ih, List.cons_append, List.cons_append]

theorem Skippable.append {g g' : Text} (hg : Skippable g) (hg' : Skippable g') :
    Skippable (g ++ g') := by
  induction hg with
  | nil => exact hg'
  | char hc _ ih => exact .char hc ih
  | mark _ ih => exact .mark ih

def startsToken (t : Text) : Bool :=
  t.head?.all fun c => CharClass.ofChar c = .printable && !(c = '*' && t[1]? = some '/')

theorem gap_of_startsToken {t : Text} (h : startsToken t) : gap t = [] := by
  cases t with
  | nil => rfl
  | cons c t =>
    obtain ⟨hc, hm⟩ : CharClass.ofChar c = .printable ∧ ¬ (c = '*' ∧ t.head? = some '/') := by
      simpa [startsToken, List.head?_eq_getElem?, imp_iff_not_or] using h
    rw [gap, if_pos hc]
    rintro r rfl rfl
    exact hm ⟨rfl, rfl⟩

/-- The gap before a token, and that a token or nothing stands behind it. -/
theorem exists_gap (t : Text) :
    ∃ r, t = (gap t).text ++ r ∧ startsToken r ∧ Skippable (gap t).text := by
  induction hn : t.length using Nat.strong_induction_on generalizing t with
  | _ n ih =>
    by_cases hs : startsToken t
    · rw [gap_of_startsToken hs]
      exact ⟨t, rfl, hs, .nil⟩
    · cases t with
      | nil => simp [startsToken] at hs
      | cons c t =>
        by_cases hc : CharClass.ofChar c = .printable
        · obtain ⟨rfl, t, rfl⟩ : c = '*' ∧ ∃ t', t = '/' :: t' := by
            simp only [startsToken, List.head?_cons, Option.all_some, hc, List.getElem?_cons_succ,
              ← List.head?_eq_getElem?] at hs
            simpa [List.head?_eq_some_iff] using hs
          obtain ⟨r, hr, hstart, hskip⟩ := ih t.length (by simp at hn; omega) t rfl
          rw [gap_mark]
          exact ⟨r, by rw [List.cons_append, List.cons_append, ← hr], hstart, .mark hskip⟩
        · obtain ⟨r, hr, hstart, hskip⟩ := ih t.length (by simp at hn; omega) t rfl
          rw [gap_char hc, Trace.text_read]
          exact ⟨r, by rw [List.cons_append, ← hr], hstart, .char hc hskip⟩

theorem startsToken_resume {c : Char} {a u v : Text} (hu : startsToken (c :: (a ++ u)))
    (h : Echoes v u) : startsToken (c :: (a ++ v)) := by
  simp only [startsToken, List.head?_cons, Option.all_some, List.getElem?_cons_succ,
    ← List.head?_eq_getElem?, Bool.and_eq_true, decide_eq_true_eq, Bool.not_eq_true',
    Bool.and_eq_false_iff, decide_eq_false_iff_not] at hu ⊢
  refine ⟨hu.1, hu.2.imp_right fun hne hv => hne ?_⟩
  cases a with
  | nil => exact h.head? hv (by decide)
  | cons d a => exact hv

end EcmaLex
