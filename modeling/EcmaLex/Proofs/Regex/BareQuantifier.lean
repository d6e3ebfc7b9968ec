import EcmaLex.Proofs.Regex.Bounds
import EcmaLex.Proofs.Regex.Course

/-!
# Quantifiers without an atom

Where no atom stands before it, a quantifier is read as a part of the pattern, and each of its marks
and braces should have been escaped. Behind an atom only its bounds may be wrong. Both readings end
at the same place, unless the bounds are broken.
-/

namespace EcmaLex

open RegexTerm (isPlain quantifierText advances_stray advances_plain advances_marks)

namespace Quantifier

def isBroken : Quantifier → Bool
  | bounds _ _ (.broken _ _) _ => true
  | _ => false

def issues : Quantifier → List Issue
  | noNumber found => [.expectedNumber found]
  | q => q.reversal

def isSpecial (c : Char) : Bool := isMark c || c = '\x7b' || c = '\x7d'

/-- What is said of the text of a quantifier where no atom stands before it. -/
def bareIssues (w : Text) : List Issue := (w.filter isSpecial).map .unescaped

theorem bareIssues_append (w w' : Text) : bareIssues (w ++ w') = bareIssues w ++ bareIssues w' := by
  rw [bareIssues, List.filter_append, List.map_append]
  rfl

theorem bareIssues_cons {c : Char} (h : isSpecial c) (w : Text) :
    bareIssues (c :: w) = .unescaped c :: bareIssues w := by
  rw [bareIssues, List.filter_cons_of_pos h, List.map_cons]
  rfl

theorem bareIssues_of_isMark {w : Text} (h : ∀ c ∈ w, isMark c) :
    bareIssues w = w.map .unescaped := by
  have hspecial : ∀ c ∈ w, isSpecial c := fun c hc => by simp [isSpecial, h c hc]
  rw [bareIssues, List.filter_eq_self.mpr hspecial]

theorem isMark_of_mem_lazyText {isLazy : Bool} {c : Char} (h : c ∈ lazyText isLazy) :
    isMark c := by
  cases isLazy with
  | false => simp [lazyText] at h
  | true =>
    obtain rfl := List.mem_singleton.mp h
    rfl

def isBoundChar (c : Char) : Bool := c.isDigit || c = ','

theorem isPlain_of_isBoundChar {c : Char} (hc : isBoundChar c) : isPlain c ∧ ¬ isSpecial c := by
  have hascii : ∀ n < 58, isBoundChar (Char.ofNat n) →
      isPlain (Char.ofNat n) ∧ ¬ isSpecial (Char.ofNat n) := by decide +kernel
  have hlt : c.toNat < 58 := by
    simp only [isBoundChar, Bool.or_eq_true, Char.isDigit_iff_toNat, decide_eq_true_eq] at hc
    rcases hc with hc | rfl
    · exact Nat.lt_succ_of_le hc.2
    · decide
  have hplain := hascii c.toNat hlt
  rw [Char.ofNat_toNat] at hplain
  exact hplain hc

theorem isBoundChar_of_mem {t low r : Text} {high : Option Text} {ending : BoundsEnd}
    (h : Bounds t low high ending r) : ∀ c ∈ low ++ highText high, isBoundChar c := by
  have hdigits : ∀ {u : Text}, ∀ c ∈ u.takeWhile Char.isDigit, isBoundChar c :=
    fun c hc => by simp [isBoundChar, List.mem_takeWhile_imp hc]
  refine List.forall_mem_append.mpr ⟨h.low ▸ hdigits, ?_⟩
  rw [← h.high]
  unfold highAt
  split
  · exact List.forall_mem_cons.mpr ⟨rfl, hdigits⟩
  · simp [highText]

inductive Whole : Quantifier → Prop where
  | mark {c : Char} (isLazy : Bool) (hc : isMark c) : Whole (mark c isLazy)
  | noNumber (found : Text) : Whole (noNumber found)
  | bounds {low : Text} {high : Option Text} (isLazy : Bool)
      (h : ∀ c ∈ low ++ highText high, isBoundChar c) : Whole (bounds low high .closed isLazy)

theorem whole_of_scan? {t : Text} {q : Quantifier} (h : scan? t = some q)
    (hq : q.isBroken = false) : q.Whole := by
  cases hb : begins t with
  | false =>
    rw [scan?_of_not_begins hb] at h
    cases h
  | true =>
    rcases begins_cases hb with ⟨c, r, rfl, hc⟩ | ⟨t, rfl⟩
    · rw [scan?_mark hc, Option.some_inj] at h
      exact h ▸ .mark _ hc
    · rw [scan?_brace, Option.some_inj] at h
      by_cases hlow : t.takeWhile Char.isDigit = []
      · rw [scanBounds_of_not_digit hlow] at h
        exact h ▸ .noNumber _
      · obtain ⟨low, high, ending, r, hbounds⟩ := exists_bounds t
        rw [hbounds.scan_eq (hbounds.low ▸ hlow)] at h
        subst h
        cases ending with
        | closed => exact .bounds _ (isBoundChar_of_mem hbounds)
        | broken found skipped => cases hq

namespace Whole

variable {q : Quantifier}

theorem issues_trace (h : q.Whole) (o : Options) : q.trace.issues o = q.issues := by
  have hmarks : ∀ {isLazy : Bool}, ∀ c ∈ lazyText isLazy, isUnsafeChar c = false :=
    fun c hc => isSafe_of_isMark (isMark_of_mem_lazyText hc)
  cases h with
  | mark isLazy hc =>
    exact Trace.issues_reads (List.forall_mem_cons.mpr ⟨isSafe_of_isMark hc, hmarks⟩)
  | noNumber found => rfl
  | @bounds low high isLazy h =>
    have hbounds : ∀ c ∈ '\x7b' :: (low ++ highText high), isUnsafeChar c = false :=
      List.forall_mem_cons.mpr ⟨by decide, fun c hc =>
        (RegexTerm.isPlain_iff.mp (isPlain_of_isBoundChar (h c hc)).1).2.2.1⟩
    rw [trace, Trace.issues_append, Trace.issues_append, Trace.issues_append,
      Trace.issues_reads hmarks, List.cons_append, Trace.issues_reads hbounds,
      order_eq _ low high .closed isLazy, Trace.issues_flatMap_noteAt]
    rfl

/-- Where no atom stands before it, nothing but its marks and braces is reported. -/
theorem advances [Primitives] (h : q.Whole) (o : Options) (d : Nat) (r : Text) :
    Advances o d false q.text r (bareIssues q.text) d false := by
  cases h with
  | @mark c isLazy hc =>
    have hmarks : ∀ d ∈ c :: lazyText isLazy, isMark d :=
      List.forall_mem_cons.mpr ⟨hc, fun d hd => isMark_of_mem_lazyText hd⟩
    exact (advances_marks hmarks o d r).cast rfl (bareIssues_of_isMark hmarks).symm
  | noNumber found => exact advances_stray (by decide) o d false r
  | @bounds low high isLazy h =>
    have hplain : ∀ c ∈ low ++ highText high, isPlain c :=
      fun c hc => (isPlain_of_isBoundChar (h c hc)).1
    -- Between the braces stand atoms, of which nothing is said.
    have hsilent : bareIssues (low ++ highText high) = [] := by
      rw [bareIssues, List.filter_eq_nil_iff.mpr fun c hc => (isPlain_of_isBoundChar (h c hc)).2]
      rfl
    have hclosing := (advances_stray (c := '\x7d') (by decide) o d
      (false || !(low ++ highText high).isEmpty) (lazyText isLazy ++ r)).append
        (advances_marks (fun _ => isMark_of_mem_lazyText) o d r)
    have hadvances := (advances_stray (c := '\x7b') (by decide) o d false _).append
      ((advances_plain hplain rfl o d false).append hclosing)
    have htext : '\x7b' :: ((low ++ highText high) ++ '\x7d' :: lazyText isLazy) =
        (Quantifier.bounds low high .closed isLazy).text := by simp [text, BoundsEnd.text]
    refine hadvances.cast htext ?_
    rw [← htext, bareIssues_cons (by decide), bareIssues_append, hsilent,
      bareIssues_cons (by decide), bareIssues_of_isMark fun _ => isMark_of_mem_lazyText]
    rfl

end Whole

/-- Behind no atom the quantifier at the start of a text, if there is one, is passed over with its
marks and braces. -/
theorem advances_bare [Primitives] {w r : Text} (hw : quantifierText (scan? (w ++ r)) = w)
    (hq : ∀ q, scan? (w ++ r) = some q → q.isBroken = false) (o : Options) (d : Nat) :
    Advances o d false w r (bareIssues w) d false := by
  cases hscan : scan? (w ++ r) with
  | none =>
    rw [hscan] at hw
    obtain rfl : w = [] := hw.symm
    exact .nil o d false r
  | some q =>
    rw [hscan] at hw
    obtain rfl : q.text = w := hw
    exact (whole_of_scan? hscan (hq q hscan)).advances o d r

def issuesAt (t : Text) : List Issue := (scan? t).elim [] issues

theorem issues_scan? {t : Text} (hq : ∀ q, scan? t = some q → q.isBroken = false) (o : Options) :
    Trace.issues o ((scan? t).elim [] trace) = issuesAt t := by
  unfold issuesAt
  cases hscan : scan? t with
  | none => rfl
  | some q => exact (whole_of_scan? hscan (hq q hscan)).issues_trace o

end Quantifier

end EcmaLex
