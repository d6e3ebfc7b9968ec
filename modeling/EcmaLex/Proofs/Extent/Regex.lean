import EcmaLex.Lexeme.Regex
import EcmaLex.Proofs.Content
import EcmaLex.Proofs.Extent.Name
import EcmaLex.Proofs.Extent.Pattern

/-!
# The extent of regular expressions

A regular expression is a prefix of its text. One that is closed is the same before an echo of what
follows it, but for the remark on a mark that follows. One that is not is the same before any end
of a line.
-/

namespace EcmaLex

open Text (Echoes endsLine takeWhile_append_of_echoes)

namespace RegexElement

theorem text_spaces (t : Text) :
    (spaces ((t.takeWhile (· = ' ')).length + 1)).text = ' ' :: t.takeWhile (· = ' ') := by
  rw [text, List.replicate_succ, List.cons_inj_right, eq_comm, List.eq_replicate_iff]
  exact ⟨rfl, fun b hb => by simpa using List.mem_takeWhile_imp hb⟩

theorem exists_split (c : Char) (t : Text) : ∃ w r, t = w ++ r ∧ (scan c t).text = c :: w := by
  unfold scan
  split
  · exact RegexEscape.exists_split t
  · obtain ⟨r, hr⟩ := GroupKind.scan_prefix t
    exact ⟨_, r, hr.symm, rfl⟩
  · exact ⟨[], t, rfl, rfl⟩
  · exact ⟨[], t, rfl, rfl⟩
  · exact ⟨[], t, rfl, rfl⟩
  · obtain ⟨r, hr⟩ := List.takeWhile_prefix (l := t) fun c => decide (c = ' ')
    exact ⟨_, r, hr.symm, text_spaces t⟩
  · exact CharacterClass.exists_split t
  all_goals exact ⟨[], t, rfl, rfl⟩

theorem scan_resume {c : Char} {a x y : Text} (ha : (scan c (a ++ x)).text = c :: a)
    (h : foundAt x = foundAt y) : scan c (a ++ y) = scan c (a ++ x) := by
  unfold scan at ha ⊢
  split at ha
  · rw [RegexEscape.scan_congr (foundAt_append a h)]
  · rw [GroupKind.scan_resume (List.cons.inj ha).2 h]
  · rfl
  · rfl
  · rfl
  · rw [text_spaces, List.cons_inj_right] at ha
    have hy := takeWhile_append_of_foundAt_eq (p := fun c => decide (c = ' '))
      (fun c hc => by simp_all; decide) ha h
    simp only [ha, hy]
  · rw [CharacterClass.scan_resume ha h]
  all_goals rfl

theorem text_trace (depth : Nat) (behindAtom : Bool) (e : RegexElement) :
    (e.trace depth behindAtom).text = e.text := by
  cases e <;> simp [trace, text]

end RegexElement

namespace RegexTerm

def stopsAt (t : Text) : Bool := t.head?.all fun c => c = '/' || isLineTerminator c

def quantifierOf (e : RegexElement) (t : Text) : Option Quantifier :=
  if e.isAtom then Quantifier.scan? t else none

theorem quantifierOf_prefix (e : RegexElement) (t : Text) :
    quantifierText (quantifierOf e t) <+: t := by
  unfold quantifierOf
  split
  · exact Quantifier.scan?_prefix t
  · exact List.nil_prefix

theorem quantifierOf_resume {e : RegexElement} {a x y : Text}
    (ha : quantifierText (quantifierOf e (a ++ x)) = a) (h : foundAt x = foundAt y) :
    quantifierOf e (a ++ y) = quantifierOf e (a ++ x) := by
  unfold quantifierOf at ha ⊢
  split
  · rename_i he
    rw [if_pos he] at ha
    exact Quantifier.scan?_resume ha h
  · rfl

def step (c : Char) (t : Text) : RegexTerm :=
  let element := RegexElement.scan c t
  ⟨element, quantifierOf element (t.drop (element.text.length - 1))⟩

theorem step_eq {c : Char} {w r : Text} (hw : (RegexElement.scan c (w ++ r)).text = c :: w) :
    step c (w ++ r) =
      ⟨RegexElement.scan c (w ++ r), quantifierOf (RegexElement.scan c (w ++ r)) r⟩ := by
  simp only [step, hw, List.length_cons, Nat.add_one_sub_one, List.drop_left]

theorem exists_split (c : Char) (t : Text) : ∃ w r, t = w ++ r ∧ (step c t).text = c :: w := by
  obtain ⟨w, r, rfl, hw⟩ := RegexElement.exists_split c t
  obtain ⟨r, hr⟩ := quantifierOf_prefix (RegexElement.scan c (w ++ r)) r
  rw [step_eq hw, text, hw]
  exact ⟨w ++ _, r, by rw [List.append_assoc, hr], rfl⟩

theorem step_resume {c : Char} {a x y : Text} (ha : (step c (a ++ x)).text = c :: a)
    (h : foundAt x = foundAt y) : step c (a ++ y) = step c (a ++ x) := by
  obtain ⟨w, r, ht, hw⟩ := RegexElement.exists_split c (a ++ x)
  rw [ht] at hw ha ⊢
  rw [step_eq hw, text, hw, List.cons_append, List.cons_inj_right] at ha
  obtain ⟨q, hq⟩ : ∃ q, quantifierText (quantifierOf (RegexElement.scan c (w ++ r)) r) = q :=
    ⟨_, rfl⟩
  simp only [hq] at ha
  subst ha
  obtain rfl : q ++ x = r := by simpa using ht
  have he := RegexElement.scan_resume hw (foundAt_append q h)
  rw [List.append_assoc, step_eq (he ▸ hw), step_eq hw, he, quantifierOf_resume hq h]

theorem pieceScan : PieceScan (fun (_ : Unit) => scan) text (fun _ => stopsAt) (fun _ => step)
    (fun _ _ => ()) where
  stopsAt_nil := fun _ => rfl
  stop := by
    intro _ t hs
    cases t with
    | nil => exact scan.eq_1
    | cons c t =>
      rw [scan]
      exact if_pos (by simpa [stopsAt] using hs)
  piece := fun _ => exists_split _ _
  go := by
    intro _ c t hs
    obtain ⟨w, r, rfl, hw⟩ := RegexElement.exists_split c t
    rw [scan, if_neg (by simpa [stopsAt] using hs), step_eq hw, text]
    simp only [hw, List.cons_append, List.length_cons, Nat.add_one_sub_one, List.length_append,
      ← List.drop_drop, List.drop_left]
    rfl

theorem scan_resume {a x y : Text} (ha : (scan (a ++ x)).flatMap text = a)
    (h : foundAt x = foundAt y) : scan (a ++ y) = scan (a ++ x) := by
  refine pieceScan.resume (s := ()) (P := fun _ => True) (fun _ => trivial) ?_ ?_ ha trivial
  · intro _ _ hs
    exact all_head?_of_foundAt_eq (fun c hc => by simp [hc]) h hs
  · intro _ c w a _ hs hw
    exact ⟨hs, step_resume hw (foundAt_append a h)⟩

theorem exists_pattern (t : Text) : ∃ r, t = (scan t).flatMap text ++ r ∧ stopsAt r := by
  obtain ⟨r, hr, -, hs⟩ := pieceScan.exists_rest () t
  exact ⟨r, hr, hs⟩

theorem text_trace (depth : Nat) (behindAtom : Bool) (m : RegexTerm) :
    (m.element.trace depth behindAtom ++ m.quantifier.elim [] Quantifier.trace).text = m.text := by
  have hq : Trace.text (m.quantifier.elim [] Quantifier.trace) = quantifierText m.quantifier := by
    cases m.quantifier <;> simp [quantifierText]
  rw [Trace.text_append, RegexElement.text_trace, hq, text]

theorem text_traces (depth : Nat) (behindAtom : Bool) (terms : List RegexTerm) :
    (traces depth behindAtom terms).text = terms.flatMap text := by
  induction terms generalizing depth behindAtom with
  | nil => rfl
  | cons m terms ih => rw [traces, Trace.text_append, text_trace, ih, List.flatMap_cons]

end RegexTerm

theorem RegexFlag.text_traces (seen : List RegexFlag) (t : Text) : (traces seen t).text = t := by
  induction t generalizing seen with
  | nil => rfl
  | cons c t ih =>
    unfold traces
    split <;> simp [ih]

namespace Lexeme

theorem kind_regex [Primitives] (t : Text) : (regex t).kind = .regex := by
  unfold regex
  dsimp only
  split <;> rfl

theorem malformed_regex [Primitives] (t : Text) : (regex t).malformed = (regex t).unclosed := by
  unfold regex
  dsimp only
  split <;> rfl

theorem regex_cases (t : Text) : ∃ pattern r, t = pattern ++ r ∧
    (RegexTerm.scan t).flatMap RegexTerm.text = pattern ∧ ((∃ r', r = '/' :: r') ∨ endsLine r) := by
  obtain ⟨r, ht, hr⟩ := RegexTerm.exists_pattern t
  refine ⟨_, r, ht, rfl, ?_⟩
  cases r with
  | nil => exact .inr rfl
  | cons c r =>
    obtain rfl | hc : c = '/' ∨ isLineTerminator c := by simpa [RegexTerm.stopsAt] using hr
    · exact .inl ⟨r, rfl⟩
    · exact .inr hc

theorem regex_closed [Primitives] {pattern r : Text}
    (hp : (RegexTerm.scan (pattern ++ '/' :: r)).flatMap RegexTerm.text = pattern) :
    (regex (pattern ++ '/' :: r)).value =
        .regex pattern (RegexFlag.ofLetters (r.takeWhile isWordPart)) ∧
      (regex (pattern ++ '/' :: r)).raw = '/' :: (pattern ++ '/' :: r.takeWhile isWordPart) ∧
      (regex (pattern ++ '/' :: r)).malformed = false ∧
      (regex (pattern ++ '/' :: r)).unclosed = false := by
  simp [regex, hp, raw, RegexTerm.text_traces, RegexFlag.text_traces]

theorem regex_unclosed [Primitives] {pattern r : Text} (hr : endsLine r)
    (hp : (RegexTerm.scan (pattern ++ r)).flatMap RegexTerm.text = pattern) :
    (regex (pattern ++ r)).value = .regex pattern [] ∧
      (regex (pattern ++ r)).raw = '/' :: pattern ∧
      (regex (pattern ++ r)).malformed = true ∧
      (regex (pattern ++ r)).unclosed = true := by
  simp only [regex, hp, List.drop_left]
  split
  · simp [endsLine, isLineTerminator] at hr
  · simp [raw, RegexTerm.text_traces, hp]

theorem regex_prefix [Primitives] (t : Text) : (regex t).raw <+: '/' :: t := by
  obtain ⟨pattern, r, rfl, hp, ⟨r', rfl⟩ | hr⟩ := regex_cases t
  · obtain ⟨r, hr⟩ := List.takeWhile_prefix (l := r') isWordPart
    obtain ⟨-, hraw, -⟩ := regex_closed hp
    rw [hraw]
    exact ⟨r, by simp [hr]⟩
  · obtain ⟨-, hraw, -⟩ := regex_unclosed hr hp
    rw [hraw]
    exact ⟨r, rfl⟩

theorem regex_resume [UnicodePrimitives] {a u v : Text} (ha : (regex (a ++ u)).raw = '/' :: a)
    (h : Echoes v u)
    (hv : endsLine u → endsLine v) :
    (regex (a ++ v)).content = (regex (a ++ u)).content := by
  obtain ⟨pattern, r, ht, hp, ⟨r, rfl⟩ | hr⟩ := regex_cases (a ++ u)
  · rw [ht] at hp ha ⊢
    obtain ⟨hvalue, hraw, hm, hu⟩ := regex_closed hp
    obtain ⟨letters, hl⟩ : ∃ letters, r.takeWhile isWordPart = letters := ⟨_, rfl⟩
    rw [hraw, hl, List.cons_inj_right] at ha
    subst ha
    obtain rfl : letters ++ u = r := by simpa using ht
    have hl' := takeWhile_append_of_echoes (fun _ => isOpen_of_isWordPart) hl h
    have hs := RegexTerm.scan_resume hp
      (show foundAt ('/' :: (letters ++ u)) = foundAt ('/' :: (letters ++ v)) from rfl)
    obtain ⟨hvalue', hraw', hm', hu'⟩ := regex_closed (hs ▸ hp)
    rw [List.append_assoc, List.cons_append]
    apply content_eq
    · rw [hraw, hraw', hl, hl']
    · rw [hvalue, hvalue', hl, hl']
    · rw [hm, hm']
    · rw [hu, hu']
  · rw [ht] at hp ha ⊢
    obtain ⟨hvalue, hraw, hm, hu⟩ := regex_unclosed hr hp
    rw [hraw, List.cons_inj_right] at ha
    subst ha
    obtain rfl : u = r := by simpa using ht
    have hend := hv hr
    have hs := RegexTerm.scan_resume hp
      (((foundAt_eq_nil_iff u).mpr hr).trans ((foundAt_eq_nil_iff v).mpr hend).symm)
    obtain ⟨hvalue', hraw', hm', hu'⟩ := regex_unclosed hend (hs ▸ hp)
    apply content_eq
    · rw [hraw, hraw']
    · rw [hvalue, hvalue']
    · rw [hm, hm']
    · rw [hu, hu']

end Lexeme

end EcmaLex
