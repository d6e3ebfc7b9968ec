import EcmaLex.Number.Value
import EcmaLex.Proofs.Number.Numeral

/-!
# Texts of numerals

A literal is rewritten before it is converted: a radix loses its letter, and a decimal literal gets
a zero where its integer is missing, loses a point with nothing behind it, and has the mark of its
exponent in lower case. What is converted then is the text of a numeral that denotes the same
number.
-/

namespace EcmaLex

open NumberLiteral (IsDigits IsExponent IsMantissa takeWhile_of_head?)

def completeInteger (i : Text) : Text := if i.isEmpty then ['0'] else i

def completeFraction (f : Text) : Text := if f.isEmpty then [] else '.' :: f

def completeExponent (e : Text) : Text := if e.isEmpty then [] else 'e' :: e.drop 1

theorem isDigits_completeInteger {i : Text} (hi : ∀ c ∈ i, c.isDigit) :
    IsDigits (completeInteger i) := by
  unfold completeInteger
  split
  · exact ⟨by simp, by simp⟩
  · rename_i hne
    exact ⟨by simpa using hne, hi⟩

theorem ofDigits_completeInteger (radix : Nat) (i f : Text) :
    ofDigits radix (completeInteger i ++ f) = ofDigits radix (i ++ f) := by
  unfold completeInteger
  split
  · rename_i hi
    obtain rfl : i = [] := by simpa using hi
    exact ofDigits_zeros_append (by simp) f
  · rfl

theorem isExponent_completeExponent {e : Text} {n : Int} (h : IsExponent e n) :
    IsExponent (completeExponent e) n := by
  cases h with
  | absent => exact .absent
  | written _ hs hd => exact .written (.inl rfl) hs hd

/-- The parts of a decimal literal are put together again. -/
theorem completeDecimal_of_split {i p e : Text} (hi : ∀ c ∈ i, c ≠ 'e' ∧ c ≠ 'E' ∧ c ≠ '.')
    (hp : p = [] ∨ ∃ f, p = '.' :: f ∧ ∀ c ∈ f, c ≠ 'e' ∧ c ≠ 'E')
    (he : ∀ c ∈ e.head?, c = 'e' ∨ c = 'E') : completeDecimal (i ++ p ++ e) =
      completeInteger i ++ completeFraction (p.drop 1) ++ completeExponent e := by
  have hmantissa : (i ++ p ++ e).takeWhile (fun c => c ≠ 'e' && c ≠ 'E') = i ++ p := by
    rw [List.takeWhile_append_of_pos, takeWhile_of_head?, List.append_nil]
    · intro c hc
      rcases he c hc with rfl | rfl <;> decide
    · intro c hc
      rcases List.mem_append.mp hc with hc | hc
      · simp [hi c hc]
      · obtain rfl | ⟨f, rfl, hf⟩ := hp
        · simp at hc
        · rcases List.mem_cons.mp hc with rfl | hc
          · decide
          · simp [hf c hc]
  have hinteger : (i ++ p).takeWhile (fun c => c ≠ '.') = i := by
    rw [List.takeWhile_append_of_pos fun c hc => by simp [hi c hc], takeWhile_of_head?,
      List.append_nil]
    obtain rfl | ⟨f, rfl, -⟩ := hp
    · simp
    · simp
  simp only [completeDecimal, hmantissa, hinteger, List.drop_left, completeInteger,
    completeFraction, completeExponent]

/-- What a decimal literal is completed to is the text of a numeral. -/
theorem isDecimal_completeDecimal {m i f e : Text} {n : Int} (hm : IsMantissa m i f)
    (he : IsExponent e n) : IsDecimal (completeDecimal (m ++ e)) ⟨completeInteger i, f, n⟩ := by
  have hletter : ∀ c : Char, c.isDigit → c ≠ 'e' ∧ c ≠ 'E' ∧ c ≠ '.' := by
    intro c hc
    refine ⟨?_, ?_, ?_⟩ <;> (rintro rfl; simp at hc)
  have hmark : ∀ c ∈ e.head?, c = 'e' ∨ c = 'E' := by
    cases he with
    | absent => simp
    | written hc => simpa using hc
  have hexponent := isExponent_completeExponent he
  have hpointed : ∀ {i f : Text}, (∀ c ∈ i, c.isDigit) → (∀ c ∈ f, c.isDigit) →
      IsDecimal (completeDecimal (i ++ '.' :: f ++ e)) ⟨completeInteger i, f, n⟩ := by
    intro i f hi hf
    rw [completeDecimal_of_split (fun c hc => hletter c (hi c hc))
      (.inr ⟨f, rfl, fun c hc => ⟨(hletter c (hf c hc)).1, (hletter c (hf c hc)).2.1⟩⟩) hmark]
    cases f with
    | nil =>
      rw [List.drop_succ_cons, List.drop_zero, completeFraction, List.isEmpty_nil, if_pos rfl,
        List.append_nil]
      exact .whole (isDigits_completeInteger hi) hexponent
    | cons d f => exact .pointed (isDigits_completeInteger hi) ⟨by simp, hf⟩ hexponent
  cases hm with
  | whole hi =>
    have hsplit := completeDecimal_of_split (p := [])
      (fun c hc => hletter c (hi.digits c hc)) (.inl rfl) hmark
    rw [List.append_nil] at hsplit
    rw [hsplit, completeFraction, List.drop_nil, List.isEmpty_nil, if_pos rfl, List.append_nil]
    exact .whole (isDigits_completeInteger hi.digits) hexponent
  | pointed hi hf => exact hpointed hi.digits hf
  | fractional hf => exact hpointed (i := []) (by simp) hf.digits

end EcmaLex
