import EcmaLex.Lexeme.Number
import EcmaLex.Lexeme.Punctuator
import EcmaLex.Proofs.Echo

/-!
# The extent of punctuators

A punctuator is a prefix of its text and the same before an echo of what follows it. The question
mark before a number that starts with a point also needs the number to be there.
-/

namespace EcmaLex

open Text (Echoes isOpen isOpen_of_isDigit)

namespace Punctuator

theorem open_of_mem_table {p : Text} (hp : p ∈ table) : ∀ c ∈ p, isOpen c := by
  have hall : table.all fun p => p.all isOpen := by decide +kernel
  intro c hc
  exact List.all_eq_true.mp (List.all_eq_true.mp hall p hp) c hc

theorem isConditional_iff {t : Text} :
    isConditional t ↔ ∃ c r, t = '?' :: '.' :: c :: r ∧ c.isDigit := by
  constructor
  · intro h
    unfold isConditional at h
    split at h
    · exact ⟨_, _, rfl, h⟩
    · simp at h
  · rintro ⟨c, r, rfl, hc⟩
    exact hc

theorem isConditional_of_echoes {a u v : Text} (h : Echoes v u) (hv : isConditional (a ++ v)) :
    isConditional (a ++ u) := by
  obtain ⟨c, r, hr, hc⟩ := isConditional_iff.mp hv
  have hopen : ∀ d ∈ ['?', '.', c], isOpen d := by
    simp [isOpen_of_isDigit hc]
    decide
  obtain ⟨r', hr'⟩ := (Text.echoes_append a h).prefix_of_open ⟨r, hr.symm⟩ hopen
  rw [isConditional_iff]
  exact ⟨c, r', hr'.symm, hc⟩

theorem isPrefixOf_of_echoes {a u v p : Text} (h : Echoes v u) (hp : p ∈ table)
    (hv : p.isPrefixOf (a ++ v)) : p.isPrefixOf (a ++ u) := by
  rw [List.isPrefixOf_iff_prefix] at hv ⊢
  exact (Text.echoes_append a h).prefix_of_open hv (open_of_mem_table hp)

theorem find?_resume {p u v : Text} (hp : table.find? (·.isPrefixOf (p ++ u)) = some p)
    (h : Echoes v u) : table.find? (·.isPrefixOf (p ++ v)) = some p := by
  obtain ⟨-, before, after, htable, hbefore⟩ := List.find?_eq_some_iff_append.mp hp
  refine List.find?_eq_some_iff_append.mpr ⟨?_, before, after, htable, ?_⟩
  · rw [List.isPrefixOf_iff_prefix]
    exact List.prefix_append p v
  · intro q hq
    have hmem : q ∈ table := by
      rw [htable]
      exact List.mem_append_left _ hq
    have hu := hbefore q hq
    rw [Bool.not_eq_true', Bool.eq_false_iff] at hu ⊢
    exact fun hv => hu (isPrefixOf_of_echoes h hmem hv)

theorem find?_question {t : Text} (hp : t.head? ≠ some '.') (hq : t.head? ≠ some '?') :
    table.find? (·.isPrefixOf ('?' :: t)) = some ['?'] := by
  cases t with
  | nil => decide +kernel
  | cons c t =>
    have hp' : '.' ≠ c := by
      rintro rfl
      simp at hp
    have hq' : '?' ≠ c := by
      rintro rfl
      simp at hq
    simp [table, List.isPrefixOf, hp', hq']

theorem scan?_prefix {t p : Text} (h : scan? t = some p) : p <+: t := by
  unfold scan? at h
  split at h
  · rename_i hc
    obtain ⟨c, r, rfl, -⟩ := isConditional_iff.mp hc
    obtain rfl := Option.some.inj h
    exact ⟨_, rfl⟩
  · have hp := List.find?_some h
    exact List.isPrefixOf_iff_prefix.mp hp

theorem scan?_resume {p u v : Text} (hp : scan? (p ++ u) = some p) (h : Echoes v u)
    (hn : NumberLiteral.begins u → v.head? = u.head? → NumberLiteral.begins v) :
    scan? (p ++ v) = some p := by
  unfold scan? at hp
  split at hp
  · rename_i hc
    obtain rfl := Option.some.inj hp
    obtain ⟨c, r, hr, hd⟩ := isConditional_iff.mp hc
    obtain rfl : u = '.' :: c :: r := by simpa using hr
    unfold scan?
    split
    · rfl
    · rename_i hc'
      apply find?_question
      · intro hv
        obtain ⟨v, rfl⟩ := List.head?_eq_some_iff.mp hv
        have hb := hn hd rfl
        cases v with
        | nil => simp [NumberLiteral.begins] at hb
        | cons d v => exact hc' hb
      · intro hv
        have hu := h.head? hv (by decide)
        simp at hu
  · rename_i hc
    unfold scan?
    rw [if_neg fun hv => hc (isConditional_of_echoes h hv)]
    exact find?_resume hp h

theorem scan?_eq_none {c : Char} {u v : Text} (hu : scan? (c :: u) = none) (h : Echoes v u) :
    scan? (c :: v) = none := by
  unfold scan? at hu ⊢
  split at hu
  · simp at hu
  · rename_i hc
    have hc' : ¬ isConditional (c :: v) := fun hv => hc (isConditional_of_echoes (a := [c]) h hv)
    rw [if_neg hc']
    rw [List.find?_eq_none] at hu ⊢
    intro p hp hv
    exact hu p hp (isPrefixOf_of_echoes (a := [c]) h hp hv)

end Punctuator

namespace Lexeme

theorem raw_punctuator (p : Text) : (punctuator p).raw = p := by simp [raw, punctuator]

theorem raw_unexpected (c : Char) : (unexpected c).raw = [c] := by simp [raw, unexpected]

end Lexeme

end EcmaLex
