/-!
# Sets of code points

A set of code points is a list of closed ranges in increasing order.
-/

namespace EcmaLex

abbrev CodeRanges := List (Nat × Nat)

/-- Membership. The search stops at the first range that lies above the code point. -/
def CodeRanges.contains : CodeRanges → Nat → Bool
  | [], _ => false
  | (low, high) :: more, n => if n < low then false else n ≤ high || contains more n

namespace CodeRanges

theorem exists_of_contains {rs : CodeRanges} {n : Nat} (h : rs.contains n) :
    ∃ r ∈ rs, r.1 ≤ n ∧ n ≤ r.2 := by
  induction rs with
  | nil => simp [contains] at h
  | cons r rs ih =>
    simp only [contains, Bool.if_false_left, Bool.and_eq_true, Bool.not_eq_true',
      decide_eq_false_iff_not, Nat.not_lt, Bool.or_eq_true, decide_eq_true_eq] at h
    obtain ⟨hlow, hhigh | hmore⟩ := h
    · exact ⟨r, List.mem_cons_self, hlow, hhigh⟩
    · obtain ⟨s, hs, hn⟩ := ih hmore
      exact ⟨s, List.mem_cons_of_mem _ hs, hn⟩

/-- No range of one set meets a range of the other. -/
def Separate (rs ss : CodeRanges) : Prop := ∀ r ∈ rs, ∀ s ∈ ss, r.2 < s.1 ∨ s.2 < r.1

instance (rs ss : CodeRanges) : Decidable (Separate rs ss) :=
  inferInstanceAs (Decidable (∀ r ∈ rs, ∀ s ∈ ss, r.2 < s.1 ∨ s.2 < r.1))

theorem Separate.contains_eq_false {rs ss : CodeRanges} (h : Separate rs ss) {n : Nat}
    (hn : rs.contains n) : ss.contains n = false := by
  rw [Bool.eq_false_iff]
  intro hs
  obtain ⟨r, hr, hlow, hhigh⟩ := exists_of_contains hn
  obtain ⟨s, hs, hlow', hhigh'⟩ := exists_of_contains hs
  have := h r hr s hs
  omega

end CodeRanges

end EcmaLex
