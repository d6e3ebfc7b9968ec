import EcmaLex.Proofs.Respelling

/-!
# Slices

A text can be cut at an offset if and only if the offset is the size of what stands before it. So a
slice that exists is a part of the text, and the parts of a text are its slices. What is known to
stand at an offset can be sliced there.
-/

namespace EcmaLex

namespace Text

variable {t a b s : Text} {m n : Nat}

theorem splitAtByte_eq_some_iff : t.splitAtByte n = some (a, b) ↔ t = a ++ b ∧ a.utf8Size = n := by
  constructor
  · intro h
    fun_induction splitAtByte t n generalizing a b with
    | case1 t =>
      obtain ⟨rfl, rfl⟩ := Prod.mk.inj (Option.some.inj h)
      exact ⟨rfl, rfl⟩
    | case2 => simp at h
    | case3 => simp at h
    | case4 c t n hn hc ih =>
      obtain ⟨⟨a', b'⟩, hsplit, hab⟩ := Option.map_eq_some_iff.mp h
      obtain ⟨rfl, rfl⟩ := Prod.mk.inj hab
      obtain ⟨rfl, hsize⟩ := ih hsplit
      exact ⟨rfl, by rw [utf8Size_cons, hsize]; omega⟩
  · rintro ⟨rfl, rfl⟩
    exact splitAtByte_append a b

theorem slice?_eq_some_iff : t.slice? m n = some s ↔
    ∃ p u, t = p ++ (s ++ u) ∧ p.utf8Size = m ∧ n = m + s.utf8Size := by
  constructor
  · intro h
    have hle := le_of_slice?_eq_some h
    rw [slice?, if_neg (by omega)] at h
    obtain ⟨⟨p, after⟩, hp, h⟩ := Option.bind_eq_some_iff.mp h
    obtain ⟨⟨s', u⟩, hs, h⟩ := Option.bind_eq_some_iff.mp h
    obtain rfl := Option.some.inj h
    obtain ⟨rfl, hm⟩ := splitAtByte_eq_some_iff.mp hp
    obtain ⟨rfl, hn⟩ := splitAtByte_eq_some_iff.mp hs
    exact ⟨p, u, rfl, hm, by omega⟩
  · rintro ⟨p, u, rfl, rfl, rfl⟩
    exact slice?_append p s u

/-- A text is not cut inside of a character. -/
example : slice? "é".toList 1 2 = none := by decide

def from? (t : Text) (n : Nat) : Option Text := (t.splitAtByte n).map Prod.snd

def upTo? (t : Text) (n : Nat) : Option Text := (t.splitAtByte n).map Prod.fst

theorem from?_append (p u : Text) : (p ++ u).from? p.utf8Size = some u := by
  rw [from?, splitAtByte_append, Option.map_some]

theorem upTo?_append (p u : Text) : (p ++ u).upTo? p.utf8Size = some p := by
  rw [upTo?, splitAtByte_append, Option.map_some]

def findByte? (p : Char → Bool) : Text → Option Nat
  | [] => none
  | c :: t => if p c then some 0 else (findByte? p t).map (c.utf8Size + ·)

/-- What stands before the first character that satisfies a condition does not satisfy it. -/
theorem findByte?_cases (p : Char → Bool) (t : Text) :
    (t.findByte? p = none ∧ ∀ c ∈ t, p c = false) ∨
      ∃ (a : Text) (c : Char) (u : Text), t = a ++ c :: u ∧ (∀ d ∈ a, p d = false) ∧ p c ∧
        t.findByte? p = some a.utf8Size := by
  induction t with
  | nil => exact .inl ⟨rfl, by simp⟩
  | cons c t ih =>
    by_cases hc : p c
    · exact .inr ⟨[], c, t, rfl, by simp, hc, if_pos hc⟩
    · have hne : p c = false := by simpa using hc
      rcases ih with ⟨hnone, hall⟩ | ⟨a, d, u, rfl, ha, hd, hsome⟩
      · refine .inl ⟨?_, List.forall_mem_cons.mpr ⟨hne, hall⟩⟩
        rw [findByte?, if_neg hc, hnone, Option.map_none]
      · refine .inr ⟨c :: a, d, u, rfl, List.forall_mem_cons.mpr ⟨hne, ha⟩, hd, ?_⟩
        rw [findByte?, if_neg hc, hsome, Option.map_some, utf8Size_cons]

theorem utf8Size_eq_one {c : Char} (h : c.toNat < 128) : c.utf8Size = 1 :=
  Char.utf8Size_eq_one_iff.mpr (UInt32.le_iff_toNat_le.mpr (Nat.le_of_lt_succ h))

theorem utf8Size_eq_length {w : Text} (h : ∀ c ∈ w, c.utf8Size = 1) : w.utf8Size = w.length := by
  induction w with
  | nil => rfl
  | cons c w ih =>
    obtain ⟨hc, hw⟩ := List.forall_mem_cons.mp h
    rw [utf8Size_cons, hc, ih hw, List.length_cons, Nat.add_comm]

/-- Behind the first `n` bytes of a text stands `u`. -/
def StandsAt (t : Text) (n : Nat) (u : Text) : Prop := ∃ p : Text, t = p ++ u ∧ p.utf8Size = n

namespace StandsAt

variable {u w : Text}

theorem start (t : Text) : StandsAt t 0 t := ⟨[], rfl, rfl⟩

theorem behind (h : StandsAt t n (w ++ u)) : StandsAt t (n + w.utf8Size) u := by
  obtain ⟨p, rfl, rfl⟩ := h
  exact ⟨p ++ w, (List.append_assoc p w u).symm, utf8Size_append p w⟩

theorem behind_cons {c : Char} (h : StandsAt t n (c :: u)) : StandsAt t (n + c.utf8Size) u :=
  behind (w := [c]) h

theorem from?_eq (h : StandsAt t n u) : t.from? n = some u := by
  obtain ⟨p, rfl, rfl⟩ := h
  exact from?_append p u

theorem slice?_eq (h : StandsAt t n (w ++ u)) : t.slice? n (n + w.utf8Size) = some w := by
  obtain ⟨p, rfl, rfl⟩ := h
  exact slice?_append p w u

theorem slice?_of_prefix (h : StandsAt t n u) (hw : w <+: u) :
    t.slice? n (n + w.utf8Size) = some w := by
  obtain ⟨r, rfl⟩ := hw
  exact h.slice?_eq

end StandsAt

end Text

end EcmaLex
