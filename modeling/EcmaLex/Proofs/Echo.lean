import EcmaLex.Text.Basic
import EcmaLex.Text.CharClass
import Mathlib.Data.List.TakeWhile

/-!
# Texts that echo one another

A scanner looks at some characters behind the ones it takes. What it finds there is the same in two
texts as long as one echoes the other: it goes on as the other does, up to its first space, line
feed or backslash. No scanner takes up what follows one of these in order to decide about what
stands before it, strings and the escapes of names aside.
-/

namespace EcmaLex

namespace Text

def isOpen (c : Char) : Bool := c ≠ ' ' && c ≠ '\n' && c ≠ '\\'

/-- The text `v` goes on as `u` does, up to its first space, line feed or backslash. -/
def Echoes (v u : Text) : Prop := v.takeWhile isOpen <+: u

theorem isOpen_iff (c : Char) : isOpen c ↔ c ≠ ' ' ∧ c ≠ '\n' ∧ c ≠ '\\' := by
  simp [isOpen, and_assoc]

theorem isOpen_of_pos {p : Char → Bool} (hspace : p ' ' = false) (hline : p '\n' = false)
    (hslash : p '\\' = false) {c : Char} (h : p c) : isOpen c := by
  rw [isOpen_iff]
  refine ⟨?_, ?_, ?_⟩
  · rintro rfl
    simp [hspace] at h
  · rintro rfl
    simp [hline] at h
  · rintro rfl
    simp [hslash] at h

theorem isOpen_of_isDigit {c : Char} (h : c.isDigit) : isOpen c :=
  isOpen_of_pos (by decide) (by decide) (by decide) h

@[simp] theorem echoes_nil (u : Text) : Echoes [] u := List.nil_prefix

theorem echoes_cons {c : Char} {u v : Text} (h : Echoes v u) : Echoes (c :: v) (c :: u) := by
  unfold Echoes
  rw [List.takeWhile_cons]
  split
  · exact (List.prefix_cons_inj c).mpr h
  · exact List.nil_prefix

theorem echoes_append (a : Text) {u v : Text} (h : Echoes v u) : Echoes (a ++ v) (a ++ u) := by
  induction a with
  | nil => exact h
  | cons c a ih => exact echoes_cons ih

theorem Echoes.prefix_of_open {a u v : Text} (h : Echoes v u) (hp : a <+: v)
    (ha : ∀ c ∈ a, isOpen c) : a <+: u := by
  obtain ⟨w, rfl⟩ := hp
  have hw : (a ++ w).takeWhile isOpen = a ++ w.takeWhile isOpen :=
    List.takeWhile_append_of_pos ha
  have hu : a ++ w.takeWhile isOpen <+: u := hw ▸ h
  exact (List.prefix_append a _).trans hu

theorem Echoes.head? {c : Char} {u v : Text} (h : Echoes v u) (hv : v.head? = some c)
    (hc : isOpen c) : u.head? = some c := by
  obtain ⟨w, rfl⟩ : [c] <+: v := by
    cases v with
    | nil => simp at hv
    | cons d w => exact ⟨w, by simpa using hv.symm⟩
  obtain ⟨w', rfl⟩ := h.prefix_of_open (List.prefix_append [c] w) (by simpa using hc)
  rfl

theorem forall_mem_of_takeWhile {p : Char → Bool} {a u : Text} (ha : (a ++ u).takeWhile p = a) :
    ∀ c ∈ a, p c := by
  intro c hc
  rw [← ha] at hc
  exact List.mem_takeWhile_imp hc

theorem takeWhile_append_of_head? {p : Char → Bool} {a u v : Text}
    (ha : (a ++ u).takeWhile p = a) (hv : ∀ c, v.head? = some c → p c = false) :
    (a ++ v).takeWhile p = a := by
  rw [List.takeWhile_append_of_pos (forall_mem_of_takeWhile ha)]
  cases v with
  | nil => simp
  | cons c v => simp [hv c rfl]

theorem head?_not_of_takeWhile {p : Char → Bool} {a u : Text} (ha : (a ++ u).takeWhile p = a)
    {c : Char} (hc : u.head? = some c) : p c = false := by
  obtain ⟨u, rfl⟩ := List.head?_eq_some_iff.mp hc
  rw [Bool.eq_false_iff]
  intro hp
  rw [List.takeWhile_append_of_pos (forall_mem_of_takeWhile ha),
    List.takeWhile_cons_of_pos hp] at ha
  simp at ha

theorem takeWhile_append_of_echoes {p : Char → Bool} (hp : ∀ c, p c → isOpen c) {a u v : Text}
    (ha : (a ++ u).takeWhile p = a) (h : Echoes v u) : (a ++ v).takeWhile p = a := by
  apply takeWhile_append_of_head? ha
  intro c hv
  rw [Bool.eq_false_iff]
  intro hc
  have hu := head?_not_of_takeWhile ha (h.head? hv (hp c hc))
  simp [hc] at hu

def endsLine (t : Text) : Bool := t.head?.all isLineTerminator

/-- What may stand behind `a` in place of `u` without changing how `a` ends. A backslash at the
end of a text must not get company, and a carriage return no line feed. -/
structure Continues (a u v : Text) : Prop where
  echoes : Echoes v u
  lone : u = [] → v ≠ [] → a.getLast? ≠ some '\\'
  paired : v.head? = some '\n' → u.head? ≠ some '\n' → a.getLast? ≠ some '\r'

theorem Continues.append {b a u v : Text} (h : Continues (b ++ a) u v) :
    Continues b (a ++ u) (a ++ v) where
  echoes := echoes_append a h.echoes
  lone := by
    intro hu hv
    obtain ⟨rfl, rfl⟩ := List.append_eq_nil_iff.mp hu
    simpa using h.lone rfl hv
  paired := by
    intro hv hu
    cases a with
    | nil => simpa using h.paired hv hu
    | cons c a => exact absurd hv hu

theorem Continues.of_append {b a u v : Text} (h : Continues (b ++ a) u v) : Continues a u v where
  echoes := h.echoes
  lone := by
    intro hu hv ha
    exact h.lone hu hv (by simp [List.getLast?_append, ha])
  paired := by
    intro hv hu ha
    exact h.paired hv hu (by simp [List.getLast?_append, ha])

theorem continues_of_head?_eq {a u v : Text} (h : Echoes v u) (hh : v.head? = u.head?) :
    Continues a u v where
  echoes := h
  lone := by
    intro hu hv
    subst hu
    exact absurd (List.head?_eq_none_iff.mp hh) hv
  paired := by
    intro hv hu
    exact absurd (hh ▸ hv) hu

end Text

end EcmaLex
