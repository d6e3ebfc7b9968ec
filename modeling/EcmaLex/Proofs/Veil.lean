import EcmaLex.Proofs.Cursor
import EcmaLex.Proofs.Extent.Scan
import EcmaLex.Proofs.Gap
import EcmaLex.Proofs.Preamble

/-!
# Veils

A text is veiled by putting spaces for some of its characters, but never for line terminators. A
veiled text has the same lines and columns, and echoes the text that it veils.
-/

namespace EcmaLex

namespace Text

def veil (c : Char) : Char := if isLineTerminator c then c else ' '

def blank (t : Text) : Text := t.map veil

/-- Some characters of a text are veiled, and all others stand as they are. -/
inductive Veils : Text → Text → Prop where
  | nil : Veils [] []
  | shown (c : Char) {v u : Text} (h : Veils v u) : Veils (c :: v) (c :: u)
  | veiled (c : Char) {v u : Text} (h : Veils v u) : Veils (veil c :: v) (c :: u)

theorem veil_veil (c : Char) : veil (veil c) = veil c := by
  unfold veil
  split
  · rfl
  · rfl

theorem isLineTerminator_veil (c : Char) : isLineTerminator (veil c) = isLineTerminator c := by
  unfold veil
  cases h : isLineTerminator c with
  | true => rw [if_pos rfl, h]
  | false =>
    rw [if_neg (by decide)]
    decide

theorem ofChar_veil_ne_printable (c : Char) : CharClass.ofChar (veil c) ≠ .printable := by
  unfold veil
  split
  · rename_i h
    simp [CharClass.ofChar, h]
  · decide

theorem skippable_blank (t : Text) : Skippable (blank t) := by
  induction t with
  | nil => exact .nil
  | cons c t ih => exact .char (ofChar_veil_ne_printable c) ih

@[simp] theorem length_blank (t : Text) : (blank t).length = t.length := List.length_map veil

theorem blank_append (s t : Text) : blank (s ++ t) = blank s ++ blank t := List.map_append

theorem veil_eq_of_isOpen {c : Char} (h : isOpen (veil c)) : veil c = c := by
  unfold veil at h ⊢
  split
  · rfl
  · rename_i hc
    rw [if_neg hc] at h
    exact absurd h (by decide)

theorem veil_eq_iff {c d : Char} (hd : isLineTerminator d) : veil c = d ↔ c = d := by
  unfold veil
  split
  · rfl
  · rename_i hc
    constructor
    · rintro rfl
      exact absurd hd (by decide)
    · rintro rfl
      exact absurd hd hc

theorem veils_refl (t : Text) : Veils t t := by
  induction t with
  | nil => exact .nil
  | cons c t ih => exact .shown c ih

theorem veils_blank (t : Text) : Veils (blank t) t := by
  induction t with
  | nil => exact .nil
  | cons c t ih => exact .veiled c ih

namespace Veils

variable {u v : Text}

theorem append {u' v' : Text} (h : Veils v u) (h' : Veils v' u') : Veils (v ++ v') (u ++ u') := by
  induction h with
  | nil => exact h'
  | shown c _ ih => exact .shown c ih
  | veiled c _ ih => exact .veiled c ih

theorem blank_eq (h : Veils v u) : blank v = blank u := by
  induction h with
  | nil => rfl
  | shown c _ ih => exact congrArg (veil c :: ·) ih
  | veiled c _ ih =>
    rw [blank, List.map_cons, veil_veil]
    exact congrArg (veil c :: ·) ih

theorem echoes (h : Veils v u) : Echoes v u := by
  induction h with
  | nil => exact echoes_nil []
  | shown c _ ih => exact echoes_cons ih
  | @veiled c v u _ ih =>
    cases ho : isOpen (veil c) with
    | true =>
      rw [veil_eq_of_isOpen ho]
      exact echoes_cons ih
    | false =>
      rw [Echoes, List.takeWhile_cons_of_neg (by simp [ho])]
      exact List.nil_prefix

/-- What shows no space is not veiled. -/
theorem prefix_of_prefix {p : Text} (h : Veils v u) (hp : ' ' ∉ p) (hv : p <+: v) : p <+: u := by
  induction h generalizing p with
  | nil => exact hv
  | shown c _ ih =>
    cases p with
    | nil => exact List.nil_prefix
    | cons d p =>
      obtain ⟨rfl, hr⟩ := List.cons_prefix_cons.mp hv
      exact List.cons_prefix_cons.mpr ⟨rfl, ih (fun h => hp (List.mem_cons_of_mem _ h)) hr⟩
  | veiled c _ ih =>
    cases p with
    | nil => exact List.nil_prefix
    | cons d p =>
      obtain ⟨rfl, hr⟩ := List.cons_prefix_cons.mp hv
      have hc : veil c = c := by
        unfold veil at hp ⊢
        split
        · rfl
        · simp_all
      exact List.cons_prefix_cons.mpr ⟨hc, ih (fun h => hp (List.mem_cons_of_mem _ h)) hr⟩

theorem eq_nil_iff (h : Veils v u) : v = [] ↔ u = [] := by
  cases h with
  | nil => rfl
  | shown => simp
  | veiled => simp

theorem endsLine_iff (h : Veils v u) : endsLine v ↔ endsLine u := by
  cases h with
  | nil => rfl
  | shown => rfl
  | veiled c => simp [endsLine, isLineTerminator_veil]

theorem head?_line (h : Veils v u) (hv : v.head? = some '\n') : u.head? = some '\n' := by
  cases h with
  | nil => exact hv
  | shown c => exact hv
  | veiled c => exact congrArg some ((veil_eq_iff (by decide)).mp (Option.some.inj hv))

theorem continues (h : Veils v u) (a : Text) : Continues a u v where
  echoes := h.echoes
  lone := fun hu hv => absurd (h.eq_nil_iff.mpr hu) hv
  paired := fun hv hu => absurd (h.head?_line hv) hu

theorem keepsPreamble (h : Veils v u) : KeepsPreamble u v where
  mark := by
    intro hv
    obtain ⟨v, rfl⟩ := List.head?_eq_some_iff.mp hv
    obtain ⟨r, rfl⟩ := h.prefix_of_prefix (p := [byteOrderMark]) (by decide) ⟨v, rfl⟩
    rfl
  bang := h.prefix_of_prefix (by decide)
  ends := h.endsLine_iff.mpr

end Veils

end Text

theorem Position.endsLine_congr {c d : Char} {t u : Text} (hc : Text.veil c = Text.veil d)
    (ht : Text.blank t = Text.blank u) : endsLine c t.head? = endsLine d u.head? := by
  have hline : ∀ e, isLineTerminator e → (c = e ↔ d = e) := by
    intro e he
    rw [← Text.veil_eq_iff he, hc, Text.veil_eq_iff he]
  have hhead : ∀ e, isLineTerminator e → (t.head? = some e ↔ u.head? = some e) := by
    intro e he
    have hmap := congrArg List.head? ht
    rw [Text.blank, Text.blank, List.head?_map, List.head?_map] at hmap
    have hveil : ∀ o : Option Char, o.map Text.veil = some e ↔ o = some e := by
      intro o
      cases o with
      | none => simp
      | some f => simp [Text.veil_eq_iff he]
    rw [← hveil, hmap, hveil]
  simp only [endsLine, hline '\n' (by decide), hline '\r' (by decide), ne_eq,
    hhead '\n' (by decide)]

structure Cursor.Alike (k k' : Cursor) : Prop where
  position : k.position = k'.position
  lines : Text.blank k.rest = Text.blank k'.rest

namespace Cursor.Alike

variable {k k' : Cursor}

theorem advance (h : k.Alike k') : k.advance.Alike k'.advance := by
  have hlines := h.lines
  cases hk : k.rest with
  | nil =>
    have hk' : k'.rest = [] := by
      rw [hk] at hlines
      exact List.map_eq_nil_iff.mp hlines.symm
    rw [advance_nil hk, advance_nil hk']
    exact h
  | cons c t =>
    cases hk' : k'.rest with
    | nil => simp [hk, hk', Text.blank] at hlines
    | cons d u =>
      obtain ⟨hr, -, hp⟩ := advance_cons hk
      obtain ⟨hr', -, hp'⟩ := advance_cons hk'
      rw [hk, hk'] at hlines
      obtain ⟨hc, ht⟩ := List.cons.inj hlines
      refine ⟨?_, ?_⟩
      · rw [hp, hp', Position.step, Position.step, Position.endsLine_congr hc ht, h.position]
      · rw [hr, hr']
        exact ht

theorem advanceBy (h : k.Alike k') (n : Nat) : (k.advanceBy n).Alike (k'.advanceBy n) := by
  induction n generalizing k k' with
  | zero => exact h
  | succ n ih => exact ih h.advance

end Cursor.Alike

theorem Source.alike_ofText {t r v : Text} (ht : t = t.preamble ++ r) (h : Text.Veils v r) :
    (ofText (t.preamble ++ v)).cursor.Alike (ofText t).cursor := by
  obtain ⟨m, s, hp, hm, hmark, hs, hbang⟩ := h.keepsPreamble.exists_parts ht
  have hdrop : t.drop m.length = s ++ r := by
    conv => lhs; rw [ht, hp, List.append_assoc, List.drop_left]
  rw [hp, List.append_assoc, cursor_ofText, cursor_ofText, hmark, hm, hdrop, List.drop_left, hbang]
  apply Cursor.Alike.advanceBy
  refine ⟨rfl, ?_⟩
  rw [Text.blank_append, Text.blank_append, h.blank_eq]

end EcmaLex
