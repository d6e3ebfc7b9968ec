import EcmaLex.Proofs.LineEnds.Run
import EcmaLex.Proofs.Tiling

/-!
# Line tables

The table of a text holds the offset at which each line starts. It is found by one scan over the
text, and the position of a cursor by another one, as the cursor moves. Both agree wherever the
cursor stands, be it between the two characters of one line end.
-/

namespace EcmaLex

open Text (Inline Apart lineEnds)

namespace Text

def startsBehind (offset : Nat) : Text → List Nat
  | [] => []
  | c :: t =>
    if Position.endsLine c t.head? then
      (offset + c.utf8Size) :: startsBehind (offset + c.utf8Size) t
    else startsBehind (offset + c.utf8Size) t

theorem startsBehind_of_endsLine {c : Char} {t : Text} (h : Position.endsLine c t.head?)
    (offset : Nat) : startsBehind offset (c :: t) =
      (offset + c.utf8Size) :: startsBehind (offset + c.utf8Size) t := by
  rw [startsBehind, if_pos h]

theorem startsBehind_of_not_endsLine {c : Char} {t : Text}
    (h : Position.endsLine c t.head? = false) (offset : Nat) :
    startsBehind offset (c :: t) = startsBehind (offset + c.utf8Size) t := by
  rw [startsBehind, if_neg (by simp [h])]

theorem endsLine_return {t : Text} (h : ∀ r, t = '\n' :: r → False) :
    Position.endsLine '\r' t.head? := by
  cases t with
  | nil => rfl
  | cons c t =>
    have hc : c ≠ '\n' := fun hc => h t (hc ▸ rfl)
    simp [Position.endsLine, hc]

theorem not_endsLine {c : Char} (hr : c ≠ '\r') (hn : c ≠ '\n') (following : Option Char) :
    Position.endsLine c following = false := by
  simp [Position.endsLine, hr, hn]

/-- A line starts behind each character that ends one. -/
theorem startsFrom_lines (t : Text) (offset : Nat) :
    startsFrom offset t.lines = offset :: startsBehind offset t := by
  fun_induction lines t generalizing offset with
  | case1 => rfl
  | case2 t ih =>
    have hpair : Position.endsLine '\r' ('\n' :: t).head? = false := rfl
    rw [startsFrom, ih, startsBehind_of_not_endsLine hpair, startsBehind_of_endsLine (by rfl)]
    simp [Line.text, Nat.add_assoc]
  | case3 t ht ih =>
    rw [startsFrom, ih, startsBehind_of_endsLine (endsLine_return ht)]
    simp [Line.text]
  | case4 t ih =>
    rw [startsFrom, ih, startsBehind_of_endsLine (by rfl)]
    simp [Line.text]
  | case5 c t _ _ _ hnil => exact absurd hnil (lines_ne_nil t)
  | case6 c t hpair hreturn hfeed l more hlines ih =>
    have hc := not_endsLine hreturn hfeed t.head?
    have hmore := ih (offset + c.utf8Size)
    rw [hlines, startsFrom] at hmore
    rw [startsFrom, startsBehind_of_not_endsLine hc, ← (List.cons.inj hmore).2]
    simp [Line.text, Line.cons, Nat.add_assoc]

theorem lineStarts_eq (t : Text) : t.lineStarts = 0 :: startsBehind 0 t := startsFrom_lines t 0

theorem lt_of_mem_startsBehind {t : Text} {offset n : Nat} (h : n ∈ startsBehind offset t) :
    offset < n := by
  induction t generalizing offset with
  | nil => simp [startsBehind] at h
  | cons c t ih =>
    have hc := c.utf8Size_pos
    rw [startsBehind] at h
    split at h
    · rcases List.mem_cons.mp h with rfl | h
      · omega
      · have := ih h
        omega
    · have := ih h
      omega

theorem length_startsFrom (offset : Nat) (ls : List Line) :
    (startsFrom offset ls).length = ls.length := by
  induction ls generalizing offset with
  | nil => rfl
  | cons l ls ih => rw [startsFrom, List.length_cons, List.length_cons, ih]

/-- The text consists of these lines, each of them with its own line end behind it, and no line end
behind the last one. -/
inductive Lined : Text → List Text → Prop where
  | last {l : Text} (hl : Inline l) : Lined l [l]
  | line {l e t : Text} {ls : List Text} (hl : Inline l) (he : e ∈ lineEnds) (ha : Apart e t)
      (h : Lined t ls) : Lined (l ++ (e ++ t)) (l :: ls)

theorem Lined.cons {c : Char} {t l : Text} {ls : List Text} (h : Lined t (l :: ls))
    (hc : isLineTerminator c = false) : Lined (c :: t) ((c :: l) :: ls) := by
  cases h with
  | last hl => exact .last ((inline_cons _ _).mpr ⟨hc, hl⟩)
  | line hl he ha h => exact .line ((inline_cons _ _).mpr ⟨hc, hl⟩) he ha h

theorem lined_lines (t : Text) : Lined t (t.lines.map Line.content) := by
  fun_induction lines t with
  | case1 => exact .last inline_nil
  | case2 t ih => exact .line inline_nil (e := ['\r', '\n']) (by decide) (by simp [Apart]) ih
  | case3 t ht ih =>
    refine .line inline_nil (e := ['\r']) (by decide) (fun _ h => ?_) ih
    obtain ⟨t', rfl⟩ := List.head?_eq_some_iff.mp h
    exact ht t' rfl
  | case4 t ih => exact .line inline_nil (e := ['\n']) (by decide) (by simp [Apart]) ih
  | case5 c t _ _ _ hnil => exact absurd hnil (lines_ne_nil t)
  | case6 c t _ hreturn hfeed l more hlines ih =>
    have hn : c ≠ '\n' := fun h => hfeed h
    have hr : c ≠ '\r' := fun h => hreturn h
    rw [hlines, List.map_cons] at ih
    exact ih.cons (by simp [isLineTerminator, hn, hr])

end Text

namespace Cursor

/-- A cursor over `t` stands behind `line` on its line. The lines above take up `head`, and start
at `above`. -/
structure Stands (t head line : Text) (above : List Nat) (k : Cursor) : Prop where
  text : t = head ++ (line ++ k.rest)
  offset : k.offset = (head ++ line).utf8Size
  starts : t.lineStarts = above ++ head.utf8Size :: Text.startsBehind k.offset k.rest
  above_le : ∀ n ∈ above, n ≤ head.utf8Size
  number : k.position.line = above.length + 1
  column : k.position.column + (if k.position.line = 1 then t.leadingMark.length else 0) =
    1 + line.length

namespace Stands

variable {t head line : Text} {above : List Nat} {k : Cursor}

/-- A character that does not end the line belongs to it. -/
theorem advance_of_not_endsLine (h : Stands t head line above k) {c : Char} {r : Text}
    (hrest : k.rest = c :: r) (hc : Position.endsLine c r.head? = false) :
    Stands t head (line ++ [c]) above k.advance := by
  obtain ⟨hr, ho, -⟩ := advance_cons hrest
  have hp := position_advance_of_not_endsLine hrest hc
  have htext := h.text
  have hstarts := h.starts
  have hcolumn := h.column
  rw [hrest, Text.startsBehind_of_not_endsLine hc, ← ho, ← hr] at hstarts
  rw [hrest] at htext
  refine ⟨?_, ?_, hstarts, h.above_le, ?_, ?_⟩
  · simp [hrest, htext]
  · simp [ho, h.offset, Nat.add_assoc]
  · rw [hp, h.number]
  · rw [hp, List.length_append, List.length_singleton]
    dsimp only
    omega

/-- Behind a character that ends the line the next one starts. -/
theorem advance_of_endsLine (h : Stands t head line above k) {c : Char} {r : Text}
    (hrest : k.rest = c :: r) (hc : Position.endsLine c r.head?) :
    Stands t (head ++ line ++ [c]) [] (above ++ [head.utf8Size]) k.advance := by
  obtain ⟨hr, ho, -⟩ := advance_cons hrest
  have hp := position_advance_of_endsLine hrest hc
  have htext := h.text
  have hstarts := h.starts
  have hoffset : k.advance.offset = (head ++ line ++ [c]).utf8Size := by
    simp [ho, h.offset, Nat.add_assoc]
  have hbelow : k.position.line + 1 ≠ 1 := by
    have := h.number
    omega
  rw [hrest, Text.startsBehind_of_endsLine hc, ← ho, hoffset, ← hr] at hstarts
  rw [hrest] at htext
  refine ⟨?_, ?_, ?_, ?_, ?_, ?_⟩
  · simp [hrest, htext]
  · simp [hoffset]
  · simp [hstarts, hoffset]
  · intro n hn
    simp only [Text.utf8Size_append]
    rcases List.mem_append.mp hn with hn | hn
    · have := h.above_le n hn
      omega
    · have := List.mem_singleton.mp hn
      omega
  · simp [hp, h.number]
  · rw [hp]
    exact congrArg (1 + ·) (if_neg hbelow)

theorem advance (h : Stands t head line above k) :
    ∃ head' line' above', Stands t head' line' above' k.advance := by
  cases hrest : k.rest with
  | nil => exact ⟨head, line, above, (advance_nil hrest).symm ▸ h⟩
  | cons c r =>
    cases hc : Position.endsLine c r.head? with
    | true => exact ⟨_, _, _, h.advance_of_endsLine hrest hc⟩
    | false => exact ⟨_, _, _, h.advance_of_not_endsLine hrest hc⟩

theorem advanceBy (h : Stands t head line above k) (n : Nat) :
    ∃ head' line' above', Stands t head' line' above' (k.advanceBy n) := by
  induction n generalizing k head line above with
  | zero => exact ⟨head, line, above, h⟩
  | succ n ih =>
    obtain ⟨head', line', above', h'⟩ := h.advance
    exact ih h'

theorem line_eq_countP (h : Stands t head line above k) :
    k.position.line = t.lineStarts.countP (· ≤ k.offset) := by
  have hoffset := h.offset
  rw [Text.utf8Size_append] at hoffset
  have habove : above.countP (· ≤ k.offset) = above.length := by
    rw [List.countP_eq_length]
    intro n hn
    have := h.above_le n hn
    exact decide_eq_true (by omega)
  have hbehind : (Text.startsBehind k.offset k.rest).countP (· ≤ k.offset) = 0 := by
    rw [List.countP_eq_zero]
    intro n hn
    have := Text.lt_of_mem_startsBehind hn
    simp only [decide_eq_true_eq]
    omega
  have hstart : decide (head.utf8Size ≤ k.offset) := decide_eq_true (by omega)
  rw [h.starts, h.number, List.countP_append, List.countP_cons_of_pos (by exact hstart), habove,
    hbehind]

theorem line_eq_length (h : Stands t head line above k) (hrest : k.rest = []) :
    k.position.line = t.lines.length := by
  have hlength := congrArg List.length h.starts
  rw [Text.lineStarts, Text.length_startsFrom, hrest] at hlength
  simp [hlength, h.number, Text.startsBehind]

theorem exists_column (h : Stands t head line above k) :
    ∃ start part, t.lineStarts[k.position.line - 1]? = some start ∧
      t.slice? start k.offset = some part ∧
      k.position.column + (if k.position.line = 1 then t.leadingMark.length else 0) =
        1 + part.length := by
  refine ⟨head.utf8Size, line, ?_, ?_, h.column⟩
  · rw [h.starts, h.number]
    simp
  · have hslice := Text.slice?_append head line k.rest
    rwa [← h.text, ← Text.utf8Size_append, ← h.offset] at hslice

end Stands

theorem position_lt_advance {k : Cursor} {c : Char} {r : Text} (hrest : k.rest = c :: r) :
    k.position < k.advance.position := by
  rw [(advance_cons hrest).2.2]
  exact k.position.lt_step c r.head?

theorem stands_ofText (t : Text) :
    ∃ head line above, Stands t head line above (Source.ofText t).cursor := by
  obtain ⟨r, hr⟩ := t.leadingMark_prefix
  have hrest : t.drop t.leadingMark.length = r := by
    have hdrop := List.prefix_iff_eq_append.mp t.leadingMark_prefix
    exact List.append_cancel_left (hdrop.trans hr.symm)
  have hstarts : t.lineStarts = 0 :: Text.startsBehind t.leadingMark.utf8Size r := by
    rw [Text.lineStarts_eq]
    cases t with
    | nil => simp_all [Text.leadingMark]
    | cons c t =>
      by_cases hc : c = byteOrderMark
      · subst hc
        rw [Text.startsBehind_of_not_endsLine (by rfl)]
        simp_all [Text.leadingMark]
      · simp_all [Text.leadingMark]
  rw [Source.cursor_ofText, hrest]
  have hstart : Stands t [] t.leadingMark []
      { rest := r, offset := t.leadingMark.utf8Size } :=
    ⟨hr.symm, rfl, hstarts, by simp, rfl, rfl⟩
  exact hstart.advanceBy _

end Cursor

namespace Source

def bumps (s : Source) : Nat → Source
  | 0 => s
  | n + 1 => (s.bumps n).bump.2

@[simp] theorem lines_bumps (s : Source) (n : Nat) : (s.bumps n).lines = s.lines := by
  induction n with
  | zero => rfl
  | succ n ih => exact ih

theorem bump_of_rest {s : Source} {c : Char} {r : Text} (h : s.cursor.rest = c :: r) :
    s.bump = (some c, { s with cursor := {
      rest := r
      offset := s.cursor.offset + c.utf8Size
      position := s.cursor.position.step c r.head? } }) := by
  rw [bump, Cursor.peek, Cursor.advance, h]
  rfl

theorem bump_of_atEnd {s : Source} (h : s.cursor.atEnd) : s.bump = (none, s) := by
  have hrest : s.cursor.rest = [] := List.isEmpty_iff.mp h
  rw [bump, Cursor.peek, Cursor.advance, hrest]
  rfl

theorem rest_bumps (s : Source) (n : Nat) : (s.bumps n).cursor.rest = s.cursor.rest.drop n := by
  induction n with
  | zero => rfl
  | succ n ih =>
    have hstep : (s.bumps (n + 1)).cursor = (s.bumps n).cursor.advance := rfl
    rw [hstep, Cursor.rest_advance, ih, List.tail_drop]

theorem bump_bumps (s : Source) (n : Nat) : (s.bumps n).bump.1 = s.cursor.rest[n]? := by
  have hpeek : (s.bumps n).bump.1 = (s.bumps n).cursor.rest.head? := rfl
  rw [hpeek, rest_bumps, List.head?_drop]

theorem exists_lined {s : Source} {t : Text} (h : s.lines = t.lines) :
    ∃ ls, t.Lined ls ∧ s.lineCount = ls.length ∧ ∀ n, s.line? (n + 1) = ls[n]? := by
  refine ⟨t.lines.map Line.content, t.lined_lines, ?_, fun n => ?_⟩
  · rw [lineCount, h, List.length_map]
  · rw [line?, h, List.getElem?_map]
    rfl

/-- The cursor of a source agrees with the line table of its text. -/
structure Coherent (t : Text) (s : Source) : Prop where
  boundary : ∃ read, t.splitAtByte s.cursor.offset = some (read, s.cursor.rest)
  line : s.cursor.position.line = t.lineStarts.countP (· ≤ s.cursor.offset)
  /-- A leading byte order mark takes up no column. -/
  column : ∃ start part, t.lineStarts[s.cursor.position.line - 1]? = some start ∧
    t.slice? start s.cursor.offset = some part ∧
    s.cursor.position.column + (if s.cursor.position.line = 1 then t.leadingMark.length else 0) =
      1 + part.length
  /-- Every character that is left is read by a bump. -/
  reads : ∀ c r, s.cursor.rest = c :: r → s.bump.1 = some c ∧ s.bump.2.cursor.rest = r
  increasing : ∀ c, s.bump.1 = some c → s.cursor.position < s.bump.2.cursor.position
  count : s.lineCount = t.lineStarts.length
  last : s.cursor.atEnd → s.cursor.position.line = s.lineCount
  lines : ∃ ls, t.Lined ls ∧ s.lineCount = ls.length ∧ ∀ n, s.line? (n + 1) = ls[n]?

theorem stands_bumps (t : Text) (n : Nat) :
    ∃ head line above, Cursor.Stands t head line above ((ofText t).bumps n).cursor := by
  induction n with
  | zero => exact Cursor.stands_ofText t
  | succ n ih =>
    obtain ⟨_, _, _, h⟩ := ih
    exact h.advance

/-- The cursor and the line table agree after any number of bumps. -/
theorem coherent_bumps (t : Text) (n : Nat) : Coherent t ((ofText t).bumps n) := by
  obtain ⟨head, line, above, h⟩ := stands_bumps t n
  have hlines : ((ofText t).bumps n).lines = t.lines := lines_bumps _ n
  have hcount : ((ofText t).bumps n).lineCount = t.lines.length := by rw [lineCount, hlines]
  refine ⟨⟨head ++ line, ?_⟩, h.line_eq_countP, h.exists_column, fun c r hr => ?_, ?_, ?_, ?_,
    exists_lined hlines⟩
  · have hsplit := Text.splitAtByte_append (head ++ line) ((ofText t).bumps n).cursor.rest
    rwa [List.append_assoc, ← h.text, ← h.offset] at hsplit
  · rw [bump_of_rest hr]
    exact ⟨rfl, rfl⟩
  · intro c hc
    obtain ⟨r, hr⟩ := List.head?_eq_some_iff.mp hc
    exact Cursor.position_lt_advance hr
  · rw [hcount, Text.lineStarts, Text.length_startsFrom]
  · intro hend
    rw [hcount]
    exact h.line_eq_length (List.isEmpty_iff.mp hend)

/-- Between the two characters of a line end the cursor is still on the line. -/
example : ((ofText "a\r\nb".toList).bumps 2).cursor.position = { line := 1, column := 3 } := rfl

end Source

end EcmaLex
