import EcmaLex.Proofs.Guarded.Decoding
import EcmaLex.Proofs.LineDefects
import EcmaLex.Proofs.LineTable

/-!
# Guarded lines

A line is cut out of its text between two starts of the table, and its line end is dropped. The
indentation of a line is cut off where the rest of the line starts, and the rest of a line behind
the first tab that a space follows. None of these cuts fails.
-/

namespace EcmaLex

open LineCheck (isBlank spaceBeforeTab? mixedIndentation?)

namespace Text

variable {t : Text}

theorem flatMap_text_lines (t : Text) : t.lines.flatMap Line.text = t := by
  fun_induction lines t with
  | case1 => rfl
  | case2 t ih => rw [List.flatMap_cons, ih]; rfl
  | case3 t ht ih => rw [List.flatMap_cons, ih]; rfl
  | case4 t ih => rw [List.flatMap_cons, ih]; rfl
  | case5 c t _ _ _ hnil => exact absurd hnil (lines_ne_nil t)
  | case6 c t _ _ _ l more hlines ih =>
    rw [hlines, List.flatMap_cons] at ih
    rw [List.flatMap_cons, ← ih]
    rfl

/-- No line end stands in a line, and nothing else behind it. -/
theorem inline_content_of_mem_lines (t : Text) :
    ∀ l ∈ t.lines, Inline l.content ∧ ∀ c ∈ l.terminator, isLineTerminator c := by
  fun_induction lines t with
  | case1 => simp
  | case2 t ih =>
    exact List.forall_mem_cons.mpr ⟨⟨inline_nil, by simp [isLineTerminator]⟩, ih⟩
  | case3 t ht ih =>
    exact List.forall_mem_cons.mpr ⟨⟨inline_nil, by simp [isLineTerminator]⟩, ih⟩
  | case4 t ih =>
    exact List.forall_mem_cons.mpr ⟨⟨inline_nil, by simp [isLineTerminator]⟩, ih⟩
  | case5 c t _ _ _ hnil => exact absurd hnil (lines_ne_nil t)
  | case6 c t _ hreturn hfeed l more hlines ih =>
    rw [hlines] at ih
    obtain ⟨⟨hcontent, hterminator⟩, hmore⟩ := List.forall_mem_cons.mp ih
    have hn : c ≠ '\n' := fun h => hfeed h
    have hr : c ≠ '\r' := fun h => hreturn h
    have hc : isLineTerminator c = false := by simp [isLineTerminator, hn, hr]
    exact List.forall_mem_cons.mpr ⟨⟨(inline_cons _ _).mpr ⟨hc, hcontent⟩, hterminator⟩, hmore⟩

theorem startsFrom_append (offset : Nat) (above below : List Line) :
    startsFrom offset (above ++ below) =
      startsFrom offset above ++
        startsFrom (offset + utf8Size (above.flatMap Line.text)) below := by
  induction above generalizing offset with
  | nil => rfl
  | cons l above ih =>
    simp only [List.cons_append, startsFrom, ih, List.flatMap_cons, utf8Size_append,
      Nat.add_assoc]

/-- A line starts behind those above it, and ends where the next one starts or the text ends. -/
theorem starts_of_lines {above below : List Line} {l : Line} (h : t.lines = above ++ l :: below) :
    t.lineStarts[above.length]? = some (utf8Size (above.flatMap Line.text)) ∧
      t.lineStarts[above.length + 1]?.getD t.utf8Size =
        utf8Size (above.flatMap Line.text) + l.text.utf8Size := by
  have hstarts : t.lineStarts = startsFrom 0 above ++ utf8Size (above.flatMap Line.text) ::
      startsFrom (utf8Size (above.flatMap Line.text) + l.text.utf8Size) below := by
    rw [lineStarts, h, startsFrom_append, Nat.zero_add, startsFrom]
  have hlength := length_startsFrom 0 above
  have hsize : t.utf8Size = utf8Size (above.flatMap Line.text) + l.text.utf8Size +
      utf8Size (below.flatMap Line.text) := by
    rw [← flatMap_text_lines t, h]
    simp [Nat.add_assoc]
  rw [hstarts, hsize]
  constructor
  · simp [hlength]
  · rw [List.getElem?_append_right (by omega), hlength, Nat.add_sub_cancel_left,
      List.getElem?_cons_succ]
    cases below with
    | nil => rfl
    | cons l' below => rfl

end Text

namespace Guarded

def line (s : Source) (n : Nat) : Option (Option Text) :=
  if n = 0 then some none
  else (Text.startsFrom 0 s.lines)[n - 1]?.elim (some none) fun start => do
    let raw ← s.slice? start ((Text.startsFrom 0 s.lines)[n]?.getD s.text.utf8Size)
    return some (raw.rdropWhile isLineTerminator)

/-- Every line is cut out of the text without failing. -/
theorem line_eq {s : Source} (hs : s.lines = s.text.lines) (n : Nat) :
    line s n = some (s.line? n) := by
  cases n with
  | zero => rfl
  | succ n =>
    have htable : Text.startsFrom 0 s.lines = s.text.lineStarts := by rw [hs, Text.lineStarts]
    have hlength : s.text.lineStarts.length = s.text.lines.length := Text.length_startsFrom 0 _
    rw [line, if_neg n.succ_ne_zero, Nat.add_sub_cancel, htable, Source.line?,
      if_neg n.succ_ne_zero, Nat.add_sub_cancel, hs]
    cases hl : s.text.lines[n]? with
    | none =>
      rw [List.getElem?_eq_none_iff] at hl
      rw [List.getElem?_eq_none (by omega)]
      rfl
    | some l =>
      obtain ⟨hn, rfl⟩ := List.getElem?_eq_some_iff.mp hl
      have hcut : s.text.lines =
          s.text.lines.take n ++ s.text.lines[n] :: s.text.lines.drop (n + 1) := by
        rw [List.getElem_cons_drop, List.take_append_drop]
      obtain ⟨hstart, hstop⟩ := Text.starts_of_lines hcut
      rw [List.length_take_of_le hn.le] at hstart hstop
      have hslice := Text.slice?_append ((s.text.lines.take n).flatMap Line.text)
        s.text.lines[n].text ((s.text.lines.drop (n + 1)).flatMap Line.text)
      rw [← List.flatMap_cons, ← List.flatMap_append, ← hcut, Text.flatMap_text_lines] at hslice
      obtain ⟨hcontent, hterminator⟩ := Text.inline_content_of_mem_lines _ _ (List.getElem_mem hn)
      have hkept : s.text.lines[n].text.rdropWhile isLineTerminator = s.text.lines[n].content :=
        Text.rdropWhile_append hterminator fun c hc => hcontent c (List.mem_of_getLast? hc)
      rw [hstart, hstop, Option.elim_some, Source.slice?, hslice, Option.bind_eq_bind,
        Option.bind_some, hkept]
      rfl

def findText? (p : Text) : Text → Option Nat
  | [] => if p.isEmpty then some 0 else none
  | c :: t => if p.isPrefixOf (c :: t) then some 0 else (findText? p t).map (c.utf8Size + ·)

def indentation (line : Text) : Option Text := do
  let stop ← minus? line.utf8Size (Text.utf8Size (line.dropWhile isBlank))
  line.upTo? stop

def spaceBehindTab (line indent : Text) : Option (Option Nat) :=
  (findText? ['\t', ' '] indent).elim (some none) fun n => do
    let behind ← line.from? (n + 2)
    return if (behind.dropWhile (· = ' ')).head? = some '*' then none else some (n + 1)

def mixedIndentation (smarttabs : Bool) (line : Text) : Option (Option Nat) := do
  let indent ← indentation line
  match findText? [' ', '\t'] indent with
  | some n => some (some (n + 1))
  | none => if smarttabs then some none else spaceBehindTab line indent

theorem indentation_eq (line : Text) : indentation line = some (line.takeWhile isBlank) := by
  have hcut := line.takeWhile_append_dropWhile (p := isBlank)
  have hsize : line.utf8Size = Text.utf8Size (line.takeWhile isBlank) +
      Text.utf8Size (line.dropWhile isBlank) := by
    rw [← Text.utf8Size_append, hcut]
  have hprefix := Text.upTo?_append (line.takeWhile isBlank) (line.dropWhile isBlank)
  rw [hcut] at hprefix
  rw [indentation, hsize, minus?_eq (Nat.le_add_left _ _), Nat.add_sub_cancel]
  exact hprefix

theorem utf8Size_of_isBlank {c : Char} (h : isBlank c) : c.utf8Size = 1 := by
  rcases (by simpa [isBlank] using h : c = ' ' ∨ c = '\t') with rfl | rfl
  · rfl
  · rfl

/-- Behind the indentation no space is left to skip. -/
theorem dropWhile_space (line : Text) :
    (line.dropWhile isBlank).dropWhile (· = ' ') = line.dropWhile isBlank := by
  have hnot := List.head?_dropWhile_not isBlank line
  cases hrest : line.dropWhile isBlank with
  | nil => rfl
  | cons c u =>
    rw [hrest] at hnot
    have hc : c ≠ ' ' := by
      rintro rfl
      simp [isBlank] at hnot
    rw [List.dropWhile_cons_of_neg (by simpa using hc)]

/-- In an indentation the search finds the first space that a tab follows. -/
theorem findText?_takeWhile_isBlank (line : Text) :
    findText? [' ', '\t'] (line.takeWhile isBlank) = spaceBeforeTab? line := by
  induction line with
  | nil => rfl
  | cons c t ih =>
    by_cases hpair : c = ' ' ∧ t.head? = some '\t'
    · obtain ⟨rfl, ht⟩ := hpair
      obtain ⟨t, rfl⟩ := List.head?_eq_some_iff.mp ht
      rfl
    by_cases hc : isBlank c
    · have hprefix : ¬ [' ', '\t'].isPrefixOf (c :: t.takeWhile isBlank) := by
        rw [List.isPrefixOf_iff_prefix, List.cons_prefix_cons]
        rintro ⟨hspace, r, hr⟩
        exact hpair ⟨hspace.symm, LineCheck.head?_eq_of_takeWhile_isBlank hr.symm⟩
      rw [LineCheck.spaceBeforeTab?_cons_blank hc hpair, List.takeWhile_cons_of_pos hc, findText?,
        if_neg hprefix, ih, utf8Size_of_isBlank hc]
      simp only [Nat.add_comm]
    · have hnone : spaceBeforeTab? (c :: t) = none := by
        rw [spaceBeforeTab?, if_neg (by simpa using hpair), if_neg hc]
      rw [hnone, List.takeWhile_cons_of_neg hc]
      rfl

/-- The last one of several tabs is the first one that a space follows. -/
theorem findText?_replicate (tabs spaces : Nat) :
    findText? ['\t', ' '] (List.replicate tabs '\t' ++ List.replicate spaces ' ') =
      if 0 < tabs ∧ 0 < spaces then some (tabs - 1) else none := by
  have hspaces : ∀ k, findText? ['\t', ' '] (List.replicate k ' ') = none := by
    intro k
    induction k with
    | zero => rfl
    | succ k ih =>
      rw [List.replicate_succ, findText?, ih]
      rfl
  induction tabs with
  | zero => simpa using hspaces spaces
  | succ tabs ih =>
    rw [List.replicate_succ, List.cons_append, findText?, ih]
    cases tabs with
    | zero =>
      cases spaces with
      | zero => rfl
      | succ spaces => rfl
    | succ tabs =>
      have hsize : '\t'.utf8Size = 1 := rfl
      rw [if_neg (by simp [List.replicate_succ]), hsize]
      by_cases hspaces : 0 < spaces
      · simp [hspaces, Nat.add_comm]
      · simp [hspaces]

/-- The line can be cut behind the last of its tabs and the space behind it. -/
theorem from?_behind_space {line : Text} {tabs spaces : Nat} (h : line.takeWhile isBlank =
      List.replicate (tabs + 1) '\t' ++ List.replicate (spaces + 1) ' ') :
    line.from? (tabs + 2) = some (List.replicate spaces ' ' ++ line.dropWhile isBlank) := by
  obtain ⟨front, hfront⟩ :
      ∃ front : Text, List.replicate tabs '\t' ++ ['\t', ' '] = front := ⟨_, rfl⟩
  have hindent : line.takeWhile isBlank = front ++ List.replicate spaces ' ' := by
    rw [h, ← hfront, List.replicate_succ', List.replicate_succ]
    simp
  have hsize : front.utf8Size = tabs + 2 := by
    have hblank : ∀ c ∈ front, c.utf8Size = 1 := by
      intro c hc
      have hmem : c ∈ line.takeWhile isBlank := hindent ▸ List.mem_append_left _ hc
      exact utf8Size_of_isBlank (List.mem_takeWhile_imp hmem)
    rw [Text.utf8Size_eq_length hblank, ← hfront]
    simp
  have hcut := Text.from?_append front (List.replicate spaces ' ' ++ line.dropWhile isBlank)
  rwa [← List.append_assoc, ← hindent, List.takeWhile_append_dropWhile, hsize] at hcut

theorem spaceBehindTab_eq {line : Text} {tabs spaces : Nat}
    (h : line.takeWhile isBlank = List.replicate tabs '\t' ++ List.replicate spaces ' ') :
    spaceBehindTab line (line.takeWhile isBlank) =
      some (if 0 < tabs ∧ 0 < spaces ∧ (line.dropWhile isBlank).head? ≠ some '*' then some tabs
        else none) := by
  rw [spaceBehindTab, h, findText?_replicate]
  by_cases hboth : 0 < tabs ∧ 0 < spaces
  · obtain ⟨i, rfl⟩ := Nat.exists_eq_add_one.mpr hboth.1
    obtain ⟨j, rfl⟩ := Nat.exists_eq_add_one.mpr hboth.2
    have hspaces : ∀ c ∈ List.replicate j ' ', decide (c = ' ') :=
      fun c hc => decide_eq_true (List.eq_of_mem_replicate hc)
    rw [if_pos hboth, Option.elim_some, Nat.add_sub_cancel, from?_behind_space h,
      Option.bind_eq_bind, Option.bind_some, List.dropWhile_append_of_pos hspaces,
      dropWhile_space]
    simp
  · rw [if_neg hboth, if_neg fun hall => hboth ⟨hall.1, hall.2.1⟩]
    rfl

theorem mixedIndentation_eq (smarttabs : Bool) (line : Text) :
    mixedIndentation smarttabs line = some (mixedIndentation? smarttabs line) := by
  rw [mixedIndentation, indentation_eq, Option.bind_eq_bind, Option.bind_some]
  cases hpair : spaceBeforeTab? line with
  | some n =>
    rw [findText?_takeWhile_isBlank, hpair]
    simp only [mixedIndentation?, hpair]
  | none =>
    obtain ⟨tabs, spaces, hindent, hmixed⟩ := LineCheck.exists_mixedIndentation?_eq hpair
    rw [findText?_takeWhile_isBlank, hpair, hmixed]
    cases smarttabs with
    | true => rfl
    | false =>
      rw [spaceBehindTab_eq hindent]
      simp

def lineDiagnostics (r : Reader) (n : Nat) : Option (List Diagnostic) := do
  let found ← line r.source n
  found.elim (some []) fun line => do
    let column ← mixedIndentation r.options.smarttabs line
    let mixed := column.toList.map ((·, Issue.mixedSpacesAndTabs))
    return (LineCheck.tooLong r.options line ++ LineCheck.trailing r.options line ++ mixed).map
      fun (column, i) => i.diagnostic { line := n, column }

theorem lineDiagnostics_eq {r : Reader} (hr : r.source.lines = r.source.text.lines) (n : Nat) :
    lineDiagnostics r n = some (r.lineDiagnostics n) := by
  rw [lineDiagnostics, line_eq hr, Reader.lineDiagnostics]
  cases r.source.line? n with
  | none => rfl
  | some line =>
    simp only [mixedIndentation_eq, Option.bind_eq_bind, Option.bind_some, Option.elim_some]
    rfl

end Guarded

end EcmaLex
