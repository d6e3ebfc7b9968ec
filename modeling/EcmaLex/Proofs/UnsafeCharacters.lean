import EcmaLex.Proofs.StableOrder

/-!
# Unsafe characters

A character is inspected when it is read, whatever it belongs to, and all that stands behind the
leading mark and the shebang line is read once. So a whole pass reports each unsafe character that
stands there once, in the order of the text, where the lines of the text have it.
-/

namespace EcmaLex

def Line.placed (l : Line) (n column : Nat) : List (Position × Char) :=
  (l.text.zipIdx column).map fun (c, column) => ({ line := n, column }, c)

namespace Text

def placedLines (n column : Nat) : List Line → List (Position × Char)
  | [] => []
  | l :: more => l.placed n column ++ placedLines (n + 1) 1 more

def placed (t : Text) : List (Position × Char) := placedLines 1 1 t.lines

def unsafeAmong (cs : List (Position × Char)) : List Position :=
  (cs.filter fun q => isUnsafeChar q.2).map Prod.fst

theorem unsafeAmong_cons (p : Position) (c : Char) (cs : List (Position × Char)) :
    unsafeAmong ((p, c) :: cs) = (if isUnsafeChar c then [p] else []) ++ unsafeAmong cs := by
  rw [unsafeAmong, List.filter_cons]
  split <;> rfl

/-- The positions of the unsafe characters behind the leading mark and the shebang line. The mark
has no position. -/
def unsafePositions (t : Text) : List Position :=
  let body : Text := t.drop t.leadingMark.length
  unsafeAmong (body.placed.drop ((shebang? body).getD []).length)

def placedFrom (p : Position) : Text → List (Position × Char)
  | [] => []
  | c :: t => (p, c) :: placedFrom (p.step c t.head?) t

theorem placedFrom_of_endsLine {c : Char} {t : Text} (h : Position.endsLine c t.head?)
    (p : Position) :
    placedFrom p (c :: t) = (p, c) :: placedFrom { line := p.line + 1, column := 1 } t := by
  rw [placedFrom, Position.step, if_pos h]

theorem placedFrom_of_not_endsLine {c : Char} {t : Text} (h : Position.endsLine c t.head? = false)
    (p : Position) :
    placedFrom p (c :: t) = (p, c) :: placedFrom { p with column := p.column + 1 } t := by
  rw [placedFrom, Position.step, if_neg (by simp [h])]

/-- From anywhere in a line, stepping over a text places its characters as its lines do. -/
theorem placedFrom_eq_placedLines (t : Text) (n column : Nat) :
    placedFrom { line := n, column } t = placedLines n column t.lines := by
  fun_induction lines t generalizing n column with
  | case1 => rfl
  | case2 t ih =>
    rw [placedFrom_of_not_endsLine (by rfl), placedFrom_of_endsLine (by rfl), ih]
    rfl
  | case3 t ht ih =>
    rw [placedFrom_of_endsLine (endsLine_return ht), ih]
    rfl
  | case4 t ih =>
    rw [placedFrom_of_endsLine (by rfl), ih]
    rfl
  | case5 c t _ _ _ hnil => exact absurd hnil (lines_ne_nil t)
  | case6 c t _ hreturn hfeed l more hlines ih =>
    rw [placedFrom_of_not_endsLine (not_endsLine hreturn hfeed _), ih, hlines]
    rfl

theorem placed_eq (t : Text) : t.placed = placedFrom {} t := (placedFrom_eq_placedLines t 1 1).symm

theorem le_of_mem_placedFrom {p : Position} {t : Text} {q : Position × Char}
    (h : q ∈ placedFrom p t) : p ≤ q.1 := by
  induction t generalizing p with
  | nil => simp [placedFrom] at h
  | cons c t ih =>
    rcases List.mem_cons.mp h with rfl | h
    · exact Std.le_refl _
    · exact Std.le_trans (Std.le_of_lt (p.lt_step c t.head?)) (ih h)

theorem pairwise_placedFrom (p : Position) (t : Text) :
    (placedFrom p t).Pairwise fun q q' => q.1 < q'.1 := by
  induction t generalizing p with
  | nil => exact .nil
  | cons c t ih =>
    refine .cons (fun q hq => ?_) (ih _)
    exact Std.lt_of_lt_of_le (p.lt_step c t.head?) (le_of_mem_placedFrom hq)

theorem pairwise_unsafePositions (t : Text) : t.unsafePositions.Pairwise (· < ·) := by
  rw [unsafePositions, unsafeAmong, List.pairwise_map, placed_eq]
  exact ((pairwise_placedFrom _ _).drop).filter _

end Text

/-- Behind a cursor the characters stand where they do behind an earlier one. -/
theorem Cursor.drop_placedFrom (k : Cursor) (n : Nat) :
    (Text.placedFrom k.position k.rest).drop n =
      Text.placedFrom (k.advanceBy n).position (k.advanceBy n).rest := by
  induction n generalizing k with
  | zero => rfl
  | succ n ih =>
    rw [advanceBy, ← ih]
    cases h : k.rest with
    | nil => rw [advance_nil h, h, Text.placedFrom, List.drop_nil, List.drop_nil]
    | cons c t =>
      obtain ⟨hr, -, hp⟩ := advance_cons h
      rw [hr, hp, Text.placedFrom, List.drop_succ_cons]

namespace Reader

def unsafeReports (r : Reader) : List Diagnostic :=
  r.reported ["unsafe_character"] ++
    (Text.unsafeAmong (Text.placedFrom r.position r.rest)).map Issue.unsafeCharacter.diagnostic

theorem unsafeReports_of_cursor {r r' : Reader} (hcursor : r'.cursor = r.cursor)
    (hreported : r'.reported ["unsafe_character"] = r.reported ["unsafe_character"]) :
    r'.unsafeReports = r.unsafeReports := by
  have hposition : r'.position = r.position := congrArg Cursor.position hcursor
  have hrest : r'.rest = r.rest := congrArg Cursor.rest hcursor
  rw [unsafeReports, unsafeReports, hreported, hposition, hrest]

theorem unsafeReports_checkLine (r : Reader) (n : Nat) :
    (r.checkLine n).unsafeReports = r.unsafeReports :=
  unsafeReports_of_cursor rfl (reported_checkLine_of_disjoint (by decide) r n)

theorem reported_unsafe_inspect (r : Reader) (c : Char) :
    (r.inspect c).reported ["unsafe_character"] = r.reported ["unsafe_character"] ++
      (if isUnsafeChar c then [r.position] else []).map Issue.unsafeCharacter.diagnostic := by
  unfold inspect
  split
  · rw [reported_report, if_pos (by decide)]
    rfl
  · rw [List.map_nil, List.append_nil]

/-- A character that is read is left no longer, and is reported if it is unsafe. -/
theorem unsafeReports_read {r : Reader} {c : Char} {u : Text} (h : r.rest = c :: u) :
    (r.read c).unsafeReports = r.unsafeReports := by
  have hleave : (r.read c).unsafeReports = (r.inspect c).advance.unsafeReports := by
    rw [read, leave]
    split
    · rfl
    · exact unsafeReports_checkLine { (r.inspect c).advance with leftLine := true } _
  have hinspect : (r.inspect c).advance.reported ["unsafe_character"] =
      (r.inspect c).reported ["unsafe_character"] := rfl
  have hcursor : (r.inspect c).advance.cursor = r.cursor.advance :=
    congrArg Cursor.advance (cursor_inspect r c)
  obtain ⟨hrest, -, hposition⟩ := Cursor.advance_cons (k := r.cursor) h
  have hrest : (r.inspect c).advance.rest = u := (congrArg Cursor.rest hcursor).trans hrest
  have hposition : (r.inspect c).advance.position = r.position.step c u.head? :=
    (congrArg Cursor.position hcursor).trans hposition
  rw [hleave, unsafeReports, unsafeReports, hinspect, reported_unsafe_inspect, hrest, hposition, h,
    Text.placedFrom, Text.unsafeAmong_cons, List.map_append, List.append_assoc]

/-- A trace whose remarks are on other issues reports what it reads. -/
theorem unsafeReports_followFrom {r : Reader} {t : Trace} {u : Text} (h : r.rest = t.text ++ u)
    (ht : t.Remarks fun m => m.issue.code ∉ ["unsafe_character"]) (start : Position)
    (visited : List Position) :
    (r.followFrom start visited t).unsafeReports = r.unsafeReports := by
  induction t generalizing r visited with
  | nil => rfl
  | cons e t ih =>
    cases e with
    | read c =>
      have hrest : (r.read c).rest = Trace.text t ++ u := by
        rw [rest_read, h]
        rfl
      rw [followFrom, ih hrest ((Trace.remarks_read c t).mp ht), unsafeReports_read h]
    | note place m =>
      obtain ⟨hm, ht⟩ := (Trace.remarks_note place m t).mp ht
      rw [followFrom]
      split
      · rw [ih (r := r.report _ _) h ht]
        refine unsafeReports_of_cursor rfl ?_
        rw [reported_report, if_neg hm, List.append_nil]
      · exact ih h ht visited

end Reader

namespace Lexer

theorem unsafeReports_behind [Primitives] (l : Lexer) :
    (l.behind l.reading).reader.unsafeReports = l.reader.unsafeReports := by
  have hgap : l.reading.before.unsafeReports = l.reader.unsafeReports := by
    have hcode : ∀ code ∈ ["unbegun_comment"], code ∉ ["unsafe_character"] := by decide
    exact Reader.unsafeReports_followFrom l.rest_eq_gap_append
      ((within_gap _).mono fun r => hcode r.issue.code) _ []
  have hlexeme : (l.reading.before.follow l.reading.lexeme.trace).unsafeReports =
      l.reading.before.unsafeReports := by
    have hcodes : ∀ o : Opening, ∀ code ∈ o.codes, code ∉ ["unsafe_character"] := by
      intro o
      cases o <;> decide
    have hcut : ∀ code ∈ unclosedCodes, code ∉ ["unsafe_character"] := by decide
    exact Reader.unsafeReports_followFrom l.rest_before_eq_append
      (Lexeme.remarks_scan (fun o r => hcodes o r.issue.code) (fun r => hcut r.issue.code) _ _) _ []
  rw [l.reader_behind_of_checkLine Reader.unsafeReports (fun _ => rfl)
    Reader.unsafeReports_checkLine, hlexeme, hgap]

/-- At the end of a run nothing is left to read, so all is reported that was to be. -/
theorem reported_unsafe_tokens [Primitives] {l : Lexer} (hf : l.finished = false) :
    l.tokens.2.reader.reported ["unsafe_character"] = l.reader.unsafeReports := by
  induction l using readings_induction with
  | finished l hl => simp [hl] at hf
  | reading l hl ih =>
    obtain ⟨g, w, u, hc⟩ := exists_nextCut l
    rw [tokens_behind hl, ← unsafeReports_behind]
    by_cases hw : w = []
    · have hrest : (l.behind l.reading).reader.rest = [] := hc.rest_behind.trans (hc.eof hw)
      rw [tokens_of_finished ((hc.finished_behind hl).mpr hw), Reader.unsafeReports, hrest]
      exact (List.append_nil _).symm
    · exact ih (hc.not_finished_behind hl hw)

/-- Before a run nothing is reported, and the lines of the text tell what is to be. -/
theorem unsafeReports_start (t : Text) (o : Options) (w : Bool) :
    (start t o w).reader.unsafeReports =
      t.unsafePositions.map Issue.unsafeCharacter.diagnostic := by
  let body : Text := t.drop t.leadingMark.length
  let mark : Cursor := { rest := body, offset := t.leadingMark.utf8Size }
  have hcursor : (start t o w).reader.cursor = mark.advanceBy ((shebang? body).getD []).length :=
    Source.cursor_ofText t
  have hleft : Text.placedFrom (start t o w).reader.position (start t o w).reader.rest =
      body.placed.drop ((shebang? body).getD []).length := by
    rw [Text.placed_eq, mark.drop_placedFrom, ← hcursor]
    rfl
  rw [Reader.unsafeReports, hleft]
  rfl

end Lexer

/-- A whole pass reports each unsafe character behind the leading mark and the shebang line once,
at its own position. So the reports are in the order of the positions, as they are found and as they
are handed out. -/
theorem Lexer.unsafe_characters_reported [Primitives] (t : Text) (o : Options) (w : Bool) :
    (start t o w).tokens.2.diagnostics.toList.filter (·.code = "unsafe_character") =
        t.unsafePositions.map Issue.unsafeCharacter.diagnostic ∧
      (lex t o).diagnostics.filter (·.code = "unsafe_character") =
        t.unsafePositions.map Issue.unsafeCharacter.diagnostic ∧
      t.unsafePositions.Pairwise (· < ·) := by
  have hfound : ∀ w, (start t o w).tokens.2.diagnostics.toList.filter
      (·.code = "unsafe_character") = t.unsafePositions.map Issue.unsafeCharacter.diagnostic := by
    intro w
    rw [← unsafeReports_start t o w, ← reported_unsafe_tokens rfl]
    exact List.filter_congr fun d _ => by simp
  refine ⟨hfound w, ?_, t.pairwise_unsafePositions⟩
  refine (Diagnostics.filter_sorted ?_).trans (hfound false)
  refine (hfound false).symm ▸ List.pairwise_map.mpr ?_
  exact t.pairwise_unsafePositions.imp Std.le_of_lt

/-- Neither the leading mark nor what the shebang line holds is among them. -/
example : Text.unsafePositions "\uFEFF#!\x00\n'\x00'\r\n\uFEFF".toList =
    [{ line := 2, column := 2 }, { line := 3, column := 1 }] := by decide +kernel

end EcmaLex
