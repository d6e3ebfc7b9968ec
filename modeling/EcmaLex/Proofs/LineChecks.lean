import Mathlib.Data.List.Nodup
import EcmaLex.Proofs.LineDefects
import EcmaLex.Proofs.LineTable
import EcmaLex.Proofs.Reported

/-!
# Line checks

A line is checked when the cursor leaves it, whatever is being read then, and the last line when the
end of the text is read. So a whole pass reports each defect of each line once.
-/

namespace EcmaLex

theorem Cursor.line_advance (k : Cursor) : k.advance.position.line = k.position.line ∨
    k.advance.position.line = k.position.line + 1 := by
  cases h : k.rest with
  | nil => exact .inl (by rw [advance_nil h])
  | cons c t =>
    cases hc : Position.endsLine c t.head? with
    | true => exact .inr (by rw [position_advance_of_endsLine h hc])
    | false => exact .inl (by rw [position_advance_of_not_endsLine h hc])

def Trace.SparesLines (t : Trace) : Prop := t.Remarks fun m => m.issue.code ∉ lineCodes

theorem Trace.Remarks.sparesLines {codes : List String} {t : Trace} (h : t.Within codes)
    (hcodes : ∀ code ∈ codes, code ∉ lineCodes) : t.SparesLines :=
  h.mono fun m hm => hcodes m.issue.code hm

theorem sparesLines_gap (t : Text) : (gap t).SparesLines :=
  (within_gap t).sparesLines (by decide)

theorem Lexeme.sparesLines_scan [Primitives] (context : Context) (t : Text) :
    (scan context t).trace.SparesLines := by
  have hcodes : ∀ o : Opening, ∀ code ∈ o.codes, code ∉ lineCodes := by
    intro o
    cases o <;> decide
  have hcut : ∀ code ∈ unclosedCodes, code ∉ lineCodes := by decide
  exact remarks_scan (fun o r => hcodes o r.issue.code) (fun r => hcut r.issue.code) context t

namespace Reader

def checks (r : Reader) (n : Nat) : List Diagnostic :=
  (List.range n).flatMap fun i => r.lineDiagnostics (i + 1)

theorem checks_succ (r : Reader) (n : Nat) :
    r.checks (n + 1) = r.checks n ++ r.lineDiagnostics (n + 1) := by
  simp [checks, List.range_succ]

theorem filter_lineDiagnostics_self (r : Reader) (n : Nat) :
    ((r.lineDiagnostics n).filter fun d => lineCodes.contains d.code) = r.lineDiagnostics n := by
  rw [List.filter_eq_self]
  intro d hd
  simpa using (of_mem_lineDiagnostics hd).2

/-- All lines above the current one were checked once, the upper ones first. -/
structure Checked (r : Reader) : Prop where
  started : 0 < r.position.line
  reported : r.reported lineCodes = r.checks (r.position.line - 1)

namespace Checked

variable {r : Reader}

theorem read (h : r.Checked) (c : Char) : (r.read c).Checked := by
  have hstarted := h.started
  have hchecks : (r.read c).checks = r.checks := by
    funext n
    simp only [checks, lineDiagnostics_read]
  have hreported := reported_read (by decide : Issue.unsafeCharacter.code ∉ lineCodes) r c
  rw [filter_lineDiagnostics_self, h.reported] at hreported
  have hcursor : (r.read c).position = r.cursor.advance.position :=
    congrArg Cursor.position (cursor_read r c)
  rcases r.cursor.line_advance with hsame | hnext
  · have hline : (r.read c).position.line = r.position.line := by rw [hcursor, hsame]; rfl
    rw [if_pos hline, List.append_nil] at hreported
    exact ⟨by rw [hline]; exact hstarted, by rw [hreported, hchecks, hline]⟩
  · have hline : (r.read c).position.line = r.position.line + 1 := by rw [hcursor, hnext]; rfl
    obtain ⟨n, hn⟩ : ∃ n, r.position.line = n + 1 := ⟨r.position.line - 1, by omega⟩
    rw [if_neg (by omega), hn, Nat.add_sub_cancel, ← checks_succ] at hreported
    exact ⟨by omega, by rw [hreported, hchecks, hline, hn]; rfl⟩

theorem note (h : r.Checked) {i : Issue} (hi : i.code ∉ lineCodes) (p : Position) :
    (r.report i p).Checked where
  started := h.started
  reported := by
    rw [reported_report, if_neg hi, List.append_nil, h.reported]
    rfl

theorem followFrom (h : r.Checked) {t : Trace} (ht : t.SparesLines) (start : Position)
    (visited : List Position) : (r.followFrom start visited t).Checked := by
  induction t generalizing r visited with
  | nil => exact h
  | cons e t ih =>
    cases e with
    | read c => exact ih (h.read c) ((Trace.remarks_read c t).mp ht) _
    | note place m =>
      obtain ⟨hm, ht⟩ := (Trace.remarks_note place m t).mp ht
      rw [Reader.followFrom]
      split
      · exact ih (h.note hm _) ht _
      · exact ih h ht _

theorem follow (h : r.Checked) {t : Trace} (ht : t.SparesLines) : (r.follow t).Checked :=
  h.followFrom ht _ _

theorem checkLine (h : r.Checked) :
    (r.checkLine r.position.line).reported lineCodes = r.checks r.position.line := by
  have hstarted := h.started
  obtain ⟨n, hn⟩ : ∃ n, r.position.line = n + 1 := ⟨r.position.line - 1, by omega⟩
  rw [reported_checkLine, filter_lineDiagnostics_self, h.reported, hn, Nat.add_sub_cancel,
    checks_succ]

end Checked

theorem checks_followFrom (r : Reader) (start : Position) (visited : List Position) (t : Trace) :
    (r.followFrom start visited t).checks = r.checks := by
  induction t generalizing r visited with
  | nil => rfl
  | cons e t ih =>
    cases e with
    | read c =>
      rw [followFrom, ih]
      funext n
      simp only [checks, lineDiagnostics_read]
    | note place m =>
      rw [followFrom, ih]
      split <;> rfl

theorem checks_follow (r : Reader) (t : Trace) : (r.follow t).checks = r.checks :=
  checks_followFrom r _ [] t

end Reader

namespace Lexer

theorem checks_behind [Primitives] (l : Lexer) :
    (l.behind l.reading).reader.checks = l.reader.checks := by
  rw [l.reader_behind_of_checkLine Reader.checks (fun _ => rfl) (fun _ _ => rfl),
    Reader.checks_follow, before_reading, Reader.checks_follow]

theorem checked_follow [Primitives] {l : Lexer} (h : l.reader.Checked) :
    (l.reading.before.follow l.reading.lexeme.trace).Checked := by
  rw [lexeme_reading, before_reading]
  exact (h.follow (sparesLines_gap _)).follow (Lexeme.sparesLines_scan _ _)

theorem checked_behind [Primitives] {l : Lexer} (h : l.reader.Checked)
    (hk : l.reading.lexeme.kind ≠ .eof) :
    (l.behind l.reading).reader.Checked := by
  have hafter : l.reading.after.Checked := by
    rw [after_reading_eq, if_neg hk]
    exact checked_follow h
  unfold behind
  split
  · exact hafter
  · exact hafter
  · exact ⟨hafter.started, hafter.reported⟩

/-- A run leaves each line of its text once. -/
theorem reported_tokens [Primitives] {l : Lexer} (hf : l.finished = false) (h : l.reader.Checked)
    {t : Text}
    (ht : ∃ head line above, Cursor.Stands t head line above l.reader.cursor) :
    l.tokens.2.reader.reported lineCodes = l.reader.checks t.lines.length := by
  induction l using readings_induction with
  | finished l hl => simp [hl] at hf
  | reading l hl ih =>
    obtain ⟨g, w, u, hc⟩ := exists_nextCut l
    obtain ⟨_, _, _, hs⟩ := ht
    obtain ⟨_, _, _, hs⟩ := hs.advanceBy g.length
    rw [← hc.cursor_before] at hs
    obtain ⟨_, _, _, hs⟩ := hs.advanceBy w.length
    rw [← hc.cursor_after] at hs
    rw [tokens_behind hl]
    by_cases hw : w = []
    · have hend : (l.behind l.reading).finished = true := (hc.finished_behind hl).mpr hw
      have hrest : l.reading.after.cursor.rest = [] := hc.after.trans (hc.eof hw)
      have hline := hs.line_eq_length hrest
      rw [l.after_reading.1] at hline
      have hcheck := (checked_follow h).checkLine
      rw [tokens_of_finished hend, reported_behind, after_reading_eq,
        if_pos (hc.kind_eq_eof_iff.mpr hw), hcheck, Reader.checks_follow, before_reading,
        Reader.checks_follow]
      exact congrArg _ hline
    · have hk : l.reading.lexeme.kind ≠ .eof := fun hk => hw (hc.kind_eq_eof_iff.mp hk)
      rw [ih (hc.not_finished_behind hl hw) (checked_behind h hk)
        ⟨_, _, _, NextCut.cursor_behind l ▸ hs⟩, checks_behind]

theorem checked_start (t : Text) (o : Options) (w : Bool) : (start t o w).reader.Checked := by
  have hline : (start t o w).reader.position.line = 1 :=
    congrArg Position.line (Source.position_ofText t)
  refine ⟨by omega, ?_⟩
  rw [hline]
  rfl

end Lexer

namespace Reader

theorem mem_lineDiagnostics_iff {r : Reader} {n : Nat} {d : Diagnostic} :
    d ∈ r.lineDiagnostics n ↔
      ∃ line, r.source.line? n = some line ∧ LineDefect r.options n line d := by
  unfold lineDiagnostics
  cases r.source.line? n with
  | none => simp
  | some line =>
    simp only [← LineCheck.mem_issues_iff, List.mem_map, Prod.exists, Option.some.injEq,
      exists_eq_left']

/-- No two defects of a line have the same code. -/
theorem nodup_lineDiagnostics (r : Reader) (n : Nat) : (r.lineDiagnostics n).Nodup := by
  unfold lineDiagnostics
  cases r.source.line? n with
  | none => exact List.nodup_nil
  | some line =>
    have hcodes : ((LineCheck.issues r.options line).map fun p => p.2.code).Sublist lineCodes := by
      have hlong : ((LineCheck.tooLong r.options line).map fun p => p.2.code).Sublist
          ["line_too_long"] := by
        unfold LineCheck.tooLong
        split
        · split <;> simp [Issue.code]
        · simp
      have htrailing : ((LineCheck.trailing r.options line).map fun p => p.2.code).Sublist
          ["trailing_whitespace"] := by
        simp only [LineCheck.trailing]
        split <;> simp [Issue.code]
      have hmixed : ((LineCheck.mixed r.options line).map fun p => p.2.code).Sublist
          ["mixed_spaces_and_tabs"] := by
        unfold LineCheck.mixed
        cases LineCheck.mixedIndentation? r.options.smarttabs line <;> simp [Issue.code]
      rw [LineCheck.issues, List.map_append, List.map_append]
      exact (hlong.append htrailing).append hmixed
    apply List.Nodup.of_map Diagnostic.code
    rw [List.map_map]
    exact hcodes.nodup (by decide)

theorem nodup_checks (r : Reader) (n : Nat) : (r.checks n).Nodup := by
  rw [checks, List.nodup_flatMap]
  refine ⟨fun i _ => nodup_lineDiagnostics r (i + 1), ?_⟩
  refine List.nodup_range.imp ?_
  intro i j hij d hi hj
  have hi := (of_mem_lineDiagnostics hi).1
  have hj := (of_mem_lineDiagnostics hj).1
  omega

theorem mem_checks_iff {r : Reader} {lines : List Text}
    (hlines : ∀ n, r.source.line? (n + 1) = lines[n]?) {d : Diagnostic} :
    d ∈ r.checks r.source.lineCount ↔
      ∃ n line, lines[n]? = some line ∧ LineDefect r.options (n + 1) line d := by
  simp only [checks, List.mem_flatMap, List.mem_range, mem_lineDiagnostics_iff, hlines]
  constructor
  · rintro ⟨i, -, line, hline, hd⟩
    exact ⟨i, line, hline, hd⟩
  · rintro ⟨i, line, hline, hd⟩
    have hlt : i < r.source.lineCount := by
      obtain ⟨l, hl, -⟩ := Option.map_eq_some_iff.mp ((hlines i).trans hline)
      exact (List.getElem?_eq_some_iff.mp hl).1
    exact ⟨i, hlt, line, hline, hd⟩

end Reader

/-- Among some diagnostics, those of whole lines are the defects of these lines, each of them
once. -/
def ReportsLines (lines : List Text) (o : Options) (ds : List Diagnostic) : Prop :=
  (ds.filter fun d => lineCodes.contains d.code).Nodup ∧
    ∀ d, d ∈ ds.filter (fun d => lineCodes.contains d.code) ↔
      ∃ n line, lines[n]? = some line ∧ LineDefect o (n + 1) line d

theorem ReportsLines.of_perm {lines : List Text} {o : Options} {ds ds' : List Diagnostic}
    (h : ReportsLines lines o ds) (hp : ds'.Perm ds) : ReportsLines lines o ds' := by
  have hfilter := hp.filter fun d => lineCodes.contains d.code
  exact ⟨hfilter.nodup_iff.mpr h.1, fun d => hfilter.mem_iff.trans (h.2 d)⟩

/-- A whole pass reports the defects of all lines, as it finds them and as they are handed out. The
lines are those that the source of the text has, counted from one. -/
theorem Lexer.reportsLines [Primitives] (t : Text) (o : Options) (w : Bool) :
    ∃ lines, t.Lined lines ∧ (∀ n, (Source.ofText t).line? (n + 1) = lines[n]?) ∧
      ReportsLines lines o (start t o w).tokens.2.diagnostics.toList ∧
        ReportsLines lines o (lex t o).diagnostics := by
  obtain ⟨lines, hlined, -, hlines⟩ := Source.exists_lined (s := Source.ofText t) rfl
  have hfound : ∀ w, ReportsLines lines o (start t o w).tokens.2.diagnostics.toList := by
    intro w
    have hreported := reported_tokens rfl (checked_start t o w) (Cursor.stands_ofText t)
    rw [Reader.reported] at hreported
    exact ⟨hreported.symm ▸ Reader.nodup_checks _ _,
      fun d => hreported.symm ▸ Reader.mem_checks_iff hlines⟩
  exact ⟨lines, hlined, hlines, hfound w, (hfound false).of_perm (List.mergeSort_perm _ _)⟩

end EcmaLex
