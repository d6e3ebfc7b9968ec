import EcmaLex.Proofs.Remarks

/-!
# What readers report

Of the diagnostics with some codes a reader that follows a trace finds those of the remarks with
such codes. If none of the codes is that of an unsafe character or of a line check, nothing else
adds to them.
-/

namespace EcmaLex

namespace Reader

def reported (codes : List String) (r : Reader) : List Diagnostic :=
  r.diagnostics.toList.filter fun d => codes.contains d.code

variable {codes : List String}

theorem reported_report (r : Reader) (i : Issue) (p : Position) : (r.report i p).reported codes =
    r.reported codes ++ if i.code ∈ codes then [i.diagnostic p] else [] := by
  rw [reported, report, Diagnostics.toList_push, List.filter_append]
  simp [reported, Issue.diagnostic, List.filter_cons]

theorem reported_inspect (hsafe : Issue.unsafeCharacter.code ∉ codes) (r : Reader) (c : Char) :
    (r.inspect c).reported codes = r.reported codes := by
  unfold inspect
  split
  · rw [reported_report, if_neg hsafe, List.append_nil]
  · rfl

theorem reported_checkLine (r : Reader) (n : Nat) : (r.checkLine n).reported codes =
    r.reported codes ++ (r.lineDiagnostics n).filter fun d => codes.contains d.code := by
  rw [reported, checkLine, Diagnostics.toList_extend, List.filter_append]
  rfl

@[simp] theorem lineDiagnostics_inspect (r : Reader) (c : Char) (n : Nat) :
    (r.inspect c).lineDiagnostics n = r.lineDiagnostics n := by
  unfold inspect
  split <;> rfl

@[simp] theorem lineDiagnostics_read (r : Reader) (c : Char) (n : Nat) :
    (r.read c).lineDiagnostics n = r.lineDiagnostics n := by
  rw [← lineDiagnostics_inspect r c, read, leave]
  split <;> rfl

/-- As a character is read, the line is checked that it is the last one of. -/
theorem reported_read (hsafe : Issue.unsafeCharacter.code ∉ codes) (r : Reader) (c : Char) :
    (r.read c).reported codes = r.reported codes ++
      if (r.read c).position.line = r.position.line then []
      else (r.lineDiagnostics r.position.line).filter fun d => codes.contains d.code := by
  have hinspect := reported_inspect hsafe r c
  have hline : (r.read c).position.line = ((r.inspect c).advance).position.line :=
    congrArg (Position.line ∘ Cursor.position) (cursor_leave _ _)
  have hcheck : ∀ n, ((r.inspect c).advance).lineDiagnostics n = r.lineDiagnostics n :=
    lineDiagnostics_inspect r c
  rw [hline, read, leave]
  split
  · exact hinspect.trans (List.append_nil _).symm
  · rw [reported_checkLine, ← hinspect, ← hcheck]
    rfl

theorem filter_lineDiagnostics_of_disjoint (hlines : ∀ code ∈ lineCodes, code ∉ codes) (r : Reader)
    (n : Nat) : (r.lineDiagnostics n).filter (fun d => codes.contains d.code) = [] := by
  rw [List.filter_eq_nil_iff]
  intro d hd
  simpa using hlines d.code (of_mem_lineDiagnostics hd).2

theorem reported_checkLine_of_disjoint (hlines : ∀ code ∈ lineCodes, code ∉ codes) (r : Reader)
    (n : Nat) : (r.checkLine n).reported codes = r.reported codes := by
  rw [reported_checkLine, filter_lineDiagnostics_of_disjoint hlines, List.append_nil]

theorem reported_read_of_disjoint (hsafe : Issue.unsafeCharacter.code ∉ codes)
    (hlines : ∀ code ∈ lineCodes, code ∉ codes) (r : Reader) (c : Char) :
    (r.read c).reported codes = r.reported codes := by
  rw [reported_read hsafe, filter_lineDiagnostics_of_disjoint hlines, ite_self, List.append_nil]

/-- A trace whose remarks have other codes adds nothing. -/
theorem reported_followFrom (hsafe : Issue.unsafeCharacter.code ∉ codes)
    (hlines : ∀ code ∈ lineCodes, code ∉ codes) {t : Trace}
    (ht : t.Remarks fun m => m.issue.code ∉ codes) (r : Reader) (start : Position)
    (visited : List Position) :
    (r.followFrom start visited t).reported codes = r.reported codes := by
  induction t generalizing r visited with
  | nil => rfl
  | cons e t ih =>
    cases e with
    | read c =>
      rw [followFrom, ih ((Trace.remarks_read c t).mp ht), reported_read_of_disjoint hsafe hlines]
    | note place m =>
      obtain ⟨hm, ht⟩ := (Trace.remarks_note place m t).mp ht
      rw [followFrom, ih ht]
      split
      · rw [reported_report, if_neg hm, List.append_nil]
      · rfl

theorem exists_followFrom_append (r : Reader) (start : Position) (visited : List Position)
    (s : Trace) : ∃ visited', ∀ t, r.followFrom start visited (s ++ t) =
      (r.followFrom start visited s).followFrom start visited' t := by
  induction s generalizing r visited with
  | nil => exact ⟨visited, fun _ => rfl⟩
  | cons e s ih =>
    cases e with
    | read c => exact ih _ _
    | note place m => exact ih _ _

end Reader

namespace Lexer

theorem reported_behind (codes : List String) (l : Lexer) (s : Reading) :
    (l.behind s).reader.reported codes = s.after.reported codes :=
  l.reader_behind (Reader.reported codes) (fun _ => rfl) s

end Lexer

end EcmaLex
