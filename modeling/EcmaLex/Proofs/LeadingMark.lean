import EcmaLex.Primitives.Standard
import EcmaLex.Proofs.Parallel

/-!
# Leading byte order marks

A byte order mark at the start of a text shifts all tokens by its bytes and changes nothing about
them. Only the checks of the first line see it, as they go over the line from its very start.
-/

namespace EcmaLex

def lineCodes : List String := ["line_too_long", "trailing_whitespace", "mixed_spaces_and_tabs"]

def Diagnostic.isOfFirstLine (d : Diagnostic) : Bool :=
  d.position.line = 1 && lineCodes.contains d.code

namespace Reader

theorem of_mem_lineDiagnostics {r : Reader} {n : Nat} {d : Diagnostic}
    (h : d ∈ r.lineDiagnostics n) : d.position.line = n ∧ d.code ∈ lineCodes := by
  unfold lineDiagnostics at h
  split at h
  · simp at h
  · obtain ⟨⟨column, i⟩, hi, rfl⟩ := List.mem_map.mp h
    have hcode : i.code ∈ lineCodes := by
      rcases LineCheck.eq_of_mem_issues hi with rfl | rfl | rfl <;> decide
    exact ⟨rfl, hcode⟩

theorem filter_lineDiagnostics_one (r : Reader) :
    (r.lineDiagnostics 1).filter (!·.isOfFirstLine) = [] := by
  rw [List.filter_eq_nil_iff]
  intro d hd
  obtain ⟨hline, hcode⟩ := of_mem_lineDiagnostics hd
  simp [Diagnostic.isOfFirstLine, hline, hcode]

end Reader

namespace Source

theorem line?_byteOrderMark (t : Text) {n : Nat} (hn : n ≠ 1) :
    (ofText (byteOrderMark :: t)).line? n = (ofText t).line? n := by
  obtain ⟨l, more, ht, hmark⟩ :=
    Text.exists_lines_cons (c := byteOrderMark) (by decide) (by decide) t
  rw [line?, line?, ofText, ofText, ht, hmark]
  match n with
  | 0 => rfl
  | 1 => exact absurd rfl hn
  | n + 2 => rfl

theorem cursor_byteOrderMark {t : Text} (h : t.head? ≠ some byteOrderMark) :
    (ofText (byteOrderMark :: t)).cursor = (ofText t).cursor.shifted 3 := by
  have hmark : Cursor.skipByteOrderMark (byteOrderMark :: t) =
      (Cursor.skipByteOrderMark t).shifted 3 := by
    cases t with
    | nil => rfl
    | cons c t =>
      have hc : c ≠ byteOrderMark := by simpa using h
      rw [Cursor.skipByteOrderMark, Cursor.skipByteOrderMark, if_pos rfl, if_neg hc]
      rfl
  simp only [ofText, hmark]
  exact Cursor.advanceBy_shifted 3 _ _

theorem shebang_byteOrderMark {t : Text} (h : t.head? ≠ some byteOrderMark) :
    (ofText (byteOrderMark :: t)).shebang = (ofText t).shebang := by
  cases t with
  | nil => rfl
  | cons c t =>
    have hc : c ≠ byteOrderMark := by simpa using h
    simp only [ofText, Cursor.skipByteOrderMark, if_neg hc]
    rfl

end Source

namespace Lexer

theorem parallel_byteOrderMark {t : Text} (h : t.head? ≠ some byteOrderMark) (o : Options)
    (w : Bool) : Parallel (!·.isOfFirstLine) 3 o o (start (byteOrderMark :: t) o w)
      (start t o w) where
  finished := rfl
  withComments := rfl
  context := rfl
  cursor := Source.cursor_byteOrderMark h
  options := ⟨rfl, rfl⟩
  agrees := {
    leftLine := rfl
    diagnostics := rfl
    lines := by
      intro n
      by_cases hn : n = 1
      · rw [hn, Reader.filter_lineDiagnostics_one, Reader.filter_lineDiagnostics_one]
      · have hline : (start (byteOrderMark :: t) o w).reader.source.line? n =
            (start t o w).reader.source.line? n := Source.line?_byteOrderMark t hn
        rw [Reader.lineDiagnostics, Reader.lineDiagnostics, hline]
        rfl }

/-- A byte order mark at the start of a text is no part of any token, and changes no diagnostic but
those of the first line as a whole. -/
theorem tokens_byteOrderMark [Primitives] {t : Text} (h : t.head? ≠ some byteOrderMark)
    (o : Options)
    (w : Bool) :
    (start (byteOrderMark :: t) o w).shebang = (start t o w).shebang ∧
      (start (byteOrderMark :: t) o w).tokens.1 =
        (start t o w).tokens.1.map (Token.shifted 3) ∧
      (start (byteOrderMark :: t) o w).tokens.2.diagnostics.toList.filter (!·.isOfFirstLine) =
        (start t o w).tokens.2.diagnostics.toList.filter (!·.isOfFirstLine) :=
  ⟨Source.shebang_byteOrderMark h,
    (parallel_byteOrderMark h o w).tokens (settling_self _ o)⟩

theorem tokens_byteOrderMark_of_shebang :
    "#!x\n\ta @".toList.head? ≠ some byteOrderMark ∧
      (start (byteOrderMark :: "#!x\n\ta @".toList) {} true).shebang =
        (start "#!x\n\ta @".toList {} true).shebang ∧
      (start (byteOrderMark :: "#!x\n\ta @".toList) {} true).tokens.1 =
        (start "#!x\n\ta @".toList {} true).tokens.1.map (Token.shifted 3) ∧
      (start (byteOrderMark :: "#!x\n\ta @".toList) {} true).tokens.2.diagnostics.toList.filter
          (!·.isOfFirstLine) =
        (start "#!x\n\ta @".toList {} true).tokens.2.diagnostics.toList.filter
          (!·.isOfFirstLine) :=
  ⟨by decide, tokens_byteOrderMark (t := "#!x\n\ta @".toList) (by decide) {} true⟩

end Lexer

/-- The mark counts as a character where the length of the first line is checked. -/
theorem Lexed.diagnostics_byteOrderMark_ne :
    (lex (byteOrderMark :: "abcde".toList) { maxlen := some 5 }).diagnostics ≠
      (lex "abcde".toList { maxlen := some 5 }).diagnostics := by
  decide +kernel

end EcmaLex
