import EcmaLex.Proofs.Reported
import EcmaLex.Proofs.Tiling

/-!
# Tokens that are cut off

A string or a regular expression is cut off by the end of its line, a template or a comment by the
end of the text. Each token that is cut off is reported once, and nothing else is reported so.
-/

namespace EcmaLex

open Text (endsLine)

def Token.unclosedDiagnostic? (k : Token) : Option Diagnostic :=
  k.kind.unclosedIssue?.map fun i => i.diagnostic (if k.isComment then k.stop else k.start)

/-- What cuts a lexeme off that stands before the text `u`. -/
inductive Lexeme.CutOff (m : Lexeme) (u : Text) : Prop where
  | line (hk : m.kind = .string ∨ m.kind = .regex) (hm : m.malformed) (hu : endsLine u)
  | template (hk : m.kind = .template) (hm : m.malformed) (hu : u = [])
  | comment (hk : m.kind = .comment) (hu : u = [])

namespace Lexeme

theorem cutOff_string {quote : Char} {a u : Text} (ha : (string quote (a ++ u)).raw = quote :: a)
    (hu : (string quote (a ++ u)).unclosed) : (string quote (a ++ u)).CutOff u := by
  obtain ⟨body, r, ht, hb, ⟨-, -, hclosed⟩ | ⟨hr, -⟩⟩ := string_cases quote (a ++ u)
  · simp [hclosed] at hu
  · rw [raw_string, hb, if_pos hu, List.append_nil, List.cons_inj_right] at ha
    subst ha
    obtain rfl := List.append_cancel_left ht
    exact .line (.inl rfl) hu hr

theorem cutOff_regex [Primitives] {a u : Text} (ha : (regex (a ++ u)).raw = '/' :: a)
    (hu : (regex (a ++ u)).unclosed) : (regex (a ++ u)).CutOff u := by
  obtain ⟨pattern, r, ht, hp, ⟨r', rfl⟩ | hr⟩ := regex_cases (a ++ u)
  · rw [ht] at hp hu
    simp [(regex_closed hp).2.2.2] at hu
  · rw [ht] at hp ha
    obtain ⟨hvalue, hraw, hm, -⟩ := regex_unclosed hr hp
    rw [hraw, List.cons_inj_right] at ha
    subst ha
    obtain rfl := List.append_cancel_left ht
    exact .line (.inr (congrArg TokenValue.kind hvalue)) hm hr

theorem cutOff_lexeme [Primitives] {context : Context} {o : Opening} {c : Char} {a u : Text}
    (ho : o.Fits c (a ++ u)) (ha : (o.lexeme context c (a ++ u)).raw = c :: a)
    (hu : (o.lexeme context c (a ++ u)).unclosed) : (o.lexeme context c (a ++ u)).CutOff u := by
  cases o with
  | string => exact cutOff_string ha hu
  | template =>
    obtain rfl : c = '\x60' := ho
    exact .template rfl hu (eq_nil_of_unclosed_template ha hu)
  | blockComment =>
    obtain ⟨rfl, -⟩ := ho
    obtain ⟨a, rfl⟩ := exists_of_raw_blockComment ha
    exact .comment rfl (eq_nil_of_unclosed_blockComment ha hu)
  | regex =>
    obtain rfl : c = '/' := ho
    exact cutOff_regex ha hu
  | mark =>
    simp only [Opening.lexeme, mark] at hu
    split at hu <;> cases hu
  | _ => cases hu

/-- A lexeme is cut off by the end of its line or of the text. -/
theorem cutOff_scan [Primitives] {context : Context} {w u : Text}
    (hw : (scan context (w ++ u)).raw = w)
    (hu : (scan context (w ++ u)).unclosed) : (scan context (w ++ u)).CutOff u := by
  cases w with
  | nil =>
    cases u with
    | nil => cases hu
    | cons c t => exact absurd hw (raw_scanCons_ne_nil context c t)
  | cons c a =>
    rw [List.cons_append, scan, Opening.lexeme_of] at hw hu ⊢
    exact cutOff_lexeme (Opening.fits_of _ _ _) hw hu

def unclosedDiagnostics (m : Lexeme) (start stop : Position) : List Diagnostic :=
  if m.unclosed then
    (m.kind.unclosedIssue?.map fun i =>
      i.diagnostic (if m.kind = .comment then stop else start)).toList
  else []

theorem reported_followFrom_cut (m : Lexeme) (r : Reader) (start : Position)
    (visited : List Position) :
    (r.followFrom start visited m.cut).reported unclosedCodes = r.reported unclosedCodes ++
        m.unclosedDiagnostics start r.position ∧
      (r.followFrom start visited m.cut).position = r.position := by
  unfold unclosedDiagnostics cut
  cases m.unclosed with
  | false => exact ⟨(List.append_nil _).symm, rfl⟩
  | true =>
    cases hi : m.kind.unclosedIssue? with
    | none => exact ⟨(List.append_nil _).symm, rfl⟩
    | some i =>
      have hcode := TokenKind.code_of_unclosedIssue? hi
      have hreport : ∀ p, (r.report i p).reported unclosedCodes =
          r.reported unclosedCodes ++ [i.diagnostic p] := by
        intro p
        rw [Reader.reported_report, if_pos hcode]
      by_cases hk : m.kind = .comment
      · simp only [hk, if_true]
        exact ⟨hreport _, rfl⟩
      · simp only [hk, if_true, if_false]
        exact ⟨hreport _, rfl⟩

/-- A reader that follows a lexeme reports once that it is cut off. -/
theorem Reports.reported_follow {codes : List String} {m : Lexeme} (h : m.Reports codes)
    (hcodes : ∀ code ∈ codes, code ∉ unclosedCodes) (r : Reader) :
    (r.follow m.trace).reported unclosedCodes = r.reported unclosedCodes ++
      m.unclosedDiagnostics r.position (r.follow m.trace).position := by
  obtain ⟨s, s', htrace, hs, hs', htext⟩ := h
  obtain ⟨ps, hps⟩ := r.exists_followFrom_append r.position [] s
  obtain ⟨before, hbefore⟩ : ∃ before, r.followFrom r.position [] s = before := ⟨_, rfl⟩
  obtain ⟨ps', hps'⟩ := before.exists_followFrom_append r.position ps m.cut
  obtain ⟨cut, hcut⟩ : ∃ cut, before.followFrom r.position ps m.cut = cut := ⟨_, rfl⟩
  have hfollow : r.follow m.trace = cut.followFrom r.position ps' s' := by
    rw [Reader.follow, htrace, hps, hbefore, hps', hcut]
  have hsilent : ∀ {s : Trace}, s.Within codes → ∀ (r : Reader) (p : Position) (ps : List Position),
      (r.followFrom p ps s).reported unclosedCodes = r.reported unclosedCodes := by
    intro s hs
    exact Reader.reported_followFrom (by decide) (by decide) (hs.mono fun m hm => hcodes _ hm)
  have hstop : (r.follow m.trace).position = cut.position := by
    have hcursor := cut.cursor_followFrom r.position ps' s'
    rw [htext] at hcursor
    rw [hfollow]
    exact congrArg Cursor.position hcursor
  obtain ⟨hreported, hposition⟩ := m.reported_followFrom_cut before r.position ps
  rw [hstop, hfollow, hsilent hs', ← hsilent hs r r.position [], hbefore, ← hcut, hposition,
    hreported]

theorem reported_follow_scan [Primitives] (context : Context) (t : Text) (r : Reader) :
    (r.follow (scan context t).trace).reported unclosedCodes = r.reported unclosedCodes ++
      (scan context t).unclosedDiagnostics r.position
        (r.follow (scan context t).trace).position := by
  cases t with
  | nil => exact (List.append_nil _).symm
  | cons c t =>
    have hcodes : ∀ o : Opening, ∀ code ∈ o.codes, code ∉ unclosedCodes := by
      intro o
      cases o <;> decide
    rw [scan, Opening.lexeme_of]
    exact (Opening.reports_lexeme context c t _).reported_follow (hcodes _) r

theorem CutOff.exists_issue {m : Lexeme} {u : Text} (h : m.CutOff u) :
    ∃ i, m.kind.unclosedIssue? = some i := by
  cases h with
  | line hk => rcases hk with hk | hk <;> exact ⟨_, by rw [hk]; rfl⟩
  | template hk => exact ⟨_, by rw [hk]; rfl⟩
  | comment hk => exact ⟨_, by rw [hk]; rfl⟩

end Lexeme

namespace Lexer

variable [Primitives]

theorem reported_reading (l : Lexer) : l.reading.after.reported unclosedCodes =
    l.reader.reported unclosedCodes ++
      l.reading.lexeme.unclosedDiagnostics l.reading.before.position l.reading.after.position := by
  have hbefore : l.reading.before.reported unclosedCodes = l.reader.reported unclosedCodes := by
    rw [before_reading]
    exact Reader.reported_followFrom (by decide) (by decide)
      ((within_gap _).mono fun m hm => by simp_all [Remark.HasCode, unclosedCodes]) _ _ _
  have hposition : l.reading.after.position =
      (l.reading.before.follow l.reading.lexeme.trace).position :=
    congrArg Cursor.position l.after_reading.1
  have hafter : l.reading.after.reported unclosedCodes =
      (l.reading.before.follow l.reading.lexeme.trace).reported unclosedCodes := by
    rw [after_reading_eq]
    split
    · exact Reader.reported_checkLine_of_disjoint (by decide) _ _
    · rfl
  rw [hafter, hposition, ← hbefore]
  exact Lexeme.reported_follow_scan _ _ _

theorem cutOff_reading {l : Lexer} {g w u : Text} (h : NextCut l g w u)
    (hu : l.reading.lexeme.unclosed) : l.reading.lexeme.CutOff u := by
  have hraw := h.raw
  rw [h.lexeme] at hraw hu ⊢
  exact Lexeme.cutOff_scan hraw hu

/-- What a run adds to the reports of tokens that are cut off are those of its own tokens. -/
theorem exists_reported (l : Lexer) : ∃ ds,
    l.tokens.2.reader.reported unclosedCodes = l.reader.reported unclosedCodes ++ ds ∧
    ((l.readings.map Reading.token).filter Token.unclosed).map Token.unclosedDiagnostic? =
      ds.map some := by
  induction l using readings_induction with
  | finished l h =>
    rw [tokens_of_finished h, readings_of_finished h]
    exact ⟨[], (List.append_nil _).symm, rfl⟩
  | reading l h ih =>
    obtain ⟨ds, hreported, hmap⟩ := ih
    obtain ⟨g, w, u, hc⟩ := exists_nextCut l
    rw [reported_behind, reported_reading, List.append_assoc] at hreported
    rw [tokens_behind h, readings_of_not_finished h, List.map_cons]
    refine ⟨_, hreported, ?_⟩
    cases hu : l.reading.lexeme.unclosed with
    | false =>
      have hskip : l.reading.token.unclosed = false := hu
      rw [List.filter_cons_of_neg (by simp [hskip]), hmap, Lexeme.unclosedDiagnostics, hu]
      rfl
    -- A comment is reported where the reader stands behind it, any other token where it starts.
    | true =>
      have hkeep : l.reading.token.unclosed = true := hu
      obtain ⟨i, hi⟩ := (cutOff_reading hc hu).exists_issue
      have htoken : l.reading.token.unclosedDiagnostic? = some (i.diagnostic
          (if l.reading.lexeme.kind = .comment then l.reading.after.position
            else l.reading.before.position)) := by
        have hk : l.reading.token.kind = l.reading.lexeme.kind := rfl
        have hcomment : l.reading.token.isComment = decide (l.reading.lexeme.kind = .comment) := rfl
        rw [Token.unclosedDiagnostic?, hk, hi, hcomment]
        simp only [Option.map_some, decide_eq_true_eq]
        rfl
      rw [List.filter_cons_of_pos hkeep, List.map_cons, hmap, htoken,
        Lexeme.unclosedDiagnostics, hu, hi]
      rfl

end Lexer

/-- What cuts off a token of the text `t`. -/
structure Token.CutOff (t : Text) (k : Token) : Prop where
  malformed : k.isComment = false → k.malformed
  line : k.kind = .string ∨ k.kind = .regex →
    ∃ p u, t = p ++ u ∧ p.utf8Size = k.range.2 ∧ endsLine u
  text : k.kind = .template ∨ k.kind = .comment → k.range.2 = t.utf8Size

theorem Lexeme.CutOff.token {s : Lexer.Reading} {t p u : Text} (h : s.lexeme.CutOff u)
    (ht : t = p ++ u) (hp : p.utf8Size = s.after.offset) : s.token.CutOff t := by
  have hkind : s.token.kind = s.lexeme.kind := rfl
  have hend : u = [] → s.token.range.2 = t.utf8Size := by
    rintro rfl
    rw [ht, List.append_nil, hp]
    rfl
  cases h with
  | line hk hm hu =>
    refine ⟨fun _ => hm, fun _ => ⟨p, u, ht, hp, hu⟩, ?_⟩
    rw [hkind]
    rcases hk with hk | hk <;> simp [hk]
  | template hk hm hu =>
    refine ⟨fun _ => hm, ?_, fun _ => hend hu⟩
    simp [hkind, hk]
  | comment hk hu =>
    refine ⟨?_, ?_, fun _ => hend hu⟩
    · simp [Token.isComment, hkind, hk]
    · simp [hkind, hk]

namespace Lexer

/-- The tokens of a run are cut off by the ends of lines and by the end of the text. -/
theorem cutOff_of_mem_readings [Primitives] {l : Lexer} {t p : Text} (ht : t = p ++ l.reader.rest)
    (hp : p.utf8Size = l.reader.offset) :
    ∀ s ∈ l.readings, s.token.unclosed → s.token.CutOff t := by
  induction l using readings_induction generalizing p with
  | finished l h => simp [readings_of_finished h]
  | reading l h ih =>
    obtain ⟨g, w, u, hc⟩ := exists_nextCut l
    have htext : t = (p ++ g ++ w) ++ u := by rw [ht, hc.text]; simp
    have hsize : (p ++ g ++ w).utf8Size = l.reading.after.offset := by
      rw [hc.offset_after, ← hp]
      simp [Nat.add_assoc]
    rw [readings_of_not_finished h]
    refine List.forall_mem_cons.mpr ⟨fun hu => ?_, ?_⟩
    · exact (cutOff_reading hc hu).token htext hsize
    · refine ih (p := p ++ g ++ w) ?_ ?_
      · rw [hc.rest_behind, htext]
      · rw [NextCut.offset_behind, hsize]

/-- The tokens that are cut off are reported, each of them once and in the order of the text. -/
theorem unclosed_tokens [Primitives] (t : Text) (o : Options) :
    ((start t o true).tokens.1.filter Token.unclosed).map Token.unclosedDiagnostic? =
        ((start t o true).tokens.2.diagnostics.toList.filter
          fun d => unclosedCodes.contains d.code).map some ∧
      ∀ k ∈ (start t o true).tokens.1, k.unclosed → k.CutOff t := by
  rw [tokens_start]
  constructor
  · obtain ⟨ds, hreported, hmap⟩ := exists_reported (start t o true)
    rw [hmap]
    exact congrArg (List.map some) hreported.symm
  · obtain ⟨r, ht, hrest, hoffset⟩ := exists_rest t o true
    intro k hk hu
    obtain ⟨s, hs, rfl⟩ := List.mem_map.mp hk
    exact cutOff_of_mem_readings (hrest.symm ▸ ht) hoffset.symm s hs hu

end Lexer

end EcmaLex
