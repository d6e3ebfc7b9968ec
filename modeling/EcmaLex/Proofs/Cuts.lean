import EcmaLex.Proofs.Cursor
import EcmaLex.Proofs.Extent.Scan
import EcmaLex.Proofs.Gap
import EcmaLex.Proofs.Run

/-!
# Cuts

A run cuts its text into gaps and lexemes. The cut is determined by the text and by the context in
which it starts, and what is cut out has its content from the text and from whether a slash opens a
regular expression there.
-/

namespace EcmaLex

def Context.behind (context : Context) (m : Lexeme) : Context :=
  if m.kind = .comment then context else context.update m.kind m.raw

theorem Context.regexAllowed_behind {context context' : Context} {m n : Lexeme}
    (hc : context.regexAllowed = context'.regexAllowed) (h : m.content = n.content) :
    (context.behind m).regexAllowed = (context'.behind n).regexAllowed := by
  have hk : m.kind = n.kind := congrArg Content.kind h
  have hr : m.raw = n.raw := congrArg Content.raw h
  unfold behind
  rw [hk, hr]
  split
  · exact hc
  · rfl

theorem Context.regexAllowed_behind_significant (context context' : Context) {m n : Lexeme}
    (hm : m.kind ≠ .comment) (h : m.content = n.content) :
    (context.behind m).regexAllowed = (context'.behind n).regexAllowed := by
  have hk : m.kind = n.kind := congrArg Content.kind h
  have hr : m.raw = n.raw := congrArg Content.raw h
  rw [behind, behind, if_neg hm, if_neg (hk ▸ hm), hk, hr]
  rfl

theorem Context.behind_congr {m n : Lexeme} (context : Context) (h : m.content = n.content) :
    context.behind m = context.behind n := by
  have hk : m.kind = n.kind := congrArg Content.kind h
  have hr : m.raw = n.raw := congrArg Content.raw h
  rw [behind, behind, hk, hr]

namespace Lexeme

theorem kind_scanCons_ne_eof [Primitives] (context : Context) (c : Char) (t : Text) :
    (scanCons context c t).kind ≠ .eof := by
  have hkinds : ∀ o : Opening, TokenKind.eof ∉ o.kinds := by
    intro o
    cases o <;> decide
  rw [Opening.lexeme_of]
  intro hk
  exact hkinds _ (hk ▸ Opening.kind_mem_kinds context c t _)

end Lexeme

theorem Skippable.cancel {g g' r r' : Text} (hg : Skippable g) (hg' : Skippable g')
    (hr : startsToken r) (hr' : startsToken r') (h : g ++ r = g' ++ r') : g = g' ∧ r = r' := by
  have hgap := hg.text_gap_append r
  have hgap' := hg'.text_gap_append r'
  rw [gap_of_startsToken hr, Trace.text_nil, List.append_nil] at hgap
  rw [gap_of_startsToken hr', Trace.text_nil, List.append_nil, ← h, hgap] at hgap'
  subst hgap'
  exact ⟨rfl, List.append_cancel_left h⟩

theorem Lexer.after_reading [Primitives] (l : Lexer) :
    l.reading.after.cursor = (l.reading.before.follow l.reading.lexeme.trace).cursor ∧
      l.reading.after.leftLine = (l.reading.before.follow l.reading.lexeme.trace).leftLine := by
  unfold reading
  simp only
  split
  · exact ⟨rfl, rfl⟩
  · exact ⟨rfl, rfl⟩

structure NextCut [Primitives] (l : Lexer) (g w u : Text) : Prop where
  text : l.reader.rest = g ++ (w ++ u)
  gap : (gap l.reader.rest).text = g
  skippable : Skippable g
  starts : startsToken (w ++ u)
  lexeme : l.reading.lexeme = Lexeme.scan l.context (w ++ u)
  raw : l.reading.lexeme.raw = w
  before : l.reading.before.rest = w ++ u
  after : l.reading.after.rest = u
  eof : w = [] → u = []

theorem exists_nextCut [Primitives] (l : Lexer) : ∃ g w u, NextCut l g w u := by
  obtain ⟨r, hr, hstart, hskip⟩ := exists_gap l.reader.rest
  obtain ⟨g, hg⟩ : ∃ g, (gap l.reader.rest).text = g := ⟨_, rfl⟩
  rw [hg] at hr hskip
  have hbefore : l.reading.before.rest = r := by
    have hf : l.reading.before = l.reader.follow (gap l.reader.rest) := rfl
    rw [hf, Reader.rest_follow, hg, hr, List.drop_left]
  have hlexeme : l.reading.lexeme = Lexeme.scan l.context r := hbefore ▸ rfl
  obtain ⟨u, hu⟩ := Lexeme.scan_prefix l.context r
  rw [← hlexeme] at hu
  have hafter : l.reading.after.rest = u := by
    have hf : l.reading.after.rest = (l.reading.before.follow l.reading.lexeme.trace).rest :=
      congrArg Cursor.rest l.after_reading.1
    rw [hf, Reader.rest_follow, hbefore, ← hu]
    exact List.drop_left
  refine ⟨g, l.reading.lexeme.raw, u, ?_, hg, hskip, ?_, ?_, rfl, ?_, hafter, ?_⟩
  · rw [hu, hr]
  · rw [hu]
    exact hstart
  · rw [hu]
    exact hlexeme
  · rw [hu]
    exact hbefore
  · intro hw
    cases r with
    | nil => exact (List.append_eq_nil_iff.mp hu).2
    | cons c t =>
      rw [hlexeme] at hw
      exact absurd hw (Lexeme.raw_scanCons_ne_nil l.context c t)

namespace Lexer

theorem rest_eq_gap_append [Primitives] (l : Lexer) :
    l.reader.rest = (gap l.reader.rest).text ++ l.reading.before.rest := by
  obtain ⟨g, w, u, hc⟩ := exists_nextCut l
  rw [hc.gap, hc.before, hc.text]

theorem rest_before_eq_append [Primitives] (l : Lexer) :
    l.reading.before.rest = l.reading.lexeme.trace.text ++ l.reading.after.rest := by
  obtain ⟨g, w, u, hc⟩ := exists_nextCut l
  have hraw : l.reading.lexeme.trace.text = w := hc.raw
  rw [hraw, hc.before, hc.after]

end Lexer

namespace NextCut

variable [Primitives] {l : Lexer} {g w u : Text}

theorem kind_eq_eof_iff (h : NextCut l g w u) : l.reading.lexeme.kind = .eof ↔ w = [] := by
  constructor
  · intro hk
    rw [h.lexeme] at hk
    cases hwu : w ++ u with
    | nil => exact (List.append_eq_nil_iff.mp hwu).1
    | cons c t =>
      rw [hwu] at hk
      exact absurd hk (Lexeme.kind_scanCons_ne_eof l.context c t)
  · intro hw
    rw [h.lexeme, hw, h.eof hw]
    rfl

theorem cursor_before (h : NextCut l g w u) :
    l.reading.before.cursor = l.reader.cursor.advanceBy g.length := by
  have hf : l.reading.before = l.reader.follow (EcmaLex.gap l.reader.rest) := rfl
  rw [hf, Reader.cursor_follow, h.gap]

theorem cursor_after (h : NextCut l g w u) :
    l.reading.after.cursor = l.reading.before.cursor.advanceBy w.length := by
  have hw : l.reading.lexeme.trace.text = w := h.raw
  rw [l.after_reading.1, Reader.cursor_follow, hw]

theorem cursor_behind (l : Lexer) :
    (l.behind l.reading).reader.cursor = l.reading.after.cursor :=
  l.reader_behind Reader.cursor (fun _ => rfl) l.reading

theorem offset_before (h : NextCut l g w u) :
    l.reading.before.offset = l.reader.offset + g.utf8Size := by
  have hadv := (Cursor.advanceBy_append (k := l.reader.cursor) h.text).2
  rwa [← h.cursor_before] at hadv

theorem offset_after (h : NextCut l g w u) :
    l.reading.after.offset = l.reader.offset + g.utf8Size + w.utf8Size := by
  have hadv := (Cursor.advanceBy_append (k := l.reading.before.cursor) h.before).2
  rw [← h.cursor_after] at hadv
  rw [← h.offset_before]
  exact hadv

theorem offset_behind (l : Lexer) :
    (l.behind l.reading).reader.offset = l.reading.after.offset :=
  congrArg Cursor.offset (cursor_behind l)

theorem lexeme_eq_eof (h : NextCut l g [] u) : l.reading.lexeme = Lexeme.eof := by
  rw [h.lexeme, h.eof rfl]
  rfl

theorem finished_behind (hf : l.finished = false) (h : NextCut l g w u) :
    (l.behind l.reading).finished = true ↔ w = [] := by
  rw [← h.kind_eq_eof_iff]
  unfold Lexer.behind
  split <;> simp_all

theorem not_finished_behind (hf : l.finished = false) (h : NextCut l g w u) (hw : w ≠ []) :
    (l.behind l.reading).finished = false := by
  rw [Bool.eq_false_iff, Ne, h.finished_behind hf]
  exact hw

theorem rest_behind (h : NextCut l g w u) : (l.behind l.reading).reader.rest = u :=
  (l.reader_behind Reader.rest (fun _ => rfl) l.reading).trans h.after

theorem context_behind (h : NextCut l g w u) (hw : w ≠ []) :
    (l.behind l.reading).context = l.context.behind l.reading.lexeme := by
  have hk : l.reading.lexeme.kind ≠ .eof := fun hk => hw (h.kind_eq_eof_iff.mp hk)
  unfold Lexer.behind Context.behind
  split <;> simp_all

end NextCut

/-- A reading leaves a line if and only if it ends on another one than it started on. -/
theorem NextCut.leftLine_after [Primitives] {l : Lexer} {g w u : Text} (h : NextCut l g w u) :
    l.reading.after.leftLine = (l.reader.leftLine ||
      decide (l.reading.after.cursor.position.line ≠ l.reader.cursor.position.line)) := by
  have hbefore : l.reading.before = l.reader.follow (EcmaLex.gap l.reader.rest) := rfl
  have h₁ : l.reader.cursor.position.line ≤ l.reading.before.cursor.position.line := by
    rw [h.cursor_before]
    exact Cursor.line_le_advanceBy _ _
  have h₂ : l.reading.before.cursor.position.line ≤ l.reading.after.cursor.position.line := by
    rw [h.cursor_after]
    exact Cursor.line_le_advanceBy _ _
  rw [l.after_reading.2, Reader.leftLine_follow, ← l.after_reading.1, hbefore,
    Reader.leftLine_follow, ← hbefore]
  exact Cursor.leftLine_trans h₁ h₂

theorem nextCut_of_text [Primitives] {l : Lexer} {g w u : Text} (ht : l.reader.rest = g ++ (w ++ u))
    (hg : Skippable g) (hs : startsToken (w ++ u))
    (hraw : (Lexeme.scan l.context (w ++ u)).raw = w) : NextCut l g w u := by
  obtain ⟨g', w', u', h⟩ := exists_nextCut l
  obtain ⟨rfl, hr⟩ := hg.cancel h.skippable hs h.starts (ht.symm.trans h.text)
  have hw := h.raw
  rw [h.lexeme, ← hr, hraw] at hw
  subst hw
  obtain rfl := List.append_cancel_left hr
  exact h

/-- A text is cut into lexemes, each read in the context that those before it leave. -/
inductive Cuts [Primitives] : Context → Text → List Lexeme → Prop where
  | done {context : Context} {g : Text} (hg : Skippable g) : Cuts context g []
  | more {context : Context} {g : Text} {c : Char} {a u : Text} {ms : List Lexeme}
      (hg : Skippable g) (hs : startsToken (c :: (a ++ u)))
      (hraw : (Lexeme.scanCons context c (a ++ u)).raw = c :: a)
      (h : Cuts (context.behind (Lexeme.scanCons context c (a ++ u))) u ms) :
      Cuts context (g ++ c :: (a ++ u)) (Lexeme.scanCons context c (a ++ u) :: ms)

namespace Cuts

variable [Primitives]

theorem gap {context : Context} {g t : Text} {ms : List Lexeme} (hg : Skippable g)
    (h : Cuts context t ms) : Cuts context (g ++ t) ms := by
  cases h with
  | done ht => exact .done (hg.append ht)
  | more hg' hs hraw h =>
    rw [← List.append_assoc]
    exact .more (hg.append hg') hs hraw h

theorem kind_ne_eof {context : Context} {t : Text} {ms : List Lexeme} (h : Cuts context t ms) :
    ∀ m ∈ ms, m.kind ≠ .eof := by
  induction h with
  | done => simp
  | more _ _ _ _ ih => exact List.forall_mem_cons.mpr ⟨Lexeme.kind_scanCons_ne_eof _ _ _, ih⟩

theorem eq_nil {context : Context} {ms : List Lexeme} (h : Cuts context [] ms) : ms = [] := by
  generalize ht : ([] : Text) = t at h
  cases h with
  | done => rfl
  | more => simp at ht

theorem unique {context : Context} {t : Text} {ms ns : List Lexeme} (h : Cuts context t ms)
    (h' : Cuts context t ns) : ms = ns := by
  induction h generalizing ns with
  | @done context g hg =>
    generalize ht : g = t at h'
    cases h' with
    | done => rfl
    | @more context g' c a u ms hg' hs hraw h =>
      have hnil : g ++ [] = g' ++ c :: (a ++ u) := by rw [List.append_nil, ht]
      obtain ⟨-, hc⟩ := hg.cancel hg' rfl hs hnil
      simp at hc
  | @more context g c a u ms hg hs hraw h ih =>
    generalize ht : g ++ c :: (a ++ u) = t at h'
    cases h' with
    | @done context t ht' =>
      have hnil : g ++ c :: (a ++ u) = t ++ [] := by rw [List.append_nil, ht]
      obtain ⟨-, hc⟩ := hg.cancel ht' hs rfl hnil
      simp at hc
    | @more context g' c' a' u' ns hg' hs' hraw' h' =>
      obtain ⟨rfl, hr⟩ := hg.cancel hg' hs hs' ht
      obtain ⟨rfl, hau⟩ := List.cons.inj hr
      rw [hau, hraw'] at hraw
      obtain rfl : a' = a := (List.cons.inj hraw).2
      obtain rfl : u = u' := List.append_cancel_left hau
      rw [ih h']

end Cuts

namespace Lexer

/-- The readings of a run cut its text, and the last one is the end of the text. -/
theorem exists_cuts [Primitives] (l : Lexer) (hf : l.finished = false) :
    ∃ ms, Cuts l.context l.reader.rest ms ∧
      l.readings.map Reading.lexeme = ms ++ [Lexeme.eof] := by
  induction l using readings_induction with
  | finished l h => simp [h] at hf
  | reading l h ih =>
    obtain ⟨g, w, u, hc⟩ := exists_nextCut l
    rw [readings_of_not_finished h, List.map_cons]
    cases w with
    | nil =>
      have hfin := (hc.finished_behind h).mpr rfl
      rw [readings_of_finished hfin, hc.lexeme_eq_eof, hc.text, hc.eof rfl]
      refine ⟨[], .done ?_, rfl⟩
      simpa using hc.skippable
    | cons c a =>
      obtain ⟨ms, hms, hmap⟩ := ih (hc.not_finished_behind h (by simp))
      have hscan : l.reading.lexeme = Lexeme.scanCons l.context c (a ++ u) := hc.lexeme
      rw [hc.context_behind (by simp), hc.rest_behind, hscan] at hms
      refine ⟨Lexeme.scanCons l.context c (a ++ u) :: ms, ?_, ?_⟩
      · rw [hc.text]
        exact .more hc.skippable hc.starts (hscan ▸ hc.raw) hms
      · rw [hmap, hscan, List.cons_append]

theorem contents_filter_yields (l : Lexer) (rs : List Reading) :
    ((rs.filter l.yields).map Reading.token).map Token.content =
      ((rs.map Reading.lexeme).map Lexeme.content).filter
        (fun k => l.withComments || !k.isComment) := by
  have hyields : l.yields =
      (fun k => l.withComments || !k.isComment) ∘ Lexeme.content ∘ Reading.lexeme := rfl
  have hcontent : Token.content ∘ Reading.token = Lexeme.content ∘ Reading.lexeme := rfl
  rw [List.map_map, hcontent, hyields, ← List.filter_map, ← List.map_map]

theorem contents_tokens [Primitives] {l : Lexer} (hf : l.finished = false) {ms : List Lexeme}
    (h : Cuts l.context l.reader.rest ms) :
    l.tokens.1.map Token.content =
      (ms.map Lexeme.content).filter (fun k => l.withComments || !k.isComment) ++
        [Lexeme.eof.content] := by
  obtain ⟨ns, hns, hmap⟩ := exists_cuts l hf
  obtain rfl := h.unique hns
  rw [tokens_eq_map_readings, contents_filter_yields, hmap, List.map_append, List.filter_append]
  congr 1
  exact List.filter_cons_of_pos (Bool.or_true _)

end Lexer

namespace Lexed

variable {t : Text} {o : Options} {ms : List Lexeme}

theorem contents_tokens [Primitives] (h : Cuts {} (Lexer.ofText t o).reader.rest ms) :
    (lex t o).tokens.map Token.content =
      (ms.map Lexeme.content).filter (!·.isComment) ++ [Lexeme.eof.content] :=
  Lexer.contents_tokens (l := Lexer.ofText t o) rfl h

theorem contents_body [Primitives] (h : Cuts {} (Lexer.ofText t o).reader.rest ms) :
    ((lex t o).tokens.filter (!·.isEof)).map Token.content =
      (ms.map Lexeme.content).filter (!·.isComment) := by
  have hcomp : (fun k : Token => !k.isEof) = (fun k : Content => !k.isEof) ∘ Token.content := rfl
  have hself : ∀ k ∈ (ms.map Lexeme.content).filter (!·.isComment), !k.isEof := by
    intro k hk
    obtain ⟨m, hm, rfl⟩ := List.mem_map.mp (List.mem_filter.mp hk).1
    simp [Content.isEof, Lexeme.content, h.kind_ne_eof m hm]
  rw [hcomp, ← List.filter_map, contents_tokens h, List.filter_append,
    List.filter_eq_self.mpr hself]
  exact List.append_nil _

end Lexed

/-- Contexts that agree on slashes cut a text into lexemes of the same contents. -/
theorem Cuts.congr [Primitives] {context context' : Context} {t : Text} {ms : List Lexeme}
    (h : Cuts context t ms) (hr : context.regexAllowed = context'.regexAllowed) :
    ∃ ns, Cuts context' t ns ∧ ns.map Lexeme.content = ms.map Lexeme.content := by
  induction h generalizing context' with
  | done hg => exact ⟨[], .done hg, rfl⟩
  | @more context g c a u ms hg hs hraw h ih =>
    have hcontent : (Lexeme.scanCons context' c (a ++ u)).content =
        (Lexeme.scanCons context c (a ++ u)).content :=
      Lexeme.content_scan_congr hr.symm (c :: (a ++ u))
    obtain ⟨ns, hns, hmap⟩ := ih (Context.regexAllowed_behind hr hcontent.symm)
    have hraw' := (congrArg Content.raw hcontent).trans hraw
    exact ⟨_, .more hg hs hraw' hns, by rw [List.map_cons, List.map_cons, hcontent, hmap]⟩

namespace Cuts

variable {context : Context} {t : Text} {ms : List Lexeme}

/-- Unless a slash comes next, a text is cut in the same way in every context. -/
theorem congr_of_slashNext [UnicodePrimitives] (context' : Context) (h : Cuts context t ms)
    (hs : Content.slashNext (ms.map Lexeme.content) = false) :
    ∃ ns, Cuts context' t ns ∧ ns.map Lexeme.content = ms.map Lexeme.content := by
  induction h with
  | done hg => exact ⟨[], .done hg, rfl⟩
  | @more context g c a u ms hg hstart hraw h ih =>
    rw [List.map_cons, Content.slashNext_cons] at hs
    -- A lexeme that starts with a slash, up to the first that counts, is a comment.
    have hslash : c = '/' → (Lexeme.scanCons context c (a ++ u)).kind = .comment := by
      rintro rfl
      by_contra hk
      have hraw' : (Lexeme.scanCons context '/' (a ++ u)).content.raw = '/' :: a := hraw
      simp [hk, hraw'] at hs
    have hcontent := Lexeme.content_scanCons_congr hslash context'
    have hraw' := (congrArg Content.raw hcontent).trans hraw
    by_cases hk : (Lexeme.scanCons context c (a ++ u)).kind = .comment
    · -- The context behind a comment is the one before it.
      have hk' : (Lexeme.scanCons context' c (a ++ u)).kind = .comment :=
        (congrArg Content.kind hcontent).trans hk
      rw [if_pos (by simpa using hk)] at hs
      obtain ⟨ns, hns, hmap⟩ := ih hs
      refine ⟨Lexeme.scanCons context' c (a ++ u) :: ns, .more hg hstart hraw' ?_,
        by rw [List.map_cons, List.map_cons, hmap, hcontent]⟩
      rwa [Context.behind, if_pos hk']
    · obtain ⟨ns, hns, hmap⟩ :=
        h.congr (Context.regexAllowed_behind_significant context context' hk hcontent.symm)
      exact ⟨_, .more hg hstart hraw' hns, by rw [List.map_cons, List.map_cons, hmap, hcontent]⟩

/-- A slash that comes next opens a regular expression where one is allowed. -/
theorem kind_slash [UnicodePrimitives] (h : Cuts context t ms) {k : Content}
    (hk : (ms.map Lexeme.content).find? (!·.isComment) = some k) (hs : k.raw.head? = some '/') :
    k.kind = if context.regexAllowed then .regex else .punctuator := by
  induction h with
  | done hg => simp at hk
  | @more context g c a u ms hg hstart hraw h ih =>
    rw [List.map_cons] at hk
    by_cases hcomment : (Lexeme.scanCons context c (a ++ u)).kind = .comment
    · rw [List.find?_cons_of_neg (by simpa using hcomment)] at hk
      rw [Context.behind, if_pos hcomment] at ih
      exact ih hk
    · rw [List.find?_cons_of_pos (by simpa using hcomment)] at hk
      obtain rfl := Option.some.inj hk
      have hraw' : (Lexeme.scanCons context c (a ++ u)).content.raw = c :: a := hraw
      obtain rfl : c = '/' := by simpa [hraw'] using hs
      have hkind := Lexeme.kind_scanCons_slash context (a ++ u)
      by_cases hnext : (a ++ u).head? = some '/' ∨ (a ++ u).head? = some '*'
      · exact absurd (hkind.trans (if_pos hnext)) hcomment
      · exact hkind.trans (if_neg hnext)

end Cuts

end EcmaLex
