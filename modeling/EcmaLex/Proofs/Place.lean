import EcmaLex.Proofs.Cuts
import EcmaLex.Proofs.Spelling

/-!
# Places

A token stands at a place of its text: what stands before it is cut into gaps and lexemes that end
where the token starts. How that part is cut depends on what stands behind it, but not much.
-/

namespace EcmaLex

open Text (Echoes isOpen)

/-- A text is cut into gaps and lexemes, each of them read with `n` behind the text. -/
inductive CutsBefore [Primitives] (n : Text) : Context → Text → List Lexeme → Prop where
  | done {context : Context} {g : Text} (hg : Skippable g) : CutsBefore n context g []
  | more {context : Context} {g : Text} {c : Char} {a p : Text} {ms : List Lexeme}
      (hg : Skippable g) (hs : startsToken (c :: (a ++ (p ++ n))))
      (hraw : (Lexeme.scanCons context c (a ++ (p ++ n))).raw = c :: a)
      (h : CutsBefore n (context.behind (Lexeme.scanCons context c (a ++ (p ++ n)))) p ms) :
      CutsBefore n context (g ++ c :: (a ++ p)) (Lexeme.scanCons context c (a ++ (p ++ n)) :: ms)

/-- What a name starts with is neither a digit nor a line terminator. -/
theorem Name.exists_cons_of_begins [UnicodePrimitives] {n : Text} (hn : Name.begins n) :
    ∃ c t, n = c :: t ∧ c.isDigit = false ∧ isLineTerminator c = false := by
  cases n with
  | nil => simp [Name.begins] at hn
  | cons c t =>
    refine ⟨c, t, rfl, ?_⟩
    rcases (Opening.begins_name_iff c t).mp hn with ⟨rfl, -⟩ | hc
    · decide
    · refine ⟨isDigit_of_isWordStart hc, ?_⟩
      rw [Bool.eq_false_iff]
      intro hl
      have hprintable := ofChar_of_isWordStart hc
      simp [CharClass.ofChar, hl] at hprintable

theorem NamePart.begins_of_name_begins [Primitives] {n : Text} (hn : Name.begins n) :
    NamePart.begins n := by
  cases n with
  | nil => simp [Name.begins] at hn
  | cons c t =>
    rcases (Opening.begins_name_iff c t).mp hn with ⟨rfl, ht⟩ | hc
    · obtain ⟨t, rfl⟩ := List.head?_eq_some_iff.mp ht
      rfl
    · exact NamePart.begins_char (isWordPart_of_isWordStart hc) t

/-- A lexeme before a name admits a space or a backslash in its place. -/
theorem Lexeme.admits_closed [UnicodePrimitives] {m : Lexeme} {q n v : Text} {d : Char}
    (hn : Name.begins n)
    (hv : v.head? = some d) (hd : d = ' ' ∨ d = '\\')
    (hcut : m.unclosed → m.kind = .template ∨ m.kind = .comment → q ++ n = []) :
    m.Admits (q ++ n) (q ++ v) := by
  obtain ⟨c, t, rfl, hdigit, hline⟩ := Name.exists_cons_of_begins hn
  obtain ⟨v, rfl⟩ := List.head?_eq_some_iff.mp hv
  have hclosed : isOpen d = false := by rcases hd with rfl | rfl <;> rfl
  have hechoes : Echoes (d :: v) (c :: t) := by
    rw [Echoes, List.takeWhile_cons_of_neg (by simp [hclosed])]
    exact List.nil_prefix
  exact {
    continues := {
      echoes := Text.echoes_append q hechoes
      lone := by simp
      paired := by
        intro hv hu
        cases q with
        | nil =>
          obtain rfl : d = '\n' := by simpa using hv
          simp at hd
        | cons e q => exact absurd hv hu }
    escape := by
      rintro ⟨r, hr⟩
      match q with
      | [] => exact NamePart.begins_of_name_begins hn
      | [e] =>
        obtain ⟨-, rfl, -⟩ : '\\' = e ∧ 'u' = d ∧ r = v := by simpa using hr
        simp at hd
      | e :: f :: q =>
        obtain ⟨rfl, rfl, -⟩ : '\\' = e ∧ 'u' = f ∧ r = q ++ d :: v := by simpa using hr
        rfl
    number := by
      intro hb hh
      match q with
      | [] =>
        rw [List.nil_append, Opening.begins_number_iff] at hb
        obtain rfl : d = c := by simpa using hh
        rcases hb with ⟨rfl, -⟩ | hb
        · simp at hd
        · simp [hdigit] at hb
      | [e] =>
        have he : e.isDigit := by simpa [Opening.begins_number_iff, hdigit] using hb
        exact (Opening.begins_number_iff e (d :: v)).mpr (.inr he)
      | e :: f :: q => simpa [Opening.begins_number_iff] using hb
    ends := by
      intro hu
      cases q with
      | nil => simp [Text.endsLine, hline] at hu
      | cons e q => exact hu
    cut := fun hu hk => absurd (hcut hu hk) (by simp) }

namespace CutsBefore

variable {n v p : Text} {context context' : Context} {ms ns : List Lexeme}

theorem cuts [Primitives] (h : CutsBefore n context p ms)
    (hn : Cuts (ms.foldl Context.behind context) n ns) :
    Cuts context (p ++ n) (ms ++ ns) := by
  induction h with
  | done hg => exact hn.gap hg
  | more hg hs hraw h ih =>
    rw [List.append_assoc, List.cons_append, List.append_assoc]
    exact .more hg hs hraw (ih hn)

/-- What stands before a name is cut in the same way if a space or a backslash starts what stands
there in its place. -/
theorem replace [UnicodePrimitives] {d : Char} (hn : Name.begins n) (hv : v.head? = some d)
    (hd : d = ' ' ∨ d = '\\')
    (h : CutsBefore n context p ms) (hr : context.regexAllowed = context'.regexAllowed) :
    ∃ ns, CutsBefore v context' p ns ∧ ns.map Lexeme.content = ms.map Lexeme.content := by
  induction h generalizing context' with
  | done hg => exact ⟨[], .done hg, rfl⟩
  | @more context g c a p ms hg hs hraw h ih =>
    have hadmits := Lexeme.admits_closed hn hv hd (Lexeme.scanCons_eq_nil_of_unclosed hraw)
    have hcontent := Lexeme.scanCons_resume hr hraw hadmits
    have hstart := startsToken_resume hs hadmits.continues.echoes
    have hraw' := (congrArg Content.raw hcontent).trans hraw
    obtain ⟨ns, hns, hmap⟩ := ih (Context.regexAllowed_behind hr hcontent.symm)
    exact ⟨_, .more hg hstart hraw' hns, by rw [List.map_cons, List.map_cons, hcontent, hmap]⟩

theorem contents_eq [UnicodePrimitives] {n' : Text} (hn : Name.begins n) (hn' : Name.begins n')
    (h : CutsBefore n context p ms) (h' : CutsBefore n' context' p ns)
    (hr : context.regexAllowed = context'.regexAllowed) :
    ns.map Lexeme.content = ms.map Lexeme.content := by
  have hspace : ∀ {context : Context} {ms : List Lexeme}, CutsBefore [' '] context p ms →
      Cuts context (p ++ [' ']) (ms ++ []) := fun h => h.cuts (.done (.char (by decide) .nil))
  obtain ⟨ms', hms, hcontents⟩ := h.replace hn (v := [' ']) rfl (.inl rfl) hr
  obtain ⟨ns', hns, hcontents'⟩ := h'.replace hn' (v := [' ']) rfl (.inl rfl) (Eq.refl _)
  rw [← hcontents, ← hcontents',
    List.append_cancel_right ((hspace hms).unique (hspace hns))]

end CutsBefore

namespace Lexer

variable [Primitives]

/-- The reading `s` of a run, behind the readings `rs` and before the readings `rs'`, splits the
text of the run into `p`, the text of its lexeme, and `u`. -/
structure ReadsAt (l : Lexer) (rs : List Reading) (s : Reading) (rs' : List Reading)
    (p u : Text) : Prop where
  text : l.reader.rest = p ++ (s.lexeme.raw ++ u)
  start : s.token.range.1 = l.reader.offset + p.utf8Size
  before : CutsBefore (s.lexeme.raw ++ u) l.context p (rs.map Reading.lexeme)
  starts : startsToken (s.lexeme.raw ++ u)
  lexeme : s.lexeme = Lexeme.scan ((rs.map Reading.lexeme).foldl Context.behind l.context)
    (s.lexeme.raw ++ u)
  after : s.lexeme.raw ≠ [] → ∃ ms,
    Cuts (((rs.map Reading.lexeme).foldl Context.behind l.context).behind s.lexeme) u ms ∧
      rs'.map Reading.lexeme = ms ++ [Lexeme.eof]
  eof : s.lexeme.raw = [] → u = []

/-- The first reading of a run stands behind a gap. -/
theorem ReadsAt.of_nextCut {l : Lexer} {g w u : Text} (hf : l.finished = false)
    (h : NextCut l g w u) :
    ReadsAt l [] l.reading (l.behind l.reading).readings g u := by
  have hraw := h.raw
  subst hraw
  exact {
    text := h.text
    start := h.offset_before
    before := .done h.skippable
    starts := h.starts
    lexeme := h.lexeme
    after := by
      intro hw
      obtain ⟨ms, hms, hmap⟩ := exists_cuts _ (h.not_finished_behind hf hw)
      rw [h.context_behind hw, h.rest_behind] at hms
      exact ⟨ms, hms, hmap⟩
    eof := h.eof }

/-- A reading behind the first one stands where it does for the lexer behind that. -/
theorem ReadsAt.cons {l : Lexer} {g w u' p u : Text} {rs rs' : List Reading} {s : Reading}
    (h : NextCut l g w u') (hw : w ≠ []) (hs : ReadsAt (l.behind l.reading) rs s rs' p u) :
    ReadsAt l (l.reading :: rs) s rs' (g ++ (w ++ p)) u := by
  have hu : u' = p ++ (s.lexeme.raw ++ u) := h.rest_behind.symm.trans hs.text
  have hcontext : ((l.reading :: rs).map Reading.lexeme).foldl Context.behind l.context =
      (rs.map Reading.lexeme).foldl Context.behind (l.behind l.reading).context := by
    rw [List.map_cons, List.foldl_cons, h.context_behind hw]
  obtain ⟨c, a, rfl⟩ := List.exists_cons_of_ne_nil hw
  have hlexeme : l.reading.lexeme =
      Lexeme.scanCons l.context c (a ++ (p ++ (s.lexeme.raw ++ u))) := hu ▸ h.lexeme
  exact {
    text := by rw [h.text, hu, List.append_assoc, List.append_assoc]
    start := by
      have hoffset : (l.behind l.reading).reader.offset = _ :=
        (NextCut.offset_behind l).trans h.offset_after
      rw [hs.start, hoffset, Text.utf8Size_append, Text.utf8Size_append]
      omega
    before := by
      have hbefore := hs.before
      have hraw := h.raw
      have hstarts := h.starts
      rw [h.context_behind hw] at hbefore
      rw [hu] at hstarts
      rw [List.map_cons]
      rw [hlexeme] at hbefore hraw ⊢
      exact .more h.skippable hstarts hraw hbefore
    starts := hs.starts
    lexeme := hcontext ▸ hs.lexeme
    after := hcontext ▸ hs.after
    eof := hs.eof }

/-- Every reading of a run has its place. -/
theorem exists_readsAt {l : Lexer} {rs rs' : List Reading} {s : Reading}
    (h : l.readings = rs ++ s :: rs') : ∃ p u, ReadsAt l rs s rs' p u := by
  induction l using readings_induction generalizing rs with
  | finished l hf => simp [readings_of_finished hf] at h
  | reading l hf ih =>
    obtain ⟨g, w, u, hc⟩ := exists_nextCut l
    rw [readings_of_not_finished hf] at h
    cases rs with
    | nil =>
      obtain ⟨rfl, rfl⟩ := List.cons.inj h
      exact ⟨g, u, .of_nextCut hf hc⟩
    | cons r rs =>
      obtain ⟨rfl, hrs⟩ := List.cons.inj h
      have hw : w ≠ [] := by
        rintro rfl
        simp [readings_of_finished ((hc.finished_behind hf).mpr rfl)] at hrs
      obtain ⟨p, u, hs⟩ := ih hrs
      exact ⟨g ++ (w ++ p), u, hs.cons hc hw⟩

/-- The token of a reading stands among those of the readings before and after it. -/
theorem exists_readings_of_tokens {l : Lexer} {before after : List Token} {k : Token}
    (h : l.tokens.1 = before ++ k :: after) : ∃ rs s rs', l.readings = rs ++ s :: rs' ∧
      before = (rs.filter l.yields).map Reading.token ∧ k = s.token ∧ l.yields s ∧
      after = (rs'.filter l.yields).map Reading.token := by
  rw [tokens_eq_map_readings] at h
  obtain ⟨bs, cs, hfilter, rfl, hcs⟩ := List.map_eq_append_iff.mp h
  obtain ⟨s, as, rfl, rfl, rfl⟩ := List.map_eq_cons_iff.mp hcs
  obtain ⟨rs₁, rs₂, hreadings, rfl, hrs₂⟩ := List.filter_eq_append_iff.mp hfilter
  obtain ⟨rs₃, rs', rfl, hnone, hs, rfl⟩ := List.filter_eq_cons_iff.mp hrs₂
  refine ⟨rs₁ ++ rs₃, s, rs', by rw [hreadings, List.append_assoc], ?_, rfl, hs, rfl⟩
  rw [List.filter_append, List.filter_eq_nil_iff.mpr hnone, List.append_nil]

end Lexer

end EcmaLex
