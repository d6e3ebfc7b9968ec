import EcmaLex.Proofs.LineEnds.Extent
import EcmaLex.Proofs.LineEnds.Trace

/-!
# Scanning unified texts

The scanners that go over several lines find the same in a unified text, with a line feed for each
line end, and leave unified traces.
-/

namespace EcmaLex

open Text (Inline Apart lineEnds inline_append inline_cons inline_nil)
open Trace (reads onlyIf noteAt noteHere noteStart)
open EscapeSequence (onBackslash)

namespace Trace.Unifies

variable {n k : Nat} {s t : Trace}

theorem reads {a : Text} (ha : Inline a) (h : Unifies (n + a.length) s t) :
    Unifies n (Trace.reads a ++ s) (Trace.reads a ++ t) := by
  induction a generalizing n with
  | nil => exact h
  | cons c a ih =>
    rw [inline_cons] at ha
    refine .char ha.1 (ih ha.2 ?_)
    rwa [Nat.add_right_comm, Nat.add_assoc]

theorem onBackslash (hk : k ≤ n) (rs : List Remark) (h : Unifies n s t) :
    Unifies n (EscapeSequence.onBackslash k rs ++ s) (EscapeSequence.onBackslash k rs ++ t) := by
  induction rs with
  | nil => exact h
  | cons m rs ih => exact .back hk ih

theorem onlyIf_noteAt (hk : k ≤ n) (b : Bool) (i : Issue) (h : Unifies n s t) :
    Unifies n (onlyIf b (noteAt (.back k) i) ++ s) (onlyIf b (noteAt (.back k) i) ++ t) := by
  cases b with
  | false => exact h
  | true => exact .back hk h

theorem onlyIf_noteStart (b : Bool) (i : Issue) (r : Rule) (h : Unifies n s t) :
    Unifies n (onlyIf b (noteStart i r) ++ s) (onlyIf b (noteStart i r) ++ t) := by
  cases b with
  | false => exact h
  | true => exact .start h

theorem append_onlyIf_noteStart (h : Unifies n s t) (b : Bool) (i : Issue) (r : Rule) :
    Unifies n (s ++ onlyIf b (noteStart i r)) (t ++ onlyIf b (noteStart i r)) := by
  refine h.append ?_ ?_
  · cases b with
    | false => exact .nil
    | true => exact .start .nil
  · rw [text_onlyIf, text_noteStart, ite_self]
    exact Text.apart_nil_right _

end Trace.Unifies

namespace EscapeSequence

def unified : EscapeSequence → EscapeSequence
  | continuation _ => continuation ['\n']
  | s => s

def LineSound (s : EscapeSequence) : Prop :=
  (∃ b ∈ lineEnds, s = continuation b) ∨ s.isContinuation = false ∧ Inline s.text

theorem isContinuation_ofCode (letter : Char) (code : Option WrittenCode) :
    (ofCode letter code).isContinuation = false := by
  unfold ofCode
  split
  · rfl
  · split <;> rfl

theorem isContinuation_scan (context : EscapeContext) {c : Char} (hc : isLineTerminator c = false)
    (t : Text) : (scan context (c :: t)).isContinuation = false := by
  simp only [scan, hc, Bool.false_eq_true, if_false]
  split
  · rfl
  · exact isContinuation_ofCode _ _
  · exact isContinuation_ofCode _ _
  · rfl

theorem terminatorOf_eq {b r : Text} (hb : b ∈ lineEnds) (hr : Apart b r) :
    terminatorOf (b ++ r) = b := by
  simp only [lineEnds, List.mem_cons, List.not_mem_nil, or_false] at hb
  rcases hb with rfl | rfl | rfl
  · rfl
  · exact terminatorOf_cons_of_ne fun h => hr rfl h.2
  · rfl

theorem scan_lineEnd (context : EscapeContext) {b r : Text} (hb : b ∈ lineEnds) (hr : Apart b r) :
    scan context (b ++ r) = continuation b := by
  have hterminator := terminatorOf_eq hb hr
  simp only [lineEnds, List.mem_cons, List.not_mem_nil, or_false] at hb
  rcases hb with rfl | rfl | rfl
  all_goals exact (scan_terminator context (by decide) _).trans (congrArg continuation hterminator)

theorem lineSound_scan (context : EscapeContext) (t : Text) : (scan context t).LineSound := by
  cases t with
  | nil => exact .inr ⟨rfl, (inline_cons _ _).mpr ⟨rfl, inline_nil⟩⟩
  | cons c t =>
    by_cases hc : isLineTerminator c
    · obtain ⟨b, r, ht, hb, hr, -⟩ := Text.exists_lineEnd hc t
      rw [ht, scan_lineEnd context hb hr]
      exact .inl ⟨b, hb, rfl⟩
    · have hc' : isLineTerminator c = false := by simpa using hc
      exact .inr ⟨isContinuation_scan context hc' t, inline_scan context hc' t⟩

theorem unified_of_not_continuation {s : EscapeSequence} (h : s.isContinuation = false) :
    s.unified = s := by
  cases s with
  | continuation b => simp [isContinuation] at h
  | _ => rfl

theorem isContinuation_unified (s : EscapeSequence) :
    s.unified.isContinuation = s.isContinuation := by
  cases s <;> rfl

theorem decoded_unified (s : EscapeSequence) : s.unified.decoded = s.decoded := by
  cases s <;> rfl

theorem scan_unified (context : EscapeContext) (t : Text) :
    scan context t.unified = (scan context t).unified := by
  cases t with
  | nil => rfl
  | cons c t =>
    by_cases hc : isLineTerminator c
    · obtain ⟨b, r, ht, hb, hr, hunified⟩ := Text.exists_lineEnd hc t
      rw [hunified, ht, scan_lineEnd context hb hr]
      exact scan_lineEnd context (b := ['\n']) (by decide) (by simp [Apart])
    · have hc' : isLineTerminator c = false := by simpa using hc
      rw [unified_of_not_continuation (isContinuation_scan context hc' t)]
      obtain ⟨a, r, ht, ha⟩ := exists_split context (c :: t)
      have hinline : Inline ('\\' :: a) := ha ▸ inline_scan context hc' t
      rw [ht] at ha ⊢
      rw [((inline_cons _ _).mp hinline).2.unified_append]
      exact scan_resume ha (hinline.continues r)

theorem text_unified {s : EscapeSequence} (h : s.LineSound) : s.unified.text = s.text.unified := by
  rcases h with ⟨b, hb, rfl⟩ | ⟨hs, hinline⟩
  · rw [text, Text.unified_cons (by decide), Text.unified_of_mem_lineEnds hb]
    rfl
  · rw [unified_of_not_continuation hs, hinline.unified]

theorem scan_split_unified {context : EscapeContext} {a r : Text}
    (ha : (scan context (a ++ r)).text = '\\' :: a) :
    scan context (Text.unified a ++ Text.unified r) = (scan context (a ++ r)).unified ∧
      (scan context (a ++ r)).unified.text = '\\' :: Text.unified a := by
  have hapart : Apart a r := (apart_scan ha).of_append (b := ['\\'])
  refine ⟨by rw [← Text.unified_append hapart, scan_unified], ?_⟩
  rw [text_unified (lineSound_scan context (a ++ r)), ha, Text.unified_cons (by decide)]

theorem unifies_trace {s : EscapeSequence} (h : s.LineSound) (f : Char → List Remark)
    (rs : List Remark) (n : Nat) : Trace.Unifies n (s.unified.trace f rs) (s.trace f rs) := by
  rcases h with ⟨b, hb, rfl⟩ | ⟨hs, hinline⟩
  · have hcontinued := @Trace.Unifies.continued n b rs [] [] hb
      (Text.apart_nil_right b) .nil
    rw [List.append_nil, List.append_nil] at hcontinued
    exact hcontinued
  · rw [unified_of_not_continuation hs]
    cases s with
    | lone => exact .char rfl .nil
    | continuation b => simp [isContinuation] at hs
    | char letter decoded =>
      simp only [text, inline_cons] at hinline
      exact .char rfl (.onBackslash (by omega) _ (.char hinline.2.1 .nil))
    | code letter written decoded =>
      rw [text, inline_cons] at hinline
      have hlast : Trace.Unifies (n + 1 + (letter :: written).length)
          (onlyIf (isUnnecessaryEscape decoded.toNat)
            (noteAt (.back (written.length + 2)) .unnecessaryEscapement) ++ [])
          (onlyIf (isUnnecessaryEscape decoded.toNat)
            (noteAt (.back (written.length + 2)) .unnecessaryEscapement) ++ []) :=
        .onlyIf_noteAt (by simp only [List.length_cons]; omega) _ _ .nil
      rw [List.append_nil] at hlast
      rw [trace, List.append_assoc]
      exact .char rfl (.onBackslash (by omega) _ (.reads hinline.2 hlast))
    | bad letter written =>
      rw [text, inline_cons] at hinline
      have hreads : Trace.Unifies (n + 1) (reads (letter :: written) ++ [])
          (reads (letter :: written) ++ []) := .reads hinline.2 .nil
      rw [List.append_nil] at hreads
      rw [trace, List.append_assoc]
      exact .char rfl (.onBackslash (by omega) _ (.back (by omega) hreads))

end EscapeSequence

namespace StringPiece

def unified : StringPiece → StringPiece
  | plain c => plain c
  | escape s => escape s.unified

theorem decoded_unified (p : StringPiece) : p.unified.decoded = p.decoded := by
  cases p with
  | plain c => rfl
  | escape s => exact s.decoded_unified

theorem scan_stop {quote c : Char} (h : c = quote ∨ isLineTerminator c) (t : Text) :
    scan quote (c :: t) = [] := (pieceScan quote).stop (s := ()) (by simpa [stopsAt] using h)

theorem scan_plain {quote c : Char} (hq : c ≠ quote) (hl : isLineTerminator c = false)
    (hc : c ≠ '\\') (t : Text) : scan quote (c :: t) = plain c :: scan quote t := by
  rw [scan, if_neg (by simp [hq, hl]), if_neg hc]

theorem scan_escape {quote : Char} (hq : '\\' ≠ quote) {a r : Text}
    (ha : (EscapeSequence.scan .script (a ++ r)).text = '\\' :: a) :
    scan quote ('\\' :: (a ++ r)) =
      escape (EscapeSequence.scan .script (a ++ r)) :: scan quote r := by
  rw [scan, if_neg (by simp [hq, isLineTerminator]), if_pos rfl]
  simp only [ha, List.length_cons, Nat.add_one_sub_one, List.drop_left]

/-- What comes first in the body of a string: nothing, a character, or an escape sequence. In the
unified text the same comes first. -/
theorem scan_induction (quote : Char) {motive : Text → Prop}
    (stop : ∀ t, scan quote t = [] → scan quote (Text.unified t) = [] → motive t)
    (char : ∀ c t, isLineTerminator c = false → scan quote (c :: t) = plain c :: scan quote t →
      scan quote (Text.unified (c :: t)) = plain c :: scan quote (Text.unified t) →
      motive t → motive (c :: t))
    (sequence : ∀ s a r, s.LineSound → s.text = '\\' :: a → Apart ('\\' :: a) r →
      scan quote ('\\' :: (a ++ r)) = escape s :: scan quote r →
      scan quote (Text.unified ('\\' :: (a ++ r))) =
        escape s.unified :: scan quote (Text.unified r) →
      motive r → motive ('\\' :: (a ++ r)))
    (t : Text) : motive t := by
  induction t using Text.lineEnd_induction with
  | nil => exact stop [] (scan.eq_1 quote) (scan.eq_1 quote)
  | lineEnd b r hb _ hunified _ =>
    refine stop _ ?_ (hunified ▸ scan_stop (.inr rfl) _)
    simp only [lineEnds, List.mem_cons, List.not_mem_nil, or_false] at hb
    rcases hb with rfl | rfl | rfl <;> exact scan_stop (.inr rfl) _
  | char c t hl ih =>
    have hunified : Text.unified (c :: t) = c :: Text.unified t := Text.unified_cons_inline hl t
    by_cases hq : c = quote
    · exact stop _ (scan_stop (.inl hq) t) (hunified ▸ scan_stop (.inl hq) _)
    by_cases hc : c = '\\'
    · subst hc
      obtain ⟨a, r, rfl, ha⟩ := EscapeSequence.exists_split .script t
      have hsound := EscapeSequence.lineSound_scan .script (a ++ r)
      have hapart := EscapeSequence.apart_scan ha
      obtain ⟨hscan, htext⟩ := EscapeSequence.scan_split_unified ha
      refine sequence _ a r hsound ha hapart (scan_escape hq ha) ?_ (ih r (by simp))
      rw [hunified, Text.unified_append (hapart.of_append (b := ['\\'])),
        scan_escape hq (hscan ▸ htext), hscan]
    · exact char c t hl (scan_plain hq hl hc t) (hunified ▸ scan_plain hq hl hc _)
        (ih t (Nat.le_refl _))

theorem scan_unified (quote : Char) (t : Text) :
    scan quote (Text.unified t) = (scan quote t).map unified := by
  induction t using scan_induction quote with
  | stop t h h' => rw [h, h', List.map_nil]
  | char c t _ h h' ih => rw [h, h', ih, List.map_cons, unified]
  | sequence s a r _ _ _ h h' ih => rw [h, h', ih, List.map_cons, unified]

theorem flatMap_decoded_unified (ps : List StringPiece) :
    (ps.map unified).flatMap decoded = ps.flatMap decoded := by
  rw [List.flatMap_map]
  simp only [decoded_unified]

theorem unifies_traces (quote : Char) (t : Text) (n : Nat) (line : Text) :
    Trace.Unifies n (traces quote line (scan quote (Text.unified t)))
      (traces quote line (scan quote t)) := by
  induction t using scan_induction quote generalizing n line with
  | stop t h h' =>
    rw [h, h']
    exact .nil
  | char c t hc h h' ih =>
    rw [h, h', traces, traces]
    cases isControl c with
    | false => exact .char hc (ih (n + 1) (c :: line))
    | true => exact .back (Nat.zero_le n) (.char hc (ih (n + 1) (c :: line)))
  | sequence s a r hs ha hapart h h' ih =>
    have hline : (if s.unified.isContinuation then [] else s.unified.text.reverse ++ line) =
        if s.isContinuation then [] else s.text.reverse ++ line := by
      rw [s.isContinuation_unified]
      split
      · rfl
      · rename_i hcontinuation
        rw [EscapeSequence.unified_of_not_continuation (by simpa using hcontinuation)]
    have hrest : (scan quote r).flatMap text <+: r :=
      PieceScan.flatMap_prefix (pieceScan quote) () r
    rw [h, h', traces, traces, hline]
    refine (EscapeSequence.unifies_trace hs _ _ n).append (ih 0 _) ?_
    rw [EscapeSequence.text_trace, ha, text_traces]
    exact hapart.of_prefix hrest

end StringPiece

def TokenValue.unified : TokenValue → TokenValue
  | template body => template body.unified
  | comment style body directive => comment style body.unified directive
  | v => v

/-- The first lexeme is the second one in the unified text: it stays on its line and is the same, or
its trace is unified. -/
structure Lexeme.Unifies (m' m : Lexeme) : Prop where
  value : m'.value = m.value.unified
  malformed : m'.malformed = m.malformed
  unclosed : m'.unclosed = m.unclosed
  trace : m'.trace.Unifies 0 m.trace ∨ Inline m.raw ∧ m'.trace = m.trace

theorem Lexeme.unifies_string {quote : Char} (hq : isLineTerminator quote = false) (t : Text) :
    (string quote t.unified).Unifies (string quote t) := by
  obtain ⟨r, ht, -⟩ := StringPiece.exists_body quote t
  have htraces := StringPiece.unifies_traces quote t 1 []
  have htext := htraces.text_eq
  rw [StringPiece.text_traces, StringPiece.text_traces] at htext
  obtain ⟨body, hbody⟩ : ∃ body, (StringPiece.scan quote t).flatMap StringPiece.text = body :=
    ⟨_, rfl⟩
  rw [hbody] at ht htext
  have hbody' : (StringPiece.scan quote (body ++ r)).flatMap StringPiece.text = body := ht ▸ hbody
  have hapart : Apart body r := StringPiece.apart_body hbody'
  have hclosed : (t.unified.drop (Text.unified body).length).head? = some quote ↔
      (t.drop body.length).head? = some quote := by
    rw [ht, Text.unified_append hapart, List.drop_left, List.drop_left]
    exact Text.head?_unified_eq_some_iff hq
  have hvalue : (StringPiece.scan quote t.unified).flatMap StringPiece.decoded =
      (StringPiece.scan quote t).flatMap StringPiece.decoded := by
    rw [StringPiece.scan_unified, StringPiece.flatMap_decoded_unified]
  have hhead : ∀ b i r, Trace.Unifies 0
      (onlyIf b (noteStart i r) ++
        .read quote :: StringPiece.traces quote [] (StringPiece.scan quote t.unified))
      (onlyIf b (noteStart i r) ++
        .read quote :: StringPiece.traces quote [] (StringPiece.scan quote t)) :=
    fun b i r => .onlyIf_noteStart b i r (.char hq htraces)
  simp only [string, htext, hbody, hclosed, hvalue]
  refine ⟨rfl, rfl, rfl, .inl ?_⟩
  refine ((hhead _ _ _).append ?_ ?_).append_onlyIf_noteStart _ _ _
  · split
    · exact .char hq .nil
    · exact .start .nil
  · intro _
    split
    · have hne : quote ≠ '\n' := by
        rintro rfl
        exact absurd hq (by decide)
      simpa using hne
    · simp

namespace TemplatePiece

theorem next_terminator (frame : TemplateFrame) {c : Char} (hc : isLineTerminator c) (t : Text) :
    next frame c t = char c := by
  rcases isLineTerminator_iff.mp hc with rfl | rfl <;> cases frame <;> rfl

theorem scan_terminator (frame : TemplateFrame) (outer : List TemplateFrame) {c : Char}
    (hc : isLineTerminator c) (t : Text) : scan (frame :: outer) (c :: t) =
      (char c :: (scan (frame :: outer) t).1, (scan (frame :: outer) t).2) := by
  have hnext := next_terminator frame hc t
  have hnest : nest frame outer (char c) = frame :: outer := by
    rcases isLineTerminator_iff.mp hc with rfl | rfl <;> cases frame <;> rfl
  have hscan := @scan_cons frame outer c [] t
    (by rw [List.nil_append, hnext]; rfl)
  rwa [List.nil_append, hnext, hnest] at hscan

/-- A line end is read character by character. -/
theorem scan_lineEnd (frame : TemplateFrame) (outer : List TemplateFrame) {b : Text}
    (hb : b ∈ lineEnds) (r : Text) :
    ((scan (frame :: outer) (b ++ r)).1.flatMap trace =
        reads b ++ (scan (frame :: outer) r).1.flatMap trace) ∧
      (scan (frame :: outer) (b ++ r)).2 = (scan (frame :: outer) r).2 := by
  simp only [lineEnds, List.mem_cons, List.not_mem_nil, or_false] at hb
  rcases hb with rfl | rfl | rfl
  all_goals
    simp only [List.cons_append, List.nil_append, scan_terminator _ _ (c := '\n') rfl,
      scan_terminator _ _ (c := '\r') rfl, and_true]
    rfl

theorem quotedTail_unified {quote : Char} (hq : isLineTerminator quote = false) (t : Text) :
    quotedTail quote t.unified = quotedTail quote t := by
  have hq' : ¬ isLineTerminator quote = true := by simp [hq]
  fun_induction quotedTail quote t with
  | case1 => rfl
  | case2 c t hc =>
    obtain ⟨b, r, -, -, -, hunified⟩ := Text.exists_lineEnd hc t
    rw [hunified, quotedTail_terminator quote rfl]
  | case3 t => rw [Text.unified_cons_inline hq, quotedTail_quote hq']
  | case4 hl hne => simp [Text.unified, quotedTail, hl, hne]
  | case5 d t hd hl hne =>
    obtain ⟨b, r, -, -, -, hunified⟩ := Text.exists_lineEnd hd t
    have hfeed : isLineTerminator '\n' = true := rfl
    rw [Text.unified_cons_inline rfl, hunified]
    simp [quotedTail, hl, hne, hfeed]
  | case6 d t hd hl hne ih =>
    have hd' : isLineTerminator d = false := by simpa using hd
    rw [Text.unified_cons_inline rfl, Text.unified_cons_inline hd', quotedTail, ih]
    simp [hl, hne, hd']
  | case7 c t hl hne hc ih =>
    have hl' : isLineTerminator c = false := by simpa using hl
    rw [Text.unified_cons_inline hl', quotedTail_plain hl hne hc, ih]

theorem inline_quotedTail (quote : Char) (t : Text) : Inline (quotedTail quote t) := by
  fun_induction quotedTail quote t with
  | case1 => exact inline_nil
  | case2 => exact inline_nil
  | case3 t hl => exact (inline_cons _ _).mpr ⟨by simpa using hl, inline_nil⟩
  | case4 hl => exact (inline_cons _ _).mpr ⟨by simpa using hl, inline_nil⟩
  | case5 d t hd hl => exact (inline_cons _ _).mpr ⟨by simpa using hl, inline_nil⟩
  | case6 d t hd hl hne ih =>
    exact (inline_cons _ _).mpr ⟨by simpa using hl, (inline_cons _ _).mpr ⟨by simpa using hd, ih⟩⟩
  | case7 c t hl hne hc ih => exact (inline_cons _ _).mpr ⟨by simpa using hl, ih⟩

/-- The first piece of a unified text, if no escape sequence, is that of the text itself. -/
theorem next_unified {frame : TemplateFrame} {c : Char} (hc : isLineTerminator c = false)
    (h : ¬ (frame = .template ∧ c = '\\')) (t : Text) :
    next frame c t.unified = next frame c t ∧ (next frame c t).trace = reads (next frame c t).text ∧
      Inline (next frame c t).text := by
  cases frame with
  | template =>
    have hslash : c ≠ '\\' := fun hc => h ⟨rfl, hc⟩
    have hbrace := Text.head?_unified_eq_some_iff (c := '\x7b') rfl (t := t)
    simp only [next, if_neg hslash, hbrace]
    split
    · exact ⟨trivial, rfl, by decide⟩
    · exact ⟨trivial, rfl, (inline_cons _ _).mpr ⟨hc, inline_nil⟩⟩
  | brace =>
    simp only [next, quotedTail_unified hc]
    split
    · exact ⟨trivial, rfl, (inline_cons _ _).mpr ⟨hc, inline_quotedTail c t⟩⟩
    · exact ⟨trivial, rfl, (inline_cons _ _).mpr ⟨hc, inline_nil⟩⟩

theorem text_flatMap_trace (ps : List TemplatePiece) :
    Trace.text (ps.flatMap trace) = ps.flatMap text := by
  simp only [Trace.text_flatMap, text_trace]

theorem scan_prefix (frames : List TemplateFrame) (t : Text) :
    (scan frames t).1.flatMap text <+: t := by
  obtain ⟨r, hr, -⟩ := exists_pieces frames t
  exact ⟨r, hr.symm⟩

/-- The scan of a unified text ends as that of the text itself, and leaves its trace unified. -/
theorem scan_unified (frames : List TemplateFrame) (t : Text) :
    (scan frames t.unified).2 = (scan frames t).2 ∧
      ∀ n, Trace.Unifies n ((scan frames t.unified).1.flatMap trace)
        ((scan frames t).1.flatMap trace) := by
  induction t using Text.lineEnd_induction generalizing frames with
  | nil => cases frames <;> exact ⟨rfl, fun _ => by rw [Text.unified_nil, scan]; exact .nil⟩
  | lineEnd b r hb hr hunified ih =>
    cases frames with
    | nil =>
      rw [scan, scan]
      exact ⟨rfl, fun _ => .nil⟩
    | cons frame outer =>
      obtain ⟨hclosed, htrace⟩ := ih (frame :: outer)
      obtain ⟨hpieces, hend⟩ := scan_lineEnd frame outer hb r
      rw [hunified, hpieces, hend, scan_terminator frame outer rfl]
      refine ⟨hclosed, fun n => ?_⟩
      exact .line hb (hr.of_prefix (text_flatMap_trace _ ▸ scan_prefix _ r)) (htrace 0)
  | char c t hc ih =>
    cases frames with
    | nil =>
      rw [scan, scan]
      exact ⟨rfl, fun _ => .nil⟩
    | cons frame outer =>
      obtain ⟨a, r, rfl, ha⟩ := exists_split frame c t
      obtain ⟨hclosed, htrace⟩ := ih r (by simp) (nest frame outer (next frame c (a ++ r)))
      rw [Text.unified_cons_inline hc, scan_cons ha]
      by_cases hescape : frame = .template ∧ c = '\\'
      · obtain ⟨rfl, rfl⟩ := hescape
        have hnext : ∀ t, next .template '\\' t = escape (EscapeSequence.scan .template t) :=
          fun _ => rfl
        rw [hnext] at ha hclosed htrace ⊢
        have hslash : (EscapeSequence.scan .template (a ++ r)).text = '\\' :: a := ha
        have hsound := EscapeSequence.lineSound_scan .template (a ++ r)
        have hapart := EscapeSequence.apart_scan hslash
        obtain ⟨hscan, htext⟩ := EscapeSequence.scan_split_unified hslash
        have ha' : (next .template '\\' (Text.unified a ++ Text.unified r)).text =
            '\\' :: Text.unified a := by rw [hnext, text, hscan, htext]
        rw [Text.unified_append (hapart.of_append (b := ['\\'])), scan_cons ha', hnext, hscan]
        refine ⟨hclosed, fun n => ?_⟩
        refine (EscapeSequence.unifies_trace hsound _ _ n).append (htrace 0) ?_
        rw [EscapeSequence.text_trace, hslash]
        exact hapart.of_prefix (text_flatMap_trace _ ▸ scan_prefix _ r)
      · obtain ⟨hnext, hreads, hinline⟩ := next_unified hc hescape (a ++ r)
        rw [ha] at hreads hinline
        rw [((inline_cons _ _).mp hinline).2.unified_append] at hnext ⊢
        rw [scan_cons (hnext ▸ ha), hnext]
        refine ⟨hclosed, fun n => ?_⟩
        rw [List.flatMap_cons, List.flatMap_cons, hreads]
        exact .reads hinline (htrace _)

end TemplatePiece

theorem Lexeme.unifies_template (t : Text) : (template t.unified).Unifies (template t) := by
  obtain ⟨hclosed, htrace⟩ := TemplatePiece.scan_unified [.template] t
  have htext := (htrace 1).text_eq
  rw [TemplatePiece.text_flatMap_trace, TemplatePiece.text_flatMap_trace] at htext
  refine ⟨?_, ?_, ?_, .inl ?_⟩
  · simp only [template, htext, hclosed, TokenValue.unified]
    split
    · rename_i hc
      obtain ⟨b, d, hb, hd⟩ := TemplatePiece.exists_last (by simp) hc
      have hline : isLineTerminator d = false := by rcases hd with rfl | rfl <;> rfl
      rw [hb, Text.unified_concat hline, List.dropLast_concat, List.dropLast_concat]
    · rfl
  · simp only [template, hclosed]
  · simp only [template, hclosed]
  · simp only [template, hclosed]
    exact Trace.Unifies.append_onlyIf_noteStart (.char rfl (htrace 1)) _ _ _

end EcmaLex
