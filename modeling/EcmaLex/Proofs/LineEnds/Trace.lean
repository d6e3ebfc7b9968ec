import EcmaLex.Lexeme.EscapeSequence
import EcmaLex.Proofs.Agreement
import EcmaLex.Proofs.LineEnds.Text

/-!
# Traces over unified texts

A trace over a unified text reads a line feed where the other one reads a line end, and is the same
otherwise. A remark that looks back must not look back past a line end, as the number of characters
to it need not be the same. Only a continued line is remarked on behind its end. Two readers that
follow such traces find the same diagnostics.
-/

namespace EcmaLex

open Text (Inline Apart lineEnds)
open EscapeSequence (onBackslash)

namespace Trace

/-- The first trace is the second one with a line feed for each line end, and at least the last `n`
characters before them are the same. -/
inductive Unifies : Nat → Trace → Trace → Prop where
  | nil {n : Nat} : Unifies n [] []
  | char {n : Nat} {c : Char} {s t : Trace} (hc : isLineTerminator c = false)
      (h : Unifies (n + 1) s t) : Unifies n (.read c :: s) (.read c :: t)
  | start {n : Nat} {m : Remark} {s t : Trace} (h : Unifies n s t) :
      Unifies n (.note .start m :: s) (.note .start m :: t)
  | back {n k : Nat} {m : Remark} {s t : Trace} (hk : k ≤ n) (h : Unifies n s t) :
      Unifies n (.note (.back k) m :: s) (.note (.back k) m :: t)
  | line {n : Nat} {b : Text} {s t : Trace} (hb : b ∈ lineEnds) (ha : Apart b t.text)
      (h : Unifies 0 s t) : Unifies n (.read '\n' :: s) (reads b ++ t)
  | continued {n : Nat} {b : Text} {rs : List Remark} {s t : Trace} (hb : b ∈ lineEnds)
      (ha : Apart b t.text) (h : Unifies 0 s t) :
      Unifies n (.read '\\' :: .read '\n' :: (onBackslash 2 rs ++ s))
        (.read '\\' :: (reads b ++ (onBackslash (b.length + 1) rs ++ t)))

namespace Unifies

variable {n m : Nat} {s t s' t' : Trace}

theorem mono (h : Unifies n s t) (hm : n ≤ m) : Unifies m s t := by
  induction h generalizing m with
  | nil => exact .nil
  | char hc _ ih => exact .char hc (ih (Nat.succ_le_succ hm))
  | start _ ih => exact .start (ih hm)
  | back hk _ ih => exact .back (hk.trans hm) (ih hm)
  | line hb ha h => exact .line hb ha h
  | continued hb ha h => exact .continued hb ha h

/-- The text of the first trace is the unified text of the second one. -/
theorem text_eq (h : Unifies n s t) : s.text = t.text.unified := by
  induction h with
  | nil => rfl
  | char hc _ ih =>
    rw [text_read, text_read, ih, Text.unified_cons_inline hc]
  | start _ ih => exact ih
  | back _ _ ih => exact ih
  | line hb ha _ ih =>
    rw [text_read, text_append, text_reads, Text.unified_append ha,
      Text.unified_of_mem_lineEnds hb, ih]
    rfl
  | continued hb ha _ ih =>
    simp only [text_read, text_append, text_reads, EscapeSequence.text_onBackslash,
      List.nil_append]
    rw [Text.unified_cons (by decide), Text.unified_append ha, Text.unified_of_mem_lineEnds hb, ih]
    rfl

/-- Traces that are unified one after the other are unified together. -/
theorem append (h : Unifies n s t) (h' : Unifies 0 s' t') (ha : Apart t.text t'.text) :
    Unifies n (s ++ s') (t ++ t') := by
  induction h with
  | nil => exact h'.mono (Nat.zero_le _)
  | @char n c s t hc _ ih => exact .char hc (ih (Apart.of_append (b := [c]) ha))
  | start _ ih => exact .start (ih ha)
  | back hk _ ih => exact .back hk (ih ha)
  | @line n b s t hb hbt _ ih =>
    rw [text_append, text_reads] at ha
    rw [List.append_assoc]
    refine .line hb ?_ (ih ha.of_append)
    rw [text_append]
    exact hbt.append ha
  | @continued n b rs s t hb hbt _ ih =>
    simp only [text_read, text_append, text_reads, EscapeSequence.text_onBackslash,
      List.nil_append] at ha
    have ha' : Apart (b ++ t.text) t'.text := Apart.of_append (b := ['\\']) ha
    have hmore := @Unifies.continued n b rs _ _ hb
      (by rw [text_append]; exact hbt.append ha') (ih ha'.of_append)
    simpa only [List.cons_append, List.append_assoc] using hmore

end Unifies

end Trace

theorem Cursor.position_advance_inline {k : Cursor} {c : Char} {t : Text} (h : k.rest = c :: t)
    (hc : isLineTerminator c = false) :
    k.advance.position = { k.position with column := k.position.column + 1 } := by
  apply position_advance_of_not_endsLine h
  simp only [isLineTerminator, Bool.or_eq_false_iff, decide_eq_false_iff_not] at hc
  simp [Position.endsLine, hc]

namespace Reader

theorem rest_foldl_read (r : Reader) (b : Text) :
    (b.foldl read r).rest = r.rest.drop b.length := by
  induction b generalizing r with
  | nil => rfl
  | cons c b ih => rw [List.foldl_cons, ih, rest_read, List.length_cons, List.drop_tail]

/-- Characters that are read without remarks only add to the positions visited. -/
theorem exists_followFrom_reads (r : Reader) (start : Position) (visited : List Position) (b : Text)
    (t : Trace) : ∃ ps, ps.length = b.length ∧
      r.followFrom start visited (Trace.reads b ++ t) =
        (b.foldl read r).followFrom start (ps ++ visited) t := by
  induction b generalizing r visited with
  | nil => exact ⟨[], rfl, rfl⟩
  | cons c b ih =>
    obtain ⟨ps, hlength, hps⟩ := ih (r.read c) (r.position :: visited)
    refine ⟨ps ++ [r.position], by simp [hlength], ?_⟩
    rw [List.append_assoc]
    exact hps

structure Unifies (r' r : Reader) : Prop where
  agrees : Agrees (fun _ => true) r' r
  options : r'.options = r.options
  position : r'.cursor.position = r.cursor.position
  rest : r'.rest = r.rest.unified

theorem read_return {r : Reader} {x : Text} (h : r.rest = '\r' :: '\n' :: x) :
    r.read '\r' = r.advance ∧ r.advance.cursor.position.line = r.cursor.position.line := by
  have hline : r.advance.cursor.position.line = r.cursor.position.line := by
    have hadvance : r.advance.cursor = r.cursor.advance := rfl
    rw [hadvance, Cursor.position_advance_of_not_endsLine (k := r.cursor) h rfl]
  refine ⟨?_, hline⟩
  rw [read, inspect_of_safe (by decide), leave]
  exact if_pos hline

/-- Behind its line end each reader stands at the start of the next line. -/
theorem unifies_lineEnd {r' r : Reader} (h : Agrees (fun _ => true) r' r)
    (ho : r'.options = r.options) (hl : r'.cursor.position.line = r.cursor.position.line)
    {c : Char} {x : Text} (hr' : r'.rest = '\n' :: x.unified) (hr : r.rest = c :: x)
    (hc : Position.endsLine c x.head?) : Unifies (r'.read '\n') (r.read c) := by
  have hposition : r'.cursor.advance.position = r.cursor.advance.position := by
    rw [Cursor.position_advance_of_endsLine (k := r'.cursor) hr' rfl,
      Cursor.position_advance_of_endsLine (k := r.cursor) hr hc, hl]
  have hsafe : isUnsafeChar c = false := by
    simp only [Position.endsLine, Bool.or_eq_true, Bool.and_eq_true, decide_eq_true_eq] at hc
    rcases hc with rfl | ⟨rfl, -⟩ <;> decide
  have hinspect : Agrees (fun _ => true) (r'.inspect '\n') (r.inspect c) := by
    rwa [inspect_of_safe (by decide), inspect_of_safe hsafe]
  refine ⟨hinspect.read_of_inspect hl (congrArg Position.line hposition), ?_, ?_, ?_⟩
  · rw [options_read, options_read, ho]
  · rwa [cursor_read, cursor_read]
  · rw [rest_read, rest_read, hr, hr', List.tail_cons, List.tail_cons]

namespace Unifies

variable {r r' : Reader}

theorem char (h : Unifies r' r) {c : Char} {x : Text} (hr : r.rest = c :: x)
    (hc : isLineTerminator c = false) : Unifies (r'.read c) (r.read c) := by
  have hr' : r'.rest = c :: x.unified := by rw [h.rest, hr, Text.unified_cons_inline hc]
  have hposition : r'.cursor.advance.position = r.cursor.advance.position := by
    rw [Cursor.position_advance_inline (k := r'.cursor) hr' hc,
      Cursor.position_advance_inline (k := r.cursor) hr hc, h.position]
  refine ⟨h.agrees.read h.position c hposition, ?_, ?_, ?_⟩
  · rw [options_read, options_read, h.options]
  · rwa [cursor_read, cursor_read]
  · rw [rest_read, rest_read, hr, hr', List.tail_cons, List.tail_cons]

/-- A line feed is read for any line end. -/
theorem lineEnd (h : Unifies r' r) {b x : Text} (hb : b ∈ lineEnds) (hr : r.rest = b ++ x)
    (hx : Apart b x) : Unifies (r'.read '\n') (b.foldl Reader.read r) := by
  have hr' : r'.rest = '\n' :: x.unified := by
    rw [h.rest, hr, Text.unified_append hx, Text.unified_of_mem_lineEnds hb]
    rfl
  have hline := congrArg Position.line h.position
  simp only [lineEnds, List.mem_cons, List.not_mem_nil, or_false] at hb
  rcases hb with rfl | rfl | rfl
  · exact unifies_lineEnd h.agrees h.options hline hr' hr rfl
  · have hend : Position.endsLine '\r' x.head? := decide_eq_true (hx rfl)
    exact unifies_lineEnd h.agrees h.options hline hr' hr hend
  · obtain ⟨hread, hpass⟩ := read_return hr
    have hagrees : Agrees (fun _ => true) r' r.advance :=
      ⟨h.agrees.leftLine, h.agrees.diagnostics, h.agrees.lines⟩
    have hrest : r.advance.rest = '\n' :: x := by
      rw [rest_advance, hr]
      rfl
    rw [List.foldl_cons, hread]
    exact unifies_lineEnd hagrees h.options (hline.trans hpass.symm) hr' hrest rfl

/-- A remark that both readers make at the same place leaves them unified. -/
theorem note (h : Unifies r' r) (m : Remark) (p : Position) :
    Unifies (if m.rule.holds r'.options then r'.report m.issue p else r')
      (if m.rule.holds r.options then r.report m.issue p else r) := by
  have hsettled : m.Settled (fun _ => true) r'.options r.options := by
    rw [h.options]
    exact m.settled_self _ _
  have hstay : ∀ (b : Bool) (q : Reader),
      (if b then q.report m.issue p else q).options = q.options ∧
      (if b then q.report m.issue p else q).cursor = q.cursor ∧
      (if b then q.report m.issue p else q).rest = q.rest := by
    intro b q
    cases b <;> exact ⟨rfl, rfl, rfl⟩
  obtain ⟨ho', hc', hr'⟩ := hstay (m.rule.holds r'.options) r'
  obtain ⟨ho, hc, hr⟩ := hstay (m.rule.holds r.options) r
  refine ⟨h.agrees.note hsettled p, ?_, ?_, ?_⟩
  · rw [ho', ho, h.options]
  · rw [hc', hc, h.position]
  · rw [hr', hr, h.rest]

theorem locate (h : Unifies r' r) {start : Position} {visited' visited : List Position} {n k : Nat}
    (hk : k ≤ n) (hv : ∀ i < n, visited'.getD i start = visited.getD i start) :
    r'.locate start visited' (.back k) = r.locate start visited (.back k) := by
  cases k with
  | zero => exact h.position
  | succ k => exact hv k hk

/-- Readers that follow a trace on one line stay unified. -/
theorem followFrom_inline {t : Trace} {u : Text} (h : Unifies r' r) (ht : Inline t.text)
    (hr : r.rest = t.text ++ u) (start : Position) (visited : List Position) :
    Unifies (r'.followFrom start visited t) (r.followFrom start visited t) := by
  induction t generalizing r' r visited with
  | nil => exact h
  | cons e t ih =>
    cases e with
    | read c =>
      rw [Trace.text_read, Text.inline_cons] at ht
      have hnow : r'.position = r.position := h.position
      rw [Reader.followFrom, Reader.followFrom, hnow]
      refine ih (h.char hr ht.1) ht.2 ?_ _
      rw [rest_read, hr]
      rfl
    | note place m =>
      have hlocate : r'.locate start visited place = r.locate start visited place := by
        cases place with
        | start => rfl
        | back k => exact h.locate (Nat.le_refl k) fun _ _ => rfl
      rw [Reader.followFrom, Reader.followFrom, hlocate]
      refine ih (h.note m _) ht ?_ _
      split <;> exact hr

/-- Behind the remarks on a backslash readers are unified if they were before them. -/
theorem followFrom_onBackslash (h : Unifies r' r) {start : Position}
    {visited' visited : List Position} {k' k : Nat}
    (hv : visited'.getD k' start = visited.getD k start) (rs : List Remark) (s t : Trace) :
    ∃ q' q, Unifies q' q ∧ q.rest = r.rest ∧
      r'.followFrom start visited' (onBackslash (k' + 1) rs ++ s) =
        q'.followFrom start visited' s ∧
      r.followFrom start visited (onBackslash (k + 1) rs ++ t) = q.followFrom start visited t := by
  induction rs generalizing r' r with
  | nil => exact ⟨r', r, h, rfl, rfl, rfl⟩
  | cons m rs ih =>
    obtain ⟨q', q, hq, hrest, hs, ht⟩ := ih (h.note m (visited.getD k start))
    refine ⟨q', q, hq, ?_, ?_, ?_⟩
    · rw [hrest]
      split <;> rfl
    · rw [← hs, ← hv]
      rfl
    · rw [← ht]
      rfl

/-- The readers of unified traces stay unified. -/
theorem followFrom {n : Nat} {s t : Trace} {u : Text} (h : Unifies r' r) (hst : s.Unifies n t)
    (hr : r.rest = t.text ++ u) (hu : Apart t.text u) (start : Position)
    {visited' visited : List Position}
    (hv : ∀ i < n, visited'.getD i start = visited.getD i start) :
    Unifies (r'.followFrom start visited' s) (r.followFrom start visited t) := by
  induction hst generalizing r' r visited' visited with
  | nil => exact h
  | @char n c s t hc _ ih =>
    have hnow : r'.position = r.position := h.position
    rw [Reader.followFrom, Reader.followFrom, hnow]
    refine ih (h.char hr hc) ?_ (Apart.of_append (b := [c]) hu) ?_
    · rw [rest_read, hr]
      rfl
    · intro i hi
      cases i with
      | zero => rfl
      | succ i => exact hv i (Nat.lt_of_succ_lt_succ hi)
  | @start n m s t _ ih =>
    rw [Reader.followFrom, Reader.followFrom]
    refine ih (h.note m start) ?_ hu hv
    split <;> exact hr
  | @back n k m s t hk _ ih =>
    rw [Reader.followFrom, Reader.followFrom, h.locate hk hv]
    refine ih (h.note m _) ?_ hu hv
    split <;> exact hr
  | @line n b s t hb ha _ ih =>
    rw [Trace.text_append, Trace.text_reads] at hr hu
    rw [List.append_assoc] at hr
    obtain ⟨ps, -, hps⟩ := exists_followFrom_reads r start visited b t
    rw [hps, Reader.followFrom]
    refine ih (h.lineEnd hb hr (ha.append hu)) ?_ hu.of_append (by simp)
    rw [rest_foldl_read, hr, List.drop_left]
  | @continued n b rs s t hb ha _ ih =>
    simp only [Trace.text_read, Trace.text_append, Trace.text_reads,
      EscapeSequence.text_onBackslash, List.nil_append] at hr hu
    have hu' : Apart (b ++ t.text) u := Apart.of_append (b := ['\\']) hu
    rw [List.cons_append, List.append_assoc] at hr
    have hslash := h.char hr rfl
    have hrest : (r.read '\\').rest = b ++ (t.text ++ u) := by
      rw [rest_read, hr]
      rfl
    obtain ⟨ps, hlength, hps⟩ := exists_followFrom_reads (r.read '\\') start
      (r.position :: visited) b (onBackslash (b.length + 1) rs ++ t)
    -- The remarks look back to the backslash, which both readers have passed at one position.
    have hback : ((r'.read '\\').position :: r'.position :: visited').getD 1 start =
        (ps ++ r.position :: visited).getD b.length start := by
      have hget : (ps ++ r.position :: visited)[b.length]? = some r.position := by
        rw [← hlength]
        simp
      rw [List.getD_eq_getElem?_getD, List.getD_eq_getElem?_getD, hget]
      exact h.position
    obtain ⟨q', q, hq, hqrest, hs, ht⟩ :=
      (hslash.lineEnd hb hrest (ha.append hu')).followFrom_onBackslash hback rs s t
    rw [Reader.followFrom, Reader.followFrom, Reader.followFrom, hps, hs, ht]
    refine ih hq ?_ hu'.of_append (by simp)
    rw [hqrest, rest_foldl_read, hrest, List.drop_left]

end Unifies

end Reader

end EcmaLex
