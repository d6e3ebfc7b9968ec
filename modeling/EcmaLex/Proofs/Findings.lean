import EcmaLex.Primitives.Standard
import EcmaLex.Proofs.Calls
import EcmaLex.Proofs.LineTable
import EcmaLex.Proofs.Reported

/-!
# What a call finds

A call appends to the diagnostics found so far. What it appends, the checks of whole lines aside, is
found in the gap before its token or in the token itself, from its start to its end.
-/

namespace EcmaLex

namespace Cursor

theorem position_le_advance (k : Cursor) : k.position ≤ k.advance.position := by
  cases h : k.rest with
  | nil => rw [advance_nil h]; exact Std.le_refl _
  | cons c t => exact Std.le_of_lt (position_lt_advance h)

theorem position_le_advanceBy (k : Cursor) (n : Nat) : k.position ≤ (k.advanceBy n).position := by
  induction n generalizing k with
  | zero => exact Std.le_refl _
  | succ n ih => exact Std.le_trans k.position_le_advance (ih k.advance)

end Cursor

namespace Reader

variable {r r' r'' : Reader} {p : Issue → Position → Prop}

theorem position_lt_read {c : Char} {u : Text} (h : r.rest = c :: u) :
    r.position < (r.read c).position := by
  have hcursor : (r.read c).position = r.cursor.advance.position :=
    congrArg Cursor.position (cursor_read r c)
  rw [hcursor]
  exact Cursor.position_lt_advance h

theorem position_le_followFrom (r : Reader) (start : Position) (visited : List Position)
    (t : Trace) : r.position ≤ (r.followFrom start visited t).position := by
  have hcursor : (r.followFrom start visited t).position =
      (r.cursor.advanceBy t.text.length).position :=
    congrArg Cursor.position (cursor_followFrom r start visited t)
  rw [hcursor]
  exact r.cursor.position_le_advanceBy _

def Adds (p : Issue → Position → Prop) (r r' : Reader) : Prop :=
  ∃ found : List (Issue × Position),
    r'.diagnostics.toList = r.diagnostics.toList ++ found.map (fun f => f.1.diagnostic f.2) ∧
      ∀ f ∈ found, f.1.code ∈ lineCodes ∨ p f.1 f.2

namespace Adds

theorem refl (r : Reader) : r.Adds p r := ⟨[], by simp, by simp⟩

theorem trans (h : r.Adds p r') (h' : r'.Adds p r'') : r.Adds p r'' := by
  obtain ⟨found, hfound, hp⟩ := h
  obtain ⟨found', hfound', hp'⟩ := h'
  refine ⟨found ++ found', by rw [hfound', hfound, List.map_append, List.append_assoc], ?_⟩
  intro f hf
  rcases List.mem_append.mp hf with hf | hf
  · exact hp f hf
  · exact hp' f hf

theorem mono {q : Issue → Position → Prop} (h : r.Adds p r')
    (hpq : ∀ i position, p i position → q i position) : r.Adds q r' := by
  obtain ⟨found, hfound, hp⟩ := h
  exact ⟨found, hfound, fun f hf => (hp f hf).imp_right (hpq f.1 f.2)⟩

theorem report {i : Issue} {position : Position} (h : p i position) :
    r.Adds p (r.report i position) := by
  refine ⟨[(i, position)], by simp [Reader.report], ?_⟩
  intro f hf
  obtain rfl := List.mem_singleton.mp hf
  exact .inr h

theorem checkLine (r : Reader) (n : Nat) : r.Adds p (r.checkLine n) := by
  cases hline : r.source.line? n with
  | none => exact ⟨[], by simp [Reader.checkLine, lineDiagnostics, hline], by simp⟩
  | some line =>
    refine ⟨(LineCheck.issues r.options line).map fun f => (f.2, { line := n, column := f.1 }), ?_,
      ?_⟩
    · simp [Reader.checkLine, lineDiagnostics, hline, Function.comp_def]
    · intro f hf
      obtain ⟨⟨column, i⟩, hi, rfl⟩ := List.mem_map.mp hf
      have hcode : i.code ∈ lineCodes := by
        rcases LineCheck.eq_of_mem_issues hi with rfl | rfl | rfl <;> decide
      exact .inl hcode

/-- Reading a character finds at most that it is unsafe, and what the line has that it ends. -/
theorem read (h : p .unsafeCharacter r.position) (c : Char) : r.Adds p (r.read c) := by
  have hinspect : r.Adds p (r.inspect c).advance := by
    unfold inspect
    split
    · exact report h
    · exact refl r
  refine hinspect.trans ?_
  rw [Reader.read, leave]
  split
  · exact refl _
  · exact checkLine (r := { (r.inspect c).advance with leftLine := true }) _

end Adds

/-- A place lies between the start of a trace and the cursor. -/
theorem locate_between {start : Position} {visited : List Position} (hstart : start ≤ r.position)
    (hvisited : ∀ q ∈ visited, start ≤ q ∧ q ≤ r.position) (place : Place) :
    start ≤ r.locate start visited place ∧ r.locate start visited place ≤ r.position := by
  match place with
  | .start => exact ⟨Std.le_refl _, hstart⟩
  | .back 0 => exact ⟨hstart, Std.le_refl _⟩
  | .back (n + 1) =>
    rw [locate, List.getD_eq_getElem?_getD]
    cases hn : visited[n]? with
    | none => exact ⟨Std.le_refl _, hstart⟩
    | some q => exact hvisited q (List.mem_of_getElem? hn)

end Reader

/-- An issue that is found between two positions, be it an unsafe character or what a remark of the
trace is about. -/
structure Trace.Raises (t : Trace) (start stop : Position) (i : Issue) (position : Position) :
    Prop where
  source : i = .unsafeCharacter ∨ ∃ place m, Event.note place m ∈ t ∧ m.issue = i
  start_le : start ≤ position
  le_stop : position ≤ stop

namespace Reader

variable {r : Reader}

/-- A reader that follows a trace finds what the trace raises on the way. -/
theorem adds_followFrom {start : Position} {visited : List Position} {t : Trace} {u : Text}
    (hrest : r.rest = t.text ++ u) (hstart : start ≤ r.position)
    (hvisited : ∀ q ∈ visited, start ≤ q ∧ q ≤ r.position) :
    r.Adds (t.Raises start (r.followFrom start visited t).position)
      (r.followFrom start visited t) := by
  induction t generalizing r visited with
  | nil => exact .refl r
  | cons e t ih =>
    -- What the rest of the trace raises, the whole trace does.
    have hlater : ∀ stop i position, Trace.Raises t start stop i position →
        Trace.Raises (e :: t) start stop i position := by
      intro stop i position h
      refine ⟨h.source.imp_right ?_, h.start_le, h.le_stop⟩
      rintro ⟨place, m, hm, hi⟩
      exact ⟨place, m, List.mem_cons_of_mem e hm, hi⟩
    have hstop := r.position_le_followFrom start visited (e :: t)
    cases e with
    | read c =>
      have hlt : r.position < (r.read c).position := position_lt_read hrest
      have hle : r.position ≤ (r.read c).position := Std.le_of_lt hlt
      refine .trans (.read ⟨.inl rfl, hstart, hstop⟩ c) ((ih ?_ ?_ ?_).mono (hlater _))
      · rw [rest_read, hrest]
        rfl
      · exact Std.le_trans hstart hle
      · intro q hq
        rcases List.mem_cons.mp hq with rfl | hq
        · exact ⟨hstart, hle⟩
        · exact ⟨(hvisited q hq).1, Std.le_trans (hvisited q hq).2 hle⟩
    | note place m =>
      obtain ⟨hfirst, hlast⟩ := locate_between hstart hvisited place
      rw [followFrom] at hstop ⊢
      split
      · rename_i hholds
        rw [if_pos hholds] at hstop
        refine .trans (.report ⟨.inr ⟨place, m, List.mem_cons_self, rfl⟩, hfirst, ?_⟩)
          ((ih (r := r.report _ _) hrest hstart hvisited).mono (hlater _))
        exact Std.le_trans hlast hstop
      · exact (ih hrest hstart hvisited).mono (hlater _)

theorem adds_follow {t : Trace} {u : Text} (hrest : r.rest = t.text ++ u) :
    r.Adds (t.Raises r.position (r.follow t).position) (r.follow t) :=
  adds_followFrom hrest (Std.le_refl _) (by simp)

end Reader

structure RaisedInGap (start stop : Position) (i : Issue) (position : Position) : Prop where
  source : i = .unsafeCharacter ∨ i = .unbegunComment
  start_le : start ≤ position
  lt_stop : position < stop

namespace Reader

variable {r : Reader}

theorem adds_read_of_gap {c : Char} {u : Text} (hrest : r.rest = c :: u) {stop : Position}
    (hstop : (r.read c).position ≤ stop) {r' : Reader}
    (h : (r.read c).Adds (RaisedInGap (r.read c).position stop) r') :
    r.Adds (RaisedInGap r.position stop) r' := by
  have hlt : r.position < (r.read c).position := position_lt_read hrest
  refine .trans (.read ⟨.inl rfl, Std.le_refl _, Std.lt_of_lt_of_le hlt hstop⟩ c) ?_
  exact h.mono fun i position hi =>
    ⟨hi.source, Std.le_trans (Std.le_of_lt hlt) hi.start_le, hi.lt_stop⟩

/-- The mark that closes a comment which was never opened is found where it starts. -/
theorem adds_mark_of_gap {u : Text} (hrest : r.rest = '*' :: '/' :: u) {stop : Position}
    (hstop : (((r.report .unbegunComment r.position).read '*').read '/').position ≤ stop)
    {r' : Reader}
    (h : (((r.report .unbegunComment r.position).read '*').read '/').Adds
      (RaisedInGap (((r.report .unbegunComment r.position).read '*').read '/').position stop) r') :
    r.Adds (RaisedInGap r.position stop) r' := by
  have hstar : (r.report .unbegunComment r.position).rest = '*' :: '/' :: u := hrest
  have hslash : ((r.report .unbegunComment r.position).read '*').rest = '/' :: u := by
    rw [rest_read, hstar]
    rfl
  have hlt : (r.report .unbegunComment r.position).position <
      ((r.report .unbegunComment r.position).read '*').position := position_lt_read hstar
  have hle := Std.le_trans (Std.le_of_lt (position_lt_read hslash)) hstop
  refine .trans (.report ⟨.inr rfl, Std.le_refl _, Std.lt_of_lt_of_le hlt hle⟩) ?_
  exact adds_read_of_gap hstar hle (adds_read_of_gap hslash hstop h)

/-- All that is found in a gap is found before the gap ends. -/
theorem adds_gap {t u : Text} (hrest : r.rest = (gap t).text ++ u) (start : Position)
    (visited : List Position) :
    r.Adds (RaisedInGap r.position (r.followFrom start visited (gap t)).position)
      (r.followFrom start visited (gap t)) := by
  fun_induction gap t generalizing r visited with
  | case1 => exact .refl r
  | case2 t ih =>
    have hbehind : (((r.report .unbegunComment r.position).read '*').read '/').rest =
        (gap t).text ++ u := by
      rw [rest_read, rest_read]
      exact congrArg (List.tail ∘ List.tail) hrest
    exact adds_mark_of_gap hrest (position_le_followFrom _ _ _ _) (ih hbehind _)
  | case3 => exact .refl r
  | case4 c t _ _ ih =>
    have hbehind : (r.read c).rest = (gap t).text ++ u := by
      rw [rest_read, hrest]
      rfl
    exact adds_read_of_gap hrest (position_le_followFrom _ _ _ _) (ih hbehind _)

end Reader

namespace Lexer

variable [Primitives] {l l' : Lexer} {k : Token}

/-- What a reading finds: something in the gap or in the token behind it. -/
theorem adds_behind (l : Lexer) : l.reader.Adds
    (fun i position => RaisedInGap l.reader.position l.reading.token.start i position ∨
      l.reading.lexeme.trace.Raises l.reading.token.start l.reading.token.stop i position)
    (l.behind l.reading).reader := by
  have hgap : l.reader.Adds (RaisedInGap l.reader.position l.reading.token.start)
      l.reading.before := Reader.adds_gap l.rest_eq_gap_append _ []
  have hstop : l.reading.token.stop =
      (l.reading.before.follow l.reading.lexeme.trace).position :=
    congrArg Cursor.position l.after_reading.1
  have hlexeme : l.reading.before.Adds
      (l.reading.lexeme.trace.Raises l.reading.token.start l.reading.token.stop)
      (l.reading.before.follow l.reading.lexeme.trace) := by
    rw [hstop]
    exact Reader.adds_follow l.rest_before_eq_append
  have hafter : (l.reading.before.follow l.reading.lexeme.trace).Adds
      (l.reading.lexeme.trace.Raises l.reading.token.start l.reading.token.stop)
      l.reading.after := by
    rw [after_reading_eq]
    split
    · exact .checkLine _ _
    · exact .refl _
  have hbehind : (l.behind l.reading).reader.diagnostics = l.reading.after.diagnostics :=
    l.reader_behind Reader.diagnostics (fun _ => rfl) l.reading
  obtain ⟨found, hfound, hp⟩ := (hgap.mono fun _ _ => Or.inl).trans
    ((hlexeme.trans hafter).mono fun _ _ => Or.inr)
  exact ⟨found, by rw [hbehind, hfound], hp⟩

theorem eq_reading_of_next (hw : l.withComments = true) (h : l.next = some (k, l')) :
    k = l.reading.token ∧ l' = l.behind l.reading := by
  cases hf : l.finished with
  | true => simp [next_of_finished hf] at h
  | false =>
    rw [next_of_yields hf (by simp [yields, hw])] at h
    obtain ⟨rfl, rfl⟩ := Prod.mk.inj (Option.some.inj h)
    exact ⟨rfl, rfl⟩

theorem withComments_calls (l : Lexer) (n : Nat) :
    (l.calls n).2.withComments = l.withComments := by
  induction n generalizing l with
  | zero => rfl
  | succ n ih =>
    cases h : l.next with
    | none => rw [calls_of_next_eq_none h]
    | some r =>
      obtain ⟨_, _, _, _, _, _, hw⟩ := exists_readings_of_next h
      rw [calls_of_next_eq_some h, ih, hw]

/-- Between two calls a lexer stands where the latest token stops. -/
theorem position_calls (hw : l.withComments = true) (n : Nat) :
    (l.calls n).2.reader.position =
      (l.calls n).1.getLast?.elim l.reader.position Token.stop := by
  induction n generalizing l with
  | zero => rfl
  | succ n ih =>
    cases h : l.next with
    | none =>
      rw [calls_of_next_eq_none h]
      rfl
    | some r =>
      obtain ⟨k, l'⟩ := r
      obtain ⟨rfl, rfl⟩ := eq_reading_of_next hw h
      have hposition : (l.behind l.reading).reader.position = l.reading.token.stop :=
        congrArg Cursor.position (NextCut.cursor_behind l)
      rw [calls_of_next_eq_some h, ih ((withComments_behind l _).trans hw), List.getLast?_cons,
        hposition]
      cases ((l.behind l.reading).calls n).1.getLast? <;> rfl

end Lexer

/-- What a call may find that yields the token `k` behind one that stops at `previous`: a defect of
a whole line, something in the gap between the two, or something in `k`. -/
inductive Token.Owns (k : Token) (previous : Position) (d : Diagnostic) : Prop where
  | line (hcode : d.code ∈ lineCodes)
  | gap (hcode : d.code = "unsafe_character" ∨ d.code = "unbegun_comment")
      (hstart : previous ≤ d.position) (hstop : d.position < k.start)
  | token (hstart : k.start ≤ d.position) (hstop : d.position ≤ k.stop)

namespace Lexer

/-- Each call of a run that yields comments appends what its token owns to the diagnostics. -/
theorem owns_calls [Primitives] (t : Text) (o : Options) (n : Nat) {k : Token} {l' : Lexer}
    (h : ((start t o true).calls n).2.next = some (k, l')) :
    ∃ ds, l'.diagnostics.toList = ((start t o true).calls n).2.diagnostics.toList ++ ds ∧
      ∀ d ∈ ds, k.Owns (((start t o true).calls n).1.getLast?.elim
        (start t o true).reader.position Token.stop) d := by
  have hw : ((start t o true).calls n).2.withComments = true := withComments_calls _ n
  rw [← position_calls rfl n]
  generalize ((start t o true).calls n).2 = l at h hw ⊢
  obtain ⟨rfl, rfl⟩ := eq_reading_of_next hw h
  obtain ⟨found, hfound, hp⟩ := l.adds_behind
  refine ⟨_, hfound, ?_⟩
  intro d hd
  obtain ⟨⟨i, position⟩, hf, rfl⟩ := List.mem_map.mp hd
  rcases hp _ hf with hline | hgap | htoken
  · exact .line hline
  · refine .gap ?_ hgap.start_le hgap.lt_stop
    rcases hgap.source with rfl | rfl
    · exact .inl rfl
    · exact .inr rfl
  · exact .token htoken.start_le htoken.le_stop

theorem owns_calls_of_broken_string : ∃ k l',
    ((start "a\x00*/'\\q".toList {} true).calls 1).2.next = some (k, l') ∧
      ∃ ds, l'.diagnostics.toList =
          ((start "a\x00*/'\\q".toList {} true).calls 1).2.diagnostics.toList ++ ds ∧
        ∀ d ∈ ds, k.Owns (((start "a\x00*/'\\q".toList {} true).calls 1).1.getLast?.elim
          (start "a\x00*/'\\q".toList {} true).reader.position Token.stop) d := by
  have hsome : ((start "a\x00*/'\\q".toList {} true).calls 1).2.next.isSome := by decide +kernel
  obtain ⟨⟨k, l'⟩, h⟩ := Option.isSome_iff_exists.mp hsome
  exact ⟨k, l', h, owns_calls _ _ 1 h⟩

end Lexer

end EcmaLex
