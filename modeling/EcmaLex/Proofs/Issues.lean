import EcmaLex.Proofs.Agreement
import EcmaLex.Proofs.LineEnds.Trace
import EcmaLex.Proofs.Remarks

/-!
# The issues of a trace

A trace has an issue for every unsafe character that it reads and for every remark that counts. As
long as no line is left, these issues are all that a reader finds which follows the trace, and each
of them stands as many columns behind the start of the trace as characters are read before it.
-/

namespace EcmaLex

open Text (Inline)

def Issue.saying (i : Issue) : String × String := (i.code, i.message)

def Diagnostic.saying (d : Diagnostic) : String × String := (d.code, d.message)

namespace Trace

def issues (o : Options) : Trace → List Issue
  | [] => []
  | .read c :: t => (if isUnsafeChar c then [.unsafeCharacter] else []) ++ issues o t
  | .note _ m :: t => (if m.rule.holds o then [m.issue] else []) ++ issues o t

variable {o : Options}

@[simp] theorem issues_nil : issues o [] = [] := rfl

@[simp] theorem issues_noteStart (i : Issue) : issues o (noteStart i) = [i] := rfl

theorem issues_cons_read {c : Char} (hc : isUnsafeChar c = false) (t : Trace) :
    issues o (.read c :: t) = issues o t := by
  rw [issues, hc]
  rfl

@[simp] theorem issues_append (s t : Trace) : issues o (s ++ t) = issues o s ++ issues o t := by
  induction s with
  | nil => rfl
  | cons e s ih => cases e <;> simp [issues, ih]

theorem issues_flatMap_noteAt (place : Place) (is : List Issue) :
    issues o (is.flatMap (noteAt place)) = is := by
  induction is with
  | nil => rfl
  | cons i is ih => exact congrArg (i :: ·) ih

theorem issues_eq_nil {t : Trace} (hsafe : ∀ c ∈ t.text, isUnsafeChar c = false)
    (hsilent : t.Remarks fun _ => False) : t.issues o = [] := by
  induction t with
  | nil => rfl
  | cons e t ih =>
    cases e with
    | read c =>
      obtain ⟨hc, hsafe⟩ := List.forall_mem_cons.mp hsafe
      rw [issues_cons_read hc, ih hsafe ((remarks_read c t).mp hsilent)]
    | note place m => exact (((remarks_note place m t).mp hsilent).1).elim

theorem issues_reads {w : Text} (hw : ∀ c ∈ w, isUnsafeChar c = false) :
    issues o (reads w) = [] :=
  issues_eq_nil (by rwa [text_reads]) (by simp)

end Trace

def Place.offset (n : Nat) : Place → Nat
  | start => 0
  | back k => n - k

namespace Trace

def found (o : Options) (n : Nat) : Trace → List (Nat × Issue)
  | [] => []
  | .read c :: t =>
    (if isUnsafeChar c then [(n, .unsafeCharacter)] else []) ++ found o (n + 1) t
  | .note place m :: t =>
    (if m.rule.holds o then [(place.offset n, m.issue)] else []) ++ found o n t

theorem found_append (o : Options) (n : Nat) (s t : Trace) :
    found o n (s ++ t) = found o n s ++ found o (n + s.text.length) t := by
  induction s generalizing n with
  | nil => rfl
  | cons e s ih =>
    cases e with
    | read c => simp [found, ih, Nat.add_assoc, Nat.add_comm 1]
    | note place m => simp [found, ih]

theorem map_snd_found (o : Options) (n : Nat) (t : Trace) :
    (t.found o n).map Prod.snd = t.issues o := by
  induction t generalizing n with
  | nil => rfl
  | cons e t ih =>
    cases e with
    | read c => cases hc : isUnsafeChar c <;> simp [found, issues, hc, ih]
    | note place m => cases hm : m.rule.holds o <;> simp [found, issues, hm, ih]

/-- Issues of some sort are not found where all remarks are on other ones. -/
theorem filter_found_eq_nil (sort : Issue → Bool) (hsafe : sort .unsafeCharacter = false)
    {t : Trace} (ht : t.Remarks fun m => sort m.issue = false) {n : Nat} :
    (found o n t).filter (fun f => sort f.2) = [] := by
  induction t generalizing n with
  | nil => rfl
  | cons e t ih =>
    cases e with
    | read c =>
      have hrest := ih (n := n + 1) ((remarks_read c t).mp ht)
      cases hc : isUnsafeChar c <;> simp only [found, hc] <;> simpa [hsafe] using hrest
    | note place m =>
      obtain ⟨hm, ht⟩ := (remarks_note place m t).mp ht
      have hrest := ih (n := n) ht
      cases hholds : m.rule.holds o <;> simp only [found, hholds] <;> simpa [hm] using hrest

end Trace

def Position.right (p : Position) (n : Nat) : Position := { p with column := p.column + n }

namespace Reader

variable {r : Reader}

theorem read_inline {c : Char} {u : Text} (hrest : r.rest = c :: u)
    (hc : isLineTerminator c = false) :
    r.read c = (r.inspect c).advance ∧ (r.read c).position = r.position.right 1 := by
  have hposition : (r.inspect c).advance.position = r.position.right 1 := by
    have hcursor : (r.inspect c).advance.position = r.cursor.advance.position :=
      congrArg (Cursor.position ∘ Cursor.advance) (cursor_inspect r c)
    exact hcursor.trans (Cursor.position_advance_inline hrest hc)
  have hread : r.read c = (r.inspect c).advance := by
    rw [read, leave, if_pos (by rw [hposition]; rfl)]
  exact ⟨hread, by rw [hread, hposition]⟩

theorem locate_inline {start : Position} {visited : List Position} {n : Nat}
    (hposition : r.position = start.right n)
    (hvisited : ∀ k, visited.getD k start = start.right (n - (k + 1))) (place : Place) :
    r.locate start visited place = start.right (place.offset n) := by
  match place with
  | .start => rfl
  | .back 0 => exact hposition
  | .back (k + 1) => exact hvisited k

/-- What a reader finds that has read `n` characters of the line and does not leave it. -/
theorem diagnostics_followFrom_inline {t : Trace} {u : Text} (hrest : r.rest = t.text ++ u)
    (hline : Inline t.text) {start : Position} {visited : List Position} {n : Nat}
    (hposition : r.position = start.right n)
    (hvisited : ∀ k, visited.getD k start = start.right (n - (k + 1))) :
    (r.followFrom start visited t).diagnostics.toList = r.diagnostics.toList ++
      (t.found r.options n).map fun f => f.2.diagnostic (start.right f.1) := by
  induction t generalizing r visited n with
  | nil => simp [followFrom, Trace.found]
  | cons e t ih =>
    cases e with
    | read c =>
      obtain ⟨hc, hline⟩ := (Text.inline_cons c _).mp hline
      obtain ⟨hread, hnext⟩ := read_inline hrest hc
      have hfound : (r.read c).diagnostics.toList = r.diagnostics.toList ++
          (if isUnsafeChar c then [(n, Issue.unsafeCharacter)] else []).map
            fun f => f.2.diagnostic (start.right f.1) := by
        rw [hread, inspect, hposition]
        split <;> simp [report, advance]
      have hbehind : ∀ k, (r.position :: visited).getD k start =
          start.right (n + 1 - (k + 1)) := by
        intro k
        cases k with
        | zero => exact hposition
        | succ k => exact (hvisited k).trans (by rw [Nat.add_sub_add_right])
      have hmore := ih (r := r.read c)
        (by rw [rest_read, hrest]; rfl) hline (n := n + 1) (by rw [hnext, hposition]; rfl) hbehind
      rw [followFrom, hmore, hfound, options_read, Trace.found, List.map_append, List.append_assoc]
    | note place m =>
      cases hholds : m.rule.holds r.options with
      | true =>
        -- A remark moves nothing, and its place is one of those visited.
        have hmore := ih (r := r.report m.issue (r.locate start visited place)) hrest hline
          hposition hvisited
        rw [followFrom, if_pos hholds, hmore, Trace.found, if_pos hholds,
          locate_inline hposition hvisited]
        simp [report]
      | false =>
        have hmore := ih hrest hline hposition hvisited
        rw [followFrom, if_neg (by simp [hholds]), hmore, Trace.found,
          if_neg (by simp [hholds])]
        rfl

theorem diagnostics_follow_inline {t : Trace} {u : Text} (hrest : r.rest = t.text ++ u)
    (hline : Inline t.text) :
    (r.follow t).diagnostics.toList = r.diagnostics.toList ++
      (t.found r.options 0).map fun f => f.2.diagnostic (r.position.right f.1) :=
  diagnostics_followFrom_inline hrest hline rfl fun k => by rw [Nat.zero_sub]; rfl

theorem exists_sayings_follow {t : Trace} {u : Text} (hrest : r.rest = t.text ++ u)
    (hline : Inline t.text) :
    ∃ ds, (r.follow t).diagnostics.toList = r.diagnostics.toList ++ ds ∧
      ds.map Diagnostic.saying = (t.issues r.options).map Issue.saying := by
  refine ⟨_, diagnostics_follow_inline hrest hline, ?_⟩
  rw [← Trace.map_snd_found r.options 0, List.map_map, List.map_map]
  rfl

end Reader

end EcmaLex
