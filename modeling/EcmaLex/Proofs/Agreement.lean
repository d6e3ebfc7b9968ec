import EcmaLex.Proofs.Cursor

/-!
# Readers that agree

Two readers may work under different options or on different texts, and still report the same, as
far as some diagnostics go that are kept and others that are not. They go on to do so as long as
their positions are the same, if every remark either counts for both of them or is not kept.
-/

namespace EcmaLex

def Remark.Settled (kept : Diagnostic → Bool) (o' o : Options) (m : Remark) : Prop :=
  m.rule.holds o' = m.rule.holds o ∨ ∀ p, kept (m.issue.diagnostic p) = false

theorem Remark.settled_self (kept : Diagnostic → Bool) (o : Options) (m : Remark) :
    m.Settled kept o o := .inl rfl

def Trace.Settled (kept : Diagnostic → Bool) (o' o : Options) (t : Trace) : Prop :=
  ∀ place m, Event.note place m ∈ t → m.Settled kept o' o

namespace Reader

variable {kept : Diagnostic → Bool} {r r' : Reader}

theorem inspect_of_safe {c : Char} (hc : isUnsafeChar c = false) : r.inspect c = r := by
  rw [inspect, if_neg (by simp [hc])]

@[simp] theorem options_read (r : Reader) (c : Char) : (r.read c).options = r.options := by
  have hinspect : (r.inspect c).options = r.options := by
    unfold inspect
    split <;> rfl
  rw [← hinspect, read, leave]
  split <;> rfl

theorem options_followFrom (r : Reader) (p : Position) (ps : List Position) (t : Trace) :
    (r.followFrom p ps t).options = r.options := by
  induction t generalizing r ps with
  | nil => rfl
  | cons e t ih =>
    cases e with
    | read c => rw [followFrom, ih, options_read]
    | note place remark =>
      rw [followFrom, ih]
      split <;> rfl

@[simp] theorem options_follow (r : Reader) (t : Trace) : (r.follow t).options = r.options :=
  options_followFrom r _ [] t

/-- Two readers have reported the same, of what is kept, and will say the same of each line. -/
structure Agrees (kept : Diagnostic → Bool) (r' r : Reader) : Prop where
  leftLine : r'.leftLine = r.leftLine
  diagnostics : r'.diagnostics.toList.filter kept = r.diagnostics.toList.filter kept
  lines : ∀ n, (r'.lineDiagnostics n).filter kept = (r.lineDiagnostics n).filter kept

namespace Agrees

theorem toList_eq (h : Agrees (fun _ => true) r' r) :
    r'.diagnostics.toList = r.diagnostics.toList := by
  have hall : ∀ ds : List Diagnostic, ds.filter (fun _ => true) = ds :=
    fun ds => List.filter_eq_self.mpr fun _ _ => rfl
  rw [← hall r'.diagnostics.toList, h.diagnostics, hall]

theorem report (h : Agrees kept r' r) (i : Issue) (p : Position) :
    Agrees kept (r'.report i p) (r.report i p) where
  leftLine := h.leftLine
  diagnostics := by
    simp only [Reader.report, Diagnostics.toList_push, List.filter_append, h.diagnostics]
  lines := h.lines

theorem report_dropped (h : Agrees kept r' r) {i : Issue} {p : Position}
    (hi : kept (i.diagnostic p) = false) : Agrees kept (r'.report i p) r where
  leftLine := h.leftLine
  diagnostics := by
    rw [Reader.report, Diagnostics.toList_push, List.filter_append,
      List.filter_cons_of_neg (by simp [hi]), List.filter_nil, List.append_nil, h.diagnostics]
  lines := h.lines

theorem symm (h : Agrees kept r' r) : Agrees kept r r' where
  leftLine := h.leftLine.symm
  diagnostics := h.diagnostics.symm
  lines := fun n => (h.lines n).symm

theorem checkLine (h : Agrees kept r' r) (n : Nat) :
    Agrees kept (r'.checkLine n) (r.checkLine n) where
  leftLine := h.leftLine
  diagnostics := by
    simp only [Reader.checkLine, Diagnostics.toList_extend, List.filter_append, h.diagnostics,
      h.lines]
  lines := h.lines

theorem advance (h : Agrees kept r' r) : Agrees kept r'.advance r.advance :=
  ⟨h.leftLine, h.diagnostics, h.lines⟩

theorem inspect (h : Agrees kept r' r) (hp : r'.position = r.position) (c : Char) :
    Agrees kept (r'.inspect c) (r.inspect c) := by
  unfold Reader.inspect
  split
  · rw [hp]
    exact h.report _ _
  · exact h

theorem leave (h : Agrees kept r' r) (hl : r'.position.line = r.position.line) (n : Nat) :
    Agrees kept (r'.leave n) (r.leave n) := by
  unfold Reader.leave
  rw [hl]
  split
  · exact h
  · have hleft : Agrees kept { r' with leftLine := true } { r with leftLine := true } :=
      ⟨rfl, h.diagnostics, h.lines⟩
    exact hleft.checkLine n

/-- Two readers agree behind their next characters, if they agree on what is reported of these and
come to the same line. -/
theorem read_of_inspect {c' c : Char} (h : Agrees kept (r'.inspect c') (r.inspect c))
    (hl : r'.position.line = r.position.line)
    (hq : r'.cursor.advance.position.line = r.cursor.advance.position.line) :
    Agrees kept (r'.read c') (r.read c) := by
  have hadvance : ∀ (s : Reader) (d : Char),
      (s.inspect d).advance.position = s.cursor.advance.position := by
    intro s d
    rw [← cursor_inspect s d]
    rfl
  rw [Reader.read, Reader.read, hl]
  apply h.advance.leave
  rw [hadvance, hadvance, hq]

theorem read (h : Agrees kept r' r) (hp : r'.position = r.position) (c : Char)
    (hq : r'.cursor.advance.position = r.cursor.advance.position) :
    Agrees kept (r'.read c) (r.read c) :=
  (h.inspect hp c).read_of_inspect (congrArg Position.line hp) (congrArg Position.line hq)

/-- A remark that is settled leaves two readers in agreement. -/
theorem note (h : Agrees kept r' r) {m : Remark} (hm : m.Settled kept r'.options r.options)
    (p : Position) :
    Agrees kept (if m.rule.holds r'.options then r'.report m.issue p else r')
      (if m.rule.holds r.options then r.report m.issue p else r) := by
  rcases hm with hholds | hdropped
  · rw [hholds]
    split
    · exact h.report _ _
    · exact h
  · split
    · split
      · exact h.report _ _
      · exact h.report_dropped (hdropped p)
    · split
      · exact (h.symm.report_dropped (hdropped p)).symm
      · exact h

/-- Two readers that agree agree behind a trace, if they pass through the same positions. -/
theorem followFrom {t : Trace} (h : Agrees kept r' r)
    (hs : t.Settled kept r'.options r.options)
    (hp : ∀ n ≤ t.text.length,
      (r'.cursor.advanceBy n).position = (r.cursor.advanceBy n).position)
    (start : Position) (visited : List Position) :
    Agrees kept (r'.followFrom start visited t) (r.followFrom start visited t) := by
  -- The positions visited are the same for both readers, and so are the places of remarks.
  induction t generalizing r' r visited with
  | nil => exact h
  | cons e t ih =>
    have hnow : r'.position = r.position := hp 0 (Nat.zero_le _)
    have hs' : Trace.Settled kept r'.options r.options t :=
      fun place m hm => hs place m (List.mem_cons_of_mem _ hm)
    cases e with
    | read c =>
      rw [Reader.followFrom, Reader.followFrom, hnow]
      apply ih
      · exact h.read hnow c (hp 1 (by simp))
      · rwa [options_read, options_read]
      · intro n hn
        rw [cursor_read, cursor_read]
        exact hp (n + 1) (by simpa using hn)
    | note place m =>
      have hlocate : r'.locate start visited place = r.locate start visited place := by
        unfold Reader.locate
        split <;> simp [hnow]
      rw [Reader.followFrom, Reader.followFrom, hlocate]
      have hnote := h.note (hs place m List.mem_cons_self) (r.locate start visited place)
      apply ih hnote
      · split <;> split <;> exact hs'
      · intro n hn
        have h := hp n hn
        split <;> split <;> exact h

theorem follow {t : Trace} (h : Agrees kept r' r) (hs : t.Settled kept r'.options r.options)
    (hp : ∀ n ≤ t.text.length,
      (r'.cursor.advanceBy n).position = (r.cursor.advanceBy n).position) :
    Agrees kept (r'.follow t) (r.follow t) := by
  have hnow : r'.position = r.position := hp 0 (Nat.zero_le _)
  rw [Reader.follow, Reader.follow, hnow]
  exact h.followFrom hs hp _ _

end Agrees

end Reader

end EcmaLex
