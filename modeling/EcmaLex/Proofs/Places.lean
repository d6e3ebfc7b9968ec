import EcmaLex.Proofs.Issues
import EcmaLex.Proofs.Passing

/-!
# Where reports stand

A token may go on over several lines. What is reported of it stands where the characters of its text
lead to that are read before the place of the remark. This holds for all codes but those of unsafe
characters and of whole lines, which come with the reading itself.
-/

namespace EcmaLex

def Position.along (p : Position) : Text → Nat → Position
  | _, 0 => p
  | [], _ + 1 => p
  | c :: t, n + 1 => (p.step c t.head?).along t n

theorem Cursor.position_advanceBy (k : Cursor) (n : Nat) :
    (k.advanceBy n).position = k.position.along k.rest n := by
  induction n generalizing k with
  | zero => cases k.rest <;> rfl
  | succ n ih =>
    rw [advanceBy, ih]
    cases h : k.rest with
    | nil =>
      rw [advance_nil h, h]
      cases n <;> rfl
    | cons c t =>
      obtain ⟨hrest, -, hposition⟩ := advance_cons h
      rw [hrest, hposition, Position.along]

namespace Trace

def foundOf (codes : List String) (o : Options) (n : Nat) (t : Trace) : List (Nat × Issue) :=
  (t.found o n).filter fun f => codes.contains f.2.code

variable {codes : List String} {o : Options} {n : Nat}

@[simp] theorem foundOf_nil : foundOf codes o n [] = [] := rfl

theorem foundOf_append (s t : Trace) :
    foundOf codes o n (s ++ t) = foundOf codes o n s ++ foundOf codes o (n + s.text.length) t := by
  simp only [foundOf, found_append, List.filter_append]

theorem foundOf_read (hsafe : Issue.unsafeCharacter.code ∉ codes) (c : Char) (t : Trace) :
    foundOf codes o n (.read c :: t) = foundOf codes o (n + 1) t := by
  cases hc : isUnsafeChar c <;> simp [foundOf, found, hc, hsafe]

theorem foundOf_note (place : Place) (m : Remark) (t : Trace) :
    foundOf codes o n (.note place m :: t) =
      (if m.rule.holds o ∧ m.issue.code ∈ codes then [(place.offset n, m.issue)] else []) ++
        foundOf codes o n t := by
  cases hm : m.rule.holds o <;> by_cases hcode : m.issue.code ∈ codes <;>
    simp [foundOf, found, hm, hcode]

theorem foundOf_eq_nil (hsafe : Issue.unsafeCharacter.code ∉ codes) {t : Trace}
    (ht : t.Remarks fun m => m.issue.code ∉ codes) : foundOf codes o n t = [] :=
  filter_found_eq_nil (fun i => codes.contains i.code) (by simpa using hsafe)
    (ht.mono fun m hm => by simpa using hm)

end Trace

namespace Reader

variable {codes : List String} {r : Reader}

theorem locate_along {k : Cursor} {visited : List Position} {n : Nat}
    (hcursor : r.cursor = k.advanceBy n)
    (hvisited : ∀ j, visited.getD j k.position = (k.advanceBy (n - (j + 1))).position)
    (place : Place) :
    r.locate k.position visited place = (k.advanceBy (place.offset n)).position := by
  match place with
  | .start => rfl
  | .back 0 => exact congrArg Cursor.position hcursor
  | .back (j + 1) => exact hvisited j

/-- What a reader reports that has read `n` characters behind the cursor `k`. -/
theorem reported_followFrom_along (hsafe : Issue.unsafeCharacter.code ∉ codes)
    (hlines : ∀ code ∈ lineCodes, code ∉ codes) {k : Cursor} {visited : List Position} {n : Nat}
    (hcursor : r.cursor = k.advanceBy n)
    (hvisited : ∀ j, visited.getD j k.position = (k.advanceBy (n - (j + 1))).position)
    (t : Trace) : (r.followFrom k.position visited t).reported codes = r.reported codes ++
      (t.foundOf codes r.options n).map fun f => f.2.diagnostic (k.advanceBy f.1).position := by
  induction t generalizing r visited n with
  | nil => simp [followFrom]
  | cons e t ih =>
    cases e with
    | read c =>
      have hnext : (r.read c).cursor = k.advanceBy (n + 1) := by
        rw [cursor_read, hcursor, Cursor.advanceBy_add]
        rfl
      have hbehind : ∀ j, (r.position :: visited).getD j k.position =
          (k.advanceBy (n + 1 - (j + 1))).position := by
        intro j
        cases j with
        | zero => exact congrArg Cursor.position hcursor
        | succ j => exact (hvisited j).trans (by rw [Nat.add_sub_add_right])
      rw [followFrom, ih hnext hbehind, reported_read_of_disjoint hsafe hlines, options_read,
        Trace.foundOf_read hsafe]
    | note place m =>
      rw [followFrom, Trace.foundOf_note]
      split
      · rename_i hholds
        have hmore := ih (r := r.report m.issue (r.locate k.position visited place)) hcursor
          hvisited
        rw [hmore, reported_report, locate_along hcursor hvisited]
        by_cases hcode : m.issue.code ∈ codes <;> simp [hholds, hcode, report]
      · rename_i hholds
        rw [ih hcursor hvisited, if_neg fun h => hholds h.1]
        rfl

theorem reported_follow_along (hsafe : Issue.unsafeCharacter.code ∉ codes)
    (hlines : ∀ code ∈ lineCodes, code ∉ codes) (r : Reader) (t : Trace) :
    (r.follow t).reported codes = r.reported codes ++
      (t.foundOf codes r.options 0).map fun f => f.2.diagnostic (r.position.along r.rest f.1) := by
  have hfollow : (r.followFrom r.position [] t).reported codes = _ :=
    reported_followFrom_along hsafe hlines (k := r.cursor) (n := 0) rfl
      (fun j => by rw [Nat.zero_sub]; rfl) t
  simp only [Cursor.position_advanceBy] at hfollow
  exact hfollow

end Reader

namespace Lexer

variable {codes : List String} {l l' : Lexer} {k : Token}

theorem reported_behind_reading [Primitives] (hsafe : Issue.unsafeCharacter.code ∉ codes)
    (hlines : ∀ code ∈ lineCodes, code ∉ codes) {g w u : Text} (h : NextCut l g w u) :
    (l.behind l.reading).reader.reported codes = l.reading.before.reported codes ++
      (l.reading.lexeme.trace.foundOf codes l.options 0).map
        fun f => f.2.diagnostic (l.reading.token.start.along (w ++ u) f.1) := by
  have hoptions : l.reading.before.options = l.options := Reader.options_follow _ _
  rw [l.reader_behind_of_checkLine (Reader.reported codes) (fun _ => rfl)
    (Reader.reported_checkLine_of_disjoint hlines), Reader.reported_follow_along hsafe hlines,
    hoptions, h.before]
  rfl

/-- The call that yields the token `k` of the text `t` has read it as the lexeme `m`, with which the
text `u` starts. -/
structure ReadsLexeme (t : Text) (l : Lexer) (k : Token) (l' : Lexer) (u : Text) (m : Lexeme) :
    Prop where
  place : ∃ p, t = p ++ u ∧ p.utf8Size = k.range.1
  raw : k.raw = m.raw
  value : k.value = m.value
  malformed : k.malformed = m.malformed
  unclosed : k.unclosed = m.unclosed
  /-- What stands behind the token is left to read. -/
  rest : u = k.raw ++ l'.reader.rest
  offset : l'.reader.offset = k.range.2
  finished : k.raw ≠ [] → l'.finished = false
  /-- What is not found on the way to the token is reported of the token. -/
  reported : ∀ codes : List String, (∀ code ∈ passedCodes, code ∉ codes) →
    l'.reader.reported codes = l.reader.reported codes ++
      (m.trace.foundOf codes l.options 0).map fun f => f.2.diagnostic (k.start.along u f.1)

/-- A call of a run reads the lexeme of its token at the place of the token. -/
theorem exists_readsLexeme [Primitives] (t : Text) (o : Options) (w : Bool) (n : Nat)
    (h : ((start t o w).calls n).2.next = some (k, l')) : ∃ u context,
      ReadsLexeme t ((start t o w).calls n).2 k l' u (Lexeme.scan context u) := by
  obtain ⟨p, ht, hp⟩ := exists_text_calls t o w n
  obtain ⟨m, g, hg, hf, rfl, rfl⟩ := exists_leads h
  obtain ⟨gap, v, u, hc⟩ := exists_nextCut m
  have hplace := hc.exists_place (t := t) (p := p ++ g) (by rw [ht, hg.rest, List.append_assoc])
    (by rw [Text.utf8Size_append, hp, hg.offset])
  have hraw : m.reading.token.raw = v := hc.raw
  refine ⟨v ++ u, m.context, hplace, ?_, ?_, ?_, ?_, ?_, ?_, ?_, fun codes hcodes => ?_⟩
  · rw [← hc.lexeme]
    rfl
  · rw [← hc.lexeme]
    rfl
  · rw [← hc.lexeme]
    rfl
  · rw [← hc.lexeme]
    rfl
  · rw [hraw, hc.rest_behind]
  · exact NextCut.offset_behind m
  · exact fun hne => hc.not_finished_behind hf (hraw ▸ hne)
  · have hsafe : Issue.unsafeCharacter.code ∉ codes := hcodes _ (by decide)
    have hsubset : ∀ code ∈ lineCodes, code ∈ passedCodes := by decide
    have hoptions : m.options = ((start t o w).calls n).2.options := hg.options
    rw [reported_behind_reading hsafe (fun code hcode => hcodes _ (hsubset _ hcode)) hc,
      reported_of_added hcodes hg.adds_before, hoptions, hc.lexeme]

end Lexer

end EcmaLex
