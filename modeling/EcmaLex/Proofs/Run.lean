import EcmaLex.Lexer

/-!
# Runs

A run of a lexer calls it until it yields nothing. What it yields are the tokens of all readings up
to the end of the text, without the comments unless they are asked for.
-/

namespace EcmaLex

namespace Lexer

def start (t : Text) (o : Options) (withComments : Bool) : Lexer :=
  { Lexer.ofText t o with withComments }

/-- Calling the lexer over and over yields some tokens and then, from `last` on, nothing. -/
inductive Yields [Primitives] : Lexer → List Token → Lexer → Prop where
  | done {l : Lexer} (h : l.next = none) : Yields l [] l
  | more {l l' last : Lexer} {k : Token} {ks : List Token} (h : l.next = some (k, l'))
      (hs : Yields l' ks last) : Yields l (k :: ks) last

theorem Yields.next_eq_none [Primitives] {l last : Lexer} {ks : List Token} (h : Yields l ks last) :
    last.next = none := by
  induction h with
  | done h => exact h
  | more _ _ ih => exact ih

theorem tokens_of_next_eq_none [Primitives] {l : Lexer} (h : l.next = none) :
    l.tokens = ([], l) := by
  rw [tokens]
  split
  · rfl
  · simp_all

theorem tokens_of_next_eq_some [Primitives] {l l' : Lexer} {k : Token} (h : l.next = some (k, l')) :
    l.tokens = (k :: l'.tokens.1, l'.tokens.2) := by
  rw [tokens]
  split
  · simp_all
  · rename_i heq
    rw [h] at heq
    obtain ⟨rfl, rfl⟩ := Prod.mk.inj (Option.some.inj heq)
    rfl

/-- Every run comes to its end, and then has yielded all tokens. -/
theorem yields_tokens [Primitives] (l : Lexer) : Yields l l.tokens.1 l.tokens.2 := by
  induction hn : l.size using Nat.strongRecOn generalizing l with
  | _ n ih =>
    cases h : l.next with
    | none =>
      rw [tokens_of_next_eq_none h]
      exact .done h
    | some r =>
      obtain ⟨k, l'⟩ := r
      rw [tokens_of_next_eq_some h]
      exact .more h (ih l'.size (hn ▸ size_lt_of_next h) l' rfl)

theorem before_reading [Primitives] (l : Lexer) :
    l.reading.before = l.reader.follow (gap l.reader.rest) := rfl

theorem lexeme_reading [Primitives] (l : Lexer) :
    l.reading.lexeme = Lexeme.scan l.context l.reading.before.rest := rfl

theorem after_reading_eq [Primitives] (l : Lexer) : l.reading.after =
    if l.reading.lexeme.kind = .eof then
      (l.reading.before.follow l.reading.lexeme.trace).checkLine
        (l.reading.before.follow l.reading.lexeme.trace).position.line
    else l.reading.before.follow l.reading.lexeme.trace := rfl

theorem reader_behind {α : Type} (f : Reader → α)
    (hleft : ∀ r, f { r with leftLine := false } = f r) (l : Lexer) (s : Reading) :
    f (l.behind s).reader = f s.after := by
  unfold behind
  split
  · rfl
  · rfl
  · exact hleft s.after

theorem reader_behind_of_checkLine [Primitives] {α : Type} (f : Reader → α)
    (hleft : ∀ r, f { r with leftLine := false } = f r)
    (hcheck : ∀ r n, f (r.checkLine n) = f r) (l : Lexer) :
    f (l.behind l.reading).reader = f (l.reading.before.follow l.reading.lexeme.trace) := by
  rw [reader_behind f hleft, after_reading_eq]
  split
  · exact hcheck _ _
  · rfl

def readings [Primitives] (l : Lexer) : List Reading :=
  if _h : l.finished then [] else l.reading :: (l.behind l.reading).readings
termination_by l.size
decreasing_by exact size_behind_lt l (by simpa using _h)

theorem readings_of_finished [Primitives] {l : Lexer} (h : l.finished = true) :
    l.readings = [] := by
  rw [readings, dif_pos h]

theorem readings_of_not_finished [Primitives] {l : Lexer} (h : l.finished = false) :
    l.readings = l.reading :: (l.behind l.reading).readings := by
  rw [readings, dif_neg (by simp [h])]

theorem readings_induction [Primitives] {motive : Lexer → Prop}
    (finished : ∀ l : Lexer, l.finished = true → motive l)
    (reading : ∀ l : Lexer, l.finished = false → motive (l.behind l.reading) → motive l)
    (l : Lexer) : motive l := by
  induction hn : l.size using Nat.strongRecOn generalizing l with
  | _ n ih =>
    cases h : l.finished with
    | true => exact finished l h
    | false => exact reading l h (ih _ (hn ▸ size_behind_lt l h) _ rfl)

@[simp] theorem withComments_behind (l : Lexer) (s : Reading) :
    (l.behind s).withComments = l.withComments := by
  unfold behind
  split <;> rfl

theorem behind_withComments (l : Lexer) (w : Bool) (s : Reading) :
    ({ l with withComments := w } : Lexer).behind s =
      { l.behind s with withComments := w } := by
  unfold behind
  split <;> rfl

theorem readings_withComments [Primitives] (l : Lexer) (w : Bool) :
    ({ l with withComments := w } : Lexer).readings = l.readings := by
  induction l using readings_induction with
  | finished l h =>
    have h' : ({ l with withComments := w } : Lexer).finished = true := h
    rw [readings_of_finished h, readings_of_finished h']
  | reading l h ih =>
    have h' : ({ l with withComments := w } : Lexer).finished = false := h
    have hreading : ({ l with withComments := w } : Lexer).reading = l.reading := rfl
    rw [readings_of_not_finished h, readings_of_not_finished h', hreading, behind_withComments, ih]

def yields (l : Lexer) (s : Reading) : Bool := l.withComments || !s.token.isComment

theorem next_of_finished [Primitives] {l : Lexer} (h : l.finished = true) : l.next = none := by
  rw [next, if_pos h]

theorem next_of_yields [Primitives] {l : Lexer} (hf : l.finished = false)
    (h : l.yields l.reading = true) :
    l.next = some (l.reading.token, l.behind l.reading) := by
  rw [next, if_neg (by simp [hf])]
  refine if_neg ?_
  simp only [Bool.and_eq_true, Bool.not_eq_true', not_and, Bool.not_eq_false]
  intro hc
  simpa [yields, hc] using h

theorem next_of_not_yields [Primitives] {l : Lexer} (hf : l.finished = false)
    (h : l.yields l.reading = false) : l.next = (l.behind l.reading).next := by
  rw [next, if_neg (by simp [hf])]
  exact if_pos (by simpa [yields, and_comm] using h)

theorem tokens_of_finished [Primitives] {l : Lexer} (h : l.finished = true) : l.tokens = ([], l) :=
  tokens_of_next_eq_none (next_of_finished h)

theorem tokens_of_yields [Primitives] {l : Lexer} (hf : l.finished = false)
    (h : l.yields l.reading = true) :
    l.tokens =
      (l.reading.token :: (l.behind l.reading).tokens.1, (l.behind l.reading).tokens.2) :=
  tokens_of_next_eq_some (next_of_yields hf h)

theorem isComment_of_not_yields {l : Lexer} {s : Reading} (h : l.yields s = false) :
    s.token.isComment = true := by
  simpa using (Bool.or_eq_false_iff.mp h).2

theorem not_finished_behind_of_not_yields [Primitives] {l : Lexer} (hf : l.finished = false)
    (h : l.yields l.reading = false) : (l.behind l.reading).finished = false := by
  have hk : l.reading.lexeme.kind = .comment := of_decide_eq_true (isComment_of_not_yields h)
  rw [behind, hk]
  exact hf

/-- A lexer that has not come to its end yields something. -/
theorem next_ne_none [Primitives] {l : Lexer} (hf : l.finished = false) : l.next ≠ none := by
  induction l using readings_induction with
  | finished l h => simp [h] at hf
  | reading l h ih =>
    cases hk : l.yields l.reading with
    | true =>
      rw [next_of_yields h hk]
      exact Option.some_ne_none _
    | false =>
      rw [next_of_not_yields h hk]
      exact ih (not_finished_behind_of_not_yields h hk)

theorem tokens_of_not_yields [Primitives] {l : Lexer} (hf : l.finished = false)
    (h : l.yields l.reading = false) : l.tokens = (l.behind l.reading).tokens := by
  have hnext := next_of_not_yields hf h
  cases hn : (l.behind l.reading).next with
  | none => exact absurd hn (next_ne_none (not_finished_behind_of_not_yields hf h))
  | some r => rw [tokens_of_next_eq_some hn, tokens_of_next_eq_some (hnext.trans hn)]

theorem tokens_of_not_finished [Primitives] {l : Lexer} (hf : l.finished = false) : l.tokens =
    (if l.yields l.reading then l.reading.token :: (l.behind l.reading).tokens.1
      else (l.behind l.reading).tokens.1, (l.behind l.reading).tokens.2) := by
  cases hk : l.yields l.reading with
  | true =>
    rw [tokens_of_yields hf hk]
    rfl
  | false =>
    rw [tokens_of_not_yields hf hk]
    rfl

theorem tokens_behind [Primitives] {l : Lexer} (hf : l.finished = false) :
    l.tokens.2 = (l.behind l.reading).tokens.2 := by rw [tokens_of_not_finished hf]

/-- The tokens of a run are those of its readings that are yielded. -/
theorem tokens_eq_map_readings [Primitives] (l : Lexer) :
    l.tokens.1 = (l.readings.filter l.yields).map Reading.token := by
  induction l using readings_induction with
  | finished l h =>
    rw [tokens_of_finished h, readings_of_finished h]
    rfl
  | reading l h ih =>
    have hy : (l.behind l.reading).yields = l.yields := by
      funext s
      rw [yields, yields, withComments_behind]
    rw [hy] at ih
    rw [readings_of_not_finished h]
    cases hk : l.yields l.reading with
    | true => rw [tokens_of_yields h hk, ih, List.filter_cons_of_pos hk, List.map_cons]
    | false => rw [tokens_of_not_yields h hk, ih, List.filter_cons_of_neg (by simp [hk])]

theorem tokens_start [Primitives] (t : Text) (o : Options) :
    (start t o true).tokens.1 = (start t o true).readings.map Reading.token := by
  rw [tokens_eq_map_readings, List.filter_eq_self.mpr]
  intro s _
  rfl

/-- Two lexers that are related go along with each other: they come to their ends together, and
what they read corresponds, as far as `f'` and `f` tell tokens apart. -/
structure Lockstep [Primitives] {α : Type} (R : Lexer → Lexer → Prop) (f' f : Token → α) :
    Prop where
  finished : ∀ {l' l}, R l' l → l'.finished = l.finished
  withComments : ∀ {l' l}, R l' l → l'.withComments = l.withComments
  token : ∀ {l' l}, R l' l → l.finished = false → f' l'.reading.token = f l.reading.token
  isComment : ∀ {l' l}, R l' l → l.finished = false →
    l'.reading.token.isComment = l.reading.token.isComment
  behind : ∀ {l' l}, R l' l → l.finished = false → R (l'.behind l'.reading) (l.behind l.reading)

/-- Lexers that go along with each other yield tokens that correspond, and end as they started. -/
theorem Lockstep.tokens [Primitives] {α : Type} {R : Lexer → Lexer → Prop} {f' f : Token → α}
    (hR : Lockstep R f' f) {l' l : Lexer} (h : R l' l) :
    l'.tokens.1.map f' = l.tokens.1.map f ∧ R l'.tokens.2 l.tokens.2 := by
  induction l using readings_induction generalizing l' with
  | finished l hl =>
    rw [tokens_of_finished hl, tokens_of_finished ((hR.finished h).trans hl)]
    exact ⟨rfl, h⟩
  | reading l hl ih =>
    have hl' := (hR.finished h).trans hl
    have hy : l'.yields l'.reading = l.yields l.reading := by
      rw [yields, yields, hR.withComments h, hR.isComment h hl]
    obtain ⟨htokens, hlast⟩ := ih (hR.behind h hl)
    cases hk : l.yields l.reading with
    | true =>
      rw [tokens_of_yields hl hk, tokens_of_yields hl' (hy.trans hk), List.map_cons,
        List.map_cons, hR.token h hl, htokens]
      exact ⟨rfl, hlast⟩
    | false =>
      rw [tokens_of_not_yields hl hk, tokens_of_not_yields hl' (hy.trans hk)]
      exact ⟨htokens, hlast⟩

end Lexer

end EcmaLex
