import EcmaLex.Proofs.Cuts
import EcmaLex.Proofs.Preamble

/-!
# Calls

A lexer is called for one token at a time, and may be asked for comments between two calls. What it
yields from then on is what it would have yielded there anyway, had it been asked from the start.
Its other tokens and its diagnostics are the same whenever it is asked, and if it never is.
-/

namespace EcmaLex

namespace Lexer

def calls [Primitives] (l : Lexer) : Nat → List Token × Lexer
  | 0 => ([], l)
  | n + 1 =>
    match l.next with
    | none => ([], l)
    | some (k, l') => (k :: (l'.calls n).1, (l'.calls n).2)

def asked (l : Lexer) : Lexer := { l with withComments := true }

variable {l l' : Lexer} {k : Token}

theorem calls_of_next_eq_none [Primitives] (h : l.next = none) (n : Nat) : l.calls n = ([], l) := by
  cases n with
  | zero => rfl
  | succ n => rw [calls, h]

theorem calls_of_next_eq_some [Primitives] (h : l.next = some (k, l')) (n : Nat) :
    l.calls (n + 1) = (k :: (l'.calls n).1, (l'.calls n).2) := by
  rw [calls, h]

theorem calls_eq_take [Primitives] (l : Lexer) (n : Nat) : (l.calls n).1 = l.tokens.1.take n := by
  induction n generalizing l with
  | zero => rfl
  | succ n ih =>
    cases h : l.next with
    | none => rw [calls_of_next_eq_none h, tokens_of_next_eq_none h, List.take_nil]
    | some r => rw [calls_of_next_eq_some h, tokens_of_next_eq_some h, List.take_succ_cons, ih]

/-- A call reads up to the next token that is to be yielded, and passes over what is not. -/
theorem exists_readings_of_next [Primitives] (h : l.next = some (k, l')) : ∃ rs s,
    l.readings = rs ++ s :: l'.readings ∧ (∀ r ∈ rs, l.yields r = false) ∧
      l.yields s ∧ s.token = k ∧ l'.withComments = l.withComments := by
  induction l using readings_induction with
  | finished l hf => simp [next_of_finished hf] at h
  | reading l hf ih =>
    have hy : (l.behind l.reading).yields = l.yields := by
      funext s
      rw [yields, yields, withComments_behind]
    rw [readings_of_not_finished hf]
    cases hk : l.yields l.reading with
    | true =>
      rw [next_of_yields hf hk] at h
      obtain ⟨rfl, rfl⟩ := Prod.mk.inj (Option.some.inj h)
      exact ⟨[], l.reading, rfl, by simp, hk, rfl, withComments_behind l _⟩
    | false =>
      rw [next_of_not_yields hf hk] at h
      obtain ⟨rs, s, hreadings, hrs, hs, htoken, hw⟩ := ih h
      rw [hy] at hrs hs
      refine ⟨l.reading :: rs, s, by rw [hreadings, List.cons_append], ?_, hs, htoken, ?_⟩
      · exact List.forall_mem_cons.mpr ⟨hk, hrs⟩
      · rw [hw, withComments_behind]

/-- A call reads the token that it yields behind the comments that it passes over. What is true of
the lexer and stays true behind a comment is true right before that token. -/
theorem exists_reading_of_next [Primitives] {P : Lexer → Prop}
    (hcomment : ∀ l : Lexer, l.finished = false → l.reading.token.isComment → P l →
      P (l.behind l.reading)) (hl : P l) (h : l.next = some (k, l')) :
    ∃ m : Lexer, P m ∧ m.finished = false ∧ k = m.reading.token ∧ l' = m.behind m.reading := by
  induction l using readings_induction with
  | finished l hf => simp [next_of_finished hf] at h
  | reading l hf ih =>
    cases hk : l.yields l.reading with
    | true =>
      rw [next_of_yields hf hk] at h
      obtain ⟨rfl, rfl⟩ := Prod.mk.inj (Option.some.inj h)
      exact ⟨l, hl, hf, rfl, rfl⟩
    | false =>
      rw [next_of_not_yields hf hk] at h
      exact ih (hcomment l hf (isComment_of_not_yields hk) hl) h

theorem exists_firstCut [Primitives] {t : Text} (hpreamble : t.preamble = []) (hs : startsToken t)
    (o : Options)
    (w : Bool) : ∃ u, t = (Lexeme.scan (start t o w).context t).raw ++ u ∧
      NextCut (start t o w) [] (Lexeme.scan (start t o w).context t).raw u := by
  obtain ⟨r, ht, hrest, -⟩ := exists_rest t o w
  rw [hpreamble, List.nil_append] at ht
  subst ht
  obtain ⟨u, hu⟩ := Lexeme.scan_prefix (start t o w).context t
  exact ⟨u, hu.symm, nextCut_of_text (hrest.trans hu.symm) .nil (by rwa [hu]) (by rw [hu])⟩

/-- The first call reads the lexeme that a text starts with, if that is no comment. -/
theorem exists_first [Primitives] {t : Text} (hpreamble : t.preamble = []) (hs : startsToken t)
    (o : Options)
    (w : Bool) (hk : (Lexeme.scan (start t o w).context t).kind ≠ .comment) :
    ∃ u, t = (Lexeme.scan (start t o w).context t).raw ++ u ∧
      (start t o w).reading.lexeme = Lexeme.scan (start t o w).context t ∧
      (start t o w).next =
        some ((start t o w).reading.token, (start t o w).behind (start t o w).reading) ∧
      ((start t o w).behind (start t o w).reading).reader.rest = u := by
  obtain ⟨u, hu, hcut⟩ := exists_firstCut hpreamble hs o w
  have hlexeme := hcut.lexeme
  rw [← hu] at hlexeme
  have hyields : (start t o w).yields (start t o w).reading = true := by
    have hkind : (start t o w).reading.lexeme.kind ≠ .comment := hlexeme ▸ hk
    have hcomment : (start t o w).reading.token.isComment = false := decide_eq_false hkind
    simp [yields, hcomment]
  exact ⟨u, hu, hlexeme, next_of_yields rfl hyields, hcut.rest_behind⟩

/-- The lexeme that a text starts with is read from its first byte on. -/
theorem range_first [Primitives] {t : Text} (hpreamble : t.preamble = []) (hs : startsToken t)
    (o : Options)
    (w : Bool) : (start t o w).reading.token.range =
      (0, (Lexeme.scan (start t o w).context t).raw.utf8Size) := by
  obtain ⟨u, -, hcut⟩ := exists_firstCut hpreamble hs o w
  obtain ⟨r, -, -, hoffset⟩ := exists_rest t o w
  rw [hpreamble] at hoffset
  have hbefore := hcut.offset_before
  have hafter := hcut.offset_after
  rw [hoffset] at hbefore hafter
  simp only [Text.utf8Size_nil, Nat.zero_add] at hbefore hafter
  exact Prod.ext hbefore hafter

/-- What is true of a lexer and stays true behind each token is true behind some calls. -/
theorem calls_preserve [Primitives] {P : Lexer → Prop}
    (hbehind : ∀ l : Lexer, l.finished = false → P l → P (l.behind l.reading)) (hl : P l)
    (n : Nat) : P (l.calls n).2 := by
  induction n generalizing l with
  | zero => exact hl
  | succ n ih =>
    cases h : l.next with
    | none =>
      rw [calls_of_next_eq_none h]
      exact hl
    | some r =>
      obtain ⟨k, l'⟩ := r
      obtain ⟨m, hm, hf, -, rfl⟩ := exists_reading_of_next (fun l hf _ => hbehind l hf) hl h
      rw [calls_of_next_eq_some h]
      exact ih (hbehind m hf hm)

theorem tokens_asked [Primitives] (l : Lexer) : l.asked.tokens.2 = l.tokens.2.asked := by
  induction l using readings_induction with
  | finished l h => rw [tokens_of_finished h, tokens_of_finished (l := l.asked) h]
  | reading l h ih =>
    have hbehind : l.asked.behind l.asked.reading = (l.behind l.reading).asked :=
      behind_withComments l true l.reading
    rw [tokens_behind h, tokens_behind (l := l.asked) h, hbehind, ih]

theorem tokens_calls [Primitives] (l : Lexer) (n : Nat) : (l.calls n).2.tokens.2 = l.tokens.2 := by
  induction n generalizing l with
  | zero => rfl
  | succ n ih =>
    cases h : l.next with
    | none => rw [calls_of_next_eq_none h]
    | some r => rw [calls_of_next_eq_some h, ih, tokens_of_next_eq_some h]

theorem tokens_asked_eq_map_readings [Primitives] (l : Lexer) :
    l.asked.tokens.1 = l.readings.map Reading.token := by
  have hreadings : l.asked.readings = l.readings := readings_withComments l true
  rw [tokens_eq_map_readings, hreadings, List.filter_eq_self.mpr]
  intro s _
  rfl

theorem tokens_eq_filter_asked [Primitives] (hw : l.withComments = false) :
    l.tokens.1 = l.asked.tokens.1.filter (!·.isComment) := by
  have hy : l.yields = (fun k : Token => !k.isComment) ∘ Reading.token := by
    funext s
    rw [yields, hw, Bool.false_or]
    rfl
  rw [tokens_asked_eq_map_readings, tokens_eq_map_readings, hy, List.filter_map]

/-- A lexer that is asked for comments behind its next `n` calls, beside one that is asked before
them and yields the tokens `ks` up to there, and beside one that is never asked. -/
structure AskedBehind [Primitives] (l : Lexer) (n : Nat) (ks : List Token) : Prop where
  calls : (l.calls n).1 = l.tokens.1.take n
  before : ks.filter (!·.isComment) = (l.calls n).1
  /-- The comments behind the token of the last call are still to be yielded. -/
  last : ∀ k ∈ ks.getLast?, k.isComment = false
  behind : l.asked.tokens.1 = ks ++ (l.calls n).2.asked.tokens.1
  significant : l.tokens.1 =
    (l.calls n).1 ++ (l.calls n).2.asked.tokens.1.filter (!·.isComment)
  diagnostics : (l.calls n).2.asked.tokens.2.diagnostics = l.tokens.2.diagnostics

/-- What `n` calls pass over ends with the token of the last of them. -/
theorem exists_passed [Primitives] (hw : l.withComments = false) (n : Nat) : ∃ ks : List Token,
    ks.filter (!·.isComment) = (l.calls n).1 ∧ (∀ k ∈ ks.getLast?, k.isComment = false) ∧
      l.asked.tokens.1 = ks ++ (l.calls n).2.asked.tokens.1 := by
  induction n generalizing l with
  | zero => exact ⟨[], rfl, by simp, rfl⟩
  | succ n ih =>
    cases h : l.next with
    | none =>
      rw [calls_of_next_eq_none h]
      exact ⟨[], rfl, by simp, rfl⟩
    | some r =>
      obtain ⟨k, l'⟩ := r
      obtain ⟨rs, s, hreadings, hrs, hs, rfl, hw'⟩ := exists_readings_of_next h
      -- The next call passes over comments up to its token, and the later ones go on from there.
      obtain ⟨ks, hbefore, hlast, hbehind⟩ := ih (hw'.trans hw)
      have hcomments : (rs.map Reading.token).filter (!·.isComment) = [] := by
        rw [List.filter_eq_nil_iff]
        intro k hk
        obtain ⟨r, hr, rfl⟩ := List.mem_map.mp hk
        simp [isComment_of_not_yields (hrs r hr)]
      have hsignificant : s.token.isComment = false := by simpa [yields, hw] using hs
      rw [calls_of_next_eq_some h]
      refine ⟨rs.map Reading.token ++ s.token :: ks, ?_, ?_, ?_⟩
      · rw [List.filter_append, hcomments, List.nil_append,
          List.filter_cons_of_pos (by simp [hsignificant]), hbefore]
      · intro k hk
        rw [List.getLast?_append, List.getLast?_cons, Option.some_or, Option.mem_some_iff] at hk
        cases hks : ks.getLast? with
        | none =>
          rw [hks] at hk
          exact hk ▸ hsignificant
        | some k' =>
          rw [hks] at hk
          exact hk ▸ hlast k' hks
      · rw [tokens_asked_eq_map_readings, hreadings, List.map_append, List.map_cons,
          ← tokens_asked_eq_map_readings, hbehind, List.append_assoc, List.cons_append]

/-- Being asked for comments behind some calls adds the comments from there on, and changes nothing
else. -/
theorem askedBehind_start [Primitives] (t : Text) (o : Options) (n : Nat) :
    ∃ ks, AskedBehind (start t o false) n ks := by
  obtain ⟨ks, hbefore, hlast, hbehind⟩ := exists_passed (l := start t o false) rfl n
  refine ⟨ks, calls_eq_take _ n, hbefore, hlast, hbehind, ?_, ?_⟩
  · rw [tokens_eq_filter_asked rfl, hbehind, List.filter_append, hbefore]
  · rw [tokens_asked, tokens_calls]
    rfl

end Lexer

end EcmaLex
