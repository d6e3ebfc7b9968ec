import EcmaLex.Proofs.Regex.Course

/-!
# Replacements in patterns

If a part of a pattern is replaced by another one that opens as many groups, the pattern ends where
it did before, and only the issues of the two parts tell the difference, and a caret that follows
them.
-/

namespace EcmaLex

open RegexTerm (scan text remainder course)

def caretIssues (behindAtom : Bool) (t : Text) : List Issue :=
  if behindAtom && t.head? = some '^' then [.unescaped '^'] else []

def HasElement (x : Text) (e : RegexElement) (y : Text) : Prop :=
  ∃ ms q ns, scan (x ++ (e.text ++ y)) = ms ++ ⟨e, q⟩ :: ns ∧ ms.flatMap text = x

/-- The text `a'` may stand for `a` before the text `z`. It has the issues `gained` and no longer
the issues `lost`. -/
structure StandsFor [Primitives] (o : Options) (a' a z : Text) (lost gained : List Issue) :
    Prop where
  head? : (a' ++ z).head? = (a ++ z).head?
  advances : ∀ d b, ∃ d' b₁ b₁' is is', Advances o d b a z is d' b₁ ∧
    Advances o d b a' z is' d' b₁' ∧ lost = is ++ caretIssues b₁ z ∧
    gained = is' ++ caretIssues b₁' z

theorem RegexTerm.issues_course [Primitives] (o : Options) (d : Nat) (b : Bool) (t : Text) :
    (course d b t).issues o = caretIssues b t ++ (course d false t).issues o := by
  cases b with
  | true => simp [issues_course_behindAtom, caretIssues]
  | false => rfl

theorem foundAt_of_head? {u v : Text} (h : u.head? = v.head?) : foundAt u = foundAt v := by
  cases u <;> cases v <;> simp_all [foundAt]

namespace StandsFor

variable {o : Options} {a a' z x : Text} {lost gained : List Issue}

theorem issues_regex [Primitives] (h : StandsFor o a' a z lost gained) {ms ns : List RegexTerm}
    (hs : scan (x ++ (a ++ z)) = ms ++ ns) (hx : ms.flatMap text = x) :
    remainder (x ++ (a' ++ z)) = remainder (x ++ (a ++ z)) ∧
      ((Lexeme.regex (x ++ (a' ++ z))).trace.issues o ++ lost).Perm
        ((Lexeme.regex (x ++ (a ++ z))).trace.issues o ++ gained) := by
  obtain ⟨is₀, d, b, hadvances⟩ := RegexTerm.exists_advances hs hx o
  obtain ⟨d', b₁, b₁', is, is', ha, ha', rfl, rfl⟩ := h.advances d b
  have hbefore := (hadvances _ rfl).append ha
  have hafter := (hadvances _ (foundAt_of_head? h.head?.symm)).append ha'
  have hhead : (x ++ (a' ++ z)).head? = (x ++ (a ++ z)).head? := by
    cases x with
    | nil => exact h.head?
    | cons c x => rfl
  rw [← List.append_assoc, ← List.append_assoc] at hhead ⊢
  refine ⟨hafter.remainder.trans hbefore.remainder.symm, ?_⟩
  rw [Lexeme.issues_regex, Lexeme.issues_regex, hafter.issues, hbefore.issues, hhead,
    RegexTerm.issues_course o d' b₁, RegexTerm.issues_course o d' b₁', List.perm_iff_count]
  intro i
  simp only [List.count_append]
  omega

end StandsFor

namespace Lexer

/-- Both lexers read a regular expression next, closed or not, before the same text. The second one
finds the issues `gained` more than the first one, and the issues `lost` less. -/
def Trades [Primitives] (l l' : Lexer) (lost gained : List Issue) : Prop :=
  ∃ k l₁ ds k' l₁' ds', l.Finds k l₁ ds ∧ l'.Finds k' l₁' ds' ∧
    k.kind = .regex ∧ k'.kind = .regex ∧ k'.unclosed = k.unclosed ∧
    l₁'.reader.rest = l₁.reader.rest ∧
    (ds'.map Diagnostic.saying ++ lost.map Issue.saying).Perm
      (ds.map Diagnostic.saying ++ gained.map Issue.saying)

theorem OpensRegex.trades [UnicodePrimitives] {l l' : Lexer} {x a a' z : Text}
    {lost gained : List Issue}
    (h : l.OpensRegex (x ++ (a ++ z))) (h' : l'.OpensRegex (x ++ (a' ++ z)))
    (ho : l'.options = l.options) {ms ns : List RegexTerm}
    (hs : scan (x ++ (a ++ z)) = ms ++ ns) (hx : ms.flatMap text = x)
    (hstands : StandsFor l.options a' a z lost gained) : l.Trades l' lost gained := by
  obtain ⟨k, l₁, ds, hfinds, hk, hds⟩ := h.exists_finds
  obtain ⟨k', l₁', ds', hfinds', hk', hds'⟩ := h'.exists_finds
  obtain ⟨hremainder, hperm⟩ := hstands.issues_regex hs hx
  refine ⟨k, l₁, ds, k', l₁', ds', hfinds, hfinds', ?_, ?_, ?_, ?_, ?_⟩
  · rw [Token.kind, hk.value]
    exact Lexeme.kind_regex _
  · rw [Token.kind, hk'.value]
    exact Lexeme.kind_regex _
  · rw [hk.unclosed, hk'.unclosed, Lexeme.unclosed_regex, Lexeme.unclosed_regex, hremainder]
  · rw [hk.rest, hk'.rest, hremainder]
  · rw [hds, hds', ho, ← List.map_append, ← List.map_append]
    exact hperm.map Issue.saying

end Lexer

end EcmaLex
