import Mathlib.Data.List.DropRight
import EcmaLex.Reader

/-!
# Defects of lines

The checks of a line are stated without the searches that make them. A line is too long or is not,
ends in blanks or does not, and its indentation is mixed in one of two ways or is not. So a line has
at most one defect of each of the three sorts.
-/

namespace EcmaLex

open LineCheck (isBlank)

/-- What is wrong with `line` as a whole, as it is reported of line `n`. -/
inductive LineDefect (o : Options) (n : Nat) (line : Text) : Diagnostic → Prop where
  | tooLong {maxlen : Nat} (ho : o.maxlen = some maxlen) (h : maxlen < line.length) :
      LineDefect o n line (Issue.lineTooLong.diagnostic { line := n, column := maxlen + 1 })
  | trailing {kept blanks : Text} (ho : o.trailing) (hline : line = kept ++ blanks)
      (hne : blanks ≠ []) (hblanks : ∀ c ∈ blanks, isBlank c)
      (hkept : ∀ c, kept.getLast? = some c → isBlank c = false) :
      LineDefect o n line
        (Issue.trailingWhitespace.diagnostic { line := n, column := kept.length + 1 })
  /-- The indentation has a space directly before a tab, and `before` has none. -/
  | spaceBeforeTab {before behind : Text}
      (hindent : line.takeWhile isBlank = before ++ ' ' :: '\t' :: behind)
      (hfirst : ¬ [' ', '\t'] <:+: before ++ [' ']) :
      LineDefect o n line
        (Issue.mixedSpacesAndTabs.diagnostic { line := n, column := before.length + 1 })
  | spacesBehindTabs {tabs spaces : Nat} (ho : o.smarttabs = false) (htabs : 0 < tabs)
      (hspaces : 0 < spaces)
      (hindent : line.takeWhile isBlank = List.replicate tabs '\t' ++ List.replicate spaces ' ')
      (hstar : (line.dropWhile isBlank).head? ≠ some '*') :
      LineDefect o n line (Issue.mixedSpacesAndTabs.diagnostic { line := n, column := tabs })

/-- Everything is dropped behind the last character that is kept. -/
theorem Text.rdropWhile_append {p : Char → Bool} {kept dropped : Text}
    (hdropped : ∀ c ∈ dropped, p c) (hkept : ∀ c, kept.getLast? = some c → p c = false) :
    (kept ++ dropped).rdropWhile p = kept := by
  have hself : kept.rdropWhile p = kept := by
    rw [List.rdropWhile_eq_self_iff]
    intro hne
    simp [hkept _ (List.getLast?_eq_some_getLast hne)]
  have hreverse : ∀ c ∈ dropped.reverse, p c :=
    fun c hc => hdropped c (List.mem_reverse.mp hc)
  rw [List.rdropWhile, List.reverse_append, List.dropWhile_append_of_pos hreverse]
  exact hself

namespace LineCheck

theorem trimmed_eq (line : Text) : trimmed line = line.rdropWhile isBlank := rfl

theorem trimmed_append {kept blanks : Text} (hblanks : ∀ c ∈ blanks, isBlank c)
    (hkept : ∀ c, kept.getLast? = some c → isBlank c = false) :
    trimmed (kept ++ blanks) = kept := Text.rdropWhile_append hblanks hkept

/-- What is kept of a line, and the blanks behind that. -/
theorem exists_trimmed (line : Text) : ∃ blanks, line = trimmed line ++ blanks ∧
    (∀ c ∈ blanks, isBlank c) ∧ ∀ c, (trimmed line).getLast? = some c → isBlank c = false := by
  refine ⟨line.rtakeWhile isBlank, List.rdropWhile_append_rtakeWhile.symm, ?_, ?_⟩
  · intro c hc
    exact List.mem_takeWhile_imp (List.mem_reverse.mp hc)
  · intro c hc
    rw [trimmed_eq] at hc
    have hne : line.rdropWhile isBlank ≠ [] := by
      intro h
      simp [h] at hc
    obtain rfl := (List.getLast_eq_iff_getLast?_eq_some hne).mpr hc
    simpa using List.rdropWhile_last_not isBlank line hne

theorem mem_trailing_iff {o : Options} {line : Text} {column : Nat} {i : Issue} :
    (column, i) ∈ trailing o line ↔ i = .trailingWhitespace ∧ o.trailing ∧
      ∃ kept blanks, line = kept ++ blanks ∧ blanks ≠ [] ∧ (∀ c ∈ blanks, isBlank c) ∧
        (∀ c, kept.getLast? = some c → isBlank c = false) ∧ column = kept.length + 1 := by
  obtain ⟨blanks, hline, hblanks, hkept⟩ := exists_trimmed line
  simp only [trailing]
  constructor
  · intro h
    split at h
    · rename_i ho
      simp only [List.mem_singleton, Prod.mk.injEq] at h
      simp only [Bool.and_eq_true, decide_eq_true_eq] at ho
      refine ⟨h.2, ho.1, trimmed line, blanks, hline, ?_, hblanks, hkept, h.1⟩
      rintro rfl
      exact ho.2 (congrArg List.length (by simpa using hline.symm))
    · simp at h
  · rintro ⟨rfl, ho, kept, blanks, rfl, hne, hblanks, hkept, rfl⟩
    have hlength := List.length_pos_iff.mpr hne
    rw [trimmed_append hblanks hkept, if_pos]
    · exact List.mem_singleton.mpr rfl
    · simp [ho, hne]

theorem spaceBeforeTab?_cons_blank {c : Char} {t : Text} (hc : isBlank c)
    (h : ¬ (c = ' ' ∧ t.head? = some '\t')) :
    spaceBeforeTab? (c :: t) = (spaceBeforeTab? t).map (· + 1) := by
  rw [spaceBeforeTab?, if_neg (by simpa using h), if_pos hc]

theorem head?_eq_of_takeWhile_isBlank {t w : Text} {c : Char} (h : t.takeWhile isBlank = c :: w) :
    t.head? = some c := by
  cases t with
  | nil => simp at h
  | cons d t =>
    rw [List.takeWhile_cons] at h
    split at h
    · rw [(List.cons.inj h).1]
      rfl
    · simp at h

def SpaceBeforeTab (w : Text) (n : Nat) : Prop := ∃ before behind,
  w = before ++ ' ' :: '\t' :: behind ∧ ¬ [' ', '\t'] <:+: before ++ [' '] ∧ before.length = n

theorem spaceBeforeTab_pair (w : Text) (n : Nat) :
    SpaceBeforeTab (' ' :: '\t' :: w) n ↔ n = 0 := by
  constructor
  · rintro ⟨before, behind, heq, hfirst, rfl⟩
    match before with
    | [] => rfl
    | [d] => simp at heq
    | d :: e :: before =>
      simp only [List.cons_append, List.cons.injEq] at heq
      obtain ⟨rfl, rfl, -⟩ := heq
      exact absurd (List.IsPrefix.isInfix ⟨before ++ [' '], rfl⟩) hfirst
  · rintro rfl
    exact ⟨[], w, rfl, by decide, rfl⟩

theorem spaceBeforeTab_cons {c : Char} {w : Text} (h : ¬ (c = ' ' ∧ w.head? = some '\t'))
    (n : Nat) : SpaceBeforeTab (c :: w) n ↔ ∃ m, SpaceBeforeTab w m ∧ m + 1 = n := by
  constructor
  · rintro ⟨before, behind, heq, hfirst, rfl⟩
    cases before with
    | nil =>
      obtain ⟨rfl, rfl⟩ := List.cons.inj heq
      exact absurd ⟨rfl, rfl⟩ h
    | cons d before =>
      obtain ⟨rfl, rfl⟩ := List.cons.inj heq
      exact ⟨before.length, ⟨before, behind, rfl, fun hi => hfirst (List.infix_cons hi), rfl⟩, rfl⟩
  · rintro ⟨m, ⟨before, behind, rfl, hfirst, rfl⟩, rfl⟩
    refine ⟨c :: before, behind, rfl, ?_, rfl⟩
    rw [List.cons_append, List.infix_cons_iff]
    rintro (hfront | hinfix)
    · obtain ⟨rfl, htab⟩ := List.cons_prefix_cons.mp hfront
      cases before with
      | nil => simp at htab
      | cons d before =>
        obtain rfl : '\t' = d := by simpa using htab
        exact h ⟨rfl, rfl⟩
    · exact hfirst hinfix

/-- The search finds the first space that a tab follows in the indentation. -/
theorem spaceBeforeTab?_eq_some_iff {line : Text} {n : Nat} :
    spaceBeforeTab? line = some n ↔ SpaceBeforeTab (line.takeWhile isBlank) n := by
  induction line generalizing n with
  | nil => simp [spaceBeforeTab?, SpaceBeforeTab]
  | cons c t ih =>
    by_cases hpair : c = ' ' ∧ t.head? = some '\t'
    · obtain ⟨rfl, ht⟩ := hpair
      obtain ⟨t, rfl⟩ := List.head?_eq_some_iff.mp ht
      have hindent : (' ' :: '\t' :: t).takeWhile isBlank = ' ' :: '\t' :: t.takeWhile isBlank :=
        rfl
      have hfound : spaceBeforeTab? (' ' :: '\t' :: t) = some 0 := rfl
      rw [hindent, hfound, spaceBeforeTab_pair, Option.some.injEq, eq_comm]
    · by_cases hc : isBlank c
      · have hpair' : ¬ (c = ' ' ∧ (t.takeWhile isBlank).head? = some '\t') := by
          rintro ⟨hspace, ht⟩
          obtain ⟨w, hw⟩ := List.head?_eq_some_iff.mp ht
          exact hpair ⟨hspace, head?_eq_of_takeWhile_isBlank hw⟩
        rw [spaceBeforeTab?_cons_blank hc hpair, List.takeWhile_cons_of_pos hc,
          Option.map_eq_some_iff, spaceBeforeTab_cons hpair']
        simp only [ih]
      · have hnone : spaceBeforeTab? (c :: t) = none := by
          rw [spaceBeforeTab?, if_neg (by simpa using hpair), if_neg hc]
        rw [hnone, List.takeWhile_cons_of_neg hc]
        simp [SpaceBeforeTab]

/-- Where no tab follows a space, the indentation behind the tabs is made of spaces. -/
theorem takeWhile_isBlank_of_spaceBeforeTab? {t : Text} (h : spaceBeforeTab? t = none)
    (ht : t.head? ≠ some '\t') : t.takeWhile isBlank = t.takeWhile (· = ' ') := by
  induction t with
  | nil => rfl
  | cons c t ih =>
    have htab : c ≠ '\t' := by simpa using ht
    by_cases hc : c = ' '
    · subst hc
      have hpair : t.head? ≠ some '\t' := by
        intro hhead
        simp [spaceBeforeTab?, hhead] at h
      rw [spaceBeforeTab?_cons_blank (by rfl) (by simpa using hpair), Option.map_eq_none_iff] at h
      rw [List.takeWhile_cons_of_pos (by rfl), List.takeWhile_cons_of_pos (by rfl), ih h hpair]
    · rw [List.takeWhile_cons_of_neg (by simp [isBlank, hc, htab]),
        List.takeWhile_cons_of_neg (by simpa using hc)]

theorem spaceBeforeTab?_tabs (n : Nat) (t : Text) :
    spaceBeforeTab? (List.replicate n '\t' ++ t) = (spaceBeforeTab? t).map (· + n) := by
  induction n with
  | zero => simp
  | succ n ih =>
    rw [List.replicate_succ, List.cons_append, spaceBeforeTab?_cons_blank (by rfl) (by simp), ih,
      Option.map_map]
    rfl

/-- Where no tab follows a space, the indentation is made of tabs and then of spaces. -/
theorem exists_indentation {line : Text} (h : spaceBeforeTab? line = none) :
    ∃ tabs spaces aligned, line = List.replicate tabs '\t' ++ aligned ∧
      line.takeWhile (· = '\t') = List.replicate tabs '\t' ∧
      aligned.takeWhile (· = ' ') = List.replicate spaces ' ' ∧
      line.takeWhile isBlank = List.replicate tabs '\t' ++ List.replicate spaces ' ' := by
  have hall : ∀ (c : Char) (t : Text), t.takeWhile (· = c) =
      List.replicate (t.takeWhile (· = c)).length c := by
    intro c t
    rw [List.eq_replicate_iff]
    exact ⟨rfl, fun d hd => by simpa using List.mem_takeWhile_imp hd⟩
  obtain ⟨tabs, htabs⟩ : ∃ tabs, line.takeWhile (· = '\t') = List.replicate tabs '\t' :=
    ⟨_, hall _ _⟩
  obtain ⟨aligned, haligned⟩ : ∃ aligned, line.dropWhile (· = '\t') = aligned := ⟨_, rfl⟩
  obtain ⟨spaces, hspaces⟩ : ∃ spaces, aligned.takeWhile (· = ' ') = List.replicate spaces ' ' :=
    ⟨_, hall _ _⟩
  have hline : line = List.replicate tabs '\t' ++ aligned := by
    rw [← htabs, ← haligned, List.takeWhile_append_dropWhile]
  have hhead : aligned.head? ≠ some '\t' := by
    rw [← haligned]
    intro hhead
    have hnot := List.head?_dropWhile_not (fun c => decide (c = '\t')) line
    rw [hhead] at hnot
    simp at hnot
  refine ⟨tabs, spaces, aligned, hline, htabs, hspaces, ?_⟩
  rw [hline, spaceBeforeTab?_tabs, Option.map_eq_none_iff] at h
  have hblank : ∀ c ∈ List.replicate tabs '\t', isBlank c := by
    intro c hc
    rw [List.eq_of_mem_replicate hc]
    rfl
  rw [hline, List.takeWhile_append_of_pos hblank, takeWhile_isBlank_of_spaceBeforeTab? h hhead,
    hspaces]

theorem spaceBeforeTab?_eq_none {line : Text} {tabs spaces : Nat}
    (h : line.takeWhile isBlank = List.replicate tabs '\t' ++ List.replicate spaces ' ') :
    spaceBeforeTab? line = none := by
  rw [Option.eq_none_iff_forall_ne_some]
  intro n hn
  obtain ⟨before, behind, hindent, -⟩ := spaceBeforeTab?_eq_some_iff.mp hn
  have hordered : (line.takeWhile isBlank).Pairwise fun c d => c = ' ' → d ≠ '\t' := by
    simp [h, List.pairwise_append, List.pairwise_replicate]
  rw [hindent, List.pairwise_append, List.pairwise_cons] at hordered
  exact hordered.2.1.1 '\t' List.mem_cons_self rfl rfl

/-- Where no tab follows a space, an indentation of tabs and then of spaces may be mixed. -/
theorem exists_mixedIndentation?_eq {line : Text} (h : spaceBeforeTab? line = none) :
    ∃ tabs spaces,
      line.takeWhile isBlank = List.replicate tabs '\t' ++ List.replicate spaces ' ' ∧
      ∀ smarttabs, mixedIndentation? smarttabs line =
        if smarttabs = false ∧ 0 < tabs ∧ 0 < spaces ∧ (line.dropWhile isBlank).head? ≠ some '*'
        then some tabs else none := by
  obtain ⟨tabs, spaces, aligned, hline, htabs, hspaces, hindent⟩ := exists_indentation h
  refine ⟨tabs, spaces, hindent, fun smarttabs => ?_⟩
  have hdrop : line.drop tabs = aligned := by
    rw [hline, List.drop_left' (List.length_replicate)]
  have hhead : aligned.head? = some ' ' ↔ 0 < spaces := by
    rw [← List.length_replicate (n := spaces) (a := ' '), ← hspaces]
    cases aligned with
    | nil => simp
    | cons c t =>
      by_cases hc : c = ' '
      · simp [hc]
      · simp [hc]
  have hbehind : aligned.dropWhile (· = ' ') = line.dropWhile isBlank := by
    have hcut := line.takeWhile_append_dropWhile (p := isBlank)
    have hcut' := aligned.takeWhile_append_dropWhile (p := (· = ' '))
    rw [hindent, hline, List.append_assoc, List.append_cancel_left_eq, ← hline, ← hcut',
      hspaces] at hcut
    exact (List.append_cancel_left hcut).symm
  simp only [mixedIndentation?, h, htabs, List.length_replicate, hdrop, hbehind]
  simp [hhead, Nat.pos_iff_ne_zero, and_assoc]

theorem mixedIndentation?_eq_some_iff {smarttabs : Bool} {line : Text} {column : Nat} :
    mixedIndentation? smarttabs line = some column ↔
      (∃ before behind, line.takeWhile isBlank = before ++ ' ' :: '\t' :: behind ∧
        ¬ [' ', '\t'] <:+: before ++ [' '] ∧ column = before.length + 1) ∨
      smarttabs = false ∧ ∃ tabs spaces, 0 < tabs ∧ 0 < spaces ∧
        line.takeWhile isBlank = List.replicate tabs '\t' ++ List.replicate spaces ' ' ∧
        (line.dropWhile isBlank).head? ≠ some '*' ∧ column = tabs := by
  cases h : spaceBeforeTab? line with
  | some n =>
    simp only [mixedIndentation?, h, Option.some.injEq]
    constructor
    · rintro rfl
      obtain ⟨before, behind, hindent, hfirst, rfl⟩ := spaceBeforeTab?_eq_some_iff.mp h
      exact .inl ⟨before, behind, hindent, hfirst, rfl⟩
    · rintro (⟨before, behind, hindent, hfirst, rfl⟩ | ⟨-, tabs, spaces, -, -, hindent, -⟩)
      · have hfound := spaceBeforeTab?_eq_some_iff.mpr ⟨before, behind, hindent, hfirst, rfl⟩
        rw [h, Option.some.injEq] at hfound
        rw [hfound]
      · rw [spaceBeforeTab?_eq_none hindent] at h
        simp at h
  | none =>
    obtain ⟨tabs, spaces, hindent, hmixed⟩ := exists_mixedIndentation?_eq h
    rw [hmixed, Option.ite_none_right_eq_some, Option.some.injEq]
    constructor
    · rintro ⟨⟨ho, ht, hs, hstar⟩, rfl⟩
      exact .inr ⟨ho, tabs, spaces, ht, hs, hindent, hstar, rfl⟩
    · rintro (⟨before, behind, hindent', hfirst, -⟩ |
        ⟨ho, tabs', spaces', ht, hs, hindent', hstar, rfl⟩)
      · have hfound := spaceBeforeTab?_eq_some_iff.mpr ⟨before, behind, hindent', hfirst, rfl⟩
        rw [h] at hfound
        simp at hfound
      · rw [hindent] at hindent'
        obtain rfl : tabs = column := by
          simpa [List.count_replicate] using congrArg (List.count '\t') hindent'
        obtain rfl : spaces = spaces' := by
          simpa [List.count_replicate] using congrArg (List.count ' ') hindent'
        exact ⟨⟨ho, ht, hs, hstar⟩, rfl⟩

theorem mem_tooLong_iff {o : Options} {line : Text} {column : Nat} {i : Issue} :
    (column, i) ∈ tooLong o line ↔ i = .lineTooLong ∧
      ∃ maxlen, o.maxlen = some maxlen ∧ maxlen < line.length ∧ column = maxlen + 1 := by
  unfold tooLong
  cases o.maxlen with
  | none => simp
  | some maxlen =>
    simp only [Option.some.injEq, exists_eq_left']
    split
    · rename_i h
      simp [h, and_comm]
    · rename_i h
      simp [h]

theorem mem_mixed_iff {o : Options} {line : Text} {column : Nat} {i : Issue} :
    (column, i) ∈ mixed o line ↔
      i = .mixedSpacesAndTabs ∧ mixedIndentation? o.smarttabs line = some column := by
  simp [mixed, and_comm, eq_comm]

/-- The checks of a line find its defects. -/
theorem mem_issues_iff {o : Options} {line : Text} {n : Nat} {d : Diagnostic} :
    (∃ column i, (column, i) ∈ issues o line ∧ i.diagnostic { line := n, column } = d) ↔
      LineDefect o n line d := by
  simp only [issues, List.mem_append, mem_tooLong_iff, mem_trailing_iff, mem_mixed_iff,
    mixedIndentation?_eq_some_iff]
  constructor
  · rintro ⟨column, i, (⟨rfl, maxlen, ho, hlt, rfl⟩ |
      ⟨rfl, ho, kept, blanks, hline, hne, hblanks, hkept, rfl⟩) |
      ⟨rfl, ⟨before, behind, hindent, hfirst, rfl⟩ |
        ⟨ho, tabs, spaces, ht, hs, hindent, hstar, rfl⟩⟩, rfl⟩
    · exact .tooLong ho hlt
    · exact .trailing ho hline hne hblanks hkept
    · exact .spaceBeforeTab hindent hfirst
    · exact .spacesBehindTabs ho ht hs hindent hstar
  · intro h
    cases h with
    | tooLong ho hlt => exact ⟨_, _, .inl (.inl ⟨rfl, _, ho, hlt, rfl⟩), rfl⟩
    | trailing ho hline hne hblanks hkept =>
      exact ⟨_, _, .inl (.inr ⟨rfl, ho, _, _, hline, hne, hblanks, hkept, rfl⟩), rfl⟩
    | spaceBeforeTab hindent hfirst =>
      exact ⟨_, _, .inr ⟨rfl, .inl ⟨_, _, hindent, hfirst, rfl⟩⟩, rfl⟩
    | spacesBehindTabs ho ht hs hindent hstar =>
      exact ⟨_, _, .inr ⟨rfl, .inr ⟨ho, _, _, ht, hs, hindent, hstar, rfl⟩⟩, rfl⟩

end LineCheck

end EcmaLex
