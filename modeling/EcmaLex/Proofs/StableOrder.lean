import EcmaLex.Proofs.Findings

/-!
# The order of diagnostics

Diagnostics are found in one order and handed out in another: by line and column, and those of one
position as they were found. There is only one such order of them. The diagnostics of a pass are all
that its calls have found, in that order.
-/

namespace EcmaLex

/-- The diagnostics `ds` are those found, in the order of their positions. Those of one position are
in the order in which they were found. -/
structure IsStableOrder (found ds : List Diagnostic) : Prop where
  perm : ds.Perm found
  ordered : ds.Pairwise fun d e => d.position ≤ e.position
  stable : ∀ p, ds.filter (·.position = p) = found.filter (·.position = p)

inductive Addition where
  | push (d : Diagnostic)
  | extend (more : List Diagnostic)
deriving DecidableEq, Repr

namespace Addition

def diagnostics : Addition → List Diagnostic
  | push d => [d]
  | extend more => more

def apply (ds : Diagnostics) : Addition → Diagnostics
  | push d => ds.push d
  | extend more => ds.extend more

theorem toList_apply (ds : Diagnostics) (a : Addition) :
    (a.apply ds).toList = ds.toList ++ a.diagnostics := by
  cases a with
  | push d => exact ds.toList_push d
  | extend more => exact ds.toList_extend more

end Addition

def Diagnostics.ofAdditions (as : List Addition) : Diagnostics := as.foldl Addition.apply {}

namespace Diagnostic

theorem mem_of_filter_eq {ds es : List Diagnostic}
    (h : ∀ p, ds.filter (·.position = p) = es.filter (·.position = p)) {d : Diagnostic}
    (hd : d ∈ ds) : d ∈ es := by
  have hmem : d ∈ ds.filter (·.position = d.position) := List.mem_filter.mpr ⟨hd, by simp⟩
  rw [h] at hmem
  exact (List.mem_filter.mp hmem).1

/-- In the order of positions, diagnostics are told by those at each position. -/
theorem eq_of_filter_eq {ds es : List Diagnostic}
    (hds : ds.Pairwise fun d e => d.position ≤ e.position)
    (hes : es.Pairwise fun d e => d.position ≤ e.position)
    (h : ∀ p, ds.filter (·.position = p) = es.filter (·.position = p)) : ds = es := by
  induction ds generalizing es with
  | nil => exact (List.eq_nil_iff_forall_not_mem.mpr fun d hd =>
      List.not_mem_nil (mem_of_filter_eq (fun p => (h p).symm) hd)).symm
  | cons d ds ih =>
    cases es with
    | nil => exact absurd (mem_of_filter_eq h List.mem_cons_self) List.not_mem_nil
    | cons e es =>
      obtain ⟨hd, hbehind⟩ := List.pairwise_cons.mp hds
      obtain ⟨he, hbehind'⟩ := List.pairwise_cons.mp hes
      -- each of the two comes first on its side and is found on the other one
      have hle : d.position ≤ e.position := by
        rcases List.mem_cons.mp (mem_of_filter_eq (fun p => (h p).symm) List.mem_cons_self) with
          rfl | hmem
        · exact Std.le_refl _
        · exact hd e hmem
      have hge : e.position ≤ d.position := by
        rcases List.mem_cons.mp (mem_of_filter_eq h List.mem_cons_self) with rfl | hmem
        · exact Std.le_refl _
        · exact he d hmem
      have hposition : e.position = d.position := Std.le_antisymm hge hle
      have hfirst := h d.position
      simp only [List.filter_cons, hposition, decide_true, if_true] at hfirst
      obtain ⟨rfl, -⟩ := List.cons.inj hfirst
      refine congrArg (d :: ·) (ih hbehind hbehind' fun p => ?_)
      have hp := h p
      simp only [List.filter_cons] at hp
      split at hp
      · exact (List.cons.inj hp).2
      · exact hp

end Diagnostic

theorem IsStableOrder.unique {found ds es : List Diagnostic} (h : IsStableOrder found ds)
    (h' : IsStableOrder found es) : ds = es :=
  Diagnostic.eq_of_filter_eq h.ordered h'.ordered fun p => (h.stable p).trans (h'.stable p).symm

namespace Diagnostics

/-- If some of the diagnostics are found in the order of their positions, handing all of them out in
that order leaves these as they are. -/
theorem filter_sorted {ds : Diagnostics} {p : Diagnostic → Bool}
    (h : (ds.toList.filter p).Pairwise fun d e => d.position ≤ e.position) :
    ds.sorted.filter p = ds.toList.filter p := by
  have hsublist : (ds.toList.filter p).Sublist ds.sorted :=
    List.sublist_mergeSort (by grind) (by grind) (by simpa using h) List.filter_sublist
  have hfilter : (ds.toList.filter p).Sublist (ds.sorted.filter p) := by
    have hself : (ds.toList.filter p).filter p = ds.toList.filter p := by simp
    exact hself ▸ hsublist.filter p
  have hperm : (ds.sorted.filter p).Perm (ds.toList.filter p) :=
    (List.mergeSort_perm _ _).filter p
  exact (hfilter.eq_of_length hperm.length_eq.symm).symm

theorem isStableOrder_sorted (ds : Diagnostics) : IsStableOrder ds.toList ds.sorted where
  perm := List.mergeSort_perm _ _
  ordered := by
    have hpairwise : ds.sorted.Pairwise fun d e => decide (d.position ≤ e.position) :=
      List.pairwise_mergeSort (by grind) (by grind) ds.toList
    simpa using hpairwise
  stable := by
    intro p
    refine filter_sorted (List.pairwise_of_forall_mem_list fun d hd e he => ?_)
    have hd : d.position = p := by simpa using (List.mem_filter.mp hd).2
    have he : e.position = p := by simpa using (List.mem_filter.mp he).2
    rw [hd, he]
    exact Std.le_refl p

theorem hasErrors_eq (ds : Diagnostics) :
    ds.hasErrors = ds.sorted.any fun d => d.severity = .error := by
  rw [ds.isStableOrder_sorted.perm.any_eq, hasErrors, toList, Array.any_toList]

theorem toList_foldl (as : List Addition) (ds : Diagnostics) :
    (as.foldl Addition.apply ds).toList = ds.toList ++ as.flatMap Addition.diagnostics := by
  induction as generalizing ds with
  | nil => simp
  | cons a as ih => rw [List.foldl_cons, ih, a.toList_apply, List.append_assoc, List.flatMap_cons]

theorem toList_ofAdditions (as : List Addition) :
    (ofAdditions as).toList = as.flatMap Addition.diagnostics := toList_foldl as {}

end Diagnostics

namespace Lexer

theorem diagnostics_prefix_tokens [Primitives] (l : Lexer) :
    l.diagnostics.toList <+: l.tokens.2.diagnostics.toList := by
  induction l using readings_induction with
  | finished l h => exact tokens_of_finished h ▸ List.prefix_rfl
  | reading l h ih =>
    obtain ⟨found, hfound, -⟩ := l.adds_behind
    rw [tokens_behind h]
    exact List.IsPrefix.trans ⟨_, hfound.symm⟩ ih

theorem diagnostics_calls_prefix [Primitives] (l : Lexer) (n : Nat) :
    (l.calls n).2.diagnostics.toList <+: l.tokens.2.diagnostics.toList :=
  tokens_calls l n ▸ diagnostics_prefix_tokens (l.calls n).2

end Lexer

/-- Whatever is added to some diagnostics is handed out in the one stable order of it. A pass comes
to a last lexer, which has found what any call before has found, and hands that out in this order. So
it has errors just if the last lexer has found some. -/
theorem diagnostics_handed_out_in_order [Primitives] :
    (∀ as : List Addition,
      IsStableOrder (as.flatMap Addition.diagnostics) (Diagnostics.ofAdditions as).sorted ∧
        ∀ ds, IsStableOrder (as.flatMap Addition.diagnostics) ds →
          ds = (Diagnostics.ofAdditions as).sorted) ∧
      ∀ (t : Text) (o : Options), ∃ last : Lexer,
        Lexer.Yields (Lexer.start t o false) (lex t o).tokens last ∧
          (∀ n, ((Lexer.start t o false).calls n).2.diagnostics.toList <+:
            last.diagnostics.toList) ∧
          IsStableOrder last.diagnostics.toList (lex t o).diagnostics ∧
          (lex t o).hasErrors = last.diagnostics.hasErrors := by
  constructor
  · intro as
    have hsorted := (Diagnostics.ofAdditions as).isStableOrder_sorted
    rw [Diagnostics.toList_ofAdditions] at hsorted
    exact ⟨hsorted, fun ds h => h.unique hsorted⟩
  · intro t o
    let l := Lexer.start t o false
    exact ⟨l.tokens.2, l.yields_tokens, l.diagnostics_calls_prefix,
      l.tokens.2.diagnostics.isStableOrder_sorted, l.tokens.2.diagnostics.hasErrors_eq.symm⟩

end EcmaLex
