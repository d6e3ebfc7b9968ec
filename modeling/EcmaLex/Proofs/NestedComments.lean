import EcmaLex.Primitives.Standard
import EcmaLex.Proofs.Places
import Mathlib.Combinatorics.Enumerative.DyckWord

/-!
# Nested comments

The text behind the opening mark of a comment is split from left to right into opening marks,
closing marks, and single characters. The first closing mark that brings the depth to zero closes
the comment. All marks before it are reported, and they balance each other.
-/

namespace EcmaLex

open Trace (noteHere reads)

namespace CommentPiece

def split : Text → List CommentPiece
  | [] => []
  | '/' :: '*' :: t => opening :: split t
  | '*' :: '/' :: t => closing :: split t
  | c :: t => char c :: split t

def depth (ps : List CommentPiece) : Int := 1 + ps.count .opening - ps.count .closing

theorem depth_append_closing (ps : List CommentPiece) :
    depth (ps ++ [.closing]) = depth ps - 1 := by
  have hopening : (ps ++ [closing]).count opening = ps.count opening := by simp
  have hclosing : (ps ++ [closing]).count closing = ps.count closing + 1 := by simp
  rw [depth, depth, hopening, hclosing]
  omega

def marks (n : Nat) : List CommentPiece → List (Nat × Issue)
  | [] => []
  | opening :: ps => (n, .nestedComment) :: marks (n + 2) ps
  | closing :: ps => (n, .unbegunComment) :: marks (n + 2) ps
  | char _ :: ps => marks (n + 1) ps

def step? : CommentPiece → Option DyckStep
  | opening => some .U
  | closing => some .D
  | char _ => none

theorem flatMap_text_split (t : Text) : (split t).flatMap text = t := by
  fun_induction split t with
  | case1 => rfl
  | case2 t ih => simp [text, ih]
  | case3 t ih => simp [text, ih]
  | case4 c t _ _ ih => simp [text, ih]

/-- Some pieces are what a scan takes from a split, if `depth` nested openings are to be closed
before the mark that closes the comment. That mark starts the other pieces, if there are any. -/
structure Taken (depth : Nat) (ps qs : List CommentPiece) : Prop where
  within : ∀ rs, rs <+: ps → rs.count .closing ≤ depth + rs.count .opening
  ends : qs = [] ∨ (∃ qs', qs = .closing :: qs') ∧ ps.count .closing = depth + ps.count .opening

/-- A piece is taken before others if the depth changes by what it opens or closes. -/
theorem Taken.cons {d d' : Nat} {p : CommentPiece} {ps qs : List CommentPiece}
    (h : Taken d' ps qs) (hp : [p].count .closing + d' = d + [p].count .opening) :
    Taken d (p :: ps) qs := by
  have hcount : ∀ x rs, (p :: rs).count x = [p].count x + rs.count x := by
    simp [List.count_cons, Nat.add_comm]
  refine ⟨fun rs hrs => ?_, h.ends.imp_right (And.imp_right fun hends => ?_)⟩
  · rcases List.prefix_cons_iff.mp hrs with rfl | ⟨rs', rfl, hrs'⟩
    · simp
    · have hwithin := h.within rs' hrs'
      have hclosing := hcount .closing rs'
      have hopening := hcount .opening rs'
      omega
  · have hclosing := hcount .closing ps
    have hopening := hcount .opening ps
    omega

/-- A scan takes the pieces of a text up to the first mark that is one closing too many. -/
theorem exists_taken (depth : Nat) (t : Text) :
    ∃ qs, split t = scan depth t ++ qs ∧ Taken depth (scan depth t) qs := by
  fun_induction scan depth t with
  | case1 depth => exact ⟨[], rfl, by simp, .inl rfl⟩
  | case2 depth t ih =>
    obtain ⟨qs, hsplit, htaken⟩ := ih
    exact ⟨qs, congrArg (CommentPiece.opening :: ·) hsplit, htaken.cons (by simp)⟩
  | case3 t => exact ⟨_, rfl, by simp, .inr ⟨⟨_, rfl⟩, rfl⟩⟩
  | case4 t n ih =>
    obtain ⟨qs, hsplit, htaken⟩ := ih
    exact ⟨qs, congrArg (CommentPiece.closing :: ·) hsplit, htaken.cons (by simp; omega)⟩
  | case5 depth c t hopen hclose ih =>
    obtain ⟨qs, hsplit, htaken⟩ := ih
    exact ⟨qs, (split.eq_4 c t hopen hclose).trans (congrArg (CommentPiece.char c :: ·) hsplit),
      htaken.cons (by simp)⟩

theorem exists_take_filterMap {α β : Type} (f : α → Option β) (as : List α) (n : Nat) :
    ∃ bs, bs <+: as ∧ (as.filterMap f).take n = bs.filterMap f := by
  induction as generalizing n with
  | nil => exact ⟨[], List.nil_prefix, by simp⟩
  | cons a as ih =>
    cases ha : f a with
    | none =>
      obtain ⟨bs, hbs, htake⟩ := ih n
      refine ⟨a :: bs, (List.prefix_cons_inj a).mpr hbs, ?_⟩
      rw [List.filterMap_cons_none ha, List.filterMap_cons_none ha, htake]
    | some b =>
      cases n with
      | zero => exact ⟨[], List.nil_prefix, rfl⟩
      | succ n =>
        obtain ⟨bs, hbs, htake⟩ := ih n
        refine ⟨a :: bs, (List.prefix_cons_inj a).mpr hbs, ?_⟩
        rw [List.filterMap_cons_some ha, List.filterMap_cons_some ha, List.take_succ_cons, htake]

theorem count_filterMap_step? (ps : List CommentPiece) :
    (ps.filterMap step?).count .U = ps.count .opening ∧
      (ps.filterMap step?).count .D = ps.count .closing := by
  induction ps with
  | nil => exact ⟨rfl, rfl⟩
  | cons p ps ih => cases p <;> simp [List.filterMap_cons, step?, ih]

theorem Taken.exists_dyckWord {ps qs : List CommentPiece} (h : Taken 0 ps qs)
    (hcount : ps.count .opening = ps.count .closing) :
    ∃ word : DyckWord, word.toList = ps.filterMap step? := by
  refine ⟨⟨ps.filterMap step?, ?_, fun n => ?_⟩, rfl⟩
  · rw [(count_filterMap_step? ps).1, (count_filterMap_step? ps).2, hcount]
  · obtain ⟨rs, hrs, htake⟩ := exists_take_filterMap step? ps n
    rw [htake, (count_filterMap_step? rs).1, (count_filterMap_step? rs).2]
    simpa using h.within rs hrs

def nestingCodes : List String := ["nested_comment", "unbegun_comment"]

/-- Each mark among some pieces is remarked on where it stands. -/
theorem foundOf_traces (o : Options) (n : Nat) (ps : List CommentPiece) :
    Trace.foundOf nestingCodes o n (ps.flatMap trace) = marks n ps := by
  have hsafe : Issue.unsafeCharacter.code ∉ nestingCodes := by decide
  have hreads : ∀ (t : Text) k, (reads t).foundOf nestingCodes o k = [] := fun t _ =>
    Trace.foundOf_eq_nil hsafe (Trace.remarks_reads t)
  have hnote : ∀ i : Issue, i.code ∈ nestingCodes → ∀ k,
      (noteHere i).foundOf nestingCodes o k = [(k, i)] := by
    intro i hi k
    rw [noteHere, Trace.noteAt, Trace.foundOf_note, if_pos ⟨rfl, hi⟩]
    rfl
  induction ps generalizing n with
  | nil => rfl
  | cons p ps ih =>
    rw [List.flatMap_cons, Trace.foundOf_append, ih, text_trace]
    cases p with
    | opening =>
      rw [trace, Trace.foundOf_append, hreads, hnote _ (by decide)]
      rfl
    | closing =>
      rw [trace, Trace.foundOf_append, hreads, hnote _ (by decide)]
      rfl
    | char c =>
      rw [trace, Trace.foundOf_read hsafe]
      rfl

end CommentPiece

open CommentPiece (depth marks nestingCodes split step?)

/-- What is remarked on the marks inside of a comment. -/
theorem Lexeme.foundOf_blockComment (o : Options) (u : Text) :
    (blockComment u).trace.foundOf nestingCodes o 0 = marks 2 (CommentPiece.scan 0 u) := by
  have hsafe : Issue.unsafeCharacter.code ∉ nestingCodes := by decide
  have hopen : (reads ['/', '*']).foundOf nestingCodes o 0 = [] :=
    Trace.foundOf_eq_nil hsafe (Trace.remarks_reads _)
  have hend : ∀ (closed : Bool) (k : Nat), Trace.foundOf nestingCodes o k
      (if closed then reads ['*', '/'] else noteHere .unclosedComment) = [] := by
    intro closed k
    refine Trace.foundOf_eq_nil hsafe ?_
    cases closed
    · simpa using (by decide : Issue.unclosedComment.code ∉ nestingCodes)
    · simp
  simp only [blockComment]
  rw [Trace.foundOf_append, Trace.foundOf_append, hopen, hend, CommentPiece.foundOf_traces]
  simp

/-- A comment in the text `u` behind its opening mark. The pieces `ps` are what is inside of it, up
to the first mark that brings the depth to zero, or to the end of the text if there is none. -/
structure Token.Nests (k : Token) (u : Text) (ps : List CommentPiece) : Prop where
  value : k.value = .comment .block (ps.flatMap CommentPiece.text)
    (Directive.ofBody? (ps.flatMap CommentPiece.text))
  inside : ps <+: split u
  positive : ∀ qs, qs <+: ps → 0 < depth qs
  closed_iff : k.unclosed = false ↔
    ∃ qs, qs ++ [.closing] <+: split u ∧ depth (qs ++ [.closing]) = 0
  closed : k.unclosed = false →
    k.raw = '/' :: '*' :: (ps ++ [CommentPiece.closing]).flatMap CommentPiece.text ∧
      ps ++ [.closing] <+: split u ∧ depth (ps ++ [.closing]) = 0
  balanced : k.unclosed = false → ps.count .opening = ps.count .closing ∧
    ∃ word : DyckWord, word.toList = ps.filterMap step?
  unclosed : k.unclosed → k.raw = '/' :: '*' :: u ∧ ps = split u

/-- A block comment is closed if and only if its scan leaves pieces of the split. -/
theorem Lexeme.unclosed_blockComment_eq {u : Text} {qs : List CommentPiece}
    (hsplit : split u = CommentPiece.scan 0 u ++ qs) :
    (blockComment u).unclosed = (qs.flatMap CommentPiece.text).isEmpty := by
  have hu : u = (CommentPiece.scan 0 u).flatMap CommentPiece.text ++
      qs.flatMap CommentPiece.text := by
    rw [← List.flatMap_append, ← hsplit, CommentPiece.flatMap_text_split]
  obtain ⟨body, hbody⟩ : ∃ body, (CommentPiece.scan 0 u).flatMap CommentPiece.text = body :=
    ⟨_, rfl⟩
  rw [hbody] at hu
  rw [hu] at hbody ⊢
  exact unclosed_blockComment hbody

/-- A block comment ends with the first mark that brings the depth to zero. -/
theorem Token.nests_of_blockComment {k : Token} {u : Text}
    (hraw : k.raw = (Lexeme.blockComment u).raw)
    (hvalue : k.value = (Lexeme.blockComment u).value)
    (hunclosed : k.unclosed = (Lexeme.blockComment u).unclosed) :
    k.Nests u (CommentPiece.scan 0 u) := by
  obtain ⟨qs, hsplit, htaken⟩ := CommentPiece.exists_taken 0 u
  -- Nothing but the opening mark of the comment is open at depth one, so that all that a scan takes
  -- stays above zero, and the closing mark behind it reaches zero.
  have hinside : CommentPiece.scan 0 u <+: split u := ⟨qs, hsplit.symm⟩
  have hpositive : ∀ rs, rs <+: CommentPiece.scan 0 u → 0 < depth rs := by
    intro rs hrs
    have hwithin := htaken.within rs hrs
    simp only [depth]
    omega
  have hopened := Lexeme.unclosed_blockComment_eq hsplit
  rw [hopened] at hunclosed
  rcases htaken.ends with rfl | ⟨⟨qs', rfl⟩, hcount⟩
  · have hopen : k.unclosed = true := hunclosed
    rw [List.append_nil] at hsplit
    refine ⟨hvalue, hinside, hpositive, ?_, by simp [hopen], by simp [hopen], fun _ => ?_⟩
    · rw [hopen, hsplit]
      refine ⟨by simp, fun ⟨rs, hrs, hdepth⟩ => ?_⟩
      have hrs := hpositive _ hrs
      omega
    · have hbody : (CommentPiece.scan 0 u).flatMap CommentPiece.text = u := by
        rw [← hsplit, CommentPiece.flatMap_text_split]
      refine ⟨?_, hsplit.symm⟩
      rw [hraw, Lexeme.raw_blockComment, hopened, hbody]
      exact congrArg ('/' :: '*' :: ·) (List.append_nil u)
  · have hclosed : k.unclosed = false := hunclosed
    have hmark : CommentPiece.scan 0 u ++ [.closing] <+: split u := ⟨qs', by rw [hsplit]; simp⟩
    have hdepth : depth (CommentPiece.scan 0 u ++ [.closing]) = 0 := by
      rw [CommentPiece.depth_append_closing, depth]
      omega
    have hequal : (CommentPiece.scan 0 u).count .opening =
        (CommentPiece.scan 0 u).count .closing := by omega
    refine ⟨hvalue, hinside, hpositive, ?_, fun _ => ⟨?_, hmark, hdepth⟩,
      fun _ => ⟨hequal, htaken.exists_dyckWord hequal⟩, by simp [hclosed]⟩
    · exact ⟨fun _ => ⟨_, hmark, hdepth⟩, fun _ => hclosed⟩
    · rw [hraw, Lexeme.raw_blockComment, hopened, List.flatMap_append]
      rfl

/-- Only the opening mark opens a comment that starts with it. -/
theorem Lexeme.exists_blockComment_of_kind [Primitives] {context : Context} {t : Text}
    (h : (scan context t).kind = .comment) (hmark : ['/', '*'] <+: (scan context t).raw) :
    ∃ u, t = '/' :: '*' :: u ∧ scan context t = blockComment u := by
  have hne : (scan context t).kind ≠ .eof := by simp [h]
  obtain ⟨o, c, u, rfl, hscan, hfits, hkind⟩ := Opening.exists_of_kind hne
  rw [h] at hkind
  cases o with
  | lineComment =>
    rw [hscan, Opening.lexeme, raw_lineComment] at hmark
    simp at hmark
  | blockComment =>
    obtain ⟨rfl, hu⟩ := hfits
    obtain ⟨u, rfl⟩ := List.head?_eq_some_iff.mp hu
    exact ⟨u, rfl, hscan⟩
  | _ => simp [Opening.kinds] at hkind

/-- What is reported in a gap of marks that close no comment. -/
theorem Reader.exists_strays {r : Reader} {t u : Text} (hrest : r.rest = (gap t).text ++ u) :
    ∃ strays : List Diagnostic,
      (∀ d ∈ strays, d.code = "unbegun_comment" ∧ d.position < (r.follow (gap t)).position) ∧
        (r.follow (gap t)).reported nestingCodes = r.reported nestingCodes ++ strays := by
  obtain ⟨found, hfound, hp⟩ := adds_gap hrest r.position []
  refine ⟨(found.map fun f => f.1.diagnostic f.2).filter fun d => nestingCodes.contains d.code,
    fun d hd => ?_, ?_⟩
  · obtain ⟨hd, hcode⟩ := List.mem_filter.mp hd
    obtain ⟨f, hf, rfl⟩ := List.mem_map.mp hd
    have hcode : f.1.code ∈ nestingCodes := List.contains_iff_mem.mp hcode
    have hlines : ∀ code ∈ lineCodes, code ∉ nestingCodes := by decide
    rcases hp f hf with hline | hgap
    · exact absurd hcode (hlines _ hline)
    · refine ⟨?_, hgap.lt_stop⟩
      rcases hgap.source with hsource | hsource
      · rw [hsource] at hcode
        exact absurd hcode (by decide)
      · exact congrArg Issue.code hsource
  · rw [reported, follow, hfound, List.filter_append]
    rfl

namespace Lexer

/-- Every block comment of a text ends with the first mark that brings the depth to zero. The marks
inside of it are reported where they stand, and none but those in the gap before it. -/
theorem nested_comments_closed [Primitives] (t : Text) (o : Options) (n : Nat) {k : Token}
    {l' : Lexer}
    (h : ((start t o true).calls n).2.next = some (k, l')) (hk : k.kind = .comment)
    (hmark : ['/', '*'] <+: k.raw) : ∃ (u : Text) (ps : List CommentPiece),
      (∃ p : Text, t = p ++ '/' :: '*' :: u ∧ p.utf8Size = k.range.1) ∧ k.Nests u ps ∧
      ∃ strays : List Diagnostic,
        (∀ d ∈ strays, d.code = "unbegun_comment" ∧ d.position < k.start) ∧
        l'.reader.reported nestingCodes =
          ((start t o true).calls n).2.reader.reported nestingCodes ++ (strays ++
            (marks 2 ps).map fun f => f.2.diagnostic (k.start.along ('/' :: '*' :: u) f.1)) := by
  have hw : ((start t o true).calls n).2.withComments = true := withComments_calls _ n
  obtain ⟨p, ht, hp⟩ := exists_text_calls t o true n
  generalize ((start t o true).calls n).2 = l at h hw ht hp ⊢
  obtain ⟨rfl, rfl⟩ := eq_reading_of_next hw h
  obtain ⟨g, v, u', hc⟩ := exists_nextCut l
  have hlexeme := hc.lexeme
  have hkind : l.reading.lexeme.kind = .comment := hk
  have hraw : ['/', '*'] <+: l.reading.lexeme.raw := hmark
  rw [hlexeme] at hkind hraw
  obtain ⟨u, hu, hscan⟩ := Lexeme.exists_blockComment_of_kind hkind hraw
  rw [hscan] at hlexeme
  obtain ⟨strays, hstrays, hgap⟩ := Reader.exists_strays l.rest_eq_gap_append
  refine ⟨u, CommentPiece.scan 0 u, hu ▸ hc.exists_place ht hp, ?_, strays, hstrays, ?_⟩
  · exact Token.nests_of_blockComment (congrArg Lexeme.raw hlexeme)
      (congrArg Lexeme.value hlexeme) (congrArg Lexeme.unclosed hlexeme)
  · rw [reported_behind_reading (by decide) (by decide) hc, hlexeme, hu,
      Lexeme.foundOf_blockComment, before_reading, hgap, List.append_assoc]

/-- A stray mark before a comment, in which marks share characters and one of them is nested. -/
theorem nested_comments_closed_of_slashes : ∃ k l',
    ((start "a*/\n/*b/*/\n*/*/*/".toList {} true).calls 1).2.next = some (k, l') ∧
      k.kind = .comment ∧ ['/', '*'] <+: k.raw ∧ k.unclosed = false ∧
      l'.reader.reported nestingCodes =
        [Issue.unbegunComment.diagnostic { line := 1, column := 2 },
         Issue.nestedComment.diagnostic { line := 2, column := 4 },
         Issue.unbegunComment.diagnostic { line := 3, column := 1 }] ∧
      ∃ (u : Text) (ps : List CommentPiece),
        (∃ p : Text, "a*/\n/*b/*/\n*/*/*/".toList = p ++ '/' :: '*' :: u ∧
          p.utf8Size = k.range.1) ∧ k.Nests u ps ∧
        ∃ strays : List Diagnostic,
          (∀ d ∈ strays, d.code = "unbegun_comment" ∧ d.position < k.start) ∧
          l'.reader.reported nestingCodes =
            ((start "a*/\n/*b/*/\n*/*/*/".toList {} true).calls 1).2.reader.reported
              nestingCodes ++ (strays ++ (marks 2 ps).map
                fun f => f.2.diagnostic (k.start.along ('/' :: '*' :: u) f.1)) := by
  have hcall : ((start "a*/\n/*b/*/\n*/*/*/".toList {} true).calls 1).2.next.any fun (k, l') =>
      k.kind = .comment && ['/', '*'].isPrefixOf k.raw && !k.unclosed &&
      l'.reader.reported nestingCodes =
        [Issue.unbegunComment.diagnostic { line := 1, column := 2 },
         Issue.nestedComment.diagnostic { line := 2, column := 4 },
         Issue.unbegunComment.diagnostic { line := 3, column := 1 }] := by
    decide +kernel
  obtain ⟨⟨k, l'⟩, h, hfacts⟩ := (Option.any_eq_true _ _).mp hcall
  simp only [Bool.and_eq_true, Bool.not_eq_true', decide_eq_true_eq,
    List.isPrefixOf_iff_prefix] at hfacts
  obtain ⟨⟨⟨hk, hmark⟩, hclosed⟩, hreported⟩ := hfacts
  exact ⟨k, l', h, hk, hmark, hclosed, hreported, nested_comments_closed _ _ 1 h hk hmark⟩

end Lexer

end EcmaLex
