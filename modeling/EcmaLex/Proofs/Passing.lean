import EcmaLex.Proofs.Findings

/-!
# What is passed over

On the way to the token that it yields, a call reads gaps, and comments if it is not asked for them.
What is found there has few codes. So what a call finds with another code is found in its token.
-/

namespace EcmaLex

def passedCodes : List String :=
  "unsafe_character" :: "unclosed_comment" :: lineCodes ++ Opening.blockComment.codes

namespace Lexer

structure Leads (l m : Lexer) (g : Text) : Prop where
  rest : l.reader.rest = g ++ m.reader.rest
  offset : m.reader.offset = l.reader.offset + g.utf8Size
  options : m.reader.options = l.reader.options
  adds : l.reader.Adds (fun i _ => i.code ∈ passedCodes) m.reader

variable {l l' m : Lexer} {k : Token}

theorem code_of_raisedInGap {start stop : Position} {i : Issue} {position : Position}
    (h : RaisedInGap start stop i position) : i.code ∈ passedCodes := by
  rcases h.source with rfl | rfl <;> decide

theorem remarks_comment [Primitives] (hk : l.reading.lexeme.kind = .comment) :
    l.reading.lexeme.trace.Within passedCodes := by
  rw [lexeme_reading] at hk ⊢
  have hne : (Lexeme.scan l.context l.reading.before.rest).kind ≠ .eof := by simp [hk]
  obtain ⟨o, c, u, -, hscan, -, hkind⟩ := Opening.exists_of_kind hne
  have hblock : ∀ code ∈ Opening.blockComment.codes, code ∈ passedCodes := by decide
  rw [hk] at hkind
  rw [hscan] at hk ⊢
  refine (Opening.reports_lexeme l.context c u o).remarks (fun r hr => ?_) fun i _ hi => ?_
  · cases o with
    | lineComment => cases hr
    | blockComment => exact hblock _ hr
    | _ => simp [Opening.kinds] at hkind
  · rw [hk] at hi
    obtain rfl := Option.some.inj hi
    exact (Remark.hasCode_mk _ _ _).mpr (by decide)

theorem Leads.refl (l : Lexer) : l.Leads l [] := ⟨rfl, rfl, rfl, .refl _⟩

theorem Leads.behind_comment [Primitives] {g : Text} (h : l.Leads m g)
    (hk : m.reading.lexeme.kind = .comment) : ∃ g', l.Leads (m.behind m.reading) g' := by
  obtain ⟨gap, w, u, hc⟩ := exists_nextCut m
  refine ⟨g ++ (gap ++ w), ?_, ?_, ?_, ?_⟩
  · rw [h.rest, hc.text, hc.rest_behind]
    simp
  · rw [NextCut.offset_behind, hc.offset_after, h.offset]
    simp [Nat.add_assoc]
  · rw [m.reader_behind Reader.options (fun _ => rfl), m.options_after_reading, h.options]
  · refine h.adds.trans (m.adds_behind.mono fun i position hi => ?_)
    rcases hi with hgap | htrace
    · exact code_of_raisedInGap hgap
    · rcases htrace.source with rfl | ⟨place, r, hr, rfl⟩
      · decide
      · exact remarks_comment hk place r hr

theorem exists_leads [Primitives] (h : l.next = some (k, l')) :
    ∃ m g, l.Leads m g ∧ m.finished = false ∧
    k = m.reading.token ∧ l' = m.behind m.reading := by
  obtain ⟨m, ⟨g, hg⟩, hm⟩ := exists_reading_of_next (P := fun m => ∃ g, l.Leads m g)
    (fun m _ hcomment ⟨g, hg⟩ => hg.behind_comment (of_decide_eq_true hcomment))
    ⟨[], .refl l⟩ h
  exact ⟨m, g, hg, hm⟩

theorem Leads.adds_before [Primitives] {g : Text} (h : l.Leads m g) :
    l.reader.Adds (fun i _ => i.code ∈ passedCodes) m.reading.before :=
  h.adds.trans ((Reader.adds_gap m.rest_eq_gap_append _ []).mono fun _ _ => code_of_raisedInGap)

theorem exists_added {r r' : Reader} (h : r.Adds (fun i _ => i.code ∈ passedCodes) r') :
    ∃ ds, r'.diagnostics.toList = r.diagnostics.toList ++ ds ∧ ∀ d ∈ ds, d.code ∈ passedCodes := by
  obtain ⟨found, hfound, hp⟩ := h
  have hlines : ∀ code ∈ lineCodes, code ∈ passedCodes := by decide
  refine ⟨_, hfound, fun d hd => ?_⟩
  obtain ⟨f, hf, rfl⟩ := List.mem_map.mp hd
  exact (hp f hf).elim (hlines _) id

theorem reported_of_added {codes : List String} (hcodes : ∀ code ∈ passedCodes, code ∉ codes)
    {r r' : Reader} (h : r.Adds (fun i _ => i.code ∈ passedCodes) r') :
    r'.reported codes = r.reported codes := by
  obtain ⟨ds, hds, hpassed⟩ := exists_added h
  have hother : ds.filter (fun d => codes.contains d.code) = [] :=
    List.filter_eq_nil_iff.mpr fun d hd => by simpa using hcodes _ (hpassed d hd)
  rw [Reader.reported, Reader.reported, hds, List.filter_append, hother, List.append_nil]

/-- Behind some calls the lexer stands somewhere in its text. -/
theorem exists_text_calls [Primitives] (t : Text) (o : Options) (w : Bool) (n : Nat) :
    ∃ p, t = p ++ ((start t o w).calls n).2.reader.rest ∧
      p.utf8Size = ((start t o w).calls n).2.reader.offset := by
  obtain ⟨r, ht, hrest, hoffset⟩ := exists_rest t o w
  refine calls_preserve (P := fun l => ∃ p, t = p ++ l.reader.rest ∧ p.utf8Size = l.reader.offset)
    ?_ ⟨t.preamble, hrest.symm ▸ ht, hoffset.symm⟩ n
  rintro l - ⟨p, htext, hsize⟩
  obtain ⟨g, v, u, hc⟩ := exists_nextCut l
  refine ⟨p ++ (g ++ v), ?_, ?_⟩
  · rw [hc.rest_behind, htext, hc.text]
    simp
  · rw [NextCut.offset_behind, hc.offset_after, ← hsize]
    simp [Nat.add_assoc]

end Lexer

theorem NextCut.exists_place [Primitives] {l : Lexer} {g w u t p : Text} (h : NextCut l g w u)
    (ht : t = p ++ l.reader.rest) (hp : p.utf8Size = l.reader.offset) :
    ∃ p' : Text, t = p' ++ (w ++ u) ∧ p'.utf8Size = l.reading.token.range.1 := by
  have hstart : l.reading.token.range.1 = l.reading.before.offset := rfl
  refine ⟨p ++ g, ?_, ?_⟩
  · rw [ht, h.text, List.append_assoc]
  · rw [hstart, h.offset_before, Text.utf8Size_append, hp]

end EcmaLex
