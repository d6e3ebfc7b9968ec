import EcmaLex.Proofs.Guarded.Decoding
import EcmaLex.Proofs.Extent.Name
import EcmaLex.Proofs.Extent.StringLiteral
import EcmaLex.Proofs.Extent.Template

/-!
# Guarded pieces

The pieces of names, strings and templates are scanned with the offset at which each of them starts.
The digits of an escape are sliced out of the whole text, and counted to find the brace behind them.
What is open in a template are its bodies and substitutions, and a substitution counts the braces
that are open in it.
-/

namespace EcmaLex

open Text (StandsAt)

namespace Guarded

variable (text : Text)

def fixed (count n : Nat) (t : Text) : Option (Option WrittenCode) :=
  if ((t.take count).takeWhile isHexDigit).length = count then do
    let digits ← text.slice? n (n + Text.utf8Size (t.take count))
    return some ⟨digits, digits⟩
  else some none

/-- The digits of a `\u` escape. Those in braces are counted, and the closing brace is looked for as
many bytes behind the opening one. -/
def unicode (n : Nat) (t : Text) : Option (Option WrittenCode) :=
  if t.head? = some '{' then do
    let count := ((← t.from? 1).takeWhile isHexDigit).length
    if count = 0 || count > 6 then return none
    if (← t.from? (1 + count)).head? ≠ some '}' then return none
    let w ← fixed text count (n + 1) t.tail
    return w.map fun w => ⟨'{' :: w.raw ++ ['}'], w.digits⟩
  else fixed text 4 n t

def decoded (w : Option WrittenCode) : Option (Option Char) :=
  match w with
  | none => some none
  | some w => decodeHex w.digits

variable {text} {n : Nat} {t : Text}

theorem length_takeWhile_eq_iff {w : Text} (hw : w.length ≤ n) {p : Char → Bool} :
    (w.takeWhile p).length = n ↔ w.length = n ∧ ∀ c ∈ w, p c := by
  rw [← List.takeWhile_eq_self_iff]
  have hle := (List.takeWhile_prefix p (l := w)).length_le
  constructor
  · intro h
    exact ⟨by omega, (List.takeWhile_prefix p).eq_of_length (by omega)⟩
  · rintro ⟨h, hall⟩
    rw [hall, h]

theorem fixed_eq (h : StandsAt text n t) (count : Nat) :
    fixed text count n t = some (WrittenCode.fixed? count t) := by
  obtain ⟨digits, hdigits⟩ : ∃ digits : Text, t.take count = digits := ⟨_, rfl⟩
  have hslice : text.slice? n (n + digits.utf8Size) = some digits := by
    rw [← List.take_append_drop count t, hdigits] at h
    exact h.slice?_eq
  have hle : digits.length ≤ count := by
    rw [← hdigits]
    exact List.length_take_le count t
  simp only [fixed, WrittenCode.fixed?, hdigits, hslice, length_takeWhile_eq_iff hle]
  simp only [Option.bind_eq_bind, Option.bind_some, Bool.and_eq_true, decide_eq_true_eq,
    List.all_eq_true]
  split <;> rfl

theorem utf8Size_of_isHexDigit {c : Char} (hc : isHexDigit c) : c.utf8Size = 1 := by
  have hcode := isHexDigit_iff.mp hc
  exact Text.utf8Size_eq_one (by omega)

theorem unicode_eq (h : StandsAt text n t) : unicode text n t = some (WrittenCode.unicode? t) := by
  unfold unicode
  split
  · rename_i hbrace
    obtain ⟨u, rfl⟩ := List.head?_eq_some_iff.mp hbrace
    obtain ⟨digits, r, rfl, hdigits, hr⟩ : ∃ digits r, u = digits ++ r ∧
        (∀ c ∈ digits, isHexDigit c) ∧ u.takeWhile isHexDigit = digits :=
      ⟨_, _, List.takeWhile_append_dropWhile.symm, fun _ => List.mem_takeWhile_imp, rfl⟩
    have hbehind : StandsAt ('{' :: (digits ++ r)) 1 (digits ++ r) := (StandsAt.start _).behind_cons
    have hsize := Text.utf8Size_eq_length fun c hc => utf8Size_of_isHexDigit (hdigits c hc)
    have hclose := hsize ▸ hbehind.behind.from?_eq
    have hfixed : fixed text digits.length (n + 1) (digits ++ r) =
        some (some ⟨digits, digits⟩) := by
      have hopen : StandsAt text (n + 1) (digits ++ r) := h.behind_cons
      rw [fixed_eq hopen, WrittenCode.fixed?, List.take_left]
      simp [List.all_eq_true.mpr hdigits]
    simp only [hbehind.from?_eq, hclose, hr, hfixed, List.tail_cons, Option.bind_eq_bind,
      Option.bind_some, WrittenCode.unicode?, WrittenCode.braced?, List.drop_left]
    by_cases hcount : digits.length = 0 ∨ digits.length > 6
    · have hempty : (!digits.isEmpty && decide (digits.length ≤ 6)) = false := by
        simpa [List.length_eq_zero_iff, or_iff_not_imp_left] using hcount
      rw [if_pos (by simpa using hcount), hempty]
      rfl
    · have hempty : (!digits.isEmpty && decide (digits.length ≤ 6)) = true := by
        simpa [List.length_eq_zero_iff] using hcount
      rw [if_neg (by simpa using hcount), hempty, Bool.true_and]
      by_cases hr : r.head? = some '}'
      · simp [hr]
      · simp [hr]
  · rename_i hbrace
    rw [fixed_eq h]
    unfold WrittenCode.unicode?
    split
    · exact absurd rfl hbrace
    · rfl

theorem decoded_eq (w : Option WrittenCode) :
    decoded w = some (w.bind WrittenCode.decoded?) := by
  cases w with
  | none => rfl
  | some w => exact decodeHex_eq w.digits

variable (text) in
def ofCode (letter : Char) (w : Option WrittenCode) : Option EscapeSequence := do
  let written := w.elim [] WrittenCode.raw
  return (← decoded w).elim (.bad letter written) (.code letter written)

variable (text) in
def escapeSequence (context : EscapeContext) (n : Nat) (t : Text) : Option EscapeSequence :=
  match t with
  | [] => some .lone
  | c :: rest =>
    if isLineTerminator c then some (.continuation (EscapeSequence.terminatorOf t))
    else match Escape.ofChar? context c with
      | some (.char decoded) => some (.char c decoded)
      | some .hex => do ofCode c (← fixed text 2 (n + c.utf8Size) rest)
      | some .unicode => do ofCode c (← unicode text (n + c.utf8Size) rest)
      | none => some (.bad c [])

variable (text) in
def ofEscape [Primitives] (started : Bool) (n : Nat) (t : Text) : Option NamePart := do
  let w ← unicode text n t
  return ⟨'\\' :: 'u' :: w.elim [] WrittenCode.raw,
    (← decoded w).filter (if started then isWordPart else isWordStart)⟩

theorem ofCode_eq (letter : Char) (w : Option WrittenCode) :
    ofCode letter w = some (EscapeSequence.ofCode letter w) := by
  cases w with
  | none => rfl
  | some w =>
    simp only [ofCode, decoded_eq, EscapeSequence.ofCode, Option.bind_some, Option.bind_eq_bind,
      Option.elim_some]
    cases w.decoded? <;> rfl

theorem escapeSequence_eq (h : StandsAt text n t) (context : EscapeContext) :
    escapeSequence text context n t = some (EscapeSequence.scan context t) := by
  cases t with
  | nil => rfl
  | cons c t =>
    simp only [escapeSequence, EscapeSequence.scan, fixed_eq h.behind_cons,
      unicode_eq h.behind_cons, Option.bind_eq_bind, Option.bind_some, ofCode_eq]
    split
    · rfl
    · cases Escape.ofChar? context c with
      | none => rfl
      | some e => cases e <;> rfl

theorem ofEscape_eq [Primitives] (h : StandsAt text n t) (started : Bool) :
    ofEscape text started n t = some (NamePart.ofEscape started t) := by
  simp only [ofEscape, unicode_eq h, decoded_eq, Option.bind_eq_bind, Option.bind_some,
    NamePart.ofEscape]
  cases WrittenCode.unicode? t <;> rfl

/-- A scan that goes piece by piece from an offset, each piece by a step that may fail. -/
def pieces {σ α : Type} (size : α → Text) (stopsAt : σ → Text → Bool)
    (step : Nat → σ → Char → Text → Option α) (after : σ → α → σ) (n : Nat) (s : σ) :
    Text → Option (List α)
  | [] => some []
  | c :: t =>
    if stopsAt s (c :: t) then some []
    else do
      let p ← step n s c t
      let ps ← pieces size stopsAt step after (n + (size p).utf8Size) (after s p)
        (t.drop ((size p).length - 1))
      return p :: ps
termination_by t => t.length
decreasing_by simp only [List.length_drop, List.length_cons]; omega

/-- A scan finds the same pieces with guarded steps, if each step does. -/
theorem pieces_eq {σ α : Type} {scan : σ → Text → List α} {size : α → Text}
    {stopsAt : σ → Text → Bool} {step : σ → Char → Text → α} {after : σ → α → σ}
    (hscan : PieceScan scan size stopsAt step after) {guarded : Nat → σ → Char → Text → Option α}
    (hstep : ∀ {n s c t}, StandsAt text n (c :: t) → stopsAt s (c :: t) = false →
      guarded n s c t = some (step s c t)) {n : Nat} {t : Text} (h : StandsAt text n t) (s : σ) :
    pieces size stopsAt guarded after n s t = some (scan s t) := by
  induction hn : t.length using Nat.strong_induction_on generalizing n s t with
  | _ k ih =>
    cases hs : stopsAt s t with
    | true =>
      rw [hscan.stop hs]
      cases t with
      | nil => rw [pieces]
      | cons c t => rw [pieces, if_pos hs]
    | false =>
      obtain ⟨c, w, r, rfl, hw⟩ := hscan.exists_piece hs
      have hbehind : StandsAt text (n + Text.utf8Size (c :: w)) r := by
        rw [← List.cons_append] at h
        exact h.behind
      have hrest := ih r.length (by simp at hn; omega) hbehind (after s (step s c (w ++ r))) rfl
      rw [hscan.scan_cons hs hw, pieces, if_neg (by simp [hs]), hstep h hs]
      simp only [Option.bind_eq_bind, Option.bind_some, hw, List.length_cons, Nat.add_one_sub_one,
        List.drop_left, hrest]
      rfl

variable (text) in
def nameStep [Primitives] (n : Nat) (started : Bool) (c : Char) (t : Text) : Option NamePart :=
  if c = '\\' && t.head? = some 'u' then ofEscape text started (n + 2) t.tail
  else some ⟨[c], some c⟩

variable (text) in
def nameParts [Primitives] : Nat → Bool → Text → Option (List NamePart) :=
  pieces NamePart.raw (fun _ t => !NamePart.begins t) (nameStep text)
    fun started p => started || p.char.isSome

variable (text) in
def stringStep (n : Nat) (c : Char) (t : Text) : Option StringPiece :=
  if c = '\\' then (escapeSequence text .script (n + 1) t).map .escape else some (.plain c)

variable (text) in
def stringPieces (quote : Char) (n : Nat) : Text → Option (List StringPiece) :=
  pieces StringPiece.text (fun (_ : Unit) => StringPiece.stopsAt quote)
    (fun n _ => stringStep text n) (fun _ _ => ()) n ()

theorem nameStep_eq [Primitives] {started : Bool} {c : Char} (h : StandsAt text n (c :: t)) :
    nameStep text n started c t = some (NamePart.step started c t) := by
  unfold nameStep NamePart.step
  split
  · rename_i hescape
    simp only [Bool.and_eq_true, decide_eq_true_eq] at hescape
    obtain ⟨rfl, hu⟩ := hescape
    obtain ⟨r, rfl⟩ := List.head?_eq_some_iff.mp hu
    exact ofEscape_eq h.behind_cons.behind_cons started
  · rfl

theorem nameParts_eq [Primitives] (h : StandsAt text n t) (started : Bool) :
    nameParts text n started t = some (NamePart.scan started t) :=
  pieces_eq NamePart.pieceScan (fun h _ => nameStep_eq h) h started

theorem stringStep_eq {c : Char} (h : StandsAt text n (c :: t)) :
    stringStep text n c t = some (StringPiece.step c t) := by
  unfold stringStep StringPiece.step
  split
  · rename_i hc
    subst hc
    have hbehind : StandsAt text (n + 1) t := h.behind_cons
    rw [escapeSequence_eq hbehind, Option.map_some]
  · rfl

theorem stringPieces_eq (h : StandsAt text n t) (quote : Char) :
    stringPieces text quote n t = some (StringPiece.scan quote t) :=
  pieces_eq (StringPiece.pieceScan quote) (fun h _ => stringStep_eq h) h ()

/-- The body of a template, or a substitution with the number of braces that are open in it. -/
inductive TemplateLevel where
  | body
  | substitution (depth : Nat)
deriving DecidableEq, Repr

namespace TemplateLevel

def frame : TemplateLevel → TemplateFrame
  | body => .template
  | substitution _ => .brace

def frames : TemplateLevel → List TemplateFrame
  | body => [.template]
  | substitution depth => List.replicate depth .brace

def nest (level : TemplateLevel) (outer : List TemplateLevel) :
    TemplatePiece → Option (List TemplateLevel)
  | .substitution => some (substitution 1 :: level :: outer)
  | .char c =>
    match level with
    | body => some (if c = '\x60' then outer else body :: outer)
    | substitution depth =>
      if c = '\x7b' then some (substitution (depth + 1) :: outer)
      else if c = '\x7d' then do
        let depth ← minus? depth 1
        return if depth = 0 then outer else substitution depth :: outer
      else some (if c = '\x60' then body :: level :: outer else level :: outer)
  | _ => some (level :: outer)

/-- A substitution ends with the brace that opens it, and so is never without an open one. -/
def IsOpen : TemplateLevel → Prop
  | body => True
  | substitution depth => 0 < depth

end TemplateLevel

variable (text) in
def templateStep (n : Nat) (level : TemplateLevel) (c : Char) (t : Text) : Option TemplatePiece :=
  if level = .body ∧ c = '\\' then (escapeSequence text .template (n + 1) t).map .escape
  else some (TemplatePiece.next level.frame c t)

variable (text) in
def templatePieces (n : Nat) : List TemplateLevel → Text → Option (List TemplatePiece × Bool)
  | [], _ => some ([], true)
  | _ :: _, [] => some ([], false)
  | level :: outer, c :: t => do
    let piece ← templateStep text n level c t
    let levels ← level.nest outer piece
    let (pieces, closed) ← templatePieces (n + piece.text.utf8Size) levels
      (t.drop (piece.text.length - 1))
    return (piece :: pieces, closed)
termination_by _ t => t.length
decreasing_by simp only [List.length_drop, List.length_cons]; omega

theorem templateStep_eq {level : TemplateLevel} {c : Char} (h : StandsAt text n (c :: t)) :
    templateStep text n level c t = some (TemplatePiece.next level.frame c t) := by
  unfold templateStep
  split
  · rename_i hescape
    obtain ⟨rfl, rfl⟩ := hescape
    have hbehind : StandsAt text (n + 1) t := h.behind_cons
    rw [escapeSequence_eq hbehind, Option.map_some]
    rfl
  · rfl

theorem TemplateLevel.exists_frames {level : TemplateLevel} (h : level.IsOpen)
    (outer : List TemplateLevel) :
    ∃ fs, (level :: outer).flatMap frames = level.frame :: fs := by
  cases level with
  | body => exact ⟨_, rfl⟩
  | substitution depth =>
    obtain ⟨d, rfl⟩ := Nat.exists_eq_succ_of_ne_zero (Nat.ne_of_gt h)
    exact ⟨_, rfl⟩

/-- In the body of a template a backtick closes it, and a substitution opens. -/
theorem TemplateLevel.exists_nest_body {outer : List TemplateLevel}
    (houter : ∀ l ∈ outer, l.IsOpen) (p : TemplatePiece) :
    ∃ levels, body.nest outer p = some levels ∧ (∀ l ∈ levels, l.IsOpen) ∧
      levels.flatMap frames = TemplatePiece.nest .template (outer.flatMap frames) p := by
  have hopen : ∀ l ∈ body :: outer, l.IsOpen := List.forall_mem_cons.mpr ⟨trivial, houter⟩
  cases p with
  | substitution => exact ⟨_, rfl, List.forall_mem_cons.mpr ⟨Nat.one_pos, hopen⟩, rfl⟩
  | char c =>
    refine ⟨_, rfl, ?_, ?_⟩
    · split
      · exact houter
      · exact hopen
    · simp only [TemplatePiece.nest]
      split <;> rfl
  | _ => exact ⟨_, rfl, hopen, rfl⟩

/-- In a substitution braces open and close, and the last one that closes ends it. -/
theorem TemplateLevel.exists_nest_substitution {outer : List TemplateLevel}
    (houter : ∀ l ∈ outer, l.IsOpen) (d : Nat) (p : TemplatePiece) :
    ∃ levels, (substitution (d + 1)).nest outer p = some levels ∧ (∀ l ∈ levels, l.IsOpen) ∧
      levels.flatMap frames =
        TemplatePiece.nest .brace (List.replicate d .brace ++ outer.flatMap frames) p := by
  have hlevels : ∀ k, ∀ l ∈ substitution (k + 1) :: outer, l.IsOpen :=
    fun k => List.forall_mem_cons.mpr ⟨Nat.succ_pos k, houter⟩
  cases p with
  | substitution =>
    exact ⟨_, rfl, List.forall_mem_cons.mpr ⟨Nat.one_pos, hlevels d⟩, rfl⟩
  | char c =>
    simp only [nest, TemplatePiece.nest, minus?_eq (Nat.succ_pos d)]
    split
    · exact ⟨_, rfl, hlevels (d + 1), rfl⟩
    split
    · cases d with
      | zero => exact ⟨_, rfl, houter, rfl⟩
      | succ d => exact ⟨_, rfl, hlevels d, rfl⟩
    split
    · exact ⟨_, rfl, List.forall_mem_cons.mpr ⟨trivial, hlevels d⟩, rfl⟩
    · exact ⟨_, rfl, hlevels d, rfl⟩
  | _ => exact ⟨_, rfl, hlevels d, rfl⟩

/-- The braces that are open in a substitution are counted as the frames between two templates. -/
theorem TemplateLevel.exists_nest {level : TemplateLevel} {outer : List TemplateLevel}
    (hopen : ∀ l ∈ level :: outer, l.IsOpen) {fs : List TemplateFrame}
    (hfs : (level :: outer).flatMap frames = level.frame :: fs) (p : TemplatePiece) :
    ∃ levels, level.nest outer p = some levels ∧ (∀ l ∈ levels, l.IsOpen) ∧
      levels.flatMap frames = TemplatePiece.nest level.frame fs p := by
  obtain ⟨hlevel, houter⟩ := List.forall_mem_cons.mp hopen
  cases level with
  | body =>
    obtain rfl : outer.flatMap frames = fs := (List.cons.inj hfs).2
    exact exists_nest_body houter p
  | substitution depth =>
    obtain ⟨d, rfl⟩ := Nat.exists_eq_succ_of_ne_zero (Nat.ne_of_gt hlevel)
    obtain rfl : List.replicate d .brace ++ outer.flatMap frames = fs := (List.cons.inj hfs).2
    exact exists_nest_substitution houter d p

theorem templatePieces_eq (h : StandsAt text n t) {levels : List TemplateLevel}
    (hopen : ∀ l ∈ levels, l.IsOpen) : templatePieces text n levels t =
      some (TemplatePiece.scan (levels.flatMap TemplateLevel.frames) t) := by
  induction hk : t.length using Nat.strong_induction_on generalizing n t levels with
  | _ k ih =>
    cases levels with
    | nil =>
      rw [templatePieces, List.flatMap_nil, TemplatePiece.scan]
    | cons level outer =>
      obtain ⟨fs, hfs⟩ := TemplateLevel.exists_frames (List.forall_mem_cons.mp hopen).1 outer
      rw [hfs]
      cases t with
      | nil => rw [templatePieces, TemplatePiece.scan]
      | cons c t =>
        obtain ⟨w, r, rfl, hw⟩ := TemplatePiece.exists_split level.frame c t
        obtain ⟨levels, hnest, hlevels, hframes⟩ := TemplateLevel.exists_nest hopen hfs
          (TemplatePiece.next level.frame c (w ++ r))
        have hbehind : StandsAt text (n + Text.utf8Size (c :: w)) r := by
          rw [← List.cons_append] at h
          exact h.behind
        have hrest := ih r.length (by simp at hk; omega) hbehind hlevels rfl
        rw [templatePieces, templateStep_eq h, TemplatePiece.scan_cons hw]
        simp only [Option.bind_eq_bind, Option.bind_some, hnest, hw, List.length_cons,
          Nat.add_one_sub_one, List.drop_left, hrest, hframes]
        rfl

end Guarded

end EcmaLex
