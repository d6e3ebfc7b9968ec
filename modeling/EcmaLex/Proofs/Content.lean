import EcmaLex.Lexeme.Basic

/-!
# Contents

The content of a token is all there is to it apart from its place: its kind, its text, its value,
and what went wrong with it.
-/

namespace EcmaLex

structure Content where
  kind : TokenKind
  raw : Text
  value : TokenValue
  malformed : Bool
  unclosed : Bool
deriving DecidableEq, Repr

namespace Content

def isEof (k : Content) : Bool := k.kind = .eof

def isComment (k : Content) : Bool := k.kind = .comment

def slashNext (ks : List Content) : Bool :=
  (ks.find? (!·.isComment)).any (·.raw.head? = some '/')

theorem slashNext_cons (k : Content) (ks : List Content) : slashNext (k :: ks) =
    if k.isComment then slashNext ks else k.raw.head? = some '/' := by
  unfold slashNext
  cases hk : k.isComment <;> simp [hk]

theorem slashNext_of_append {ks ks' : List Content} (h : slashNext (ks ++ ks') = false) :
    slashNext ks = false := by
  unfold slashNext at h ⊢
  rw [List.find?_append] at h
  cases hk : ks.find? (!·.isComment) with
  | none => rfl
  | some k => rwa [hk, Option.some_or] at h

theorem find?_filter_isComment (w : Bool) (ks : List Content) :
    (ks.filter (fun k => w || !k.isComment)).find? (!·.isComment) = ks.find? (!·.isComment) := by
  rw [List.find?_filter]
  congr
  funext k
  cases w <;> cases k.isComment <;> rfl

theorem slashNext_filter (w : Bool) (ks : List Content) :
    slashNext (ks.filter (fun k => w || !k.isComment)) = slashNext ks :=
  congrArg (Option.any _) (find?_filter_isComment w ks)

end Content

def Token.content (t : Token) : Content :=
  { kind := t.kind
    raw := t.raw
    value := t.value
    malformed := t.malformed
    unclosed := t.unclosed }

namespace Lexeme

def content (l : Lexeme) : Content :=
  { kind := l.kind
    raw := l.raw
    value := l.value
    malformed := l.malformed
    unclosed := l.unclosed }

@[simp] theorem isComment_content (l : Lexeme) :
    l.content.isComment = decide (l.kind = .comment) := rfl

theorem content_eq {l m : Lexeme} (hr : l.raw = m.raw) (hv : l.value = m.value)
    (hm : l.malformed = m.malformed) (hu : l.unclosed = m.unclosed) : l.content = m.content := by
  simp [content, kind, hr, hv, hm, hu]

end Lexeme

end EcmaLex
