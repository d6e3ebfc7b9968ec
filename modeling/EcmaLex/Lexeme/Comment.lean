import EcmaLex.Lexeme.Basic
import EcmaLex.Text.CharClass

/-!
# Comments

A line comment ends before its line terminator. Block comments do not nest, but a comment that
seems to is reported, and then ends at the closing mark that belongs to its opening one.
-/

namespace EcmaLex

open Trace (reads noteHere)

/-- A piece of the body of a block comment. -/
inductive CommentPiece where
  | opening
  | closing
  | char (c : Char)
deriving DecidableEq, Repr

namespace CommentPiece

def text : CommentPiece → Text
  | opening => ['/', '*']
  | closing => ['*', '/']
  | char c => [c]

/-- The pieces before the mark that closes the comment, with `depth` nested openings to be closed
before it. -/
def scan (depth : Nat) : Text → List CommentPiece
  | [] => []
  | '/' :: '*' :: t => opening :: scan (depth + 1) t
  | '*' :: '/' :: t =>
    match depth with
    | 0 => []
    | n + 1 => closing :: scan n t
  | c :: t => char c :: scan depth t

def trace : CommentPiece → Trace
  | opening => noteHere .nestedComment ++ reads ['/', '*']
  | closing => noteHere .unbegunComment ++ reads ['*', '/']
  | char c => [.read c]

@[simp] theorem text_trace (p : CommentPiece) : p.trace.text = p.text := by
  cases p <;> rfl

end CommentPiece

namespace Lexeme

/-- The line comment whose text behind the two slashes starts `t`. -/
def lineComment (t : Text) : Lexeme :=
  let body := t.takeWhile (!isLineTerminator ·)
  { value := .comment .line body none
    trace := reads ('/' :: '/' :: body) }

/-- The block comment whose text behind the opening mark starts `t`. -/
def blockComment (t : Text) : Lexeme :=
  let pieces := CommentPiece.scan 0 t
  let body := pieces.flatMap CommentPiece.text
  let closed := !(t.drop body.length).isEmpty
  { value := .comment .block body (Directive.ofBody? body)
    unclosed := !closed
    trace :=
      reads ['/', '*'] ++ pieces.flatMap CommentPiece.trace ++
      if closed then reads ['*', '/'] else noteHere .unclosedComment }

end Lexeme

end EcmaLex
