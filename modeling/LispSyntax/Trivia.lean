import LispSyntax.Fault

/-! # Trivia

Blanks, line breaks, commas and comments carry no meaning and are kept beside the tokens. A trivia is
the list of its pieces; a piece records its kind and its length in bytes, the characters themselves
stay in the token's text.
-/

namespace LispSyntax

inductive PieceKind where
  | whitespace
  | newline
  | comma
  | comment
deriving DecidableEq, Repr

namespace PieceKind

def label : PieceKind → String
  | whitespace => "Whitespace"
  | newline => "Newline"
  | comma => "Comma"
  | comment => "Comment"

def ofLabel? (label : String) : Option PieceKind :=
  [whitespace, newline, comma, comment].find? (·.label == label)

end PieceKind

/-- One run of trivia of the same kind. -/
structure Piece where
  kind : PieceKind
  size : Nat
deriving DecidableEq, Repr

abbrev Trivia := List Piece

namespace Trivia

def size : Trivia → Nat
  | [] => 0
  | p :: ps => p.size + size ps

@[simp] theorem size_nil : size [] = 0 := rfl

@[simp] theorem size_cons (p : Piece) (ps : Trivia) : size (p :: ps) = p.size + size ps := rfl

@[simp] theorem size_append (a b : Trivia) : size (a ++ b) = size a + size b := by
  induction a with
  | nil => simp
  | cons p ps ih => simp [ih, Nat.add_assoc]

/-- The trivia of the given pieces, whose total length has to be expressible. -/
def ofPieces (pieces : List Piece) : Except Fault Trivia :=
  if size pieces < sizeLimit then .ok pieces else .error .sizeOverflow

def describePiece (p : Piece) : String :=
  "TriviaPiece \x7b kind: " ++ p.kind.label ++ ", len: " ++ toString p.size ++ " \x7d"

def describe (t : Trivia) : String :=
  "GreenTrivia \x7b pieces: [" ++ ", ".intercalate (t.map describePiece) ++ "], total_len: "
    ++ toString (size t) ++ " \x7d"

end Trivia

end LispSyntax
