import LispSyntax.Text.Classes
import LispSyntax.Trivia

/-! # Reading trivia

Trivia before a token runs over any number of lines; trivia after a token stops at the line break.
`Trivia.piece?` takes one piece off the front of a text and `Trivia.read` takes pieces until none is
left. A line break is a line feed, or a carriage return and a line feed together; any other carriage
return is an ordinary blank. Nothing is lost: the piece and what follows it make up the text.
-/

namespace LispSyntax

inductive Side where
  | leading
  | trailing
deriving DecidableEq, Repr

namespace Trivia

def lineBreak? : Text → Option (Text × Text)
  | '\n' :: cs => some (['\n'], cs)
  | '\r' :: '\n' :: cs => some (['\r', '\n'], cs)
  | _ => none

def splitLine : Text → Text × Text
  | [] => ([], [])
  | c :: cs =>
    if (lineBreak? (c :: cs)).isSome then ([], c :: cs)
    else (c :: (splitLine cs).1, (splitLine cs).2)

/-- Whether a blank continues a run of blanks; a carriage return always starts a piece of its own. -/
def continuesBlank (c : Char) : Bool :=
  Text.isBlank c && c != '\n' && c != '\r'

structure Cut where
  kind : PieceKind
  text : Text
  rest : Text

/-- The piece at the front of a text that is no line break. -/
def inlinePiece? : Text → Option Cut
  | [] => none
  | c :: cs =>
    if c = ',' then
      some ⟨.comma, c :: cs.takeWhile (· == ','), cs.dropWhile (· == ',')⟩
    else if c = ';' then
      some ⟨.comment, c :: (splitLine cs).1, (splitLine cs).2⟩
    else if Text.isBlank c then
      some ⟨.whitespace, c :: cs.takeWhile continuesBlank, cs.dropWhile continuesBlank⟩
    else none

def piece? (side : Side) (text : Text) : Option Cut :=
  match lineBreak? text with
  | some (taken, rest) =>
    match side with
    | .leading => some ⟨.newline, taken, rest⟩
    | .trailing => none
  | none => inlinePiece? text

/-! ## Nothing is lost -/

theorem append_of_lineBreak? {text taken rest : Text} (h : lineBreak? text = some (taken, rest)) :
    taken ++ rest = text ∧ taken ≠ [] := by
  unfold lineBreak? at h
  split at h <;> simp at h <;> obtain ⟨rfl, rfl⟩ := h <;> simp

theorem splitLine_append (text : Text) : (splitLine text).1 ++ (splitLine text).2 = text := by
  induction text with
  | nil => rfl
  | cons c cs ih =>
    rw [splitLine]
    split
    · rfl
    · simp [ih]

theorem append_of_inlinePiece? {text : Text} {cut : Cut} (h : inlinePiece? text = some cut) :
    cut.text ++ cut.rest = text ∧ cut.text ≠ [] := by
  cases text with
  | nil => simp [inlinePiece?] at h
  | cons c cs =>
    rw [inlinePiece?] at h
    split at h
    · obtain rfl := Option.some.inj h
      simp
    split at h
    · obtain rfl := Option.some.inj h
      simp [splitLine_append]
    split at h
    · obtain rfl := Option.some.inj h
      simp
    · simp at h

/-- A piece and what follows it make up the text, and no piece is empty. -/
theorem append_of_piece? {side : Side} {text : Text} {cut : Cut} (h : piece? side text = some cut) :
    cut.text ++ cut.rest = text ∧ cut.text ≠ [] := by
  unfold piece? at h
  split at h
  · rename_i taken rest eq
    cases side with
    | leading =>
      obtain rfl := Option.some.inj h
      exact append_of_lineBreak? eq
    | trailing => simp at h
  · exact append_of_inlinePiece? h

theorem length_of_piece? {side : Side} {text : Text} {cut : Cut} (h : piece? side text = some cut) :
    cut.rest.length < text.length := by
  obtain ⟨whole, nonempty⟩ := append_of_piece? h
  have := List.length_pos_iff.mpr nonempty
  have := congrArg List.length whole
  simp at this
  omega

/-! ## Runs of pieces -/

/-- The pieces at the front of a text, with their characters, and what follows them. -/
def cuts (side : Side) (text : Text) : List (PieceKind × Text) × Text :=
  match _h : piece? side text with
  | none => ([], text)
  | some cut =>
    let next := cuts side cut.rest
    ((cut.kind, cut.text) :: next.1, next.2)
termination_by text.length
decreasing_by exact length_of_piece? _h

def read (side : Side) (text : Text) : Trivia :=
  (cuts side text).1.map fun cut => ⟨cut.1, Text.size cut.2⟩

def skip (side : Side) (text : Text) : Text :=
  (cuts side text).2

/-- The pieces and what follows them make up the text. -/
theorem flatten_cuts_append (side : Side) (text : Text) :
    ((cuts side text).1.map Prod.snd).flatten ++ (cuts side text).2 = text := by
  fun_induction cuts side text with
  | case1 => simp
  | case2 text cut h next ih => simpa [next, ih] using (append_of_piece? h).1

theorem length_skip_le (side : Side) (text : Text) : (skip side text).length ≤ text.length := by
  have := congrArg List.length (flatten_cuts_append side text)
  simp only [List.length_append] at this
  simp only [skip]
  omega

/-- The size of the trivia is the number of bytes skipped. -/
theorem size_read_add (side : Side) (text : Text) :
    size (read side text) + Text.size (skip side text) = Text.size text := by
  unfold read skip
  fun_induction cuts side text with
  | case1 => simp
  | case2 text cut h next ih =>
    have whole := congrArg Text.size (append_of_piece? h).1
    simp only [Text.size_append] at whole
    simp only [List.map_cons, size_cons, next]
    omega

end Trivia

end LispSyntax
