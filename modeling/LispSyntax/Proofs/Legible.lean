import LispSyntax.Proofs.Writing.Scan

/-! # Problems are read off the lexeme

What is wrong with a lexeme depends on its kind and its text and on nothing around it: `Lexeme.problemsOf` is
that dependence, and every scanner keeps to it (`legible_scan`). A string is the case with an argument, since
it looks ahead for the digits of an escape. It never looks past the closing quote, so reading the text of a
string again gives the same problems. Each problem concerns a part of the lexeme that is not empty.
-/

namespace LispSyntax

open LispSyntax.Scan

/-- What is wrong with a lexeme of the given kind and text. -/
def Lexeme.problemsOf (kind : Kind) (text : Text) : List (LexicalProblem × Span) :=
  let whole := Span.ofSize 0 (Text.size text)
  match kind with
  | .bytes =>
    if text.length = 2 then [(.noHexDigits, whole)]
    else if text.length % 2 ≠ 0 then [(.oddHexDigits, whole)]
    else []
  | .string => (Scan.string text.tail).lexeme.problems
  | .keyword => if text.length > nameLimit + 1 then [(.nameTooLong, whole)] else []
  | .name | .builtinSymbol | .builtinFunction =>
    if text.length > nameLimit then [(.nameTooLong, whole)] else []
  | .unknown =>
    match text with
    | [] => []
    | ['#'] => [(.loneHash, whole)]
    | ['#', '#'] => [(.unknownHashHash, whole)]
    | ['\\'] => [(.noCharacter, whole)]
    | c :: _ => [(.unexpectedCharacter c, whole)]
  | _ => []

/-- The problems are those of the kind and the text, and each concerns a part of the text. -/
structure Lexeme.Legible (l : Lexeme) : Prop where
  problems : l.problems = problemsOf l.kind l.text
  part : ∀ problem ∈ l.problems,
    problem.2.start < problem.2.stop ∧ problem.2.stop ≤ Text.size l.text

namespace Scan

theorem legible_clean {kind : Kind} {text : Text} (none : Lexeme.problemsOf kind text = []) :
    (Lexeme.clean kind text).Legible :=
  ⟨none.symm, fun _ member => absurd member (List.not_mem_nil)⟩

theorem legible_flawed {kind : Kind} {text : Text} {problem : LexicalProblem} (nonempty : text ≠ [])
    (one : Lexeme.problemsOf kind text = [(problem, Span.ofSize 0 (Text.size text))]) :
    (Lexeme.flawed kind text problem).Legible := by
  refine ⟨one.symm, fun found member => ?_⟩
  obtain rfl := List.mem_singleton.mp member
  have positive : Text.size text ≠ 0 := fun zero => nonempty (Text.size_eq_zero.mp zero)
  simp only [Span.ofSize, Lexeme.flawed]
  omega

/-- A name that may be too long. -/
theorem legible_named {kind : Kind} {text name : Text} (nonempty : text ≠ [])
    (ifLong : Lexeme.problemsOf kind text =
      if name.length > nameLimit then [(.nameTooLong, Span.ofSize 0 (Text.size text))] else []) :
    (Lexeme.named kind text name).Legible := by
  unfold Lexeme.named
  split
  · rename_i long
    exact legible_flawed nonempty (by rw [ifLong, if_pos long])
  · rename_i short
    exact legible_clean (by rw [ifLong, if_neg short])

/-! ## Strings -/

/-- Looking for digits stops at the closing quote. -/
theorem takeWhile_stringBody {within : Char → Bool} (quote : within '"' = false)
    (backslash : within '\\' = false) (offset n : Nat) (cs : Text) :
    ((stringBody offset cs).text.take n).takeWhile within = (cs.take n).takeWhile within := by
  fun_induction stringBody offset cs generalizing n with
  | case1 offset => rfl
  | case2 offset cs => cases n <;> simp [quote]
  | case3 offset cs body inductionHypothesis => cases n <;> simp [body, StringBody.flag, StringBody.cons, backslash]
  | case4 offset c cs body notU inductionHypothesis => cases n <;> simp [body, StringBody.cons, backslash]
  | case5 offset c cs notQuote notEscape inductionHypothesis =>
    cases n with
    | zero => rfl
    | succ n => simp [StringBody.cons, List.takeWhile_cons, inductionHypothesis n]

theorem hexRun_stringBody (offset : Nat) (cs : Text) :
    hexRun (stringBody offset cs).text = hexRun cs :=
  takeWhile_stringBody rfl rfl offset 4 cs

/-- Reading the text of a string again gives the string. -/
theorem stringBody_text (offset : Nat) (cs : Text) :
    stringBody offset (stringBody offset cs).text = { stringBody offset cs with rest := [] } := by
  fun_induction stringBody offset cs with
  | case1 offset => rfl
  | case2 offset cs => simp [stringBody]
  | case3 offset cs body inductionHypothesis =>
    simp only [body, StringBody.flag, StringBody.cons, stringBody, inductionHypothesis, badEscape?,
      hexRun_stringBody, if_true]
  | case4 offset c cs body notU inductionHypothesis =>
    simp only [body, StringBody.cons, stringBody, inductionHypothesis, if_neg notU]
  | case5 offset c cs notQuote notEscape inductionHypothesis =>
    have step : stringBody offset (c :: (stringBody (offset + c.utf8Size) cs).text) =
        (stringBody (offset + c.utf8Size) (stringBody (offset + c.utf8Size) cs).text).cons c := by
      by_cases escape : c = '\\'
      · -- A backslash that escapes nothing is the last character.
        cases cs with
        | nil =>
          subst escape
          rfl
        | cons d ds => exact (notEscape d ds escape rfl).elim
      · exact Writing.stringBody_plain offset ⟨notQuote, escape⟩ _
    rw [StringBody.cons, step, inductionHypothesis]
    rfl

/-- A bad escape is the backslash, the letter and the digits that are there. -/
theorem badEscapes_stringBody (offset : Nat) (cs : Text) :
    ∀ span ∈ (stringBody offset cs).badEscapes,
      span.start < span.stop ∧ span.stop ≤ offset + Text.size (stringBody offset cs).text := by
  fun_induction stringBody offset cs with
  | case1 offset => simp
  | case2 offset cs => simp
  | case3 offset cs body inductionHypothesis =>
    simp only [body, StringBody.flag, StringBody.cons, List.mem_append, Text.size_cons]
    rintro span (own | later)
    · unfold badEscape? at own
      split at own
      · obtain rfl := List.mem_singleton.mp own
        have digits : (hexRun cs).length ≤ Text.size (stringBody (offset + 1 + 'u'.utf8Size) cs).text := by
          rw [← hexRun_stringBody (offset + 1 + 'u'.utf8Size) cs]
          refine Nat.le_trans ?_ (Text.length_le_size _)
          exact ((List.takeWhile_prefix _).trans (List.take_prefix 4 _)).length_le
        have backslash : '\\'.utf8Size = 1 := rfl
        have letter : 'u'.utf8Size = 1 := rfl
        simp only [Span.ofSize]
        omega
      · simp at own
    · have within := inductionHypothesis span later
      have backslash : '\\'.utf8Size = 1 := rfl
      omega
  | case4 offset c cs body notU inductionHypothesis =>
    simp only [body, StringBody.cons, Text.size_cons]
    intro span member
    have within := inductionHypothesis span member
    have backslash : '\\'.utf8Size = 1 := rfl
    omega
  | case5 offset c cs notQuote notEscape inductionHypothesis =>
    simp only [StringBody.cons, Text.size_cons]
    intro span member
    have within := inductionHypothesis span member
    omega

theorem legible_string (cs : Text) : (string cs).lexeme.Legible := by
  constructor
  · simp only [Lexeme.problemsOf, string, List.tail_cons, stringBody_text]
  · intro problem member
    simp only [string, List.mem_append, List.mem_map] at member
    rcases member with ⟨span, bad, rfl⟩ | unclosed
    · have within := badEscapes_stringBody 1 cs span bad
      have quote : '"'.utf8Size = 1 := rfl
      simp only [string, Text.size_cons]
      omega
    · split at unclosed
      · simp at unclosed
      · obtain rfl := List.mem_singleton.mp unclosed
        have quote : '"'.utf8Size = 1 := rfl
        simp only [string, Span.ofSize, Text.size_cons]
        omega

/-! ## The other scanners -/

theorem legible_endNumber (fraction : Bool) (text rest : Text) :
    (endNumber fraction text rest).lexeme.Legible := by
  unfold endNumber
  split
  · exact legible_clean rfl
  · cases fraction <;> exact legible_clean rfl

theorem legible_number (first : Char) (cs : Text) : (number first cs).lexeme.Legible := by
  simp only [number]
  split
  · exact legible_endNumber ..
  · split
    · split
      · exact legible_endNumber ..
      · exact legible_clean rfl
    · exact legible_endNumber ..

theorem legible_bytes (cs : Text) : (bytes cs).lexeme.Legible := by
  simp only [bytes]
  cases digits : cs.takeWhile Text.isHexDigit with
  | nil => exact legible_flawed (by simp) rfl
  | cons d ds =>
    have some : ('0' :: 'x' :: d :: ds).length ≠ 2 := by simp
    have parity : ('0' :: 'x' :: d :: ds).length % 2 = (d :: ds).length % 2 := by
      simp only [List.length_cons]
      omega
    rw [if_neg (by simp)]
    split
    · rename_i odd
      refine legible_flawed (by simp) ?_
      simp only [Lexeme.problemsOf]
      rw [if_neg some, if_pos (by rw [parity]; exact odd)]
    · rename_i even
      refine legible_clean ?_
      simp only [Lexeme.problemsOf]
      rw [if_neg some, if_neg (by rw [parity]; exact even)]

theorem legible_digit (first : Char) (cs : Text) : (digit first cs).lexeme.Legible := by
  unfold digit
  split
  · exact legible_bytes _
  · exact legible_number ..

theorem legible_hash (cs : Text) : (hash cs).lexeme.Legible := by
  unfold hash
  split
  · exact legible_clean rfl
  · split
    · exact legible_clean rfl
    · exact legible_flawed (by simp) rfl
  · split
    · exact legible_clean rfl
    · exact legible_flawed (by simp) rfl

theorem legible_keyword (cs : Text) : (keyword cs).lexeme.Legible := by
  unfold keyword
  split
  · exact legible_clean rfl
  · refine legible_named (by simp) ?_
    simp [Lexeme.problemsOf]

theorem legible_symbolLexeme (r : Registry) {text : Text} (nonempty : text ≠ []) :
    (symbolLexeme r text).Legible := by
  unfold symbolLexeme
  iterate 4
    split
    · exact legible_clean rfl
  refine legible_named nonempty ?_
  unfold symbolKind
  split <;> rfl

theorem legible_character (cs : Text) : (character cs).lexeme.Legible := by
  unfold character
  split
  · exact legible_flawed (by simp) rfl
  · split
    · exact legible_flawed (by simp) rfl
    · split
      · exact legible_clean rfl
      · split <;> exact legible_clean rfl

theorem legible_mark {c : Char} {kind : Kind} (isMark : mark? c = some kind) (text : Text) :
    (Lexeme.clean kind text).Legible := by
  unfold mark? at isMark
  split at isMark <;> cases isMark <;> exact legible_clean rfl

theorem legible_scan (r : Registry) (first : Char) (cs : Text) : (scan r first cs).lexeme.Legible := by
  unfold scan
  split
  · rename_i isMark
    exact legible_mark isMark _
  split
  · exact legible_string cs
  split
  · exact legible_character cs
  split
  · exact legible_hash cs
  split
  · exact legible_keyword cs
  split
  · exact legible_digit first cs
  split
  · exact legible_number first cs
  split
  · exact legible_symbolLexeme r (by simp)
  · rename_i noBackslash noHash _ _ _ _
    refine legible_flawed (by simp) ?_
    simp only [Lexeme.problemsOf]
    split <;> simp_all

end Scan

/-! ## Tokens -/

namespace Token

def diagnostics (t : Token) : List Diagnostic :=
  (Lexeme.problemsOf t.kind t.text).map fun problem =>
    .lexical problem.1.message (problem.2.shift t.span.start)

theorem legible_lexemeOf (r : Registry) (text : Text) : (lexemeOf r text).lexeme.Legible := by
  cases text with
  | nil => exact Scan.legible_clean rfl
  | cons c cs => exact Scan.legible_scan r c cs

theorem diagnostics_read (r : Registry) (offset : Nat) (text : Text) :
    (read r offset text).diagnostics = (read r offset text).token.diagnostics := by
  have legible := legible_lexemeOf r (Trivia.skip .leading text)
  simp only [read, diagnosticsAt, diagnostics, legible.problems, Span.ofSize]

/-- The diagnostics of a text are those of its tokens. -/
theorem diagnostics_tokensFrom (r : Registry) (offset : Nat) (text : Text) :
    (tokensFrom r offset text).2 = (tokensFrom r offset text).1.flatMap diagnostics := by
  fun_induction tokensFrom r offset text with
  | case1 offset text reading isEnd =>
    rw [List.flatMap_singleton]
    exact diagnostics_read r offset text
  | case2 offset text reading notEnd next inductionHypothesis =>
    rw [List.flatMap_cons, ← inductionHypothesis, ← diagnostics_read r offset text]

/-- Each problem of a token concerns a part of it. -/
theorem part_of_mem_tokensFrom (r : Registry) (offset : Nat) (text : Text) :
    ∀ t ∈ (tokensFrom r offset text).1, ∀ problem ∈ Lexeme.problemsOf t.kind t.text,
      problem.2.start < problem.2.stop ∧ problem.2.stop ≤ Text.size t.text := by
  have one : ∀ (offset : Nat) (text : Text),
      ∀ problem ∈ Lexeme.problemsOf (read r offset text).token.kind (read r offset text).token.text,
        problem.2.start < problem.2.stop ∧
          problem.2.stop ≤ Text.size (read r offset text).token.text := by
    intro offset text
    have legible := legible_lexemeOf r (Trivia.skip .leading text)
    simp only [read]
    rw [← legible.problems]
    exact legible.part
  fun_induction tokensFrom r offset text with
  | case1 offset text reading isEnd =>
    rw [List.forall_mem_singleton]
    exact one offset text
  | case2 offset text reading notEnd next inductionHypothesis =>
    exact List.forall_mem_cons.mpr ⟨one offset text, inductionHypothesis⟩

end Token

end LispSyntax
