import LispSyntax.Proofs.Legible
import LispSyntax.Proofs.Lexical.Recognition

/-! # Lexemes and trivia in another context

What is read at the front of a text is decided by what is taken, up to a point: the text behind it can be cut off
where reading stopped, and a line can be put behind it. Cutting off is easy to see on the grammar, where a longest
lexeme stays the longest of those in a shorter text (`Recognises.truncate`). A line feed belongs to no lexeme but a
string, so it ends the others where the end of the text does (`lexemeOf_append_feed`).

Trivia sees one character ahead in one place, a carriage return that a line feed may follow. So a text must not be cut
between the two (`Severed`), and trivia before a new line may be divided in another way, with the same lexeme after it
(`skip_append_feed`).
-/

namespace LispSyntax

namespace Lexical

open Writing
open Scan hiding hash

variable {r : Registry} {spelling : Text → Prop} {rest lexeme u v b : Text} {kind : Kind}

/-! ## Cutting off what follows -/

theorem Longest.truncate (longest : Longest spelling (u ++ v) lexeme) (within : lexeme <+: u) :
    Longest spelling u lexeme where
  spelled := longest.spelled
  starts := within
  longest other spelled starts := longest.longest other spelled (starts.trans (List.prefix_append u v))

theorem Absent.truncate (absent : Absent spelling (u ++ v)) : Absent spelling u :=
  fun lexeme spelled starts => absent lexeme spelled (starts.trans (List.prefix_append u v))

/-- The grammar puts the same lexeme at the front of a text when what follows the lexeme is cut off. -/
theorem Recognises.truncate (recognised : Recognises r (u ++ v) kind lexeme) (within : lexeme <+: u) :
    Recognises r u kind lexeme := by
  have keeps : ∀ {word : Text}, ¬ word <+: u ++ v → ¬ word <+: u :=
    fun absent starts => absent (starts.trans (List.prefix_append u v))
  cases recognised with
  | bytes longest => exact .bytes (longest.truncate within)
  | number notBytes longest isNumber => exact .number (keeps notBytes) (longest.truncate within) isNumber
  | address longest => exact .address (longest.truncate within)
  | keyword longest => exact .keyword (longest.truncate within)
  | reserved absent longest isReserved => exact .reserved absent.truncate (longest.truncate within) isReserved
  | symbol absent longest free => exact .symbol absent.truncate (longest.truncate within) free
  | character longest => exact .character (longest.truncate within)
  | string isString _ => exact .string isString within
  | unterminated starts absent =>
    -- Such a string takes everything, so there is nothing to cut off.
    obtain ⟨after, whole⟩ := within
    obtain ⟨rfl, -⟩ : v = [] ∧ after = [] := by simpa using whole
    rw [List.append_nil] at *
    exact .unterminated starts absent
  | fixed member _ => exact .fixed member within
  | colon _ absent => exact .colon within absent.truncate
  | backslash _ absent => exact .backslash within absent.truncate
  | hashHash _ absent => exact .hashHash within absent.truncate
  | hash _ absent noAddress notHashHash =>
    exact .hash within absent.truncate noAddress.truncate (keeps notHashHash)
  | control isControl _ => exact .control isControl within

/-! ## A line feed ends a lexeme -/

theorem IsRun.feed_not_mem {opening text : Text} {within : Char → Bool} {least : Nat}
    (isRun : IsRun opening within least text) (opens : '\n' ∉ opening) (outside : within '\n' = false) :
    '\n' ∉ text := by
  obtain ⟨run, rfl, -, inside⟩ := isRun
  intro member
  cases List.mem_append.mp member with
  | inl inOpening => exact opens inOpening
  | inr inRun =>
    rw [inside _ inRun] at outside
    contradiction

theorem IsDigits.feed_not_mem {digits : Text} (isDigits : IsDigits digits) : '\n' ∉ digits := by
  intro member
  have isDigit := isDigits.2 _ member
  contradiction

theorem IsSign.feed_not_mem {sign : Text} (isSign : IsSign sign) : '\n' ∉ sign := by
  rcases isSign with rfl | rfl | rfl <;> decide

theorem IsExponent.feed_not_mem {exponent : Text} (isExponent : IsExponent exponent) : '\n' ∉ exponent := by
  cases isExponent with
  | intro isMark isSign isDigits =>
    have inSign := isSign.feed_not_mem
    have inDigits := isDigits.feed_not_mem
    rcases isMark with rfl | rfl <;> simp [inSign, inDigits]

theorem IsNumber.feed_not_mem (isNumber : IsNumber kind lexeme) : '\n' ∉ lexeme := by
  cases isNumber with
  | whole isSign isDigits => simp [isSign.feed_not_mem, isDigits.feed_not_mem]
  | pointed isSign isDigits => simp [isSign.feed_not_mem, isDigits.feed_not_mem]
  | @fraction sign digits fraction exponent isSign digitsOrNone isDigits exponentOrNone =>
    have inDigits : '\n' ∉ digits := by
      rcases digitsOrNone with rfl | isDigits
      · exact List.not_mem_nil
      · exact isDigits.feed_not_mem
    have inExponent : '\n' ∉ exponent := by
      rcases exponentOrNone with rfl | isExponent
      · exact List.not_mem_nil
      · exact isExponent.feed_not_mem
    simp [isSign.feed_not_mem, inDigits, isDigits.feed_not_mem, inExponent]
  | scientific isSign isDigits isExponent =>
    simp [isSign.feed_not_mem, isDigits.feed_not_mem, isExponent.feed_not_mem]

theorem IsCharacter.feed_not_mem (isCharacter : IsCharacter lexeme) : '\n' ∉ lexeme := by
  cases isCharacter with
  | named member =>
    have noFeed : ∀ word ∈ namedCharacters, '\n' ∉ '\\' :: word := by decide
    exact noFeed _ member
  | code _ digital =>
    intro member
    simp only [List.mem_cons, Char.reduceEq, false_or] at member
    have isDigit := digital _ member
    contradiction
  | plain notFeed _ => simpa using notFeed.symm

/-- Only a string can hold a line feed. -/
theorem Recognises.feed_not_mem (recognised : Recognises r rest kind lexeme) (solid : Solid rest)
    (noString : kind ≠ .string) : '\n' ∉ lexeme := by
  cases recognised with
  | bytes longest => exact longest.spelled.feed_not_mem (by decide) (by decide)
  | number _ _ isNumber => exact isNumber.feed_not_mem
  | address longest => exact longest.spelled.feed_not_mem (by decide) (by decide)
  | keyword longest => exact longest.spelled.feed_not_mem (by decide) (by decide)
  | reserved _ longest => exact longest.spelled.feed_not_mem (by decide) (by decide)
  | symbol _ longest => exact longest.spelled.feed_not_mem (by decide) (by decide)
  | character longest => exact longest.spelled.feed_not_mem
  | string | unterminated => contradiction
  | fixed member _ =>
    have noFeed : ∀ entry ∈ fixedLexemes, '\n' ∉ entry.1 := by decide
    exact noFeed _ member
  | colon | backslash | hashHash | hash => decide
  | @control c _ starts =>
    -- A line feed is a control character too, but it is trivia.
    obtain ⟨after, rfl⟩ := starts
    have notBlank := (solid c after rfl).1
    intro member
    obtain rfl := List.mem_singleton.mp member
    contradiction

theorem prefix_of_not_mem {c : Char} (starts : lexeme <+: u ++ c :: b) (without : c ∉ lexeme) : lexeme <+: u := by
  cases List.prefix_or_prefix_of_prefix starts (List.prefix_append u (c :: b)) with
  | inl shorter => exact shorter
  | inr longer =>
    obtain ⟨more, rfl⟩ := longer
    cases more with
    | nil => simp
    | cons d more =>
      obtain ⟨rfl, -⟩ := List.cons_prefix_cons.mp ((List.prefix_append_right_inj u).mp starts)
      exact absurd (by simp) without

/-- Only a quote starts a string. -/
theorem Recognises.opens_string (recognised : Recognises r rest kind lexeme) (isString : kind = .string) :
    ['"'] <+: rest := by
  cases recognised with
  | bytes | address | keyword | character | colon | backslash | hashHash | hash | control => contradiction
  | number _ _ isNumber =>
    subst isString
    cases isNumber
  | reserved _ _ isReserved =>
    have noString : ∀ entry ∈ reservedWords, entry.2 ≠ .string := by decide
    exact absurd isString (noString _ isReserved)
  | symbol =>
    have isSymbol := isSymbolToken_symbolKind r lexeme
    rw [isString] at isSymbol
    contradiction
  | string isQuoted starts =>
    obtain ⟨body, -, rfl⟩ := isQuoted
    exact (List.prefix_append ['"'] _).trans starts
  | unterminated starts => exact starts
  | fixed member _ =>
    have noString : ∀ entry ∈ fixedLexemes, entry.2 ≠ .string := by decide
    exact absurd isString (noString _ member)

/-- Where a line feed follows, the grammar puts the same lexeme at the front, unless it is a string that is not
closed. -/
theorem Recognises.append_feed {first : Char} {cs : Text} (recognised : Recognises r (first :: cs) kind lexeme)
    (solid : Solid (first :: cs)) (closed : kind = .string → IsString lexeme) (starts : lexeme <+: first :: cs)
    (b : Text) : Recognises r (first :: cs ++ '\n' :: b) kind lexeme := by
  by_cases isString : kind = .string
  · subst isString
    exact .string (closed rfl) (starts.trans (List.prefix_append ..))
  · have solid' : Solid (first :: (cs ++ '\n' :: b)) := by
      rintro c after whole
      obtain ⟨rfl, -⟩ := List.cons.inj whole
      exact solid first cs rfl
    have scanned := recognises_scan (r := r) solid'
    have noString : (scan r first (cs ++ '\n' :: b)).lexeme.kind ≠ .string := by
      intro isQuoted
      obtain ⟨rfl, -⟩ := List.cons_prefix_cons.mp (scanned.opens_string isQuoted)
      exact isString ((recognises_iff solid kind lexeme).mp recognised).1
    have within : (scan r first (cs ++ '\n' :: b)).lexeme.text <+: first :: cs :=
      prefix_of_not_mem ⟨_, scan_append r first _⟩ (scanned.feed_not_mem solid' noString)
    obtain ⟨sameKind, sameText⟩ :=
      (recognises_iff solid _ _).mp (Recognises.truncate (u := first :: cs) (v := '\n' :: b) scanned within)
    obtain ⟨kindEq, textEq⟩ := (recognises_iff solid kind lexeme).mp recognised
    rw [kindEq, textEq, ← sameKind, ← sameText]
    exact scanned

end Lexical

namespace Trivia

variable {side : Side} {x s v b : Text} {cut : Cut}

/-! ## Trivia before a new line -/

theorem cuts_of_piece? (found : piece? side x = some cut) :
    cuts side x = ((cut.kind, cut.text) :: (cuts side cut.rest).1, (cuts side cut.rest).2) := by
  rw [cuts]
  split
  · rename_i stopped
    rw [found] at stopped
    contradiction
  · rename_i other found'
    rw [found] at found'
    cases found'
    rfl

theorem cuts_of_stopped (stopped : piece? side x = none) : cuts side x = ([], x) := by
  rw [cuts]
  split
  · rfl
  · rename_i found
    rw [stopped] at found
    contradiction

theorem skip_of_piece? (found : piece? side x = some cut) : skip side x = skip side cut.rest := by
  rw [skip, cuts_of_piece? found, skip]

/-- Trivia before a token goes on where trivia after the last one stopped. -/
theorem skip_skip_trailing (x : Text) : skip .leading (skip .trailing x) = skip .leading x := by
  rw [skip.eq_def .trailing]
  fun_induction cuts .trailing x with
  | case1 => rfl
  | case2 x cut found next inductionHypothesis =>
    rw [inductionHypothesis]
    have inline := piece?_trailing_eq_some found
    have leading : piece? .leading x = some cut := by
      unfold piece? at found ⊢
      split
      · rename_i broken
        rw [broken] at found
        contradiction
      · exact inline
    exact (skip_of_piece? leading).symm

theorem lineBreak?_append {taken rest : Text} (broken : lineBreak? x = some (taken, rest)) (y : Text) :
    lineBreak? (x ++ y) = some (taken, rest ++ y) := by
  unfold lineBreak? at broken
  split at broken
  · obtain ⟨rfl, rfl⟩ := Prod.mk.inj (Option.some.inj broken)
    rfl
  · obtain ⟨rfl, rfl⟩ := Prod.mk.inj (Option.some.inj broken)
    rfl
  · contradiction

/-- A new line makes a line break of a carriage return alone. -/
theorem lineBreak?_append_feed (unbroken : lineBreak? x = none) (nonempty : x ≠ []) (b : Text) :
    lineBreak? (x ++ '\n' :: b) = none ∨ x = ['\r'] := by
  match x with
  | [] => contradiction
  | [c] =>
    by_cases isReturn : c = '\r'
    · exact .inr (by rw [isReturn])
    · left
      unfold lineBreak? at unbroken ⊢
      split
      · rename_i same
        cases same
        simp at unbroken
      · rename_i same
        cases same
        contradiction
      · rfl
  | c :: d :: cs =>
    left
    unfold lineBreak? at unbroken ⊢
    split
    · rename_i same
      cases same
      simp at unbroken
    · rename_i same
      cases same
      simp at unbroken
    · rfl

theorem splitLine_append_feed (cs b : Text) :
    (splitLine (cs ++ '\n' :: b)).2 = (splitLine cs).2 ++ '\n' :: b ∨
      ((splitLine cs).2 = [] ∧ (splitLine (cs ++ '\n' :: b)).2 = '\r' :: '\n' :: b) := by
  induction cs with
  | nil => exact .inl rfl
  | cons c cs inductionHypothesis =>
    cases broken : lineBreak? (c :: cs) with
    | some parts =>
      left
      have stays := lineBreak?_append broken ('\n' :: b)
      rw [List.cons_append] at stays
      simp [splitLine, broken, stays]
    | none =>
      rcases lineBreak?_append_feed broken (List.cons_ne_nil c cs) b with unbroken | isReturn
      · rw [List.cons_append] at unbroken
        simpa [splitLine, broken, unbroken] using inductionHypothesis
      · obtain ⟨rfl, rfl⟩ := List.cons.inj isReturn
        exact .inr ⟨rfl, rfl⟩

theorem skip_feed (b : Text) : skip .leading ('\n' :: b) = skip .leading b :=
  @skip_of_piece? .leading _ ⟨.newline, ['\n'], b⟩ rfl

theorem skip_return_feed (b : Text) : skip .leading ('\r' :: '\n' :: b) = skip .leading b :=
  @skip_of_piece? .leading _ ⟨.newline, ['\r', '\n'], b⟩ rfl

theorem dropWhile_append_stop {p : Char → Bool} {c : Char} (stops : p c = false) (cs b : Text) :
    (cs ++ c :: b).dropWhile p = cs.dropWhile p ++ c :: b := by
  rw [List.dropWhile_append]
  split
  · rename_i empty
    rw [List.isEmpty_iff.mp empty]
    simp [stops]
  · rfl

/-- Before a new line a piece of trivia may be divided in another way, with the same lexeme after it. -/
theorem skip_piece_append_feed (found : piece? .leading x = some cut) (b : Text) :
    skip .leading (x ++ '\n' :: b) = skip .leading (cut.rest ++ '\n' :: b) := by
  unfold piece? at found
  split at found
  · rename_i taken rest broken
    obtain rfl := Option.some.inj found
    have inBoth : piece? .leading (x ++ '\n' :: b) = some ⟨.newline, taken, rest ++ '\n' :: b⟩ := by
      simp only [piece?, lineBreak?_append broken]
    exact skip_of_piece? inBoth
  · rename_i unbroken
    cases x with
    | nil => contradiction
    | cons c cs =>
      -- A line feed behind the text changes the first piece only where it joins a carriage return.
      rcases lineBreak?_append_feed unbroken (List.cons_ne_nil c cs) b with unbroken' | isReturn
      · have inline : piece? .leading (c :: cs ++ '\n' :: b) = inlinePiece? (c :: (cs ++ '\n' :: b)) := by
          rw [piece?, unbroken']
          rfl
        rw [inlinePiece?] at inline found
        split at found
        · rename_i isComma
          obtain rfl := Option.some.inj found
          rw [if_pos isComma] at inline
          rw [skip_of_piece? inline, dropWhile_append_stop (by decide)]
        split at found
        · rename_i notComma isSemicolon
          obtain rfl := Option.some.inj found
          rw [if_neg notComma, if_pos isSemicolon] at inline
          rw [skip_of_piece? inline]
          rcases splitLine_append_feed cs b with same | ⟨ended, isReturn⟩
          · rw [same]
          · rw [isReturn, ended, List.nil_append, skip_return_feed, skip_feed]
        split at found
        · rename_i notComma notSemicolon blank
          obtain rfl := Option.some.inj found
          rw [if_neg notComma, if_neg notSemicolon, if_pos blank] at inline
          rw [skip_of_piece? inline, dropWhile_append_stop (by decide)]
        · contradiction
      · obtain ⟨rfl, rfl⟩ := List.cons.inj isReturn
        have rest : cut.rest = [] := by
          cases found
          rfl
        rw [rest]
        exact (skip_return_feed b).trans (skip_feed b).symm

theorem skip_append_feed (x b : Text) :
    skip .leading (x ++ '\n' :: b) = skip .leading (skip .leading x ++ '\n' :: b) := by
  rw [skip.eq_def .leading x]
  fun_induction cuts .leading x with
  | case1 => rfl
  | case2 x cut found next inductionHypothesis =>
    rw [skip_piece_append_feed found, inductionHypothesis]

/-! ## Cutting off what follows -/

/-- The cut goes through a line break. -/
def Severed (s v : Text) : Prop :=
  s = ['\r'] ∧ ∃ w, v = '\n' :: w

theorem lineBreak?_truncate (unbroken : lineBreak? (s ++ v) = none) : lineBreak? s = none := by
  cases broken : lineBreak? s with
  | none => rfl
  | some parts =>
    rw [lineBreak?_append broken] at unbroken
    contradiction

theorem isSome_lineBreak? (broken : (lineBreak? (s ++ v)).isSome = true) (nonempty : s ≠ [])
    (whole : ¬ Severed s v) : (lineBreak? s).isSome = true := by
  obtain ⟨c, cs, rfl⟩ := List.exists_cons_of_ne_nil nonempty
  unfold lineBreak? at broken
  split at broken
  · rename_i same
    obtain ⟨rfl, -⟩ := List.cons.inj same
    rfl
  · rename_i same
    obtain ⟨rfl, after⟩ := List.cons.inj same
    cases cs with
    | nil => exact absurd ⟨rfl, _, after⟩ whole
    | cons d ds =>
      obtain ⟨rfl, -⟩ := List.cons.inj after
      rfl
  · contradiction

theorem splitLine_truncate {cs : Text} (left : (splitLine cs).2 = s ++ v) (whole : ¬ Severed s v) :
    splitLine ((splitLine cs).1 ++ s) = ((splitLine cs).1, s) := by
  induction cs with
  | nil =>
    obtain ⟨rfl, rfl⟩ := List.append_eq_nil_iff.mp left.symm
    rfl
  | cons c cs inductionHypothesis =>
    rw [splitLine] at left ⊢
    split at left
    · rename_i broken
      rw [if_pos broken, List.nil_append]
      cases s with
      | nil => rfl
      | cons d s =>
        have left : c :: cs = d :: s ++ v := left
        rw [left] at broken
        rw [splitLine, if_pos (isSome_lineBreak? broken (List.cons_ne_nil d s) whole)]
    · rename_i unbroken
      have rest := inductionHypothesis left
      have line := splitLine_append cs
      rw [left, ← List.append_assoc] at line
      have unbroken' : lineBreak? (c :: ((splitLine cs).1 ++ s)) = none := by
        apply lineBreak?_truncate (v := v)
        rw [List.cons_append, line]
        simpa using unbroken
      rw [if_neg unbroken, List.cons_append, splitLine, unbroken', rest]
      rfl

theorem takeWhile_truncate {p : Char → Bool} {cs : Text} (left : cs.dropWhile p = s ++ v) :
    (cs.takeWhile p ++ s).takeWhile p = cs.takeWhile p ∧ (cs.takeWhile p ++ s).dropWhile p = s := by
  have stops : s.takeWhile p = [] ∧ s.dropWhile p = s := by
    cases s with
    | nil => exact ⟨rfl, rfl⟩
    | cons c s =>
      have head := List.head?_dropWhile_not p cs
      rw [left] at head
      have outside : p c = false := by simpa using head
      simp [outside]
  have inside : ∀ c ∈ cs.takeWhile p, p c = true := List.all_eq_true.mp List.all_takeWhile
  rw [List.takeWhile_append_of_pos inside, List.dropWhile_append_of_pos inside, stops.1, stops.2,
    List.append_nil]
  exact ⟨rfl, rfl⟩

theorem inlinePiece?_truncate (found : inlinePiece? x = some cut) (left : cut.rest = s ++ v)
    (whole : ¬ Severed s v) : inlinePiece? (cut.text ++ s) = some ⟨cut.kind, cut.text, s⟩ := by
  cases x with
  | nil => contradiction
  | cons c cs =>
    rw [inlinePiece?] at found
    split at found
    · rename_i isComma
      obtain rfl := Option.some.inj found
      obtain ⟨taken, dropped⟩ := takeWhile_truncate left
      rw [List.cons_append, inlinePiece?, if_pos isComma, taken, dropped]
    split at found
    · rename_i notComma isSemicolon
      obtain rfl := Option.some.inj found
      have line := splitLine_truncate left whole
      rw [List.cons_append, inlinePiece?, if_neg notComma, if_pos isSemicolon, line]
    split at found
    · rename_i notComma notSemicolon blank
      obtain rfl := Option.some.inj found
      obtain ⟨taken, dropped⟩ := takeWhile_truncate left
      rw [List.cons_append, inlinePiece?, if_neg notComma, if_neg notSemicolon, if_pos blank, taken, dropped]
    · contradiction

/-- Without some of what follows it, the same piece is taken. -/
theorem piece?_truncate (found : piece? side x = some cut) (left : cut.rest = s ++ v)
    (whole : ¬ Severed s v) : piece? side (cut.text ++ s) = some ⟨cut.kind, cut.text, s⟩ := by
  have parts := (append_of_piece? found).1
  unfold piece? at found ⊢
  split at found
  · rename_i taken rest broken
    cases side with
    | leading =>
      obtain rfl := Option.some.inj found
      unfold lineBreak? at broken
      split at broken
      · obtain ⟨rfl, rfl⟩ := Prod.mk.inj (Option.some.inj broken)
        rfl
      · obtain ⟨rfl, rfl⟩ := Prod.mk.inj (Option.some.inj broken)
        rfl
      · contradiction
    | trailing => contradiction
  · rename_i unbroken
    rw [← parts, left, ← List.append_assoc] at unbroken
    rw [lineBreak?_truncate unbroken]
    exact inlinePiece?_truncate found left whole

theorem piece?_truncate_none (stopped : piece? side (s ++ v) = none) (whole : ¬ Severed s v) :
    piece? side s = none := by
  cases s with
  | nil => rfl
  | cons c s =>
    unfold piece? at stopped ⊢
    split at stopped
    · rename_i broken
      cases side with
      | leading => contradiction
      | trailing =>
        have still := isSome_lineBreak? (by rw [broken]; rfl) (List.cons_ne_nil c s) whole
        obtain ⟨parts, broken'⟩ := Option.isSome_iff_exists.mp still
        rw [broken']
    · rename_i unbroken
      rw [lineBreak?_truncate unbroken]
      simp only [List.cons_append, inlinePiece?] at stopped ⊢
      split at stopped
      · contradiction
      split at stopped
      · contradiction
      split at stopped
      · contradiction
      · rename_i notComma notSemicolon notBlank
        rw [if_neg notComma, if_neg notSemicolon, if_neg notBlank]

/-- A gap ends before a line break or after it, never inside. -/
theorem severed_of_gap (whole : x = gap side x ++ s ++ v) (severed : Severed (gap side x ++ s) v) :
    Severed s v := by
  obtain ⟨isReturn, w, rfl⟩ := severed
  rw [isReturn] at whole
  have empty : gap side x = [] := by
    cases side with
    | trailing =>
      rw [whole, gap, cuts_of_stopped rfl]
      rfl
    | leading =>
      have found : piece? .leading x = some ⟨.newline, ['\r', '\n'], w⟩ := by
        rw [whole]
        rfl
      rw [gap, cuts_of_piece? found] at isReturn
      simp at isReturn
  rw [empty] at isReturn
  exact ⟨isReturn, w, rfl⟩

/-- Without some of what follows it, the same trivia is read. -/
theorem cuts_truncate (left : skip side x = s ++ v) (whole : ¬ Severed s v) :
    cuts side (gap side x ++ s) = ((cuts side x).1, s) := by
  unfold skip at left
  unfold gap
  fun_induction cuts side x with
  | case1 x stopped =>
    dsimp only at left
    subst left
    exact cuts_of_stopped (piece?_truncate_none stopped whole)
  | case2 x cut found next inductionHypothesis =>
    have after := gap_append_skip side cut.rest
    have rest : cut.rest = gap side cut.rest ++ s ++ v := by
      rw [List.append_assoc, ← left]
      exact after.symm
    have here := piece?_truncate found rest fun severed => whole (severed_of_gap rest severed)
    have later : cuts side (gap side cut.rest ++ s) = (next.1, s) := inductionHypothesis left
    simp only [List.map_cons, List.flatten_cons, List.append_assoc]
    rw [← gap, cuts_of_piece? here, later]

end Trivia

namespace Token

open Lexical Writing

variable {r : Registry} {x s v b : Text}

/-! ## What the scanner gives -/

theorem lexeme_ext {y : Text} (kinds : (lexemeOf r x).lexeme.kind = (lexemeOf r y).lexeme.kind)
    (texts : (lexemeOf r x).lexeme.text = (lexemeOf r y).lexeme.text) :
    (lexemeOf r x).lexeme = (lexemeOf r y).lexeme := by
  have problems := (legible_lexemeOf r x).problems
  have problems' := (legible_lexemeOf r y).problems
  rw [kinds, texts, ← problems'] at problems
  generalize (lexemeOf r x).lexeme = l at *
  generalize (lexemeOf r y).lexeme = l' at *
  cases l
  cases l'
  simp_all

theorem lexemeOf_eq {text : Text} {l : Lexeme} (lexeme : (lexemeOf r (text ++ s)).lexeme = l)
    (textEq : l.text = text) : lexemeOf r (text ++ s) = ⟨l, s⟩ := by
  have whole := lexemeOf_append r (text ++ s)
  rw [lexeme, textEq, List.append_cancel_left_eq] at whole
  cases scanned : lexemeOf r (text ++ s)
  rw [scanned] at lexeme whole
  rw [← lexeme, ← whole]

/-- Without some of what follows it, the same lexeme is scanned. -/
theorem lexemeOf_truncate (solid : Solid x) (left : (lexemeOf r x).rest = s ++ v) :
    lexemeOf r ((lexemeOf r x).lexeme.text ++ s) = ⟨(lexemeOf r x).lexeme, s⟩ := by
  refine lexemeOf_eq ?_ rfl
  cases x with
  | nil =>
    obtain ⟨rfl, rfl⟩ := List.append_eq_nil_iff.mp left.symm
    rfl
  | cons first cs =>
    obtain ⟨c, after, textEq⟩ := List.exists_cons_of_ne_nil (Scan.text_scan_ne_nil r first cs)
    have whole := lexemeOf_append r (first :: cs)
    have recognised := recognises_scan (r := r) solid
    rw [left, ← List.append_assoc] at whole
    rw [← whole] at recognised
    have truncated := recognised.truncate (List.prefix_append ..)
    simp only [lexemeOf, textEq, List.cons_append] at whole truncated ⊢
    obtain ⟨rfl, -⟩ := List.cons.inj whole
    have solid' : Solid (c :: (after ++ s)) := by
      rintro d rest same
      obtain ⟨rfl, -⟩ := List.cons.inj same
      exact solid c cs rfl
    obtain ⟨kindEq, sameText⟩ := (recognises_iff solid' _ _).mp truncated
    exact lexeme_ext (x := c :: (after ++ s)) (y := c :: cs) kindEq.symm (sameText.symm.trans textEq.symm)

/-- Where nothing is wrong with a string, it is closed. -/
theorem isString_of_clean {first : Char} {cs : Text} (solid : Solid (first :: cs))
    (isString : (Scan.scan r first cs).lexeme.kind = .string)
    (clean : (Scan.scan r first cs).lexeme.problems = []) : IsString (Scan.scan r first cs).lexeme.text := by
  obtain ⟨rfl, -⟩ := List.cons_prefix_cons.mp ((recognises_scan solid).opens_string isString)
  have closed : (Scan.stringBody 1 cs).closed = true := by
    cases closed : (Scan.stringBody 1 cs).closed with
    | true => rfl
    | false => simp [Scan.scan, Scan.mark?, Scan.string, closed] at clean
  obtain ⟨body, quoted, textEq⟩ := (stringBody_parts 1 cs).1 closed
  exact ⟨body, quoted, congrArg ('"' :: ·) textEq⟩

/-- Where a line feed follows, the same lexeme is scanned, if nothing is wrong with it. -/
theorem lexemeOf_append_feed (solid : Solid x) (nonempty : x ≠ []) (clean : (lexemeOf r x).lexeme.problems = [])
    (b : Text) : lexemeOf r (x ++ '\n' :: b) = ⟨(lexemeOf r x).lexeme, (lexemeOf r x).rest ++ '\n' :: b⟩ := by
  have whole := lexemeOf_append r x
  obtain ⟨first, cs, rfl⟩ := List.exists_cons_of_ne_nil nonempty
  have solid' : Solid (first :: (cs ++ '\n' :: b)) := by
    rintro c after same
    obtain ⟨rfl, -⟩ := List.cons.inj same
    exact solid first cs rfl
  have recognised := (recognises_scan (r := r) solid).append_feed solid
    (fun isString => isString_of_clean solid isString clean) ⟨_, whole⟩ b
  obtain ⟨kindEq, textEq⟩ := (recognises_iff solid' _ _).mp recognised
  have lexeme := lexeme_ext (r := r) (x := first :: (cs ++ '\n' :: b)) (y := first :: cs) kindEq.symm textEq.symm
  have split : first :: cs ++ '\n' :: b =
      (lexemeOf r (first :: cs)).lexeme.text ++ ((lexemeOf r (first :: cs)).rest ++ '\n' :: b) := by
    rw [← List.append_assoc, whole]
  rw [split]
  refine lexemeOf_eq ?_ rfl
  rw [← split]
  exact lexeme

end Token

end LispSyntax
