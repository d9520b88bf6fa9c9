import LispSyntax.Proofs.Lexical.Seam

/-! # The tokens of a text inside a larger one

The tokens of a text are found again, further on, behind a mark (`exists_tokens_behind_mark`) and between a word and a
closing parenthesis on a line of its own (`exists_tokens_enclosed`). Trivia at the front of the text may be divided
anew: before the first token, blanks go to the mark or to the word, as far as they stand on its line. This does not show
in what touches what, because it is asked only of neighbours in the text (`Copied`).
-/

namespace LispSyntax

namespace Trivia

theorem piece?_space (side : Side) (x : Text) : piece? side (' ' :: x) =
    some ⟨.whitespace, ' ' :: x.takeWhile continuesBlank, x.dropWhile continuesBlank⟩ := rfl

theorem read_space_ne_nil (side : Side) (x : Text) : read side (' ' :: x) ≠ [] := by
  simp [read, cuts_of_piece? (piece?_space side x)]

/-- A space before a text does not hide its first lexeme. -/
theorem skip_space (x : Text) : skip .leading (' ' :: x) = skip .leading x := by
  rw [skip_of_piece? (piece?_space .leading x)]
  cases x with
  | nil => rfl
  | cons c cs =>
    cases goesOn : continuesBlank c with
    | false => simp [goesOn]
    | true =>
      -- Blanks after the space are taken with it; before the text they are a piece of their own.
      have blank : Text.isBlank c = true ∧ c ≠ '\n' ∧ c ≠ '\r' := by
        simpa [continuesBlank, and_assoc] using goesOn
      have notMark : c ≠ ',' ∧ c ≠ ';' := ⟨Writing.ne_of_class blank.1 rfl, Writing.ne_of_class blank.1 rfl⟩
      have piece : piece? .leading (c :: cs) =
          some ⟨.whitespace, c :: cs.takeWhile continuesBlank, cs.dropWhile continuesBlank⟩ := by
        simp [piece?, lineBreak?, inlinePiece?, blank, notMark]
      rw [skip_of_piece? piece, List.dropWhile_cons_of_pos goesOn]

end Trivia

namespace Token

/-! ## Copies -/

/-- The tokens of a stretch are found again `n` bytes further on, and touch where they did. -/
structure Copied (n : Nat) (ts us : List Token) : Prop where
  related : List.Forall₂ (Likeness.moved n).tokens ts us
  touching : AgreeAtSlashes ts us

variable {r : Registry} {m n start offset : Nat} {x y text : Text} {t last : Token} {ts us vs init : List Token}

theorem Copied.trans (first : Copied m ts us) (second : Copied n us vs) : Copied (m + n) ts vs := by
  obtain ⟨length, same⟩ := List.forall₂_iff_get.mp first.related
  refine ⟨?_, ?_⟩
  · obtain ⟨length', same'⟩ := List.forall₂_iff_get.mp second.related
    refine List.forall₂_iff_get.mpr ⟨length.trans length', fun i below below' => ?_⟩
    obtain ⟨kind, spelling, span⟩ := same i below (length ▸ below)
    obtain ⟨kind', spelling', span'⟩ := same' i (length ▸ below) below'
    refine ⟨kind.trans kind', spelling.trans spelling', ?_⟩
    rw [span', span]
    simp only [Span.shift, Span.mk.injEq]
    omega
  · intro i t t' v v' here next here'' next'' beside
    obtain ⟨below, rfl⟩ := List.getElem?_eq_some_iff.mp here
    obtain ⟨below', rfl⟩ := List.getElem?_eq_some_iff.mp next
    have kinds := (same i below (length ▸ below)).1
    have kinds' := (same (i + 1) below' (length ▸ below')).1
    simp only [List.get_eq_getElem] at kinds kinds'
    have here' : us[i]? = some us[i] := List.getElem?_eq_getElem (length ▸ below)
    have next' : us[i + 1]? = some us[i + 1] := List.getElem?_eq_getElem (length ▸ below')
    rw [first.touching i _ _ _ _ here next here' next' beside]
    rw [kinds, kinds'] at beside
    exact second.touching i _ _ _ _ here' next' here'' next'' beside

/-- Nothing is wrong with a copy of what nothing is wrong with. -/
theorem Copied.clean (copied : Copied n ts us) (clean : ts.flatMap diagnostics = []) :
    us.flatMap diagnostics = [] := by
  rw [flatMap_diagnostics_of_moved copied.related, clean]
  rfl

/-- Where the same lexeme comes first, at another place, the tokens are those of the text but for the trivia before the
first. -/
theorem exists_copy_of_skip_eq (r : Registry) (skipped : Trivia.skip .leading y = Trivia.skip .leading x)
    (total : start + Text.size y = n + Text.size x) :
    ∃ t ts leading, (tokenize x r).1 = t :: ts ∧
      (tokensFrom r start y).1 = ({ t with leading := leading } :: ts).map (shift n) := by
  obtain ⟨init, last, tokens, -⟩ := exists_init_tokensFrom r 0 x
  obtain ⟨t, ts, first⟩ : ∃ t ts, (tokensFrom r 0 x).1 = t :: ts := by
    rw [tokens]
    exact List.exists_cons_of_ne_nil (by simp)
  have moved := tokensFrom_shift r n 0 x
  rw [first, List.map_cons] at moved
  refine ⟨t, ts, Trivia.read .leading y, first, ?_⟩
  rw [tokensFrom_of_skip_eq skipped total moved]
  rfl

/-- A copy of the tokens before the end, and a copy of the end. -/
theorem exists_copied_of_skip_eq (skipped : Trivia.skip .leading y = Trivia.skip .leading x)
    (total : start + Text.size y = n + Text.size x) (clean : (tokenize x r).2 = [])
    (tokens : (tokenize x r).1 = init ++ ts) (going : init ≠ []) :
    ∃ init', tokensFrom r start y = (init' ++ ts.map (shift n), []) ∧ Copied n init init' := by
  obtain ⟨t, us, leading, first, copy⟩ := exists_copy_of_skip_eq r skipped total
  obtain ⟨u, vs, rfl⟩ := List.exists_cons_of_ne_nil going
  obtain ⟨rfl, rfl⟩ := List.cons.inj (first.symm.trans tokens)
  have copied : Copied n (t :: vs ++ ts) (({ t with leading := leading } :: (vs ++ ts)).map (shift n)) :=
    ⟨.cons ⟨rfl, rfl, rfl⟩ (moved_shift n _), agreeAtSlashes_first n leading t _⟩
  have silent : (tokensFrom r start y).2 = [] := by
    rw [diagnostics_tokensFrom, copy]
    apply copied.clean
    rw [← tokens, ← clean]
    exact (diagnostics_tokensFrom r 0 x).symm
  refine ⟨({ t with leading := leading } :: vs).map (shift n), Prod.ext ?_ silent,
    ⟨.cons ⟨rfl, rfl, rfl⟩ (moved_shift n vs), agreeAtSlashes_first n leading t vs⟩⟩
  rw [copy, ← List.map_append]
  rfl

/-! ## Behind a mark -/

open Writing

/-- Behind a mark come the tokens of the text. -/
theorem exists_tokens_behind_mark {kind : Kind} (isMark : kind ∈ markKinds)
    (scanned : lexemeOf r ((Word.mark kind isMark).text ++ text) =
      ⟨.clean kind (Word.mark kind isMark).text, text⟩)
    (clean : (tokenize text r).2 = []) (tokens : (tokenize text r).1 = init ++ [last]) (going : init ≠ []) :
    ∃ n t init', tokenize ((Word.mark kind isMark).text ++ text) r = (t :: (init' ++ [last.shift n]), []) ∧
      t.kind = kind ∧ t.text = (Word.mark kind isMark).text ∧ Copied n init init' := by
  obtain ⟨t, start, spells, -, whole, total⟩ := tokensFrom_word (w := .mark kind isMark) scanned 0
  rw [Text.size_append, Nat.zero_add] at total
  obtain ⟨init', copy, copied⟩ :=
    exists_copied_of_skip_eq (Trivia.skip_skip_trailing text) total clean tokens going
  refine ⟨_, t, init', ?_, spells.kind, spells.text, copied⟩
  rw [tokenize, whole, copy]
  rfl

/-! ## Between a word and a closing parenthesis -/

theorem exists_tokens_rightParen (r : Registry) :
    ∃ close last, tokenize [')'] r = ([close, last], []) ∧ close.kind = .rightParen := by
  have scanned : lexemeOf r ((Word.mark .rightParen (by decide)).text ++ []) = _ := lexemeOf_word r _ (by simp [Breaks])
  obtain ⟨close, next, spells, -, whole, -⟩ := tokensFrom_word scanned 0
  obtain ⟨last, ends, -⟩ := Writing.tokensFrom_nil r next
  have none : Trivia.skip .trailing [] = [] := (touches (solid_write [])).2
  rw [none, ends] at whole
  exact ⟨close, last, whole, spells.kind⟩

/-- A word in parentheses, and the text after it with the closing parenthesis on the next line. -/
def enclosed (name text : Text) : Text :=
  '(' :: (name ++ ' ' :: (text ++ ['\n', ')']))

/-- Before a closing parenthesis on a line of its own come the tokens of the text. -/
theorem exists_tokens_closed (clean : (tokenize text r).2 = []) (tokens : (tokenize text r).1 = init ++ [last]) :
    ∃ init' close last', tokenize (text ++ ['\n', ')']) r = (init' ++ [close, last'], []) ∧ Copied 0 init init' ∧
      close.kind = .rightParen ∧ close.leading ≠ [] := by
  obtain ⟨front, ending, behind, end₁, front', behind', end₂, tokens', tokens₁, tokens₂, lines⟩ :=
    exists_tokens_of_lines clean [')']
  obtain ⟨rfl, -⟩ := List.append_inj' (tokens.symm.trans tokens') rfl
  have silent := lexical_of_lines clean tokens' tokens₁ tokens₂ lines
  obtain ⟨close, end₃, one, isClose⟩ := exists_tokens_rightParen r
  rw [one] at tokens₁ silent
  obtain ⟨rfl, -⟩ := List.append_inj' (show [close] ++ [end₃] = behind ++ [end₁] from tokens₁) rfl
  obtain ⟨close', _, same, none, rfl⟩ := List.forall₂_cons_left_iff.mp lines.behind
  obtain rfl := List.forall₂_nil_left_iff.mp none
  exact ⟨front', close', end₂, Prod.ext (tokens₂.trans (List.append_assoc ..)) silent, ⟨lines.before, lines.touching⟩,
    same.1 ▸ isClose, lines.apart close' [] rfl⟩

theorem exists_tokens_enclosed (name : Name) (clean : (tokenize text r).2 = [])
    (tokens : (tokenize text r).1 = init ++ [last]) (going : init ≠ []) :
    ∃ n t u init' close last', tokenize (enclosed name.text text) r = (t :: u :: (init' ++ [close, last']), []) ∧
      t.kind = .leftParen ∧ (u.kind = Scan.symbolKind r name.text ∧ u.text = name.text) ∧ u.trailing ≠ [] ∧
      Copied n init init' ∧ close.kind = .rightParen ∧ close.leading ≠ [] := by
  obtain ⟨front, close, end', closed, copiedFront, isClose, apart⟩ := exists_tokens_closed clean tokens
  have going' : front ≠ [] := by
    rintro rfl
    exact going (List.forall₂_nil_right_iff.mp copiedFront.related)
  -- The parenthesis and the word before them.
  let x : Text := text ++ ['\n', ')']
  have breaks : Breaks (' ' :: x) := by
    intro c cs same
    exact .inl (List.cons.inj same).1.symm
  have opens : lexemeOf r ((Word.mark .leftParen (by decide)).text ++ (name.text ++ ' ' :: x)) =
      ⟨.clean .leftParen ['('], name.text ++ ' ' :: x⟩ := rfl
  obtain ⟨t, next, spells, -, whole, total⟩ := tokensFrom_word opens 0
  obtain ⟨u, start, spells', trailing, whole', total'⟩ := tokensFrom_word (lexemeOf_word r (.name name) breaks) next
  have solid := (touches (solid_of_breaks r (.name name) breaks)).2
  have whole'' : tokenize (enclosed name.text text) r =
      (t :: u :: (tokensFrom r start (Trivia.skip .trailing (' ' :: x))).1,
        (tokensFrom r start (Trivia.skip .trailing (' ' :: x))).2) := by
    have step := whole
    change _ = (t :: (tokensFrom r next (Trivia.skip .trailing ((Word.name name).text ++ ' ' :: x))).1,
      (tokensFrom r next (Trivia.skip .trailing ((Word.name name).text ++ ' ' :: x))).2) at step
    rw [solid, whole'] at step
    exact step
  have skipped : Trivia.skip .leading (Trivia.skip .trailing (' ' :: x)) = Trivia.skip .leading x := by
    rw [Trivia.skip_skip_trailing, Trivia.skip_space]
  let n := Text.size name.text + 2
  have size : start + Text.size (Trivia.skip .trailing (' ' :: x)) = n + Text.size x := by
    have one : Text.size ((Word.mark .leftParen (by decide)).text) = 1 := by decide
    have space : Char.utf8Size ' ' = 1 := by decide
    have total : next + Text.size (Trivia.skip .trailing ((Word.name name).text ++ ' ' :: x)) = _ := total
    rw [total', ← solid, total, Text.size_append, Text.size_append, Text.size_cons, one, space]
    omega
  obtain ⟨init', copy, copied⟩ :=
    exists_copied_of_skip_eq skipped size (congrArg Prod.snd closed) (congrArg Prod.fst closed) going'
  refine ⟨_, t, u, init', close.shift n, end'.shift n, ?_, spells.kind, ⟨spells'.kind, spells'.text⟩, ?_,
    copiedFront.trans copied, isClose, apart⟩
  · rw [whole'', copy]
    rfl
  · rw [trailing]
    exact Trivia.read_space_ne_nil .trailing x

end Token

end LispSyntax
