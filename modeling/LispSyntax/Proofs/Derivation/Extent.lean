import LispSyntax.Proofs.Derivation.Form
import LispSyntax.Proofs.Setting

/-! # Matching delimiters in a derivation

A form whose delimiters match is some marks in front of one token or one delimited sequence (`Extent`). That a stretch
of tokens matches does not by itself say how it was read: it has to be excluded that a delimiter reported as missing and
one reported as unexpected make up for each other. For this `Settles` says that a stretch matches by itself, or that
nothing that comes after it can make it match.
-/

namespace LispSyntax

/-! ## Matching delimiters -/

namespace Token

variable {t : Token} {ts us after : List Token} {awaited outer closers : List Kind} {closer : Kind}

/-- Behind tokens that match, the same sequences are awaited as before them. -/
theorem Closes.after_append (first : Closes awaited ts) (both : Closes (awaited ++ outer) (ts ++ us)) :
    Closes outer us := by
  induction first with
  | done => exact both
  | opener opens _ inductionHypothesis => exact inductionHypothesis (both.after_opener opens)
  | closer isCloser _ inductionHypothesis =>
    obtain ⟨_, awaitedEq, rest⟩ := both.after_closer isCloser
    rw [List.cons_append] at awaitedEq
    rw [← (List.cons.inj awaitedEq).2] at rest
    exact inductionHypothesis rest
  | plain noOpener noCloser _ inductionHypothesis =>
    exact inductionHypothesis (both.after_plain noOpener noCloser)

instance decidableCloses : (awaited : List Kind) → (ts : List Token) → Decidable (Closes awaited ts)
  | [], [] => .isTrue .done
  | _ :: _, [] => .isFalse nofun
  | awaited, t :: ts =>
    match opens : t.kind.closer? with
    | some closer =>
      have := decidableCloses (closer :: awaited) ts
      decidable_of_iff (Closes (closer :: awaited) ts) ⟨.opener opens, (·.after_opener opens)⟩
    | none =>
      if isCloser : t.kind.isCloser = true then
        match awaited with
        | [] => .isFalse fun closes => nomatch closes.after_closer isCloser
        | kind :: outer =>
          have := decidableCloses outer ts
          decidable_of_iff (kind = t.kind ∧ Closes outer ts) (by
            constructor
            · rintro ⟨rfl, closes⟩
              exact .closer isCloser closes
            · intro closes
              obtain ⟨_, awaitedEq, rest⟩ := closes.after_closer isCloser
              obtain ⟨rfl, rfl⟩ := List.cons.inj awaitedEq
              exact ⟨rfl, rest⟩)
      else
        have := decidableCloses awaited ts
        decidable_of_iff (Closes awaited ts)
          ⟨.plain opens (by simpa using isCloser), (·.after_plain opens (by simpa using isCloser))⟩

/-- With sequences of these closing delimiters open around it, no more of the tokens after it make the stretch match. -/
def Broken (closers : List Kind) (ts after : List Token) : Prop :=
  ∀ awaited ⊆ closers, ∀ us, us <+: after → ¬ Closes awaited (ts ++ us)

theorem Broken.append (broken : Broken closers ts (us ++ after)) : Broken closers (ts ++ us) after := by
  intro awaited within vs isPrefix all
  rw [List.append_assoc] at all
  exact broken awaited within (us ++ vs) ((List.prefix_append_right_inj us).mpr isPrefix) all

theorem Broken.prepend (closes : Closes [] ts) (broken : Broken closers us after) :
    Broken closers (ts ++ us) after := by
  intro awaited within vs isPrefix all
  rw [List.append_assoc] at all
  exact broken awaited within vs isPrefix (closes.after_append all)

theorem Broken.opened (opens : t.kind.closer? = some closer) (broken : Broken (closer :: closers) ts after) :
    Broken closers (t :: ts) after := by
  intro awaited within us isPrefix all
  exact broken (closer :: awaited) (List.cons_subset_cons closer within) us isPrefix (all.after_opener opens)

/-- A closing delimiter that closes nothing never gets its opening one. -/
theorem Broken.stray {frames : List Frame} (isCloser : t.kind.isCloser = true)
    (going : Delimiters.ends frames t.kind = false) : Broken (frames.map (·.closer)) [t] after := by
  intro awaited within us _ all
  obtain ⟨_, rfl, -⟩ := all.after_closer isCloser
  exact Delimiters.not_mem_of_ends isCloser going (within List.mem_cons_self)

/-- A sequence that is not closed ends at a token that closes another one. -/
theorem Broken.missing {frames : List Frame} {frame : Frame} {last : Token}
    (opens : t.kind.closer? = some frame.closer) (closes : Closes [] ts)
    (ended : Delimiters.ends (frame :: frames) (next last after).kind = true)
    (other : (next last after).kind ≠ frame.closer) (noEnd : ∀ u ∈ after, u.kind ≠ .eof) :
    Broken (frames.map (·.closer)) (t :: ts) after := by
  intro awaited within us isPrefix all
  have rest : Closes (frame.closer :: awaited) us := closes.after_append (all.after_opener opens)
  cases us with
  | nil => exact rest.ne_nil (List.cons_ne_nil _ _) rfl
  | cons u us =>
    obtain ⟨vs, rfl⟩ := isPrefix
    change Delimiters.ends (frame :: frames) u.kind = true at ended
    change u.kind ≠ frame.closer at other
    rcases Delimiters.ends_eq_true ended with isEof | ⟨isCloser, -⟩
    · exact noEnd u List.mem_cons_self isEof
    · obtain ⟨_, awaitedEq, -⟩ := rest.after_closer isCloser
      exact other (List.cons.inj awaitedEq).1.symm

/-- The stretch matches by itself, or it cannot be made to. -/
def Settles (closers : List Kind) (ts after : List Token) : Prop :=
  Closes [] ts ∨ Broken closers ts after

theorem Settles.nothing : Settles closers [] after :=
  .inl .done

theorem Settles.broken (first : Settles closers ts (us ++ after)) (second : Broken closers us after) :
    Broken closers (ts ++ us) after := by
  rcases first with closes | broken
  · exact second.prepend closes
  · exact broken.append

theorem Settles.append (first : Settles closers ts (us ++ after)) (second : Settles closers us after) :
    Settles closers (ts ++ us) after := by
  rcases second with closes' | broken
  · rcases first with closes | broken
    · exact .inl (closes.append closes')
    · exact .inr broken.append
  · exact .inr (first.broken broken)

theorem Closes.single (noDelimiter : Delimiters.isPlain t.kind = true) : Closes [] [t] := by
  simp only [Delimiters.isPlain, Bool.and_eq_true, Option.isNone_iff_eq_none, Bool.not_eq_true'] at noDelimiter
  exact .plain noDelimiter.1.1 noDelimiter.1.2 .done

theorem Settles.single (noDelimiter : Delimiters.isPlain t.kind = true) : Settles closers [t] after :=
  .inl (.single noDelimiter)

theorem Settles.plain (noDelimiter : Delimiters.isPlain t.kind = true) (rest : Settles closers ts after) :
    Settles closers (t :: ts) after :=
  (Settles.single noDelimiter).append rest

/-- A delimited sequence that is closed matches if its inside does; one that is not closed never does. -/
theorem Settles.enclosed {last : Token} {frames : List Frame} {frame : Frame} {es : List Draft} {rs : List Report}
    (opens : t.kind.closer? = some frame.closer)
    (inside : Settles ((frame :: frames).map (·.closer)) ts (Draft.tokensAll es ++ after))
    (closing : Grammar.Closing last frames frame es rs after) (noEnd : ∀ u ∈ after, u.kind ≠ .eof) :
    Settles (frames.map (·.closer)) (t :: (ts ++ Draft.tokensAll es)) after := by
  rcases inside with closes | broken
  · cases closing with
    | @taken u _ isClosed =>
      have closed : Closes (u.kind :: []) [u] :=
        .closer (by rw [isClosed]; exact Kind.isCloser_of_closer? opens) .done
      rw [isClosed] at closed
      exact .inl (.opener opens (closes.append closed))
    | missing ended other =>
      rw [Draft.tokensAll_nil, List.append_nil]
      exact .inr (.missing opens closes ended other noEnd)
  · exact .inr (broken.append.opened opens)

end Token

namespace Grammar

open Draft Delimiters

variable {last : Token} {role : Role} {frames : List Frame} {ds : List Draft} {rs : List Report} {after : List Token}

/-- Nothing is reported of forms that are nested too deeply. -/
def Shallow (rs : List Report) : Prop :=
  ∀ report ∈ rs, report.problem ≠ .tooDeep

theorem Shallow.left {rs' : List Report} (shallow : Shallow (rs ++ rs')) : Shallow rs :=
  fun report member => shallow report (List.mem_append_left rs' member)

theorem Shallow.right {rs' : List Report} (shallow : Shallow (rs ++ rs')) : Shallow rs' :=
  fun report member => shallow report (List.mem_append_right rs member)

theorem isPlain_of_isWord {kind : Kind} {t : Token} (word : IsWord kind t) : isPlain t.kind = true := by
  rcases word with ⟨-, isLiteral⟩ | ⟨-, isSymbol⟩
  · exact isPlain_of_isLiteralToken isLiteral
  · exact isPlain_of_isSymbolToken isSymbol

/-- A form that does not count is a closing delimiter. -/
theorem Derives.exists_stray (derives : Derives last (.form false) frames ds rs after) :
    ∃ t, tokensAll ds = [t] ∧ t.kind.isCloser = true ∧ ends frames t.kind = false := by
  cases derives with
  | stray isCloser going => exact ⟨_, by simp, isCloser, going⟩

theorem Derives.broken_of_stray (derives : Derives last (.form false) frames ds rs after) :
    Token.Broken (frames.map (·.closer)) (tokensAll ds) after := by
  obtain ⟨t, tokens, isCloser, going⟩ := derives.exists_stray
  rw [tokens]
  exact .stray isCloser going

/-- A stretch of parsing that skips nothing settles whether its tokens match. -/
theorem Derives.settles (derives : Derives last role frames ds rs after) (shallow : Shallow rs)
    (noEnd : ∀ t ∈ tokensAll ds ++ after, t.kind ≠ .eof) :
    Token.Settles (frames.map (·.closer)) (tokensAll ds) after := by
  induction derives with
  | nothing | remark | done => exact .nothing
  | append _ _ firstHypothesis secondHypothesis =>
    rw [tokensAll_append] at noEnd ⊢
    rw [List.append_assoc] at noEnd
    exact (firstHypothesis shallow.left noEnd).append
      (secondHypothesis shallow.right fun t member => noEnd t (List.mem_append_right _ member))
  | entry _ _ firstHypothesis secondHypothesis | skipped _ _ firstHypothesis secondHypothesis =>
    simp only [tokensAll_cons, tokensAll_nil, List.append_nil, List.append_assoc] at firstHypothesis noEnd ⊢
    exact (firstHypothesis shallow.left noEnd).append
      (secondHypothesis shallow.right fun t member => noEnd t (List.mem_append_right _ member))
  | widen _ inductionHypothesis | form _ inductionHypothesis | metadata _ inductionHypothesis
  | group _ inductionHypothesis => exact inductionHypothesis shallow noEnd
  | note _ _ _ _ inductionHypothesis => exact inductionHypothesis shallow.left noEnd
  | node _ _ _ inductionHypothesis | enclosed _ _ _ inductionHypothesis =>
    rw [tokensAll_node] at noEnd ⊢
    exact inductionHypothesis shallow noEnd
  | misplaced _ _ inductionHypothesis =>
    rw [tokensAll_node] at noEnd ⊢
    exact inductionHypothesis shallow.left noEnd
  -- A token that is no delimiter.
  | token plain | bad plain => simpa using .single plain
  | name word | word word => simpa using .single (isPlain_of_isWord word)
  | parameter isSymbol isParameter =>
    rcases isParameter with rfl | rfl | rfl <;> simpa using .single (isPlain_of_isSymbolToken isSymbol)
  | undescribed isCaret => simpa using .single (by rw [isCaret]; rfl)
  | division isSlash => simpa using .single (by rw [isSlash]; rfl)
  | unreadable isUnknown => simpa using .single (by rw [isUnknown]; rfl)
  | unquoted isMark => simpa using .single (isPlain_of_mark isMark)
  | lookup word _ isSlash isSymbol =>
    simpa using .plain (isPlain_of_isWord word)
      (.plain (by rw [isSlash]; rfl) (.single (isPlain_of_isSymbolToken isSymbol)))
  -- One in front of more.
  | binding isSymbol _ inductionHypothesis =>
    simp only [tokensAll_cons, tokens_node, tokens_token, tokensAll_nil, List.append_nil, List.cons_append,
      List.nil_append, List.forall_mem_cons] at noEnd ⊢
    exact .plain (isPlain_of_isSymbolToken isSymbol) (inductionHypothesis shallow noEnd.2)
  | described isCaret _ _ inductionHypothesis =>
    simp only [tokensAll_node, tokensAll_token, List.cons_append, List.forall_mem_cons] at noEnd ⊢
    exact .plain (by rw [isCaret]; rfl) (inductionHypothesis shallow.right noEnd.2)
  | quoted isMark _ inductionHypothesis =>
    simp only [tokensAll_node, tokensAll_token, List.cons_append, List.forall_mem_cons] at noEnd ⊢
    exact .plain (isPlain_of_mark isMark) (inductionHypothesis shallow noEnd.2)
  -- Delimiters.
  | closed opens _ closing inductionHypothesis =>
    simp only [List.cons_append, tokensAll_token, tokensAll_append, List.append_assoc, List.forall_mem_cons] at noEnd ⊢
    exact .enclosed opens (inductionHypothesis shallow.left noEnd.2) closing
      fun t member => noEnd.2 t (by simp [member])
  | map isBrace _ closing inductionHypothesis =>
    simp only [tokensAll_node, List.cons_append, tokensAll_token, tokensAll_append, List.append_assoc,
      List.forall_mem_cons] at noEnd ⊢
    have opens : _ = some Kind.rightBrace := congrArg Kind.closer? isBrace
    exact .enclosed opens (inductionHypothesis shallow.left.left noEnd.2) closing
      fun t member => noEnd.2 t (by simp [member])
  | cutShort opens _ stray inductionHypothesis =>
    simp only [List.cons_append, tokensAll_token, tokensAll_append, List.append_assoc, List.forall_mem_cons] at noEnd ⊢
    exact .inr (((inductionHypothesis shallow.left.left noEnd.2).broken stray.broken_of_stray).opened opens)
  | tooDeep => exact absurd rfl (shallow _ List.mem_cons_self)
  | stray isCloser going => simpa using .inr (.stray isCloser going)

/-! ## The extent of a form -/

/-- What matching tokens of a form are: a token, a lookup or a delimited sequence, with marks in front of it; or marks
that nothing follows, which behind a caret can be a closing delimiter that is not taken. -/
inductive Extent (last : Token) (frames : List Frame) (after : List Token) : List Token → Prop
  | word {t} : isPlain t.kind = true → marks.contains t.kind = false → (t.IsAccount → ¬ t.LooksUp after) →
      Extent last frames after [t]
  | lookup {t s u} : t.IsAccount → t.LooksUp (s :: u :: after) → Extent last frames after [t, s, u]
  | enclosed {t u ts} : t.kind.closer? = some u.kind → Token.Closes [] ts → Extent last frames after (t :: (ts ++ [u]))
  | alone {t} : marks.contains t.kind = true →
      ends frames (Token.next last after).kind = true ∨ (Token.next last after).kind.isCloser = true →
      Extent last frames after [t]
  | marked {t ts} : marks.contains t.kind = true → Extent last frames after ts → Extent last frames after (t :: ts)

theorem noMark_of_isWord {kind : Kind} {t : Token} (word : IsWord kind t) : marks.contains t.kind = false := by
  rcases word with ⟨-, isWord⟩ | ⟨-, isWord⟩ <;> revert isWord <;> cases t.kind <;> decide

/-- A delimited sequence that matches is closed, and what stands inside matches. -/
theorem extent_enclosed {t : Token} {frame : Frame} {ts : List Token} {es : List Draft}
    (opens : t.kind.closer? = some frame.closer)
    (inside : Token.Settles ((frame :: frames).map (·.closer)) ts (tokensAll es ++ after))
    (closing : Closing last frames frame es rs after) (closes : Token.Closes [] (t :: (ts ++ tokensAll es))) :
    Extent last frames after (t :: (ts ++ tokensAll es)) := by
  have inner := closes.after_opener opens
  have matched : Token.Closes [] ts := by
    refine inside.resolve_right fun broken => ?_
    exact broken [frame.closer] (by simp) (tokensAll es) (List.prefix_append _ _) inner
  cases closing with
  | @taken u _ isClosed =>
    rw [← isClosed] at opens
    exact .enclosed opens matched
  | missing =>
    have nothing : Token.Closes [frame.closer] [] := by
      apply matched.after_append
      simpa using inner
    exact absurd rfl (nothing.ne_nil (List.cons_ne_nil _ _))

theorem Derives.extent_of_group {mode : Mode} (derives : Derives last (.group mode) frames ds rs after)
    (shallow : Shallow rs) (noEnd : ∀ t ∈ tokensAll ds ++ after, t.kind ≠ .eof)
    (closes : Token.Closes [] (tokensAll ds)) : Extent last frames after (tokensAll ds) := by
  cases derives with
  | closed opens inside closing =>
    simp only [List.cons_append, tokensAll_token, tokensAll_append, List.append_assoc, List.forall_mem_cons]
      at noEnd closes ⊢
    exact extent_enclosed opens (inside.settles shallow.left noEnd.2) closing closes
  | cutShort opens inside stray =>
    simp only [List.cons_append, tokensAll_token, tokensAll_append, List.append_assoc, List.forall_mem_cons]
      at noEnd closes ⊢
    have broken := (inside.settles shallow.left.left noEnd.2).broken stray.broken_of_stray
    refine absurd (closes.after_opener opens) ?_
    simpa using broken [_] (by simp) [] (List.nil_prefix)

/-- What a form is, or metadata, whose tokens match. -/
theorem Derives.extent (derives : Derives last role frames ds rs after)
    (isForm : role = .form true ∨ role = .metadata) (shallow : Shallow rs)
    (noEnd : ∀ t ∈ tokensAll ds ++ after, t.kind ≠ .eof) (closes : Token.Closes [] (tokensAll ds)) :
    Extent last frames after (tokensAll ds) := by
  induction derives with
  | word word noLookup => simpa using .word (isPlain_of_isWord word) (noMark_of_isWord word) noLookup
  | division isKind | unreadable isKind =>
    simpa using .word (by rw [isKind]; rfl) (by rw [isKind]; decide) fun account =>
      absurd account (not_isAccount_of_kind isKind rfl)
  | bad plain noMark noAccount => simpa using .word plain noMark fun account => absurd account noAccount
  | lookup _ account isSlash isSymbol before behind =>
    simpa using .lookup account ⟨_, _, _, rfl, isSlash, isSymbol, before, behind⟩
  | enclosed _ _ group =>
    rw [tokensAll_node] at noEnd closes ⊢
    exact group.extent_of_group shallow noEnd closes
  | map isBrace row closing =>
    simp only [tokensAll_node, List.cons_append, tokensAll_token, tokensAll_append, List.append_assoc,
      List.forall_mem_cons] at noEnd closes ⊢
    have opens : _ = some Kind.rightBrace := congrArg Kind.closer? isBrace
    exact extent_enclosed opens (row.settles shallow.left.left noEnd.2) closing closes
  | @quoted _ counts _ _ _ _ isMark form inductionHypothesis =>
    simp only [tokensAll_node, tokensAll_token, List.cons_append, List.forall_mem_cons] at noEnd closes ⊢
    have inner : Token.Closes [] (tokensAll _) := (Token.Closes.single (isPlain_of_mark isMark)).after_append closes
    cases counts with
    | true => exact .marked (isMark_of_quote isMark) (inductionHypothesis (.inl rfl) shallow noEnd.2 inner)
    | false =>
      -- A mark in front of a closing delimiter that closes nothing does not match.
      refine absurd inner ?_
      simpa using form.broken_of_stray [] (by simp) [] (List.nil_prefix)
  | unquoted isMark ended => simpa using .alone (isMark_of_quote isMark) (.inl ended)
  | misplaced _ _ inductionHypothesis =>
    rw [tokensAll_node] at noEnd closes ⊢
    exact inductionHypothesis (.inr rfl) shallow.left noEnd closes
  | described isCaret _ _ inductionHypothesis =>
    simp only [tokensAll_node, tokensAll_token, List.cons_append, List.forall_mem_cons] at noEnd closes ⊢
    have inner : Token.Closes [] (tokensAll _) := (Token.Closes.single (by rw [isCaret]; rfl)).after_append closes
    exact .marked (by rw [isCaret]; decide) (inductionHypothesis (.inl rfl) shallow.right noEnd.2 inner)
  | undescribed isCaret noForm => simpa using .alone (by rw [isCaret]; decide) noForm
  | tooDeep => exact absurd rfl (shallow _ List.mem_cons_self)
  | _ => simp at isForm

end Grammar

end LispSyntax
