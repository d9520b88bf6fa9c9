import LispSyntax.Proofs.Derivation.Extent

/-! # Where a form ends that is nested too deeply

A form that is nested too deeply is skipped by counting delimiters, without looking into it. Where the rule for a form
would take tokens whose delimiters match, the count stops at the same place, because such a form is some marks in front
of one token or one delimited sequence. There are two exceptions: of an infix lookup only the account is skipped, and
behind a caret a closing delimiter that closes nothing is skipped with it (`position_tooDeep`).
-/

namespace LispSyntax

namespace Grammar

open LispSyntax.Parser Draft Delimiters

/-! ## What is skipped -/

def behindMarks (ts : List Token) : List Token :=
  ts.dropWhile fun t => marks.contains t.kind

/-- Behind the marks stands an infix lookup. -/
def LookupAhead (ts : List Token) : Prop :=
  ∃ t us, behindMarks ts = t :: us ∧ t.IsAccount ∧ t.LooksUp us

/-- Behind the marks stands a closing delimiter that closes nothing. -/
def StrayAhead (frames : List Frame) (ts : List Token) : Prop :=
  ∃ t us, behindMarks ts = t :: us ∧ t.kind.isCloser = true ∧ ends frames t.kind = false

variable {p : Parser} {t u last : Token} {ts us after : List Token} {awaited : List Kind} {frames : List Frame}

theorem behindMarks_of_unmarked (unmarked : marks.contains t.kind = false) : behindMarks (t :: ts) = t :: ts := by
  simp [behindMarks, unmarked]

theorem behindMarks_of_mark (isMark : marks.contains t.kind = true) : behindMarks (t :: ts) = behindMarks ts := by
  simp [behindMarks, isMark]

theorem lookupAhead_iff (unmarked : marks.contains t.kind = false) :
    LookupAhead (t :: ts) ↔ t.IsAccount ∧ t.LooksUp ts := by
  rw [LookupAhead, behindMarks_of_unmarked unmarked]
  simp

theorem strayAhead_iff (unmarked : marks.contains t.kind = false) :
    StrayAhead frames (t :: ts) ↔ t.kind.isCloser = true ∧ ends frames t.kind = false := by
  rw [StrayAhead, behindMarks_of_unmarked unmarked]
  simp

theorem not_lookupAhead (unmarked : marks.contains t.kind = false) (notPlain : isPlain t.kind = false) :
    ¬ LookupAhead (t :: ts) := by
  rw [lookupAhead_iff unmarked]
  rintro ⟨account, -⟩
  rw [(isPlain_of_isAccount account).1] at notPlain
  contradiction

theorem not_strayAhead (unmarked : marks.contains t.kind = false) (noCloser : t.kind.isCloser = false) :
    ¬ StrayAhead frames (t :: ts) := by
  rw [strayAhead_iff unmarked, noCloser]
  exact fun stray => absurd stray.1 Bool.false_ne_true

theorem noDelimiter_of_isPlain {kind : Kind} (plain : isPlain kind = true) (frames : List Frame) :
    kind.isOpener = false ∧ kind.isCloser = false ∧ ends frames kind = false := by
  cases kind <;> first | contradiction | exact ⟨rfl, rfl, rfl⟩

/-- What is skipped behind the marks: a sequence, or a token. -/
def skipOne (p : Parser) : Parser :=
  if p.kind.isOpener then skipBalanced p.rest.length 0 p else if p.atSequenceEnd then p else p.advance

theorem tooDeep_eq (p : Parser) : tooDeep p = p.node .error fun p =>
    skipOne (skipMarks (p.report .tooDeep).rest.length (p.report .tooDeep)) :=
  rfl

theorem rest_skipOne (rest : p.rest = t :: ts) (plain : isPlain t.kind = true) : (skipOne p).rest = ts := by
  obtain ⟨noOpener, -, going⟩ := noDelimiter_of_isPlain plain p.frames
  rw [← kind_of_rest rest] at noOpener going
  have going : p.atSequenceEnd = false := going
  rw [skipOne, if_neg (by simp [noOpener]), if_neg (by simp [going])]
  exact rest_advanceAs rest _

theorem isOpener_of_closer? {kind closer : Kind} (opens : kind.closer? = some closer) : kind.isOpener = true := by
  cases kind <;> first | rfl | exact absurd opens (Option.some_ne_none closer).symm

theorem not_isOpener_of_isCloser {kind : Kind} (isCloser : kind.isCloser = true) : ¬ kind.isOpener = true := by
  revert isCloser
  cases kind <;> decide

/-- One turn takes a token, and is the last one if nothing is open after it. -/
theorem skipBalanced_cons (ready : p.Ready) (rest : p.rest = t :: ts) (turns : Nat) {depth : Nat}
    (inside : t.kind.isCloser = true → depth ≠ 0) :
    skipBalanced (turns + 1) depth p = if depthAfter depth t.kind = 0 then p.advance
      else skipBalanced turns (depthAfter depth t.kind) p.advance := by
  have notEnd : p.isAt .eof = false := by
    have kindEq := ready.rest_ne_eof t (by simp [rest])
    simp [isAt, kind_of_rest rest, kindEq]
  have met : (!(p.kind.isCloser && depth == 0)) = true := by
    rw [kind_of_rest rest]
    cases closes : t.kind.isCloser with
    | true => simpa using inside closes
    | false => rfl
  simp only [skipBalanced, notEnd, Bool.false_eq_true, if_false, require_eq met]
  rw [kind_of_rest rest]

theorem skipBalanced_turn (ready : p.Ready) (rest : p.rest = t :: ts) (turns : Nat) {depth more : Nat}
    (inside : t.kind.isCloser = true → depth ≠ 0) (depthEq : depthAfter depth t.kind = more + 1) :
    ∃ q, q.Ready ∧ q.rest = ts ∧ skipBalanced (turns + 1) depth p = skipBalanced turns (more + 1) q := by
  refine ⟨p.advance, (walks_advanceAs rest p.kind).ready ready, rest_advanceAs rest _, ?_⟩
  rw [skipBalanced_cons ready rest turns inside, depthEq, if_neg (Nat.succ_ne_zero more)]

/-- Whatever the token does to the depth inside a sequence, the sequence stays open. -/
theorem skipBalanced_inside_cons {turns depth width width' : Nat} (ready : p.Ready) (rest : p.rest = t :: (ts ++ us))
    (depthEq : depthAfter (width + depth + 1) t.kind = width' + depth + 1)
    (more : ∀ {q : Parser}, q.Ready → q.rest = ts ++ us → ∃ q', q'.Ready ∧ q'.rest = us ∧
      skipBalanced (ts.length + turns) (width' + depth + 1) q = skipBalanced turns (depth + 1) q') :
    ∃ q, q.Ready ∧ q.rest = us ∧
      skipBalanced ((t :: ts).length + turns) (width + depth + 1) p = skipBalanced turns (depth + 1) q := by
  obtain ⟨q, ready', rest', turn⟩ :=
    skipBalanced_turn ready rest (ts.length + turns) (fun _ => Nat.succ_ne_zero _) depthEq
  obtain ⟨q', ready'', rest'', same⟩ := more ready' rest'
  exact ⟨q', ready'', rest'', by rw [List.length_cons, Nat.add_right_comm, turn, same]⟩

/-- Inside a sequence, tokens that match are skipped one by one. -/
theorem skipBalanced_inside (closes : Token.Closes awaited ts) (turns depth : Nat) (ready : p.Ready)
    (rest : p.rest = ts ++ us) :
    ∃ q, q.Ready ∧ q.rest = us ∧
      skipBalanced (ts.length + turns) (awaited.length + depth + 1) p = skipBalanced turns (depth + 1) q := by
  induction closes generalizing p with
  | done => exact ⟨p, ready, rest, by rw [List.length_nil, List.length_nil, Nat.zero_add, Nat.zero_add]⟩
  | @opener t ts closer awaited opens _ inductionHypothesis =>
    refine skipBalanced_inside_cons ready rest ?_ inductionHypothesis
    rw [depthAfter, if_pos (isOpener_of_closer? opens), List.length_cons]
    omega
  | @closer t ts awaited isCloser _ inductionHypothesis =>
    refine skipBalanced_inside_cons ready rest ?_ inductionHypothesis
    rw [depthAfter, if_neg (not_isOpener_of_isCloser isCloser), if_pos isCloser, List.length_cons]
    omega
  | @plain t ts awaited noOpener noCloser _ inductionHypothesis =>
    have noOpener : ¬ t.kind.isOpener = true := fun isOpener => by
      revert noOpener isOpener
      cases t.kind <;> decide
    refine skipBalanced_inside_cons ready rest ?_ inductionHypothesis
    rw [depthAfter, if_neg noOpener, if_neg (by simp [noCloser])]

/-- Of a sequence that matches, everything is skipped and nothing more. -/
theorem rest_skipBalanced (ready : p.Ready) (opens : t.kind.closer? = some u.kind) (closes : Token.Closes [] ts)
    (rest : p.rest = t :: (ts ++ u :: us)) : (skipBalanced p.rest.length 0 p).rest = us := by
  have isCloser := Kind.isCloser_of_closer? opens
  have noCloser : t.kind.isCloser = true → 0 ≠ 0 := fun isCloser => by
    rw [Kind.closer?_of_isCloser isCloser] at opens
    contradiction
  have first : depthAfter 0 t.kind = 0 + 1 := by rw [depthAfter, if_pos (isOpener_of_closer? opens)]
  have final : depthAfter 1 u.kind = 0 := by
    rw [depthAfter, if_neg (not_isOpener_of_isCloser isCloser), if_pos isCloser]
  have turns : p.rest.length = ts.length + (us.length + 1) + 1 := by
    rw [rest, List.length_cons, List.length_append, List.length_cons]
  obtain ⟨q, ready', rest', turn⟩ := skipBalanced_turn ready rest (ts.length + (us.length + 1)) noCloser first
  obtain ⟨q', ready'', rest'', inside⟩ := skipBalanced_inside closes (us.length + 1) 0 ready' rest'
  have whole : skipBalanced p.rest.length 0 p = skipBalanced (us.length + 1) 1 q' := by
    rw [turns]
    exact turn.trans inside
  rw [whole, skipBalanced_cons ready'' rest'' us.length (fun _ => Nat.one_ne_zero), if_pos final]
  exact rest_advanceAs rest'' _

/-- How many tokens are left, where a form would have left those after it. -/
structure Remains (frames : List Frame) (ahead after left : List Token) : Prop where
  lookup : LookupAhead ahead → left.length = after.length + 2
  stray : StrayAhead frames ahead → left.length + 1 = after.length
  exact : ¬ LookupAhead ahead → ¬ StrayAhead frames ahead → left.length = after.length

theorem Remains.same {ahead : List Token} (noLookup : ¬ LookupAhead ahead) (noStray : ¬ StrayAhead frames ahead) :
    Remains frames ahead after after :=
  ⟨fun looks => absurd looks noLookup, fun stray => absurd stray noStray, fun _ _ => rfl⟩

theorem Remains.mark {ahead left : List Token} (isMark : marks.contains t.kind = true)
    (remains : Remains frames ahead after left) : Remains frames (t :: ahead) after left := by
  have same : behindMarks (t :: ahead) = behindMarks ahead := behindMarks_of_mark isMark
  obtain ⟨lookup, stray, exact⟩ := remains
  refine ⟨fun looks => lookup ?_, fun isStray => stray ?_, fun noLookup noStray => exact ?_ ?_⟩
  · simpa only [LookupAhead, same] using looks
  · simpa only [StrayAhead, same] using isStray
  · simpa only [LookupAhead, same] using noLookup
  · simpa only [StrayAhead, same] using noStray

/-- Where no form stands, only a closing delimiter that closes nothing is skipped. -/
theorem remains_of_noForm (ready : p.Ready)
    (noForm : ends p.frames p.kind = true ∨ p.kind.isCloser = true) :
    Remains p.frames p.rest p.rest (skipOne p).rest := by
  cases rest : p.rest with
  | nil =>
    have ended : p.atSequenceEnd = true := atSequenceEnd_of_rest_eq_nil ready rest
    have noOpener : p.kind.isOpener = false := by rw [ready.kind_eq_eof rest]; rfl
    rw [skipOne, if_neg (by simp [noOpener]), if_pos ended, rest]
    exact .same (by simp [LookupAhead, behindMarks]) (by simp [StrayAhead, behindMarks])
  | cons u us =>
    have kindEq := kind_of_rest rest
    have isCloser : u.kind.isCloser = true := by
      rw [kindEq] at noForm
      refine noForm.elim (fun ended => ?_) id
      rcases ends_eq_true ended with isEof | ⟨isCloser, -⟩
      · exact absurd isEof (ready.rest_ne_eof u (by simp [rest]))
      · exact isCloser
    obtain ⟨noOpener, unmarked⟩ : u.kind.isOpener = false ∧ marks.contains u.kind = false := by
      revert isCloser
      cases u.kind <;> decide
    have noLookup : ¬ LookupAhead (u :: us) := not_lookupAhead unmarked (by simp [isPlain, isCloser])
    rw [skipOne, if_neg (by simp [kindEq, noOpener])]
    cases ended : p.atSequenceEnd with
    | true =>
      have noStray : ¬ StrayAhead p.frames (u :: us) := by
        rw [strayAhead_iff unmarked, ← kindEq]
        rintro ⟨-, going⟩
        exact absurd (ended.symm.trans going) (by decide)
      rw [if_pos rfl, rest]
      exact .same noLookup noStray
    | false =>
      have isStray : StrayAhead p.frames (u :: us) := by
        rw [strayAhead_iff unmarked, ← kindEq]
        exact ⟨by rw [kindEq]; exact isCloser, ended⟩
      have taken : p.advance.rest = us := rest_advanceAs rest _
      rw [if_neg Bool.false_ne_true, taken]
      exact ⟨fun ahead => absurd ahead noLookup, fun _ => rfl, fun _ noStray => absurd isStray noStray⟩

theorem skipMarks_of_mark (ready : p.Ready) (rest : p.rest = t :: ts) (isMark : marks.contains t.kind = true)
    {turns : Nat} (enough : p.rest.length ≤ turns) :
    ∃ q more, q.Ready ∧ q.rest = ts ∧ q.last = p.last ∧ q.frames = p.frames ∧ ts.length ≤ more ∧
      skipMarks turns p = skipMarks more q := by
  rw [rest, List.length_cons] at enough
  obtain ⟨more, rfl⟩ : ∃ more, turns = more + 1 := ⟨turns - 1, by omega⟩
  have walks := walks_advanceAs rest p.kind
  refine ⟨p.advance, more, walks.ready ready, rest_advanceAs rest _, walks.last, walks.frames, by omega, ?_⟩
  rw [skipMarks, kind_of_rest rest, if_pos isMark]

theorem unmarked_of_noForm {kind : Kind} (noForm : ends frames kind = true ∨ kind.isCloser = true) :
    marks.contains kind = false := by
  have endsHere : kind = .eof ∨ kind.isCloser = true := by
    refine noForm.elim (fun ended => ?_) .inr
    exact (ends_eq_true ended).imp_right And.left
  revert endsHere
  cases kind <;> decide

/-- Marks and what stands behind them are skipped up to the end of the form, with the two exceptions. -/
theorem remains_of_extent (extent : Extent last frames after ts) (ready : p.Ready) (rest : p.rest = ts ++ after)
    (lastEq : p.last = last) (framesEq : p.frames = frames) {turns : Nat} (enough : p.rest.length ≤ turns) :
    Remains frames p.rest after (skipOne (skipMarks turns p)).rest := by
  -- The induction follows the form that is skipped. Only a lookup and a stray delimiter leave more than its end.
  induction extent generalizing p turns with
  | @word t plain unmarked noLookup =>
    have rest : p.rest = t :: after := rest
    rw [skipMarks_of_unmarked turns (by rw [kind_of_rest rest]; exact unmarked), rest_skipOne rest plain, rest]
    have noLookupAhead : ¬ LookupAhead (t :: after) := by
      rw [lookupAhead_iff unmarked]
      exact fun looks => noLookup looks.1 looks.2
    exact .same noLookupAhead (not_strayAhead unmarked (noDelimiter_of_isPlain plain frames).2.1)
  | @lookup t s u account looksUp =>
    have rest : p.rest = t :: s :: u :: after := rest
    obtain ⟨plain, unmarked⟩ := isPlain_of_isAccount account
    rw [skipMarks_of_unmarked turns (by rw [kind_of_rest rest]; exact unmarked), rest_skipOne rest plain, rest]
    have lookupAhead := (lookupAhead_iff unmarked).mpr ⟨account, looksUp⟩
    have noStrayAhead : ¬ StrayAhead frames (t :: s :: u :: after) :=
      not_strayAhead unmarked (noDelimiter_of_isPlain plain frames).2.1
    exact ⟨fun _ => rfl, fun ahead => absurd ahead noStrayAhead, fun noLookup => absurd lookupAhead noLookup⟩
  | @enclosed t u ts opens closes =>
    have rest : p.rest = t :: (ts ++ u :: after) := by simpa using rest
    have isOpener := isOpener_of_closer? opens
    obtain ⟨unmarked, noCloser⟩ : marks.contains t.kind = false ∧ t.kind.isCloser = false := by
      revert isOpener
      cases t.kind <;> decide
    have opener : p.kind.isOpener = true := by rw [kind_of_rest rest, isOpener]
    rw [skipMarks_of_unmarked turns (by rw [kind_of_rest rest]; exact unmarked), skipOne, if_pos opener,
      rest_skipBalanced ready opens closes rest, rest]
    exact .same (not_lookupAhead unmarked (by simp [isPlain, opens])) (not_strayAhead unmarked noCloser)
  | @alone t isMark noForm =>
    obtain ⟨q, more, ready', restEq, lastEq', framesEq', -, skipped⟩ := skipMarks_of_mark ready rest isMark enough
    have restEq : q.rest = after := restEq
    have kindEq : q.kind = (Token.next last after).kind := by
      rw [← restEq, ← lastEq, ← lastEq']
      rfl
    rw [← kindEq, ← framesEq, ← framesEq'] at noForm
    have remains := remains_of_noForm ready' noForm
    rw [restEq, framesEq', framesEq] at remains
    rw [skipped, skipMarks_of_unmarked more (unmarked_of_noForm noForm), rest]
    exact remains.mark isMark
  | @marked t ts isMark _ inductionHypothesis =>
    obtain ⟨q, more, ready', restEq, lastEq', framesEq', enough', skipped⟩ :=
      skipMarks_of_mark ready rest isMark enough
    have enough : q.rest.length ≤ more := by
      rw [restEq]
      exact enough'
    have remains := inductionHypothesis ready' restEq (lastEq'.trans lastEq) (framesEq'.trans framesEq) enough
    rw [restEq] at remains
    rw [skipped, rest]
    exact remains.mark isMark

/-- A form at the nesting limit is skipped as one error, with one report. If the rule for a form would take tokens
whose delimiters match, and nothing in them is nested too deeply, the same number of tokens is skipped, but for two
exceptions: of an infix lookup only the account is skipped, and where a closing delimiter that closes nothing stands
behind marks, it is skipped with them. -/
theorem position_tooDeep (budget : Nat) (ready : p.Ready) (going : p.atSequenceEnd = false)
    (shallow : Shallow ((form budget p).2.reports.drop p.reports.length))
    (taken : p.rest = ts ++ (form budget p).2.rest) (closes : Token.Closes [] ts) :
    (form 0 p).2.frames = p.frames ∧
    (form 0 p).2.reports = p.reports ++ [⟨.tooDeep, p.current.span, p.context⟩] ∧
    (∃ us : List Token, Walks p [.node .error (us.map fun u => Draft.token u.kind u)] (form 0 p).2) ∧
    (LookupAhead p.rest → (form 0 p).2.position + 2 = (form budget p).2.position) ∧
    (StrayAhead p.frames p.rest → (form 0 p).2.position = (form budget p).2.position + 1) ∧
    (¬ LookupAhead p.rest → ¬ StrayAhead p.frames p.rest →
      (form 0 p).2.position = (form budget p).2.position) := by
  obtain ⟨d, rs, walks, reports, derives, -⟩ := (derivesForms_form budget).derives p ready going
  obtain ⟨t, us, made⟩ := made_tooDeep ready going
  have skipping : (form 0 p).2 = (tooDeep p).2 := by
    simp only [form, going, Bool.false_eq_true, if_false, counted]
  -- The tokens are those of a form that counts.
  have tokensEq : tokensAll [d] = ts := List.append_cancel_right (walks.rest.symm.trans taken)
  rw [reports, List.drop_left] at shallow
  rw [← tokensEq] at closes
  have counts : (form budget p).1.isSome = true := by
    cases isSome : (form budget p).1.isSome with
    | true => rfl
    | false =>
      rw [isSome] at derives
      refine absurd closes ?_
      simpa using derives.broken_of_stray [] (by simp) [] (List.nil_prefix)
  rw [counts] at derives
  have noEnd : ∀ t ∈ tokensAll [d] ++ (form budget p).2.rest, t.kind ≠ .eof := by
    rw [← walks.rest]
    exact ready.rest_ne_eof
  have extent := derives.extent (.inl rfl) shallow noEnd closes
  have remains : Remains p.frames p.rest (form budget p).2.rest (form 0 p).2.rest := by
    have reported : Walks p.begun [] (p.begun.report .tooDeep) := ⟨runs_report .., rfl⟩
    rw [skipping, tooDeep_eq, rest_node]
    exact remains_of_extent extent (reported.ready ready.begun) walks.rest rfl rfl (Nat.le_refl _)
  have total := walks.total
  have total' := made.walks.total
  rw [skipping] at remains ⊢
  refine ⟨made.walks.frames, ?_, ⟨_, made.walks⟩, fun looks => ?_, fun stray => ?_, fun noLookup noStray => ?_⟩
  · have restEq := made.walks.rest
    rw [tokensAll_node, List.map_cons, tokensAll_token, List.cons_append] at restEq
    rw [made.reports, current_of_rest restEq]
    rfl
  · have left := remains.lookup looks
    omega
  · have left := remains.stray stray
    omega
  · have left := remains.exact noLookup noStray
    omega

/-- The state in front of the first of the tokens, where a form starts that is nested deeply enough and matches. -/
theorem exists_start (text : Text) (budget size : Nat)
    (checked : (Parser.ofTokens (Token.tokenize text .empty).1 (Scan.symbolKind .empty ['/'])).toOption.any (fun p =>
      p.last.kind = .eof ∧ (∀ t ∈ p.rest, t.kind ≠ .eof) ∧ p.atSequenceEnd = false ∧
        (∀ report ∈ (form budget p).2.reports.drop p.reports.length, report.problem ≠ .tooDeep) ∧
        p.rest = p.rest.take size ++ (form budget p).2.rest ∧ Token.Closes [] (p.rest.take size)) = true) :
    ∃ p, Parser.ofTokens (Token.tokenize text .empty).1 (Scan.symbolKind .empty ['/']) = .ok p ∧ p.Ready ∧
      p.atSequenceEnd = false ∧ Shallow ((form budget p).2.reports.drop p.reports.length) ∧
      p.rest = p.rest.take size ++ (form budget p).2.rest ∧ Token.Closes [] (p.rest.take size) := by
  cases started : Parser.ofTokens (Token.tokenize text .empty).1 (Scan.symbolKind .empty ['/']) with
  | error fault => simp [started, Except.toOption] at checked
  | ok p =>
    obtain ⟨lastEnd, noEnd, going, shallow, taken, closes⟩ := by simpa [started, Except.toOption] using checked
    exact ⟨p, rfl, ⟨lastEnd, noEnd⟩, going, shallow, taken, closes⟩

/-- A quoted map is skipped to where it ends. -/
theorem position_tooDeep_quoted :
    ∃ p ts, Parser.ofTokens (Token.tokenize "'{a [b]} c".toList .empty).1 (Scan.symbolKind .empty ['/']) = .ok p ∧
      p.Ready ∧ p.atSequenceEnd = false ∧ Shallow ((form maxDepth p).2.reports.drop p.reports.length) ∧
      p.rest = ts ++ (form maxDepth p).2.rest ∧ Token.Closes [] ts ∧
      (form 0 p).2.frames = p.frames ∧
      (form 0 p).2.reports = p.reports ++ [⟨.tooDeep, p.current.span, p.context⟩] ∧
      (∃ us : List Token, Walks p [.node .error (us.map fun u => Draft.token u.kind u)] (form 0 p).2) ∧
      (LookupAhead p.rest → (form 0 p).2.position + 2 = (form maxDepth p).2.position) ∧
      (StrayAhead p.frames p.rest → (form 0 p).2.position = (form maxDepth p).2.position + 1) ∧
      (¬ LookupAhead p.rest → ¬ StrayAhead p.frames p.rest →
        (form 0 p).2.position = (form maxDepth p).2.position) := by
  obtain ⟨p, started, ready, going, shallow, taken, closes⟩ :=
    exists_start "'{a [b]} c".toList maxDepth 7 (by decide +kernel)
  exact ⟨p, _, started, ready, going, shallow, taken, closes,
    position_tooDeep maxDepth ready going shallow taken closes⟩

/-- A lookup is a form of three tokens, of which only the first is skipped. -/
theorem position_tooDeep_lookup :
    ∃ p ts, Parser.ofTokens (Token.tokenize "a/b".toList .empty).1 (Scan.symbolKind .empty ['/']) = .ok p ∧
      p.Ready ∧ p.atSequenceEnd = false ∧ Shallow ((form maxDepth p).2.reports.drop p.reports.length) ∧
      p.rest = ts ++ (form maxDepth p).2.rest ∧ Token.Closes [] ts ∧
      (form maxDepth p).2.position = 3 ∧ (form 0 p).2.position = 1 := by
  obtain ⟨p, started, ready, going, shallow, taken, closes⟩ :=
    exists_start "a/b".toList maxDepth 3 (by decide +kernel)
  have positions : (Parser.ofTokens (Token.tokenize "a/b".toList .empty).1
      (Scan.symbolKind .empty ['/'])).toOption.any (fun p =>
        (form maxDepth p).2.position = 3 ∧ (form 0 p).2.position = 1) = true := by
    decide +kernel
  rw [started] at positions
  obtain ⟨ordinary, skipped⟩ : (form maxDepth p).2.position = 3 ∧ (form 0 p).2.position = 1 := by
    simpa [Except.toOption] using positions
  exact ⟨p, _, started, ready, going, shallow, taken, closes, ordinary, skipped⟩

end Grammar

end LispSyntax
