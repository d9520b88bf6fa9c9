import LispSyntax.Proofs.Marking

/-! # The log under the marker discipline

`Levels` cuts the log at the starts of the open nodes and says that each piece is the log of the trees that the
direct builder has at that level. An open node may have come about by preceding: then its piece begins with the
node that got the parent (`Opening.wrapped`), whose link is already set, and the chains of such links are those
that `Event.Spine` describes.

`Tracks` ties the levels to the trees. Every operation keeps it, as long as nodes get the kinds of nodes and starts
have slots, and at the end the log is that of one node, which replays to the tree that the direct builder has. That all
starts have slots is asked of the last state only: no operation takes a start out of the log (`Marking.grows_run`).
-/

namespace LispSyntax

open Event

/-! ## The log at each level -/

/-- What is logged of an open node before and after its start, and the drafts it has so far. -/
inductive Opening : List Event → List Event → List Draft → Prop where
  | plain {es : List Event} {ds : List Draft} : Logs es ds → Opening [] es ds
  | wrapped {before after es : List Event} {inner : Kind} {d : Draft} {ds : List Draft} :
      Spine before inner after d → Logs es ds →
      Opening (before ++ .start inner (some (after.length + 1)) :: after) es (d :: ds)

theorem Opening.append {before es fs : List Event} {ds gs : List Draft} (opening : Opening before es ds)
    (logs : Logs fs gs) : Opening before (es ++ fs) (ds ++ gs) := by
  cases opening with
  | plain inside => exact .plain (inside.append logs)
  | wrapped spine inside => exact .wrapped spine (inside.append logs)

/-- Filling in the start and logging the end makes a node of it. -/
theorem Opening.spine {before es : List Event} {ds : List Draft} {kind : Kind}
    (opening : Opening before es ds) (label : kind.isLabel = true) :
    Spine before kind (es ++ [.finish]) (.node kind ds) := by
  cases opening with
  | plain inside => exact .plain label inside
  | wrapped spine inside => exact .wrapped label spine inside

/-- The log while the marked nodes are open, innermost first, with the drafts of the innermost and of those around
it. Outside the outermost there is nothing. -/
inductive Levels : List Event → List Marker → List Draft → List (List Draft) → Prop where
  | outside : Levels [] [] [] []
  | inside {es before gs : List Event} {ms : List Marker} {m : Marker} {ds inner : List Draft}
      {outer : List (List Draft)} :
      Levels es ms ds outer → Opening before gs inner → m.slot.toNat = es.length + before.length →
      Levels (es ++ (before ++ tombstone :: gs)) (m :: ms) inner (ds :: outer)

theorem Levels.append {es fs : List Event} {m : Marker} {ms : List Marker} {ds gs : List Draft}
    {outer : List (List Draft)} (levels : Levels es (m :: ms) ds outer) (logs : Logs fs gs) :
    Levels (es ++ fs) (m :: ms) (ds ++ gs) outer := by
  cases levels with
  | inside around opening slot =>
    have longer := Levels.inside around (opening.append logs) slot
    simpa using longer

/-- The log at any stage. Right after a node was completed it is known where the node starts. -/
inductive Logged : List Event → List Marker → Option Completed → Bool → List Draft → List (List Draft) → Prop where
  | going {es : List Event} {ms : List Marker} {c : Option Completed} {ds : List Draft} {outer : List (List Draft)} :
      Levels es ms ds outer → Logged es ms c false ds outer
  | closed {es before after : List Event} {ms : List Marker} {c : Completed} {kind : Kind} {d : Draft}
      {ds : List Draft} {outer : List (List Draft)} :
      Levels es ms ds outer → Spine before kind after d → c.slot.toNat = es.length + before.length →
      Logged (es ++ (before ++ .start kind none :: after)) ms (some c) true (ds ++ [d]) outer

theorem Logged.levels_of_going {es : List Event} {ms : List Marker} {c : Option Completed} {ds : List Draft}
    {outer : List (List Draft)} (logged : Logged es ms c false ds outer) : Levels es ms ds outer := by
  cases logged with
  | going levels => exact levels

/-- Inside a node it does not matter whether one was just completed. -/
theorem Logged.levels {es : List Event} {m : Marker} {ms : List Marker} {c : Option Completed} {closed : Bool}
    {ds : List Draft} {outer : List (List Draft)} (logged : Logged es (m :: ms) c closed ds outer) :
    Levels es (m :: ms) ds outer := by
  cases logged with
  | going levels => exact levels
  | closed levels spine slot => exact levels.append spine.logs

/-! ## What is counted of an operation -/

theorem Marking.grows_step {m m' : Marking} {op : Operation} (marked : m.step op = some m') :
    ∃ started ended, Parser.Grows m.parser started ended 1 m'.parser ∧
      m.opened.length + started = m'.opened.length + ended := by
  cases op with
  | start =>
    cases marked
    exact ⟨1, 0, Parser.grows_start m.parser, rfl⟩
  | advance =>
    cases marked
    exact ⟨0, 0, Parser.grows_advanceAs m.parser _, rfl⟩
  | advanceAs kind =>
    cases marked
    exact ⟨0, 0, Parser.grows_advanceAs m.parser kind, rfl⟩
  | takeEnd =>
    cases marked
    exact ⟨0, 0, Parser.grows_takeEnd m.parser, rfl⟩
  | complete kind =>
    cases opened : m.opened with
    | nil => simp [step, opened] at marked
    | cons marker ms =>
      rw [step_complete opened] at marked
      cases marked
      exact ⟨0, 1, Parser.grows_complete m.parser marker kind, rfl⟩
  | precede =>
    cases completed : m.completed with
    | none => simp [step, completed] at marked
    | some c =>
      rw [step_precede completed] at marked
      cases marked
      exact ⟨1, 0, Parser.grows_precede m.parser c, rfl⟩

/-- As many nodes are ended as are started, except for those that are open, and every operation logs at most one
entry. -/
theorem Marking.grows_run {m m' : Marking} {ops : List Operation} (marked : ops.foldlM step m = some m') :
    ∃ started ended, Parser.Grows m.parser started ended ops.length m'.parser ∧
      m.opened.length + started = m'.opened.length + ended := by
  induction ops generalizing m with
  | nil =>
    cases marked
    exact ⟨0, 0, .refl _, rfl⟩
  | cons op ops ih =>
    rw [List.foldlM_cons] at marked
    obtain ⟨next, first, rest⟩ := Option.bind_eq_some_iff.mp marked
    obtain ⟨started, ended, grows, count⟩ := grows_step first
    obtain ⟨started', ended', grows', count'⟩ := ih rest
    refine ⟨_, _, (grows.trans grows').cast rfl rfl ?_, by omega⟩
    rw [List.length_cons, Nat.add_comm]

theorem Marking.addressed_of_run {m m' : Marking} {ops : List Operation} (marked : ops.foldlM step m = some m')
    (addressed : m'.parser.Addressed) : m.parser.Addressed := by
  obtain ⟨_, _, grows, -⟩ := grows_run marked
  exact grows.addressed addressed

/-- So few operations leave a slot for every start. -/
theorem Marking.addressed_of_length_le {m m' : Marking} {ops : List Operation} (marked : ops.foldlM step m = some m')
    (few : m.parser.events.size + ops.length ≤ sizeLimit) : m'.parser.Addressed := by
  obtain ⟨_, _, grows, -⟩ := grows_run marked
  exact Parser.addressed_of_size_le (Nat.le_trans grows.size few)

/-! ## Operations keep the levels -/

/-- The tokens of the drafts at all levels, the innermost level last. -/
def openTokens : List (List Draft) → List Token
  | [] => []
  | ds :: outer => openTokens outer ++ Draft.tokensAll ds

def lastFirst (text : Text) (ds : List Draft) : List Tree :=
  (Draft.trees text ds).reverse

theorem trees_append (text : Text) (ds es : List Draft) :
    Draft.trees text (ds ++ es) = Draft.trees text ds ++ Draft.trees text es := by
  induction ds with
  | nil => rfl
  | cons d ds ih => simp [ih]

@[simp] theorem lastFirst_concat (text : Text) (ds : List Draft) (d : Draft) :
    lastFirst text (ds ++ [d]) = d.tree text :: lastFirst text ds := by
  simp [lastFirst, trees_append]

/-- The log has the drafts of the levels, and the builder has their trees; together with what is ahead they have all
tokens. -/
structure Tracks (text : Text) (tokens : List Token) (closed : Bool) (m : Marking) (b : DirectBuilder)
    (ds : List Draft) (outer : List (List Draft)) : Prop where
  fault : m.parser.fault = none
  last_eof : m.parser.last.kind = .eof
  logged : Logged m.parser.events.toList m.opened m.completed closed ds outer
  done : b.done = lastFirst text ds
  around : b.outer = outer.map (lastFirst text)
  tokens : openTokens (ds :: outer) ++ b.ahead = tokens

namespace Tracks

variable {text : Text} {tokens : List Token} {closed : Bool} {m : Marking} {b : DirectBuilder}
  {ds : List Draft} {outer : List (List Draft)}

theorem start (tracks : Tracks text tokens closed m b ds outer)
    (levels : Levels m.parser.events.toList m.opened ds outer) (addressed : m.parser.start.2.Addressed) :
    Tracks text tokens false ⟨m.parser.start.2, m.parser.start.1 :: m.opened, none⟩
      ⟨b.ahead, [], b.done :: b.outer⟩ [] (ds :: outer) where
  fault := tracks.fault
  last_eof := tracks.last_eof
  logged := by
    have opened : Levels (m.parser.events.toList ++ [tombstone]) (m.parser.start.1 :: m.opened) []
        (ds :: outer) := .inside levels (.plain .nil) (Parser.toNat_slot_start addressed)
    exact .going (by simpa [Parser.start] using opened)
  done := rfl
  around := by simp [tracks.done, tracks.around]
  tokens := by
    rw [← tracks.tokens]
    simp [openTokens]

/-- A token goes to the innermost level. -/
theorem take {marker : Marker} {ms : List Marker} (tracks : Tracks text tokens closed m b ds outer)
    (opened : m.opened = marker :: ms) {left : Option Nat} (remains : Remains m.parser b.ahead left)
    {kind : Kind} (leafKind : Token → Kind) (same : ∀ t ts, m.parser.rest = t :: ts → leafKind t = kind)
    (addressed : (m.parser.advanceAs kind).Addressed) :
    ∃ es, Tracks text tokens false ⟨m.parser.advanceAs kind, m.opened, none⟩ (b.take text leafKind)
      es outer := by
  have levels : Levels m.parser.events.toList m.opened ds outer := by
    have logged := tracks.logged
    rw [opened] at logged ⊢
    exact logged.levels
  cases rest : m.parser.rest with
  | nil =>
    have stays : m.parser.advanceAs kind = m.parser := by simp [Parser.advanceAs, rest]
    rw [remains.take_of_nil rest, stays]
    exact ⟨ds, tracks.fault, tracks.last_eof, .going levels, tracks.done, tracks.around, tracks.tokens⟩
  | cons t ts =>
    have runs := Parser.runs_advanceAs rest kind
    obtain ⟨fault, es, eventsEq, logs⟩ := runs.appends addressed
    obtain ⟨ahead, taken⟩ := remains.take_of_cons rest text leafKind
    rw [taken]
    refine ⟨ds ++ [Draft.token kind t], ?_⟩
    exact {
      fault := fault.trans tracks.fault
      last_eof := by simpa [runs.last] using tracks.last_eof
      logged := by
        simp only [eventsEq]
        rw [opened] at levels ⊢
        exact .going (levels.append logs)
      done := by
        rw [lastFirst_concat, tracks.done, same t ts rest]
        rfl
      around := tracks.around
      tokens := by
        rw [← tracks.tokens, ahead]
        simp [openTokens] }

theorem takeEnd {marker : Marker} {ms : List Marker} (tracks : Tracks text tokens closed m b ds outer)
    (opened : m.opened = marker :: ms) (rest : m.parser.rest = []) (ahead : b.ahead = [m.parser.last]) :
    Tracks text tokens false ⟨m.parser.takeEnd, m.opened, none⟩
      ⟨[], .leaf (m.parser.last.leaf text m.parser.last.kind) :: b.done, b.outer⟩
      (ds ++ [Draft.token .eof m.parser.last]) outer := by
  have atEnd : m.parser.isAt .eof = true := by
    simp [Parser.isAt, Parser.kind, Parser.current, Parser.token, rest, tracks.last_eof]
  have takenEq : m.parser.takeEnd =
      { m.parser with events := m.parser.events.push (.token .eof) } := by
    rw [Parser.takeEnd, Parser.require_eq atEnd]
  rw [takenEq]
  exact {
    fault := tracks.fault
    last_eof := tracks.last_eof
    logged := by
      have logged := tracks.logged
      rw [opened] at logged ⊢
      have last : Logs [.token .eof] [Draft.token .eof m.parser.last] := .token .nil
      have longer := logged.levels.append last
      exact .going (by simpa using longer)
    done := by
      rw [lastFirst_concat, tracks.done, tracks.last_eof]
      rfl
    around := tracks.around
    tokens := by
      rw [← tracks.tokens, ahead]
      simp [openTokens] }

/-- Completing a node moves what is in it to the level around it, as one draft. -/
theorem complete {marker : Marker} {ms : List Marker} {around : List Tree} {trees : List (List Tree)}
    (tracks : Tracks text tokens closed m b ds outer) (opened : m.opened = marker :: ms)
    (levels : b.outer = around :: trees) {kind : Kind} (label : kind.isLabel = true) :
    ∃ es gs, Tracks text tokens true
      ⟨(m.parser.complete marker kind).2, ms, some (m.parser.complete marker kind).1⟩
      ⟨b.ahead, .node kind b.done.reverse :: around, trees⟩ es gs := by
  have logged := tracks.logged
  rw [opened] at logged
  generalize eventsEq : m.parser.events.toList = events at logged
  cases logged.levels with
  | @inside es before gs _ _ below _ outer inside opening slot =>
    -- The start that is filled in comes right behind the outer levels and what is logged of the node before it.
    have startEq : m.parser.events.toList = (es ++ before) ++ tombstone :: gs := by
      rw [eventsEq, List.append_assoc]
    obtain ⟨events, completed, filled⟩ :=
      Parser.complete_slot_eq kind startEq (by rw [slot, List.length_append])
    have aroundEq := tracks.around
    rw [levels, List.map_cons] at aroundEq
    obtain ⟨headEq, tailEq⟩ := List.cons.inj aroundEq
    refine ⟨below ++ [.node kind ds], outer, ?_⟩
    exact {
      fault := by simpa [completed] using tracks.fault
      last_eof := by simpa using tracks.last_eof
      logged := by
        simp only [completed, filled, List.append_assoc]
        exact .closed inside (opening.spine label) (by rw [Parser.slot_complete, slot])
      done := by
        rw [lastFirst_concat, headEq, tracks.done, lastFirst, List.reverse_reverse]
        rfl
      around := tailEq
      tokens := by
        rw [← tracks.tokens]
        simp [openTokens] }

/-- Preceding moves the last draft to a level of its own. -/
theorem precede {c : Completed} {last : Tree} {before : List Tree}
    (tracks : Tracks text tokens true m b ds outer) (completed : m.completed = some c)
    (done : b.done = last :: before) (addressed : (m.parser.precede c).2.Addressed) :
    ∃ es gs, Tracks text tokens false ⟨(m.parser.precede c).2, (m.parser.precede c).1 :: m.opened, none⟩
      ⟨b.ahead, [last], before :: b.outer⟩ es gs := by
  have logged := tracks.logged
  rw [completed] at logged
  generalize eventsEq : m.parser.events.toList = events at logged
  cases logged with
  | @closed es left right _ _ kind d ds _ levels spine slot =>
    -- The node keeps its place in the log and only gets its link; the new level begins with all of it.
    obtain ⟨events, precededEq, slotEq, linked⟩ :=
      Parser.precede_eq (p := { m.parser with events := es.toArray }) (r := (c, m.parser)) addressed eventsEq slot
    have parserEq : (m.parser.precede c).2 = { m.parser with events := events } := precededEq
    have doneEq := tracks.done
    rw [done, lastFirst_concat] at doneEq
    obtain ⟨lastEq, beforeEq⟩ := List.cons.inj doneEq
    refine ⟨[d], ds :: outer, ?_⟩
    exact {
      fault := by simpa [parserEq] using tracks.fault
      last_eof := by simpa [parserEq] using tracks.last_eof
      logged := by
        have size := congrArg List.length eventsEq
        rw [Array.length_toList] at size
        have marked : (m.parser.precede c).1.slot.toNat = es.length +
            (left ++ .start kind (some (right.length + 1)) :: right).length := by
          rw [slotEq, size]
          simp
        have wrapped := Levels.inside levels (.wrapped spine .nil) marked
        rw [parserEq]
        exact .going (by simpa [linked] using wrapped)
      done := by simp [lastEq, lastFirst]
      around := by simp [beforeEq, tracks.around]
      tokens := by
        rw [← tracks.tokens]
        simp [openTokens] }

/-- An allowed operation keeps the levels, provided that a node that it completes gets the kind of a node and that all
starts have slots. -/
theorem step {s s' : Stage} {op : Operation} {m' : Marking} {b' : DirectBuilder}
    (tracks : Tracks text tokens s.closed m b ds outer) (reached : s.Reached m b) (allows : s.Allows op s')
    (marked : m.step op = some m') (built : b.step text op = some b')
    (label : ∀ kind ∈ op.kind?, kind.isLabel = true) (addressed : m'.parser.Addressed) :
    ∃ es gs, Tracks text tokens s'.closed m' b' es gs := by
  -- `Reached` says which stacks are not empty, so that neither machine gets stuck in an operation that is allowed.
  cases allows with
  | root =>
    cases marked
    cases built
    exact ⟨_, _, tracks.start tracks.logged.levels_of_going addressed⟩
  | start =>
    cases marked
    cases built
    obtain ⟨marker, ms, opened⟩ := List.exists_cons_of_length_eq_add_one reached.opened
    have logged := tracks.logged
    rw [opened] at logged
    exact ⟨_, _, tracks.start (by rw [opened]; exact logged.levels) addressed⟩
  | advance =>
    cases marked
    cases built
    obtain ⟨marker, ms, opened⟩ := List.exists_cons_of_length_eq_add_one reached.opened
    obtain ⟨es, taken⟩ := tracks.take opened reached.remains Token.kind
      (fun t ts rest => (Parser.kind_of_rest rest).symm) addressed
    exact ⟨es, outer, taken⟩
  | @advanceAs _ _ _ kind =>
    cases marked
    cases built
    obtain ⟨marker, ms, opened⟩ := List.exists_cons_of_length_eq_add_one reached.opened
    obtain ⟨es, taken⟩ := tracks.take opened reached.remains (fun _ => kind) (fun t ts rest => rfl) addressed
    exact ⟨es, outer, taken⟩
  | takeEnd =>
    obtain ⟨rest, ahead⟩ := reached.ahead_eq
    rw [DirectBuilder.step_takeEnd ahead] at built
    cases marked
    cases built
    obtain ⟨marker, ms, opened⟩ := List.exists_cons_of_length_eq_add_one reached.opened
    exact ⟨_, _, tracks.takeEnd opened rest ahead⟩
  | @complete _ _ _ kind =>
    obtain ⟨marker, ms, opened⟩ := List.exists_cons_of_length_eq_add_one reached.opened
    obtain ⟨around, trees, levels⟩ := List.exists_cons_of_length_eq_add_one reached.outer
    rw [Marking.step_complete opened] at marked
    rw [DirectBuilder.step_complete levels] at built
    cases marked
    cases built
    exact tracks.complete opened levels (label kind rfl)
  | precede =>
    obtain ⟨c, completed⟩ := reached.completed rfl
    obtain ⟨last, before, done⟩ := reached.done rfl
    rw [Marking.step_precede completed] at marked
    rw [DirectBuilder.step_precede done] at built
    cases marked
    cases built
    exact tracks.precede completed done addressed

end Tracks

/-! ## Whole sequences of operations -/

/-- Both do all the operations, and stand at the end then. -/
theorem Fits.run {s : Stage} {ops : List Operation} (fits : Fits s ops) (text : Text) {m : Marking}
    {b : DirectBuilder} (reached : s.Reached m b) :
    ∃ m' b', ops.foldlM Marking.step m = some m' ∧ ops.foldlM (DirectBuilder.step text) b = some b' ∧
      Stage.final.Reached m' b' := by
  induction fits generalizing m b with
  | done => exact ⟨m, b, rfl, rfl, reached⟩
  | step allows fits ih =>
    obtain ⟨m₁, b₁, marked, built, next⟩ := reached.exists_step allows text
    obtain ⟨m', b', restMarked, restBuilt, final⟩ := ih next
    refine ⟨m', b', ?_, ?_, final⟩
    · rw [List.foldlM_cons, marked]
      exact restMarked
    · rw [List.foldlM_cons, built]
      exact restBuilt

/-- If all nodes get kinds of nodes and all starts have slots then the levels are kept up to the end. -/
theorem Fits.tracks {s : Stage} {ops : List Operation} (fits : Fits s ops) {text : Text}
    {tokens : List Token} {m m' : Marking} {b b' : DirectBuilder} {ds : List Draft}
    {outer : List (List Draft)} (reached : s.Reached m b)
    (labels : ∀ op ∈ ops, ∀ kind ∈ op.kind?, kind.isLabel = true)
    (marked : ops.foldlM Marking.step m = some m')
    (built : ops.foldlM (DirectBuilder.step text) b = some b') (addressed : m'.parser.Addressed)
    (tracks : Tracks text tokens s.closed m b ds outer) :
    ∃ es gs, Tracks text tokens true m' b' es gs := by
  induction fits generalizing m b ds outer with
  | done =>
    cases marked
    cases built
    exact ⟨ds, outer, tracks⟩
  | @step _ _ op ops allows fits ih =>
    obtain ⟨m₁, b₁, firstMarked, firstBuilt, next⟩ := reached.exists_step allows text
    rw [List.foldlM_cons, firstMarked] at marked
    rw [List.foldlM_cons, firstBuilt] at built
    obtain ⟨es, gs, later⟩ := tracks.step reached allows firstMarked firstBuilt (labels op (by simp))
      (Marking.addressed_of_run marked addressed)
    exact ih next (fun op member => labels op (by simp [member])) marked built later

/-- At the end the log is that of one node, and replays to the tree that the builder has, unless a token has too much
trivia. -/
theorem Tracks.exists_draft {text : Text} {r : Registry} {m : Marking} {b : DirectBuilder}
    {ds : List Draft} {outer : List (List Draft)}
    (tracks : Tracks text (Token.tokenize text r).1 true m b ds outer)
    (reached : Stage.final.Reached m b) {t : Tree} (built : b.tree? = some t) :
    ∃ d : Draft, t = d.tree text ∧ d.tokens = (Token.tokenize text r).1 ∧
      (m.parser.finish text (Token.tokenize text r).1 = .ok t ∨
        (∃ u ∈ d.tokens, u.TooLong) ∧
          ∃ fault, m.parser.finish text (Token.tokenize text r).1 = .error fault) := by
  obtain ⟨tree, builtEq, doneEq, -, ahead⟩ := reached.tree?_eq
  cases builtEq.symm.trans built
  have opened : m.opened = [] := List.eq_nil_of_length_eq_zero reached.opened
  have logged := tracks.logged
  rw [opened] at logged
  generalize eventsEq : m.parser.events.toList = events at logged
  generalize m.completed = completed at logged
  cases logged with
  | @closed es before after _ c kind d ds _ levels spine slot =>
    cases levels with
    | outside =>
      have tokens : d.tokens = (Token.tokenize text r).1 := by
        rw [← tracks.tokens, ahead]
        simp [openTokens]
      have treeEq : t = d.tree text := by
        have done := tracks.done
        rw [doneEq, lastFirst_concat] at done
        exact (List.cons.inj done).1
      obtain ⟨lies, whole⟩ := (Token.tiles_tokenize text r).liesIn [] rfl
      rw [List.nil_append, ← tokens] at lies whole
      refine ⟨d, treeEq, tokens, ?_⟩
      rw [← tokens, treeEq]
      exact Parser.finish_of_spine tracks.fault eventsEq spine lies whole

end LispSyntax
