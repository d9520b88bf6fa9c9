import LispSyntax.Proofs.Drafted

/-! # Markers and direct construction

The parser logs the start of a node before its kind is known, and a parent that is put around a complete node
is logged after it, with a link from the node. A builder that works on trees has an easier life: it keeps a
stack of open nodes and moves a complete node when it gets a parent (`DirectBuilder`). The two are compared on
sequences of marker operations (`Operation`) of the discipline that is stated by `Fits`: markers are completed from the
innermost outwards, everything is inside one root, all tokens are taken, and only a node that was completed right
before is preceded.

Here it is shown that neither of the two gets stuck, whatever kinds the nodes are given: `Stage.Reached` says what
each has at each stage, and every operation that is allowed leads both to the next one.
-/

namespace LispSyntax

open Event

/-! ## Operations -/

/-- An operation on markers. A marker is completed when it is the innermost, and a node is preceded right after it was
completed, so neither has to be named. -/
inductive Operation where
  | start
  | advance
  | advanceAs (kind : Kind)
  | takeEnd
  | complete (kind : Kind)
  | precede
deriving DecidableEq

def Operation.kind? : Operation → Option Kind
  | complete kind => some kind
  | _ => none

/-- The parser with the markers that are not completed, innermost first, and the node that was just completed. -/
structure Marking where
  parser : Parser
  opened : List Marker
  completed : Option Completed

def Marking.step (m : Marking) : Operation → Option Marking
  | .start => some ⟨m.parser.start.2, m.parser.start.1 :: m.opened, none⟩
  | .advance => some ⟨m.parser.advance, m.opened, none⟩
  | .advanceAs kind => some ⟨m.parser.advanceAs kind, m.opened, none⟩
  | .takeEnd => some ⟨m.parser.takeEnd, m.opened, none⟩
  | .complete kind =>
    match m.opened with
    | [] => none
    | marker :: outer =>
      some ⟨(m.parser.complete marker kind).2, outer, some (m.parser.complete marker kind).1⟩
  | .precede =>
    match m.completed with
    | none => none
    | some c => some ⟨(m.parser.precede c).2, (m.parser.precede c).1 :: m.opened, none⟩

/-- Does the operations one after the other, with a parser that has no marker yet. -/
def Marking.run (p : Parser) (ops : List Operation) : Option Marking :=
  ops.foldlM step ⟨p, [], none⟩

/-! ## Direct construction -/

/-- A builder without a log: the tokens to come, the end included, and the trees that are finished in the innermost
open node and in those around it, each list from the last to the first. -/
structure DirectBuilder where
  ahead : List Token
  done : List Tree
  outer : List (List Tree)

namespace DirectBuilder

/-- Appends the next token, under the kind; the end is not appended. -/
def take (text : Text) (kind : Token → Kind) (b : DirectBuilder) : DirectBuilder :=
  match b.ahead with
  | t :: next :: ts =>
    { b with ahead := next :: ts, done := .leaf (t.leaf text (kind t)) :: b.done }
  | _ => b

def takeEnd (text : Text) (b : DirectBuilder) : Option DirectBuilder :=
  match b.ahead with
  | [t] => some { b with ahead := [], done := .leaf (t.leaf text t.kind) :: b.done }
  | _ => none

/-- Does the operation on trees: completing a node closes the innermost one, and preceding takes the last tree out
of its parent and puts it first in a new one. -/
def step (text : Text) (b : DirectBuilder) : Operation → Option DirectBuilder
  | .start => some ⟨b.ahead, [], b.done :: b.outer⟩
  | .advance => some (b.take text Token.kind)
  | .advanceAs kind => some (b.take text fun _ => kind)
  | .takeEnd => b.takeEnd text
  | .complete kind =>
    match b.outer with
    | [] => none
    | around :: outer => some ⟨b.ahead, .node kind b.done.reverse :: around, outer⟩
  | .precede =>
    match b.done with
    | [] => none
    | last :: before => some ⟨b.ahead, [last], before :: b.outer⟩

/-- The tree, if it is the only one and all tokens are in it. -/
def tree? (b : DirectBuilder) : Option Tree :=
  match b.ahead, b.done, b.outer with
  | [], [t], [] => some t
  | _, _, _ => none

def build (text : Text) (tokens : List Token) (ops : List Operation) : Option Tree :=
  (ops.foldlM (step text) ⟨tokens, [], []⟩).bind tree?

end DirectBuilder

/-! ## The discipline -/

/-- What decides which operations may come next: how many nodes are open, how many tokens are left before the end,
unless the end is taken, and whether a node was just completed. -/
structure Stage where
  opened : Nat
  left : Option Nat
  closed : Bool

/-- Before the first operation. The last of the tokens is the end. -/
def Stage.first (tokens : List Token) : Stage :=
  ⟨0, some (tokens.length - 1), false⟩

/-- One node is complete, and all tokens are in it. -/
def Stage.final : Stage :=
  ⟨0, none, true⟩

/-- The operation may be done at the stage and leads to the next one. -/
inductive Stage.Allows : Stage → Operation → Stage → Prop where
  /-- A node outside all others is started only once. -/
  | root {left : Option Nat} : Allows ⟨0, left, false⟩ .start ⟨1, left, false⟩
  | start {n : Nat} {left : Option Nat} {closed : Bool} :
      Allows ⟨n + 1, left, closed⟩ .start ⟨n + 2, left, false⟩
  /-- At the end there is nothing to take, and the stage stays what it is. -/
  | advance {n : Nat} {left : Option Nat} {closed : Bool} :
      Allows ⟨n + 1, left, closed⟩ .advance ⟨n + 1, left.map Nat.pred, false⟩
  | advanceAs {n : Nat} {left : Option Nat} {closed : Bool} {kind : Kind} :
      Allows ⟨n + 1, left, closed⟩ (.advanceAs kind) ⟨n + 1, left.map Nat.pred, false⟩
  | takeEnd {n : Nat} {closed : Bool} : Allows ⟨n + 1, some 0, closed⟩ .takeEnd ⟨n + 1, none, false⟩
  | complete {n : Nat} {left : Option Nat} {closed : Bool} {kind : Kind} :
      Allows ⟨n + 1, left, closed⟩ (.complete kind) ⟨n, left, true⟩
  | precede {n : Nat} {left : Option Nat} : Allows ⟨n, left, true⟩ .precede ⟨n + 1, left, false⟩

/-- The operations may be done one after the other from the stage on, and lead to one complete node. -/
inductive Fits : Stage → List Operation → Prop where
  | done : Fits .final []
  | step {s s' : Stage} {op : Operation} {ops : List Operation} :
      s.Allows op s' → Fits s' ops → Fits s (op :: ops)

/-! ## Neither gets stuck -/

/-- The builder has ahead what the parser has to take, and the end unless that was taken. -/
def Remains (p : Parser) (ahead : List Token) : Option Nat → Prop
  | some n => ahead = p.rest ++ [p.last] ∧ p.rest.length = n
  | none => ahead = [] ∧ p.rest = []

theorem Remains.congr {p q : Parser} {ahead : List Token} {left : Option Nat}
    (remains : Remains p ahead left) (rest : q.rest = p.rest) (last : q.last = p.last) :
    Remains q ahead left := by
  cases left with
  | none => exact ⟨remains.1, rest.trans remains.2⟩
  | some n => exact ⟨by rw [rest, last]; exact remains.1, by rw [rest]; exact remains.2⟩

@[simp] theorem DirectBuilder.outer_take (text : Text) (kind : Token → Kind) (b : DirectBuilder) :
    (b.take text kind).outer = b.outer := by
  unfold take
  split <;> rfl

/-- At the end there is nothing to take. -/
theorem Remains.take_of_nil {p : Parser} {b : DirectBuilder} {left : Option Nat}
    (remains : Remains p b.ahead left) (rest : p.rest = []) (text : Text) (kind : Token → Kind) :
    b.take text kind = b := by
  cases left with
  | none => simp [DirectBuilder.take, remains.1]
  | some n => simp [DirectBuilder.take, remains.1, rest]

/-- Before the end there is the token that the parser takes, and something behind it. -/
theorem Remains.take_of_cons {p : Parser} {b : DirectBuilder} {left : Option Nat} {t : Token}
    {ts : List Token} (remains : Remains p b.ahead left) (rest : p.rest = t :: ts) (text : Text)
    (kind : Token → Kind) :
    b.ahead = t :: (ts ++ [p.last]) ∧
      b.take text kind =
        { b with ahead := ts ++ [p.last], done := .leaf (t.leaf text (kind t)) :: b.done } := by
  cases left with
  | none =>
    -- The end is taken, so nothing can be left before it.
    rw [remains.2] at rest
    contradiction
  | some n =>
    have ahead : b.ahead = t :: (ts ++ [p.last]) := by rw [remains.1, rest]; rfl
    refine ⟨ahead, ?_⟩
    cases ts <;> simp [DirectBuilder.take, ahead]

theorem Remains.advanceAs {p : Parser} {b : DirectBuilder} {left : Option Nat}
    (remains : Remains p b.ahead left) (text : Text) (kind : Kind) (leafKind : Token → Kind) :
    Remains (p.advanceAs kind) (b.take text leafKind).ahead (left.map Nat.pred) := by
  cases rest : p.rest with
  | nil =>
    rw [remains.take_of_nil rest]
    have same : p.advanceAs kind = p := by simp [Parser.advanceAs, rest]
    rw [same]
    cases left with
    | none => exact remains
    | some n =>
      have zero : n = 0 := by simpa [rest] using remains.2.symm
      subst zero
      exact remains
  | cons t ts =>
    rw [(remains.take_of_cons rest text leafKind).2]
    cases left with
    | none =>
      have none := remains.2
      rw [rest] at none
      contradiction
    | some n =>
      have count := remains.2
      simp only [rest, List.length_cons] at count
      subst count
      simp [Parser.advanceAs, rest, Remains]

/-- The parser and the builder stand at the stage. Outside all nodes there is at most one tree. -/
structure Stage.Reached (s : Stage) (m : Marking) (b : DirectBuilder) : Prop where
  opened : m.opened.length = s.opened
  outer : b.outer.length = s.opened
  completed : s.closed = true → ∃ c, m.completed = some c
  done : s.closed = true → ∃ t ts, b.done = t :: ts
  remains : Remains m.parser b.ahead s.left
  outside : b.outer.getLast? = if s.opened = 0 then none else some []
  single : s.opened = 0 → b.done.length = if s.closed then 1 else 0

@[simp] theorem Parser.rest_takeEnd (p : Parser) : p.takeEnd.rest = p.rest := by
  simp only [takeEnd, require]
  split <;> rfl

@[simp] theorem Parser.last_complete (p : Parser) (m : Marker) (kind : Kind) :
    (p.complete m kind).2.last = p.last := by
  simp only [complete]
  split <;> rfl

section

variable {m : Marking} {b : DirectBuilder}

theorem Marking.step_complete {marker : Marker} {ms : List Marker} (opened : m.opened = marker :: ms)
    (kind : Kind) :
    m.step (.complete kind) =
      some ⟨(m.parser.complete marker kind).2, ms, some (m.parser.complete marker kind).1⟩ := by
  simp [step, opened]

theorem Marking.step_precede {c : Completed} (completed : m.completed = some c) :
    m.step .precede = some ⟨(m.parser.precede c).2, (m.parser.precede c).1 :: m.opened, none⟩ := by
  simp [step, completed]

theorem DirectBuilder.step_takeEnd {t : Token} (ahead : b.ahead = [t]) (text : Text) :
    b.step text .takeEnd = some ⟨[], .leaf (t.leaf text t.kind) :: b.done, b.outer⟩ := by
  simp [step, takeEnd, ahead]

theorem DirectBuilder.step_complete {around : List Tree} {outer : List (List Tree)}
    (levels : b.outer = around :: outer) (text : Text) (kind : Kind) :
    b.step text (.complete kind) = some ⟨b.ahead, .node kind b.done.reverse :: around, outer⟩ := by
  simp [step, levels]

theorem DirectBuilder.step_precede {last : Tree} {before : List Tree} (done : b.done = last :: before)
    (text : Text) : b.step text .precede = some ⟨b.ahead, [last], before :: b.outer⟩ := by
  simp [step, done]

end

namespace Stage.Reached

variable {m : Marking} {b : DirectBuilder} {n : Nat} {left : Option Nat} {closed : Bool}

theorem root (reached : Reached ⟨0, left, false⟩ m b) :
    Reached ⟨1, left, false⟩ ⟨m.parser.start.2, m.parser.start.1 :: m.opened, none⟩
      ⟨b.ahead, [], b.done :: b.outer⟩ where
  opened := by simpa using reached.opened
  outer := by simpa using reached.outer
  completed := by simp
  done := by simp
  remains := reached.remains.congr rfl rfl
  outside := by
    have noTree : b.done = [] := List.eq_nil_of_length_eq_zero (reached.single rfl)
    have noNode : b.outer = [] := List.eq_nil_of_length_eq_zero reached.outer
    rw [noTree, noNode]
    rfl
  single := by simp

theorem start (reached : Reached ⟨n + 1, left, closed⟩ m b) :
    Reached ⟨n + 2, left, false⟩ ⟨m.parser.start.2, m.parser.start.1 :: m.opened, none⟩
      ⟨b.ahead, [], b.done :: b.outer⟩ where
  opened := by simpa using reached.opened
  outer := by simpa using reached.outer
  completed := by simp
  done := by simp
  remains := reached.remains.congr rfl rfl
  outside := by
    rw [List.getLast?_cons, reached.outside]
    rfl
  single := by simp

theorem advanceAs (reached : Reached ⟨n + 1, left, closed⟩ m b) (text : Text) (kind : Kind)
    (leafKind : Token → Kind) :
    Reached ⟨n + 1, left.map Nat.pred, false⟩ ⟨m.parser.advanceAs kind, m.opened, none⟩
      (b.take text leafKind) where
  opened := reached.opened
  outer := by simpa using reached.outer
  completed := by simp
  done := by simp
  remains := reached.remains.advanceAs text kind leafKind
  outside := by simpa using reached.outside
  single := by simp

theorem ahead_eq (reached : Reached ⟨n, some 0, closed⟩ m b) :
    m.parser.rest = [] ∧ b.ahead = [m.parser.last] := by
  have rest : m.parser.rest = [] := List.eq_nil_of_length_eq_zero reached.remains.2
  refine ⟨rest, ?_⟩
  rw [reached.remains.1, rest]
  rfl

theorem takeEnd (reached : Reached ⟨n + 1, some 0, closed⟩ m b) (leaf : Tree) :
    Reached ⟨n + 1, none, false⟩ ⟨m.parser.takeEnd, m.opened, none⟩ ⟨[], leaf :: b.done, b.outer⟩ where
  opened := reached.opened
  outer := reached.outer
  completed := by simp
  done := by simp
  remains := ⟨rfl, by simpa using reached.ahead_eq.1⟩
  outside := reached.outside
  single := by simp

theorem complete (reached : Reached ⟨n + 1, left, closed⟩ m b) {marker : Marker} {ms : List Marker}
    {around : List Tree} {outer : List (List Tree)} (opened : m.opened = marker :: ms)
    (levels : b.outer = around :: outer) (kind : Kind) :
    Reached ⟨n, left, true⟩
      ⟨(m.parser.complete marker kind).2, ms, some (m.parser.complete marker kind).1⟩
      ⟨b.ahead, .node kind b.done.reverse :: around, outer⟩ where
  opened := by simpa [opened] using reached.opened
  outer := by simpa [levels] using reached.outer
  completed := by simp
  done := by simp
  remains := reached.remains.congr (by simp) (by simp)
  outside := by
    -- The level around the node is the one outside all nodes just if no other node is open.
    have outside := reached.outside
    have count := reached.outer
    rw [levels] at outside count
    cases outer with
    | nil =>
      have noneOpen : n = 0 := by simpa using count.symm
      simp [noneOpen]
    | cons next rest =>
      have someOpen : n ≠ 0 := by
        rintro rfl
        simp at count
      rw [if_neg someOpen]
      simpa using outside
  single := by
    rintro (rfl : n = 0)
    have outside := reached.outside
    have count := reached.outer
    rw [levels] at outside count
    have noNode : outer = [] := by simpa using count
    have noTree : around = [] := by simpa [noNode] using outside
    simp [noTree]

theorem precede (reached : Reached ⟨n, left, true⟩ m b) {c : Completed} {last : Tree}
    {before : List Tree} (done : b.done = last :: before) :
    Reached ⟨n + 1, left, false⟩ ⟨(m.parser.precede c).2, (m.parser.precede c).1 :: m.opened, none⟩
      ⟨b.ahead, [last], before :: b.outer⟩ where
  opened := by simpa using reached.opened
  outer := by simpa using reached.outer
  completed := by simp
  done := by simp
  remains := by
    obtain ⟨events, fault, precededEq⟩ := Parser.preceded_eq (c, m.parser)
    have parserEq : (m.parser.precede c).2 =
        { m.parser with events := events, fault := fault } := precededEq
    exact reached.remains.congr (by simp [parserEq]) (by simp [parserEq])
  outside := by
    cases n with
    | zero =>
      have noNode : b.outer = [] := List.eq_nil_of_length_eq_zero reached.outer
      have noTree : before = [] := by simpa [done] using reached.single rfl
      rw [noNode, noTree]
      rfl
    | succ n =>
      rw [List.getLast?_cons, reached.outside]
      rfl
  single := by simp

/-- An operation that is allowed can be done by both, and they reach the next stage. -/
theorem exists_step {s s' : Stage} {op : Operation} (reached : s.Reached m b) (allows : s.Allows op s')
    (text : Text) :
    ∃ m' b', m.step op = some m' ∧ b.step text op = some b' ∧ s'.Reached m' b' := by
  cases allows with
  | root => exact ⟨_, _, rfl, rfl, reached.root⟩
  | start => exact ⟨_, _, rfl, rfl, reached.start⟩
  | advance => exact ⟨_, _, rfl, rfl, reached.advanceAs text m.parser.kind Token.kind⟩
  | @advanceAs _ _ _ kind => exact ⟨_, _, rfl, rfl, reached.advanceAs text kind fun _ => kind⟩
  | takeEnd => exact ⟨_, _, rfl, DirectBuilder.step_takeEnd reached.ahead_eq.2 text, reached.takeEnd _⟩
  | @complete _ _ _ kind =>
    obtain ⟨marker, ms, opened⟩ := List.exists_cons_of_length_eq_add_one reached.opened
    obtain ⟨around, outer, levels⟩ := List.exists_cons_of_length_eq_add_one reached.outer
    exact ⟨_, _, Marking.step_complete opened kind, DirectBuilder.step_complete levels text kind,
      reached.complete opened levels kind⟩
  | precede =>
    obtain ⟨c, completed⟩ := reached.completed rfl
    obtain ⟨last, before, done⟩ := reached.done rfl
    exact ⟨_, _, Marking.step_precede completed, DirectBuilder.step_precede done text,
      reached.precede done⟩

/-- At the end the builder has a tree. -/
theorem tree?_eq (reached : Stage.final.Reached m b) :
    ∃ t, b.tree? = some t ∧ b.done = [t] ∧ b.outer = [] ∧ b.ahead = [] := by
  obtain ⟨t, done⟩ := List.length_eq_one_iff.mp (reached.single rfl)
  have outer : b.outer = [] := List.eq_nil_of_length_eq_zero reached.outer
  have ahead : b.ahead = [] := reached.remains.1
  exact ⟨t, by simp [DirectBuilder.tree?, done, outer, ahead], done, outer, ahead⟩

end Stage.Reached

end LispSyntax
