import LispSyntax.Proofs.Outline

/-! # Patterns of children

A pattern says which sequences of outlines may stand side by side under a node. Patterns are put together
like the right-hand sides of a grammar: one after the other, either or, any number of times. The two
grammars of this library are tables of patterns: one for the trees of sources without problems, and one,
with what the parser does about problems, for all trees it makes.
-/

namespace LispSyntax

def Outline.HasKind {α : Type} (kind : Kind) (o : Outline α) : Prop :=
  ∃ os, o = .node kind os

/-- A set of sequences of outlines. -/
abbrev Pattern (α : Type) := List (Outline α) → Prop

namespace Pattern

variable {α : Type}

def nothing : Pattern α := fun os =>
  os = []

def single (sort : Outline α → Prop) : Pattern α := fun os =>
  ∃ o, os = [o] ∧ sort o

def many (sort : Outline α → Prop) : Pattern α := fun os =>
  ∀ o ∈ os, sort o

def some (sort : Outline α → Prop) : Pattern α := fun os =>
  os ≠ [] ∧ many sort os

/-- A sequence of the first pattern and one of the second after it. -/
def followedBy (first second : Pattern α) : Pattern α := fun os =>
  ∃ us vs, os = us ++ vs ∧ first us ∧ second vs

def orElse (left right : Pattern α) : Pattern α := fun os =>
  left os ∨ right os

def optional (pattern : Pattern α) : Pattern α :=
  nothing.orElse pattern

def provided (condition : Prop) (pattern : Pattern α) : Pattern α := fun os =>
  condition ∧ pattern os

def node (kind : Kind) (children : Pattern α) : Pattern α :=
  single fun o => ∃ os, o = .node kind os ∧ children os

def pairs (sort : Outline α → Prop) : Pattern α := fun os =>
  os.length % 2 = 0 ∧ many sort os

/-! ## Sequences one by one -/

theorem single_mk {sort : Outline α → Prop} {o : Outline α} (h : sort o) : single sort [o] :=
  ⟨o, rfl, h⟩

theorem followedBy_mk {first second : Pattern α} {us vs : List (Outline α)} (h : first us)
    (k : second vs) : (first.followedBy second) (us ++ vs) :=
  ⟨us, vs, rfl, h, k⟩

theorem node_mk {kind : Kind} {children : Pattern α} {os : List (Outline α)} (h : children os) :
    node kind children [.node kind os] :=
  single_mk ⟨os, rfl, h⟩

theorem many_nil (sort : Outline α → Prop) : many sort [] := by
  simp [many]

theorem many_append {sort : Outline α → Prop} {us vs : List (Outline α)} (h : many sort us)
    (k : many sort vs) : many sort (us ++ vs) := by
  intro o member
  rcases List.mem_append.mp member with member | member
  · exact h o member
  · exact k o member

theorem many_of_single {sort : Outline α → Prop} {os : List (Outline α)} (h : single sort os) :
    many sort os := by
  obtain ⟨o, rfl, good⟩ := h
  simpa [many] using good

/-! ## Larger patterns -/

theorem single_imp {sort sort' : Outline α → Prop} (h : ∀ o, sort o → sort' o)
    {os : List (Outline α)} : single sort os → single sort' os := by
  rintro ⟨o, rfl, good⟩
  exact single_mk (h o good)

theorem followedBy_imp {first first' second second' : Pattern α} (h : ∀ os, first os → first' os)
    (k : ∀ os, second os → second' os) {os : List (Outline α)} :
    first.followedBy second os → first'.followedBy second' os := by
  rintro ⟨us, vs, rfl, good, good'⟩
  exact followedBy_mk (h us good) (k vs good')

/-! ## The empty sequence -/

theorem single_ne_nil {sort : Outline α → Prop} {os : List (Outline α)} :
    single sort os → os ≠ [] := by
  rintro ⟨o, rfl, -⟩
  simp

@[simp] theorem single_nil {sort : Outline α → Prop} : ¬ single sort [] :=
  fun good => single_ne_nil good rfl

@[simp] theorem some_nil {sort : Outline α → Prop} : ¬ some sort [] :=
  fun good => good.1 rfl

@[simp] theorem node_nil {kind : Kind} {children : Pattern α} : ¬ node kind children [] :=
  single_nil

@[simp] theorem followedBy_nil {first second : Pattern α} :
    first.followedBy second [] ↔ first [] ∧ second [] := by
  constructor
  · rintro ⟨us, vs, eq, good, good'⟩
    obtain ⟨rfl, rfl⟩ := List.append_eq_nil_iff.mp eq.symm
    exact ⟨good, good'⟩
  · rintro ⟨good, good'⟩
    exact followedBy_mk good good'

@[simp] theorem orElse_nil {left right : Pattern α} : left.orElse right [] ↔ left [] ∨ right [] :=
  Iff.rfl

@[simp] theorem provided_nil {condition : Prop} {pattern : Pattern α} :
    provided condition pattern [] ↔ condition ∧ pattern [] :=
  Iff.rfl

end Pattern

/-! ## Children of drafts -/

namespace Draft

/-- A token taken under the given kind, of the given sort. -/
def taken (kind : Kind) (sort : Token → Prop) : Pattern (Kind × Token) :=
  .single fun d => ∃ t, d = Draft.token kind t ∧ sort t

def tokenOf (kind : Kind) : Pattern (Kind × Token) :=
  taken kind fun t => t.kind = kind

/-- A token under its own kind, of the given class. -/
def tokenIn (within : Kind → Bool) : Pattern (Kind × Token) :=
  .single fun d => ∃ t : Token, d = Draft.token t.kind t ∧ within t.kind = true

/-- What ends a sequence: its closing token, or nothing, and then that is reported. -/
def closing (quiet : Prop) (closer : Kind) : Pattern (Kind × Token) :=
  (tokenOf closer).orElse (.provided (¬ quiet) .nothing)

end Draft

end LispSyntax
