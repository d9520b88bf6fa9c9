import LispSyntax.Proofs.Recovery

/-! # Leaves in the table of productions

`Leaves holds a` says of a pattern that every token standing in it directly, not in a node, has a property.
Most patterns of the table are made of nodes, so they have any property; tokens come in with the delimiters, the
head of a special form, the `&` of a parameter list and the alias of an import, and each of these says what it asks.
-/

namespace LispSyntax

/-- Every leaf of the pattern, and the kind it is taken under, has the property. -/
def Leaves (holds : Kind × Token → Prop) (a : Pattern (Kind × Token)) : Prop :=
  ∀ ds, a ds → ∀ leaf, Outline.leaf leaf ∈ ds → holds leaf

namespace Leaves

open LispSyntax.Pattern Outline

variable {holds : Kind × Token → Prop} {a b : Pattern (Kind × Token)} {sort : Draft → Prop}
  {quiet : Prop}

theorem nothing : Leaves holds .nothing := by
  rintro ds rfl leaf member
  contradiction

theorem many (inner : ∀ d, sort d → ∃ kind os, d = .node kind os) : Leaves holds (.many sort) := by
  intro ds good leaf member
  obtain ⟨kind, os, eq⟩ := inner _ (good _ member)
  contradiction

theorem imp (wider : Leaves holds b) (h : ∀ ds, a ds → b ds) : Leaves holds a :=
  fun ds good => wider ds (h ds good)

theorem followedBy (first : Leaves holds a) (second : Leaves holds b) :
    Leaves holds (a.followedBy b) := by
  rintro ds ⟨us, vs, rfl, good, good'⟩ leaf member
  rcases List.mem_append.mp member with member | member
  · exact first us good leaf member
  · exact second vs good' leaf member

theorem orElse (left : Leaves holds a) (right : Leaves holds b) : Leaves holds (a.orElse b) := by
  rintro ds (good | good)
  · exact left ds good
  · exact right ds good

theorem optional (inner : Leaves holds a) : Leaves holds a.optional :=
  nothing.orElse inner

theorem provided {condition : Prop} (inner : Leaves holds a) : Leaves holds (.provided condition a) :=
  fun ds good => inner ds good.2

theorem single (inner : ∀ d, sort d → ∃ kind os, d = .node kind os) : Leaves holds (.single sort) :=
  (many inner).imp fun _ => many_of_single

theorem some (inner : ∀ d, sort d → ∃ kind os, d = .node kind os) : Leaves holds (.some sort) :=
  (many inner).imp fun _ good => good.2

theorem node (kind : Kind) : Leaves holds (.node kind a) :=
  single fun _ ⟨os, eq, _⟩ => ⟨kind, os, eq⟩

theorem taken {kind : Kind} {sort : Token → Prop} (label : ∀ t, sort t → holds (kind, t)) :
    Leaves holds (Draft.taken kind sort) := by
  rintro ds ⟨d, rfl, t, rfl, good⟩ leaf member
  obtain rfl : leaf = (kind, t) := by simpa [Draft.token] using member
  exact label t good

theorem tokenOf {kind : Kind} (label : ∀ t, t.kind = kind → holds (kind, t)) :
    Leaves holds (Draft.tokenOf kind) :=
  taken label

theorem tokenIn {within : Kind → Bool} (label : ∀ t, within t.kind = true → holds (t.kind, t)) :
    Leaves holds (Draft.tokenIn within) := by
  rintro ds ⟨d, rfl, t, rfl, good⟩ leaf member
  obtain rfl : leaf = (t.kind, t) := by simpa [Draft.token] using member
  exact label t good

/-! ## Patterns of the table -/

theorem isNode_of_isForm (d : Draft) : IsForm d → ∃ kind os, d = .node kind os
  | ⟨kind, os, eq, _⟩ => ⟨kind, os, eq⟩

theorem isNode_of_hasKind (kind : Kind) (d : Draft) : HasKind kind d → ∃ kind os, d = .node kind os
  | ⟨os, eq⟩ => ⟨kind, os, eq⟩

theorem form : Leaves holds (.single IsForm) :=
  single isNode_of_isForm

theorem forms : Leaves holds (.many IsForm) :=
  many isNode_of_isForm

theorem gaveUp : Leaves holds (Recovery.gaveUp quiet) :=
  provided (optional (single (isNode_of_hasKind .error)))

theorem expected : Leaves holds (Recovery.expected quiet) :=
  form.orElse (provided nothing)

theorem expectedName : Leaves holds (Recovery.expectedName quiet) :=
  (node .symbol).orElse gaveUp

theorem account : Leaves holds Recovery.account :=
  (node .literal).orElse (node .symbol)

theorem arityParts : Leaves holds (Recovery.arityParts quiet) :=
  (single (isNode_of_hasKind .paramList)).followedBy (expected.followedBy (optional gaveUp))

theorem singleArity : Leaves holds (Recovery.singleArity quiet) :=
  (node .arity).orElse gaveUp

theorem arities : Leaves holds (Recovery.arities quiet) :=
  (node .arity).orElse ((some fun _ ⟨ds, eq, _⟩ => ⟨.arity, ds, eq⟩).orElse gaveUp)

theorem bindingList {one : Bool} : Leaves holds (Recovery.bindingList quiet one) := by
  refine imp (b := .followedBy _ _) ?_ fun _ good => good.1
  exact (many (isNode_of_hasKind .binding)).followedBy (optional gaveUp)

theorem bound {one : Bool} (body : Leaves holds a) : Leaves holds (Recovery.bound quiet one a) :=
  ((node .bindings).followedBy body).orElse gaveUp

theorem definition (body : Leaves holds a) : Leaves holds (Recovery.definition quiet a) :=
  ((node .symbol).followedBy ((optional (single (isNode_of_hasKind .metadata))).followedBy body)).orElse
    gaveUp

theorem clauses : Leaves holds Recovery.clauses := by
  have pair : ∀ d, Recovery.IsPair d → ∃ kind os, d = .node kind os :=
    fun _ ⟨test, result, eq, _⟩ => ⟨.condClause, [test, result], eq⟩
  exact (many pair).orElse ((single fun _ ⟨test, eq, _⟩ => ⟨.condClause, [test], eq⟩).orElse
    ((some pair).followedBy (single fun _ ⟨last, eq, _⟩ => ⟨.condFallback, [last], eq⟩)))

theorem delimited {opener closer : Kind} (opens : ∀ t, t.kind = opener → holds (opener, t))
    (closes : ∀ t, t.kind = closer → holds (closer, t)) (inside : Leaves holds a) :
    Leaves holds (Recovery.delimited quiet opener closer a) :=
  (tokenOf opens).followedBy (inside.followedBy ((tokenOf closes).orElse (provided nothing)))

theorem parameters (amp : ∀ t, t.text = ['&'] ∧ t.kind.isSymbolToken = true → holds (.amp, t)) :
    Leaves holds (Recovery.parameters quiet) :=
  (many (isNode_of_hasKind .fixedParam)).followedBy
    ((optional gaveUp).orElse ((taken amp).followedBy
      (((some (isNode_of_hasKind .optionalParam)).followedBy (optional gaveUp)).orElse gaveUp)))

/-- After the head of a special form, only an import has a token that is not in a node. -/
theorem specialBody {head : Kind} (mark : head = .importHead →
      ∀ t, t.kind = .keyword ∧ t.text = ":as".toList → holds (.asMark, t)) :
    Leaves holds (Recovery.specialBody quiet head) := by
  unfold Recovery.specialBody
  split
  · exact (account.followedBy expectedName).orElse expectedName
  · exact ((node .symbol).followedBy
      (optional ((taken (mark rfl)).followedBy expectedName))).orElse gaveUp
  · exact definition expected
  · exact definition arities
  · exact definition singleArity
  · exact singleArity
  · exact singleArity
  · exact clauses
  · exact bound forms
  · exact bound forms
  · exact bound (expected.followedBy (optional form))
  · exact bound forms
  · exact bound forms
  · exact expected

theorem plainTokens (label : ∀ t : Token, holds (t.kind, t)) :
    Leaves holds (.some Recovery.IsPlainToken) := by
  intro ds good leaf member
  obtain ⟨t, eq⟩ := good.2 _ member
  obtain rfl : leaf = (t.kind, t) := by simpa [Draft.token] using eq
  exact label t

theorem errorParts (label : ∀ t : Token, holds (t.kind, t)) :
    Leaves holds (Recovery.errorParts quiet) :=
  (tokenOf fun t isKind => isKind ▸ label t).orElse (provided ((plainTokens label).orElse
    ((some isNode_of_isForm).orElse (single (isNode_of_hasKind .metadata)))))

end Leaves

end LispSyntax
