import LispSyntax.Proofs.Typed

/-! # Typed views are complete

In a tree without diagnostics, the accessors of a typed view miss nothing: what the grammar asks for is there
(`Typed.Whole`), and the nodes that the accessors of direct children give are the child nodes, each once and in
their order (`Typed.parts`). The accessors look for children by their kind or their place among the forms, so a value
that is a symbol like the name before it, or an account that is a symbol like the name after it, could be taken for
the other; that they are not follows from the production of each kind of node.
-/

namespace LispSyntax

def Account.view : Account → View
  | address it => it.view
  | symbol it => it.view

namespace Typed

/-- The accessors that are not optional in the grammar give something; the entries of a map are all its forms. -/
@[simp] def Whole : {s : Shape} → Typed s → Prop
  | .literal, l => (Literal.kind? l).isSome
  | .symbol, t | .fixedParam, t | .optionalParam, t => t.view.symbolToken?.isSome
  | .mapForm, m => (MapForm.entries m).flatMap (fun e => [e.1, e.2]) = m.forms
  | .metadata, m => (Metadata.map? m).isSome
  | .lookupForm, l => (Lookup.symbol? l).isSome
  | .importForm, i => (Import.library? i).isSome
  | .defForm, d => d.symbol?.isSome ∧ (Def.body? d).isSome
  | .defnForm, d => d.symbol?.isSome ∧ d.arities ≠ []
  | .defmacroForm, d => d.symbol?.isSome ∧ d.arity?.isSome
  | .fnForm, f | .macroForm, f => f.arity?.isSome
  | .arity, a => (Arity.params? a).isSome ∧ (Arity.body? a).isSome
  | .condClause, c => (CondClause.test? c).isSome
  | .condFallback, c => (CondFallback.form? c).isSome
  | .letForm, t | .loopForm, t => t.bindings?.isSome
  | .ifLetForm, t => t.bindings?.isSome ∧ t.binding?.isSome ∧ (trueBranch? t).isSome
  | .whenLetForm, t | .dotimesForm, t => t.bindings?.isSome ∧ t.binding?.isSome
  | .binding, b => (Binding.boundName? b).isSome ∧ (Binding.value? b).isSome
  | .quoted, q => (Quoted.form? q).isSome
  | _, _ => True

/-- The nodes that the accessors of direct children give, in the order of the source. -/
@[simp] def parts : {s : Shape} → Typed s → List View
  | .source, t | .listForm, t | .vectorForm, t | .setForm, t | .mapForm, t => t.forms.map Form.view
  | .metadata, m => (Metadata.map? m).toList.map view
  | .lookupForm, l => (Lookup.account? l).toList.map Account.view ++ (Lookup.symbol? l).toList.map view
  | .importForm, i => (Import.library? i).toList.map view ++ (Import.alias? i).toList.map view
  | .defForm, d =>
    d.symbol?.toList.map view ++ d.metadata?.toList.map view ++ (Def.body? d).toList.map Form.view
  | .defnForm, d => d.symbol?.toList.map view ++ d.metadata?.toList.map view ++ d.arities.map view
  | .defmacroForm, d => d.symbol?.toList.map view ++ d.metadata?.toList.map view ++ d.arity?.toList.map view
  | .fnForm, f | .macroForm, f => f.arity?.toList.map view
  | .arity, a => (Arity.params? a).toList.map view ++ (Arity.body? a).toList.map Form.view
  | .paramList, ps => (ParamList.fixed ps).map view ++ (ParamList.optional ps).map view
  | .condForm, c => (Cond.clauses c).map view ++ (Cond.fallback? c).toList.map view
  | .condClause, c => (CondClause.test? c).toList.map Form.view ++ (CondClause.result? c).toList.map Form.view
  | .condFallback, c => (CondFallback.form? c).toList.map Form.view
  | .letForm, t | .loopForm, t | .whenLetForm, t | .dotimesForm, t =>
    t.bindings?.toList.map view ++ t.forms.map Form.view
  | .ifLetForm, t => t.bindings?.toList.map view ++ (trueBranch? t).toList.map Form.view ++
    (falseBranch? t).toList.map Form.view
  | .bindings, b => (BindingVector.bindings b).map view
  | .binding, b => (Binding.boundName? b).toList.map view ++ (Binding.value? b).toList.map Form.view
  | .quoted, q => (Quoted.form? q).toList.map Form.view
  | _, _ => []

/-- Nothing that the accessors should give is missing, and together they give every child node once. -/
def Complete {s : Shape} (t : Typed s) : Prop :=
  t.Whole ∧ t.parts = t.view.nodes

end Typed

/-! ## Casting several views -/

namespace Typed

variable {s : Shape}

@[simp] theorem filter_isNode_map (ts : List (Typed s)) : (ts.map view).filter View.isNode = ts.map view := by
  simp [List.filter_map, Function.comp_def, Typed.isNode]

@[simp] theorem filterMap_cast?_map (ts : List (Typed s)) : (ts.map view).filterMap (cast? s) = ts := by
  simp [List.filterMap_map]

theorem filterMap_cast?_apart (ts : List (Typed s)) (other : Shape)
    (apart : s.kinds.all (fun k => !other.accepts k) = true) : (ts.map view).filterMap (cast? other) = [] := by
  simp [List.filterMap_map, cast?_apart _ other apart]

theorem findSome?_cast?_apart (ts : List (Typed s)) (other : Shape)
    (apart : s.kinds.all (fun k => !other.accepts k) = true) : (ts.map view).findSome? (cast? other) = none := by
  simp [List.findSome?_map, Function.comp_def, cast?_apart _ other apart]

end Typed

namespace Form

@[simp] theorem filter_isNode_map (fs : List Form) : (fs.map view).filter View.isNode = fs.map view := by
  simp [List.filter_map, Function.comp_def, isNode_view]

@[simp] theorem filterMap_cast?_map (fs : List Form) : (fs.map view).filterMap cast? = fs := by
  simp [List.filterMap_map]

end Form

/-! ## Parts of productions -/

namespace Views.Follow

variable {vs : List View}

theorem account (follow : Follow Productions.account vs) : ∃ a : Account, vs = [a.view] := by
  cases follow.orElse with
  | inl addressed =>
    obtain ⟨l, rfl, -⟩ := node .literal rfl addressed
    exact ⟨.address l, rfl⟩
  | inr named =>
    obtain ⟨s, rfl⟩ := symbol named
    exact ⟨.symbol s, rfl⟩

theorem definition {body : Pattern (Kind × Text)} (follow : Follow (Productions.definition body) vs) :
    ∃ (name : Symbol) (metadata : Option Metadata) (us : List View),
      vs = name.view :: (metadata.toList.map Typed.view ++ us) ∧ Follow body us := by
  obtain ⟨_, _, rfl, named, rest⟩ := followedBy follow
  obtain ⟨_, us, rfl, annotated, defined⟩ := followedBy rest
  obtain ⟨name, rfl⟩ := symbol named
  obtain ⟨metadata, rfl⟩ := optionalOfKind .metadata rfl annotated
  exact ⟨name, metadata, us, rfl, defined⟩

theorem arityParts (follow : Follow Productions.arityParts vs) :
    ∃ (params : ParamList) (body : Form), vs = [params.view, body.view] := by
  obtain ⟨_, _, rfl, listed, valued⟩ := followedBy follow
  obtain ⟨params, rfl⟩ := hasKind .paramList rfl listed
  obtain ⟨body, rfl⟩ := form valued
  exact ⟨params, body, rfl⟩

/-- Clauses and perhaps a fallback, whichever of the three ways the clauses are given in. -/
theorem clauses (follow : Follow Productions.clauses vs) :
    ∃ (cs : List CondClause) (fallback : Option CondFallback),
      vs = cs.map Typed.view ++ fallback.toList.map Typed.view := by
  cases follow.orElse with
  | inl empty => exact ⟨[], none, nothing empty⟩
  | inr follow =>
    cases orElse follow with
    | inl test =>
      obtain ⟨v, rfl, children, sketched, -⟩ := single test
      obtain ⟨clause, rfl⟩ := exists_typed_of_sketch (s := .condClause) sketched rfl
      exact ⟨[clause], none, rfl⟩
    | inr pairs =>
      obtain ⟨_, _, rfl, ⟨-, clauses⟩, last⟩ := followedBy pairs
      obtain ⟨fallback, rfl⟩ := optionalOfKind .condFallback rfl last
      obtain ⟨cs, rfl⟩ := many Typed.view
        (fun _ pair => exists_typed_of_sketch (s := .condClause) pair.choose_spec.1 rfl) clauses
      exact ⟨cs, fallback, rfl⟩

/-- One binding in a binding vector. -/
theorem oneBinding (follow : Follow Productions.oneBinding vs) :
    ∃ (b : BindingVector) (binding : Binding), vs = [b.view] ∧ b.bindings = [binding] := by
  obtain ⟨b, rfl, inside⟩ := node .bindings rfl follow
  obtain ⟨_, nodes, bound⟩ := nodes_enclosed inside
  obtain ⟨binding, rfl⟩ := hasKind .binding rfl bound
  exact ⟨b, binding, rfl, by simp [BindingVector.bindings, View.childrenOf, nodes, binding.isNode]⟩

end Views.Follow

/-! ## What accessors give -/

theorem Account.isNode_view (a : Account) : a.view.isNode = true := by
  cases a with
  | address it | symbol it => exact it.isNode

/-- The account is a literal or a symbol, like the name. -/
theorem Account.isOperand_view (a : Account) : a.view.kind = .literal ∨ a.view.kind = .symbol := by
  cases a with
  | address it => exact .inl (it.kind_eq rfl)
  | symbol it => exact .inr (it.kind_eq rfl)

theorem LiteralKind.isSome_ofToken? {kind : Kind} (literal : kind.isLiteralToken = true) :
    (ofToken? kind).isSome = true := by
  cases kind <;> first | rfl | contradiction

theorem flatMap_pairs {α : Type} (as : List α) (even : as.length % 2 = 0) :
    (pairs as).flatMap (fun e => [e.1, e.2]) = as := by
  fun_induction pairs as with
  | case1 a b rest ih =>
    simp only [List.length_cons] at even
    rw [List.flatMap_cons, ih (by omega)]
    rfl
  | case2 as notTwo =>
    match as, notTwo with
    | [], _ => rfl
    | [a], _ => simp at even
    | a :: b :: rest, notTwo => exact absurd rfl (notTwo a b rest)

namespace Typed

variable {s : Shape} {t : Typed s}

theorem forms_eq {fs : List Form} (nodes : t.view.nodes = fs.map Form.view) : t.forms = fs := by
  rw [Typed.forms, View.forms, nodes, Form.filterMap_cast?_map]

/-- The first of the child nodes is the name, if it is a symbol. -/
theorem symbol?_eq {name : Symbol} {rest : List View} (nodes : t.view.nodes = name.view :: rest) :
    t.symbol? = some name := by
  simp [Typed.symbol?, View.child?, nodes]

theorem metadata?_eq {name : Symbol} {metadata : Option Metadata} {rest : List View}
    (nodes : t.view.nodes = name.view :: (metadata.toList.map view ++ rest))
    (noMore : rest.findSome? (cast? .metadata) = none) : t.metadata? = metadata := by
  have notName : cast? .metadata name.view = none := cast?_apart name .metadata rfl
  cases metadata with
  | none => simp [Typed.metadata?, View.child?, nodes, notName, noMore]
  | some m => simp [Typed.metadata?, View.child?, nodes, notName]

theorem bindings?_eq {b : BindingVector} {rest : List View} (nodes : t.view.nodes = b.view :: rest) :
    t.bindings? = some b := by
  simp [Typed.bindings?, View.child?, nodes]

/-- The forms after a binding vector. -/
theorem forms_of_bound {b : BindingVector} {fs : List Form} (nodes : t.view.nodes = b.view :: fs.map Form.view) :
    t.forms = fs := by
  have notForm : Form.cast? b.view = none := Form.cast?_apart b rfl
  rw [Typed.forms, View.forms, nodes, List.filterMap_cons_none notForm, Form.filterMap_cast?_map]

end Typed

/-! ## Shapes one by one -/

namespace Typed

open Views

theorem complete_of_token {s : Shape} {t : Typed s}
    (follow : Follow (Productions.tokenIn Kind.isSymbolToken) t.view.children) :
    t.view.symbolToken?.isSome = true ∧ t.view.nodes = [] := by
  obtain ⟨l, children, isSymbol⟩ := Follow.tokenIn follow
  simp [View.symbolToken?, View.tokens, View.nodes, children, isSymbol]

theorem complete_literal (l : Literal) (follow : Follow (Productions.production .literal) l.view.children) :
    l.Complete := by
  obtain ⟨leaf, children, isLiteral⟩ := Follow.tokenIn follow
  have token : l.token? = some leaf := by simp [Literal.token?, View.tokens, children, isLiteral]
  have whole : (Literal.kind? l).isSome = true := by
    rw [Literal.kind?, token]
    exact LiteralKind.isSome_ofToken? isLiteral
  exact ⟨whole, by simp [parts, View.nodes, children]⟩

theorem complete_source (t : Source) (follow : Follow (Productions.production .source) t.view.children) :
    t.Complete := by
  obtain ⟨_, _, children, listed, ending⟩ := Follow.followedBy follow
  obtain ⟨fs, rfl⟩ := Follow.forms listed
  obtain ⟨last, rfl, -⟩ := Follow.token ending
  have nodes : t.view.nodes = fs.map Form.view := by simp [View.nodes, children]
  exact ⟨trivial, by rw [parts, forms_eq nodes, nodes]⟩

/-- The forms between two delimiters. -/
theorem exists_forms {s : Shape} {t : Typed s} {opener closer : Kind}
    (follow : Follow (Productions.enclosed opener closer Productions.forms) t.view.children) :
    t.forms.map Form.view = t.view.nodes := by
  obtain ⟨_, nodes, listed⟩ := Follow.nodes_enclosed follow
  obtain ⟨fs, rfl⟩ := Follow.forms listed
  rw [Form.filter_isNode_map] at nodes
  rw [forms_eq nodes, nodes]

theorem complete_mapForm (m : MapForm) (follow : Follow (Productions.production .mapForm) m.view.children) :
    m.Complete := by
  obtain ⟨_, nodes, even, listed⟩ := Follow.nodes_enclosed follow
  obtain ⟨fs, rfl⟩ := Follow.forms listed
  rw [Form.filter_isNode_map] at nodes
  rw [List.length_map, List.length_map] at even
  have forms := forms_eq nodes
  have entries : (MapForm.entries m).flatMap (fun e => [e.1, e.2]) = m.forms := by
    rw [MapForm.entries, forms, flatMap_pairs fs even]
  exact ⟨entries, by rw [parts, forms, nodes]⟩

theorem complete_metadata (m : Metadata) (follow : Follow (Productions.production .metadata) m.view.children) :
    m.Complete := by
  obtain ⟨_, _, children, marked, mapped⟩ := Follow.followedBy follow
  obtain ⟨caret, rfl, -⟩ := Follow.token marked
  obtain ⟨map, rfl⟩ := Follow.hasKind .mapForm rfl mapped
  have nodes : m.view.nodes = [map.view] := by simp [View.nodes, children, map.isNode]
  have map? : Metadata.map? m = some map := by simp [Metadata.map?, View.child?, nodes]
  exact ⟨by simp [Whole, map?], by simp [parts, map?, nodes]⟩

theorem complete_defForm (d : Def) (follow : Follow (Productions.production .defForm) d.view.children) :
    d.Complete := by
  obtain ⟨_, nodes, body⟩ := Follow.nodes_special follow
  obtain ⟨name, metadata, _, rfl, valued⟩ := Follow.definition body
  obtain ⟨value, rfl⟩ := Follow.form valued
  have nodes : d.view.nodes = name.view :: (metadata.toList.map view ++ [value.view]) := by
    simpa [name.isNode, value.isNode_view] using nodes
  have noMore : [value.view].findSome? (cast? .metadata) = none := by
    rw [List.findSome?_singleton, value.typed_cast?_apart .metadata rfl]
  -- The name is a form as well, so the value is the second form, with metadata between them or not.
  have forms : d.forms = [.symbol name, value] := by
    cases metadata with
    | none => simp [Typed.forms, View.forms, nodes]
    | some m => simp [Typed.forms, View.forms, nodes, Form.cast?_apart m rfl]
  have body? : Def.body? d = some value := by rw [Def.body?, forms]; rfl
  refine ⟨⟨by simp [symbol?_eq nodes], by simp [body?]⟩, ?_⟩
  simp [parts, symbol?_eq nodes, metadata?_eq nodes noMore, body?, nodes]

/-- The arities of a function are all bare or all in parentheses; either way there is one. -/
theorem exists_arities {vs : List View}
    (follow : Follow (Productions.bareArity.orElse (.some Productions.IsGroupedArity)) vs) :
    ∃ arities : List Arity, vs = arities.map view ∧ arities ≠ [] := by
  cases follow.orElse with
  | inl bare =>
    obtain ⟨arity, rfl, -⟩ := Follow.node .arity rfl bare
    exact ⟨[arity], rfl, by simp⟩
  | inr grouped =>
    obtain ⟨nonempty, each⟩ := grouped
    obtain ⟨arities, rfl⟩ := Follow.many view
      (fun _ group => exists_typed_of_sketch (s := .arity) group.choose_spec.1 rfl) each
    exact ⟨arities, rfl, by simpa using nonempty⟩

theorem complete_defnForm (d : Defn) (follow : Follow (Productions.production .defnForm) d.view.children) :
    d.Complete := by
  obtain ⟨_, nodes, body⟩ := Follow.nodes_special follow
  obtain ⟨name, metadata, _, rfl, defined⟩ := Follow.definition body
  obtain ⟨arities, rfl, nonempty⟩ := exists_arities defined
  have nodes : d.view.nodes = name.view :: (metadata.toList.map view ++ arities.map view) := by
    simpa [name.isNode] using nodes
  have metadata? : d.metadata? = metadata := metadata?_eq nodes (findSome?_cast?_apart arities .metadata rfl)
  have arities? : d.arities = arities := by
    simp [Typed.arities, View.childrenOf, nodes, cast?_apart name .arity rfl,
      filterMap_cast?_apart metadata.toList .arity rfl]
  exact ⟨⟨by simp [symbol?_eq nodes], by rw [arities?]; exact nonempty⟩,
    by simp [parts, symbol?_eq nodes, metadata?, arities?, nodes]⟩

theorem complete_defmacroForm (d : Typed .defmacroForm)
    (follow : Follow (Productions.production .defmacroForm) d.view.children) : d.Complete := by
  obtain ⟨_, nodes, body⟩ := Follow.nodes_special follow
  obtain ⟨name, metadata, _, rfl, defined⟩ := Follow.definition body
  obtain ⟨arity, rfl, -⟩ := Follow.node .arity rfl defined
  have nodes : d.view.nodes = name.view :: (metadata.toList.map view ++ [arity.view]) := by
    simpa [name.isNode, arity.isNode] using nodes
  have metadata? : d.metadata? = metadata := metadata?_eq nodes (findSome?_cast?_apart [arity] .metadata rfl)
  have arity? : d.arity? = some arity := by
    simp [Typed.arity?, View.child?, nodes, cast?_apart name .arity rfl,
      findSome?_cast?_apart metadata.toList .arity rfl]
  exact ⟨⟨by simp [symbol?_eq nodes], by simp [arity?]⟩,
    by simp [parts, symbol?_eq nodes, metadata?, arity?, nodes]⟩

/-- A function without a name, or a macro without one. -/
theorem arity?_of_bare {s : Shape} {t : Typed s} {head : Kind}
    (follow : Follow (Productions.special head Productions.bareArity) t.view.children) :
    t.arity?.isSome = true ∧ t.arity?.toList.map view = t.view.nodes := by
  obtain ⟨_, nodes, defined⟩ := Follow.nodes_special follow
  obtain ⟨arity, rfl, -⟩ := Follow.node .arity rfl defined
  have nodes : t.view.nodes = [arity.view] := by simpa [arity.isNode] using nodes
  have arity? : t.arity? = some arity := by simp [Typed.arity?, View.child?, nodes]
  exact ⟨by simp [arity?], by simp [arity?, nodes]⟩

theorem complete_arity (a : Arity) (follow : Follow (Productions.production .arity) a.view.children) :
    a.Complete := by
  -- Parentheses around the arity are no nodes.
  have nodes : ∃ (params : ParamList) (body : Form), a.view.nodes = [params.view, body.view] := by
    cases follow.orElse with
    | inl bare =>
      obtain ⟨params, body, children⟩ := Follow.arityParts bare
      exact ⟨params, body, by simp [View.nodes, children, params.isNode, body.isNode_view]⟩
    | inr grouped =>
      obtain ⟨_, nodes, inside⟩ := Follow.nodes_enclosed grouped
      obtain ⟨params, body, rfl⟩ := Follow.arityParts inside
      exact ⟨params, body, by simpa [params.isNode, body.isNode_view] using nodes⟩
  obtain ⟨params, body, nodes⟩ := nodes
  have params? : Arity.params? a = some params := by simp [Arity.params?, View.child?, nodes]
  have body? : Arity.body? a = some body := by
    simp [Arity.body?, Typed.forms, View.forms, nodes, Form.cast?_apart params rfl]
  exact ⟨⟨by simp [params?], by simp [body?]⟩, by simp [parts, params?, body?, nodes]⟩

theorem complete_paramList (ps : ParamList)
    (follow : Follow (Productions.production .paramList) ps.view.children) : ps.Complete := by
  obtain ⟨_, nodes, inside⟩ := Follow.nodes_enclosed follow
  obtain ⟨_, _, rfl, required, rest⟩ := Follow.followedBy inside
  obtain ⟨fixed, rfl⟩ := Follow.manyOfKind .fixedParam rfl required
  have nodes : ∃ optional : List (Typed .optionalParam),
      ps.view.nodes = fixed.map view ++ optional.map view := by
    cases Follow.optional rest with
    | inl absent => exact ⟨[], by simpa [absent] using nodes⟩
    | inr present =>
      obtain ⟨_, _, rfl, marked, -, more⟩ := Follow.followedBy present
      obtain ⟨amp, rfl, -⟩ := Follow.token marked
      obtain ⟨optional, rfl⟩ := Follow.manyOfKind .optionalParam rfl more
      exact ⟨optional, by simpa using nodes⟩
  obtain ⟨optional, nodes⟩ := nodes
  have fixed? : ParamList.fixed ps = fixed := by
    simp [ParamList.fixed, View.childrenOf, nodes, filterMap_cast?_apart optional .fixedParam rfl]
  have optional? : ParamList.optional ps = optional := by
    simp [ParamList.optional, View.childrenOf, nodes, filterMap_cast?_apart fixed .optionalParam rfl]
  exact ⟨trivial, by rw [parts, fixed?, optional?, nodes]⟩

section Conditions

variable {c : Cond} {clauses : List CondClause} {fallback : Option CondFallback}

theorem clauses_eq (nodes : c.view.nodes = clauses.map view ++ fallback.toList.map view) :
    Cond.clauses c = clauses := by
  simp [Cond.clauses, View.childrenOf, nodes, filterMap_cast?_apart fallback.toList .condClause rfl]

theorem fallback?_eq (nodes : c.view.nodes = clauses.map view ++ fallback.toList.map view) :
    Cond.fallback? c = fallback := by
  cases fallback <;>
    simp [Cond.fallback?, View.child?, nodes, findSome?_cast?_apart clauses .condFallback rfl]

end Conditions

theorem complete_condForm (c : Cond) (follow : Follow (Productions.production .condForm) c.view.children) :
    c.Complete := by
  obtain ⟨_, nodes, inside⟩ := Follow.nodes_special follow
  obtain ⟨clauses, fallback, rfl⟩ := Follow.clauses inside
  have nodes : c.view.nodes = clauses.map view ++ fallback.toList.map view := by simpa using nodes
  exact ⟨trivial, by rw [parts, clauses_eq nodes, fallback?_eq nodes, nodes]⟩

theorem complete_condClause (c : CondClause)
    (follow : Follow (Productions.production .condClause) c.view.children) : c.Complete := by
  obtain ⟨_, _, children, tested, rest⟩ := Follow.followedBy follow
  obtain ⟨test, rfl⟩ := Follow.form tested
  obtain ⟨result, rfl⟩ := Follow.optionalForm rest
  have nodes : c.view.nodes = (test :: result.toList).map Form.view := by
    simp [View.nodes, children, test.isNode_view]
  have forms := forms_eq nodes
  have test? : CondClause.test? c = some test := by rw [CondClause.test?, forms]; rfl
  have result? : CondClause.result? c = result := by rw [CondClause.result?, forms]; cases result <;> rfl
  exact ⟨by simp [Whole, test?], by simp [parts, test?, result?, nodes]⟩

theorem complete_condFallback (c : CondFallback)
    (follow : Follow (Productions.production .condFallback) c.view.children) : c.Complete := by
  obtain ⟨f, children⟩ := Follow.form follow
  have nodes : c.view.nodes = [f].map Form.view := by simp [View.nodes, children, f.isNode_view]
  have form? : CondFallback.form? c = some f := by rw [CondFallback.form?, forms_eq nodes]; rfl
  exact ⟨by simp [Whole, form?], by simp [parts, form?, nodes]⟩

/-- A binding vector and forms after it. -/
theorem complete_of_bound {s : Shape} {t : Typed s} {head : Kind} {vector : Pattern (Kind × Text)}
    (follow : Follow (Productions.special head ((Productions.bindings vector).followedBy Productions.forms))
      t.view.children) :
    t.bindings?.isSome = true ∧ t.bindings?.toList.map view ++ t.forms.map Form.view = t.view.nodes := by
  obtain ⟨_, nodes, inside⟩ := Follow.nodes_special follow
  obtain ⟨_, _, rfl, bound, listed⟩ := Follow.followedBy inside
  obtain ⟨b, rfl, -⟩ := Follow.node .bindings rfl bound
  obtain ⟨fs, rfl⟩ := Follow.forms listed
  have nodes : t.view.nodes = b.view :: fs.map Form.view := by simpa [b.isNode] using nodes
  exact ⟨by simp [bindings?_eq nodes], by simp [bindings?_eq nodes, forms_of_bound nodes, nodes]⟩

/-- Where the binding vector holds one binding, that binding is there. -/
theorem binding?_of_oneBinding {s : Shape} {t : Typed s} {head : Kind} {rest : Pattern (Kind × Text)}
    (follow : Follow (Productions.special head (Productions.oneBinding.followedBy rest)) t.view.children) :
    t.binding?.isSome = true := by
  obtain ⟨_, nodes, inside⟩ := Follow.nodes_special follow
  obtain ⟨_, ws, rfl, bound, -⟩ := Follow.followedBy inside
  obtain ⟨b, binding, rfl, only⟩ := Follow.oneBinding bound
  have nodes : t.view.nodes = b.view :: ws.filter View.isNode := by simpa [b.isNode] using nodes
  simp [Typed.binding?, bindings?_eq nodes, only]

theorem complete_ifLetForm (t : Typed .ifLetForm)
    (follow : Follow (Productions.production .ifLetForm) t.view.children) : t.Complete := by
  have binding? := binding?_of_oneBinding follow
  obtain ⟨_, nodes, inside⟩ := Follow.nodes_special follow
  obtain ⟨_, _, rfl, bound, branches⟩ := Follow.followedBy inside
  obtain ⟨_, _, rfl, holds, fails⟩ := Follow.followedBy branches
  obtain ⟨b, -, rfl, -⟩ := Follow.oneBinding bound
  obtain ⟨yes, rfl⟩ := Follow.form holds
  obtain ⟨no, rfl⟩ := Follow.optionalForm fails
  have nodes : t.view.nodes = b.view :: (yes :: no.toList).map Form.view := by
    simpa [b.isNode, yes.isNode_view] using nodes
  have forms := forms_of_bound nodes
  have true? : trueBranch? t = some yes := by rw [trueBranch?, forms]; rfl
  have false? : falseBranch? t = no := by rw [falseBranch?, forms]; cases no <;> rfl
  exact ⟨⟨by simp [bindings?_eq nodes], binding?, by simp [true?]⟩,
    by simp [parts, bindings?_eq nodes, true?, false?, nodes]⟩

theorem complete_bindings (b : BindingVector)
    (follow : Follow (Productions.production .bindings) b.view.children) : b.Complete := by
  obtain ⟨_, nodes, inside⟩ := Follow.nodes_enclosed follow
  obtain ⟨bindings, rfl⟩ := Follow.manyOfKind .binding rfl inside
  rw [filter_isNode_map] at nodes
  have bindings? : b.bindings = bindings := by simp [BindingVector.bindings, View.childrenOf, nodes]
  exact ⟨trivial, by rw [parts, bindings?, nodes]⟩

theorem complete_binding (b : Binding) (follow : Follow (Productions.production .binding) b.view.children) :
    b.Complete := by
  obtain ⟨_, _, children, named, valued⟩ := Follow.followedBy follow
  obtain ⟨name, rfl⟩ := Follow.symbol named
  obtain ⟨value, rfl⟩ := Follow.form valued
  have nodes : b.view.nodes = [Form.symbol name, value].map Form.view := by
    simp [View.nodes, children, name.isNode, value.isNode_view]
  have forms := forms_eq nodes
  have name? : Binding.boundName? b = some name := by rw [Binding.boundName?, forms]; rfl
  have value? : Binding.value? b = some value := by rw [Binding.value?, forms]; rfl
  exact ⟨⟨by simp [name?], by simp [value?]⟩, by simp [parts, name?, value?, nodes]⟩

theorem complete_quoted (q : Quoted) {mark head : Kind}
    (follow : Follow (Productions.quote mark head) q.view.children) : q.Complete := by
  -- Both styles have one node, the form.
  have nodes : ∃ f : Form, q.view.nodes = [f].map Form.view := by
    cases follow.orElse with
    | inl marked =>
      obtain ⟨_, _, children, mark, quoted⟩ := Follow.followedBy marked
      obtain ⟨l, rfl, -⟩ := Follow.token mark
      obtain ⟨f, rfl⟩ := Follow.form quoted
      exact ⟨f, by simp [View.nodes, children, f.isNode_view]⟩
    | inr headed =>
      obtain ⟨_, nodes, quoted⟩ := Follow.nodes_special headed
      obtain ⟨f, rfl⟩ := Follow.form quoted
      exact ⟨f, by simpa [f.isNode_view] using nodes⟩
  obtain ⟨f, nodes⟩ := nodes
  have form? : Quoted.form? q = some f := by rw [Quoted.form?, forms_eq nodes]; rfl
  exact ⟨by simp [Whole, form?], by simp [parts, form?, nodes]⟩

section Lookups

variable {l : Lookup} {account : Option Account} {name : Symbol}

theorem operands_eq (nodes : l.view.nodes = account.toList.map Account.view ++ [name.view]) :
    Lookup.operands l = account.toList.map Account.view ++ [name.view] := by
  rw [Lookup.operands, nodes]
  cases account <;> simp [name.kind_eq rfl, Account.isOperand_view]

theorem account?_eq (nodes : l.view.nodes = account.toList.map Account.view ++ [name.view]) :
    Lookup.account? l = account := by
  match account with
  | none => simp [Lookup.account?, operands_eq nodes]
  | some (.address it) => simp [Lookup.account?, operands_eq nodes, Account.view]
  | some (.symbol it) => simp [Lookup.account?, operands_eq nodes, Account.view, cast?_apart it .literal rfl]

theorem lookupName?_eq (nodes : l.view.nodes = account.toList.map Account.view ++ [name.view]) :
    Lookup.symbol? l = some name := by
  simp [Lookup.symbol?, operands_eq nodes]

end Lookups

theorem complete_lookupForm (l : Lookup)
    (follow : Follow (Productions.production .lookupForm) l.view.children) : l.Complete := by
  have nodes : ∃ (account : Option Account) (name : Symbol),
      l.view.nodes = account.toList.map Account.view ++ [name.view] := by
    cases follow.orElse with
    | inl infixed =>
      obtain ⟨_, _, children, inAccount, rest⟩ := Follow.followedBy infixed
      obtain ⟨_, _, rfl, slash, named⟩ := Follow.followedBy rest
      obtain ⟨account, rfl⟩ := Follow.account inAccount
      obtain ⟨leaf, rfl, -⟩ := Follow.token slash
      obtain ⟨name, rfl⟩ := Follow.symbol named
      exact ⟨some account, name, by simp [View.nodes, children, account.isNode_view, name.isNode]⟩
    | inr call =>
      obtain ⟨_, nodes, inside⟩ := Follow.nodes_special call
      obtain ⟨_, _, rfl, inAccount, named⟩ := Follow.followedBy inside
      obtain ⟨name, rfl⟩ := Follow.symbol named
      cases Follow.optional inAccount with
      | inl absent => exact ⟨none, name, by simpa [absent, name.isNode] using nodes⟩
      | inr present =>
        obtain ⟨account, rfl⟩ := Follow.account present
        exact ⟨some account, name, by simpa [account.isNode_view, name.isNode] using nodes⟩
  obtain ⟨account, name, nodes⟩ := nodes
  have account? := account?_eq nodes
  have symbol? := lookupName?_eq nodes
  exact ⟨by simp [Whole, symbol?], by simp [parts, account?, symbol?, nodes]⟩

/-- The children of an import, from the opening parenthesis to the closing one. -/
theorem exists_import {vs : List View} (follow : Follow (Productions.production .importForm) vs) :
    ∃ (opener head closer : LeafView) (name : Symbol) (renamed : List View),
      vs = opener.view :: head.view :: name.view :: (renamed ++ [closer.view]) ∧
      opener.kind = .leftParen ∧ head.kind = .importHead ∧ closer.kind = .rightParen ∧
      (renamed = [] ∨ ∃ (mark : LeafView) (other : Symbol),
        mark.kind = .asMark ∧ renamed = [mark.view, other.view]) := by
  obtain ⟨opener, closer, _, rfl, openerKind, closerKind, inside⟩ := Follow.enclosed follow
  obtain ⟨_, _, rfl, headed, body⟩ := Follow.followedBy inside
  obtain ⟨_, renamed, rfl, named, rest⟩ := Follow.followedBy body
  obtain ⟨head, rfl, headKind⟩ := Follow.token headed
  obtain ⟨name, rfl⟩ := Follow.symbol named
  refine ⟨opener, head, closer, name, renamed, by simp, openerKind, headKind, closerKind, ?_⟩
  cases Follow.optional rest with
  | inl absent => exact .inl absent
  | inr present =>
    obtain ⟨_, _, rfl, marked, renamed⟩ := Follow.followedBy present
    obtain ⟨mark, rfl, markKind⟩ := Follow.token marked
    obtain ⟨other, rfl⟩ := Follow.symbol renamed
    exact .inr ⟨mark, other, markKind, rfl⟩

theorem complete_importForm (i : Import)
    (follow : Follow (Productions.production .importForm) i.view.children) : i.Complete := by
  obtain ⟨opener, head, closer, name, renamed, children, openerKind, headKind, closerKind, alternatives⟩ :=
    exists_import follow
  have nameKind : name.view.kind = .symbol := name.kind_eq rfl
  -- The library stands before the mark and the alias after it, so that neither is taken for the other.
  cases alternatives with
  | inl absent =>
    have library? : Import.library? i = some name := by
      simp [Import.library?, children, absent, Import.isBeforeAlias, openerKind, headKind, closerKind, nameKind]
    have alias? : Import.alias? i = none := by
      simp [Import.alias?, children, absent, Import.isBeforeAlias, openerKind, headKind, closerKind, nameKind]
    have nodes : i.view.nodes = [name.view] := by simp [View.nodes, children, absent, name.isNode]
    exact ⟨by simp [Whole, library?], by simp [parts, library?, alias?, nodes]⟩
  | inr present =>
    obtain ⟨mark, other, markKind, rfl⟩ := present
    have library? : Import.library? i = some name := by
      simp [Import.library?, children, Import.isBeforeAlias, openerKind, headKind, nameKind, markKind]
    have alias? : Import.alias? i = some other := by
      simp [Import.alias?, children, Import.isBeforeAlias, openerKind, headKind, nameKind, markKind]
    have nodes : i.view.nodes = [name.view, other.view] := by
      simp [View.nodes, children, name.isNode, other.isNode]
    exact ⟨by simp [Whole, library?], by simp [parts, library?, alias?, nodes]⟩

/-! ## All shapes -/

/-- A typed view whose children follow the production of its kind is complete. -/
theorem complete_of_follow {s : Shape} (t : Typed s) (ownShape : s ≠ .form) (notError : t.view.kind ≠ .error)
    (follow : Follow (Productions.production t.view.kind) t.view.children) : t.Complete := by
  cases s with
  | source => exact complete_source t (t.kind_eq rfl ▸ follow)
  | literal => exact complete_literal t (t.kind_eq rfl ▸ follow)
  | symbol | fixedParam | optionalParam =>
    rw [t.kind_eq rfl] at follow
    obtain ⟨token?, nodes⟩ := complete_of_token follow
    exact ⟨token?, nodes.symm⟩
  | listForm | vectorForm | setForm =>
    rw [t.kind_eq rfl] at follow
    exact ⟨trivial, exists_forms follow⟩
  | mapForm => exact complete_mapForm t (t.kind_eq rfl ▸ follow)
  | metadata => exact complete_metadata t (t.kind_eq rfl ▸ follow)
  | lookupForm => exact complete_lookupForm t (t.kind_eq rfl ▸ follow)
  | importForm => exact complete_importForm t (t.kind_eq rfl ▸ follow)
  | defForm => exact complete_defForm t (t.kind_eq rfl ▸ follow)
  | defnForm => exact complete_defnForm t (t.kind_eq rfl ▸ follow)
  | defmacroForm => exact complete_defmacroForm t (t.kind_eq rfl ▸ follow)
  | fnForm | macroForm =>
    rw [t.kind_eq rfl] at follow
    exact arity?_of_bare follow
  | arity => exact complete_arity t (t.kind_eq rfl ▸ follow)
  | paramList => exact complete_paramList t (t.kind_eq rfl ▸ follow)
  | condForm => exact complete_condForm t (t.kind_eq rfl ▸ follow)
  | condClause => exact complete_condClause t (t.kind_eq rfl ▸ follow)
  | condFallback => exact complete_condFallback t (t.kind_eq rfl ▸ follow)
  | letForm | loopForm =>
    rw [t.kind_eq rfl] at follow
    exact complete_of_bound follow
  | ifLetForm => exact complete_ifLetForm t (t.kind_eq rfl ▸ follow)
  | whenLetForm | dotimesForm =>
    rw [t.kind_eq rfl] at follow
    obtain ⟨bindings?, nodes⟩ := complete_of_bound follow
    exact ⟨⟨bindings?, binding?_of_oneBinding follow⟩, nodes⟩
  | bindings => exact complete_bindings t (t.kind_eq rfl ▸ follow)
  | binding => exact complete_binding t (t.kind_eq rfl ▸ follow)
  | error => exact absurd (t.kind_eq rfl) notError
  | quoted =>
    have accepted := t.accepted
    simp only [Shape.accepts, Shape.kinds, List.contains_cons, List.contains_nil, Bool.or_false, Bool.or_eq_true,
      beq_iff_eq] at accepted
    rcases accepted with kindEq | kindEq | kindEq
    all_goals
      rw [kindEq] at follow
      exact complete_quoted t follow
  | form => contradiction

end Typed

/-- In a tree without diagnostics, every typed view of a node has what the grammar asks for, and the nodes that its
accessors give are the child nodes of that node, each once and in order. A node that may stand on its own is a
form, and the typed view that the form holds is complete as well. -/
theorem typed_views_complete {text : Text} {r : Registry} {result : Parse}
    (parsed : parse text r = .ok result) (ok : result.isOk = true) :
    (∀ (s : Shape) (t : Typed s), s ≠ .form → t.view ∈ result.root.descendants →
      t.Whole ∧ t.parts = t.view.nodes) ∧
    (∀ v ∈ result.root.descendants, Shape.form.accepts v.kind = true →
      ∃ f, Form.cast? v = some f ∧ f.view = v ∧ f.typed.Whole ∧ f.typed.parts = v.nodes) := by
  have complete : ∀ (s : Shape) (t : Typed s), s ≠ .form → t.view ∈ result.root.descendants → t.Complete := by
    intro s t ownShape below
    obtain ⟨notError, follow⟩ := Views.follow_production parsed ok below
    exact t.complete_of_follow ownShape notError follow
  refine ⟨complete, fun v below accepted => ?_⟩
  obtain ⟨f, rfl⟩ := Form.exists_of_accepts (View.isNode_of_mem_descendants below) accepted
  refine ⟨f, f.cast?_view, rfl, ?_⟩
  rw [← f.view_typed] at below ⊢
  exact complete f.shape f.typed f.shape_ne_form below

/-- Where names, values, aliases and accounts are all symbols, none is taken for another. -/
theorem typed_views_complete_symbols :
    ∃ result, parse "(def a b) (import c :as d) (lookup e f) g/h".toList Registry.empty = .ok result ∧
      result.isOk = true ∧
      (∀ (s : Shape) (t : Typed s), s ≠ .form → t.view ∈ result.root.descendants →
        t.Whole ∧ t.parts = t.view.nodes) ∧
      (∀ v ∈ result.root.descendants, Shape.form.accepts v.kind = true →
        ∃ f, Form.cast? v = some f ∧ f.view = v ∧ f.typed.Whole ∧ f.typed.parts = v.nodes) := by
  have ok : (parse "(def a b) (import c :as d) (lookup e f) g/h".toList Registry.empty).toOption.any
      Parse.isOk = true := by decide +kernel
  obtain ⟨result, parsed, ok⟩ := exists_parse_of_any ok
  exact ⟨result, parsed, ok, typed_views_complete parsed ok⟩

end LispSyntax
