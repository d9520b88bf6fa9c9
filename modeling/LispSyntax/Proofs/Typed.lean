import LispSyntax.Ast.Form
import LispSyntax.Proofs.Correspondence
import LispSyntax.Proofs.Soundness

/-! # Views that follow a pattern

The grammar says of which sketches the children of a node are made, and the accessors of typed views look for
children by their kind. This module leads from the one to the other: `Views.Follow pattern vs` says that the views
follow a pattern of the grammar, and each pattern is inverted to the typed views that it is made of. What an
accessor gives is then found by casting typed views, whose shapes are known, to the shape that is asked for.
-/

namespace LispSyntax

/-! ## Casts -/

namespace Typed

variable {s : Shape}

@[simp] theorem cast?_view (t : Typed s) : cast? s t.view = some t := by
  rw [cast?, dif_pos ⟨t.isNode, t.accepted⟩]

theorem cast?_eq_none {v : View} (refused : s.accepts v.kind = false) : cast? s v = none := by
  simp [cast?, refused]

theorem cast?_of_leaf {v : View} (isLeaf : v.isNode = false) : cast? s v = none := by
  simp [cast?, isLeaf]

/-- A typed view is not of a shape that has no kind with its own in common. -/
theorem cast?_apart (t : Typed s) (other : Shape) (apart : s.kinds.all (fun k => !other.accepts k) = true) :
    cast? other t.view = none := by
  apply cast?_eq_none
  have refused := List.all_eq_true.mp apart t.view.kind (by simpa [Shape.accepts] using t.accepted)
  simpa using refused

theorem kind_eq {kind : Kind} (t : Typed s) (only : s.kinds = [kind]) : t.view.kind = kind := by
  have accepted := t.accepted
  rw [Shape.accepts, only] at accepted
  simpa using accepted

theorem exists_of_kind {v : View} (isNode : v.isNode = true) (accepted : s.accepts v.kind = true) :
    ∃ t : Typed s, v = t.view :=
  ⟨⟨v, isNode, accepted⟩, rfl⟩

end Typed

namespace Form

def shape : Form → Shape
  | literal _ => .literal
  | symbol _ => .symbol
  | list _ => .listForm
  | vector _ => .vectorForm
  | set _ => .setForm
  | map _ => .mapForm
  | lookup _ => .lookupForm
  | importing _ => .importForm
  | defining _ => .defForm
  | defn _ => .defnForm
  | defmacroForm _ => .defmacroForm
  | fn _ => .fnForm
  | macroForm _ => .macroForm
  | cond _ => .condForm
  | letForm _ => .letForm
  | loop _ => .loopForm
  | ifLet _ => .ifLetForm
  | whenLet _ => .whenLetForm
  | dotimes _ => .dotimesForm
  | quoted _ => .quoted
  | error _ => .error

def typed : (f : Form) → Typed f.shape
  | literal it | symbol it | list it | vector it | set it | map it | lookup it | importing it
  | defining it | defn it | defmacroForm it | fn it | macroForm it | cond it | letForm it | loop it
  | ifLet it | whenLet it | dotimes it | quoted it | error it => it

theorem view_typed (f : Form) : f.typed.view = f.view := by
  cases f <;> rfl

/-- Every shape of a form has only kinds of forms. -/
theorem shape_within (f : Form) : f.shape.kinds.all Shape.form.accepts = true := by
  cases f <;> rfl

theorem shape_ne_form (f : Form) : f.shape ≠ .form := by
  cases f <;> exact nofun

theorem isNode_view (f : Form) : f.view.isNode = true := by
  rw [← f.view_typed]
  exact f.typed.isNode

theorem accepted_view (f : Form) : Shape.form.accepts f.view.kind = true := by
  have accepted := f.typed.accepted
  rw [view_typed] at accepted
  exact List.all_eq_true.mp f.shape_within _ (by simpa [Shape.accepts] using accepted)

/-- The view of a form as a typed view of the shape of all forms. -/
def asTyped (f : Form) : Typed .form :=
  ⟨f.view, f.isNode_view, f.accepted_view⟩

@[simp] theorem cast?_view (f : Form) : cast? f.view = some f := by
  cases f <;>
    simp (disch := decide) only [cast?, view, Typed.cast?_apart, Typed.cast?_view, Option.map_none, Option.map_some,
      Option.orElse_eq_orElse, Option.orElse_eq_or, Option.none_or, Option.some_or]

@[simp] theorem view_symbol (s : Symbol) : (symbol s).view = s.view := rfl

@[simp] theorem cast?_symbol (s : Symbol) : cast? s.view = some (.symbol s) :=
  cast?_view (.symbol s)

theorem exists_of_accepts {v : View} (isNode : v.isNode = true) (accepted : Shape.form.accepts v.kind = true) :
    ∃ f : Form, v = f.view := by
  cases kindEq : v.kind with
  | literal => exact ⟨.literal ⟨v, isNode, by rw [kindEq]; rfl⟩, rfl⟩
  | symbol => exact ⟨.symbol ⟨v, isNode, by rw [kindEq]; rfl⟩, rfl⟩
  | listForm => exact ⟨.list ⟨v, isNode, by rw [kindEq]; rfl⟩, rfl⟩
  | vectorForm => exact ⟨.vector ⟨v, isNode, by rw [kindEq]; rfl⟩, rfl⟩
  | setForm => exact ⟨.set ⟨v, isNode, by rw [kindEq]; rfl⟩, rfl⟩
  | mapForm => exact ⟨.map ⟨v, isNode, by rw [kindEq]; rfl⟩, rfl⟩
  | lookupForm => exact ⟨.lookup ⟨v, isNode, by rw [kindEq]; rfl⟩, rfl⟩
  | importForm => exact ⟨.importing ⟨v, isNode, by rw [kindEq]; rfl⟩, rfl⟩
  | defForm => exact ⟨.defining ⟨v, isNode, by rw [kindEq]; rfl⟩, rfl⟩
  | defnForm => exact ⟨.defn ⟨v, isNode, by rw [kindEq]; rfl⟩, rfl⟩
  | defmacroForm => exact ⟨.defmacroForm ⟨v, isNode, by rw [kindEq]; rfl⟩, rfl⟩
  | fnForm => exact ⟨.fn ⟨v, isNode, by rw [kindEq]; rfl⟩, rfl⟩
  | macroForm => exact ⟨.macroForm ⟨v, isNode, by rw [kindEq]; rfl⟩, rfl⟩
  | condForm => exact ⟨.cond ⟨v, isNode, by rw [kindEq]; rfl⟩, rfl⟩
  | letForm => exact ⟨.letForm ⟨v, isNode, by rw [kindEq]; rfl⟩, rfl⟩
  | loopForm => exact ⟨.loop ⟨v, isNode, by rw [kindEq]; rfl⟩, rfl⟩
  | ifLetForm => exact ⟨.ifLet ⟨v, isNode, by rw [kindEq]; rfl⟩, rfl⟩
  | whenLetForm => exact ⟨.whenLet ⟨v, isNode, by rw [kindEq]; rfl⟩, rfl⟩
  | dotimesForm => exact ⟨.dotimes ⟨v, isNode, by rw [kindEq]; rfl⟩, rfl⟩
  | quoteForm => exact ⟨.quoted ⟨v, isNode, by rw [kindEq]; rfl⟩, rfl⟩
  | quasiquoteForm => exact ⟨.quoted ⟨v, isNode, by rw [kindEq]; rfl⟩, rfl⟩
  | unquoteForm => exact ⟨.quoted ⟨v, isNode, by rw [kindEq]; rfl⟩, rfl⟩
  | error => exact ⟨.error ⟨v, isNode, by rw [kindEq]; rfl⟩, rfl⟩
  | _ =>
    rw [kindEq] at accepted
    contradiction

theorem cast?_eq_none {v : View} (refused : v.isNode = true → Shape.form.accepts v.kind = false) :
    cast? v = none := by
  have typed : ∀ s : Shape, s.kinds.all Shape.form.accepts = true → Typed.cast? s v = none := by
    intro s within
    rw [Typed.cast?, dif_neg]
    intro cast
    have accepted := List.all_eq_true.mp within v.kind (by simpa [Shape.accepts] using cast.2)
    exact absurd accepted (by simp [refused cast.1])
  simp (disch := decide) only [cast?, typed, Option.map_none, Option.orElse_eq_orElse, Option.orElse_eq_or,
    Option.or_none]

theorem cast?_apart {s : Shape} (t : Typed s) (apart : s.kinds.all (fun k => !Shape.form.accepts k) = true) :
    cast? t.view = none := by
  apply cast?_eq_none
  intro isNode
  have refused := List.all_eq_true.mp apart t.view.kind (by simpa [Shape.accepts] using t.accepted)
  simpa using refused

/-- A form is not of a shape that has no kind of form. -/
theorem typed_cast?_apart (f : Form) (s : Shape) (apart : Shape.form.kinds.all (fun k => !s.accepts k) = true) :
    Typed.cast? s f.view = none :=
  Typed.cast?_apart f.asTyped s apart

end Form

/-! ## Children that are leaves -/

namespace LeafView

def view (l : LeafView) : View :=
  ⟨.leaf l.leaf, l.offset⟩

@[simp] theorem isNode_view (l : LeafView) : l.view.isNode = false := rfl

@[simp] theorem kind_view (l : LeafView) : l.view.kind = l.kind := rfl

@[simp] theorem leaf?_view (l : LeafView) : l.view.leaf? = some l := rfl

@[simp] theorem cast?_view (l : LeafView) (s : Shape) : Typed.cast? s l.view = none :=
  Typed.cast?_of_leaf rfl

@[simp] theorem form_cast?_view (l : LeafView) : Form.cast? l.view = none :=
  Form.cast?_eq_none (by simp)

end LeafView

theorem View.isNode_of_mem_descendants {v w : View} (below : w ∈ v.descendants) : w.isNode = true := by
  obtain ⟨visit, -, entered⟩ := List.mem_filterMap.mp below
  cases visit with
  | enter e =>
    by_cases isNode : e.isNode = true
    · simp only [isNode, if_true, Option.some.injEq] at entered
      rw [← entered]
      exact isNode
    · simp [isNode] at entered
  | leave e => simp at entered

theorem View.map_sketch_placeAll (offset : Nat) (ts : List Tree) :
    (View.placeAll offset ts).map (fun v => v.tree.sketch) = Forest.sketch ts := by
  induction ts generalizing offset with
  | nil => rfl
  | cons t ts inductionHypothesis => rw [View.placeAll, List.map_cons, inductionHypothesis, Forest.sketch]

namespace Views

open Pattern Outline

/-- The trees of the views have sketches of the pattern. -/
def Follow (pattern : Pattern (Kind × Text)) (vs : List View) : Prop :=
  pattern (vs.map fun v => v.tree.sketch)

variable {vs : List View}

/-! ## Single views -/

theorem exists_leaf_of_sketch {v : View} {kind : Kind} {lexeme : Text}
    (sketched : v.tree.sketch = .leaf (kind, lexeme)) :
    ∃ l : LeafView, v = l.view ∧ l.kind = kind ∧ l.leaf.lexeme = lexeme := by
  cases v with
  | mk tree offset =>
    cases tree with
    | node k children => simp [Tree.sketch] at sketched
    | leaf l =>
      simp only [Tree.sketch, Outline.leaf.injEq, Prod.mk.injEq] at sketched
      exact ⟨⟨l, offset⟩, rfl, sketched.1, sketched.2⟩

theorem node_of_sketch {v : View} {kind : Kind} {children : List Sketch}
    (sketched : v.tree.sketch = .node kind children) :
    v.isNode = true ∧ v.kind = kind ∧ v.children.map (fun w => w.tree.sketch) = children := by
  cases v with
  | mk tree offset =>
    cases tree with
    | node k ts =>
      simp only [Tree.sketch, Outline.node.injEq] at sketched
      refine ⟨rfl, sketched.1, ?_⟩
      rw [← sketched.2]
      exact View.map_sketch_placeAll offset ts
    | leaf l => simp [Tree.sketch] at sketched

theorem exists_typed_of_sketch {s : Shape} {v : View} {kind : Kind} {children : List Sketch}
    (sketched : v.tree.sketch = .node kind children) (accepted : s.accepts kind = true) :
    ∃ t : Typed s, v = t.view := by
  obtain ⟨isNode, kindEq, -⟩ := node_of_sketch sketched
  exact Typed.exists_of_kind isNode (by rw [kindEq]; exact accepted)

theorem exists_form_of_isForm {v : View} (isForm : Productions.IsForm v.tree.sketch) :
    ∃ f : Form, v = f.view := by
  obtain ⟨kind, children, sketched, accepted, -⟩ := isForm
  obtain ⟨isNode, kindEq, -⟩ := node_of_sketch sketched
  exact Form.exists_of_accepts isNode (by rw [kindEq]; exact accepted)

/-! ## Patterns one by one -/

namespace Follow

theorem nothing (follow : Follow .nothing vs) : vs = [] :=
  List.map_eq_nil_iff.mp follow

theorem followedBy {first second : Pattern (Kind × Text)} (follow : Follow (first.followedBy second) vs) :
    ∃ us ws, vs = us ++ ws ∧ Follow first us ∧ Follow second ws := by
  obtain ⟨os, ps, eq, left, right⟩ := follow
  obtain ⟨us, ws, rfl, rfl, rfl⟩ := List.map_eq_append_iff.mp eq
  exact ⟨us, ws, rfl, left, right⟩

theorem orElse {left right : Pattern (Kind × Text)} (follow : Follow (left.orElse right) vs) :
    Follow left vs ∨ Follow right vs :=
  follow

theorem optional {pattern : Pattern (Kind × Text)} (follow : Follow pattern.optional vs) :
    vs = [] ∨ Follow pattern vs := by
  cases follow with
  | inl empty => exact .inl (nothing empty)
  | inr follow => exact .inr follow

theorem single {sort : Sketch → Prop} (follow : Follow (.single sort) vs) :
    ∃ v, vs = [v] ∧ sort v.tree.sketch := by
  obtain ⟨o, eq, good⟩ := follow
  obtain ⟨v, rfl, rfl⟩ := List.map_eq_singleton_iff.mp eq
  exact ⟨v, rfl, good⟩

/-- Views of a sort that all come from the values of a type come from a list of them. -/
theorem many {α : Type} (view : α → View) {sort : Sketch → Prop}
    (each : ∀ v : View, sort v.tree.sketch → ∃ a, v = view a) (follow : Follow (.many sort) vs) :
    ∃ as : List α, vs = as.map view := by
  induction vs with
  | nil => exact ⟨[], rfl⟩
  | cons v vs inductionHypothesis =>
    obtain ⟨a, rfl⟩ := each v (follow _ (by simp))
    obtain ⟨as, rfl⟩ := inductionHypothesis fun o member => follow o (by simp [member])
    exact ⟨a :: as, rfl⟩

theorem token {kind : Kind} (follow : Follow (Productions.token kind) vs) :
    ∃ l : LeafView, vs = [l.view] ∧ l.kind = kind := by
  obtain ⟨v, rfl, lexeme, sketched⟩ := single follow
  obtain ⟨l, rfl, kindEq, -⟩ := exists_leaf_of_sketch sketched
  exact ⟨l, rfl, kindEq⟩

theorem tokenIn {within : Kind → Bool} (follow : Follow (Productions.tokenIn within) vs) :
    ∃ l : LeafView, vs = [l.view] ∧ within l.kind = true := by
  obtain ⟨v, rfl, kind, lexeme, sketched, inClass⟩ := single follow
  obtain ⟨l, rfl, kindEq, -⟩ := exists_leaf_of_sketch sketched
  exact ⟨l, rfl, by rw [kindEq]; exact inClass⟩

theorem hasKind (s : Shape) {kind : Kind} (accepted : s.accepts kind = true)
    (follow : Follow (.single (HasKind kind)) vs) : ∃ t : Typed s, vs = [t.view] := by
  obtain ⟨v, rfl, children, sketched⟩ := single follow
  obtain ⟨t, rfl⟩ := exists_typed_of_sketch sketched accepted
  exact ⟨t, rfl⟩

theorem manyOfKind (s : Shape) {kind : Kind} (accepted : s.accepts kind = true)
    (follow : Follow (.many (HasKind kind)) vs) : ∃ ts : List (Typed s), vs = ts.map Typed.view :=
  many Typed.view (fun _ sketched => exists_typed_of_sketch sketched.choose_spec accepted) follow

theorem node (s : Shape) {kind : Kind} {children : Pattern (Kind × Text)} (accepted : s.accepts kind = true)
    (follow : Follow (.node kind children) vs) :
    ∃ t : Typed s, vs = [t.view] ∧ Follow children t.view.children := by
  obtain ⟨v, rfl, os, sketched, inside⟩ := single follow
  obtain ⟨-, -, childrenEq⟩ := node_of_sketch sketched
  obtain ⟨t, rfl⟩ := exists_typed_of_sketch sketched accepted
  exact ⟨t, rfl, by rw [Follow, childrenEq]; exact inside⟩

theorem form (follow : Follow Productions.form vs) : ∃ f : Form, vs = [f.view] := by
  obtain ⟨v, rfl, isForm⟩ := single follow
  obtain ⟨f, rfl⟩ := exists_form_of_isForm isForm
  exact ⟨f, rfl⟩

theorem forms (follow : Follow Productions.forms vs) : ∃ fs : List Form, vs = fs.map Form.view :=
  many Form.view (fun _ => exists_form_of_isForm) follow

theorem symbol (follow : Follow Productions.symbol vs) : ∃ s : Symbol, vs = [s.view] := by
  obtain ⟨s, rfl, -⟩ := node .symbol rfl follow
  exact ⟨s, rfl⟩

theorem enclosed {opener closer : Kind} {inside : Pattern (Kind × Text)}
    (follow : Follow (Productions.enclosed opener closer inside) vs) :
    ∃ (first last : LeafView) (us : List View), vs = first.view :: (us ++ [last.view]) ∧
      first.kind = opener ∧ last.kind = closer ∧ Follow inside us := by
  obtain ⟨_, ws, rfl, opening, rest⟩ := followedBy follow
  obtain ⟨us, _, rfl, within, closing⟩ := followedBy rest
  obtain ⟨first, rfl, firstKind⟩ := token opening
  obtain ⟨last, rfl, lastKind⟩ := token closing
  exact ⟨first, last, us, rfl, firstKind, lastKind, within⟩

theorem optionalOfKind (s : Shape) {kind : Kind} (accepted : s.accepts kind = true)
    (follow : Follow (.optional (.single (HasKind kind))) vs) :
    ∃ t? : Option (Typed s), vs = t?.toList.map Typed.view := by
  cases optional follow with
  | inl absent => exact ⟨none, absent⟩
  | inr present =>
    obtain ⟨t, rfl⟩ := hasKind s accepted present
    exact ⟨some t, rfl⟩

theorem optionalForm (follow : Follow (.optional Productions.form) vs) :
    ∃ f? : Option Form, vs = f?.toList.map Form.view := by
  cases optional follow with
  | inl absent => exact ⟨none, absent⟩
  | inr present =>
    obtain ⟨f, rfl⟩ := form present
    exact ⟨some f, rfl⟩

/-- The nodes between two tokens. -/
theorem nodes_enclosed {v : View} {opener closer : Kind} {inside : Pattern (Kind × Text)}
    (follow : Follow (Productions.enclosed opener closer inside) v.children) :
    ∃ us, v.nodes = us.filter View.isNode ∧ Follow inside us := by
  obtain ⟨first, last, us, eq, -, -, within⟩ := enclosed follow
  exact ⟨us, by simp [View.nodes, eq], within⟩

/-- The nodes after a head in parentheses. -/
theorem nodes_special {v : View} {head : Kind} {body : Pattern (Kind × Text)}
    (follow : Follow (Productions.special head body) v.children) :
    ∃ us, v.nodes = us.filter View.isNode ∧ Follow body us := by
  obtain ⟨ws, eq, within⟩ := nodes_enclosed follow
  obtain ⟨_, us, rfl, headed, rest⟩ := followedBy within
  obtain ⟨l, rfl, -⟩ := token headed
  exact ⟨us, by simp [eq], rest⟩

end Follow

end Views

/-! ## Every node follows its production -/

namespace Drafted

variable {text : Text} {r : Registry} {start : Parser} {d : Draft}

/-- Where there are no diagnostics, a node of the draft is no error and has the children of its production. -/
theorem production_of_mem (drafted : Drafted text r start d)
    (table : Grammar.FollowsTable start (Grammar.source start) d) (ok : diagnostics text r start = [])
    {n : Kind × List Draft} (member : n ∈ d.nodes) :
    n.1 ≠ .error ∧ Productions.production n.1 (n.2.map Draft.sketch) := by
  obtain ⟨quiet, readable⟩ := drafted.silent_of_isOk ok
  have clean := Drafted.clean table quiet readable
  have isSymbol : start.slashKind.isSymbolToken = true := by
    rw [drafted.slash]
    exact Scan.isSymbolToken_symbolKind r ['/']
  have below : ∀ e ∈ n.2, Draft.Clean e := fun e eMember m mMember =>
    clean m (Outline.mem_nodes_of_mem eMember mMember d member)
  have follows := table True (fun _ => quiet) n member
  exact ⟨clean n member, (Productions.carries_production isSymbol (clean n member) n.2 below follows).1⟩

end Drafted

/-- In a tree without diagnostics, the children of every node follow its production. -/
theorem Views.follow_production {text : Text} {r : Registry} {result : Parse}
    (parsed : parse text r = .ok result) (ok : result.isOk = true) {v : View}
    (below : v ∈ result.root.descendants) :
    v.kind ≠ .error ∧ Follow (Productions.production v.kind) v.children := by
  obtain ⟨start, d, drafted, table⟩ := exists_drafted text r
  obtain rfl := drafted.eq_of_parse_eq_ok parsed
  obtain ⟨n, member, viewed, stop, placed⟩ := Draft.exists_node_of_walk d drafted.placed v below
  obtain ⟨notError, follows⟩ := drafted.production_of_mem table (List.isEmpty_iff.mp ok) member
  have kindEq : v.kind = n.1 := by rw [View.kind, viewed]; rfl
  have children : v.children = View.placeAll v.offset (Draft.trees text n.2) := by
    rw [View.children, viewed]; rfl
  rw [kindEq, Follow, children, View.map_sketch_placeAll, Draft.sketch_trees n.2 placed.1]
  exact ⟨notError, follows⟩

end LispSyntax
