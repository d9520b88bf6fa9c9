import LispSyntax.Ast.Shape
import LispSyntax.Grammar.Form
import LispSyntax.Proofs.Run

/-! # The grammar with recovery

For each kind of node, the children that the parser may put under it, whatever the source. Where a
source breaks the grammar the parser leaves something out or puts it in an error node, and reports
that; `quiet` stands for nothing being reported, so each such alternative is there only provided
`¬ quiet`. The table `Recovery.production` is the whole of what the later modules know about the shape
of a tree.

`Parser.Reads p p' pattern` joins the table to the parser: the run from `p` to `p'` makes drafts that
follow the pattern, and all nodes in them follow the table.
-/

namespace LispSyntax

def Outline.IsForm {α : Type} (o : Outline α) : Prop :=
  ∃ kind os, o = .node kind os ∧ Shape.form.accepts kind = true

namespace Recovery

open Pattern Draft Outline

/-- What is left of a sequence that was given up: nothing, or an error node. -/
def gaveUp (quiet : Prop) : Pattern (Kind × Token) :=
  .provided (¬ quiet) (.optional (.single (HasKind .error)))

/-- A form, or nothing, and then that is reported. -/
def expected (quiet : Prop) : Pattern (Kind × Token) :=
  (single IsForm).orElse (.provided (¬ quiet) .nothing)

def name : Pattern (Kind × Token) :=
  .node .symbol (tokenIn Kind.isSymbolToken)

/-- A symbol, or the rest of the sequence given up. -/
def expectedName (quiet : Prop) : Pattern (Kind × Token) :=
  name.orElse (gaveUp quiet)

/-- What a name can be looked up in: an address or a symbol. -/
def account : Pattern (Kind × Token) :=
  (Pattern.node .literal (tokenOf .address)).orElse name

def delimited (quiet : Prop) (opener closer : Kind) (inside : Pattern (Kind × Token)) :
    Pattern (Kind × Token) :=
  (tokenOf opener).followedBy (inside.followedBy (closing quiet closer))

/-- The forms of a map, which are paired unless the odd one is reported. -/
def entries (quiet : Prop) : Pattern (Kind × Token) := fun ds =>
  many IsForm ds ∧ (quiet → ds.length % 2 = 0)

def attached : Pattern (Kind × Token) :=
  .optional (.single (HasKind .metadata))

/-! ## Parameters and bindings -/

def optionals (quiet : Prop) : Pattern (Kind × Token) :=
  ((Pattern.some (HasKind .optionalParam)).followedBy (.optional (gaveUp quiet))).orElse (gaveUp quiet)

def parameters (quiet : Prop) : Pattern (Kind × Token) :=
  (many (HasKind .fixedParam)).followedBy
    ((Pattern.optional (gaveUp quiet)).orElse
      ((taken .amp fun t => t.text = ['&'] ∧ t.kind.isSymbolToken = true).followedBy
        (optionals quiet)))

def arityParts (quiet : Prop) : Pattern (Kind × Token) :=
  (single (HasKind .paramList)).followedBy
    ((expected quiet).followedBy (.optional (gaveUp quiet)))

def bareArity (quiet : Prop) : Pattern (Kind × Token) :=
  .node .arity (arityParts quiet)

def groupedParts (quiet : Prop) : Pattern (Kind × Token) :=
  delimited quiet .leftParen .rightParen ((arityParts quiet).orElse (gaveUp quiet))

def IsGroupedArity (quiet : Prop) (d : Draft) : Prop :=
  ∃ ds, d = .node .arity ds ∧ groupedParts quiet ds

def arities (quiet : Prop) : Pattern (Kind × Token) :=
  (bareArity quiet).orElse ((Pattern.some (IsGroupedArity quiet)).orElse (gaveUp quiet))

def singleArity (quiet : Prop) : Pattern (Kind × Token) :=
  (bareArity quiet).orElse (gaveUp quiet)

/-- What stands between the brackets of a binding vector, with exactly one binding if `single`. -/
def bindingList (quiet : Prop) (single : Bool) : Pattern (Kind × Token) := fun ds =>
  (many (HasKind .binding)).followedBy (.optional (gaveUp quiet)) ds ∧
    (quiet → single = true → ds.length = 1)

def bindingParts (quiet : Prop) (single : Bool) : Pattern (Kind × Token) :=
  delimited quiet .leftBracket .rightBracket (bindingList quiet single)

/-- A binding vector and what follows it, or the rest of the form given up. -/
def bound (quiet : Prop) (single : Bool) (body : Pattern (Kind × Token)) : Pattern (Kind × Token) :=
  ((Pattern.node .bindings (bindingParts quiet single)).followedBy body).orElse (gaveUp quiet)

/-! ## Special forms -/

def lookupBody (quiet : Prop) : Pattern (Kind × Token) :=
  (account.followedBy (expectedName quiet)).orElse (expectedName quiet)

def importBody (quiet : Prop) : Pattern (Kind × Token) :=
  (name.followedBy (.optional
    ((taken .asMark fun t => t.kind = .keyword ∧ t.text = ":as".toList).followedBy
      (expectedName quiet)))).orElse (gaveUp quiet)

def definition (quiet : Prop) (body : Pattern (Kind × Token)) : Pattern (Kind × Token) :=
  (name.followedBy (attached.followedBy body)).orElse (gaveUp quiet)

def IsPair (d : Draft) : Prop :=
  ∃ test result, d = .node .condClause [test, result] ∧ IsForm test ∧ IsForm result

def IsTest (d : Draft) : Prop :=
  ∃ test, d = .node .condClause [test] ∧ IsForm test

def IsFallback (d : Draft) : Prop :=
  ∃ form, d = .node .condFallback [form] ∧ IsForm form

/-- Pairs, and after at least one of them perhaps a fallback; or a test alone. -/
def clauses : Pattern (Kind × Token) :=
  (many IsPair).orElse ((single IsTest).orElse ((Pattern.some IsPair).followedBy (single IsFallback)))

def specialBody (quiet : Prop) : Kind → Pattern (Kind × Token)
  | .lookupHead => lookupBody quiet
  | .importHead => importBody quiet
  | .defHead => definition quiet (expected quiet)
  | .defnHead => definition quiet (arities quiet)
  | .defmacroHead => definition quiet (singleArity quiet)
  | .fnHead | .macroHead => singleArity quiet
  | .condHead => clauses
  | .letHead | .loopHead => bound quiet false (many IsForm)
  | .ifLetHead => bound quiet true ((expected quiet).followedBy (.optional (single IsForm)))
  | .whenLetHead | .dotimesHead => bound quiet true (many IsForm)
  | _ => expected quiet

def special (quiet : Prop) (head : Kind) : Pattern (Kind × Token) :=
  delimited quiet .leftParen .rightParen
    ((taken head fun t => t.kind.isSymbolToken = true ∧ Kind.ofHead? t.text = some head).followedBy
      ((specialBody quiet head).followedBy (.optional (gaveUp quiet))))

def quote (quiet : Prop) (mark head : Kind) : Pattern (Kind × Token) :=
  ((tokenOf mark).followedBy (expected quiet)).orElse (special quiet head)

/-! ## The table -/

/-- A token under its own kind. -/
def IsPlainToken (d : Draft) : Prop :=
  ∃ t : Token, d = Draft.token t.kind t

/-- The children of an error node: an unreadable token, which the scanner has reported already; tokens
that were skipped; forms without a place; or misplaced metadata. -/
def errorParts (quiet : Prop) : Pattern (Kind × Token) :=
  (tokenOf .unknown).orElse
    (.provided (¬ quiet) ((Pattern.some IsPlainToken).orElse
      ((Pattern.some IsForm).orElse (single (HasKind .metadata)))))

/-- The children that the parser may put under a node of the given kind; a slash that stands alone is
taken under the kind `alone`. -/
def production (alone : Kind) (quiet : Prop) : Kind → Pattern (Kind × Token)
  | .source => (many IsForm).followedBy (tokenOf .eof)
  | .literal => tokenIn Kind.isLiteralToken
  | .symbol => (tokenIn Kind.isSymbolToken).orElse (taken alone fun t => t.kind = .slash)
  | .listForm => delimited quiet .leftParen .rightParen (many IsForm)
  | .vectorForm => delimited quiet .leftBracket .rightBracket (many IsForm)
  | .setForm => delimited quiet .hashLeftBrace .rightBrace (many IsForm)
  | .mapForm => delimited quiet .leftBrace .rightBrace (entries quiet)
  | .metadata => (tokenOf .caret).followedBy
      ((single (HasKind .mapForm)).orElse (.provided (¬ quiet) (.optional (single IsForm))))
  | .lookupForm =>
      (account.followedBy ((tokenOf .slash).followedBy name)).orElse (special quiet .lookupHead)
  | .importForm => special quiet .importHead
  | .defForm => special quiet .defHead
  | .defnForm => special quiet .defnHead
  | .defmacroForm => special quiet .defmacroHead
  | .fnForm => special quiet .fnHead
  | .macroForm => special quiet .macroHead
  | .arity => (arityParts quiet).orElse (groupedParts quiet)
  | .paramList => delimited quiet .leftBracket .rightBracket (parameters quiet)
  | .fixedParam | .optionalParam => tokenIn Kind.isSymbolToken
  | .condForm => special quiet .condHead
  | .condClause => (single IsForm).followedBy (.optional (single IsForm))
  | .condFallback => single IsForm
  | .letForm => special quiet .letHead
  | .loopForm => special quiet .loopHead
  | .ifLetForm => special quiet .ifLetHead
  | .whenLetForm => special quiet .whenLetHead
  | .dotimesForm => special quiet .dotimesHead
  | .bindings => bindingParts quiet false
  | .binding => name.followedBy (expected quiet)
  | .quoteForm => quote quiet .quoteMark .quoteHead
  | .quasiquoteForm => quote quiet .backtick .quasiquoteHead
  | .unquoteForm => quote quiet .tilde .unquoteHead
  | .error => errorParts quiet
  | _ => fun _ => False

end Recovery

namespace Parser

open Pattern Draft

/-- The run makes drafts that follow the pattern, and the nodes in them follow the table. Both are said
for every `quiet` that means at least that the run reports nothing. -/
def Reads (p p' : Parser) (pattern : Prop → Pattern (Kind × Token)) : Prop :=
  ∃ ds, Runs p ds p' ∧ ∀ quiet : Prop, (quiet → Quiet p p') →
    (∀ n ∈ Outline.nodesAll ds, Recovery.production p.slashKind quiet n.1 n.2) ∧ pattern quiet ds

namespace Reads

variable {p q r : Parser} {a b : Prop → Pattern (Kind × Token)}

theorem ready (reads : Reads p q a) (ready : p.Ready) : q.Ready := by
  obtain ⟨ds, runs, -⟩ := reads
  exact runs.ready ready

theorem imp (reads : Reads p q a) (h : ∀ quiet ds, a quiet ds → b quiet ds) : Reads p q b := by
  obtain ⟨ds, runs, shape⟩ := reads
  exact ⟨ds, runs, fun quiet silent => ⟨(shape quiet silent).1, h quiet ds (shape quiet silent).2⟩⟩

theorem stay (h : ∀ quiet, a quiet []) : Reads p p a :=
  ⟨[], .refl p, fun quiet _ => ⟨by simp, h quiet⟩⟩

theorem followedBy (first : Reads p q a) (second : Reads q r b) :
    Reads p r fun quiet => (a quiet).followedBy (b quiet) := by
  obtain ⟨ds, runs, shape⟩ := first
  obtain ⟨es, runs', shape'⟩ := second
  refine ⟨ds ++ es, runs.trans runs', fun quiet silent => ?_⟩
  obtain ⟨nodes, follows⟩ := shape quiet fun h => runs.quiet_left runs' (silent h)
  obtain ⟨nodes', follows'⟩ := shape' quiet fun h => runs.quiet_right runs' (silent h)
  refine ⟨?_, followedBy_mk follows follows'⟩
  intro n member
  rw [Outline.mem_nodesAll] at member
  obtain ⟨d, dMember, nMember⟩ := member
  rcases List.mem_append.mp dMember with dMember | dMember
  · exact nodes n (Outline.mem_nodesAll.mpr ⟨d, dMember, nMember⟩)
  · rw [runs.slash] at nodes'
    exact nodes' n (Outline.mem_nodesAll.mpr ⟨d, dMember, nMember⟩)

/-- A run that reports makes what it makes on that condition. -/
theorem provided (reads : Reads p q a) (noisy : ¬ Quiet p q) :
    Reads p q fun quiet => .provided (¬ quiet) (a quiet) := by
  obtain ⟨ds, runs, shape⟩ := reads
  exact ⟨ds, runs, fun quiet silent =>
    ⟨(shape quiet silent).1, fun h => noisy (silent h), (shape quiet silent).2⟩⟩

/-- What holds whenever a run is quiet may be noted in its pattern. -/
theorem noting (reads : Reads p q a) {fact : Prop} (holds : Quiet p q → fact) :
    Reads p q fun quiet ds => a quiet ds ∧ (quiet → fact) := by
  obtain ⟨ds, runs, shape⟩ := reads
  exact ⟨ds, runs, fun quiet silent =>
    ⟨(shape quiet silent).1, (shape quiet silent).2, fun h => holds (silent h)⟩⟩

theorem reportAt (p : Parser) (problem : StructuralProblem) (span : Span) :
    Reads p (p.reportAt problem span) fun quiet => .provided (¬ quiet) .nothing :=
  provided ⟨[], runs_reportAt p problem span, fun _ _ => ⟨by simp, rfl⟩⟩
    (not_quiet_reportAt p problem span)

theorem report (p : Parser) (problem : StructuralProblem) :
    Reads p (p.report problem) fun quiet => .provided (¬ quiet) .nothing :=
  reportAt p problem _

/-- After a report, a run makes what it makes on the condition that not all is quiet. -/
theorem after_report {problem : StructuralProblem} (reads : Reads (p.report problem) q a) :
    Reads p q fun quiet => .provided (¬ quiet) (a quiet) :=
  ((report p problem).followedBy reads).imp fun _ ds => by
    rintro ⟨us, vs, rfl, ⟨noisy, rfl⟩, good⟩
    exact ⟨noisy, good⟩

theorem advanceAs {t : Token} {ts : List Token} (rest : p.rest = t :: ts) (kind : Kind)
    {sort : Token → Prop} (good : sort t) :
    Reads p (p.advanceAs kind) fun _ => taken kind sort :=
  ⟨_, runs_advanceAs rest kind, fun _ _ => ⟨by simp, single_mk ⟨t, rfl, good⟩⟩⟩

theorem advance {t : Token} {ts : List Token} (rest : p.rest = t :: ts) :
    Reads p p.advance fun _ => tokenOf t.kind := by
  rw [Parser.advance, kind_of_rest rest]
  exact advanceAs rest t.kind rfl

end Reads

/-! ## Nodes -/

/-- The run makes one node of the given kind, whose children follow the pattern; the nodes in it follow
the table. -/
def ReadsNode (p : Parser) (kind : Kind) (r : Completed × Parser)
    (pattern : Prop → Pattern (Kind × Token)) : Prop :=
  ∃ ds, Makes p (.node kind ds) r ∧ ∀ quiet : Prop, (quiet → Quiet p r.2) →
    (∀ n ∈ Outline.nodes (.node kind ds), Recovery.production p.slashKind quiet n.1 n.2) ∧
      pattern quiet ds

namespace ReadsNode

variable {p : Parser} {kind : Kind} {r : Completed × Parser} {a b : Prop → Pattern (Kind × Token)}

theorem reads (made : ReadsNode p kind r a) : Reads p r.2 fun quiet => .node kind (a quiet) := by
  obtain ⟨ds, makes, shape⟩ := made
  refine ⟨_, makes.runs, fun quiet silent => ?_⟩
  obtain ⟨nodes, follows⟩ := shape quiet silent
  exact ⟨by simpa using nodes, node_mk follows⟩

theorem imp (made : ReadsNode p kind r a) (h : ∀ quiet ds, a quiet ds → b quiet ds) :
    ReadsNode p kind r b := by
  obtain ⟨ds, makes, shape⟩ := made
  exact ⟨ds, makes, fun quiet silent => ⟨(shape quiet silent).1, h quiet ds (shape quiet silent).2⟩⟩

theorem reads_hasKind (made : ReadsNode p kind r a) :
    Reads p r.2 fun _ => single (Outline.HasKind kind) :=
  made.reads.imp fun _ _ => single_imp fun _ ⟨os, eq, _⟩ => ⟨os, eq⟩

theorem reads_isForm (made : ReadsNode p kind r a) (isForm : Shape.form.accepts kind = true) :
    Reads p r.2 fun _ => single Outline.IsForm :=
  made.reads.imp fun _ _ => single_imp fun _ ⟨os, eq, _⟩ => ⟨kind, os, eq, isForm⟩

theorem complete {q : Parser} (label : kind.isLabel = true) (body : Reads p.begun q a)
    (fits : ∀ quiet ds, a quiet ds → Recovery.production p.slashKind quiet kind ds) :
    ReadsNode p kind (q.complete p.start.1 kind) a := by
  obtain ⟨ds, runs, shape⟩ := body
  have makes := makes_complete label runs
  refine ⟨ds, makes, fun quiet silent => ?_⟩
  obtain ⟨nodes, follows⟩ := shape quiet fun h => by
    have whole := silent h
    rw [Quiet, reports_complete] at whole
    exact whole
  refine ⟨?_, follows⟩
  intro n member
  rw [Outline.nodes_node, List.mem_cons] at member
  rcases member with rfl | member
  · exact fits quiet ds follows
  · exact nodes n member

theorem node {body : Parser → Parser} (label : kind.isLabel = true)
    (inside : Reads p.begun (body p.begun) a)
    (fits : ∀ alone quiet ds, a quiet ds → Recovery.production alone quiet kind ds) :
    ReadsNode p kind (p.node kind body) a :=
  complete label inside (fits p.slashKind)

theorem wrap {parent : Kind} {body : Parser → Parser} (label : parent.isLabel = true)
    (made : ReadsNode p kind r a)
    (inside : Reads (preceded r) (body (preceded r)) b)
    (fits : ∀ alone quiet ds, ((Pattern.node kind (a quiet)).followedBy (b quiet)) ds →
      Recovery.production alone quiet parent ds) :
    ReadsNode p parent (r.2.wrap r.1 parent body) fun quiet =>
      (Pattern.node kind (a quiet)).followedBy (b quiet) := by
  obtain ⟨ds, makes, shape⟩ := made
  obtain ⟨es, runs, shape'⟩ := inside
  refine ⟨_, makes_wrap label makes runs, fun quiet silent => ?_⟩
  have wrapQuiet : (r.2.wrap r.1 parent body).2.reports = (body (preceded r)).reports :=
    reports_complete ..
  have slashEq : (preceded r).slashKind = p.slashKind := (slashKind_preceded r).trans makes.runs.slash
  have before : quiet → Quiet p r.2 := by
    intro h
    have whole := silent h
    have back := runs.reports
    rw [Quiet, wrapQuiet] at whole
    rw [reports_preceded, whole] at back
    exact (makes.runs.reports.eq_of_length_le back.length_le).symm
  have after : quiet → Quiet (preceded r) (body (preceded r)) := by
    intro h
    have whole := silent h
    rw [Quiet, wrapQuiet] at whole
    rw [Quiet, whole, reports_preceded, before h]
  obtain ⟨nodes, follows⟩ := shape quiet before
  obtain ⟨nodes', follows'⟩ := shape' quiet after
  have whole : ((Pattern.node kind (a quiet)).followedBy (b quiet)) (.node kind ds :: es) :=
    followedBy_mk (node_mk follows) follows'
  refine ⟨?_, whole⟩
  intro n member
  rw [Outline.nodes_node, List.mem_cons] at member
  rcases member with rfl | member
  · exact fits _ quiet _ whole
  · obtain ⟨d, dMember, nMember⟩ := Outline.mem_nodesAll.mp member
    rcases List.mem_cons.mp dMember with rfl | dMember
    · exact nodes n nMember
    · rw [slashEq] at nodes'
      exact nodes' n (Outline.mem_nodesAll.mpr ⟨d, dMember, nMember⟩)

theorem reportAt (made : ReadsNode p kind r a) (problem : StructuralProblem) (span : Span) :
    ReadsNode p kind (r.1, r.2.reportAt problem span) fun quiet => .provided (¬ quiet) (a quiet) := by
  obtain ⟨ds, makes, shape⟩ := made
  have runs : Runs r.2 [] (r.2.reportAt problem span) := runs_reportAt ..
  refine ⟨ds, makes.reportAt problem span, fun quiet silent => ?_⟩
  have noisy : ¬ quiet := fun h =>
    not_quiet_reportAt r.2 problem span (makes.runs.quiet_right runs (silent h))
  obtain ⟨nodes, follows⟩ := shape quiet fun h => absurd h noisy
  exact ⟨nodes, noisy, follows⟩

end ReadsNode

/-! ## Delimited sequences -/

theorem reads_between {p q : Parser} {t : Token} {ts : List Token} {closer : Kind} {name : String}
    {a : Prop → Pattern (Kind × Token)} (ready : p.Ready) (rest : p.rest = t :: ts)
    (opens : t.kind.closer? = some closer) (inside : Reads (p.openSequence name) q a) :
    Reads p q.closeSequence fun quiet => Recovery.delimited quiet t.kind closer (a quiet) := by
  obtain ⟨ds, runs, shape⟩ := inside
  obtain ⟨ending, whole, closes, innerQuiet⟩ := runs_between ready rest opens runs
  have slashEq : (p.openSequence name).slashKind = p.slashKind := by
    rw [openSequence_eq rest opens]
    exact (runs_advanceAs rest t.kind).slash
  refine ⟨_, whole, fun quiet silent => ?_⟩
  obtain ⟨nodes, follows⟩ := shape quiet fun h => innerQuiet (silent h)
  have ends := closes quiet silent
  constructor
  · intro n member
    rw [slashEq] at nodes
    have leaves : ∀ d ∈ ending, d.nodes = [] := by
      rcases ends with ⟨d, rfl, u, rfl, -⟩ | ⟨-, rfl⟩ <;> simp
    rw [Outline.mem_nodesAll] at member
    obtain ⟨d, dMember, nMember⟩ := member
    simp only [List.cons_append, List.mem_cons, List.mem_append] at dMember
    rcases dMember with rfl | dMember | dMember
    · simp at nMember
    · exact nodes n (Outline.mem_nodesAll.mpr ⟨d, dMember, nMember⟩)
    · simp [leaves d dMember] at nMember
  · rw [List.cons_append]
    exact followedBy_mk (single_mk ⟨t, rfl, rfl⟩) (followedBy_mk follows ends)

end Parser

end LispSyntax
