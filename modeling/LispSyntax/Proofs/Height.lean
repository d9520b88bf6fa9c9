import LispSyntax.Proofs.Origin.Form

/-! # Nodes inside each other

Only the rule for a form watches how deeply forms nest; special forms, arities, parameter lists, metadata and what is
left of a sequence make nodes without asking it. `Outline.height` counts the nodes on the longest way down, and `Flat`
says that a stretch of parsing makes no more than so many inside each other, none of them empty. Each production adds a
fixed number of nodes to those of the forms inside it, malformed sources included, as nothing is asked of the reports.

Nodes that are not empty have leaves, so there are no more of them than leaves on each level
(`Outline.Within.length_nodes_le`). That bounds the log by the number of tokens.
-/

namespace LispSyntax

/-! ## Heights -/

namespace Outline

variable {α β : Type}

mutual

/-- The number of nodes on the longest way down. -/
def height : Outline α → Nat
  | node _ children => heightAll children + 1
  | leaf _ => 0

/-- The number of nodes on the longest way down one of several outlines. -/
def heightAll : List (Outline α) → Nat
  | [] => 0
  | o :: os => max o.height (heightAll os)

end

@[simp] theorem height_node (kind : Kind) (children : List (Outline α)) :
    (node kind children).height = heightAll children + 1 := rfl

@[simp] theorem height_leaf (value : α) : (leaf value).height = 0 := rfl

@[simp] theorem heightAll_nil : heightAll ([] : List (Outline α)) = 0 := rfl

@[simp] theorem heightAll_cons (o : Outline α) (os : List (Outline α)) :
    heightAll (o :: os) = max o.height (heightAll os) := rfl

theorem heightAll_le {os : List (Outline α)} {limit : Nat} :
    heightAll os ≤ limit ↔ ∀ o ∈ os, o.height ≤ limit := by
  induction os with
  | nil => simp
  | cons o os inductionHypothesis => rw [heightAll_cons, Nat.max_le, inductionHypothesis, List.forall_mem_cons]

theorem height_le_heightAll {o : Outline α} {os : List (Outline α)} (member : o ∈ os) : o.height ≤ heightAll os :=
  heightAll_le.mp (Nat.le_refl _) o member

mutual

theorem height_map (f : α → β) : (o : Outline α) → (o.map f).height = o.height
  | node _ children => congrArg (· + 1) (heightAll_mapAll f children)
  | leaf _ => rfl

theorem heightAll_mapAll (f : α → β) : (os : List (Outline α)) → heightAll (mapAll f os) = heightAll os
  | [] => rfl
  | o :: os => by simp only [mapAll, heightAll_cons, height_map f o, heightAll_mapAll f os]

end

/-- No more than so many nodes inside each other, none of them empty. -/
structure Within (limit : Nat) (o : Outline α) : Prop where
  height_le : o.height ≤ limit
  filled : ∀ n ∈ o.nodes, n.2 ≠ []

namespace Within

variable {o : Outline α} {os : List (Outline α)} {limit more : Nat} {kind : Kind}

theorem mono (within : Within limit o) (le : limit ≤ more) : Within more o :=
  ⟨Nat.le_trans within.height_le le, within.filled⟩

theorem of_leaf (isLeaf : o.isNode = false) : Within limit o := by
  cases o with
  | node kind os => contradiction
  | leaf value => exact ⟨Nat.zero_le _, by simp⟩

theorem node (within : ∀ o ∈ os, Within limit o) (some : os ≠ []) : Within (limit + 1) (node kind os) where
  height_le := by
    rw [height_node]
    exact Nat.succ_le_succ (heightAll_le.mpr fun o member => (within o member).height_le)
  filled n member := by
    rw [nodes_node, List.mem_cons] at member
    rcases member with rfl | below
    · exact some
    · obtain ⟨o, child, inChild⟩ := mem_nodesAll.mp below
      exact (within o child).filled n inChild

end Within

mutual

/-- There are no more nodes than leaves on each level, if none is empty. -/
theorem length_nodes_le : (o : Outline α) → (∀ n ∈ o.nodes, n.2 ≠ []) → o.nodes.length ≤ o.height * o.leaves.length
  | leaf value, _ => by simp
  | node kind children, filled => by
    have some : 0 < (leavesAll children).length :=
      List.length_pos_iff.mpr (leaves_ne_nil (node kind children) filled)
    have below := length_nodesAll_le children fun n member => filled n (by simp [member])
    rw [nodes_node, height_node, leaves_node, List.length_cons, Nat.succ_mul]
    omega

theorem length_nodesAll_le : (os : List (Outline α)) → (∀ n ∈ nodesAll os, n.2 ≠ []) →
    (nodesAll os).length ≤ heightAll os * (leavesAll os).length
  | [], _ => by simp [nodesAll]
  | o :: os, filled => by
    have first := length_nodes_le o fun n member => filled n (by simp [nodesAll, member])
    have rest := length_nodesAll_le os fun n member => filled n (by simp [nodesAll, member])
    have higher := Nat.mul_le_mul_right o.leaves.length (Nat.le_max_left o.height (heightAll os))
    have higher' := Nat.mul_le_mul_right (leavesAll os).length (Nat.le_max_right o.height (heightAll os))
    rw [nodesAll, leavesAll_cons, heightAll_cons, List.length_append, List.length_append, Nat.mul_add]
    omega

end

/-- How many entries it takes to log an outline, for each of its leaves. -/
theorem Within.entries_le {o : Outline α} {limit : Nat} (within : Within limit o) :
    entries [o] ≤ (2 * limit + 1) * o.leaves.length := by
  have nodes := length_nodes_le o within.filled
  have higher := Nat.mul_le_mul_right o.leaves.length within.height_le
  have whole : entries [o] = 2 * o.nodes.length + o.leaves.length := by simp [entries, nodesAll]
  rw [whole, Nat.add_mul, Nat.one_mul, Nat.mul_assoc 2 limit]
  omega

end Outline

@[simp] theorem Draft.height_token (kind : Kind) (t : Token) : (Draft.token kind t).height = 0 := rfl

namespace Grammar

open LispSyntax.Parser Draft Outline

/-- The run makes at most so many nodes inside each other, none of them empty. -/
def Flat (limit : Nat) (p q : Parser) : Prop :=
  ∃ ds, Runs p ds q ∧ ∀ d ∈ ds, d.Within limit

/-- The run makes one node, with at most so many nodes inside each other, none of them empty. -/
def FlatNode (limit : Nat) (p : Parser) (r : Completed × Parser) : Prop :=
  ∃ d, Makes p d r ∧ d.Within limit

structure FlatForms (limit : Nat) (form : FormRule) : Prop where
  reads : ReadsForms form
  pos : 0 < limit
  flat : ∀ p, p.Ready → Flat limit p (form p).2

variable {form : FormRule} {p q p' p'' : Parser} {t : Token} {ts : List Token} {kind closer : Kind}
  {r : Completed × Parser} {limit more : Nat} {ds : List Draft}

/-! ## Composition -/

theorem Flat.mono (flat : Flat limit p q) (le : limit ≤ more) : Flat more p q := by
  obtain ⟨ds, runs, within⟩ := flat
  exact ⟨ds, runs, fun d member => (within d member).mono le⟩

theorem FlatNode.mono (node : FlatNode limit p r) (le : limit ≤ more) : FlatNode more p r := by
  obtain ⟨d, makes, within⟩ := node
  exact ⟨d, makes, within.mono le⟩

theorem Flat.stay (limit : Nat) (p : Parser) : Flat limit p p :=
  ⟨[], .refl p, by simp⟩

theorem Flat.trans (first : Flat limit p p') (second : Flat limit p' p'') : Flat limit p p'' := by
  obtain ⟨ds, runs, within⟩ := first
  obtain ⟨es, runs', within'⟩ := second
  refine ⟨ds ++ es, runs.trans runs', fun d member => ?_⟩
  cases List.mem_append.mp member with
  | inl inFirst => exact within d inFirst
  | inr inSecond => exact within' d inSecond

theorem Flat.ready (flat : Flat limit p q) (ready : p.Ready) : q.Ready := by
  obtain ⟨ds, runs, -⟩ := flat
  exact runs.ready ready

theorem Flat.rest_le (flat : Flat limit p q) : q.rest.length ≤ p.rest.length := by
  obtain ⟨ds, runs, -⟩ := flat
  exact runs.rest_le

/-- Tokens and reports make no nodes. -/
theorem flat_of_leaves (runs : Runs p ds q) (leaves : ∀ d ∈ ds, d.isNode = false) : Flat limit p q :=
  ⟨ds, runs, fun d member => .of_leaf (leaves d member)⟩

theorem flat_advanceAs (rest : p.rest = t :: ts) (kind : Kind) : Flat limit p (p.advanceAs kind) :=
  flat_of_leaves (runs_advanceAs rest kind) (by simp)

theorem flat_advance (rest : p.rest = t :: ts) : Flat limit p p.advance :=
  flat_advanceAs rest p.kind

theorem flat_reportAt (p : Parser) (problem : StructuralProblem) (span : Span) :
    Flat limit p (p.reportAt problem span) :=
  flat_of_leaves (runs_reportAt p problem span) (by simp)

theorem flat_report (p : Parser) (problem : StructuralProblem) : Flat limit p (p.report problem) :=
  flat_reportAt p problem _

/-! ## Nodes -/

/-- A node has children, if tokens are taken for it. -/
theorem FlatNode.complete (label : kind.isLabel = true) (body : Flat limit p.begun q)
    (fewer : q.rest.length < p.rest.length) : FlatNode (limit + 1) p (q.complete p.start.1 kind) := by
  obtain ⟨ds, runs, within⟩ := body
  refine ⟨_, makes_complete label runs, .node within ?_⟩
  rintro rfl
  have restEq : p.rest = q.rest := runs.rest
  rw [restEq] at fewer
  exact Nat.lt_irrefl _ fewer

theorem FlatNode.node {body : Parser → Parser} (label : kind.isLabel = true)
    (inside : Flat limit p.begun (body p.begun)) (fewer : (body p.begun).rest.length < p.rest.length) :
    FlatNode (limit + 1) p (p.node kind body) :=
  FlatNode.complete label inside fewer

theorem FlatNode.flat (node : FlatNode limit p r) : Flat limit p r.2 := by
  obtain ⟨d, makes, within⟩ := node
  exact ⟨[d], makes.runs, by simpa using within⟩

theorem FlatNode.ready (node : FlatNode limit p r) (ready : p.Ready) : r.2.Ready :=
  node.flat.ready ready

theorem FlatNode.reportAt (node : FlatNode limit p r) (problem : StructuralProblem) (span : Span) :
    FlatNode limit p (r.1, r.2.reportAt problem span) := by
  obtain ⟨d, makes, within⟩ := node
  exact ⟨d, makes.reportAt problem span, within⟩

theorem FlatNode.wrap {body : Parser → Parser} (node : FlatNode limit p r) (label : kind.isLabel = true)
    (inside : Flat limit (preceded r) (body (preceded r))) : FlatNode (limit + 1) p (r.2.wrap r.1 kind body) := by
  obtain ⟨d, makes, within⟩ := node
  obtain ⟨ds, runs, within'⟩ := inside
  exact ⟨_, makes_wrap label makes runs, .node (List.forall_mem_cons.mpr ⟨within, within'⟩) (List.cons_ne_nil d ds)⟩

theorem flat_between {name : String} (ready : p.Ready) (rest : p.rest = t :: ts)
    (opens : t.kind.closer? = some closer) (inside : Flat limit (p.openSequence name) q) :
    Flat limit p q.closeSequence := by
  obtain ⟨ds, runs, within⟩ := inside
  obtain ⟨ending, whole, closes, -⟩ := runs_between ready rest opens runs
  refine ⟨_, whole, fun d member => ?_⟩
  rw [List.cons_append, List.mem_cons, List.mem_append] at member
  rcases member with rfl | inside | atEnd
  · exact .of_leaf rfl
  · exact within d inside
  · -- The ending is the closing token, or nothing where that is missing.
    rcases closes False False.elim with ⟨e, rfl, u, rfl, -⟩ | ⟨-, rfl⟩
    · rw [List.mem_singleton.mp atEnd]
      exact .of_leaf rfl
    · contradiction

/-- A node around a delimited sequence, whatever is read inside it. -/
theorem flatNode_enclosed (kind : Kind) (name : String) (body : Parser → Parser) (ready : p.Ready)
    (rest : p.rest = t :: ts) (opens : t.kind.closer? = some closer) (label : kind.isLabel = true)
    (inside : ∀ q : Parser, q.Ready → Flat limit q (body q)) :
    FlatNode (limit + 1) p (p.node kind fun p => (body (p.openSequence name)).closeSequence) := by
  have read := inside _ (ready.begun.openSequence rest opens name)
  have fewer := length_rest_enclosed_lt (p := p.begun) rest opens read.rest_le
  exact FlatNode.node label (flat_between ready.begun rest opens read) fewer

/-! ## Sequences -/

theorem flat_sequenceLoop (forms : FlatForms limit form) (turns : Nat) (ready : p.Ready) :
    Flat limit p (sequenceLoop form turns p) := by
  induction turns generalizing p with
  | zero => exact .stay limit p
  | succ turns inductionHypothesis =>
    rw [sequenceLoop]
    split
    · exact .stay limit p
    · have first := forms.flat p ready
      exact first.trans (inductionHypothesis (first.ready ready))

theorem flat_sequence (forms : FlatForms limit form) (ready : p.Ready) : Flat limit p (sequence form p) :=
  flat_sequenceLoop forms _ ready

/-- What is left of a sequence is one more node around its forms. -/
theorem flat_recover (forms : FlatForms limit form) (ready : p.Ready) (problem : StructuralProblem) :
    Flat (limit + 1) p (recover form problem p) := by
  have reported : Flat (limit + 1) p (p.report problem) := flat_report p problem
  rw [recover, restAsError]
  split
  · exact reported
  · rename_i going
    have ready' := (reported.ready ready).begun
    have fewer := rest_lt_sequence forms.reads ready'
      (show (p.report problem).atSequenceEnd = false by simpa using going)
    have node : FlatNode (limit + 1) (p.report problem) ((p.report problem).node .error (sequence form)) :=
      FlatNode.node rfl (flat_sequence forms ready') fewer
    exact reported.trans node.flat

/-! ## Single tokens -/

theorem flatNode_leaf (rest : p.rest = t :: ts) (label : kind.isLabel = true) (asKind : Kind) :
    FlatNode 1 p (p.node kind fun p => p.advanceAs asKind) :=
  FlatNode.node label (flat_advanceAs (p := p.begun) rest asKind) (length_rest_advanceAs_lt (p := p.begun) rest asKind)

theorem flatNode_advance (rest : p.rest = t :: ts) (label : kind.isLabel = true) :
    FlatNode 1 p (p.node kind Parser.advance) :=
  flatNode_leaf rest label p.kind

theorem flatNode_symbol (ready : p.Ready) (isSymbol : p.atSymbol = true) : FlatNode 1 p (symbol p) := by
  obtain ⟨t, ts, rest, -⟩ := ready.exists_symbol isSymbol
  have met : p.kind.isSymbolToken = true := isSymbol
  rw [symbol, require_eq met]
  exact flatNode_advance rest rfl

theorem flatNode_literal (ready : p.Ready) (isLiteral : p.kind.isLiteralToken = true) :
    FlatNode 1 p (literal p) := by
  obtain ⟨t, ts, rest⟩ := ready.exists_rest (by
    intro atEnd
    rw [atEnd] at isLiteral
    contradiction)
  rw [literal, require_eq isLiteral]
  exact flatNode_advance rest rfl

theorem flatNode_badToken (rest : p.rest = t :: ts) (problem : StructuralProblem) :
    FlatNode 1 p (badToken problem p) :=
  ⟨_, makes_badToken rest problem, .node (by simpa using .of_leaf rfl) (List.cons_ne_nil _ _)⟩

/-- A lookup is one node around its account and its name. -/
theorem flatNode_infixLookup (ready : p.Ready) (node : FlatNode 1 p r) : FlatNode 2 p (infixLookup r) := by
  have ready' := node.ready ready
  rw [infixLookup]
  split
  · rename_i touching
    simp only [Bool.and_eq_true] at touching
    obtain ⟨⟨⟨atSlash, -⟩, -⟩, isSymbol⟩ := touching
    obtain ⟨t, ts, rest, -⟩ := ready'.exists_isAt atSlash (by decide)
    obtain ⟨u, us, rfl, uSymbol⟩ := ready'.exists_symbol_after rest isSymbol
    have restEq : (preceded r).rest = t :: u :: us := (rest_preceded r).trans rest
    have slash : Flat 1 (preceded r) (preceded r).advance := flat_advance restEq
    have nameAhead : (preceded r).advance.rest = u :: us := rest_advanceAs restEq _
    have isName : (preceded r).advance.atSymbol = true := by
      rw [atSymbol, kind_of_rest nameAhead]
      exact uSymbol
    have name := flatNode_symbol (slash.ready ready'.preceded) isName
    exact FlatNode.wrap node rfl (slash.trans name.flat)
  · exact node.mono (Nat.le_succ 1)

/-- A form that is nested too deeply is one node, around tokens only. -/
theorem flatNode_tooDeep (ready : p.Ready) (going : p.atSequenceEnd = false) : FlatNode 1 p (tooDeep p) := by
  obtain ⟨ds, makes, shape⟩ := reads_tooDeep ready going
  obtain ⟨-, -, some, plain⟩ := shape False False.elim
  refine ⟨_, makes, .node (fun d member => ?_) some⟩
  obtain ⟨t, rfl⟩ := plain d member
  exact .of_leaf rfl

/-! ## Collections -/

theorem flatNode_delimited (forms : FlatForms limit form) (name : String) (ready : p.Ready)
    (rest : p.rest = t :: ts) (opens : t.kind.closer? = some closer) (label : kind.isLabel = true) :
    FlatNode (limit + 1) p (delimited name kind form p) :=
  flatNode_enclosed kind name (sequence form) ready rest opens label fun _ ready => flat_sequence forms ready

theorem flat_entriesLoop (forms : FlatForms limit form) (turns : Nat) (entries : Entries) (ready : p.Ready) :
    Flat limit p (entriesLoop form turns entries p).2 := by
  induction turns generalizing p entries with
  | zero => exact .stay limit p
  | succ turns inductionHypothesis =>
    rw [entriesLoop]
    split
    · exact .stay limit p
    · have first := forms.flat p ready
      generalize form p = result at first
      obtain ⟨counted, q⟩ := result
      have ready' : q.Ready := first.ready ready
      cases counted with
      | some entry => exact first.trans (inductionHypothesis _ ready')
      | none => exact first.trans (inductionHypothesis entries ready')

theorem flat_checkPaired (entries : Entries) (p : Parser) : Flat limit p (checkPaired entries p) := by
  rw [checkPaired]
  split
  · split
    · exact flat_reportAt ..
    · exact .stay limit p
  · exact .stay limit p

theorem flatNode_map (forms : FlatForms limit form) (ready : p.Ready) (isBrace : p.isAt .leftBrace = true) :
    FlatNode (limit + 1) p (map form p) := by
  obtain ⟨t, ts, rest, kindEq⟩ := ready.exists_isAt isBrace (by decide)
  exact flatNode_enclosed .mapForm "map" (fun q =>
      checkPaired (entriesLoop form q.rest.length ⟨0, none⟩ q).1 (entriesLoop form q.rest.length ⟨0, none⟩ q).2)
    ready rest (by rw [kindEq]; rfl) rfl fun q ready =>
      (flat_entriesLoop forms _ _ ready).trans (flat_checkPaired ..)

/-! ## Metadata and quotes -/

theorem flat_metadataBody (forms : FlatForms limit form) (ready : p.Ready) :
    Flat (limit + 1) p (metadataBody form p) := by
  rw [metadataBody]
  split
  · rename_i isBrace
    exact (flatNode_map forms ready isBrace).flat
  · have reported : Flat (limit + 1) p (p.report .noMetadataMap) := flat_report ..
    apply reported.trans
    dsimp only
    split
    · exact .stay _ _
    · exact (forms.flat _ (reported.ready ready)).mono (Nat.le_succ limit)

theorem flatNode_metadata (forms : FlatForms limit form) (ready : p.Ready) (isCaret : p.isAt .caret = true) :
    FlatNode (limit + 2) p (metadata form p) := by
  obtain ⟨t, ts, rest, -⟩ := ready.exists_isAt isCaret (by decide)
  rw [metadata, require_eq isCaret]
  have caret : Flat (limit + 1) p.begun p.begun.advance := flat_advance rest
  have body := flat_metadataBody forms (caret.ready ready.begun)
  have fewer := Nat.lt_of_le_of_lt body.rest_le (length_rest_advanceAs_lt (p := p.begun) rest p.kind)
  exact FlatNode.node rfl (caret.trans body) fewer

theorem flat_optionalMetadata (forms : FlatForms limit form) (ready : p.Ready) :
    Flat (limit + 2) p (metadata? form p) := by
  rw [metadata?]
  split
  · rename_i isCaret
    exact (flatNode_metadata forms ready isCaret).flat
  · exact .stay _ p

/-- Metadata out of place is three nodes around the forms of its map. -/
theorem flatNode_misplacedMetadata (forms : FlatForms limit form) (ready : p.Ready)
    (isCaret : p.isAt .caret = true) : FlatNode (limit + 3) p (misplacedMetadata form p) := by
  have made := flatNode_metadata forms ready isCaret
  rw [misplacedMetadata]
  generalize metadata form p = result at made
  obtain ⟨completed, q⟩ := result
  dsimp only
  split
  · have reported := made.reportAt .misplacedMetadata (q.spanOf completed)
    exact reported.wrap rfl (.stay _ _)
  · exact made.wrap rfl (.stay _ _)

theorem flatNode_markedForm (forms : FlatForms limit form) (ready : p.Ready) (rest : p.rest = t :: ts)
    (label : (quoteNode p.kind).isLabel = true) : FlatNode (limit + 1) p (markedForm form p) := by
  have mark : Flat limit p.begun p.begun.advance := flat_advance rest
  have marked : Flat limit p.begun.advance (if p.begun.advance.atSequenceEnd then
      p.begun.advance.report (.nothingAfterMark p.kind) else (form p.begun.advance).2) := by
    split
    · exact flat_report ..
    · exact forms.flat _ (mark.ready ready.begun)
  have fewer := Nat.lt_of_le_of_lt marked.rest_le (length_rest_advanceAs_lt (p := p.begun) rest p.kind)
  exact FlatNode.complete label (mark.trans marked) fewer

end Grammar

end LispSyntax
