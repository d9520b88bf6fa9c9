import LispSyntax.Proofs.Drafted
import LispSyntax.Proofs.Productions

/-! # Trees without diagnostics follow the grammar

The grammar with recovery allows more than the grammar, but each thing more comes with a report or with an
unreadable token, and an unreadable token comes with a diagnostic of the scanner. So when there is no
diagnostic, what is left of the table with recovery is the table of the grammar (`carries_production`).
-/

namespace LispSyntax

/-! ## No diagnostics -/

theorem Diagnostic.insertByStart_ne_nil (d : Diagnostic) (ds : List Diagnostic) :
    insertByStart d ds ≠ [] := by
  cases ds with
  | nil => simp [insertByStart]
  | cons e es =>
    rw [insertByStart]
    split <;> simp

theorem Diagnostic.sortByStart_eq_nil {ds : List Diagnostic} (empty : sortByStart ds = []) :
    ds = [] := by
  cases ds with
  | nil => rfl
  | cons d ds => exact absurd empty (insertByStart_ne_nil d _)

/-- The scanner does not pass over what it cannot read. -/
theorem Token.kind_ne_unknown (r : Registry) (offset : Nat) (text : Text)
    (silent : (tokensFrom r offset text).2 = []) :
    ∀ t ∈ (tokensFrom r offset text).1, t.kind ≠ .unknown := by
  have readable : ∀ offset text, (read r offset text).diagnostics = [] →
      (read r offset text).token.kind ≠ .unknown := by
    intro offset text silent
    simp only [read, diagnosticsAt, List.map_eq_nil_iff] at silent ⊢
    cases skipped : Trivia.skip .leading text with
    | nil => exact fun unknown => Kind.noConfusion unknown
    | cons c cs =>
      rw [skipped] at silent
      exact fun unknown => (Scan.regular_scan r c cs).2 unknown silent
  fun_induction tokensFrom r offset text with
  | case1 offset text reading isEnd =>
    intro t member
    rw [List.mem_singleton] at member
    rw [member]
    exact readable offset text silent
  | case2 offset text reading notEnd next ih =>
    obtain ⟨first, rest⟩ := List.append_eq_nil_iff.mp silent
    intro t member
    rcases List.mem_cons.mp member with rfl | member
    · exact readable offset text first
    · exact ih rest t member

/-! ## From the one table to the other -/

def Draft.Clean (d : Draft) : Prop :=
  ∀ n ∈ d.nodes, n.1 ≠ .error

def Draft.Readable (d : Draft) : Prop :=
  ∀ t, d ≠ Draft.token .unknown t

namespace Productions

open Pattern Outline

/-- Clean drafts of the one pattern have sketches of the other, and none of them is unreadable. -/
def Carries (a : Pattern (Kind × Token)) (b : Pattern (Kind × Text)) : Prop :=
  ∀ ds, (∀ d ∈ ds, Draft.Clean d) → a ds → b (ds.map Draft.sketch) ∧ ∀ d ∈ ds, Draft.Readable d

/-- Clean drafts of the one sort have sketches of the other, and are not unreadable. -/
def Takes (sort : Draft → Prop) (image : Sketch → Prop) : Prop :=
  ∀ d, d.Clean → sort d → image d.sketch ∧ d.Readable

theorem readable_node (kind : Kind) (ds : List Draft) : Draft.Readable (.node kind ds) := by
  intro t same
  contradiction

theorem clean_of_mem {kind : Kind} {ds : List Draft} (clean : Draft.Clean (.node kind ds)) :
    ∀ d ∈ ds, Draft.Clean d := by
  intro d member n nMember
  apply clean
  rw [nodes_node, List.mem_cons, mem_nodesAll]
  exact .inr ⟨d, member, nMember⟩

namespace Carries

variable {a a' : Pattern (Kind × Token)} {b b' : Pattern (Kind × Text)} {sort : Draft → Prop}
  {image : Sketch → Prop}

theorem nothing : Carries .nothing .nothing := by
  rintro ds - rfl
  exact ⟨rfl, by simp⟩

theorem many (takes : Takes sort image) : Carries (.many sort) (.many image) := by
  intro ds clean good
  constructor
  · intro s member
    obtain ⟨d, dMember, rfl⟩ := List.mem_map.mp member
    exact (takes d (clean d dMember) (good d dMember)).1
  · exact fun d member => (takes d (clean d member) (good d member)).2

theorem single (takes : Takes sort image) : Carries (.single sort) (.single image) := by
  rintro ds clean ⟨d, rfl, good⟩
  obtain ⟨good', readable⟩ := takes d (clean d (by simp)) good
  exact ⟨single_mk good', by simpa using readable⟩

theorem some (takes : Takes sort image) : Carries (.some sort) (.some image) := by
  rintro ds clean ⟨nonempty, good⟩
  obtain ⟨good', readable⟩ := many takes ds clean good
  exact ⟨⟨by simpa using nonempty, good'⟩, readable⟩

theorem followedBy (first : Carries a b) (second : Carries a' b') :
    Carries (a.followedBy a') (b.followedBy b') := by
  rintro ds clean ⟨us, vs, rfl, good, good'⟩
  obtain ⟨left, leftReadable⟩ := first us (fun d member => clean d (by simp [member])) good
  obtain ⟨right, rightReadable⟩ := second vs (fun d member => clean d (by simp [member])) good'
  rw [List.map_append]
  refine ⟨followedBy_mk left right, fun d member => ?_⟩
  rcases List.mem_append.mp member with member | member
  · exact leftReadable d member
  · exact rightReadable d member

theorem orElse (left : Carries a b) (right : Carries a' b') :
    Carries (a.orElse a') (b.orElse b') := by
  rintro ds clean (good | good)
  · exact ⟨.inl (left ds clean good).1, (left ds clean good).2⟩
  · exact ⟨.inr (right ds clean good).1, (right ds clean good).2⟩

theorem optional (inner : Carries a b) : Carries a.optional b.optional :=
  nothing.orElse inner

/-- An alternative that needs a report falls away. -/
theorem or_reported (left : Carries a b) : Carries (a.orElse (.provided (¬ True) a')) b := by
  rintro ds clean (good | good)
  · exact left ds clean good
  · exact absurd trivial good.1

/-- Nothing is given up without a report. -/
theorem then_gaveUp (first : Carries a b) :
    Carries (a.followedBy (.optional (Recovery.gaveUp True))) b := by
  rintro ds clean ⟨us, vs, rfl, good, rfl | reported⟩
  · rw [List.append_nil] at clean ⊢
    exact first us clean good
  · exact absurd trivial reported.1

theorem node {kind : Kind} (children : Carries a b) : Carries (.node kind a) (.node kind b) := by
  apply single
  rintro d clean ⟨ds, rfl, good⟩
  rw [Draft.sketch_node]
  exact ⟨⟨_, rfl, (children ds (clean_of_mem clean) good).1⟩, readable_node kind ds⟩

theorem taken {kind : Kind} {sort : Token → Prop} (known : kind ≠ .unknown) :
    Carries (Draft.taken kind sort) (token kind) := by
  apply single
  rintro d - ⟨t, rfl, -⟩
  refine ⟨⟨t.text, rfl⟩, fun u same => known ?_⟩
  exact congrArg Prod.fst (Outline.leaf.inj same)

theorem tokenIn {within : Kind → Bool} (known : within .unknown = false) :
    Carries (Draft.tokenIn within) (Productions.tokenIn within) := by
  apply single
  rintro d - ⟨t, rfl, good⟩
  refine ⟨⟨t.kind, t.text, rfl, good⟩, fun u same => ?_⟩
  have unknown : t.kind = .unknown := congrArg Prod.fst (Outline.leaf.inj same)
  rw [unknown, known] at good
  contradiction

end Carries

namespace Takes

theorem hasKind (kind : Kind) : Takes (HasKind kind) (HasKind kind) := by
  rintro d - ⟨ds, rfl⟩
  exact ⟨⟨ds.map Draft.sketch, Draft.sketch_node kind ds⟩, readable_node kind ds⟩

theorem isForm : Takes Outline.IsForm IsForm := by
  rintro d clean ⟨kind, ds, rfl, accepted⟩
  have notError : kind ≠ .error := clean (kind, ds) (by simp)
  exact ⟨⟨kind, _, Draft.sketch_node kind ds, accepted, notError⟩, readable_node kind ds⟩

theorem node {kind : Kind} {a : Pattern (Kind × Token)} {b : Pattern (Kind × Text)}
    (children : Carries a b) : Takes (fun d => ∃ ds, d = .node kind ds ∧ a ds)
      (fun s => ∃ ss, s = .node kind ss ∧ b ss) := by
  rintro d clean ⟨ds, rfl, good⟩
  refine ⟨⟨_, Draft.sketch_node kind ds, ?_⟩, readable_node kind ds⟩
  exact (children ds (clean_of_mem clean) good).1

end Takes

/-! ## Parts of productions -/

theorem carries_form : Carries (.single Outline.IsForm) form :=
  .single .isForm

theorem carries_forms : Carries (.many Outline.IsForm) forms :=
  .many .isForm

theorem carries_expected : Carries (Recovery.expected True) form :=
  carries_form.or_reported

theorem carries_symbol : Carries Recovery.name symbol :=
  .node (.tokenIn rfl)

theorem carries_account : Carries Recovery.account account :=
  (Carries.node (.taken (by decide))).orElse carries_symbol

theorem carries_expectedName : Carries (Recovery.expectedName True) symbol :=
  carries_symbol.or_reported

theorem carries_closing {closer : Kind} (known : closer ≠ .unknown) :
    Carries (Draft.closing True closer) (token closer) :=
  (Carries.taken known).or_reported

theorem carries_delimited {opener closer : Kind} {a : Pattern (Kind × Token)}
    {b : Pattern (Kind × Text)} (inside : Carries a b) (known : opener ≠ .unknown)
    (known' : closer ≠ .unknown) :
    Carries (Recovery.delimited True opener closer a) (enclosed opener closer b) :=
  (Carries.taken known).followedBy (inside.followedBy (carries_closing known'))

theorem carries_special {head : Kind} {b : Pattern (Kind × Text)} (known : head ≠ .unknown)
    (body : Carries (Recovery.specialBody True head) b) :
    Carries (Recovery.special True head) (special head b) :=
  carries_delimited ((Carries.taken known).followedBy body.then_gaveUp) (by decide) (by decide)

theorem carries_quote {mark head : Kind} (known : mark ≠ .unknown) (known' : head ≠ .unknown)
    (body : Carries (Recovery.specialBody True head) form) :
    Carries (Recovery.quote True mark head) (quote mark head) :=
  ((Carries.taken known).followedBy carries_expected).orElse (carries_special known' body)

theorem carries_definition {a : Pattern (Kind × Token)} {b : Pattern (Kind × Text)}
    (body : Carries a b) : Carries (Recovery.definition True a) (definition b) :=
  (carries_symbol.followedBy ((Carries.single (.hasKind .metadata)).optional.followedBy
    body)).or_reported

theorem carries_arityParts : Carries (Recovery.arityParts True) arityParts :=
  (Carries.single (.hasKind .paramList)).followedBy carries_expected.then_gaveUp

theorem carries_groupedParts :
    Carries (Recovery.groupedParts True) (enclosed .leftParen .rightParen arityParts) :=
  carries_delimited carries_arityParts.or_reported (by decide) (by decide)

theorem carries_singleArity : Carries (Recovery.singleArity True) bareArity :=
  (Carries.node carries_arityParts).or_reported

theorem carries_arities :
    Carries (Recovery.arities True) (bareArity.orElse (Pattern.some IsGroupedArity)) :=
  (Carries.node carries_arityParts).orElse
    (Carries.some (.node carries_groupedParts)).or_reported

theorem carries_parameters : Carries (Recovery.parameters True)
    ((many (HasKind .fixedParam)).followedBy
      (.optional ((token .amp).followedBy (Pattern.some (HasKind .optionalParam))))) := by
  refine (Carries.many (.hasKind .fixedParam)).followedBy (Carries.orElse ?_ ?_)
  · rintro ds clean (rfl | reported)
    · exact Carries.nothing [] clean rfl
    · exact absurd trivial reported.1
  · exact (Carries.taken (by decide)).followedBy
      (Carries.some (.hasKind .optionalParam)).then_gaveUp.or_reported

theorem carries_bindingList : Carries (Recovery.bindingList True false) (many (HasKind .binding)) :=
  fun ds clean good => (Carries.many (.hasKind .binding)).then_gaveUp ds clean good.1

theorem carries_singleBinding :
    Carries (Recovery.bindingList True true) (single (HasKind .binding)) := by
  rintro ds clean ⟨list, counted⟩
  obtain ⟨d, rfl⟩ := List.length_eq_one_iff.mp (counted trivial rfl)
  obtain ⟨good, readable⟩ := (Carries.many (.hasKind .binding)).then_gaveUp [d] clean list
  exact ⟨single_mk (good _ (by simp)), readable⟩

theorem carries_bound {single : Bool} {a : Pattern (Kind × Token)}
    {b inside : Pattern (Kind × Text)} (list : Carries (Recovery.bindingList True single) inside)
    (body : Carries a b) :
    Carries (Recovery.bound True single a) ((bindings inside).followedBy b) :=
  ((Carries.node (carries_delimited list (by decide) (by decide))).followedBy body).or_reported

theorem carries_lookupBody :
    Carries (Recovery.lookupBody True) (account.optional.followedBy symbol) := by
  have named := carries_account.followedBy carries_expectedName
  rintro ds clean (good | good)
  · obtain ⟨follows, readable⟩ := named ds clean good
    exact ⟨followedBy_imp (fun _ account => .inr account) (fun _ => id) follows, readable⟩
  · obtain ⟨follows, readable⟩ := carries_expectedName ds clean good
    have unnamed : account.optional [] := .inl rfl
    exact ⟨followedBy_mk unnamed follows, readable⟩

theorem carries_importBody : Carries (Recovery.importBody True)
    (symbol.followedBy (.optional ((token .asMark).followedBy symbol))) :=
  (carries_symbol.followedBy
    ((Carries.taken (by decide)).followedBy carries_expectedName).optional).or_reported

theorem takes_pair : Takes Recovery.IsPair IsPair := by
  rintro d clean ⟨test, result, rfl, isTest, isResult⟩
  have both := carries_form.followedBy carries_form
  exact Takes.node both _ clean ⟨_, rfl, followedBy_mk (single_mk isTest) (single_mk isResult)⟩

theorem takes_test : Takes Recovery.IsTest IsTest := by
  rintro d clean ⟨test, rfl, isTest⟩
  exact Takes.node carries_form _ clean ⟨_, rfl, single_mk isTest⟩

theorem carries_clauses : Carries Recovery.clauses clauses := by
  rintro ds clean (good | good | good)
  · obtain ⟨pairs, readable⟩ := Carries.many takes_pair ds clean good
    refine ⟨?_, readable⟩
    by_cases empty : ds = []
    · exact .inl (by rw [empty]; rfl)
    · have someClause : Pattern.some IsPair (ds.map Draft.sketch) := ⟨by simpa using empty, pairs⟩
      rw [← List.append_nil (ds.map Draft.sketch)]
      exact .inr (.inr (followedBy_mk someClause (.inl rfl)))
  · obtain ⟨test, readable⟩ := Carries.single takes_test ds clean good
    exact ⟨.inr (.inl test), readable⟩
  · have fallback : Takes Recovery.IsFallback (HasKind .condFallback) := by
      rintro d clean ⟨form, rfl, -⟩
      exact Takes.hasKind _ _ clean ⟨_, rfl⟩
    obtain ⟨follows, readable⟩ :=
      (Carries.some takes_pair).followedBy (Carries.single fallback) ds clean good
    exact ⟨.inr (.inr (followedBy_imp (fun _ => id) (fun _ last => .inr last) follows)), readable⟩

theorem carries_entries : Carries (Recovery.entries True) (Pattern.pairs IsForm) := by
  rintro ds clean ⟨good, paired⟩
  obtain ⟨good', readable⟩ := carries_forms ds clean good
  exact ⟨⟨by simpa using paired trivial, good'⟩, readable⟩

/-! ## Productions -/

/-- When nothing is reported, a node that is no error has the children that the grammar gives it. -/
theorem carries_production {alone : Kind} (isSymbol : alone.isSymbolToken = true) {kind : Kind}
    (notError : kind ≠ .error) :
    Carries (Recovery.production alone True kind) (production kind) := by
  -- Every case goes through the parts of its row in order.
  cases kind with
  | source => exact carries_forms.followedBy (.taken (by decide))
  | literal => exact .tokenIn rfl
  | symbol =>
    rintro ds clean (good | ⟨d, rfl, t, rfl, -⟩)
    · exact Carries.tokenIn rfl ds clean good
    · refine ⟨single_mk ⟨alone, t.text, rfl, isSymbol⟩, ?_⟩
      have known : alone ≠ .unknown := by rintro rfl; contradiction
      have taken : Draft.taken alone (fun _ => True) [Draft.token alone t] :=
        single_mk ⟨t, rfl, trivial⟩
      exact (Carries.taken known _ clean taken).2
  | listForm => exact carries_delimited carries_forms (by decide) (by decide)
  | vectorForm => exact carries_delimited carries_forms (by decide) (by decide)
  | setForm => exact carries_delimited carries_forms (by decide) (by decide)
  | mapForm => exact carries_delimited carries_entries (by decide) (by decide)
  | metadata =>
    exact (Carries.taken (by decide)).followedBy (Carries.single (.hasKind .mapForm)).or_reported
  | lookupForm =>
    exact (carries_account.followedBy ((Carries.taken (by decide)).followedBy carries_symbol)).orElse
      (carries_special (by decide) carries_lookupBody)
  | importForm => exact carries_special (by decide) carries_importBody
  | defForm => exact carries_special (by decide) (carries_definition carries_expected)
  | defnForm => exact carries_special (by decide) (carries_definition carries_arities)
  | defmacroForm => exact carries_special (by decide) (carries_definition carries_singleArity)
  | fnForm => exact carries_special (by decide) carries_singleArity
  | macroForm => exact carries_special (by decide) carries_singleArity
  | arity => exact carries_arityParts.orElse carries_groupedParts
  | paramList => exact carries_delimited carries_parameters (by decide) (by decide)
  | fixedParam => exact .tokenIn rfl
  | optionalParam => exact .tokenIn rfl
  | condForm => exact carries_special (by decide) carries_clauses
  | condClause => exact carries_form.followedBy carries_form.optional
  | condFallback => exact carries_form
  | letForm => exact carries_special (by decide) (carries_bound carries_bindingList carries_forms)
  | loopForm => exact carries_special (by decide) (carries_bound carries_bindingList carries_forms)
  | ifLetForm =>
    exact carries_special (by decide) (carries_bound carries_singleBinding
      (carries_expected.followedBy carries_form.optional))
  | whenLetForm =>
    exact carries_special (by decide) (carries_bound carries_singleBinding carries_forms)
  | dotimesForm =>
    exact carries_special (by decide) (carries_bound carries_singleBinding carries_forms)
  | bindings => exact carries_delimited carries_bindingList (by decide) (by decide)
  | binding => exact carries_symbol.followedBy carries_expected
  | quoteForm => exact carries_quote (by decide) (by decide) carries_expected
  | quasiquoteForm => exact carries_quote (by decide) (by decide) carries_expected
  | unquoteForm => exact carries_quote (by decide) (by decide) carries_expected
  | error => contradiction
  | _ => exact fun _ _ good => absurd good id

end Productions

namespace Drafted

variable {text : Text} {r : Registry} {start : Parser} {d : Draft}

theorem silent_of_isOk (drafted : Drafted text r start d) (ok : diagnostics text r start = []) :
    Parser.Quiet start (Grammar.source start) ∧ ∀ t ∈ d.tokens, t.kind ≠ .unknown := by
  obtain ⟨lexical, structural⟩ :=
    List.append_eq_nil_iff.mp (Diagnostic.sortByStart_eq_nil ok)
  constructor
  · rw [Parser.Quiet, drafted.silent]
    exact List.map_eq_nil_iff.mp structural
  · rw [drafted.tokens]
    exact Token.kind_ne_unknown r 0 text lexical

/-- Where nothing was reported and every token is readable, there is no error node. -/
theorem clean (table : Grammar.FollowsTable start (Grammar.source start) d)
    (quiet : Parser.Quiet start (Grammar.source start)) (readable : ∀ t ∈ d.tokens, t.kind ≠ .unknown) : d.Clean := by
  rintro ⟨kind, ds⟩ member rfl
  have follows := table True (fun _ => quiet) (.error, ds) member
  rcases follows with ⟨e, rfl, t, rfl, unknown⟩ | ⟨reported, -⟩
  · have leaf := (Outline.mem_leaves_iff d).mpr (.inr ⟨_, member, List.mem_singleton_self _⟩)
    exact readable t (List.mem_map.mpr ⟨_, leaf, rfl⟩) unknown
  · exact reported trivial

end Drafted

open Productions in
/-- A parse without diagnostics gives a source node in which every node has the children of its
production, no node is an error and no token is unreadable. -/
theorem production_of_isOk {text : Text} {r : Registry} {result : Parse}
    (parsed : parse text r = .ok result) (ok : result.isOk = true) :
    (∃ children, result.tree.sketch = .node .source children) ∧
    (∀ n ∈ result.tree.sketch.nodes, n.1 ≠ .error ∧ production n.1 n.2) ∧
    (∀ leaf ∈ result.tree.sketch.leaves, leaf.1 ≠ .unknown) := by
  obtain ⟨start, d, drafted, table⟩ := exists_drafted text r
  obtain rfl := drafted.eq_of_parse_eq_ok parsed
  obtain ⟨quiet, readable⟩ := drafted.silent_of_isOk (List.isEmpty_iff.mp ok)
  have clean := Drafted.clean table quiet readable
  have isSymbol : start.slashKind.isSymbolToken = true := by
    rw [drafted.slash]
    exact Scan.isSymbolToken_symbolKind r ['/']
  -- One statement for all nodes: the liberal table holds, nothing was reported, so the strict one does.
  have carried : ∀ n ∈ d.nodes, production n.1 (n.2.map Draft.sketch) ∧
      ∀ e ∈ n.2, Draft.Readable e := by
    intro n member
    have follows := table True (fun _ => quiet) n member
    apply carries_production isSymbol (clean n member) n.2 _ follows
    exact fun e eMember m mMember => clean m (Outline.mem_nodes_of_mem eMember mMember d member)
  obtain ⟨ds, rfl⟩ := drafted.reads.isSource
  rw [Draft.sketch_tree _ drafted.lies]
  refine ⟨⟨ds.map Draft.sketch, Draft.sketch_node .source ds⟩, ?_, ?_⟩
  · intro n member
    rw [Draft.sketch, Outline.nodes_map] at member
    obtain ⟨m, mMember, rfl⟩ := List.mem_map.mp member
    exact ⟨clean m mMember, (carried m mMember).1⟩
  · intro leaf member
    rw [Draft.sketch, Outline.leaves_map] at member
    obtain ⟨⟨kind, t⟩, tMember, rfl⟩ := List.mem_map.mp member
    rcases (Outline.mem_leaves_iff _).mp tMember with isLeaf | ⟨n, nMember, child⟩
    · contradiction
    · rintro rfl
      exact (carried n nMember).2 _ child t rfl

open Productions in
/-- A function with metadata and two arities follows the grammar. -/
theorem production_of_isOk_arities :
    ∃ result, parse "(defn f ^\x7b:a 1\x7d ([x] #7/y) ([& ys] ~ys))".toList Registry.empty = .ok result ∧
      result.isOk = true ∧
      (∃ children, result.tree.sketch = .node .source children) ∧
      (∀ n ∈ result.tree.sketch.nodes, n.1 ≠ .error ∧ production n.1 n.2) ∧
      (∀ leaf ∈ result.tree.sketch.leaves, leaf.1 ≠ .unknown) := by
  have ok : (parse "(defn f ^\x7b:a 1\x7d ([x] #7/y) ([& ys] ~ys))".toList Registry.empty).toOption.any
      Parse.isOk = true := by decide +kernel
  obtain ⟨result, parsed, ok⟩ := exists_parse_of_any ok
  exact ⟨result, parsed, ok, production_of_isOk parsed ok⟩

end LispSyntax
