import LispSyntax.Proofs.Derivation.Form

/-! # Maps in a derivation

The parser counts the forms of a map while it reads them, and reports the last key if their number is odd. All reports
of a text are in one list, which does not say what map raised them. What tells them apart is where they start: a missing
value is reported at the key, so it starts behind the brace of its map, and where a form of this map starts and of no
other. A closing delimiter that closes nothing is reported where it stands, and is not counted.

The invariant of the main induction, `Pairing`, keeps track of where the reports of a stretch of parsing start, so that
what other stretches report does not matter to the maps in it.
-/

namespace LispSyntax

/-! ## Where spans start -/

def Span.StartsIn (s : Span) (ts : List Token) : Prop :=
  ∃ t ∈ ts, s.start = t.span.start

theorem Span.StartsIn.mono {s : Span} {ts us : List Token} (starts : s.StartsIn ts) (more : ts ⊆ us) :
    s.StartsIn us := by
  obtain ⟨t, member, startEq⟩ := starts
  exact ⟨t, more member, startEq⟩

namespace Delimiters.InOrder

variable {t : Token} {ts us : List Token} {s : Span}

theorem not_startsIn (inOrder : InOrder (ts ++ us)) (first : s.StartsIn ts) : ¬ s.StartsIn us := by
  rintro ⟨u, member', startEq'⟩
  obtain ⟨t, member, startEq⟩ := first
  have before := (List.pairwise_append.mp inOrder).2.2 t member u member'
  omega

theorem start_extent (inOrder : InOrder (t :: ts)) : (Token.extent (t :: ts)).start = t.span.start := by
  have last : (ts.getLast?.getD t).span.start ≥ t.span.start := by
    cases found : ts.getLast? with
    | none => exact Nat.le_refl _
    | some u => exact Nat.le_of_lt (List.rel_of_pairwise_cons inOrder (List.mem_of_getLast? found))
  exact Nat.min_eq_left last

theorem extent_startsIn (inOrder : InOrder ts) (filled : ts ≠ []) : (Token.extent ts).StartsIn (ts.take 1) := by
  cases ts with
  | nil => contradiction
  | cons t ts => exact ⟨t, by simp, inOrder.start_extent⟩

end Delimiters.InOrder

/-! ## First leaves -/

namespace Draft

/-- The leaf that is reached in the draft by always taking the first child. -/
inductive Starts : Draft → Kind × Token → Prop
  | leaf {leaf} : Starts (.leaf leaf) leaf
  | node {kind d ds leaf} : Starts d leaf → Starts (.node kind (d :: ds)) leaf

theorem Starts.token {kind : Kind} {t : Token} : (Draft.token kind t).Starts (kind, t) :=
  .leaf

theorem Starts.exists_leaves {d : Draft} {leaf : Kind × Token} (starts : d.Starts leaf) :
    ∃ leaves, d.leaves = leaf :: leaves := by
  induction starts with
  | leaf => exact ⟨[], rfl⟩
  | node _ inductionHypothesis =>
    obtain ⟨leaves, leavesEq⟩ := inductionHypothesis
    exact ⟨_, by rw [Outline.leaves_node, Outline.leavesAll_cons, leavesEq, List.cons_append]⟩

theorem Starts.tokens_ne_nil {d : Draft} {leaf : Kind × Token} (starts : d.Starts leaf) : d.tokens ≠ [] := by
  obtain ⟨leaves, leavesEq⟩ := starts.exists_leaves
  simp [tokens, leavesEq]

def IsFilled (d : Draft) : Prop :=
  d.isNode = true ∧ ∃ leaf, d.Starts leaf

def spans (ds : List Draft) : List Span :=
  (ds.filter Outline.isNode).map fun d : Draft => Token.extent d.tokens

@[simp] theorem spans_token {kind : Kind} {t : Token} {ds : List Draft} :
    spans (Draft.token kind t :: ds) = spans ds := rfl

@[simp] theorem spans_append {ds es : List Draft} : spans (ds ++ es) = spans ds ++ spans es := by
  simp [spans]

theorem spans_eq_nil {ds : List Draft} (leaves : ∀ d ∈ ds, d.isNode = false) : spans ds = [] := by
  rw [spans, List.filter_eq_nil_iff.mpr fun d member => by rw [leaves d member]; exact Bool.false_ne_true, List.map_nil]

theorem nodes_eq_nil {d : Draft} (leaf : d.isNode = false) : d.nodes = [] := by
  cases d with
  | node => contradiction
  | leaf => rfl

theorem exists_starts_of_leaf {d : Draft} (noNode : d.isNode = false) : ∃ leaf, d.Starts leaf := by
  cases d with
  | node => contradiction
  | leaf leaf => exact ⟨leaf, .leaf⟩

theorem spans_eq_map {ds : List Draft} (nodes : ∀ d ∈ ds, d.isNode = true) :
    spans ds = ds.map fun d => Token.extent d.tokens := by
  rw [spans, List.filter_eq_self.mpr nodes]

end Draft

/-! ## Reports about the forms of a map -/

def StructuralProblem.isStray : StructuralProblem → Bool
  | unexpectedCloser kind => kind.isCloser
  | _ => false

namespace Report

/-- A report that says something of the forms of a map. -/
def IsPlaced (report : Report) : Prop :=
  report.problem = .noMapValue ∨ report.problem.isStray = true

theorem not_isPlaced_of_isRemark {problem : StructuralProblem} {span : Span} {context : Option String}
    (isRemark : problem.isRemark = true) : ¬ IsPlaced ⟨problem, span, context⟩ := by
  rintro (isMissing | isStray)
  · change problem = .noMapValue at isMissing
    rw [isMissing] at isRemark
    contradiction
  · cases problem <;> contradiction

end Report

namespace Grammar

open Draft Delimiters

variable {last t : Token} {role inner outer : Role} {frames : List Frame} {ds es counted : List Draft}
  {rs rs' : List Report} {after : List Token} {counts : Bool} {mode : Mode} {spans : List Span}

/-- Whether a closing delimiter that closes nothing is reported at the span. -/
def strayAt (rs : List Report) (s : Span) : Bool :=
  rs.any fun report => report.problem.isStray && report.span == s

theorem strayAt_eq_true {s : Span} :
    strayAt rs s = true ↔ ∃ report ∈ rs, report.problem.isStray = true ∧ report.span = s := by
  simp [strayAt]

/-- Of forms with the spans, one is reported to have no value. -/
def Misses (rs : List Report) (spans : List Span) : Prop :=
  ∃ s ∈ spans, ⟨.noMapValue, s, some "map"⟩ ∈ rs

/-- A form has no value exactly if the number of those that are no stray closing delimiters is odd. -/
def Paired (rs : List Report) (spans : List Span) : Prop :=
  Misses rs spans ↔ (spans.countP fun s => !strayAt rs s) % 2 = 1

/-- Whether forms are paired depends only on what is reported at them. -/
theorem Paired.congr (paired : Paired rs spans)
    (same : ∀ report : Report, report.IsPlaced → report.span ∈ spans → (report ∈ rs ↔ report ∈ rs')) :
    Paired rs' spans := by
  have missing : Misses rs' spans ↔ Misses rs spans :=
    exists_congr fun s => and_congr_right fun member => (same ⟨.noMapValue, s, some "map"⟩ (.inl rfl) member).symm
  have strays : spans.countP (fun s => !strayAt rs' s) = spans.countP fun s => !strayAt rs s := by
    refine List.countP_congr fun s member => ?_
    have agree : strayAt rs' s = strayAt rs s := by
      rw [Bool.eq_iff_iff, strayAt_eq_true, strayAt_eq_true]
      refine exists_congr fun report => ?_
      constructor
      · rintro ⟨reported, isStray, spanEq⟩
        exact ⟨(same report (.inr isStray) (spanEq ▸ member)).mpr reported, isStray, spanEq⟩
      · rintro ⟨reported, isStray, spanEq⟩
        exact ⟨(same report (.inr isStray) (spanEq ▸ member)).mp reported, isStray, spanEq⟩
    rw [agree]
  rw [Paired, missing, strays]
  exact paired

/-! ## Where the reports of a stretch start -/

/-- The tokens at which the stretch can report a missing value. -/
def interior : Role → List Draft → List Token
  | .row _, ds => ds.flatMap fun d => d.tokens.tail
  | .form _, ds | .metadata, ds | .group _, ds | .parts _, ds => (tokensAll ds).tail

/-- The tokens at which the stretch can report a closing delimiter that closes nothing. -/
def held : Role → List Draft → List Token
  | .form true, ds | .metadata, ds | .group _, ds => (tokensAll ds).tail
  | .form false, ds | .parts _, ds | .row _, ds => tokensAll ds

theorem interior_subset (role : Role) (ds : List Draft) : interior role ds ⊆ tokensAll ds := by
  cases role with
  | row counted =>
    induction ds with
    | nil => simp [interior]
    | cons d ds inductionHypothesis =>
      intro t member
      simp only [interior, List.flatMap_cons, List.mem_append, tokensAll_cons] at member inductionHypothesis ⊢
      exact member.imp List.mem_of_mem_tail (inductionHypothesis ·)
  | _ => exact (List.tail_sublist _).subset

theorem held_subset (role : Role) (ds : List Draft) : held role ds ⊆ tokensAll ds := by
  unfold held
  split
  all_goals first | exact (List.tail_sublist _).subset | exact List.Subset.refl _

/-- Where the reports of a stretch of parsing start, and that the maps in it are paired. -/
structure Pairing (role : Role) (ds : List Draft) (rs : List Report) : Prop where
  missing : ∀ report ∈ rs, report.problem = .noMapValue → report.span.StartsIn (interior role ds)
  stray : ∀ report ∈ rs, report.problem.isStray = true → report.span.StartsIn (held role ds)
  maps : ∀ n ∈ Outline.nodesAll ds, n.1 = .mapForm → (∀ d ∈ n.2, ∃ leaf, Draft.Starts d leaf) ∧
    (∀ s ∈ Draft.spans n.2, s.StartsIn (interior role ds)) ∧ Paired rs (Draft.spans n.2)

namespace Pairing

theorem startsIn (pairing : Pairing role ds rs) {report : Report} (reported : report ∈ rs)
    (placed : report.IsPlaced) : report.span.StartsIn (tokensAll ds) := by
  rcases placed with isMissing | isStray
  · exact (pairing.missing report reported isMissing).mono (interior_subset role ds)
  · exact (pairing.stray report reported isStray).mono (held_subset role ds)

/-- A stretch without a map that reports nothing of the forms of one. -/
theorem plain (noMap : ∀ n ∈ Outline.nodesAll ds, n.1 ≠ .mapForm)
    (notPlaced : ∀ report ∈ rs, ¬ report.IsPlaced) : Pairing role ds rs where
  missing report reported isMissing := absurd (.inl isMissing) (notPlaced report reported)
  stray report reported isStray := absurd (.inr isStray) (notPlaced report reported)
  maps n member isMap := absurd isMap (noMap n member)

/-- Other drafts with the same maps. -/
theorem mono (pairing : Pairing inner ds rs)
    (maps : ∀ n ∈ Outline.nodesAll es, n.1 = .mapForm → n ∈ Outline.nodesAll ds)
    (interiors : interior inner ds ⊆ interior outer es) (helds : held inner ds ⊆ held outer es) :
    Pairing outer es rs where
  missing report reported isMissing := (pairing.missing report reported isMissing).mono interiors
  stray report reported isStray := (pairing.stray report reported isStray).mono helds
  maps n member isMap := by
    obtain ⟨filled, starts, paired⟩ := pairing.maps n (maps n member isMap) isMap
    exact ⟨filled, fun s inside => (starts s inside).mono interiors, paired⟩

/-- Reports that say nothing of the forms of a map do not matter. -/
theorem reports (pairing : Pairing role ds rs)
    (same : ∀ report : Report, report.IsPlaced → (report ∈ rs' ↔ report ∈ rs)) : Pairing role ds rs' where
  missing report reported isMissing :=
    pairing.missing report ((same report (.inl isMissing)).mp reported) isMissing
  stray report reported isStray := pairing.stray report ((same report (.inr isStray)).mp reported) isStray
  maps n member isMap := by
    obtain ⟨filled, starts, paired⟩ := pairing.maps n member isMap
    exact ⟨filled, starts, paired.congr fun report placed _ => (same report placed).symm⟩

theorem reports_append (pairing : Pairing role ds rs) (notPlaced : ∀ report ∈ rs', ¬ report.IsPlaced) :
    Pairing role ds (rs ++ rs') :=
  pairing.reports fun report placed => by
    rw [List.mem_append, or_iff_left fun reported => notPlaced report reported placed]

theorem reports_prepend (pairing : Pairing role ds rs) (notPlaced : ∀ report ∈ rs', ¬ report.IsPlaced) :
    Pairing role ds (rs' ++ rs) :=
  pairing.reports fun report placed => by
    rw [List.mem_append, or_iff_right fun reported => notPlaced report reported placed]

/-- One stretch after another. -/
theorem append (first : Pairing inner ds rs) {next : Role} (second : Pairing next es rs')
    (inOrder : InOrder (tokensAll ds ++ tokensAll es))
    (interiors : interior inner ds ⊆ interior outer (ds ++ es))
    (interiors' : interior next es ⊆ interior outer (ds ++ es))
    (helds : held inner ds ⊆ held outer (ds ++ es)) (helds' : held next es ⊆ held outer (ds ++ es)) :
    Pairing outer (ds ++ es) (rs ++ rs') where
  missing report reported isMissing := by
    rcases List.mem_append.mp reported with reported | reported
    · exact (first.missing report reported isMissing).mono interiors
    · exact (second.missing report reported isMissing).mono interiors'
  stray report reported isStray := by
    rcases List.mem_append.mp reported with reported | reported
    · exact (first.stray report reported isStray).mono helds
    · exact (second.stray report reported isStray).mono helds'
  maps n member isMap := by
    obtain ⟨d, inside, below⟩ := Outline.mem_nodesAll.mp member
    rcases List.mem_append.mp inside with inside | inside
    · obtain ⟨filled, starts, paired⟩ := first.maps n (Outline.mem_nodesAll.mpr ⟨d, inside, below⟩) isMap
      refine ⟨filled, fun s member => (starts s member).mono interiors, paired.congr fun report placed here => ?_⟩
      have apart : report ∉ rs' := fun reported =>
        inOrder.not_startsIn ((starts _ here).mono (interior_subset inner ds)) (second.startsIn reported placed)
      rw [List.mem_append, or_iff_left apart]
    · obtain ⟨filled, starts, paired⟩ := second.maps n (Outline.mem_nodesAll.mpr ⟨d, inside, below⟩) isMap
      refine ⟨filled, fun s member => (starts s member).mono interiors', paired.congr fun report placed here => ?_⟩
      have apart : report ∉ rs := fun reported =>
        inOrder.not_startsIn (first.startsIn reported placed) ((starts _ here).mono (interior_subset next es))
      rw [List.mem_append, or_iff_right apart]

end Pairing

/-! ## Counting the forms of a map -/

/-- A form is a node that starts with a token. -/
theorem Derives.isFilled (derives : Derives last (.form counts) frames ds rs after) : ∀ d ∈ ds, d.IsFilled := by
  cases derives with
  | enclosed _ _ group =>
    obtain ⟨t, es, rfl⟩ := group.exists_cons_of_group
    exact List.forall_mem_singleton.mpr ⟨rfl, _, .node .token⟩
  | misplaced _ metadata =>
    obtain ⟨t, es, rfl⟩ := metadata.exists_node_of_metadata
    exact List.forall_mem_singleton.mpr ⟨rfl, _, .node (.node .token)⟩
  | lookup => exact List.forall_mem_singleton.mpr ⟨rfl, _, .node (.node .token)⟩
  | _ => exact List.forall_mem_singleton.mpr ⟨rfl, _, .node .token⟩

/-- The forms of a row with those that count: all but the stray closing delimiters. -/
structure Counted (counted ds : List Draft) (rs : List Report) : Prop where
  subset : counted ⊆ ds
  filled : ∀ d ∈ ds, d.IsFilled
  count : (ds.countP fun d => !strayAt rs (Token.extent d.tokens)) = counted.length

theorem strayAt_append (s : Span) : strayAt (rs ++ rs') s = (strayAt rs s || strayAt rs' s) :=
  List.any_append

theorem Pairing.strayAt_eq_false (pairing : Pairing role ds rs) {s : Span} (apart : ¬ s.StartsIn (held role ds)) :
    strayAt rs s = false := by
  rw [Bool.eq_false_iff]
  intro found
  obtain ⟨report, reported, isStray, rfl⟩ := strayAt_eq_true.mp found
  exact apart (pairing.stray report reported isStray)

section Extents

variable {d : Draft}

theorem tokens_subset (member : d ∈ ds) : d.tokens ⊆ tokensAll ds := by
  obtain ⟨before, behind, rfl⟩ := List.append_of_mem member
  rw [tokensAll_append, tokensAll_cons]
  exact List.Subset.trans (List.subset_append_left _ _) (List.subset_append_right _ _)

theorem extent_startsIn_tokens (inOrder : InOrder d.tokens) (filled : d.IsFilled) :
    (Token.extent d.tokens).StartsIn d.tokens := by
  obtain ⟨-, leaf, starts⟩ := filled
  exact (inOrder.extent_startsIn starts.tokens_ne_nil).mono (List.take_subset 1 _)

theorem extent_not_startsIn_tail (inOrder : InOrder d.tokens) (filled : d.IsFilled) :
    ¬ (Token.extent d.tokens).StartsIn d.tokens.tail := by
  obtain ⟨-, leaf, starts⟩ := filled
  have split : d.tokens = d.tokens.take 1 ++ d.tokens.tail := by rw [← List.drop_one, List.take_append_drop]
  exact (split ▸ inOrder).not_startsIn (inOrder.extent_startsIn starts.tokens_ne_nil)

theorem inOrder_of_mem (inOrder : InOrder (tokensAll ds)) (member : d ∈ ds) : InOrder d.tokens := by
  obtain ⟨before, behind, rfl⟩ := List.append_of_mem member
  rw [tokensAll_append, tokensAll_cons, ← List.append_assoc] at inOrder
  exact inOrder.sublist (List.infix_append _ _ _).sublist

/-- A row reports no value to be missing where one of its forms starts. -/
theorem extent_not_startsIn_interior (inOrder : InOrder (tokensAll ds)) (filled : ∀ d ∈ ds, d.IsFilled)
    (member : d ∈ ds) : ¬ (Token.extent d.tokens).StartsIn (interior (.row counted) ds) := by
  rintro ⟨t, inside, startEq⟩
  obtain ⟨e, member', inTail⟩ := List.mem_flatMap.mp inside
  have first := extent_startsIn_tokens (inOrder_of_mem inOrder member) (filled d member)
  obtain ⟨before, behind, rfl⟩ := List.append_of_mem member'
  rw [tokensAll_append, tokensAll_cons] at inOrder
  have last : (Token.extent d.tokens).StartsIn e.tokens := ⟨t, List.mem_of_mem_tail inTail, startEq⟩
  rcases List.mem_append.mp member with member | member
  · have within : d.tokens ⊆ tokensAll before := tokens_subset member
    exact inOrder.not_startsIn (first.mono within) (last.mono (List.subset_append_left _ _))
  · have inOrder := (List.pairwise_append.mp inOrder).2.1
    rcases List.mem_cons.mp member with rfl | member
    · exact extent_not_startsIn_tail (List.pairwise_append.mp inOrder).1 (filled d (by simp)) ⟨t, inTail, startEq⟩
    · exact InOrder.not_startsIn inOrder last (first.mono (tokens_subset member))

end Extents

/-- What is reported of the form in front of a row does not matter to the count of the row. -/
theorem Counted.behind {d : Draft} (rest : Counted counted ds rs') (first : Pairing role [d] rs)
    (inOrder : InOrder (tokensAll [d] ++ tokensAll ds)) :
    (ds.countP fun e => !strayAt (rs ++ rs') (Token.extent e.tokens)) = counted.length := by
  rw [← rest.count]
  refine List.countP_congr fun e member => ?_
  have inOrder' : InOrder e.tokens := inOrder_of_mem (List.pairwise_append.mp inOrder).2.1 member
  have start := (extent_startsIn_tokens inOrder' (rest.filled e member)).mono (tokens_subset member)
  have apart : ¬ (Token.extent e.tokens).StartsIn (held role [d]) := fun found =>
    inOrder.not_startsIn (found.mono (held_subset role [d])) start
  rw [strayAt_append, first.strayAt_eq_false apart, Bool.false_or]

theorem Counted.entry {d : Draft} (rest : Counted counted ds rs') (row : Pairing (.row counted) ds rs')
    (first : Pairing (.form true) [d] rs) (filled : d.IsFilled) (inOrder : InOrder (tokensAll [d] ++ tokensAll ds)) :
    Counted (d :: counted) (d :: ds) (rs ++ rs') where
  subset := List.cons_subset_cons d rest.subset
  filled := List.forall_mem_cons.mpr ⟨filled, rest.filled⟩
  count := by
    have inOrder' : InOrder d.tokens := inOrder_of_mem (List.pairwise_append.mp inOrder).1 (List.mem_singleton_self d)
    have start := extent_startsIn_tokens inOrder' filled
    have notBehind : ¬ (Token.extent d.tokens).StartsIn (held (.row counted) ds) :=
      inOrder.not_startsIn (start.mono (tokens_subset (List.mem_singleton_self d)))
    have notInside : ¬ (Token.extent d.tokens).StartsIn (held (.form true) [d]) := by
      simpa [held] using extent_not_startsIn_tail inOrder' filled
    have counts : strayAt (rs ++ rs') (Token.extent d.tokens) = false := by
      rw [strayAt_append, first.strayAt_eq_false notInside, row.strayAt_eq_false notBehind]
      rfl
    rw [List.countP_cons, rest.behind first inOrder, counts]
    rfl

theorem Counted.skipped {d : Draft} (rest : Counted counted ds rs') (first : Pairing (.form false) [d] rs)
    (derives : Derives last (.form false) frames [d] rs after) (inOrder : InOrder (tokensAll [d] ++ tokensAll ds)) :
    Counted counted (d :: ds) (rs ++ rs') where
  subset := List.Subset.trans rest.subset (List.subset_cons_self d ds)
  filled := List.forall_mem_cons.mpr ⟨derives.isFilled d (List.mem_singleton_self d), rest.filled⟩
  count := by
    have stray : strayAt rs (Token.extent d.tokens) = true := by
      cases derives with
      | stray isCloser => simp [strayAt, StructuralProblem.isStray, extent_singleton, isCloser]
    rw [List.countP_cons, rest.behind first inOrder, strayAt_append, stray]
    rfl

/-! ## Maps are paired -/

theorem mem_unpaired {report : Report} : report ∈ unpaired counted ↔
    counted.length % 2 = 1 ∧ ∃ d, counted.getLast? = some d ∧
      report = ⟨.noMapValue, Token.extent d.tokens, some "map"⟩ := by
  unfold unpaired
  cases counted.getLast? with
  | none => simp
  | some d =>
    rcases Nat.mod_two_eq_zero_or_one counted.length with even | odd
    · simp [even]
    · simp [odd]

theorem exists_of_mem_unpaired {report : Report} (counting : Counted counted ds rs)
    (reported : report ∈ unpaired counted) :
    report.problem = .noMapValue ∧ ∃ d ∈ ds, report.span = Token.extent d.tokens := by
  obtain ⟨-, d, found, rfl⟩ := mem_unpaired.mp reported
  exact ⟨rfl, d, counting.subset (List.mem_of_getLast? found), rfl⟩

/-- The report of a map pairs its forms. -/
theorem Counted.paired (counting : Counted counted ds rs) (row : Pairing (.row counted) ds rs)
    (inOrder : InOrder (tokensAll ds)) :
    Paired (rs ++ unpaired counted) (ds.map fun d => Token.extent d.tokens) := by
  have noStray (s : Span) : strayAt (rs ++ unpaired counted) s = strayAt rs s := by
    have none : strayAt (unpaired counted) s = false := by
      rw [Bool.eq_false_iff]
      intro found
      obtain ⟨report, reported, isStray, -⟩ := strayAt_eq_true.mp found
      rw [(exists_of_mem_unpaired counting reported).1] at isStray
      contradiction
    rw [strayAt_append, none, Bool.or_false]
  simp only [Paired, noStray, List.countP_map, Function.comp_def, counting.count]
  constructor
  · rintro ⟨s, member, reported⟩
    obtain ⟨d, inside, rfl⟩ := List.mem_map.mp member
    rcases List.mem_append.mp reported with reported | reported
    · exact absurd (row.missing _ reported rfl) (extent_not_startsIn_interior inOrder counting.filled inside)
    · exact (mem_unpaired.mp reported).1
  · intro odd
    cases found : counted.getLast? with
    | none =>
      rw [List.getLast?_eq_none_iff.mp found] at odd
      contradiction
    | some d =>
      have inside := counting.subset (List.mem_of_getLast? found)
      exact ⟨_, List.mem_map_of_mem inside, List.mem_append_right _ (mem_unpaired.mpr ⟨odd, d, found, rfl⟩)⟩

/-- The report of a map is at one of its forms, where nothing inside them starts. -/
theorem Counted.paired_inside (counting : Counted counted ds rs) (inOrder : InOrder (tokensAll ds))
    (startsIn : ∀ s ∈ spans, s.StartsIn (interior (.row counted) ds)) (paired : Paired rs spans) :
    Paired (rs ++ unpaired counted) spans := by
  refine paired.congr fun report _ inside => ?_
  have apart : report ∉ unpaired counted := by
    intro reported
    obtain ⟨-, d, member, spanEq⟩ := exists_of_mem_unpaired counting reported
    have start := startsIn _ inside
    rw [spanEq] at start
    exact extent_not_startsIn_interior inOrder counting.filled member start
  rw [List.mem_append, or_iff_left apart]

theorem Counted.spans_eq (counting : Counted counted ds rs) (leaves : ∀ e ∈ es, e.isNode = false) :
    Draft.spans (Draft.token t.kind t :: ds ++ es) = ds.map fun d => Token.extent d.tokens := by
  rw [List.cons_append, spans_token, spans_append, spans_eq_map fun d member => (counting.filled d member).1,
    spans_eq_nil leaves, List.append_nil]

theorem eq_or_mem_nodesAll {kind : Kind} {n : Kind × List Draft} (leaves : ∀ e ∈ es, e.isNode = false)
    (member : n ∈ Outline.nodesAll [.node kind (Draft.token t.kind t :: ds ++ es)]) :
    n = (kind, Draft.token t.kind t :: ds ++ es) ∨ n ∈ Outline.nodesAll ds := by
  simp only [Outline.nodesAll, Outline.nodes_node, List.append_nil, List.mem_cons] at member
  refine member.imp_right fun below => ?_
  obtain ⟨d, inside, below⟩ := Outline.mem_nodesAll.mp below
  rcases List.mem_append.mp inside with inside | isLeaf
  · rcases List.mem_cons.mp inside with rfl | isForm
    · cases below
    · exact Outline.mem_nodesAll.mpr ⟨d, isForm, below⟩
  · rw [nodes_eq_nil (leaves d isLeaf)] at below
    cases below

/-- A map is paired, and so are the maps in it. -/
theorem Pairing.map (row : Pairing (.row counted) ds rs) (counting : Counted counted ds rs)
    (inOrder : InOrder (tokensAll ds)) (leaves : ∀ e ∈ es, e.isNode = false) :
    Pairing (.form true) [.node .mapForm (Draft.token t.kind t :: ds ++ es)] (rs ++ unpaired counted) := by
  have interiorEq : interior (.form true) [.node .mapForm (Draft.token t.kind t :: ds ++ es)] =
      tokensAll ds ++ tokensAll es := by
    rw [interior, tokensAll_node, List.cons_append, tokensAll_token, List.tail_cons, tokensAll_append]
  have heldEq : held (.form true) [.node .mapForm (Draft.token t.kind t :: ds ++ es)] =
      tokensAll ds ++ tokensAll es := interiorEq
  have starts : ∀ d ∈ ds, (Token.extent d.tokens).StartsIn (tokensAll ds ++ tokensAll es) := fun d member =>
    (extent_startsIn_tokens (inOrder_of_mem inOrder member) (counting.filled d member)).mono
      (List.Subset.trans (tokens_subset member) (List.subset_append_left _ _))
  have inside {s : Span} (startsIn : s.StartsIn (tokensAll ds)) : s.StartsIn (tokensAll ds ++ tokensAll es) :=
    startsIn.mono (List.subset_append_left _ _)
  refine ⟨fun report reported isMissing => ?_, fun report reported isStray => ?_, fun n member isMap => ?_⟩
  · rw [interiorEq]
    rcases List.mem_append.mp reported with reported | reported
    · exact inside (row.startsIn reported (.inl isMissing))
    · obtain ⟨-, d, member, spanEq⟩ := exists_of_mem_unpaired counting reported
      rw [spanEq]
      exact starts d member
  · rw [heldEq]
    rcases List.mem_append.mp reported with reported | reported
    · exact inside (row.startsIn reported (.inr isStray))
    · rw [(exists_of_mem_unpaired counting reported).1] at isStray
      contradiction
  · rw [interiorEq]
    rcases eq_or_mem_nodesAll leaves member with rfl | below
    · rw [counting.spans_eq leaves]
      refine ⟨?_, fun s member => ?_, counting.paired row inOrder⟩
      · exact List.forall_mem_append.mpr ⟨List.forall_mem_cons.mpr ⟨⟨_, .token⟩, fun d member =>
          (counting.filled d member).2⟩, fun e member => exists_starts_of_leaf (leaves e member)⟩
      · obtain ⟨d, isForm, rfl⟩ := List.mem_map.mp member
        exact starts d isForm
    · obtain ⟨filled, startsIn, paired⟩ := row.maps n below isMap
      exact ⟨filled, fun s member => inside ((startsIn s member).mono (interior_subset _ ds)),
        counting.paired_inside inOrder startsIn paired⟩

namespace Pairing

theorem recast (pairing : Pairing inner ds rs) (interiors : interior inner ds ⊆ interior outer ds)
    (helds : held inner ds ⊆ held outer ds) : Pairing outer ds rs :=
  pairing.mono (fun _ member _ => member) interiors helds

theorem node {kind : Kind} (pairing : Pairing inner ds rs) (noMap : kind ≠ .mapForm)
    (interiors : interior inner ds ⊆ interior outer [.node kind ds])
    (helds : held inner ds ⊆ held outer [.node kind ds]) : Pairing outer [.node kind ds] rs := by
  refine pairing.mono (fun n member isMap => ?_) interiors helds
  simp only [Outline.nodesAll, Outline.nodes_node, List.append_nil, List.mem_cons] at member
  exact member.resolve_left fun isRoot => noMap (by rw [← isMap, isRoot])

/-- A stretch behind a token. -/
theorem behind (pairing : Pairing inner ds rs) (mode : Mode) (t : Token) :
    Pairing (.group mode) (Draft.token t.kind t :: ds) rs :=
  pairing.mono (fun _ member _ => member)
    (by simpa [interior] using interior_subset inner ds) (by simpa [held] using held_subset inner ds)

theorem markedNode {kind : Kind} (pairing : Pairing inner ds rs) (t : Token) (noMap : kind ≠ .mapForm) :
    Pairing (.form true) [.node kind (Draft.token t.kind t :: ds)] rs :=
  (pairing.behind .plain t).node noMap (by simp [interior]) (by simp [held])

end Pairing

theorem tail_subset_left (ts us : List Token) : ts.tail ⊆ (ts ++ us).tail := by
  cases ts <;> simp

theorem tail_subset_right (ts us : List Token) : us.tail ⊆ (ts ++ us).tail := by
  cases ts with
  | nil => simp
  | cons t ts => exact List.Subset.trans (List.tail_sublist us).subset (List.subset_append_right ts us)

theorem Pairing.parts_append (first : Pairing (.parts mode) ds rs) (second : Pairing (.parts mode) es rs')
    (inOrder : InOrder (tokensAll ds ++ tokensAll es)) : Pairing (.parts mode) (ds ++ es) (rs ++ rs') :=
  first.append second inOrder
    (by simpa [interior] using tail_subset_left _ _) (by simpa [interior] using tail_subset_right _ _)
    (by simp [held]) (by simp [held])

theorem Pairing.row_cons {d : Draft} {others : List Draft} (first : Pairing (.form counts) [d] rs)
    (rest : Pairing (.row counted) ds rs') (inOrder : InOrder (tokensAll [d] ++ tokensAll ds)) :
    Pairing (.row others) (d :: ds) (rs ++ rs') :=
  first.append rest inOrder (by simp [interior]) (by simp [interior])
    (List.Subset.trans (held_subset _ _) (by simp [held])) (by simp [held])

theorem ne_mapForm_of_isWord {kind : Kind} (isWord : IsWord kind t) : kind ≠ .mapForm := by
  rcases isWord with ⟨rfl, -⟩ | ⟨rfl, -⟩ <;> decide

theorem quoteNode_ne_mapForm (kind : Kind) : quoteNode kind ≠ .mapForm := by
  unfold quoteNode
  split <;> decide

theorem Closing.leaves {frame : Frame} (closing : Closing last frames frame es rs after) :
    ∀ e ∈ es, e.isNode = false := by
  cases closing with
  | taken => exact List.forall_mem_singleton.mpr rfl
  | missing => simp

theorem Closing.not_isPlaced {frame : Frame} (closing : Closing last frames frame es rs after) :
    ∀ report ∈ rs, ¬ report.IsPlaced := by
  cases closing with
  | taken => simp
  | missing => simp [Report.IsPlaced, StructuralProblem.isStray]

theorem Closing.pairing {frame : Frame} (closing : Closing last frames frame es rs after) :
    Pairing (.parts mode) es rs := by
  refine .plain (fun n member => ?_) closing.not_isPlaced
  obtain ⟨e, inside, below⟩ := Outline.mem_nodesAll.mp member
  rw [nodes_eq_nil (closing.leaves e inside)] at below
  cases below

theorem pairing_stray (t : Token) (context : Option String) :
    Pairing (.form false) [.node .error [Draft.token t.kind t]] [⟨.unexpectedCloser t.kind, t.span, context⟩] where
  missing := by simp
  stray := by simp [held, Span.StartsIn]
  maps := by simp

/-- In every stretch of parsing, the maps are paired. -/
theorem Derives.pairing (derives : Derives last role frames ds rs after) (inOrder : InOrder (tokensAll ds)) :
    Pairing role ds rs ∧ ∀ counted, role = .row counted → Counted counted ds rs := by
  induction derives with
  | nothing => exact ⟨.plain (by simp) (by simp), nofun⟩
  | append _ _ left right =>
    rw [tokensAll_append] at inOrder
    obtain ⟨before, behind, -⟩ := List.pairwise_append.mp inOrder
    exact ⟨(left before).1.parts_append (right behind).1 inOrder, nofun⟩
  | widen _ inductionHypothesis =>
    exact ⟨(inductionHypothesis inOrder).1.recast (by simp [interior]) (by simp [held]), nofun⟩
  | form _ inductionHypothesis | metadata _ inductionHypothesis | group _ inductionHypothesis =>
    exact ⟨(inductionHypothesis inOrder).1.recast (by simp [interior]) (held_subset _ _), nofun⟩
  | node part _ _ inductionHypothesis =>
    rw [tokensAll_node] at inOrder
    refine ⟨(inductionHypothesis inOrder).1.node ?_ (by simp [interior]) (by simp [held]), nofun⟩
    rintro rfl
    contradiction
  | @binding t frames ds rs after isSymbol _ inductionHypothesis =>
    rw [tokensAll_node, tokensAll_cons, tokens_node, tokensAll_token] at inOrder
    have named : Pairing (.parts .plain) [.node .symbol [Draft.token t.kind t]] [] := .plain (by simp) (by simp)
    have both := named.parts_append (inductionHypothesis inOrder.tail).1 (by simpa using inOrder)
    exact ⟨both.node (by decide) (by simp [interior]) (by simp [held]), nofun⟩
  | token => exact ⟨.plain (by simp) (by simp), nofun⟩
  | name isWord | word isWord | lookup isWord =>
    exact ⟨.plain (by simp [ne_mapForm_of_isWord isWord]) (by simp), nofun⟩
  | parameter _ isParameter => exact ⟨.plain (by rcases isParameter with rfl | rfl | rfl <;> simp) (by simp), nofun⟩
  | remark isRemark =>
    exact ⟨.plain (by simp) (List.forall_mem_singleton.mpr (Report.not_isPlaced_of_isRemark isRemark)), nofun⟩
  | note isRemark _ _ _ inductionHypothesis =>
    exact ⟨(inductionHypothesis inOrder).1.reports_append
      (List.forall_mem_singleton.mpr (Report.not_isPlaced_of_isRemark isRemark)), nofun⟩
  | @closed mode _ _ _ t _ _ _ _ _ _ _ closing inductionHypothesis =>
    rw [List.cons_append, tokensAll_token, tokensAll_append] at inOrder
    have before := (List.pairwise_append.mp inOrder.tail).1
    exact ⟨((inductionHypothesis before).1.parts_append closing.pairing inOrder.tail).behind mode t, nofun⟩
  | @cutShort mode frames _ _ t _ _ _ _ _ _ _ _ inside stray =>
    rw [List.cons_append, tokensAll_token, tokensAll_append] at inOrder
    obtain ⟨before, behind, -⟩ := List.pairwise_append.mp inOrder.tail
    -- The stray closing delimiter stands behind the opening one, where a delimited sequence may report it.
    have cut : Pairing (.parts mode) _ _ := (stray behind).1.recast (by simp [interior]) (by simp [held])
    refine ⟨(((inside before).1.parts_append cut inOrder.tail).behind mode t).reports_append ?_, nofun⟩
    simp [Report.IsPlaced, StructuralProblem.isStray]
  | @described t _ _ _ _ _ _ noted _ inductionHypothesis =>
    rw [tokensAll_node, tokensAll_token] at inOrder
    have filled : Pairing .metadata [.node .metadata _] _ :=
      ((inductionHypothesis inOrder.tail).1.markedNode t (by decide)).recast (by simp [interior]) (by simp [held])
    refine ⟨filled.reports_prepend ?_, nofun⟩
    rcases noted with rfl | rfl <;> simp [Report.IsPlaced, StructuralProblem.isStray]
  | undescribed => exact ⟨.plain (by simp) (by simp [Report.IsPlaced, StructuralProblem.isStray]), nofun⟩
  | division | unreadable => exact ⟨.plain (by simp) (by simp), nofun⟩
  | bad _ _ _ isRemark =>
    exact ⟨.plain (by simp) (List.forall_mem_singleton.mpr (Report.not_isPlaced_of_isRemark isRemark)), nofun⟩
  | @unquoted t =>
    exact ⟨.plain (by simp [quoteNode_ne_mapForm]) (by simp [Report.IsPlaced, StructuralProblem.isStray]), nofun⟩
  | tooDeep => exact ⟨.plain (by simp) (by simp [Report.IsPlaced, StructuralProblem.isStray]), nofun⟩
  | enclosed _ noMap _ inductionHypothesis =>
    rw [tokensAll_node] at inOrder
    exact ⟨(inductionHypothesis inOrder).1.node noMap (by simp [interior]) (by simp [held]), nofun⟩
  | map _ _ closing inductionHypothesis =>
    rw [tokensAll_node, List.cons_append, tokensAll_token, tokensAll_append] at inOrder
    have before := (List.pairwise_append.mp inOrder.tail).1
    obtain ⟨row, counting⟩ := inductionHypothesis before
    exact ⟨(row.map (counting _ rfl) before closing.leaves).reports_append closing.not_isPlaced, nofun⟩
  | @quoted t _ _ _ _ _ _ _ inductionHypothesis =>
    rw [tokensAll_node, tokensAll_token] at inOrder
    exact ⟨(inductionHypothesis inOrder.tail).1.markedNode t (quoteNode_ne_mapForm _), nofun⟩
  | misplaced noted _ inductionHypothesis =>
    rw [tokensAll_node] at inOrder
    have wrapped : Pairing (.form true) [.node .error _] _ :=
      (inductionHypothesis inOrder).1.node (by decide) (by simp [interior]) (by simp [held])
    refine ⟨wrapped.reports_append ?_, nofun⟩
    rcases noted with rfl | rfl <;> simp [Report.IsPlaced, StructuralProblem.isStray]
  | stray => exact ⟨pairing_stray _ _, nofun⟩
  | done =>
    refine ⟨.plain (by simp) (by simp), ?_⟩
    rintro _ ⟨⟩
    exact ⟨by simp, by simp, rfl⟩
  | entry first _ inductionHypothesis inductionHypothesis' =>
    rw [← List.singleton_append, tokensAll_append] at inOrder
    obtain ⟨before, behind, -⟩ := List.pairwise_append.mp inOrder
    obtain ⟨form, -⟩ := inductionHypothesis before
    obtain ⟨row, counting⟩ := inductionHypothesis' behind
    refine ⟨form.row_cons row inOrder, ?_⟩
    rintro _ ⟨⟩
    exact (counting _ rfl).entry row form (first.isFilled _ (List.mem_singleton_self _)) inOrder
  | skipped first _ inductionHypothesis inductionHypothesis' =>
    -- A form that does not count is a stray closing delimiter, so its own report takes it out of the count.
    rw [← List.singleton_append, tokensAll_append] at inOrder
    obtain ⟨before, behind, -⟩ := List.pairwise_append.mp inOrder
    obtain ⟨form, -⟩ := inductionHypothesis before
    obtain ⟨row, counting⟩ := inductionHypothesis' behind
    refine ⟨form.row_cons row inOrder, ?_⟩
    rintro _ ⟨⟩
    exact (counting _ rfl).skipped form first inOrder

end Grammar

end LispSyntax
