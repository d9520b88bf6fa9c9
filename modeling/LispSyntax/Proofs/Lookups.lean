import LispSyntax.Proofs.Derivation.Lookups
import LispSyntax.Proofs.Typed.Parts

/-! # Lookups wherever they are written

In a text with nothing to report, an account with a slash and a name right behind it is a lookup. There is one other
reading: in a binding vector the account can be the name of a binding, whose value is then the slash alone
(`exists_lookup_or_binding`).

That a name of a definition, of a library or of a parameter is never the account comes from the table of what the
parser puts into a node (`Recovery.production`): what stands behind such a name does not start with a slash, or the
slash is the last form of a definition, and a parenthesis follows it.
-/

namespace LispSyntax

open Grammar

namespace Draft

def StartsApart (d : Draft) : Prop :=
  ∃ first rest, d.tokens = first :: rest ∧ first.kind ≠ .slash

def IsDivision (d : Draft) : Prop :=
  ∃ kind s, s.kind = .slash ∧ d = .node .symbol [Draft.token kind s]

theorem StartsApart.token {kind : Kind} {t : Token} (apart : t.kind ≠ .slash) : (Draft.token kind t).StartsApart :=
  ⟨t, [], rfl, apart⟩

theorem StartsApart.node {kind : Kind} {d : Draft} {ds : List Draft} (apart : d.StartsApart) :
    StartsApart (.node kind (d :: ds)) := by
  obtain ⟨first, rest, tokens, apart⟩ := apart
  exact ⟨first, rest ++ tokensAll ds, by rw [tokens_node, tokensAll_cons, tokens, List.cons_append], apart⟩

theorem startsApart_delimited {quiet : Prop} {opener closer kind : Kind} {inside : Pattern (Kind × Token)}
    {ds : List Draft} (follows : Recovery.delimited quiet opener closer inside ds) (apart : opener ≠ .slash) :
    StartsApart (.node kind ds) := by
  obtain ⟨_, _, rfl, ⟨_, rfl, t, rfl, isKind⟩, -⟩ := follows
  exact .node (.token (by rw [isKind]; exact apart))

theorem startsApart_tokenIn {kind : Kind} {within : Kind → Bool} {ds : List Draft}
    (follows : tokenIn within ds) (apart : within .slash = false) : StartsApart (.node kind ds) := by
  obtain ⟨_, rfl, t, rfl, inClass⟩ := follows
  refine .node (.token ?_)
  intro isSlash
  rw [isSlash, apart] at inClass
  contradiction

/-- Every node of the drafts follows the table, where nothing is reported. -/
def Listed (alone : Kind) (ds : List Draft) : Prop :=
  ∀ n ∈ Outline.nodesAll ds, Recovery.production alone True n.1 n.2

theorem Listed.mono {alone : Kind} {ds es : List Draft} (listed : Listed alone ds) (fewer : es ⊆ ds) :
    Listed alone es :=
  fun n member => listed n (nodesAll_subset fewer member)

theorem Listed.children {alone kind : Kind} {ds : List Draft} (listed : Listed alone [.node kind ds]) :
    Listed alone ds :=
  fun n member => listed n (nodesAll_subset_node kind ds member)

end Draft

namespace Recovery

open Pattern Draft Outline

variable {alone kind : Kind} {ds : List Draft} {d : Draft}

theorem startsApart_name (follows : name ds) : ∃ d, ds = [d] ∧ d.StartsApart := by
  obtain ⟨d, rfl, os, rfl, token⟩ := follows
  exact ⟨_, rfl, startsApart_tokenIn token rfl⟩

theorem startsApart_account (follows : account ds) : ∃ d, ds = [d] ∧ d.StartsApart := by
  rcases follows with ⟨d, rfl, os, rfl, _, rfl, t, rfl, isAddress⟩ | named
  · exact ⟨_, rfl, .node (.token (by rw [isAddress]; decide))⟩
  · exact startsApart_name named

theorem startsApart_quote {mark head : Kind} (follows : quote True mark head ds) (apart : mark ≠ .slash) :
    StartsApart (.node kind ds) := by
  rcases follows with ⟨_, _, rfl, ⟨_, rfl, t, rfl, isMark⟩, -⟩ | headed
  · exact .node (.token (by rw [isMark]; exact apart))
  · exact startsApart_delimited headed (by decide)

/-- A form starts with a slash only if it is a slash alone. -/
theorem startsApart_or_isDivision (isForm : IsForm d) (listed : Listed alone [d]) :
    d.StartsApart ∨ d.IsDivision := by
  obtain ⟨kind, ds, rfl, accepts⟩ := isForm
  have follows : production alone True kind ds := listed (kind, ds) (mem_nodesAll_node kind ds)
  cases kind with
  | literal => exact .inl (startsApart_tokenIn follows rfl)
  | symbol =>
    rcases follows with named | ⟨_, rfl, s, rfl, isSlash⟩
    · exact .inl (startsApart_tokenIn named rfl)
    · exact .inr ⟨alone, s, isSlash, rfl⟩
  | lookupForm =>
    rcases follows with ⟨_, _, rfl, account, -⟩ | headed
    · obtain ⟨d, rfl, apart⟩ := startsApart_account account
      exact .inl (.node apart)
    · exact .inl (startsApart_delimited headed (by decide))
  | quoteForm | quasiquoteForm | unquoteForm => exact .inl (startsApart_quote follows (by decide))
  | error =>
    rcases follows with ⟨_, rfl, t, rfl, isUnknown⟩ | ⟨noisy, -⟩
    · exact .inl (.node (.token (by rw [isUnknown]; decide)))
    · exact absurd trivial noisy
  | listForm | vectorForm | setForm | mapForm | importForm | defForm | defnForm | defmacroForm | fnForm | macroForm |
    condForm | letForm | loopForm | ifLetForm | whenLetForm | dotimesForm =>
    exact .inl (startsApart_delimited follows (by decide))
  | _ => contradiction

end Recovery

/-! ## What stands behind a name -/

namespace Draft

/-- None of the drafts starts with a slash, but the last may be a slash alone. -/
inductive Settled : List Draft → Prop
  | nil : Settled []
  | division {d : Draft} : d.IsDivision → Settled [d]
  | cons {d : Draft} {ds : List Draft} : d.StartsApart → Settled ds → Settled (d :: ds)

namespace Settled

variable {ds es xs ys : List Draft} {d : Draft}

theorem prepend (apart : ∀ d ∈ ds, StartsApart d) (settled : Settled es) : Settled (ds ++ es) := by
  induction ds with
  | nil => exact settled
  | cons d ds inductionHypothesis =>
    obtain ⟨first, others⟩ := List.forall_mem_cons.mp apart
    exact .cons first (inductionHypothesis others)

theorem of_forall (apart : ∀ d ∈ ds, StartsApart d) : Settled ds := by
  simpa using prepend apart .nil

theorem behind (settled : Settled (xs ++ d :: ys)) : d.StartsApart ∨ d.IsDivision ∧ ys = [] := by
  induction xs with
  | nil =>
    cases settled with
    | division isDivision => exact .inr ⟨isDivision, rfl⟩
    | cons apart _ => exact .inl apart
  | cons x xs inductionHypothesis =>
    rw [List.cons_append] at settled
    generalize split : xs ++ d :: ys = zs at settled
    cases settled with
    | division => simp at split
    | cons _ rest => exact inductionHypothesis (split ▸ rest)

end Settled

end Draft

namespace Recovery

open Pattern Draft Outline

variable {alone kind : Kind} {ds es : List Draft} {d : Draft}

theorem not_gaveUp : ¬ gaveUp True ds :=
  fun ⟨noisy, _⟩ => noisy trivial

theorem eq_nil_of_gaveUp (follows : Pattern.optional (gaveUp True) ds) : ds = [] :=
  follows.resolve_right not_gaveUp

theorem startsApart_metadata (isMetadata : HasKind .metadata d) (listed : Listed alone [d]) : d.StartsApart := by
  obtain ⟨ds, rfl⟩ := isMetadata
  obtain ⟨_, _, rfl, ⟨_, rfl, t, rfl, isCaret⟩, -⟩ := listed (.metadata, ds) (mem_nodesAll_node _ ds)
  exact .node (.token (by rw [isCaret]; decide))

theorem startsApart_bareArity (follows : bareArity True ds) (listed : Listed alone ds) :
    ∃ d, ds = [d] ∧ d.StartsApart := by
  obtain ⟨_, rfl, _, rfl, _, _, rfl, ⟨_, rfl, ps, rfl⟩, -⟩ := follows
  have follows := listed (.paramList, ps) (by simp)
  exact ⟨_, rfl, .node (startsApart_delimited follows (by decide))⟩

theorem startsApart_groupedArity (isArity : IsGroupedArity True d) : d.StartsApart := by
  obtain ⟨ds, rfl, follows⟩ := isArity
  exact startsApart_delimited follows (by decide)

theorem settled_lookupBody (follows : lookupBody True ds) : Settled ds := by
  have named {ds : List Draft} (follows : expectedName True ds) : ∀ d ∈ ds, d.StartsApart := by
    obtain ⟨d, rfl, apart⟩ := startsApart_name (follows.resolve_right not_gaveUp)
    exact List.forall_mem_singleton.mpr apart
  rcases follows with ⟨_, _, rfl, account, name⟩ | name
  · obtain ⟨d, rfl, apart⟩ := startsApart_account account
    exact .of_forall (List.forall_mem_cons.mpr ⟨apart, named name⟩)
  · exact .of_forall (named name)

theorem settled_importBody (follows : importBody True ds) : Settled ds := by
  obtain ⟨_, _, rfl, library, rest⟩ := follows.resolve_right not_gaveUp
  obtain ⟨d, rfl, apart⟩ := startsApart_name library
  refine .cons apart ?_
  rcases rest with rfl | ⟨_, _, rfl, ⟨_, rfl, t, rfl, isKeyword, -⟩, aliased⟩
  · exact .nil
  · obtain ⟨e, rfl, apart'⟩ := startsApart_name (aliased.resolve_right not_gaveUp)
    exact .cons (.token (by rw [isKeyword]; decide)) (.cons apart' .nil)

theorem settled_definition {body : Pattern (Kind × Token)} (follows : definition True body ds)
    (listed : Listed alone ds) (settled : ∀ es, body es → Listed alone es → Settled es) : Settled ds := by
  obtain ⟨_, _, rfl, named, ms, es, rfl, attached, bodied⟩ := follows.resolve_right not_gaveUp
  obtain ⟨d, rfl, apart⟩ := startsApart_name named
  have listedBody := settled es bodied (listed.mono (by simp))
  refine .cons apart ?_
  rcases attached with rfl | ⟨m, rfl, isMetadata⟩
  · exact listedBody
  · exact .cons (startsApart_metadata isMetadata (listed.mono (by simp))) listedBody

theorem settled_expected (follows : expected True ds) (listed : Listed alone ds) : Settled ds := by
  obtain ⟨d, rfl, isForm⟩ := follows.resolve_right fun ⟨noisy, _⟩ => noisy trivial
  rcases startsApart_or_isDivision isForm listed with apart | isDivision
  · exact .cons apart .nil
  · exact .division isDivision

theorem settled_arities (follows : arities True ds) (listed : Listed alone ds) : Settled ds := by
  rcases follows with bare | grouped | gaveUp
  · obtain ⟨d, rfl, apart⟩ := startsApart_bareArity bare listed
    exact .cons apart .nil
  · exact .of_forall fun d member => startsApart_groupedArity (grouped.2 d member)
  · exact absurd gaveUp not_gaveUp

theorem settled_singleArity (follows : singleArity True ds) (listed : Listed alone ds) : Settled ds := by
  obtain ⟨d, rfl, apart⟩ := startsApart_bareArity (follows.resolve_right not_gaveUp) listed
  exact .cons apart .nil

theorem startsApart_parameter (isKind : kind = .fixedParam ∨ kind = .optionalParam) (isParameter : HasKind kind d)
    (listed : Listed alone [d]) : d.StartsApart := by
  obtain ⟨ds, rfl⟩ := isParameter
  have follows := listed (kind, ds) (mem_nodesAll_node kind ds)
  rcases isKind with rfl | rfl <;> exact startsApart_tokenIn follows rfl

theorem settled_parameters (follows : parameters True ds) (listed : Listed alone ds) : Settled ds := by
  obtain ⟨fixed, rest, rfl, areFixed, follows⟩ := follows
  have listedOf : ∀ d ∈ fixed ++ rest, Listed alone [d] := fun d member =>
    listed.mono (by simpa using member)
  refine .prepend (fun d member => ?_) ?_
  · exact startsApart_parameter (.inl rfl) (areFixed d member) (listedOf d (List.mem_append_left _ member))
  rcases follows with gaveUp | ⟨_, optional, rfl, ⟨_, rfl, t, rfl, -, isSymbol⟩, follows⟩
  · rw [eq_nil_of_gaveUp gaveUp]
    exact .nil
  · refine .cons (.token fun isSlash => by rw [isSlash] at isSymbol; contradiction) (.of_forall ?_)
    obtain ⟨optionals, none, rfl, ⟨-, areOptional⟩, gaveUp⟩ := follows.resolve_right not_gaveUp
    obtain rfl := eq_nil_of_gaveUp gaveUp
    intro d member
    have member : d ∈ optionals := by simpa using member
    exact startsApart_parameter (.inr rfl) (areOptional d member) (listedOf d (by simp [member]))

end Recovery

/-! ## Names are taken only where no slash follows -/

namespace Grammar

open Draft Recovery

variable {alone kind opener closer : Kind} {ds : List Draft} {t s u : Token} {mode : Mode} {after : List Token}
  {inside : Pattern (Kind × Token)}

theorem Takes.eq_amp {v : Token} (takes : Takes t mode (Draft.token kind v)) : kind = .amp := by
  generalize taken : Draft.token kind v = d at takes
  cases takes with
  | amp => exact congrArg Prod.fst (Outline.leaf.inj taken)
  | _ => cases taken

theorem split_between {α : Type} {a c d : α} {es xs ys : List α} (split : a :: (es ++ [c]) = xs ++ d :: ys) :
    d = a ∨ d = c ∨ ∃ us vs, es = us ++ d :: vs ∧ ys = vs ++ [c] := by
  cases xs with
  | nil => exact .inl (List.cons.inj split).1.symm
  | cons x xs =>
    rcases List.append_eq_append_iff.mp (List.cons.inj split).2 with ⟨us, -, last⟩ | ⟨us, rfl, last⟩
    · cases us with
      | nil => exact .inr (.inl (List.cons.inj last).1.symm)
      | cons u us => simp at last
    · cases us with
      | nil => exact .inr (.inl (List.cons.inj last).1)
      | cons u us =>
        obtain ⟨rfl, rfl⟩ := List.cons.inj last
        exact .inr (.inr ⟨xs, us, rfl, rfl⟩)

/-- Where what stands between delimiters is settled, no name is taken in front of a slash. -/
theorem not_blind_of_settled (follows : Recovery.delimited True opener closer inside ds)
    (settled : ∀ es, inside es → es ⊆ ds → Settled es) (notAmp : opener ≠ .amp) (isCloser : closer.isCloser = true)
    (joined : AreJoined t s u) : ¬ Blind t s u mode ds after := by
  rintro ⟨xs, d, ys, rest, split, takes, next⟩
  obtain ⟨_, _, rfl, ⟨_, rfl, o, rfl, -⟩, es, _, rfl, within, closing⟩ := follows
  obtain ⟨_, rfl, c, rfl, isKind⟩ := closing.resolve_right fun ⟨noisy, _⟩ => noisy trivial
  have settled := settled es within (by simp)
  -- The closing delimiter is neither of the two tokens that follow.
  have notSlash : c ≠ s := by
    rintro rfl
    rw [← isKind, joined.slash] at isCloser
    contradiction
  have notName : c ≠ u := by
    rintro rfl
    rw [← isKind] at isCloser
    exact not_isAccount_of_isCloser isCloser (.inr joined.name)
  rcases split_between split with rfl | rfl | ⟨us, vs, rfl, rfl⟩
  · exact notAmp takes.eq_amp
  · rw [takes.eq_amp] at isCloser
    contradiction
  · rw [tokensAll_append, tokensAll_token, List.append_assoc] at next
    cases vs with
    | nil => exact notSlash (List.cons.inj next).1
    | cons e vs =>
      have beyond : StartsApart e ∨ IsDivision e ∧ vs = [] := by
        rw [List.append_cons] at settled
        exact settled.behind
      rw [tokensAll_cons] at next
      rcases beyond with ⟨first, more, tokens, apart⟩ | ⟨⟨kind, first, -, rfl⟩, rfl⟩
      · rw [tokens] at next
        exact apart ((List.cons.inj next).1 ▸ joined.slash)
      · exact notName (List.cons.inj (List.cons.inj next).2).1

theorem not_blind_special {head : Kind} (follows : special True head ds) (listed : Listed alone ds)
    (settled : ∀ es, Recovery.specialBody True head es → Listed alone es → Settled es) (joined : AreJoined t s u) :
    ¬ Blind t s u mode ds after := by
  refine not_blind_of_settled follows (fun es within fewer => ?_) (by decide) rfl joined
  obtain ⟨_, _, rfl, ⟨_, rfl, h, rfl, isSymbol, -⟩, es, _, rfl, body, gaveUp⟩ := within
  obtain rfl := eq_nil_of_gaveUp gaveUp
  have listedBody : Listed alone es := listed.mono fun d member => fewer (by simp [member])
  rw [List.append_nil]
  refine .cons (.token fun isSlash => ?_) (settled es body listedBody)
  rw [isSlash] at isSymbol
  contradiction

/-- Where nothing is reported, no node takes a name in front of a slash without looking. -/
theorem not_blind (listed : Listed alone [.node kind ds]) (fits : mode.fits kind = true)
    (called : kind = .lookupForm → ∃ o es, ds = Draft.token o.kind o :: es) (joined : AreJoined t s u) :
    ¬ Blind t s u mode ds after := by
  have follows : production alone True kind ds := listed (kind, ds) (mem_nodesAll_node kind ds)
  cases mode with
  | plain => exact fun blind => blind.ne_plain rfl
  | listing =>
    obtain rfl : kind = .paramList := by simpa [Mode.fits] using fits
    exact not_blind_of_settled follows
      (fun es parameters fewer => settled_parameters parameters (listed.children.mono fewer)) (by decide) rfl joined
  | naming =>
    have naming : kind = .lookupForm ∨ kind = .importForm ∨ kind = .defForm ∨ kind = .defnForm ∨
        kind = .defmacroForm := by
      simpa [Mode.fits] using fits
    rcases naming with rfl | rfl | rfl | rfl | rfl
    · obtain ⟨o, es, rfl⟩ := called rfl
      refine not_blind_special (follows.resolve_left ?_) listed.children
        (fun es body _ => settled_lookupBody body) joined
      rintro ⟨_, _, split, ⟨_, rfl, _, rfl, -⟩ | ⟨_, rfl, _, rfl, -⟩, -⟩ <;> cases (List.cons.inj split).1
    · exact not_blind_special follows listed.children (fun es body _ => settled_importBody body) joined
    · exact not_blind_special follows listed.children
        (fun es body listed => settled_definition body listed fun _ => settled_expected) joined
    · exact not_blind_special follows listed.children
        (fun es body listed => settled_definition body listed fun _ => settled_arities) joined
    · exact not_blind_special follows listed.children
        (fun es body listed => settled_definition body listed fun _ => settled_singleArity) joined

/-- Where nothing is reported, the node around the account is a lookup or a binding of the account to the slash. -/
theorem Reading.cases {n : Kind × List Draft} (reading : Reading t s u n) (listed : Listed alone [.node n.1 n.2])
    (joined : AreJoined t s u) :
    (∃ kind, IsWord kind t ∧ n = (.lookupForm, [.node kind [Draft.token t.kind t], Draft.token s.kind s,
      .node .symbol [Draft.token u.kind u]])) ∨
    (∃ kind, t.kind.isSymbolToken = true ∧
      n = (.binding, [.node .symbol [Draft.token t.kind t], .node .symbol [Draft.token kind s]])) := by
  cases reading with
  | lookup isWord => exact .inl ⟨_, isWord, rfl⟩
  | blind fits called blind => exact absurd blind (not_blind listed fits called joined)
  | @binding ds after rest isSymbol next =>
    obtain ⟨_, es, split, ⟨_, rfl, _, rfl, -⟩, valued⟩ := listed (.binding, _) (mem_nodesAll_node _ _)
    obtain ⟨-, rfl⟩ := List.cons.inj split
    obtain ⟨d, rfl, isForm⟩ := valued.resolve_right fun ⟨noisy, _⟩ => noisy trivial
    rcases startsApart_or_isDivision isForm (listed.children.mono (by simp)) with
      ⟨first, more, tokens, apart⟩ | ⟨kind, first, -, rfl⟩
    · rw [tokensAll_cons, tokens] at next
      exact absurd joined.slash ((List.cons.inj next).1 ▸ apart)
    · obtain rfl : first = s := (List.cons.inj next).1
      exact .inr ⟨kind, isSymbol, rfl⟩

end Grammar

/-! ## Views -/

theorem View.leaf?_of_isNode {v : View} (isNode : v.isNode = true) : v.leaf? = none := by
  cases v with
  | mk tree offset =>
    cases tree with
    | node => rfl
    | leaf => contradiction

def View.Shows (v : View) (ts : List Token) : Prop :=
  List.Forall₂ LeafView.Shows v.leaves ts

namespace Draft

variable {text : Text} {kind : Kind} {t : Token} {cs ds : List Draft} {start stop : Nat} {v : View}

theorem Views.shows {n : Kind × List Draft} (views : Views text v n) : v.Shows (tokensAll n.2) := by
  obtain ⟨viewed, stop, placed⟩ := views
  have leaves : v.leaves = (Outline.leavesAll n.2).map (leafView text) := by
    rw [View.leaves, viewed]
    exact leavesAt_trees n.2 placed
  rw [View.Shows, leaves, tokensAll, List.forall₂_map_left_iff, List.forall₂_map_right_iff, List.forall₂_same]
  exact fun leaf member => (placed.1 leaf.2 (List.mem_map_of_mem member)).shows leaf.1

theorem Views.exists_typed {n : Kind × List Draft} {shape : Shape} (views : Views text v n)
    (accepted : shape.accepts n.1 = true) : ∃ typed : Typed shape, v = typed.view := by
  refine Typed.exists_of_kind ?_ ?_
  · rw [View.isNode, views.1]
    rfl
  · rw [View.kind, views.1]
    exact accepted

theorem Views.children_eq {n : Kind × List Draft} (views : Views text v n) :
    v.children = View.placeAll v.offset (trees text n.2) := by
  rw [View.children, views.1]
  rfl

theorem exists_views_of_cons (placed : Placed text start (.node kind cs :: ds) stop) :
    ∃ v middle, View.placeAll start (trees text (.node kind cs :: ds)) = v :: View.placeAll middle (trees text ds) ∧
      Views text v (kind, cs) ∧ Placed text middle ds stop := by
  obtain ⟨middle, first, rest⟩ := placed_cons.mp placed
  refine ⟨⟨tree text (.node kind cs), start⟩, middle, ?_, ⟨rfl, middle, placed_node.mp first⟩, rest⟩
  rw [trees_cons, View.placeAll, size_tree _ first]

theorem exists_leaf_of_cons (placed : Placed text start (Draft.token kind t :: ds) stop) :
    ∃ (l : LeafView) (middle : Nat),
      View.placeAll start (trees text (Draft.token kind t :: ds)) = l.view :: View.placeAll middle (trees text ds) ∧
      l.kind = kind ∧ Placed text middle ds stop := by
  obtain ⟨middle, first, rest⟩ := placed_cons.mp placed
  refine ⟨⟨t.leaf text kind, start⟩, middle, ?_, ?_, rest⟩
  · rw [trees_cons, View.placeAll, size_tree _ first]
    rfl
  · exact Token.kind_leaf text kind t

end Draft

/-- The lookup is written with an account, a slash and a name, which are the three tokens. -/
structure Lookup.Joins (l : Lookup) (t s u : Token) : Prop where
  shows : l.view.Shows [t, s, u]
  style : l.style = .infixed
  account : ∃ a, l.account? = some a ∧ a.view.Shows [t]
  name : ∃ n, l.symbol? = some n ∧ n.view.Shows [u]

/-- The binding binds the first token to the symbol that is the second. -/
structure Binding.Binds (b : Binding) (t s : Token) : Prop where
  name : ∃ n, b.boundName? = some n ∧ n.view.Shows [t]
  value : ∃ n, b.value? = some (.symbol n) ∧ n.view.Shows [s]

section Views

open Draft

variable {text : Text} {kind : Kind} {t s u : Token} {v : View}

theorem exists_account (views : Views text v (kind, [Draft.token t.kind t])) (isWord : IsWord kind t) :
    ∃ a : Account, v = a.view := by
  rcases isWord with ⟨rfl, -⟩ | ⟨rfl, -⟩
  · obtain ⟨it, rfl⟩ : ∃ it : Literal, v = it.view := views.exists_typed rfl
    exact ⟨.address it, rfl⟩
  · obtain ⟨it, rfl⟩ : ∃ it : Symbol, v = it.view := views.exists_typed rfl
    exact ⟨.symbol it, rfl⟩

theorem exists_lookup (isWord : IsWord kind t) (slash : s.kind = .slash)
    (views : Views text v (.lookupForm, [.node kind [Draft.token t.kind t], Draft.token s.kind s,
      .node .symbol [Draft.token u.kind u]])) : ∃ l : Lookup, v = l.view ∧ l.Joins t s u := by
  obtain ⟨l, rfl⟩ : ∃ l : Lookup, v = l.view := views.exists_typed rfl
  have children := views.children_eq
  obtain ⟨stop, placed⟩ := views.2
  obtain ⟨first, _, firstEq, firstViews, placed⟩ := exists_views_of_cons placed
  obtain ⟨mark, _, markEq, markKind, placed⟩ := exists_leaf_of_cons placed
  obtain ⟨third, _, thirdEq, thirdViews, -⟩ := exists_views_of_cons placed
  obtain ⟨a, rfl⟩ := exists_account firstViews isWord
  obtain ⟨n, rfl⟩ : ∃ n : Symbol, third = n.view := thirdViews.exists_typed rfl
  have childrenEq : l.view.children = [a.view, mark.view, n.view] := by
    rw [children, firstEq, markEq, thirdEq]
    rfl
  have nodes : l.view.nodes = (some a).toList.map Account.view ++ [n.view] := by
    simp [View.nodes, childrenEq, a.isNode_view, n.isNode]
  refine ⟨l, rfl, by simpa using views.shows, ?_, ⟨a, Typed.account?_eq nodes, by simpa using firstViews.shows⟩,
    ⟨n, Typed.lookupName?_eq nodes, by simpa using thirdViews.shows⟩⟩
  have noHead : l.view.token? .lookupHead = none := by
    rw [View.token?, View.tokens, childrenEq]
    simp [View.leaf?_of_isNode, a.isNode_view, n.isNode, markKind, slash]
  rw [Lookup.style, noHead]
  rfl

theorem exists_binding (views : Views text v (.binding, [.node .symbol [Draft.token t.kind t],
    .node .symbol [Draft.token kind s]])) : ∃ b : Binding, v = b.view ∧ b.Binds t s := by
  obtain ⟨b, rfl⟩ : ∃ b : Binding, v = b.view := views.exists_typed rfl
  have children := views.children_eq
  obtain ⟨stop, placed⟩ := views.2
  obtain ⟨first, _, firstEq, firstViews, placed⟩ := exists_views_of_cons placed
  obtain ⟨second, _, secondEq, secondViews, -⟩ := exists_views_of_cons placed
  obtain ⟨n, rfl⟩ : ∃ n : Symbol, first = n.view := firstViews.exists_typed rfl
  obtain ⟨m, rfl⟩ : ∃ m : Symbol, second = m.view := secondViews.exists_typed rfl
  have nodes : b.view.nodes = [Form.symbol n, Form.symbol m].map Form.view := by
    rw [View.nodes, children, firstEq, secondEq]
    simp [n.isNode, m.isNode, View.placeAll]
  have forms := Typed.forms_eq nodes
  refine ⟨b, rfl, ⟨n, ?_, by simpa using firstViews.shows⟩, ⟨m, ?_, by simpa using secondViews.shows⟩⟩
  · rw [Binding.boundName?, forms]
    rfl
  · rw [Binding.value?, forms]
    rfl

end Views

/-! ## Texts with nothing to report -/

theorem Grammar.Occurs.of_append {t s u last : Token} {ts : List Token} (occurs : Occurs t s u (ts ++ [last]) [])
    (lastEnd : last.kind = .eof) (joined : AreJoined t s u) : Occurs t s u ts [] := by
  rcases occurs.append with ⟨before, behind, rest, rfl, next, apart⟩ | atEnd
  · match behind, next with
    | [], next =>
      rw [(List.cons.inj next).1, joined.slash] at lastEnd
      contradiction
    | [_], next =>
      have name := joined.name
      simp only [List.cons_append, List.nil_append, List.cons.injEq] at next
      rw [← next.2.1, lastEnd] at name
      contradiction
    | _ :: _ :: behind, next =>
      simp only [List.cons_append, List.append_nil, List.cons.injEq] at next
      obtain ⟨rfl, rfl, -⟩ := next
      exact ⟨before, _, behind, rfl, by simp, apart⟩
  · obtain ⟨rfl, -⟩ := atEnd.single
    rcases joined.account with isAddress | isSymbol
    · rw [lastEnd] at isAddress
      contradiction
    · rw [lastEnd] at isSymbol
      contradiction

/-- In a text with nothing to report, take an account, a slash and a name with nothing between them, and no slash right
in front of them. They are a lookup of the name in the account, or the account is the name of a binding, and its value
is the slash. -/
theorem exists_lookup_or_binding {text : Text} {r : Registry} {result : Parse} (parsed : parse text r = .ok result)
    (ok : result.isOk = true) {before behind : List Token} {t s u : Token}
    (split : (Token.tokenize text r).1 = before ++ t :: s :: u :: behind) (joined : AreJoined t s u)
    (apart : ∀ w, before.getLast? = some w → w.kind = .slash → w.joined t = false) :
    (∃ l : Lookup, l.view ∈ result.root.descendants ∧ l.Joins t s u) ∨
    (∃ b : Binding, b.view ∈ result.root.descendants ∧ b.Binds t s) := by
  obtain ⟨start, ds, last, drafted, table, lastEnd, derives⟩ := exists_derivation parsed
  obtain rfl := drafted.eq_of_parse_eq_ok parsed
  obtain ⟨quiet, -⟩ := drafted.silent_of_isOk (List.isEmpty_iff.mp ok)
  have tokens := drafted.tokens
  rw [Draft.tokens_node, Draft.tokensAll_append, split] at tokens
  have occurs : Occurs t s u (Draft.tokensAll ds ++ [last]) [] :=
    ⟨before, s :: u :: behind, behind, tokens, by simp, apart⟩
  have reads := derives.reading joined (quiet.trans drafted.silent) (occurs.of_append lastEnd joined)
  -- No node is to come around the whole source.
  obtain ⟨n, member, reading⟩ := reads.resolve_right fun blind => absurd rfl (Blind.ne_plain blind)
  have inside : n ∈ Outline.nodes (.node .source (ds ++ [Draft.token .eof last])) :=
    List.mem_cons_of_mem _ (nodesAll_subset (List.subset_append_left ds _) member)
  have listed : Draft.Listed start.slashKind [.node n.1 n.2] := by
    intro m below
    simp only [Outline.nodesAll, Outline.nodes_node, List.append_nil, List.mem_cons] at below
    rcases below with rfl | below
    · exact table True (fun _ => quiet) _ inside
    · obtain ⟨child, among, below⟩ := Outline.mem_nodesAll.mp below
      exact table True (fun _ => quiet) _ (Outline.mem_nodes_of_mem among below _ inside)
  obtain ⟨v, met, views⟩ := Draft.exists_walk_of_node _ drafted.placed n inside
  have descends : v ∈ (View.root _).descendants := View.mem_descendants.mpr met
  rcases reading.cases listed joined with ⟨kind, isWord, rfl⟩ | ⟨kind, -, rfl⟩
  · obtain ⟨l, rfl, joins⟩ := exists_lookup isWord joined.slash views
    exact .inl ⟨l, descends, joins⟩
  · obtain ⟨b, rfl, binds⟩ := exists_binding views
    exact .inr ⟨b, descends, binds⟩

instance (t s u : Token) : Decidable (AreJoined t s u) :=
  decidable_of_iff ((t.kind = .address ∨ t.kind.isSymbolToken = true) ∧ s.kind = .slash ∧
    u.kind.isSymbolToken = true ∧ t.joined s = true ∧ s.joined u = true)
    ⟨fun ⟨account, slash, name, left, right⟩ => ⟨account, slash, name, left, right⟩,
      fun joined => ⟨joined.account, joined.slash, joined.name, joined.left, joined.right⟩⟩

/-- The tokens of a text whose third to fifth are an account, a slash and a name. -/
theorem exists_tokens_of_any {text : Text} {check : Parse → Bool} (place : Nat)
    (checked : (parse text .empty).toOption.any (fun result => result.isOk && check result &&
      match (Token.tokenize text .empty).1.drop place with
      | t :: s :: u :: _ => decide (AreJoined t s u) &&
        ((Token.tokenize text .empty).1.take place).getLast?.all fun w => w.kind != .slash
      | _ => false) = true) :
    ∃ result before behind t s u, parse text .empty = .ok result ∧ result.isOk = true ∧ check result = true ∧
      (Token.tokenize text .empty).1 = before ++ t :: s :: u :: behind ∧ AreJoined t s u ∧
      ∀ w, before.getLast? = some w → w.kind = .slash → w.joined t = false := by
  obtain ⟨result, parsed, checked⟩ := exists_parse_of_any checked
  simp only [Bool.and_eq_true] at checked
  obtain ⟨⟨ok, checkedResult⟩, tokens⟩ := checked
  have split := List.take_append_drop place (Token.tokenize text .empty).1
  split at tokens
  · rename_i t s u behind dropped
    simp only [Bool.and_eq_true, decide_eq_true_eq] at tokens
    rw [dropped] at split
    refine ⟨result, _, behind, t, s, u, parsed, ok, checkedResult, split.symm, tokens.1, fun w found isSlash => ?_⟩
    have noSlash := tokens.2
    rw [found] at noSlash
    simp [isSlash] at noSlash
  · contradiction

/-- A vector with a lookup in an address. -/
def addressSample : Text :=
  "[b #7/c/d]".toList

/-- In the sample an address, the first slash and the name behind it are a lookup; nothing is bound. -/
theorem exists_lookup_or_binding_address :
    ∃ result before behind t s u, parse addressSample .empty = .ok result ∧ result.isOk = true ∧
      (Token.tokenize addressSample .empty).1 = before ++ t :: s :: u :: behind ∧ AreJoined t s u ∧
      (∀ w, before.getLast? = some w → w.kind = .slash → w.joined t = false) ∧
      ∃ l : Lookup, l.view ∈ result.root.descendants ∧ l.Joins t s u := by
  obtain ⟨result, before, behind, t, s, u, parsed, ok, unbound, split, joined, apart⟩ :
      ∃ result before behind t s u, parse addressSample .empty = .ok result ∧ result.isOk = true ∧
        (result.root.descendants.all fun v => v.kind != .binding) = true ∧
        (Token.tokenize addressSample .empty).1 = before ++ t :: s :: u :: behind ∧ AreJoined t s u ∧
        ∀ w, before.getLast? = some w → w.kind = .slash → w.joined t = false :=
    exists_tokens_of_any 2 (by decide +kernel)
  refine ⟨result, before, behind, t, s, u, parsed, ok, split, joined, apart, ?_⟩
  rcases exists_lookup_or_binding parsed ok split joined apart with found | ⟨b, below, -⟩
  · exact found
  · have other := List.all_eq_true.mp unbound _ below
    simp [b.kind_eq rfl] at other

/-- A slash and a name right behind a name to bind. -/
def boundSample : Text :=
  "(let [a/b 1] a)".toList

/-- The sample has nothing to report, but in it there is no lookup: the first name is bound to the slash. -/
theorem not_exists_lookup_bound :
    ∃ result before behind t s u, parse boundSample .empty = .ok result ∧ result.isOk = true ∧
      (Token.tokenize boundSample .empty).1 = before ++ t :: s :: u :: behind ∧ AreJoined t s u ∧
      (∀ w, before.getLast? = some w → w.kind = .slash → w.joined t = false) ∧
      ∀ v ∈ result.root.descendants, v.kind ≠ .lookupForm := by
  obtain ⟨result, before, behind, t, s, u, parsed, ok, noLookup, split, joined, apart⟩ :
      ∃ result before behind t s u, parse boundSample .empty = .ok result ∧ result.isOk = true ∧
        (result.root.descendants.all fun v => v.kind != .lookupForm) = true ∧
        (Token.tokenize boundSample .empty).1 = before ++ t :: s :: u :: behind ∧ AreJoined t s u ∧
        ∀ w, before.getLast? = some w → w.kind = .slash → w.joined t = false :=
    exists_tokens_of_any 3 (by decide +kernel)
  exact ⟨result, before, behind, t, s, u, parsed, ok, split, joined, apart, fun v below =>
    by simpa using List.all_eq_true.mp noLookup v below⟩

end LispSyntax
