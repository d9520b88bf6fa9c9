import LispSyntax.Proofs.Lookups
import LispSyntax.Proofs.Origin.Parenthesized
import LispSyntax.Proofs.Pairing

/-! # How conditions pair their forms

A condition takes its forms two by two, each test with its result. One that is left over at the end is the fallback, or
the test of the only clause where there is nothing in front of it. The parser decides this after each form, by whether
the sequence goes on; the accessors of a typed view find clauses and forms by their kinds. They agree on every text,
since a form that is malformed is a node as well (`cond_pairs`).

The table of productions leaves room for an error behind the clauses, as behind the body of every special form. There is
none, because the clauses go on to the end of the sequence (`ended_clauses`).
-/

namespace LispSyntax

namespace Grammar

open LispSyntax.Parser Draft Pattern

variable {p : Parser} {t u : Token} {ts : List Token} {ds : List Draft} {form : FormRule} {budget : Nat} {text : Text}

/-! ## The clauses take everything -/

theorem ended_clauses (forms : ReadsForms form) (turns count : Nat) (ready : p.Ready)
    (enough : p.rest.length ≤ turns) : (clauses form turns count p).atSequenceEnd = true := by
  induction turns generalizing p count with
  | zero => exact (finishes_of_no_turns ready enough).ended
  | succ turns inductionHypothesis =>
    rw [clauses]
    cases going : p.atSequenceEnd with
    | true => exact going
    | false =>
      dsimp only
      rw [if_neg Bool.false_ne_true]
      change (if (form p.begun).2.atSequenceEnd = true then _ else _ : Parser).atSequenceEnd = true
      have test := forms.reads p.begun ready.begun going
      have shorter : _ < p.begun.rest.length := rest_lt_of_reads test
      change _ < p.rest.length at shorter
      cases more : (form p.begun).2.atSequenceEnd with
      | true =>
        rw [if_pos rfl, atSequenceEnd_complete]
        exact more
      | false =>
        have ready' := test.ready ready.begun
        have result := forms.reads _ ready' more
        have shorter' := rest_lt_of_reads result
        rw [if_neg Bool.false_ne_true]
        refine inductionHypothesis _ ((result.ready ready').complete ..) ?_
        rw [rest_complete]
        exact Nat.le_of_lt_succ (Nat.lt_of_lt_of_le (Nat.lt_trans shorter' shorter) enough)

/-- Between the head and the end of a condition there is nothing but its clauses. -/
theorem makes_condForm (forms : StepsForms form) (ready : p.Ready) (rest : p.rest = t :: u :: ts)
    (isParen : t.kind = .leftParen) :
    ∃ body ending, Makes p (.node .condForm (Draft.token t.kind t :: Draft.token .condHead u :: body ++ ending))
        (specialForm form .condHead p) ∧
      Recovery.clauses body ∧ ∀ d ∈ ending, Outline.isNode d = false := by
  have opens : t.kind.closer? = Option.some .rightParen := by rw [isParen]; rfl
  have opened := ready.begun.openSequence rest opens (spellingOf .condHead)
  have ahead : (p.begun.openSequence (spellingOf .condHead)).rest = u :: ts := by
    rw [openSequence_eq (p := p.begun) rest opens]
    exact rest_advanceAs (p := p.begun) rest t.kind
  have head := runs_advanceAs ahead .condHead
  have ready' := head.ready opened
  have ended := ended_clauses forms.toReadsForms _ 0 ready' (Nat.le_refl _)
  obtain ⟨body, runs, shape⟩ := reads_clauses forms.toReadsForms
    ((p.begun.openSequence (spellingOf .condHead)).advanceAs .condHead).rest.length ready'
  obtain ⟨ending, whole, closes, -⟩ := runs_between ready.begun rest opens (head.trans runs)
  refine ⟨body, ending, ?_, (shape False False.elim).2, ?_⟩
  · rw [specialForm]
    apply makes_node rfl
    dsimp only
    rw [noMoreForms, specialBody, if_pos ended]
    exact whole
  · rcases closes False False.elim with ⟨d, rfl, w, rfl, -⟩ | ⟨-, rfl⟩
    · intro d member
      rw [List.mem_singleton.mp member]
      rfl
    · simp

end Grammar

/-! ## Views of children -/

section Views

open Draft

variable {text : Text} {kind : Kind} {ds : List Draft} {start stop : Nat} {v : View} {d : Draft}

/-- The view is of the node that the draft is. -/
def Draft.IsViewed (text : Text) (v : View) (d : Draft) : Prop :=
  ∃ kind ds, d = .node kind ds ∧ Views text v (kind, ds)

theorem Draft.forall₂_isViewed (placed : Placed text start ds stop) :
    List.Forall₂ (IsViewed text) ((View.placeAll start (trees text ds)).filter View.isNode)
      (ds.filter Outline.isNode) := by
  induction ds generalizing start with
  | nil => exact .nil
  | cons d ds inductionHypothesis =>
    obtain ⟨middle, first, rest⟩ := placed_cons.mp placed
    rw [trees_cons, View.placeAll, size_tree d first]
    cases d with
    | leaf l => exact inductionHypothesis rest
    | node kind children =>
      exact .cons ⟨kind, children, rfl, rfl, middle, placed_node.mp first⟩ (inductionHypothesis rest)

/-- The child nodes of a view are those of the draft. -/
theorem Draft.Views.nodes (views : Views text v (kind, ds)) :
    List.Forall₂ (IsViewed text) v.nodes (ds.filter Outline.isNode) := by
  rw [View.nodes, views.children_eq]
  obtain ⟨stop, placed⟩ := views.2
  exact forall₂_isViewed placed

theorem Draft.IsViewed.isForm (viewed : IsViewed text v d) (isForm : Outline.IsForm d) :
    ∃ f : Form, v = f.view := by
  obtain ⟨kind, ds, rfl, views⟩ := viewed
  obtain ⟨_, _, ⟨⟩, accepts⟩ := isForm
  refine Form.exists_of_accepts ?_ ?_
  · rw [View.isNode, views.1]
    rfl
  · rw [View.kind, views.1]
    exact accepts

theorem Draft.exists_forms {vs : List View} (viewed : List.Forall₂ (IsViewed text) vs ds)
    (isForm : ∀ d ∈ ds, Outline.IsForm d) : ∃ fs : List Form, vs = fs.map Form.view ∧ fs.length = ds.length := by
  induction viewed with
  | nil => exact ⟨[], rfl, rfl⟩
  | cons viewed _ inductionHypothesis =>
    obtain ⟨f, rfl⟩ := viewed.isForm (isForm _ List.mem_cons_self)
    obtain ⟨fs, rfl, length⟩ := inductionHypothesis fun d member => isForm d (List.mem_cons_of_mem _ member)
    exact ⟨f :: fs, rfl, congrArg Nat.succ length⟩

/-- Where all children of a draft are forms, the typed view of it has as many. -/
theorem Draft.IsViewed.exists_typed {shape : Shape} (viewed : IsViewed text v (.node kind ds))
    (accepted : shape.accepts kind = true) (isForm : ∀ d ∈ ds, Outline.IsForm d) :
    ∃ t : Typed shape, v = t.view ∧ t.forms.length = ds.length := by
  obtain ⟨_, _, ⟨⟩, views⟩ := viewed
  obtain ⟨t, rfl⟩ := views.exists_typed accepted
  have all : ds.filter Outline.isNode = ds := by
    refine List.filter_eq_self.mpr fun d member => ?_
    obtain ⟨_, _, rfl, -⟩ := isForm d member
    rfl
  obtain ⟨fs, nodes, length⟩ := exists_forms (all ▸ views.nodes) isForm
  exact ⟨t, rfl, by rw [Typed.forms_eq nodes, length]⟩

end Views

/-! ## Branches -/

namespace CondClause

def IsPair (clause : CondClause) : Prop :=
  ∃ f g, clause.forms = [f, g]

end CondClause

namespace Cond

/-- The forms of the clauses and of the fallback, in the order of the source. -/
def branchForms (c : Cond) : List Form :=
  (c.view.nodes.filter fun v => v.kind == .condClause || v.kind == .condFallback).flatMap View.forms

/-- The clauses take the forms two by two, each a test and its result. -/
def TakesPairs (c : Cond) : Prop :=
  c.clauses.length = c.branchForms.length / 2 ∧
    ∀ i clause, c.clauses[i]? = some clause →
      clause.test? = c.branchForms[2 * i]? ∧ clause.result? = c.branchForms[2 * i + 1]?

/-- What a condition consists of: pairs, a test alone, or pairs and a fallback behind them. -/
inductive Branches : List CondClause → Option CondFallback → Prop
  | pairs {clauses} : (∀ clause ∈ clauses, clause.IsPair) → Branches clauses none
  | testAlone {clause : CondClause} {f} : clause.forms = [f] → Branches [clause] none
  | withFallback {clauses} {fallback : CondFallback} {f} : clauses ≠ [] → (∀ clause ∈ clauses, clause.IsPair) →
      fallback.forms = [f] → Branches clauses (some fallback)

end Cond

section Branches

open Draft

variable {text : Text} {ds : List Draft} {vs : List View}

theorem exists_pairs (viewed : List.Forall₂ (IsViewed text) vs ds) (pairs : ∀ d ∈ ds, Recovery.IsPair d) :
    ∃ clauses : List CondClause, vs = clauses.map Typed.view ∧ clauses.length = ds.length ∧
      ∀ clause ∈ clauses, clause.IsPair := by
  induction viewed with
  | nil => exact ⟨[], rfl, rfl, by simp⟩
  | cons viewed _ inductionHypothesis =>
    obtain ⟨test, result, rfl, isTest, isResult⟩ := pairs _ List.mem_cons_self
    obtain ⟨clause, rfl, two⟩ : ∃ clause : CondClause, _ ∧ clause.forms.length = _ :=
      viewed.exists_typed rfl (by simp [isTest, isResult])
    obtain ⟨clauses, rfl, length, others⟩ := inductionHypothesis fun d member => pairs d (List.mem_cons_of_mem _ member)
    obtain ⟨f, g, forms⟩ := List.length_eq_two.mp two
    exact ⟨clause :: clauses, rfl, congrArg Nat.succ length, List.forall_mem_cons.mpr ⟨⟨f, g, forms⟩, others⟩⟩

theorem exists_of_single {d : Draft} (viewed : List.Forall₂ (IsViewed text) vs [d]) :
    ∃ v, vs = [v] ∧ IsViewed text v d := by
  cases viewed with
  | cons first rest =>
    cases rest
    exact ⟨_, rfl, first⟩

/-- The nodes below a condition are its branches. -/
theorem exists_branches (viewed : List.Forall₂ (IsViewed text) vs ds) (follows : Recovery.clauses ds) :
    ∃ clauses fallback, vs = clauses.map Typed.view ++ fallback.toList.map Typed.view ∧
      Cond.Branches clauses fallback := by
  rcases follows with pairs | ⟨d, rfl, test, rfl, isForm⟩ | ⟨ps, _, rfl, ⟨filled, pairs⟩, d, rfl, form, rfl, isForm⟩
  · obtain ⟨clauses, rfl, -, isPair⟩ := exists_pairs viewed pairs
    exact ⟨clauses, none, by simp, .pairs isPair⟩
  · obtain ⟨v, rfl, only⟩ := exists_of_single viewed
    obtain ⟨clause, rfl, one⟩ : ∃ clause : CondClause, _ ∧ clause.forms.length = _ :=
      only.exists_typed rfl (by simp [isForm])
    obtain ⟨f, forms⟩ := List.length_eq_one_iff.mp one
    exact ⟨[clause], none, by simp, .testAlone forms⟩
  · have split := List.take_append_drop ps.length vs
    obtain ⟨clauses, taken, length, isPair⟩ := exists_pairs (List.forall₂_take_append vs ps _ viewed) pairs
    obtain ⟨v, dropped, last⟩ := exists_of_single (List.forall₂_drop_append vs ps _ viewed)
    obtain ⟨fallback, rfl, one⟩ : ∃ fallback : CondFallback, _ ∧ fallback.forms.length = _ :=
      last.exists_typed rfl (by simp [isForm])
    obtain ⟨f, forms⟩ := List.length_eq_one_iff.mp one
    rw [taken, dropped] at split
    refine ⟨clauses, some fallback, split.symm, .withFallback ?_ isPair forms⟩
    intro empty
    rw [empty] at length
    exact filled (List.length_eq_zero_iff.mp length.symm)

end Branches

/-! ## What the branches make of the forms -/

namespace Cond

variable {c : Cond} {clauses : List CondClause} {fallback : Option CondFallback} {more : List Form}

theorem length_flatMap_forms (pairs : ∀ clause ∈ clauses, clause.IsPair) :
    (clauses.flatMap Typed.forms).length = 2 * clauses.length := by
  induction clauses with
  | nil => rfl
  | cons clause clauses inductionHypothesis =>
    obtain ⟨⟨f, g, forms⟩, others⟩ := List.forall_mem_cons.mp pairs
    rw [List.flatMap_cons, List.length_append, inductionHypothesis others, forms]
    exact (Nat.add_comm ..).trans (Nat.mul_succ ..).symm

/-- In the forms of pairs, those of a clause are found at twice its place. -/
theorem getElem?_flatMap_forms (pairs : ∀ clause ∈ clauses, clause.IsPair) {i : Nat} {clause : CondClause}
    (found : clauses[i]? = some clause) :
    clause.test? = (clauses.flatMap Typed.forms ++ more)[2 * i]? ∧
      clause.result? = (clauses.flatMap Typed.forms ++ more)[2 * i + 1]? := by
  induction clauses generalizing i with
  | nil => contradiction
  | cons first clauses inductionHypothesis =>
    obtain ⟨⟨f, g, forms⟩, others⟩ := List.forall_mem_cons.mp pairs
    rw [List.flatMap_cons, forms]
    cases i with
    | zero =>
      obtain rfl := Option.some.inj found
      simp [CondClause.test?, CondClause.result?, forms]
    | succ i => exact inductionHypothesis others found

theorem branchForms_eq (nodes : c.view.nodes = clauses.map Typed.view ++ fallback.toList.map Typed.view) :
    c.branchForms = clauses.flatMap Typed.forms ++ fallback.toList.flatMap Typed.forms := by
  have kept : (clauses.map Typed.view ++ fallback.toList.map Typed.view).filter
      (fun v => v.kind == .condClause || v.kind == .condFallback) =
      clauses.map Typed.view ++ fallback.toList.map Typed.view := by
    refine List.filter_eq_self.mpr fun v member => ?_
    rcases List.mem_append.mp member with isClause | isFallback
    · obtain ⟨clause, -, rfl⟩ := List.mem_map.mp isClause
      simp [clause.kind_eq rfl]
    · obtain ⟨last, -, rfl⟩ := List.mem_map.mp isFallback
      simp [last.kind_eq rfl]
  rw [branchForms, nodes, kept, List.flatMap_append, List.flatMap_map, List.flatMap_map]
  rfl

theorem takesPairs (nodes : c.view.nodes = clauses.map Typed.view ++ fallback.toList.map Typed.view)
    (pairs : ∀ clause ∈ clauses, clause.IsPair) (few : (fallback.toList.flatMap Typed.forms).length ≤ 1) :
    c.TakesPairs := by
  have forms := branchForms_eq nodes
  have length := congrArg List.length forms
  rw [List.length_append, length_flatMap_forms pairs] at length
  rw [TakesPairs, Typed.clauses_eq nodes]
  refine ⟨by omega, fun i clause found => ?_⟩
  rw [forms]
  exact getElem?_flatMap_forms pairs found

end Cond

open Grammar

theorem Recovery.filter_isNode_of_clauses {ds : List Draft} (follows : Recovery.clauses ds) :
    ds.filter Outline.isNode = ds := by
  rw [List.filter_eq_self]
  rcases follows with pairs | ⟨_, rfl, _, rfl, -⟩ | ⟨ps, _, rfl, ⟨-, pairs⟩, _, rfl, _, rfl, -⟩
  · intro d member
    obtain ⟨_, _, rfl, -⟩ := pairs d member
    rfl
  · simp [Outline.isNode]
  · intro d member
    rcases List.mem_append.mp member with isPair | isLast
    · obtain ⟨_, _, rfl, -⟩ := pairs d isPair
      rfl
    · rw [List.mem_singleton.mp isLast]
      rfl

theorem Grammar.specialNode_eq_condForm {head : Kind} (isHead : head ∈ Kind.heads)
    (same : specialNode head = .condForm) : head = .condHead := by
  revert head
  decide

/-- The nodes below a condition are its branches, in every text. -/
theorem Cond.exists_branches {text : Text} {r : Registry} {result : Parse} (parsed : parse text r = .ok result)
    {c : Cond} (below : c.view ∈ result.root.descendants) :
    ∃ clauses fallback, c.view.nodes = clauses.map Typed.view ++ fallback.toList.map Typed.view ∧
      Cond.Branches clauses fallback := by
  have kindEq := c.kind_eq rfl
  obtain ⟨ds, low, high, -, -, views, sourced, -, table, addressed, -⟩ :=
    exists_sourced parsed below (by rw [kindEq]; rfl)
  rw [kindEq] at views sourced table
  -- The table fixes the parenthesis; what the rule made of the tokens behind it is read off the log.
  obtain ⟨_, _, rfl, ⟨_, rfl, t, rfl, isParen⟩, -⟩ := table (.condForm, ds) (by simp)
  obtain ⟨p, ts, budget, few, ready, -, rest, -, makes, fits⟩ :=
    sourced.exists_parenthesized addressed rfl isParen (by decide)
  obtain ⟨isList, -⟩ | ⟨head, isHead, node, ahead, special⟩ := parenthesized_cases few ready rest isParen makes fits
  · contradiction
  obtain ⟨u, us, rfl, -⟩ := exists_head ready rest ahead
  obtain rfl := specialNode_eq_condForm isHead node.symm
  rw [special] at makes fits
  obtain ⟨body, ending, made, follows, leaves⟩ := makes_condForm (stepsForms_form budget) ready rest isParen
  have viewed := views.nodes
  have noNodes : ending.filter Outline.isNode = [] :=
    List.filter_eq_nil_iff.mpr fun d member => by simp [leaves d member]
  rw [← (Outline.node.inj (makes.unique made fits)).2, List.filter_append, noNodes, List.append_nil] at viewed
  exact LispSyntax.exists_branches (Recovery.filter_isNode_of_clauses follows ▸ viewed) follows

/-- The nodes below a condition are its clauses and the fallback. -/
theorem Cond.mem_nodes {c : Cond} {clauses : List CondClause} {fallback : Option CondFallback}
    (nodes : c.view.nodes = clauses.map Typed.view ++ fallback.toList.map Typed.view) {v : View}
    (member : v ∈ c.view.nodes) : (∃ clause ∈ c.clauses, v = clause.view) ∨
      ∃ last, c.fallback? = some last ∧ v = last.view := by
  rw [nodes, List.mem_append] at member
  rw [Typed.clauses_eq nodes, Typed.fallback?_eq nodes]
  rcases member with isClause | isFallback
  · obtain ⟨clause, among, rfl⟩ := List.mem_map.mp isClause
    exact .inl ⟨clause, among, rfl⟩
  · obtain ⟨last, among, rfl⟩ := List.mem_map.mp isFallback
    exact .inr ⟨last, Option.mem_toList.mp among, rfl⟩

/-- A condition without forms has no branches. One form is the test of a clause without a result. An even number of
forms makes clauses, two by two; of an odd number, from three on, the last is the fallback behind them. There are no
other nodes below a condition, whatever is wrong with the text. -/
theorem cond_pairs {text : Text} {r : Registry} {result : Parse} (parsed : parse text r = .ok result) {c : Cond}
    (below : c.view ∈ result.root.descendants) :
    (c.branchForms = [] → c.clauses = [] ∧ c.fallback? = none) ∧
    (∀ f, c.branchForms = [f] → ∃ clause, c.clauses = [clause] ∧ clause.test? = some f ∧ clause.result? = none ∧
      c.fallback? = none) ∧
    (c.branchForms.length % 2 = 0 → c.TakesPairs ∧ c.fallback? = none) ∧
    (c.branchForms.length % 2 = 1 → 3 ≤ c.branchForms.length → c.TakesPairs ∧
      ∃ fallback, c.fallback? = some fallback ∧ fallback.form? = c.branchForms.getLast?) ∧
    ∀ v ∈ c.view.nodes, (∃ clause ∈ c.clauses, v = clause.view) ∨
      ∃ fallback, c.fallback? = some fallback ∧ v = fallback.view := by
  obtain ⟨clauses, fallback, nodes, branches⟩ := Cond.exists_branches parsed below
  have forms := Cond.branchForms_eq nodes
  have clausesEq := Typed.clauses_eq nodes
  have fallbackEq := Typed.fallback?_eq nodes
  have covered := fun v => Cond.mem_nodes nodes (v := v)
  -- In each case the number of forms is known from the branches, so the other numbers are contradictory.
  cases branches with
  | pairs isPair =>
    have length := Cond.length_flatMap_forms isPair
    have takes := Cond.takesPairs nodes isPair (by simp)
    simp only [Option.toList_none, List.flatMap_nil, List.append_nil] at forms
    rw [← forms] at length
    refine ⟨fun empty => ?_, fun f one => ?_, fun _ => ⟨takes, fallbackEq⟩, fun odd => ?_, covered⟩
    · rw [empty, List.length_nil] at length
      exact ⟨by rw [clausesEq]; exact List.length_eq_zero_iff.mp (by omega), fallbackEq⟩
    · rw [one] at length
      simp only [List.length_singleton] at length
      omega
    · omega
  | @testAlone clause f one =>
    have single : c.branchForms = [f] := by simpa [one] using forms
    have test? : clause.test? = some f := by rw [CondClause.test?, one]; rfl
    have result? : clause.result? = none := by rw [CondClause.result?, one]; rfl
    rw [single]
    refine ⟨by simp, fun g same => ?_, by simp, by simp, covered⟩
    obtain rfl := List.singleton_inj.mp same
    exact ⟨clause, clausesEq, test?, result?, fallbackEq⟩
  | @withFallback _ last f filled isPair one =>
    have length := Cond.length_flatMap_forms isPair
    have takes := Cond.takesPairs nodes isPair (by simp [one])
    simp only [Option.toList_some, List.flatMap_singleton, one] at forms
    have total : c.branchForms.length = 2 * clauses.length + 1 := by simp [forms, length]
    have some := List.length_pos_iff.mpr filled
    refine ⟨fun empty => ?_, fun g single => ?_, fun even => ?_, fun _ _ => ⟨takes, last, fallbackEq, ?_⟩, covered⟩
    · simp [empty] at total
    · rw [single, List.length_singleton] at total
      omega
    · omega
    · rw [forms, CondFallback.form?, one]
      simp

/-- A condition with a stray bracket for a result, and with an odd number of forms. -/
def oddSample : Text :=
  "(cond a ] 'b".toList

/-- The sample is not closed, and one of its forms is the bracket; the last is the fallback. -/
theorem cond_pairs_odd :
    ∃ (result : Parse) (c : Cond), parse oddSample .empty = .ok result ∧ c.view ∈ result.root.descendants ∧
      c.branchForms.length % 2 = 1 ∧ 3 ≤ c.branchForms.length ∧ c.TakesPairs ∧
      ∃ fallback, c.fallback? = some fallback ∧ fallback.form? = c.branchForms.getLast? := by
  obtain ⟨result, c, parsed, below, checked⟩ : ∃ (result : Parse) (c : Cond),
      parse oddSample .empty = .ok result ∧ c.view ∈ result.root.descendants ∧
        decide (c.branchForms.length % 2 = 1 ∧ 3 ≤ c.branchForms.length) = true :=
    exists_typed_of_any (by decide +kernel)
  obtain ⟨odd, three⟩ := of_decide_eq_true checked
  obtain ⟨takes, last⟩ := (cond_pairs parsed below).2.2.2.1 odd three
  exact ⟨result, c, parsed, below, odd, three, takes, last⟩

end LispSyntax
