import LispSyntax.Proofs.Derivation.Pairing
import LispSyntax.Proofs.Typed.Parts

/-! # Keys and values of maps

The parser counts the forms of a map while it reads them and reports the last key if their number is odd; a typed view
counts the forms that it finds below the node. A closing delimiter that closes nothing is one of the forms of the view,
as an error, but the parser does not count it. There is no other difference (`missesValue_iff`).
-/

namespace LispSyntax

open Delimiters

/-! ## Spans of views -/

namespace Draft

variable {text : Text} {d : Draft} {ds : List Draft} {leaf : Kind × Token} {start stop : Nat}

theorem Starts.firstLeaf?_tree (starts : d.Starts leaf) (placed : Placed text start [d] stop) :
    (d.tree text).firstLeaf? start = some (leafView text leaf) := by
  induction starts generalizing stop with
  | leaf =>
    obtain ⟨-, rfl, -⟩ := Placed.token _ placed
    rfl
  | node _ inductionHypothesis =>
    obtain ⟨middle, first, -⟩ := placed_cons.mp (placed_node.mp placed)
    exact inductionHypothesis first

/-- The span of a view without trivia goes from its first token to its last. -/
theorem Starts.trimmedSpan_tree (starts : d.Starts leaf) (placed : Placed text start [d] stop) :
    (View.mk (d.tree text) start).trimmedSpan = Token.extent d.tokens := by
  obtain ⟨leaves, leavesEq⟩ := starts.exists_leaves
  have first : (View.mk (d.tree text) start).firstLeaf? = some (leafView text leaf) := starts.firstLeaf?_tree placed
  have last : (View.mk (d.tree text) start).lastLeaf? = some (leafView text (leaves.getLast?.getD leaf)) := by
    rw [View.lastLeaf?, View.leaves, leavesAt_tree d placed, leavesEq, List.getLast?_map, List.getLast?_cons]
    rfl
  have trimmed : ∀ l ∈ d.leaves, (leafView text l).trimmedSpan = l.2.span := fun l member =>
    (placed.1 l.2 (by simpa [tokens] using ⟨l.1, member⟩)).trimmedSpan_leaf l.1
  have lastMember : leaves.getLast?.getD leaf ∈ d.leaves := by
    rw [leavesEq]
    cases found : leaves.getLast? with
    | none => exact List.mem_cons_self
    | some l => exact List.mem_cons_of_mem _ (List.mem_of_getLast? found)
  rw [View.trimmedSpan, first, last]
  simp only [trimmed _ lastMember, trimmed leaf (by simp [leavesEq])]
  rw [tokens, leavesEq, List.map_cons, Token.extent, List.getLast?_map, Option.getD_map Prod.snd leaf]

/-- The nodes among the children of a view, with the spans of their drafts. -/
theorem map_trimmedSpan_filter (placed : Placed text start ds stop) (filled : ∀ d ∈ ds, ∃ leaf, Draft.Starts d leaf) :
    ((View.placeAll start (trees text ds)).filter View.isNode).map View.trimmedSpan = spans ds := by
  induction ds generalizing start with
  | nil => rfl
  | cons d ds inductionHypothesis =>
    obtain ⟨middle, first, rest⟩ := placed_cons.mp placed
    obtain ⟨leaf, starts⟩ := filled d List.mem_cons_self
    have others := inductionHypothesis rest fun e member => filled e (List.mem_cons_of_mem d member)
    have trimmed := starts.trimmedSpan_tree first
    rw [trees_cons, View.placeAll, size_tree d first]
    cases d with
    | leaf l => exact others
    | node kind children =>
      rw [List.filter_cons_of_pos rfl, List.map_cons, trimmed, others]
      rfl

end Draft

/-! ## Maps -/

/-- The forms come from all nodes below, if these are forms. -/
theorem View.map_view_forms {v : View} (accepted : ∀ w ∈ v.nodes, Shape.form.accepts w.kind = true) :
    v.forms.map Form.view = v.nodes := by
  have cast : ∀ w ∈ v.nodes, (Form.cast? w).map Form.view = some w := by
    intro w member
    obtain ⟨f, rfl⟩ := Form.exists_of_accepts (List.mem_filter.mp member).2 (accepted w member)
    rw [Form.cast?_view, Option.map_some]
  rw [View.forms, List.map_filterMap, List.filterMap_congr cast, List.filterMap_some]

namespace MapForm

/-- A form that is reported to be a closing delimiter that closes nothing. -/
def isStray (ds : List Diagnostic) (f : Form) : Bool :=
  ds.any fun d => d.kind == .structural && closers.any (fun kind => d.message == unexpected kind) &&
    d.span == f.view.trimmedSpan

/-- One of the forms of the map is reported to be a key without a value. -/
def MissesValue (ds : List Diagnostic) (m : MapForm) : Prop :=
  ∃ f ∈ m.forms, ⟨.structural, "expected a value for this key", f.view.trimmedSpan, some "map"⟩ ∈ ds

instance (ds : List Diagnostic) (m : MapForm) : Decidable (m.MissesValue ds) :=
  inferInstanceAs (Decidable (∃ f ∈ m.forms, _))

/-- The entries hold all forms of the map but the last. -/
def LeavesOut (m : MapForm) : Prop :=
  ∃ f, m.forms = (m.entries.flatMap fun entry => [entry.1, entry.2]) ++ [f]

end MapForm

/-! ## What is left over -/

section Pairs

variable {α : Type}

theorem length_flatMap_two {β : Type} (f g : β → α) (bs : List β) :
    (bs.flatMap fun b => [f b, g b]).length = 2 * bs.length := by
  induction bs with
  | nil => rfl
  | cons b bs inductionHypothesis =>
    rw [List.flatMap_cons, List.length_append, inductionHypothesis, List.length_cons]
    exact (Nat.add_comm ..).trans (Nat.mul_succ ..).symm

/-- The pairs of an odd number of things hold all but the last. -/
theorem exists_flatMap_pairs_append (as : List α) (odd : as.length % 2 = 1) :
    ∃ a, as = (pairs as).flatMap (fun entry => [entry.1, entry.2]) ++ [a] := by
  fun_induction pairs as with
  | case1 a b rest inductionHypothesis =>
    simp only [List.length_cons] at odd
    obtain ⟨last, restEq⟩ := inductionHypothesis (by omega)
    exact ⟨last, by rw [List.flatMap_cons, List.append_assoc, ← restEq]; rfl⟩
  | case2 as notTwo =>
    cases as with
    | nil => contradiction
    | cons a others =>
      cases others with
      | nil => exact ⟨a, rfl⟩
      | cons b rest => exact absurd rfl (notTwo a b rest)

end Pairs

theorem MapForm.leavesOut_iff (m : MapForm) : m.LeavesOut ↔ m.forms.length % 2 = 1 := by
  refine ⟨fun ⟨f, split⟩ => ?_, exists_flatMap_pairs_append m.forms⟩
  have length := congrArg List.length split
  rw [List.length_append, length_flatMap_two, List.length_singleton] at length
  omega

/-! ## Diagnostics and reports -/

theorem any_unexpected (kind : Kind) :
    (closers.any fun closer => unexpected kind == unexpected closer) = kind.isCloser := by
  cases kind <;> decide

/-- The message says whether a closing delimiter closes nothing. -/
theorem StructuralProblem.isStray_iff (problem : StructuralProblem) :
    problem.isStray = true ↔ ∃ closer ∈ closers, problem.message = unexpected closer := by
  constructor
  · intro isStray
    cases problem with
    | unexpectedCloser kind => exact ⟨kind, mem_closers isStray, rfl⟩
    | _ => contradiction
  · rintro ⟨closer, member, same⟩
    have isCloser : closer.isCloser = true := by
      rw [← any_unexpected]
      exact List.any_eq_true.mpr ⟨closer, member, by simp⟩
    cases isDelimiter : problem.isDelimiter with
    | false => exact absurd (same ▸ unexpected_mem_messages isCloser) (message_not_mem isDelimiter)
    | true =>
      cases problem with
      | unexpectedCloser kind =>
        rw [isStray, ← any_unexpected]
        exact List.any_eq_true.mpr ⟨closer, member, beq_iff_eq.mpr same⟩
      | expectedCloser kind => exact absurd same (expected_ne_unexpected kind closer)
      | _ => contradiction

theorem append_ne {start rest other : String} (n : Nat) (short : n < start.toList.length)
    (apart : start.toList[n]? ≠ other.toList[n]?) : start ++ rest ≠ other := by
  intro same
  refine apart ?_
  rw [← same, String.toList_append, List.getElem?_append_left short]

/-- Two messages that no other problem has. -/
theorem StructuralProblem.eq_of_message_eq {problem known : StructuralProblem}
    (isKnown : known = .noMapValue ∨ known = .tooDeep) (same : problem.message = known.message) : problem = known := by
  have apart {start rest : String} (n : Nat) (short : n < start.toList.length)
      (value : start.toList[n]? ≠ noMapValue.message.toList[n]?)
      (deep : start.toList[n]? ≠ tooDeep.message.toList[n]?) : start ++ rest ≠ known.message := by
    rcases isKnown with rfl | rfl
    · exact append_ne n short value
    · exact append_ne n short deep
  cases problem with
  | expectedCloser closer =>
    change "expected `" ++ spellingOf closer ++ "`" = _ at same
    rw [String.append_assoc] at same
    exact absurd same (apart 9 (by decide) (by decide) (by decide))
  | unexpectedCloser closer =>
    change "unexpected `" ++ spellingOf closer ++ "`" = _ at same
    rw [String.append_assoc] at same
    exact absurd same (apart 0 (by decide) (by decide) (by decide))
  | nothingAfterMark mark =>
    change "expected a form after `" ++ spellingOf mark ++ "`" = _ at same
    rw [String.append_assoc] at same
    exact absurd same (apart 11 (by decide) (by decide) (by decide))
  | extraForms form =>
    change "unexpected form, expected `)` to close `" ++ form ++ "`" = _ at same
    rw [String.append_assoc] at same
    exact absurd same (apart 0 (by decide) (by decide) (by decide))
  | _ =>
    rcases isKnown with rfl | rfl <;> revert same <;> decide

namespace Drafted

variable {text : Text} {r : Registry} {start : Parser}

/-- Missing values among the diagnostics are those among the reports. -/
theorem noMapValue_mem_iff {s : Span} {context : Option String} :
    ⟨.structural, "expected a value for this key", s, context⟩ ∈ diagnostics text r start ↔
      ⟨.noMapValue, s, context⟩ ∈ (Grammar.source start).reports := by
  refine ⟨fun member => ?_, fun reported => mem_diagnostics reported⟩
  obtain ⟨report, reported, same⟩ := exists_report member rfl
  simp only [Report.diagnostic, Diagnostic.mk.injEq, true_and] at same
  obtain ⟨message, rfl, rfl⟩ := same
  rw [← StructuralProblem.eq_of_message_eq (.inl rfl) message]
  exact reported

/-- Stray closing delimiters among the diagnostics are those among the reports. -/
theorem isStray_eq (f : Form) :
    MapForm.isStray (diagnostics text r start) f =
      Grammar.strayAt (Grammar.source start).reports f.view.trimmedSpan := by
  rw [Bool.eq_iff_iff, Grammar.strayAt_eq_true]
  simp only [MapForm.isStray, List.any_eq_true, Bool.and_eq_true, beq_iff_eq]
  constructor
  · rintro ⟨d, member, ⟨structural, message⟩, spanEq⟩
    obtain ⟨report, reported, rfl⟩ := exists_report member structural
    exact ⟨report, reported, report.problem.isStray_iff.mpr message, spanEq⟩
  · rintro ⟨report, reported, isStray, spanEq⟩
    exact ⟨_, mem_diagnostics reported, ⟨rfl, report.problem.isStray_iff.mp isStray⟩, spanEq⟩

end Drafted

/-! ## The forms of a map -/

theorem exists_draft_of_child {text : Text} {ds : List Draft} {offset : Nat} {v : View}
    (child : v ∈ View.placeAll offset (Draft.trees text ds)) : ∃ d ∈ ds, v.tree = d.tree text := by
  induction ds generalizing offset with
  | nil => cases child
  | cons d ds inductionHypothesis =>
    rcases List.mem_cons.mp child with rfl | later
    · exact ⟨d, List.mem_cons_self, rfl⟩
    · obtain ⟨e, member, treeEq⟩ := inductionHypothesis later
      exact ⟨e, List.mem_cons_of_mem d member, treeEq⟩

/-- In a map, all nodes are forms. -/
theorem isForm_of_production {alone : Kind} {quiet : Prop} {ds : List Draft}
    (follows : Recovery.production alone quiet .mapForm ds) {d : Draft} (member : d ∈ ds) (isNode : d.isNode = true) :
    Outline.IsForm d := by
  obtain ⟨_, _, rfl, ⟨_, rfl, _, rfl, -⟩, _, _, rfl, ⟨forms, -⟩, closing⟩ := follows
  rcases List.mem_append.mp member with opener | member
  · obtain rfl := List.mem_singleton.mp opener
    contradiction
  · rcases List.mem_append.mp member with isForm | closer
    · exact forms d isForm
    · rcases closing with ⟨_, rfl, _, rfl, -⟩ | ⟨-, rfl⟩
      · obtain rfl := List.mem_singleton.mp closer
        contradiction
      · cases closer

/-- Where the nodes below a map are forms, the spans of its forms are those of its draft. -/
theorem MapForm.map_trimmedSpan_forms {text : Text} {m : MapForm} {n : Kind × List Draft}
    (views : Draft.Views text m.view n) (forms : ∀ d ∈ n.2, d.isNode = true → Outline.IsForm d)
    (filled : ∀ d ∈ n.2, ∃ leaf, Draft.Starts d leaf) :
    m.forms.map (fun f => f.view.trimmedSpan) = Draft.spans n.2 := by
  obtain ⟨viewed, stop, placed⟩ := views
  have children : m.view.children = View.placeAll m.view.offset (Draft.trees text n.2) := by
    rw [View.children, viewed]
    rfl
  have accepted : ∀ w ∈ m.view.nodes, Shape.form.accepts w.kind = true := by
    intro w member
    obtain ⟨child, isNode⟩ := List.mem_filter.mp member
    rw [children] at child
    obtain ⟨d, inside, treeEq⟩ := exists_draft_of_child child
    rw [View.isNode, treeEq] at isNode
    cases d with
    | leaf => contradiction
    | node kind ds =>
      obtain ⟨_, _, ⟨⟩, accepts⟩ := forms _ inside rfl
      rw [View.kind, treeEq]
      exact accepts
  calc m.forms.map (fun f => f.view.trimmedSpan)
      = (m.forms.map Form.view).map View.trimmedSpan := by rw [List.map_map]; rfl
    _ = m.view.nodes.map View.trimmedSpan := by rw [Typed.forms, View.map_view_forms accepted]
    _ = Draft.spans n.2 := by rw [View.nodes, children, Draft.map_trimmedSpan_filter placed filled]

/-- A map has a key that is reported to have no value exactly if the number of its forms is odd, where closing
delimiters that close nothing are not counted. Its entries leave a form out exactly if the number of all its forms is
odd. So the two agree exactly if the number of those closing delimiters is even. -/
theorem missesValue_iff {text : Text} {r : Registry} {result : Parse} (parsed : parse text r = .ok result)
    {m : MapForm} (below : m.view ∈ result.root.descendants) :
    (m.MissesValue result.diagnostics ↔ (m.forms.countP fun f => !MapForm.isStray result.diagnostics f) % 2 = 1) ∧
    (m.LeavesOut ↔ m.forms.length % 2 = 1) ∧
    ((m.MissesValue result.diagnostics ↔ m.LeavesOut) ↔
      m.forms.countP (MapForm.isStray result.diagnostics) % 2 = 0) := by
  obtain ⟨start, ds, last, drafted, table, -, derives⟩ := exists_derivation parsed
  obtain rfl := drafted.eq_of_parse_eq_ok parsed
  obtain ⟨n, member, views⟩ := Draft.exists_node_of_walk _ drafted.placed m.view below
  have isMap : n.1 = .mapForm := by
    have kindEq := m.kind_eq rfl
    rw [View.kind, views.1] at kindEq
    exact kindEq
  have inside : n ∈ Outline.nodesAll ds := by
    rcases List.mem_cons.mp member with rfl | under
    · contradiction
    · obtain ⟨d, among, under⟩ := Outline.mem_nodesAll.mp under
      rcases List.mem_append.mp among with isForm | isEnd
      · exact Outline.mem_nodesAll.mpr ⟨d, isForm, under⟩
      · rw [List.mem_singleton.mp isEnd] at under
        cases under
  have inOrder : InOrder (Draft.tokensAll ds ++ [last]) := by
    have tokens := drafted.tokens
    rw [Draft.tokens_node, Draft.tokensAll_append] at tokens
    exact tokens ▸ inOrder_tokenize text r
  obtain ⟨filled, -, paired⟩ := (derives.pairing (List.pairwise_append.mp inOrder).1).1.maps n inside isMap
  have follows := table False False.elim n member
  rw [isMap] at follows
  have spans := MapForm.map_trimmedSpan_forms views (fun d => isForm_of_production follows) filled
  have misses : m.MissesValue (Drafted.diagnostics text r start) ↔
      Grammar.Misses (Grammar.source start).reports (Draft.spans n.2) := by
    rw [← spans]
    simp only [MapForm.MissesValue, Grammar.Misses, Drafted.noMapValue_mem_iff, List.mem_map,
      exists_exists_and_eq_and]
  have strays : (m.forms.countP fun f => !MapForm.isStray (Drafted.diagnostics text r start) f) =
      (Draft.spans n.2).countP fun s => !Grammar.strayAt (Grammar.source start).reports s := by
    rw [← spans, List.countP_map]
    simp only [Drafted.isStray_eq]
    rfl
  have reported : m.MissesValue (Drafted.diagnostics text r start) ↔
      (m.forms.countP fun f => !MapForm.isStray (Drafted.diagnostics text r start) f) % 2 = 1 := by
    rw [misses, strays]
    exact paired
  refine ⟨reported, m.leavesOut_iff, ?_⟩
  dsimp only
  have total := m.forms.length_eq_countP_add_countP (MapForm.isStray (Drafted.diagnostics text r start))
  simp only [Bool.not_eq_true, Bool.decide_eq_false] at total
  rw [reported, m.leavesOut_iff]
  omega

/-- A typed view in the tree of a sample, found by a check that can be computed. -/
theorem exists_typed_of_any {text : Text} {s : Shape} {check : Parse → Typed s → Bool}
    (checked : (parse text .empty).toOption.any (fun result =>
      result.root.descendants.any fun v => (Typed.cast? s v).any (check result)) = true) :
    ∃ (result : Parse) (t : Typed s), parse text .empty = .ok result ∧ t.view ∈ result.root.descendants ∧
      check result t = true := by
  obtain ⟨result, parsed, checked⟩ := exists_parse_of_any checked
  simp only [List.any_eq_true, Option.any_eq_true] at checked
  obtain ⟨v, below, t, cast, good⟩ := checked
  have viewed : v = t.view := by
    rw [Typed.cast?, Option.dite_none_right_eq_some] at cast
    obtain ⟨_, same⟩ := cast
    rw [← Option.some.inj same]
  exact ⟨result, t, parsed, viewed ▸ below, good⟩

/-- A key, a bracket that closes nothing, the value of the key and another key. -/
def strayValueSample : Text :=
  "\x7b:a ] 1 :b\x7d".toList

/-- The last key of the sample is reported to have no value, though the entries leave no form out. -/
theorem missesValue_iff_strayValue :
    ∃ (result : Parse) (m : MapForm), parse strayValueSample .empty = .ok result ∧
      m.view ∈ result.root.descendants ∧ m.MissesValue result.diagnostics ∧ ¬ m.LeavesOut := by
  obtain ⟨result, m, parsed, below, checked⟩ : ∃ (result : Parse) (m : MapForm),
      parse strayValueSample .empty = .ok result ∧ m.view ∈ result.root.descendants ∧
        decide ((m.forms.countP fun f => !MapForm.isStray result.diagnostics f) % 2 = 1 ∧
          m.forms.length % 2 ≠ 1) = true :=
    exists_typed_of_any (by decide +kernel)
  obtain ⟨odd, even⟩ := of_decide_eq_true checked
  obtain ⟨misses, leavesOut, -⟩ := missesValue_iff parsed below
  exact ⟨result, m, parsed, below, misses.mpr odd, fun left => even (leavesOut.mp left)⟩

/-- Two symbols, and between them a bracket that closes nothing. -/
def strayKeySample : Text :=
  "\x7ba ] b\x7d".toList

/-- No key of the sample is reported to have no value, but the entries leave the second symbol out. -/
theorem leavesOut_without_report :
    ∃ (result : Parse) (m : MapForm), parse strayKeySample .empty = .ok result ∧
      m.view ∈ result.root.descendants ∧ m.LeavesOut ∧ m.forms.length % 2 = 1 ∧
      ¬ m.MissesValue result.diagnostics := by
  obtain ⟨result, m, parsed, below, checked⟩ : ∃ (result : Parse) (m : MapForm),
      parse strayKeySample .empty = .ok result ∧ m.view ∈ result.root.descendants ∧
        decide (m.forms.length % 2 = 1 ∧ ¬ m.MissesValue result.diagnostics) = true :=
    exists_typed_of_any (by decide +kernel)
  obtain ⟨odd, unreported⟩ := of_decide_eq_true checked
  exact ⟨result, m, parsed, below, m.leavesOut_iff.mpr odd, odd, unreported⟩

end LispSyntax
