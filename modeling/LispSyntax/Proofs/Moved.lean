import LispSyntax.Proofs.Layout
import LispSyntax.Proofs.Lexical.Excerpt
import LispSyntax.Proofs.Origin.Form
import LispSyntax.Proofs.Setting.Form

/-! # Sources at another place

The tokens of a part of a text are those of the text, moved. `Likeness.moved` is the likeness of a source with the part
of a larger one: the same kinds and texts, with spans that differ by an offset. The larger source is in some state when
it comes to the part, and the smaller one starts anew; what has been taken before is not asked for at the start
(`alike_start`).

To compare trees, runs have to give drafts and not just some drafts: a log whose starts have slots describes the drafts
it was made for, and no others (`Runs.unique`).
-/

namespace LispSyntax

/-! ## Tokens -/

theorem Span.shift_cover (n : Nat) (a b : Span) : (a.cover b).shift n = (a.shift n).cover (b.shift n) := by
  simp only [Span.shift, Span.cover, Span.mk.injEq]
  omega

theorem Likeness.eq_or_symbols_of_eq {k l : Kind} (same : k = l) :
    k = l ∨ (k.isSymbolToken = true ∧ l.isSymbolToken = true) :=
  .inl same

/-- A source with the same kinds and texts, `n` bytes further on. -/
def Likeness.moved (n : Nat) : Likeness (Kind × Text) where
  kinds k l := k = l
  tokens t u := t.kind = u.kind ∧ t.text = u.text ∧ u.span = t.span.shift n
  spans a b := b = a.shift n
  view leaf := (leaf.1, leaf.2.text)
  kinds_refl := Eq.refl
  eq_or_symbols := @eq_or_symbols_of_eq
  kind_of_tokens same := same.1
  text_of_tokens same := same.2.1
  span_of_tokens same := same.2.2
  cover first second := by rw [first, second, Span.shift_cover]
  view_eq kinds tokens := by rw [kinds, tokens.2.1]

namespace Token

theorem moved_shift (n : Nat) (ts : List Token) :
    List.Forall₂ (Likeness.moved n).tokens ts (ts.map (shift n)) := by
  rw [List.forall₂_map_right_iff, List.forall₂_same]
  exact fun t _ => ⟨rfl, rfl, rfl⟩

theorem agreeAtSlashes_shift (n : Nat) (ts : List Token) : AgreeAtSlashes ts (ts.map (shift n)) := by
  intro i t t' u u' first second first' second' _
  rw [List.getElem?_map, first] at first'
  rw [List.getElem?_map, second] at second'
  cases first'
  cases second'
  rfl

variable {w : Text} {t : Token}

theorem LiesIn.shift (lies : t.LiesIn w) (left right : Text) :
    (t.shift (Text.size left)).LiesIn (left ++ w ++ right) ∧
      (t.shift (Text.size left)).cover (left ++ w ++ right) = t.cover w := by
  obtain ⟨before, leading, trailing, stretch, after, rfl, covers⟩ := lies
  have moved : (t.shift (Text.size left)).Covers (Text.size (left ++ before)) leading trailing stretch := by
    refine ⟨covers.parts, covers.before_size, covers.after_size, ?_, ?_⟩
    · simp only [Token.shift, Span.shift, covers.start_eq, Text.size_append, Nat.add_assoc]
    · simp only [Token.shift, Span.shift, covers.stop_eq, Text.size_append, Nat.add_assoc]
  have whole : left ++ (before ++ stretch ++ after) ++ right = left ++ before ++ stretch ++ (after ++ right) := by
    simp only [List.append_assoc]
  refine ⟨⟨left ++ before, leading, trailing, stretch, after ++ right, whole, moved⟩, ?_⟩
  rw [whole, cover_of_covers moved, cover_of_covers covers]

theorem LiesIn.leaf_shift (lies : t.LiesIn w) (left right : Text) (kind : Kind) :
    (t.shift (Text.size left)).leaf (left ++ w ++ right) kind = t.leaf w kind := by
  have moved := lies.shift left right
  have cover := moved.2
  rw [moved.1.leaf_eq, lies.leaf_eq, Leaf.mk.injEq]
  exact ⟨rfl, rfl, cover, rfl⟩

end Token

/-- The lexical diagnostics of moved tokens are moved. -/
theorem flatMap_diagnostics_of_moved {n : Nat} {ts us : List Token}
    (related : List.Forall₂ (Likeness.moved n).tokens ts us) :
    us.flatMap Token.diagnostics = (ts.flatMap Token.diagnostics).map (Diagnostic.shift n) := by
  induction related with
  | nil => rfl
  | @cons t u _ _ head _ inductionHypothesis =>
    obtain ⟨kind, text, span⟩ := head
    have first : u.diagnostics = (t.shift n).diagnostics := by
      rw [Token.diagnostics, Token.diagnostics, ← kind, ← text, span]
      rfl
    rw [List.flatMap_cons, List.flatMap_cons, List.map_append, inductionHypothesis, first, Token.diagnostics_shift]

/-! ## Drafts -/

mutual

/-- Drafts of the same shape with leaves that are cut out alike have the same tree. -/
theorem Draft.tree_congr {w text : Text} : (d e : Draft) →
    d.sketch = e.sketch →
    List.Forall₂ (fun t u => ∀ kind, t.leaf w kind = u.leaf text kind) d.tokens e.tokens →
    d.tree w = e.tree text
  | .node kind ds, .node kind' es, same, leaves => by
    rw [Draft.sketch_node, Draft.sketch_node, Outline.node.injEq] at same
    rw [Draft.tree, Draft.tree, same.1, Draft.trees_congr ds es same.2 leaves]
  | .leaf (kind, t), .leaf (kind', u), same, leaves => by
    have kinds : kind = kind' := congrArg Prod.fst (Outline.leaf.inj same)
    have leaf := (List.forall₂_cons.mp leaves).1 kind'
    rw [Draft.tree, Draft.tree, kinds, leaf]
  | .node .., .leaf _, same, _ => by simp [Draft.sketch] at same
  | .leaf _, .node .., same, _ => by simp [Draft.sketch] at same

theorem Draft.trees_congr {w text : Text} : (ds es : List Draft) →
    ds.map Draft.sketch = es.map Draft.sketch →
    List.Forall₂ (fun t u => ∀ kind, t.leaf w kind = u.leaf text kind) (Draft.tokensAll ds) (Draft.tokensAll es) →
    Draft.trees w ds = Draft.trees text es
  | [], [], _, _ => rfl
  | d :: ds, e :: es, same, leaves => by
    rw [List.map_cons, List.map_cons, List.cons.injEq] at same
    rw [Draft.tokensAll_cons, Draft.tokensAll_cons] at leaves
    have lengths : (Draft.tokens d).length = (Draft.tokens e).length := by
      have single : [d].map Draft.sketch = [e].map Draft.sketch := by
        rw [List.map_singleton, List.map_singleton, same.1]
      simpa using Draft.length_tokensAll single
    have first := List.forall₂_take (Draft.tokens d).length leaves
    have rest := List.forall₂_drop (Draft.tokens d).length leaves
    rw [List.take_left, lengths, List.take_left] at first
    rw [List.drop_left, lengths, List.drop_left] at rest
    rw [Draft.trees_cons, Draft.trees_cons, Draft.tree_congr d e same.1 first, Draft.trees_congr ds es same.2 rest]
  | [], _ :: _, same, _ => by simp at same
  | _ :: _, [], same, _ => by simp at same

end

namespace Parser

open Grammar

variable {p q : Parser} {ds es : List Draft} {text : Text}

/-! ## Starting anew -/

theorem ready_startOf {text : Text} {r : Registry} {init : List Token} {last : Token}
    (tokens : (Token.tokenize text r).1 = init ++ [last]) : (startOf r init last).Ready := by
  obtain ⟨init', last', tokens', isEnd, noEnd⟩ := Token.exists_init_tokensFrom r 0 text
  obtain ⟨rfl, same⟩ := List.append_inj' (tokens.symm.trans tokens') rfl
  obtain rfl := List.singleton_inj.mp same
  exact ⟨isEnd, noEnd⟩

/-- A source that starts anew is like one that has come to the same tokens with no sequence open. -/
theorem alike_start {γ : Type} {L : Likeness γ} {r : Registry} {init : List Token} {last : Token}
    (ready : (startOf r init last).Ready) (tokens : List.Forall₂ L.tokens init q.rest) (ends : L.tokens last q.last)
    (touching : Token.AgreeAtSlashes init q.rest) (frames : q.frames = [])
    (slash : q.slashKind = Scan.symbolKind r ['/']) : Alike L (startOf r init last).begun q where
  ready := ready.begun
  rest := tokens
  last := ends
  touching := touching
  joins taken := absurd rfl taken
  frames := frames
  slash := by
    rw [slash]
    exact L.kinds_refl _

end Parser

/-- The same run in another setting. -/
theorem Setting.runs_around {a b : Setting} {x y : Parser} {ds : List Draft}
    (runs : Parser.Runs (a.around x) ds (a.around y)) : Parser.Runs (b.around x) ds (b.around y) where
  rest := by
    have rest := runs.rest
    simp only [around] at rest ⊢
    rw [← List.append_assoc] at rest ⊢
    rw [List.append_cancel_right rest]
  last := rfl
  previous := runs.previous
  slash := runs.slash
  frames := by
    have frames := runs.frames
    simp only [around] at frames ⊢
    rw [List.append_cancel_right frames]
  grows := runs.grows.congr rfl rfl rfl rfl
  appends := runs.appends
  reports := runs.reports

end LispSyntax
