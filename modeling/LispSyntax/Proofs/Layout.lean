import LispSyntax.Proofs.Faults
import LispSyntax.Proofs.Legible
import LispSyntax.Proofs.Likeness.Form
import LispSyntax.Proofs.Trivia

/-! # Layout does not matter

Two texts can have the same tokens and differ in the blanks, commas, comments and line breaks between them.
Then they are parsed to the same tree, up to trivia and places, and to diagnostics that say the same of the
same tokens (`parse_up_to_layout`). The one exception is a slash, which makes a lookup only where it touches
its neighbours, so beside a slash the two layouts have to agree.

Places are compared through indices: a span corresponds to another if both run from the start of the same
token to the end of the same token, or are the same part of the same token. The order of diagnostics by place
is then the order of these indices, and that is the same for both texts.
-/

namespace LispSyntax

/-! ## Tokens in their places -/

namespace Token

/-- Each token but the last is not empty and ends before the next one starts. -/
structure Placed (ts : List Token) : Prop where
  size : ∀ t ∈ ts, t.span.stop = t.span.start + Text.size t.text
  apart : ts.Pairwise fun t u => t.text ≠ [] ∧ t.span.stop ≤ u.span.start

theorem placed_tokensFrom (r : Registry) (offset : Nat) (text : Text) :
    Placed (tokensFrom r offset text).1 ∧
      ∀ t ∈ (tokensFrom r offset text).1, offset ≤ t.span.start := by
  fun_induction tokensFrom r offset text with
  | case1 offset text reading isEnd =>
    refine ⟨⟨?_, List.pairwise_singleton _ _⟩, ?_⟩
    · rw [List.forall_mem_singleton]
      rfl
    · rw [List.forall_mem_singleton]
      exact Nat.le_add_right ..
  | case2 offset text reading notEnd next inductionHypothesis =>
    obtain ⟨⟨size, apart⟩, later⟩ := inductionHypothesis
    have first : offset ≤ reading.token.span.start := Nat.le_add_right ..
    have after : reading.token.span.stop ≤ reading.offset := Nat.le_add_right ..
    refine ⟨⟨List.forall_mem_cons.mpr ⟨rfl, size⟩, List.pairwise_cons.mpr ⟨?_, apart⟩⟩, ?_⟩
    · intro u member
      exact ⟨text_lexemeOf_ne_nil notEnd, Nat.le_trans after (later u member)⟩
    · refine List.forall_mem_cons.mpr ⟨first, fun u member => ?_⟩
      have inOrder := reading.token.span.start_le_stop
      have beyond := later u member
      omega

namespace Placed

variable {ts : List Token} {i j : Nat} {t u : Token}

theorem stop_le_start (placed : Placed ts) (before : i < j) (found : ts[i]? = some t)
    (found' : ts[j]? = some u) : t.text ≠ [] ∧ t.span.stop ≤ u.span.start := by
  obtain ⟨below, rfl⟩ := List.getElem?_eq_some_iff.mp found
  obtain ⟨below', rfl⟩ := List.getElem?_eq_some_iff.mp found'
  exact List.pairwise_iff_getElem.mp placed.apart i j below below' before

theorem monotone (placed : Placed ts) (inOrder : i ≤ j) (found : ts[i]? = some t)
    (found' : ts[j]? = some u) : t.span.start ≤ u.span.start ∧ t.span.stop ≤ u.span.stop := by
  rcases Nat.lt_or_eq_of_le inOrder with before | rfl
  · have apart := (placed.stop_le_start before found found').2
    have first := t.span.start_le_stop
    have second := u.span.start_le_stop
    omega
  · rw [found] at found'
    cases found'
    exact ⟨Nat.le_refl _, Nat.le_refl _⟩

/-- Places inside tokens are in the order of the tokens, and in one token in their order there. -/
theorem start_le_iff (placed : Placed ts) {m n : Nat} (found : ts[i]? = some t) (found' : ts[j]? = some u)
    (inside : m = 0 ∨ m < Text.size t.text) (inside' : n = 0 ∨ n < Text.size u.text) :
    t.span.start + m ≤ u.span.start + n ↔ i < j ∨ i = j ∧ m ≤ n := by
  have size := placed.size t (List.mem_of_getElem? found)
  have size' := placed.size u (List.mem_of_getElem? found')
  rcases Nat.lt_trichotomy i j with before | rfl | after
  · have apart := (placed.stop_le_start before found found').2
    omega
  · rw [found] at found'
    cases found'
    omega
  · obtain ⟨nonempty, apart⟩ := placed.stop_le_start after found' found
    have positive : Text.size u.text ≠ 0 := fun zero => nonempty (Text.size_eq_zero.mp zero)
    omega

end Placed

/-- Tokens of the same kind and text, at the same place of the two lists. -/
def Same (ts us : List Token) (t u : Token) : Prop :=
  t.kind = u.kind ∧ t.text = u.text ∧ ∃ i : Nat, ts[i]? = some t ∧ us[i]? = some u

theorem same_of_map_eq {ts us : List Token}
    (same : ts.map (fun t => (t.kind, t.text)) = us.map (fun t => (t.kind, t.text))) :
    List.Forall₂ (Same ts us) ts us := by
  have lengths : ts.length = us.length := by simpa using congrArg List.length same
  rw [List.forall₂_iff_get]
  refine ⟨lengths, fun i below below' => ?_⟩
  have here := congrArg (·[i]?) same
  simp only [List.getElem?_map, List.getElem?_eq_getElem below, List.getElem?_eq_getElem below',
    Option.map_some, Option.some.injEq, Prod.mk.injEq] at here
  exact ⟨here.1, here.2, i, List.getElem?_eq_getElem below, List.getElem?_eq_getElem below'⟩

end Token

/-! ## Spans that correspond -/

/-- Both spans run from the start of the `i`th token to the end of the `j`th, for the same `i` and `j`. -/
def Span.CoverSame (ts us : List Token) (a b : Span) : Prop :=
  ∃ (i j : Nat) (t t' u u' : Token), i ≤ j ∧ ts[i]? = some t ∧ ts[j]? = some t' ∧ us[i]? = some u ∧ us[j]? = some u' ∧
    (a.start = t.span.start ∧ a.stop = t'.span.stop) ∧ (b.start = u.span.start ∧ b.stop = u'.span.stop)

/-- Both spans are the same part of the same token. -/
def Span.SamePart (ts us : List Token) (a b : Span) : Prop :=
  ∃ (i : Nat) (t u : Token) (part : Span), ts[i]? = some t ∧ us[i]? = some u ∧ part.start < part.stop ∧
    part.stop ≤ Text.size t.text ∧ a = part.shift t.span.start ∧ b = part.shift u.span.start

/-- The two diagnostics say the same, of the same tokens or of the same part of the same token. -/
def Diagnostic.Corresponds (ts us : List Token) (d e : Diagnostic) : Prop :=
  d.kind = e.kind ∧ d.message = e.message ∧ d.context = e.context ∧
    (d.span.CoverSame ts us e.span ∨ d.span.SamePart ts us e.span)

namespace Span

variable {ts us : List Token}

theorem coverSame_of_same {t u : Token} (same : t.Same ts us u) : t.span.CoverSame ts us u.span := by
  obtain ⟨-, -, i, found, found'⟩ := same
  exact ⟨i, i, t, t, u, u, Nat.le_refl i, found, found, found', found', ⟨rfl, rfl⟩, ⟨rfl, rfl⟩⟩

theorem CoverSame.cover (placed : Token.Placed ts) (placed' : Token.Placed us) {a a' b b' : Span}
    (first : a.CoverSame ts us a') (second : b.CoverSame ts us b') :
    (a.cover b).CoverSame ts us (a'.cover b') := by
  obtain ⟨i, j, t, t', u, u', inOrder, ti, tj, ui, uj, ⟨aStart, aStop⟩, aStart', aStop'⟩ := first
  obtain ⟨k, l, v, v', w, w', inOrder', vk, vl, wk, wl, ⟨bStart, bStop⟩, bStart', bStop'⟩ := second
  -- The joined spans start with the token that comes first in both lists, and end with the one that comes last.
  have starts : ∃ (m : Nat) (t u : Token), m ≤ i ∧ ts[m]? = some t ∧ us[m]? = some u ∧
      min a.start b.start = t.span.start ∧ min a'.start b'.start = u.span.start := by
    rcases Nat.le_total i k with before | after
    · have left := (placed.monotone before ti vk).1
      have right := (placed'.monotone before ui wk).1
      exact ⟨i, t, u, Nat.le_refl i, ti, ui, by omega, by omega⟩
    · have left := (placed.monotone after vk ti).1
      have right := (placed'.monotone after wk ui).1
      exact ⟨k, v, w, after, vk, wk, by omega, by omega⟩
  have stops : ∃ (n : Nat) (t u : Token), j ≤ n ∧ ts[n]? = some t ∧ us[n]? = some u ∧
      max a.stop b.stop = t.span.stop ∧ max a'.stop b'.stop = u.span.stop := by
    rcases Nat.le_total j l with before | after
    · have left := (placed.monotone before tj vl).2
      have right := (placed'.monotone before uj wl).2
      exact ⟨l, v', w', before, vl, wl, by omega, by omega⟩
    · have left := (placed.monotone after vl tj).2
      have right := (placed'.monotone after wl uj).2
      exact ⟨j, t', u', Nat.le_refl j, tj, uj, by omega, by omega⟩
  obtain ⟨m, x, y, least, xm, ym, startEq, startEq'⟩ := starts
  obtain ⟨n, x', y', most, xn, yn, stopEq, stopEq'⟩ := stops
  exact ⟨m, n, x, x', y, y', Nat.le_trans least (Nat.le_trans inOrder most), xm, xn, ym, yn,
    ⟨startEq, stopEq⟩, ⟨startEq', stopEq'⟩⟩

/-- Spans that correspond start at the same place of the same token. -/
theorem exists_anchor {a b : Span} (corresponds : a.CoverSame ts us b ∨ a.SamePart ts us b) :
    ∃ (i n : Nat) (t u : Token), ts[i]? = some t ∧ us[i]? = some u ∧ (n = 0 ∨ n < Text.size t.text) ∧
      a.start = t.span.start + n ∧ b.start = u.span.start + n := by
  rcases corresponds with ⟨i, j, t, t', u, u', -, found, -, found', -, starts, starts'⟩ |
    ⟨i, t, u, part, found, found', nonempty, within, rfl, rfl⟩
  · exact ⟨i, 0, t, u, found, found', .inl rfl, starts.1, starts'.1⟩
  · exact ⟨i, part.start, t, u, found, found', .inr (Nat.lt_of_lt_of_le nonempty within), rfl, rfl⟩

end Span

/-! ## Order -/

namespace Diagnostic

variable {R : Diagnostic → Diagnostic → Prop}

theorem forall₂_insertByStart
    (order : ∀ {d e d' e'}, R d e → R d' e' → (d.span.start ≤ d'.span.start ↔ e.span.start ≤ e'.span.start))
    {d e : Diagnostic} {ds es : List Diagnostic} (first : R d e) (rest : List.Forall₂ R ds es) :
    List.Forall₂ R (insertByStart d ds) (insertByStart e es) := by
  induction rest with
  | nil => exact .cons first .nil
  | @cons d' e' ds es head tail inductionHypothesis =>
    rw [insertByStart, insertByStart]
    by_cases before : d.span.start ≤ d'.span.start
    · rw [if_pos before, if_pos ((order first head).mp before)]
      exact .cons first (.cons head tail)
    · rw [if_neg before, if_neg (mt (order first head).mpr before)]
      exact .cons head inductionHypothesis

/-- Lists that correspond, with corresponding orders, correspond when they are sorted. -/
theorem forall₂_sortByStart
    (order : ∀ {d e d' e'}, R d e → R d' e' → (d.span.start ≤ d'.span.start ↔ e.span.start ≤ e'.span.start))
    {ds es : List Diagnostic} (related : List.Forall₂ R ds es) :
    List.Forall₂ R (sortByStart ds) (sortByStart es) := by
  induction related with
  | nil => exact .nil
  | cons head tail inductionHypothesis =>
    exact forall₂_insertByStart order head inductionHypothesis

theorem start_le_iff_of_corresponds {ts us : List Token} (placed : Token.Placed ts)
    (placed' : Token.Placed us) (same : List.Forall₂ (Token.Same ts us) ts us)
    {d e d' e' : Diagnostic} (first : d.Corresponds ts us e) (second : d'.Corresponds ts us e') :
    d.span.start ≤ d'.span.start ↔ e.span.start ≤ e'.span.start := by
  obtain ⟨i, m, t, u, ti, ui, inside, startEq, startEq'⟩ := Span.exists_anchor first.2.2.2
  obtain ⟨j, n, v, w, vj, wj, inside', startsAt, startsAt'⟩ := Span.exists_anchor second.2.2.2
  have texts : ∀ {i : Nat} {t u : Token}, ts[i]? = some t → us[i]? = some u → t.text = u.text := by
    intro i t u found found'
    obtain ⟨below, rfl⟩ := List.getElem?_eq_some_iff.mp found
    obtain ⟨below', rfl⟩ := List.getElem?_eq_some_iff.mp found'
    exact ((List.forall₂_iff_get.mp same).2 i below below').2.1
  rw [startEq, startsAt, startEq', startsAt', placed.start_le_iff ti vj inside inside',
    placed'.start_le_iff ui wj (by rw [← texts ti ui]; exact inside) (by rw [← texts vj wj]; exact inside')]

end Diagnostic

/-! ## Parsing -/

def Likeness.upToLayout {ts us : List Token} (placed : Token.Placed ts) (placed' : Token.Placed us) :
    Likeness (Kind × Text) where
  kinds k l := k = l
  tokens := Token.Same ts us
  spans := Span.CoverSame ts us
  view leaf := (leaf.1, leaf.2.text)
  kinds_refl _ := rfl
  eq_or_symbols same := .inl same
  kind_of_tokens same := same.1
  text_of_tokens same := same.2.1
  span_of_tokens := Span.coverSame_of_same
  cover := Span.CoverSame.cover placed placed'
  view_eq kinds tokens := by rw [kinds, tokens.2.1]

section

variable {r : Registry} {text text' : Text}

/-- The scanner reports the same of the same parts of the same tokens. -/
theorem corresponds_lexical
    (same : List.Forall₂ (Token.Same (Token.tokenize text r).1 (Token.tokenize text' r).1)
      (Token.tokenize text r).1 (Token.tokenize text' r).1) :
    List.Forall₂ (Diagnostic.Corresponds (Token.tokenize text r).1 (Token.tokenize text' r).1)
      (Token.tokenize text r).2 (Token.tokenize text' r).2 := by
  rw [Token.tokenize, Token.tokenize, Token.diagnostics_tokensFrom r 0 text,
    Token.diagnostics_tokensFrom r 0 text']
  refine List.rel_flatMap same fun t u token => ?_
  obtain ⟨kindEq, textEq, i, found, found'⟩ := token
  rw [Token.diagnostics, Token.diagnostics, ← kindEq, ← textEq, List.forall₂_map_left_iff,
    List.forall₂_map_right_iff, List.forall₂_same]
  intro problem member
  obtain ⟨nonempty, within⟩ :=
    Token.part_of_mem_tokensFrom r 0 text t (List.mem_of_getElem? found) problem member
  exact ⟨rfl, rfl, rfl, .inr ⟨i, t, u, problem.2, found, found', nonempty, within, rfl, rfl⟩⟩

/-- Texts with the same tokens are read to drafts that look the same, with diagnostics that correspond. -/
theorem exists_drafted_of_same_tokens
    (sameTokens : (Token.tokenize text r).1.map (fun t => (t.kind, t.text)) =
      (Token.tokenize text' r).1.map (fun t => (t.kind, t.text)))
    (touching : Token.AgreeAtSlashes (Token.tokenize text r).1 (Token.tokenize text' r).1) :
    ∃ start start' d e, Drafted text r start d ∧ Drafted text' r start' e ∧ d.sketch = e.sketch ∧
      List.Forall₂ (Diagnostic.Corresponds (Token.tokenize text r).1 (Token.tokenize text' r).1)
        (Drafted.diagnostics text r start) (Drafted.diagnostics text' r start') ∧
      (LogFits text' r → LogFits text r) := by
  have placed : Token.Placed (Token.tokenize text r).1 := (Token.placed_tokensFrom r 0 text).1
  have placed' : Token.Placed (Token.tokenize text' r).1 := (Token.placed_tokensFrom r 0 text').1
  have same := Token.same_of_map_eq sameTokens
  obtain ⟨start, start', d, e, drafted, drafted', view, reports, fits⟩ :=
    exists_twin_drafts (L := Likeness.upToLayout placed placed') same touching rfl
  refine ⟨start, start', d, e, drafted, drafted', view, ?_, fits⟩
  refine Diagnostic.forall₂_sortByStart
    (Diagnostic.start_le_iff_of_corresponds placed placed' same) ?_
  refine List.rel_append (corresponds_lexical same) ?_
  rw [List.forall₂_map_left_iff, List.forall₂_map_right_iff]
  refine reports.imp ?_
  rintro a b ⟨problem, spans, context⟩
  exact ⟨rfl, congrArg StructuralProblem.message problem, context, .inl spans⟩

end

/-- Two texts with the same tokens, laid out in the same way beside slashes, are parsed to the same tree up
to trivia and places, and to diagnostics that say the same of the same tokens in the same order. -/
theorem parse_up_to_layout (r : Registry) (text text' : Text)
    (sameTokens : (Token.tokenize text r).1.map (fun t => (t.kind, t.text)) =
      (Token.tokenize text' r).1.map (fun t => (t.kind, t.text)))
    (touching : Token.AgreeAtSlashes (Token.tokenize text r).1 (Token.tokenize text' r).1) :
    (Text.size text < sizeLimit → LogFits text r → ∃ x, parse text r = .ok x) ∧
    (Text.size text' < sizeLimit → LogFits text' r → ∃ y, parse text' r = .ok y) ∧
    ∀ x y, parse text r = .ok x → parse text' r = .ok y →
      x.tree.sketch = y.tree.sketch ∧
      List.Forall₂ (Diagnostic.Corresponds (Token.tokenize text r).1 (Token.tokenize text' r).1)
        x.diagnostics y.diagnostics := by
  refine ⟨exists_parse, exists_parse, fun x y parsed parsed' => ?_⟩
  obtain ⟨start, start', d, e, drafted, drafted', sketch, diagnostics, -⟩ :=
    exists_drafted_of_same_tokens sameTokens touching
  rw [drafted.eq_of_parse_eq_ok parsed, drafted'.eq_of_parse_eq_ok parsed']
  refine ⟨?_, diagnostics⟩
  rw [Draft.sketch_tree d drafted.lies, Draft.sketch_tree e drafted'.lies, sketch]

/-- A lookup and an unreadable token in a form that is not closed. -/
def denseSample : Text :=
  "(let [a/b #] (x".toList

/-- The same tokens with other gaps between them. -/
def spreadSample : Text :=
  "(let,[ a/b # ; no number\n]\r\n( x ".toList

/-- The two samples are parsed alike. -/
theorem parse_up_to_layout_samples :
    (Token.tokenize denseSample .empty).1.map (fun t => (t.kind, t.text)) =
      (Token.tokenize spreadSample .empty).1.map (fun t => (t.kind, t.text)) ∧
    Token.AgreeAtSlashes (Token.tokenize denseSample .empty).1 (Token.tokenize spreadSample .empty).1 ∧
    ∃ x y, parse denseSample .empty = .ok x ∧ parse spreadSample .empty = .ok y ∧
      x.tree.sketch = y.tree.sketch ∧
      List.Forall₂ (Diagnostic.Corresponds (Token.tokenize denseSample .empty).1
          (Token.tokenize spreadSample .empty).1)
        x.diagnostics y.diagnostics := by
  have sameTokens : (Token.tokenize denseSample .empty).1.map (fun t => (t.kind, t.text)) =
      (Token.tokenize spreadSample .empty).1.map (fun t => (t.kind, t.text)) := by decide +kernel
  have touching : Token.AgreeAtSlashes (Token.tokenize denseSample .empty).1
      (Token.tokenize spreadSample .empty).1 := by decide +kernel
  have dense : (parse denseSample .empty).toOption.any (fun _ => true) = true := by decide +kernel
  have spread : (parse spreadSample .empty).toOption.any (fun _ => true) = true := by decide +kernel
  obtain ⟨x, parsed, -⟩ := exists_parse_of_any dense
  obtain ⟨y, parsed', -⟩ := exists_parse_of_any spread
  obtain ⟨-, -, same⟩ := parse_up_to_layout .empty denseSample spreadSample sameTokens touching
  exact ⟨sameTokens, touching, x, y, parsed, parsed', same x y parsed parsed'⟩

end LispSyntax
