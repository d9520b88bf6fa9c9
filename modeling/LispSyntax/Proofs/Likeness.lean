import LispSyntax.Proofs.Reading.Form
import Mathlib.Data.List.Forall2

/-! # Sources that are alike

Two sources can differ and still be read in the same way: by the registry that classifies their symbols, or
by the layout of their tokens. A `Likeness` says what may differ. It relates kinds, tokens and spans, and it
asks of them just what the parser looks at: kinds differ only among those of a symbol, the lexemes of related
tokens are the same, and spans stay related when they are joined.

`Parser.Alike` relates two states that are about to do the same, and `Parser.Twin` two stretches of parsing
that have done the same: each is a run, the drafts look the same through `Likeness.view`, and the reports
correspond. Adjacency is the one thing the parser asks of layout, and it asks it only beside a slash
(`Token.AgreeAtSlashes`).
-/

namespace LispSyntax

/-- What may differ between two sources that are read in the same way. -/
structure Likeness (γ : Type) where
  kinds : Kind → Kind → Prop
  tokens : Token → Token → Prop
  spans : Span → Span → Prop
  /-- What a token in a draft looks like when the differences are left out. -/
  view : Kind × Token → γ
  kinds_refl : ∀ k, kinds k k
  eq_or_symbols : ∀ {k l}, kinds k l → k = l ∨ (k.isSymbolToken = true ∧ l.isSymbolToken = true)
  kind_of_tokens : ∀ {t u}, tokens t u → kinds t.kind u.kind
  text_of_tokens : ∀ {t u}, tokens t u → t.text = u.text
  span_of_tokens : ∀ {t u}, tokens t u → spans t.span u.span
  cover : ∀ {a a' b b'}, spans a a' → spans b b' → spans (a.cover b) (a'.cover b')
  view_eq : ∀ {k l t u}, kinds k l → tokens t u → view (k, t) = view (l, u)

/-- Neighbouring tokens of the two lists, one of them a slash, either touch in both or in neither. -/
def Token.AgreeAtSlashes (ts us : List Token) : Prop :=
  ∀ (i : Nat) (t t' u u' : Token), ts[i]? = some t → ts[i + 1]? = some t' → us[i]? = some u →
    us[i + 1]? = some u' → t.kind = .slash ∨ t'.kind = .slash → t.joined t' = u.joined u'

theorem Token.agreeAtSlashes_iff {ts us : List Token} : AgreeAtSlashes ts us ↔
    ∀ i < ts.length, ∀ t ∈ ts[i]?, ∀ t' ∈ ts[i + 1]?, ∀ u ∈ us[i]?, ∀ u' ∈ us[i + 1]?,
      t.kind = .slash ∨ t'.kind = .slash → t.joined t' = u.joined u' := by
  constructor
  · intro agree i _ t first t' second u first' u' second'
    exact agree i t t' u u' first second first' second'
  · intro agree i t t' u u' first second first' second'
    have below := (List.getElem?_eq_some_iff.mp first).1
    exact agree i below t first t' second u first' u' second'

instance (ts us : List Token) : Decidable (Token.AgreeAtSlashes ts us) :=
  decidable_of_iff _ Token.agreeAtSlashes_iff.symm

theorem Token.AgreeAtSlashes.drop {as bs ts us : List Token}
    (agree : AgreeAtSlashes (as ++ ts) (bs ++ us)) (sameLength : as.length = bs.length) :
    AgreeAtSlashes ts us := by
  have shifted : ∀ (as ts : List Token) (i : Nat), (as ++ ts)[as.length + i]? = ts[i]? := by
    intro as ts i
    rw [List.getElem?_append_right (Nat.le_add_right _ _), Nat.add_sub_cancel_left]
  intro i t t' u u' first second first' second'
  apply agree (as.length + i) t t' u u'
  · rw [shifted, first]
  · rw [Nat.add_assoc, shifted, second]
  · rw [sameLength, shifted, first']
  · rw [sameLength, Nat.add_assoc, shifted, second']

theorem Token.AgreeAtSlashes.left {as bs ts us : List Token}
    (agree : AgreeAtSlashes (as ++ ts) (bs ++ us)) : AgreeAtSlashes as bs := by
  have found : ∀ {as ts : List Token} {i : Nat} {t : Token}, as[i]? = some t →
      (as ++ ts)[i]? = some t := by
    intro as ts i t here
    rw [List.getElem?_append_left (List.getElem?_eq_some_iff.mp here).1, here]
  intro i t t' u u' first second first' second'
  exact agree i t t' u u' (found first) (found second) (found first') (found second')

namespace Likeness

variable {γ : Type} (L : Likeness γ)

/-- The same problem in the same form, at related spans. -/
def reports (a b : Report) : Prop :=
  a.problem = b.problem ∧ L.spans a.span b.span ∧ a.context = b.context

def completed (c d : Completed) : Prop :=
  ∃ a b, c.covered = some a ∧ d.covered = some b ∧ L.spans a b

/-- What does not tell symbols apart does not tell related kinds apart. -/
theorem congr {L : Likeness γ} {β : Type} {k l : Kind} (related : L.kinds k l) (f : Kind → β)
    (blind : f .builtinSymbol = f .name ∧ f .builtinFunction = f .name) : f l = f k := by
  have same : ∀ k : Kind, k.isSymbolToken = true → f k = f .name := by
    intro k isSymbol
    cases k <;> first | rfl | exact blind.1 | exact blind.2 | contradiction
  rcases L.eq_or_symbols related with rfl | ⟨isSymbol, isSymbol'⟩
  · rfl
  · rw [same k isSymbol, same l isSymbol']

theorem eq_of_kinds {L : Likeness γ} {k l : Kind} (related : L.kinds k l)
    (noSymbol : k.isSymbolToken = false) : l = k := by
  rcases L.eq_or_symbols related with rfl | ⟨isSymbol, -⟩
  · rfl
  · rw [noSymbol] at isSymbol
    contradiction

end Likeness

namespace Parser

variable {γ : Type} {L : Likeness γ} {p q p' q' p'' q'' : Parser}

/-! ## States -/

/-- States before related tokens, in the same sequences. What was taken before, if anything, can be seen only from a
slash. -/
structure Alike (L : Likeness γ) (p q : Parser) : Prop where
  ready : p.Ready
  rest : List.Forall₂ L.tokens p.rest q.rest
  last : L.tokens p.last q.last
  touching : Token.AgreeAtSlashes p.rest q.rest
  joins : p.previous ≠ none → p.kind = .slash → q.joinedToPrevious = p.joinedToPrevious
  frames : q.frames = p.frames
  slash : L.kinds p.slashKind q.slashKind

namespace Alike

theorem token (alike : Alike L p q) (n : Nat) : L.tokens (p.token n) (q.token n) := by
  simp only [Parser.token]
  have related := alike.rest
  generalize p.rest = ts at related
  generalize q.rest = us at related
  induction related generalizing n with
  | nil => exact alike.last
  | cons head tail inductionHypothesis =>
    cases n with
    | zero => exact head
    | succ n => exact inductionHypothesis n

theorem kinds (alike : Alike L p q) : L.kinds p.kind q.kind :=
  L.kind_of_tokens (alike.token 0)

theorem span (alike : Alike L p q) : L.spans p.current.span q.current.span :=
  L.span_of_tokens (alike.token 0)

theorem text (alike : Alike L p q) (n : Nat) : (q.token n).text = (p.token n).text :=
  (L.text_of_tokens (alike.token n)).symm

theorem length (alike : Alike L p q) : q.rest.length = p.rest.length :=
  alike.rest.length_eq.symm

theorem kind_congr {β : Type} (alike : Alike L p q) (f : Kind → β)
    (blind : f .builtinSymbol = f .name ∧ f .builtinFunction = f .name) : f q.kind = f p.kind :=
  Likeness.congr alike.kinds f blind

theorem nth_congr {β : Type} (alike : Alike L p q) (n : Nat) (f : Kind → β)
    (blind : f .builtinSymbol = f .name ∧ f .builtinFunction = f .name) : f (q.nth n) = f (p.nth n) :=
  Likeness.congr (L.kind_of_tokens (alike.token n)) f blind

theorem isAt (alike : Alike L p q) {k : Kind} (noSymbol : k.isSymbolToken = false) :
    q.isAt k = p.isAt k := by
  refine alike.kind_congr (· == k) ?_
  cases k <;> first | exact ⟨rfl, rfl⟩ | contradiction

theorem atSymbol (alike : Alike L p q) : q.atSymbol = p.atSymbol :=
  alike.kind_congr Kind.isSymbolToken ⟨rfl, rfl⟩

theorem atSequenceEnd (alike : Alike L p q) : q.atSequenceEnd = p.atSequenceEnd := by
  simp only [Parser.atSequenceEnd, Parser.isAt, alike.frames]
  exact alike.kind_congr (fun k => k == .eof || (k.isCloser && p.frames.any (·.closer == k))) ⟨rfl, rfl⟩

theorem context (alike : Alike L p q) : q.context = p.context := by
  simp only [Parser.context, alike.frames]

theorem ready' (alike : Alike L p q) : q.Ready where
  last_eof := by
    have related := L.kind_of_tokens alike.last
    rw [alike.ready.last_eof] at related
    exact Likeness.eq_of_kinds related rfl
  rest_ne_eof := by
    intro u member
    obtain ⟨n, below, rfl⟩ := List.mem_iff_getElem.mp member
    have below' : n < p.rest.length := by rw [← alike.length]; exact below
    have related := L.kind_of_tokens (alike.rest.get below' below)
    intro isEnd
    have notEnd := alike.ready.rest_ne_eof _ (List.getElem_mem below')
    apply notEnd
    have blind := Likeness.congr related (· == .eof) ⟨rfl, rfl⟩
    simpa [isEnd] using blind.symm

theorem exists_rest (alike : Alike L p q) {t : Token} {ts : List Token} (rest : p.rest = t :: ts) :
    ∃ u us, q.rest = u :: us ∧ L.tokens t u := by
  have related := alike.rest
  rw [rest] at related
  obtain ⟨u, us, head, -, rest'⟩ := List.forall₂_cons_left_iff.mp related
  exact ⟨u, us, rest', head⟩

/-- Beside a slash the two sources are laid out in the same way. -/
theorem joined_eq (alike : Alike L p q) {n : Nat} (below : n + 1 < p.rest.length)
    (beside : p.nth n = .slash ∨ p.nth (n + 1) = .slash) : q.joined n = p.joined n := by
  have found : ∀ (p : Parser) (i : Nat), i < p.rest.length → p.rest[i]? = some (p.token i) := by
    intro p i inside
    rw [Parser.token, List.getElem?_eq_getElem inside]
    rfl
  have length := alike.length
  exact (alike.touching n _ _ _ _ (found p n (by omega)) (found p (n + 1) below) (found q n (by omega))
    (found q (n + 1) (by omega)) beside).symm

/-- A lookup starts at the slash in both sources or in neither. -/
theorem joins_eq (alike : Alike L p q) (taken : p.previous ≠ none) :
    (q.isAt .slash && q.joinedToPrevious && q.joined 0 && (q.nth 1).isSymbolToken) =
      (p.isAt .slash && p.joinedToPrevious && p.joined 0 && (p.nth 1).isSymbolToken) := by
  rw [alike.isAt rfl, alike.nth_congr 1 Kind.isSymbolToken ⟨rfl, rfl⟩]
  cases atSlash : p.isAt .slash with
  | false => rfl
  | true =>
    cases isSymbol : (p.nth 1).isSymbolToken with
    | false => simp
    | true =>
      obtain ⟨t, ts, rest, isSlash⟩ := alike.ready.exists_isAt atSlash (by decide)
      obtain ⟨u, us, rfl, -⟩ := alike.ready.exists_symbol_after rest isSymbol
      have kindEq : p.kind = .slash := (kind_of_rest rest).trans isSlash
      rw [alike.joins taken kindEq, alike.joined_eq (by simp [rest]) (.inl kindEq)]

end Alike

/-! ## Stretches of parsing -/

/-- A run that counts the tokens it takes. -/
structure Walks (p : Parser) (ds : List Draft) (p' : Parser) : Prop extends Runs p ds p' where
  position : p'.position = p.position + (Draft.tokensAll ds).length

theorem Walks.refl (p : Parser) : Walks p [] p :=
  ⟨Runs.refl p, rfl⟩

theorem Walks.trans {ds es : List Draft} (first : Walks p ds p') (second : Walks p' es p'') :
    Walks p (ds ++ es) p'' where
  toRuns := first.toRuns.trans second.toRuns
  position := by
    rw [second.position, first.position, Draft.tokensAll_append, List.length_append, Nat.add_assoc]

/-- Tokens that are taken are counted. -/
theorem Walks.total {ds : List Draft} (walks : Walks p ds p') :
    p'.position + p'.rest.length = p.position + p.rest.length := by
  have whole := congrArg List.length walks.rest
  rw [List.length_append] at whole
  rw [walks.position]
  omega

theorem position_of_total {ds : List Draft} (runs : Runs p ds p')
    (total : p'.position + p'.rest.length = p.position + p.rest.length) :
    p'.position = p.position + (Draft.tokensAll ds).length := by
  have whole := congrArg List.length runs.rest
  rw [List.length_append] at whole
  omega

/-- The two stretches, from `p` to `p'` and from `q` to `q'`, do the same. -/
structure Twin (L : Likeness γ) (p q p' q' : Parser) : Prop where
  walks : ∃ ds es, Walks p ds p' ∧ Walks q es q' ∧
    ds.map (Outline.map L.view) = es.map (Outline.map L.view)
  reports : ∃ new new', p'.reports = p.reports ++ new ∧ q'.reports = q.reports ++ new' ∧
    List.Forall₂ L.reports new new'
  /-- The log that begins further up stays within the slots if the other does. -/
  addressed : p.events.size ≤ q.events.size → p.Addressed → q'.Addressed → p'.Addressed

namespace Twin

theorem refl (p q : Parser) : Twin L p q p q :=
  ⟨⟨[], [], .refl p, .refl q, rfl⟩, ⟨[], [], by simp, by simp, .nil⟩, fun _ addressed _ => addressed⟩

/-- The two logs grow by the same. -/
theorem size_le (twin : Twin L p q p' q') (le : p.events.size ≤ q.events.size) (addressed : p'.Addressed)
    (addressed' : q'.Addressed) : p'.events.size ≤ q'.events.size := by
  obtain ⟨ds, es, walks, walks', same⟩ := twin.walks
  have entries := congrArg Outline.entries same
  rw [Outline.entries_map, Outline.entries_map] at entries
  rw [walks.size_eq addressed, walks'.size_eq addressed', entries]
  omega

theorem trans (first : Twin L p q p' q') (second : Twin L p' q' p'' q'') : Twin L p q p'' q'' where
  walks := by
    obtain ⟨ds, es, walks, walks', same⟩ := first.walks
    obtain ⟨gs, hs, more, more', same'⟩ := second.walks
    exact ⟨ds ++ gs, es ++ hs, walks.trans more, walks'.trans more',
      by rw [List.map_append, List.map_append, same, same']⟩
  reports := by
    obtain ⟨new, new', reports, reports', related⟩ := first.reports
    obtain ⟨old, old', rest, rest', related'⟩ := second.reports
    exact ⟨new ++ old, new' ++ old', by rw [rest, reports, List.append_assoc],
      by rw [rest', reports', List.append_assoc], List.rel_append related related'⟩
  addressed le before after := by
    obtain ⟨_, _, -, more', -⟩ := second.walks
    have middle' := more'.grows.addressed after
    have middle := first.addressed le before middle'
    exact second.addressed (first.size_le le middle middle') middle after

/-- Nothing is reported in the one exactly if nothing is reported in the other. -/
theorem quiet_iff (twin : Twin L p q p' q') (silent : p.reports = []) (silent' : q.reports = []) :
    p'.reports = [] ↔ q'.reports = [] := by
  obtain ⟨new, new', reported, reported', related⟩ := twin.reports
  rw [reported, reported', silent, silent', List.nil_append, List.nil_append]
  constructor
  · rintro rfl
    exact List.forall₂_nil_left_iff.mp related
  · rintro rfl
    exact List.forall₂_nil_right_iff.mp related

theorem length_le (twin : Twin L p q p' q') : p'.rest.length ≤ p.rest.length := by
  obtain ⟨⟨ds, es, walks, -⟩, -⟩ := twin
  rw [walks.rest, List.length_append]
  exact Nat.le_add_left _ _

end Twin

/-- What a slash can see of the tokens before it is the token taken last. -/
theorem Alike.joins_after {ds es : List Draft} (alike : Alike L p q) (runs : Runs p ds p') (runs' : Runs q es q')
    (lengths : (Draft.tokensAll ds).length = (Draft.tokensAll es).length) (taken : p'.previous ≠ none)
    (atSlash : p'.kind = .slash) : q'.joinedToPrevious = p'.joinedToPrevious := by
  have allBefore := runs.rest
  have allBefore' := runs'.rest
  obtain ⟨s, ss, rest⟩ := (runs.ready alike.ready).exists_rest (by rw [atSlash]; decide)
  obtain ⟨s', ss', rest'⟩ : ∃ s' ss', q'.rest = s' :: ss' := by
    apply List.exists_cons_of_length_pos
    have total := alike.length
    rw [allBefore, allBefore', List.length_append, List.length_append, rest] at total
    simp only [List.length_cons] at total
    omega
  simp only [joinedToPrevious, runs.previous, runs'.previous, current_of_rest rest,
    current_of_rest rest']
  -- If a token was taken, it is followed by the slash in the tokens that were ahead, where the texts agree. If none
  -- was, the parser still stands where `alike` speaks of it.
  rcases List.eq_nil_or_concat (Draft.tokensAll ds) with empty | ⟨init, t, nonempty⟩
  · rw [empty] at lengths allBefore
    have empty' : Draft.tokensAll es = [] := List.length_eq_zero_iff.mp lengths.symm
    rw [empty'] at allBefore'
    rw [List.nil_append, rest] at allBefore
    rw [List.nil_append, rest'] at allBefore'
    have taken' : p.previous ≠ none := by
      rw [runs.previous, empty] at taken
      exact taken
    have before := alike.joins taken' (by rw [kind_of_rest allBefore, ← kind_of_rest rest, atSlash])
    simpa only [joinedToPrevious, current_of_rest allBefore, current_of_rest allBefore', empty, empty',
      List.getLast?_nil, Option.none_or] using before
  · rcases List.eq_nil_or_concat (Draft.tokensAll es) with empty' | ⟨init', u, nonempty'⟩
    · simp [nonempty, empty'] at lengths
    · rw [nonempty, List.concat_eq_append] at lengths allBefore
      rw [nonempty', List.concat_eq_append] at lengths allBefore'
      have sameLength : init.length = init'.length := by simpa using lengths
      have agree := alike.touching
      rw [allBefore, allBefore', List.append_assoc, List.append_assoc] at agree
      have here := agree.drop sameLength 0 t s u s' rfl (by simp [rest]) rfl (by simp [rest'])
        (.inr ((kind_of_rest rest).symm.trans atSlash))
      simpa [nonempty, nonempty', List.concat_eq_append] using here.symm

theorem Alike.after (alike : Alike L p q) (twin : Twin L p q p' q') : Alike L p' q' := by
  obtain ⟨⟨ds, es, walks, walks', same⟩, -⟩ := twin
  have lengths := Draft.length_tokensAll same
  have related := alike.rest
  have agree := alike.touching
  rw [walks.rest, walks'.rest] at related agree
  have left := List.forall₂_drop (Draft.tokensAll ds).length related
  rw [List.drop_left, lengths, List.drop_left] at left
  refine ⟨walks.ready alike.ready, left, ?_, agree.drop lengths,
    alike.joins_after walks.toRuns walks'.toRuns lengths, ?_, ?_⟩
  · rw [walks.last, walks'.last]
    exact alike.last
  · rw [walks.frames, walks'.frames, alike.frames]
  · rw [walks.slash, walks'.slash]
    exact alike.slash

/-- The tokens taken last are related, if any are taken. -/
theorem Alike.previous_after {ds es : List Draft} (alike : Alike L p q) (runs : Runs p ds p')
    (runs' : Runs q es q') (lengths : (Draft.tokensAll ds).length = (Draft.tokensAll es).length)
    (someToken : Draft.tokensAll ds ≠ []) :
    ∃ t u, p'.previous = some t ∧ q'.previous = some u ∧ L.tokens t u := by
  have related := alike.rest
  rw [runs.rest, runs'.rest] at related
  have taken := List.forall₂_take (Draft.tokensAll ds).length related
  rw [List.take_left, lengths, List.take_left] at taken
  have reversed := List.rel_reverse taken
  rw [runs.previous, runs'.previous, List.getLast?_eq_head?_reverse, List.getLast?_eq_head?_reverse]
  have someReversed : (Draft.tokensAll ds).reverse ≠ [] := by simpa using someToken
  generalize (Draft.tokensAll ds).reverse = left at reversed someReversed
  generalize (Draft.tokensAll es).reverse = right at reversed
  cases reversed with
  | nil => contradiction
  | cons head tail => exact ⟨_, _, rfl, rfl, head⟩

/-! ## Tokens and reports -/

theorem token_advanceAs {t : Token} {ts : List Token} (rest : p.rest = t :: ts) (kind : Kind) (n : Nat) :
    (p.advanceAs kind).token n = p.token (n + 1) := by
  simp [Parser.token, advanceAs, rest]

theorem twin_advanceAs (alike : Alike L p q) {t : Token} {ts : List Token} (rest : p.rest = t :: ts)
    {k l : Kind} (kinds : L.kinds k l) : Twin L p q (p.advanceAs k) (q.advanceAs l) := by
  obtain ⟨u, us, rest', related⟩ := alike.exists_rest rest
  refine ⟨⟨[Draft.token k t], [Draft.token l u], ⟨runs_advanceAs rest k, ?_⟩,
    ⟨runs_advanceAs rest' l, ?_⟩, ?_⟩, ⟨[], [], ?_, ?_, .nil⟩, fun _ addressed _ => ?_⟩
  · simp [Parser.advanceAs, rest]
  · simp [Parser.advanceAs, rest']
  · simp [Draft.token, L.view_eq kinds related]
  · simp [Parser.advanceAs, rest]
  · simp [Parser.advanceAs, rest']
  · exact addressed_of_push (e := .token k) addressed (by simp [Parser.advanceAs, rest]) rfl

theorem twin_advance (alike : Alike L p q) {t : Token} {ts : List Token} (rest : p.rest = t :: ts) :
    Twin L p q p.advance q.advance :=
  twin_advanceAs alike rest alike.kinds

theorem twin_reportAt (alike : Alike L p q) (problem : StructuralProblem) {a b : Span}
    (spans : L.spans a b) : Twin L p q (p.reportAt problem a) (q.reportAt problem b) :=
  ⟨⟨[], [], ⟨runs_reportAt p problem a, rfl⟩, ⟨runs_reportAt q problem b, rfl⟩, rfl⟩,
    ⟨[⟨problem, a, p.context⟩], [⟨problem, b, q.context⟩], rfl, rfl, .cons ⟨rfl, spans, alike.context.symm⟩ .nil⟩,
    fun _ addressed _ => addressed⟩

theorem twin_report (alike : Alike L p q) (problem : StructuralProblem) :
    Twin L p q (p.report problem) (q.report problem) :=
  twin_reportAt alike problem alike.span

/-! ## Nodes -/

theorem Alike.begun (alike : Alike L p q) : Alike L p.begun q.begun :=
  ⟨alike.ready.begun, alike.rest, alike.last, alike.touching, alike.joins, alike.frames, alike.slash⟩

/-- The result is about a node that starts at the next token of `p`. -/
structure Marks (p : Parser) (r : Completed × Parser) : Prop where
  position : r.1.position = p.position
  first : r.1.first = p.current.span
  covered : r.1.covered =
    if p.position < r.2.position then r.2.previous.map fun t => p.current.span.cover t.span else none

structure TwinNode (L : Likeness γ) (p q : Parser) (r s : Completed × Parser) : Prop where
  makes : ∃ d e, Makes p d r ∧ Makes q e s ∧ d.map L.view = e.map L.view
  twin : Twin L p q r.2 s.2
  left : Marks p r
  right : Marks q s

theorem complete_fields (p : Parser) (m : Marker) (kind : Kind) :
    (p.complete m kind).2.position = p.position ∧ (p.complete m kind).2.previous = p.previous ∧
      (p.complete m kind).1.position = m.position ∧ (p.complete m kind).1.first = m.first ∧
      (p.complete m kind).1.covered =
        if m.position < p.position then p.previous.map fun t => m.first.cover t.span else none := by
  simp only [complete]
  split <;> exact ⟨rfl, rfl, rfl, rfl, rfl⟩

theorem marks_complete (p : Parser) (m : Marker) (kind : Kind) {p' : Parser}
    (position : m.position = p.position) (first : m.first = p.current.span) :
    Marks p (p'.complete m kind) := by
  obtain ⟨positionEq, previousEq, markedAt, markedFrom, covered⟩ := complete_fields p' m kind
  refine ⟨markedAt.trans position, markedFrom.trans first, ?_⟩
  rw [covered, positionEq, previousEq, position, first]

theorem walks_complete {kind : Kind} {ds : List Draft} (label : kind.isLabel = true) (body : Walks p.begun ds p') :
    Walks p [.node kind ds] (p'.complete p.start.1 kind).2 := by
  refine ⟨(makes_complete label body.toRuns).runs, ?_⟩
  rw [(complete_fields ..).1, body.position]
  simp [Parser.begun, start]

/-- What a wrapping node adds to the count of tokens is what its body takes. -/
theorem walks_wrap {kind : Kind} {body : Parser → Parser} {d : Draft} {ds : List Draft} {r : Completed × Parser}
    (label : kind.isLabel = true) (makes : Makes p d r) (walks : Walks p [d] r.2)
    (filled : Walks (preceded r) ds (body (preceded r))) :
    Walks p [.node kind (d :: ds)] (r.2.wrap r.1 kind body).2 := by
  refine ⟨(makes_wrap label makes filled.toRuns).runs, ?_⟩
  have position : (r.2.wrap r.1 kind body).2.position = (body (preceded r)).position := (complete_fields ..).1
  rw [position, filled.position, position_preceded, walks.position]
  simp only [Draft.tokensAll_cons, Draft.tokensAll_nil, List.append_nil, List.length_append, Draft.tokens_node]
  omega

theorem marks_wrap {kind : Kind} {body : Parser → Parser} {r : Completed × Parser} (marks : Marks p r) :
    Marks p (r.2.wrap r.1 kind body) := by
  have position : (r.2.precede r.1).1.position = p.position := by rw [marker_precede, marks.position]
  have first : (r.2.precede r.1).1.first = p.current.span := by rw [marker_precede, marks.first]
  exact marks_complete p _ kind position first

/-- A node that starts further up has a slot if the other has. -/
theorem addressed_begun (le : p.events.size ≤ q.events.size) (before : p.Addressed) (begun : q.begun.Addressed) :
    p.begun.Addressed :=
  addressed_start_iff.mpr ⟨before, Nat.lt_of_le_of_lt le (addressed_start_iff.mp begun).2⟩

theorem twin_complete {kind : Kind} (label : kind.isLabel = true)
    (body : Twin L p.begun q.begun p' q') :
    TwinNode L p q (p'.complete p.start.1 kind) (q'.complete q.start.1 kind) := by
  obtain ⟨ds, es, walks, walks', same⟩ := body.walks
  obtain ⟨new, new', reports, reports', related⟩ := body.reports
  have made := makes_complete label walks.toRuns
  have made' := makes_complete label walks'.toRuns
  have view : (Outline.node kind ds : Draft).map L.view = (Outline.node kind es : Draft).map L.view := by
    rw [Outline.map_node, Outline.map_node, same]
  refine ⟨⟨_, _, made, made', view⟩, ⟨⟨_, _, walks_complete label walks, walks_complete label walks', ?_⟩, ⟨new, new',
    ?_, ?_, related⟩, fun le before after => ?_⟩, marks_complete p _ kind rfl rfl, marks_complete q _ kind rfl rfl⟩
  · rw [List.map_singleton, List.map_singleton, view]
  · rw [reports_complete]
    exact reports
  · rw [reports_complete]
    exact reports'
  · have filled' := (grows_complete q' _ kind).addressed after
    have begun := addressed_begun le before (walks'.grows.addressed filled')
    exact addressed_complete (body.addressed (by simpa [Parser.begun, start] using le) begun filled') _ kind

theorem twin_node {kind : Kind} {body : Parser → Parser} (label : kind.isLabel = true)
    (filled : Twin L p.begun q.begun (body p.begun) (body q.begun)) :
    TwinNode L p q (p.node kind body) (q.node kind body) :=
  twin_complete label filled

namespace TwinNode

variable {r s : Completed × Parser}

theorem reportAt (node : TwinNode L p q r s) (alike : Alike L p q) (problem : StructuralProblem)
    {a b : Span} (spans : L.spans a b) :
    TwinNode L p q (r.1, r.2.reportAt problem a) (s.1, s.2.reportAt problem b) := by
  obtain ⟨d, e, made, made', same⟩ := node.makes
  exact ⟨⟨d, e, made.reportAt problem a, made'.reportAt problem b, same⟩,
    node.twin.trans (twin_reportAt (alike.after node.twin) problem spans),
    ⟨node.left.position, node.left.first, node.left.covered⟩,
    ⟨node.right.position, node.right.first, node.right.covered⟩⟩

/-- A node with tokens covers related spans in the two sources. -/
theorem completed (node : TwinNode L p q r s) (alike : Alike L p q)
    (progress : r.2.rest.length < p.rest.length) : L.completed r.1 s.1 := by
  obtain ⟨⟨ds, es, walks, walks', same⟩, -⟩ := node.twin
  have lengths := Draft.length_tokensAll same
  have someToken : 0 < (Draft.tokensAll ds).length := by
    have whole := congrArg List.length walks.rest
    rw [List.length_append] at whole
    omega
  have moved : p.position < r.2.position := by
    rw [walks.position]
    omega
  have moved' : q.position < s.2.position := by
    rw [walks'.position, ← lengths]
    omega
  obtain ⟨t, u, previous, previous', related⟩ := alike.previous_after walks.toRuns walks'.toRuns lengths
    (List.ne_nil_of_length_pos someToken)
  refine ⟨_, _, ?_, ?_, L.cover alike.span (L.span_of_tokens related)⟩
  · rw [node.left.covered, if_pos moved, previous]
    rfl
  · rw [node.right.covered, if_pos moved', previous']
    rfl

theorem preceded_alike (node : TwinNode L p q r s) (alike : Alike L p q) :
    Alike L (preceded r) (preceded s) := by
  have alike' := alike.after node.twin
  obtain ⟨events, fault, eq⟩ := preceded_eq r
  obtain ⟨events', fault', eq'⟩ := preceded_eq s
  rw [eq, eq']
  exact ⟨⟨alike'.ready.last_eof, alike'.ready.rest_ne_eof⟩, alike'.rest, alike'.last, alike'.touching,
    alike'.joins, alike'.frames, alike'.slash⟩

theorem wrap {kind : Kind} {body : Parser → Parser} (node : TwinNode L p q r s)
    (label : kind.isLabel = true)
    (filled : Twin L (preceded r) (preceded s) (body (preceded r)) (body (preceded s))) :
    TwinNode L p q (r.2.wrap r.1 kind body) (s.2.wrap s.1 kind body) := by
  obtain ⟨d, e, made, made', same⟩ := node.makes
  obtain ⟨ds, es, walks, walks', sameBody⟩ := filled.walks
  obtain ⟨new, new', reports, reports', related⟩ := filled.reports
  obtain ⟨_, _, before, before', -⟩ := node.twin.walks
  obtain ⟨old, old', earlier, earlier', related'⟩ := node.twin.reports
  have wrapped := makes_wrap label made walks.toRuns
  have wrapped' := makes_wrap label made' walks'.toRuns
  have view : (Outline.node kind (d :: ds) : Draft).map L.view =
      (Outline.node kind (e :: es) : Draft).map L.view := by
    rw [Outline.map_node, Outline.map_node, List.map_cons, List.map_cons, same, sameBody]
  have start : Walks p [d] r.2 := ⟨made.runs, position_of_total made.runs before.total⟩
  have start' : Walks q [e] s.2 := ⟨made'.runs, position_of_total made'.runs before'.total⟩
  refine ⟨⟨_, _, wrapped, wrapped', view⟩, ⟨⟨_, _, walks_wrap label made start walks,
    walks_wrap label made' start' walks', ?_⟩, ⟨old ++ new, old' ++ new', ?_, ?_,
    List.rel_append related' related⟩, fun le fits fits' => ?_⟩, marks_wrap node.left, marks_wrap node.right⟩
  · rw [List.map_singleton, List.map_singleton, view]
  · have eq : (r.2.wrap r.1 kind body).2.reports = (body (preceded r)).reports := reports_complete ..
    rw [eq, reports, reports_preceded, ← List.append_assoc]
    exact congrArg (· ++ new) earlier
  · have eq : (s.2.wrap s.1 kind body).2.reports = (body (preceded s)).reports := reports_complete ..
    rw [eq, reports', reports_preceded, ← List.append_assoc]
    exact congrArg (· ++ new') earlier'
  · have filled' : (body (preceded s)).Addressed := (grows_complete _ _ kind).addressed fits'
    have linked' := walks'.grows.addressed filled'
    have inside' := (grows_precede s.2 s.1).addressed linked'
    have inside := node.twin.addressed le fits inside'
    have le' := node.twin.size_le le inside inside'
    have linked : (preceded r).Addressed := by
      rw [preceded, Addressed, beyond_precede] at linked' ⊢
      exact addressed_begun le' inside linked'
    refine addressed_complete (filled.addressed ?_ linked filled') _ kind
    rw [preceded, preceded, size_precede, size_precede]
    omega

end TwinNode

/-! ## Delimited sequences -/

theorem Alike.openSequence (alike : Alike L p q) {t : Token} {ts : List Token} {closer : Kind}
    (rest : p.rest = t :: ts) (opens : t.kind.closer? = some closer) (name : String) :
    Alike L (p.openSequence name) (q.openSequence name) := by
  obtain ⟨u, us, rest', related⟩ := alike.exists_rest rest
  have opens' : u.kind.closer? = some closer := by
    rw [Likeness.congr (L.kind_of_tokens related) Kind.closer? ⟨rfl, rfl⟩, opens]
  have advanced := alike.after (twin_advanceAs alike rest (L.kind_of_tokens related))
  rw [openSequence_eq rest opens, openSequence_eq rest' opens']
  exact ⟨⟨advanced.ready.last_eof, advanced.ready.rest_ne_eof⟩, advanced.rest, advanced.last,
    advanced.touching, advanced.joins, by rw [alike.frames], advanced.slash⟩

theorem Twin.withFrames (twin : Twin L p q p' q') (frames frames' : List Frame) :
    Twin L { p with frames := frames } { q with frames := frames' } { p' with frames := frames }
      { q' with frames := frames' } := by
  obtain ⟨⟨ds, es, walks, walks', same⟩, reported, addressed⟩ := twin
  exact ⟨⟨ds, es, ⟨walks.toRuns.withFrames frames, walks.position⟩,
    ⟨walks'.toRuns.withFrames frames', walks'.position⟩, same⟩, reported, addressed⟩

/-- A frame is there for the time of a stretch only. -/
theorem twin_inside (alike : Alike L p q) {t : Token} {ts : List Token} {closer : Kind} {name : String}
    (rest : p.rest = t :: ts) (opens : t.kind.closer? = some closer)
    (inside : Twin L (p.openSequence name) (q.openSequence name) p' q') :
    Twin L p q { p' with frames := p.frames } { q' with frames := q.frames } := by
  obtain ⟨u, us, rest', related⟩ := alike.exists_rest rest
  have opens' : u.kind.closer? = some closer := by
    rw [Likeness.congr (L.kind_of_tokens related) Kind.closer? ⟨rfl, rfl⟩, opens]
  have opened := twin_advanceAs alike rest (L.kind_of_tokens related)
  rw [openSequence_eq rest opens, openSequence_eq rest' opens'] at inside
  refine opened.trans ?_
  have left : { p.advanceAs t.kind with frames := p.frames } = p.advanceAs t.kind := by
    rw [← (runs_advanceAs rest t.kind).frames]
  have right : { q.advanceAs u.kind with frames := q.frames } = q.advanceAs u.kind := by
    rw [← (runs_advanceAs rest' u.kind).frames]
  have moved := inside.withFrames p.frames q.frames
  simp only [left, right] at moved
  exact moved

theorem twin_closeSequence (alike : Alike L p q) {frame : Frame} {outer : List Frame}
    (frames : p.frames = frame :: outer) (noSymbol : frame.closer.isSymbolToken = false)
    (notEnd : frame.closer ≠ .eof) :
    Twin L { p with frames := outer } { q with frames := outer } p.closeSequence q.closeSequence := by
  have frames' : q.frames = frame :: outer := by rw [alike.frames, frames]
  simp only [closeSequence, frames, frames', alike.isAt noSymbol]
  cases closes : p.isAt frame.closer with
  | true =>
    obtain ⟨t, ts, rest, -⟩ := alike.ready.exists_isAt closes notEnd
    exact (twin_advance alike rest).withFrames outer outer
  | false => exact (twin_report alike (.expectedCloser frame.closer)).withFrames outer outer

theorem isSymbolToken_closer {k closer : Kind} (opens : k.closer? = some closer) :
    closer.isSymbolToken = false := by
  unfold Kind.closer? at opens
  split at opens <;> cases opens <;> rfl

theorem twin_between (alike : Alike L p q) {t : Token} {ts : List Token} {closer : Kind}
    {name : String} (rest : p.rest = t :: ts) (opens : t.kind.closer? = some closer)
    (inside : Twin L (p.openSequence name) (q.openSequence name) p' q') :
    Twin L p q p'.closeSequence q'.closeSequence := by
  have frames : p'.frames = ⟨closer, name⟩ :: p.frames := by
    obtain ⟨⟨ds, es, walks, -⟩, -⟩ := inside
    rw [walks.frames, frames_openSequence rest opens]
  have closed := twin_closeSequence ((alike.openSequence rest opens name).after inside) frames
    (isSymbolToken_closer opens) (closer_ne_eof opens)
  have whole := twin_inside alike rest opens inside
  rw [alike.frames] at whole
  exact whole.trans closed

end Parser

end LispSyntax
