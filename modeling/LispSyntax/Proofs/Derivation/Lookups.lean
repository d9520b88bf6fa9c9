import LispSyntax.Proofs.Derivation.Form

/-! # Lookups in a derivation

An account, a slash and a name that touch one another are read as a lookup wherever the account is read as a form. It
can also be read otherwise: as a name to bind, whose value is then the slash; and as a name or a parameter that is taken
without looking at what follows. A stretch of parsing with nothing to report does one of these (`Derives.reading`). That
the last of them is never without a report is not seen here, but by what follows such a name.
-/

namespace LispSyntax

namespace Grammar

open Draft Delimiters

variable {last t s u : Token} {role : Role} {mode : Mode} {kind : Kind} {frames : List Frame} {ds es : List Draft}
  {rs : List Report} {ts us after rest : List Token}

/-! ## Three tokens in a row -/

/-- Among the tokens is the first of the three, with the other two right behind it, and in front of it no slash that
touches it. -/
def Occurs (t s u : Token) (ts after : List Token) : Prop :=
  ∃ before behind rest, ts = before ++ t :: behind ∧ behind ++ after = s :: u :: rest ∧
    ∀ w, before.getLast? = some w → w.kind = .slash → w.joined t = false

theorem Occurs.ne_nil : ¬ Occurs t s u [] after := by
  rintro ⟨before, behind, -, split, -⟩
  simp at split

theorem Occurs.append (occurs : Occurs t s u (ts ++ us) after) :
    Occurs t s u ts (us ++ after) ∨ Occurs t s u us after := by
  obtain ⟨before, behind, rest, split, next, apart⟩ := occurs
  rcases List.append_eq_append_iff.mp split with ⟨before', rfl, rfl⟩ | ⟨behind', rfl, splitBehind⟩
  · refine .inr ⟨before', behind, rest, rfl, next, fun w found => apart w ?_⟩
    rw [List.getLast?_append, found]
    rfl
  · cases behind' with
    | nil =>
      rw [List.nil_append] at splitBehind
      exact .inr ⟨[], behind, rest, splitBehind.symm, next, nofun⟩
    | cons v behind' =>
      rw [List.cons_append] at splitBehind
      obtain ⟨rfl, rfl⟩ := List.cons.inj splitBehind
      rw [List.append_assoc] at next
      exact .inl ⟨before, behind', rest, rfl, next, apart⟩

theorem Occurs.cons {v : Token} (occurs : Occurs t s u (v :: ts) after) :
    v = t ∧ (∃ rest, ts ++ after = s :: u :: rest) ∨ Occurs t s u ts after := by
  obtain ⟨before, behind, rest, split, next, apart⟩ := occurs
  cases before with
  | nil =>
    obtain ⟨rfl, rfl⟩ := List.cons.inj split
    exact .inl ⟨rfl, rest, next⟩
  | cons w before =>
    obtain ⟨rfl, rfl⟩ := List.cons.inj split
    refine .inr ⟨before, behind, rest, rfl, next, fun w found => apart w ?_⟩
    rw [List.getLast?_cons, found]
    rfl

theorem Occurs.single {v : Token} (occurs : Occurs t s u [v] after) : v = t ∧ ∃ rest, after = s :: u :: rest := by
  rcases occurs.cons with found | later
  · exact found
  · exact absurd later Occurs.ne_nil

/-- The three tokens of a lookup: an account, a slash and a name, with nothing between them. -/
structure AreJoined (t s u : Token) : Prop where
  account : t.IsAccount
  slash : s.kind = .slash
  name : u.kind.isSymbolToken = true
  left : t.joined s = true
  right : s.joined u = true

theorem AreJoined.looksUp (joined : AreJoined t s u) (next : after = s :: u :: rest) : t.LooksUp after :=
  ⟨s, u, rest, next, joined.slash, joined.name, joined.left, joined.right⟩

theorem Occurs.skip {v : Token} (occurs : Occurs t s u (v :: ts) after) (joined : AreJoined t s u)
    (noAccount : ¬ v.IsAccount) : Occurs t s u ts after := by
  rcases occurs.cons with ⟨rfl, -⟩ | later
  · exact absurd joined.account noAccount
  · exact later

/-- The account of a lookup is the first of its tokens: at the last of them, a slash touches it. -/
theorem Occurs.of_lookup {a b c : Token} (occurs : Occurs t s u [a, b, c] after) (joined : AreJoined t s u)
    (slash : b.kind = .slash) (right : b.joined c = true) : a = t ∧ b = s ∧ c = u := by
  obtain ⟨before, behind, rest, split, next, apart⟩ := occurs
  match before, split with
  | [], split =>
    obtain ⟨rfl, rfl⟩ := List.cons.inj split
    simp only [List.cons_append, List.cons.injEq] at next
    exact ⟨rfl, next.1, next.2.1⟩
  | [_], split =>
    simp only [List.cons_append, List.nil_append, List.cons.injEq] at split
    obtain ⟨-, rfl, -⟩ := split
    exact absurd joined.account (not_isAccount_of_kind slash rfl)
  | [_, _], split =>
    simp only [List.cons_append, List.nil_append, List.cons.injEq] at split
    obtain ⟨rfl, rfl, rfl, -⟩ := split
    rw [apart b rfl slash] at right
    contradiction
  | _ :: _ :: _ :: _, split => simp at split

/-! ## How they are read -/

/-- What is taken of a token without looking at what follows. -/
inductive Takes (t : Token) : Mode → Draft → Prop
  | name {kind : Kind} : IsWord kind t → Takes t .naming (.node kind [Draft.token t.kind t])
  | amp : Takes t .listing (Draft.token .amp t)
  | fixed : Takes t .listing (.node .fixedParam [Draft.token t.kind t])
  | optional : Takes t .listing (.node .optionalParam [Draft.token t.kind t])

/-- The first token is taken without looking at the other two, which follow it. -/
def Blind (t s u : Token) (mode : Mode) (ds : List Draft) (after : List Token) : Prop :=
  ∃ xs d ys rest, ds = xs ++ d :: ys ∧ Takes t mode d ∧ tokensAll ys ++ after = s :: u :: rest

theorem Blind.left (blind : Blind t s u mode ds (tokensAll es ++ after)) : Blind t s u mode (ds ++ es) after := by
  obtain ⟨xs, d, ys, rest, rfl, takes, next⟩ := blind
  exact ⟨xs, d, ys ++ es, rest, by simp, takes, by rw [tokensAll_append, List.append_assoc, next]⟩

theorem Blind.right (ds : List Draft) (blind : Blind t s u mode es after) : Blind t s u mode (ds ++ es) after := by
  obtain ⟨xs, d, ys, rest, rfl, takes, next⟩ := blind
  exact ⟨ds ++ xs, d, ys, rest, by simp, takes, next⟩

theorem Blind.ne_plain (blind : Blind t s u mode ds after) : mode ≠ .plain := by
  obtain ⟨_, _, _, _, -, takes, -⟩ := blind
  cases takes <;> exact nofun

/-- The node, with its children, around the first of the three tokens. -/
inductive Reading (t s u : Token) : Kind × List Draft → Prop
  | lookup {kind : Kind} : IsWord kind t → Reading t s u (.lookupForm, [.node kind [Draft.token t.kind t],
      Draft.token s.kind s, .node .symbol [Draft.token u.kind u]])
  | binding {ds : List Draft} {after rest : List Token} : t.kind.isSymbolToken = true →
      tokensAll ds ++ after = s :: u :: rest →
      Reading t s u (.binding, .node .symbol [Draft.token t.kind t] :: ds)
  | blind {mode : Mode} {kind : Kind} {ds : List Draft} {after : List Token} : mode.fits kind = true →
      (kind = .lookupForm → ∃ o es, ds = Draft.token o.kind o :: es) → Blind t s u mode ds after →
      Reading t s u (kind, ds)

/-- The stretch has taken the first token blindly, and a node around the stretch is to come. -/
def Role.IsBlind (t s u : Token) : Role → List Draft → List Token → Prop
  | .parts mode, ds, after | .group mode, ds, after => Blind t s u mode ds after
  | .form _, _, _ | .metadata, _, _ | .row _, _, _ => False

/-- A stretch of parsing reads the three tokens in one of its nodes, or has taken the first one already. -/
def ReadsIn (t s u : Token) (role : Role) (ds : List Draft) (after : List Token) : Prop :=
  (∃ n ∈ Outline.nodesAll ds, Reading t s u n) ∨ role.IsBlind t s u ds after

theorem nodesAll_subset (more : ds ⊆ es) : Outline.nodesAll ds ⊆ Outline.nodesAll es := by
  intro n member
  obtain ⟨d, inside, below⟩ := Outline.mem_nodesAll.mp member
  exact Outline.mem_nodesAll.mpr ⟨d, more inside, below⟩

theorem nodesAll_subset_node (kind : Kind) (ds : List Draft) :
    Outline.nodesAll ds ⊆ Outline.nodesAll [.node kind ds] := by
  intro n member
  simp only [Outline.nodesAll, Outline.nodes_node, List.append_nil]
  exact List.mem_cons_of_mem _ member

theorem mem_nodesAll_node (kind : Kind) (ds : List Draft) : (kind, ds) ∈ Outline.nodesAll [.node kind ds] := by
  simp

namespace ReadsIn

variable {inner outer : Role} {after' : List Token}

theorem imp (reads : ReadsIn t s u inner ds after) (more : Outline.nodesAll ds ⊆ Outline.nodesAll es)
    (blind : inner.IsBlind t s u ds after → ReadsIn t s u outer es after') : ReadsIn t s u outer es after' := by
  rcases reads with ⟨n, member, reading⟩ | isBlind
  · exact .inl ⟨n, more member, reading⟩
  · exact blind isBlind

theorem append (mode : Mode) (occurs : Occurs t s u (tokensAll ds ++ tokensAll es) after)
    (first : Occurs t s u (tokensAll ds) (tokensAll es ++ after) →
      ReadsIn t s u (.parts mode) ds (tokensAll es ++ after))
    (second : Occurs t s u (tokensAll es) after → ReadsIn t s u (.parts mode) es after) :
    ReadsIn t s u (.parts mode) (ds ++ es) after := by
  rcases occurs.append with occurs | occurs
  · exact (first occurs).imp (nodesAll_subset (List.subset_append_left ds es)) fun blind => .inr blind.left
  · exact (second occurs).imp (nodesAll_subset (List.subset_append_right ds es)) fun blind => .inr (blind.right ds)

end ReadsIn

theorem not_isAccount (notPlain : isPlain t.kind = false ∨ marks.contains t.kind = true) : ¬ t.IsAccount := by
  intro account
  obtain ⟨plain, unmarked⟩ := isPlain_of_isAccount account
  rcases notPlain with notPlain | isMark
  · rw [plain] at notPlain
    contradiction
  · rw [unmarked] at isMark
    contradiction

theorem not_isAccount_of_opens {closer : Kind} (opens : t.kind.closer? = some closer) : ¬ t.IsAccount :=
  not_isAccount (.inl (by simp [isPlain, opens]))

theorem not_isAccount_of_isCloser (isCloser : t.kind.isCloser = true) : ¬ t.IsAccount :=
  not_isAccount (.inl (by simp [isPlain, isCloser]))

theorem Closing.occurs {frame : Frame} (closing : Closing last frames frame es rs after)
    (isCloser : frame.closer.isCloser = true) (joined : AreJoined t s u)
    (occurs : Occurs t s u (ts ++ tokensAll es) after) : Occurs t s u ts (tokensAll es ++ after) := by
  rcases occurs.append with inside | atEnd
  · exact inside
  · cases closing with
    | taken isKind =>
      obtain ⟨rfl, -⟩ := atEnd.single
      exact absurd joined.account (not_isAccount_of_isCloser (by rw [isKind]; exact isCloser))
    | missing => exact absurd atEnd Occurs.ne_nil

/-- A stretch with nothing to report reads an account with a slash and a name behind it. -/
theorem Derives.reading (joined : AreJoined t s u) (derives : Derives last role frames ds rs after) (quiet : rs = [])
    (occurs : Occurs t s u (tokensAll ds) after) : ReadsIn t s u role ds after := by
  induction derives with
  | nothing => exact absurd occurs Occurs.ne_nil
  | append _ _ left right =>
    obtain ⟨quiet, quiet'⟩ := List.append_eq_nil_iff.mp quiet
    rw [tokensAll_append] at occurs
    exact ReadsIn.append _ occurs (left quiet) (right quiet')
  | widen _ inductionHypothesis =>
    exact (inductionHypothesis quiet occurs).imp (List.Subset.refl _) fun blind => absurd rfl blind.ne_plain
  | form _ inductionHypothesis | metadata _ inductionHypothesis =>
    exact (inductionHypothesis quiet occurs).imp (List.Subset.refl _) False.elim
  | group _ inductionHypothesis =>
    exact (inductionHypothesis quiet occurs).imp (List.Subset.refl _) .inr
  | @node mode kind _ ds _ _ part fits _ inductionHypothesis =>
    rw [tokensAll_node] at occurs
    refine (inductionHypothesis quiet occurs).imp (nodesAll_subset_node kind ds) fun blind => ?_
    refine .inl ⟨_, mem_nodesAll_node kind ds, .blind fits ?_ blind⟩
    rintro rfl
    contradiction
  | @binding v _ ds _ _ isSymbol _ inductionHypothesis =>
    rw [tokensAll_node, tokensAll_cons, tokens_node, tokensAll_token] at occurs
    rcases occurs.cons with ⟨rfl, rest, next⟩ | occurs
    · exact .inl ⟨_, mem_nodesAll_node .binding _, .binding isSymbol next⟩
    · refine (inductionHypothesis quiet occurs).imp ?_ fun blind => absurd rfl blind.ne_plain
      exact List.Subset.trans (nodesAll_subset (List.subset_cons_self _ ds)) (nodesAll_subset_node .binding _)
  -- A head and a word are taken only if no lookup starts there.
  | token _ noLookup | word _ noLookup =>
    obtain ⟨rfl, rest, next⟩ := occurs.single
    exact absurd (joined.looksUp next) (noLookup joined.account)
  -- A name and a parameter are taken without looking.
  | name isWord =>
    obtain ⟨rfl, rest, next⟩ := occurs.single
    exact .inr ⟨[], _, [], rest, rfl, .name isWord, next⟩
  | @parameter d v _ _ isSymbol isParameter =>
    have tokens : tokensAll [d] = [v] := by rcases isParameter with rfl | rfl | rfl <;> simp
    obtain ⟨rfl, rest, next⟩ := (tokens ▸ occurs).single
    have takes : Takes v .listing d := by
      rcases isParameter with rfl | rfl | rfl
      · exact .amp
      · exact .fixed
      · exact .optional
    exact .inr ⟨[], d, [], rest, rfl, takes, next⟩
  | remark | note | cutShort | undescribed | bad | unquoted | tooDeep | stray => simp at quiet
  | @closed _ _ _ _ _ ds es _ _ _ opens _ closing inductionHypothesis =>
    obtain ⟨quiet, -⟩ := List.append_eq_nil_iff.mp quiet
    rw [List.cons_append, tokensAll_token, tokensAll_append] at occurs
    have inside := closing.occurs (Kind.isCloser_of_closer? opens) joined
      (occurs.skip joined (not_isAccount_of_opens opens))
    refine (inductionHypothesis quiet inside).imp ?_ fun blind => .inr (Blind.right [_] blind.left)
    exact nodesAll_subset (List.subset_cons_of_subset _ (List.subset_append_left ds es))
  | @described v _ ds _ _ _ isCaret _ _ inductionHypothesis =>
    obtain ⟨-, quiet⟩ := List.append_eq_nil_iff.mp quiet
    rw [tokensAll_node, tokensAll_token] at occurs
    have behind := occurs.skip joined (not_isAccount (.inr (by rw [isCaret]; rfl)))
    refine (inductionHypothesis quiet behind).imp ?_ False.elim
    exact List.Subset.trans (nodesAll_subset (List.subset_cons_self _ ds)) (nodesAll_subset_node .metadata _)
  | lookup isWord _ slash _ left right =>
    rcases occurs.of_lookup joined slash right with ⟨rfl, rfl, rfl⟩
    exact .inl ⟨_, by simp, .lookup isWord⟩
  | division isKind | unreadable isKind =>
    obtain ⟨rfl, -⟩ := occurs.single
    exact absurd joined.account (not_isAccount_of_kind isKind rfl)
  | @enclosed _ kind _ ds _ _ fits _ group inductionHypothesis =>
    rw [tokensAll_node] at occurs
    refine (inductionHypothesis quiet occurs).imp (nodesAll_subset_node kind ds) fun blind => ?_
    exact .inl ⟨_, mem_nodesAll_node kind ds, .blind fits (fun _ => group.exists_cons_of_group) blind⟩
  | @map _ _ _ ds es _ _ _ isBrace _ closing inductionHypothesis =>
    obtain ⟨quiet, -⟩ := List.append_eq_nil_iff.mp quiet
    obtain ⟨quiet, -⟩ := List.append_eq_nil_iff.mp quiet
    rw [tokensAll_node, List.cons_append, tokensAll_token, tokensAll_append] at occurs
    have opens : _ = some Kind.rightBrace := congrArg Kind.closer? isBrace
    have inside := closing.occurs rfl joined (occurs.skip joined (not_isAccount_of_opens opens))
    refine (inductionHypothesis quiet inside).imp ?_ False.elim
    exact List.Subset.trans (nodesAll_subset (List.subset_cons_of_subset _ (List.subset_append_left ds es)))
      (nodesAll_subset_node .mapForm _)
  | @quoted v _ _ ds _ _ isMark _ inductionHypothesis =>
    rw [tokensAll_node, tokensAll_token] at occurs
    have behind := occurs.skip joined (not_isAccount (.inr (isMark_of_quote isMark)))
    refine (inductionHypothesis quiet behind).imp ?_ False.elim
    exact List.Subset.trans (nodesAll_subset (List.subset_cons_self _ ds)) (nodesAll_subset_node _ _)
  | @misplaced _ ds _ _ _ _ _ inductionHypothesis =>
    obtain ⟨quiet, -⟩ := List.append_eq_nil_iff.mp quiet
    rw [tokensAll_node] at occurs
    exact (inductionHypothesis quiet occurs).imp (nodesAll_subset_node .error ds) False.elim
  | done => exact absurd occurs Occurs.ne_nil
  | @entry d _ _ ds _ _ _ _ _ first second | @skipped d _ _ ds _ _ _ _ _ first second =>
    obtain ⟨quiet, quiet'⟩ := List.append_eq_nil_iff.mp quiet
    rw [← List.singleton_append, tokensAll_append] at occurs
    rcases occurs.append with occurs | occurs
    · exact (first quiet occurs).imp (nodesAll_subset (List.subset_append_left [d] ds)) False.elim
    · exact (second quiet' occurs).imp (nodesAll_subset (List.subset_append_right [d] ds)) False.elim

end Grammar

end LispSyntax
