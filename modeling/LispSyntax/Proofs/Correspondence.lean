import LispSyntax.Proofs.Leaves
import LispSyntax.Proofs.Order
import LispSyntax.Proofs.Origin.Form
import LispSyntax.Proofs.Placement

/-! # Leaves correspond to tokens

The parser logs only the kind that it takes a token under; the tokens are put in when the log is replayed. Here
both are put together again: the leaves of a tree are the tokens of the text, one by one, each with the lexeme, the
place and the trivia of its token (`LeafView.Shows`). The kind may be another one, in four cases (`Renamed`): the
head of a special form, the alias of an import, the `&` of a parameter list, and a slash that stands alone. Any other
slash belongs to a lookup, or to a form that was skipped because it is nested too deeply.
-/

namespace LispSyntax

/-! ## Kinds that tokens are taken under -/

/-- The kind that a token gets other than its own, as the `i`th child of a node whose children have the given
kinds; a slash that stands alone gets the kind `alone`. -/
inductive Renamed (alone kind : Kind) (kinds : List Kind) (i : Nat) (t : Token) : Kind → Prop where
  | head {k : Kind} : kind ∈ Kind.heads.map Grammar.specialNode → kinds.head? = some .leftParen → i = 1 →
      Kind.ofHead? t.text = some k → Renamed alone kind kinds i t k
  | asMark : kind = .importForm → t.kind = .keyword → t.text = ":as".toList →
      Renamed alone kind kinds i t .asMark
  | rest : kind = .paramList → t.kind.isSymbolToken = true → t.text = ['&'] →
      Renamed alone kind kinds i t .amp
  | slash : kind = .symbol → kinds.length = 1 → t.kind = .slash → Renamed alone kind kinds i t alone

/-- The kind of a node or of a token as it was taken. -/
def Draft.kind : Draft → Kind
  | .node kind _ => kind
  | .leaf leaf => leaf.1

variable {alone kind k : Kind} {kinds : List Kind} {i : Nat} {t : Token} {quiet : Prop} {ds : List Draft}

theorem ofHead?_asMark : Kind.ofHead? ":as".toList = none := by
  decide

theorem Renamed.unique {l : Kind} (first : Renamed alone kind kinds i t k)
    (second : Renamed alone kind kinds i t l) : k = l := by
  have noHead : t.text = ":as".toList → ∀ k, Kind.ofHead? t.text ≠ some k := by
    intro isAs k
    rw [isAs, ofHead?_asMark]
    simp
  cases first with
  | head isSpecial _ _ isHead =>
    cases second with
    | head _ _ _ isHead' => exact Option.some.inj (isHead.symm.trans isHead')
    | asMark _ _ isAs => exact absurd isHead (noHead isAs k)
    | rest isList => exact absurd (isList ▸ isSpecial) (by decide)
    | slash isSymbol => exact absurd (isSymbol ▸ isSpecial) (by decide)
  | asMark isImport _ isAs =>
    cases second with
    | head _ _ _ isHead => exact absurd isHead (noHead isAs l)
    | asMark => rfl
    | rest isList => exact absurd (isImport.symm.trans isList) (by decide)
    | slash isSymbol => exact absurd (isImport.symm.trans isSymbol) (by decide)
  | rest isList =>
    cases second with
    | head isSpecial => exact absurd (isList ▸ isSpecial) (by decide)
    | asMark isImport => exact absurd (isList.symm.trans isImport) (by decide)
    | rest => rfl
    | slash isSymbol => exact absurd (isList.symm.trans isSymbol) (by decide)
  | slash isSymbol =>
    cases second with
    | head isSpecial => exact absurd (isSymbol ▸ isSpecial) (by decide)
    | asMark isImport => exact absurd (isSymbol.symm.trans isImport) (by decide)
    | rest isList => exact absurd (isSymbol.symm.trans isList) (by decide)
    | slash => rfl

/-- A node whose kind is that of no special form, no parameter list and no symbol renames nothing. -/
theorem not_renamed (noSpecial : kind ∉ Kind.heads.map Grammar.specialNode) (noList : kind ≠ .paramList)
    (noSymbol : kind ≠ .symbol) : ¬ Renamed alone kind kinds i t k := by
  intro renamed
  cases renamed with
  | head isSpecial => exact noSpecial isSpecial
  | asMark isImport =>
    subst isImport
    exact noSpecial (by decide)
  | rest isList => exact noList isList
  | slash isSymbol => exact noSymbol isSymbol

namespace Leaves

/-- A token under its own kind, which is no slash. -/
def Plain (leaf : Kind × Token) : Prop :=
  leaf.1 = leaf.2.kind ∧ leaf.2.kind ≠ .slash

theorem plain {kind : Kind} (noSlash : kind ≠ .slash) (t : Token) (isKind : t.kind = kind) :
    Plain (kind, t) :=
  ⟨isKind.symm, by rw [isKind]; exact noSlash⟩

theorem plain_production (noSpecial : kind ∉ Kind.heads.map Grammar.specialNode) (noList : kind ≠ .paramList)
    (noSymbol : kind ≠ .symbol) (noError : kind ≠ .error) :
    Leaves Plain (Recovery.production alone quiet kind) := by
  have literals : ∀ t : Token, t.kind.isLiteralToken = true → Plain (t.kind, t) := by
    intro t isLiteral
    refine ⟨rfl, fun isSlash => ?_⟩
    rw [isSlash] at isLiteral
    contradiction
  have symbols : ∀ t : Token, t.kind.isSymbolToken = true → Plain (t.kind, t) := by
    intro t isSymbol
    refine ⟨rfl, fun isSlash => ?_⟩
    rw [isSlash] at isSymbol
    contradiction
  have enclosed : ∀ {a : Pattern (Kind × Token)} (opener closer : Kind), opener ≠ .slash →
      closer ≠ .slash → Leaves Plain a → Leaves Plain (Recovery.delimited quiet opener closer a) :=
    fun _ _ opens closes inside => delimited (plain opens) (plain closes) inside
  cases kind with
  | source => exact forms.followedBy (tokenOf (plain (by decide)))
  | literal => exact tokenIn literals
  | listForm => exact enclosed .leftParen .rightParen (by decide) (by decide) forms
  | vectorForm => exact enclosed .leftBracket .rightBracket (by decide) (by decide) forms
  | setForm => exact enclosed .hashLeftBrace .rightBrace (by decide) (by decide) forms
  | mapForm => exact enclosed .leftBrace .rightBrace (by decide) (by decide) (forms.imp fun _ good => good.1)
  | metadata =>
    exact (tokenOf (plain (by decide))).followedBy
      ((single (isNode_of_hasKind .mapForm)).orElse (provided (optional form)))
  | arity =>
    exact arityParts.orElse
      (enclosed .leftParen .rightParen (by decide) (by decide) (arityParts.orElse gaveUp))
  | fixedParam | optionalParam => exact tokenIn symbols
  | condClause => exact form.followedBy (optional form)
  | condFallback => exact form
  | bindings => exact enclosed .leftBracket .rightBracket (by decide) (by decide) bindingList
  | binding => exact (node .symbol).followedBy expected
  | symbol | paramList | error => contradiction
  | lookupForm | importForm | defForm | defnForm | defmacroForm | fnForm | macroForm | condForm | letForm | loopForm |
    ifLetForm | whenLetForm | dotimesForm | quoteForm | quasiquoteForm | unquoteForm =>
    exact absurd (by decide) noSpecial
  | _ => exact fun _ impossible => impossible.elim

/-- What stands in a special form after its head: the alias of an import, and the closing parenthesis. -/
def AfterHead (head : Kind) (leaf : Kind × Token) : Prop :=
  (leaf.1 = .rightParen ∧ leaf.2.kind = .rightParen) ∨
    (head = .importHead ∧ leaf.1 = .asMark ∧ leaf.2.kind = .keyword ∧ leaf.2.text = ":as".toList)

theorem exists_head {head : Kind} (special : Recovery.special quiet head ds) :
    ∃ a t tail, ds = Draft.token .leftParen a :: Draft.token head t :: tail ∧ a.kind = .leftParen ∧
      t.kind.isSymbolToken = true ∧ Kind.ofHead? t.text = Option.some head ∧
      ∀ leaf, Outline.leaf leaf ∈ tail → AfterHead head leaf := by
  obtain ⟨_, _, rfl, ⟨_, rfl, a, rfl, opens⟩, us, vs, rfl, inside, closes⟩ := special
  obtain ⟨_, body, rfl, ⟨_, rfl, t, rfl, isSymbol, isHead⟩, after⟩ := inside
  refine ⟨a, t, body ++ vs, by simp, opens, isSymbol, isHead, ?_⟩
  have bodyLeaves : Leaves (AfterHead head)
      ((Recovery.specialBody quiet head).followedBy (.optional (Recovery.gaveUp quiet))) :=
    (specialBody fun isImport t isAs => .inr ⟨isImport, rfl, isAs⟩).followedBy (optional gaveUp)
  have closing : Leaves (AfterHead head) (Draft.closing quiet .rightParen) :=
    (tokenOf fun t isParen => .inl ⟨rfl, isParen⟩).orElse (provided nothing)
  intro leaf member
  cases List.mem_append.mp member with
  | inl inBody => exact bodyLeaves body after leaf inBody
  | inr inClosing => exact closing vs closes leaf inClosing

end Leaves

/-- How a token stands as a child: under another kind, or under its own. A slash under its own kind is that of
a lookup, or it stands in an error. -/
def Stands (alone kind : Kind) (kinds : List Kind) (i : Nat) (t : Token) (k : Kind) : Prop :=
  (Renamed alone kind kinds i t k ∧ k ≠ t.kind) ∨
    (k = t.kind ∧ (∀ l, ¬ Renamed alone kind kinds i t l) ∧
      (t.kind = .slash → (kind = .lookupForm ∧ kinds.head? ≠ some .leftParen) ∨ kind = .error))

theorem ne_of_isSymbolToken {kind other : Kind} (isSymbol : kind.isSymbolToken = true)
    (noSymbol : other.isSymbolToken = false) : kind ≠ other := by
  rintro rfl
  rw [isSymbol] at noSymbol
  contradiction

theorem stands_symbol (isSymbol : alone.isSymbolToken = true)
    (follows : Recovery.production alone quiet .symbol ds) (child : ds[i]? = some (Draft.token k t)) :
    Stands alone .symbol (ds.map Draft.kind) i t k := by
  have first : ∀ {l : Kind} {u : Token}, [Draft.token l u][i]? = some (Draft.token k t) →
      l = k ∧ u = t := by
    intro l u found
    have member := List.mem_singleton.mp (List.mem_of_getElem? found)
    simp only [Draft.token, Outline.leaf.injEq, Prod.mk.injEq] at member
    exact ⟨member.1.symm, member.2.symm⟩
  rcases follows with ⟨_, rfl, u, rfl, named⟩ | ⟨_, rfl, u, rfl, isSlash⟩
  · obtain ⟨rfl, rfl⟩ := first child
    have noSlash : u.kind ≠ .slash := ne_of_isSymbolToken named rfl
    refine .inr ⟨rfl, ?_, fun isSlash => absurd isSlash noSlash⟩
    intro l renamed
    cases renamed with
    | head isSpecial => exact absurd isSpecial (by decide)
    | asMark isImport => contradiction
    | rest isList => contradiction
    | slash _ _ isSlash => exact noSlash isSlash
  · obtain ⟨rfl, rfl⟩ := first child
    refine .inl ⟨.slash rfl rfl isSlash, ?_⟩
    rw [isSlash]
    exact ne_of_isSymbolToken isSymbol rfl

theorem stands_paramList (follows : Recovery.production alone quiet .paramList ds)
    (child : ds[i]? = some (Draft.token k t)) :
    Stands alone .paramList (ds.map Draft.kind) i t k := by
  have leaves : Leaves (fun leaf => (leaf.1 = leaf.2.kind ∧ leaf.2.kind ≠ .slash ∧
        leaf.2.kind.isSymbolToken = false) ∨
      (leaf.1 = .amp ∧ leaf.2.text = ['&'] ∧ leaf.2.kind.isSymbolToken = true))
      (Recovery.production alone quiet .paramList) :=
    Leaves.delimited (fun t isKind => .inl ⟨isKind.symm, by rw [isKind]; exact ⟨by decide, rfl⟩⟩)
      (fun t isKind => .inl ⟨isKind.symm, by rw [isKind]; exact ⟨by decide, rfl⟩⟩)
      (Leaves.parameters fun t isAmp => .inr ⟨rfl, isAmp⟩)
  rcases leaves ds follows (k, t) (List.mem_of_getElem? child) with ⟨own, noSlash, noSymbol⟩ |
    ⟨isAmp, textEq, isSymbol⟩
  · refine .inr ⟨own, ?_, fun isSlash => absurd isSlash noSlash⟩
    intro l renamed
    cases renamed with
    | head isSpecial => exact absurd isSpecial (by decide)
    | asMark isImport => contradiction
    | rest _ isSymbol =>
      rw [isSymbol] at noSymbol
      contradiction
    | slash isName => contradiction
  · dsimp only at isAmp textEq isSymbol
    subst isAmp
    exact .inl ⟨.rest rfl isSymbol textEq, (ne_of_isSymbolToken isSymbol rfl).symm⟩

theorem stands_plain (noSpecial : kind ∉ Kind.heads.map Grammar.specialNode) (noList : kind ≠ .paramList)
    (noSymbol : kind ≠ .symbol) (follows : Recovery.production alone quiet kind ds)
    (child : ds[i]? = some (Draft.token k t)) : Stands alone kind (ds.map Draft.kind) i t k := by
  have noRename : ∀ l, ¬ Renamed alone kind (ds.map Draft.kind) i t l :=
    fun _ => not_renamed noSpecial noList noSymbol
  have member := List.mem_of_getElem? child
  by_cases isError : kind = .error
  · subst isError
    have leaves : Leaves (fun leaf => leaf.1 = leaf.2.kind) (Recovery.errorParts quiet) :=
      Leaves.errorParts fun _ => rfl
    have own : k = t.kind := leaves ds follows (k, t) member
    exact .inr ⟨own, noRename, fun _ => .inr rfl⟩
  · obtain ⟨own, noSlash⟩ :=
      Leaves.plain_production noSpecial noList noSymbol isError ds follows (k, t) member
    exact .inr ⟨own, noRename, fun isSlash => absurd isSlash noSlash⟩

/-! ## Special forms -/

theorem stands_special {head : Kind} (isHead : head ∈ Kind.heads)
    (special : Recovery.special quiet head ds) (child : ds[i]? = some (Draft.token k t)) :
    Stands alone (Grammar.specialNode head) (ds.map Draft.kind) i t k := by
  obtain ⟨a, u, tail, rfl, opens, isSymbol, uHead, after⟩ := Leaves.exists_head special
  have isSpecial : Grammar.specialNode head ∈ Kind.heads.map Grammar.specialNode :=
    List.mem_map_of_mem isHead
  have noList : Grammar.specialNode head ≠ .paramList := by
    intro isList
    rw [isList] at isSpecial
    exact absurd isSpecial (by decide)
  have noSymbol : Grammar.specialNode head ≠ .symbol := by
    intro isName
    rw [isName] at isSpecial
    exact absurd isSpecial (by decide)
  -- A token that is neither the head nor an alias keeps its kind.
  have keeps : i ≠ 1 → k = t.kind → t.kind ≠ .slash → t.kind ≠ .keyword →
      Stands alone (Grammar.specialNode head)
        ((Draft.token .leftParen a :: Draft.token head u :: tail).map Draft.kind) i t k := by
    intro notSecond own noSlash noKeyword
    refine .inr ⟨own, ?_, fun isSlash => absurd isSlash noSlash⟩
    intro l renamed
    cases renamed with
    | head _ _ second => exact notSecond second
    | asMark _ isKeyword => exact noKeyword isKeyword
    | rest isList => exact noList isList
    | slash isName => exact noSymbol isName
  match i, child with
  | 0, child =>
    simp only [List.getElem?_cons_zero, Option.some.injEq, Draft.token, Outline.leaf.injEq,
      Prod.mk.injEq] at child
    obtain ⟨rfl, rfl⟩ := child
    exact keeps (by decide) opens.symm (by rw [opens]; decide) (by rw [opens]; decide)
  | 1, child =>
    simp only [List.getElem?_cons_succ, List.getElem?_cons_zero, Option.some.injEq, Draft.token,
      Outline.leaf.injEq, Prod.mk.injEq] at child
    obtain ⟨rfl, rfl⟩ := child
    refine .inl ⟨.head isSpecial rfl rfl uHead, ?_⟩
    have noName : ∀ head ∈ Kind.heads, head.isSymbolToken = false := by decide
    exact (ne_of_isSymbolToken isSymbol (noName head isHead)).symm
  | i + 2, child =>
    simp only [List.getElem?_cons_succ] at child
    rcases after (k, t) (List.mem_of_getElem? child) with ⟨rfl, isParen⟩ | ⟨rfl, rfl, isKeyword, isAs⟩
    · exact keeps (by omega) isParen.symm (by rw [isParen]; decide) (by rw [isParen]; decide)
    · exact .inl ⟨.asMark rfl isKeyword isAs, by rw [isKeyword]; decide⟩

/-- The special forms that have another notation, without a head. -/
def Kind.shorthands : List Kind :=
  [.lookupForm, .quoteForm, .quasiquoteForm, .unquoteForm]

/-- A form with a head has another notation if it is a lookup or a quote. -/
theorem special_or_marked {head : Kind} (isHead : head ∈ Kind.heads)
    (follows : Recovery.production alone quiet (Grammar.specialNode head) ds) :
    Recovery.special quiet head ds ∨ (Grammar.specialNode head ∈ Kind.shorthands ∧
      (ds.map Draft.kind).head? ≠ some .leftParen ∧
      (∀ leaf, Outline.leaf leaf ∈ ds → leaf.1 = leaf.2.kind ∧ leaf.2.kind ≠ .keyword ∧
        (leaf.2.kind = .slash → Grammar.specialNode head = .lookupForm))) := by
  have quoted : ∀ {mark head : Kind}, Grammar.specialNode head ∈ Kind.shorthands →
      mark ≠ .leftParen → mark ≠ .keyword → mark ≠ .slash →
      Recovery.quote quiet mark head ds → Recovery.special quiet head ds ∨
        (Grammar.specialNode head ∈ Kind.shorthands ∧ (ds.map Draft.kind).head? ≠ some .leftParen ∧
          (∀ leaf, Outline.leaf leaf ∈ ds → leaf.1 = leaf.2.kind ∧ leaf.2.kind ≠ .keyword ∧
            (leaf.2.kind = .slash → Grammar.specialNode head = .lookupForm))) := by
    intro mark head shorthand noParen noKeyword noSlash quote
    rcases quote with marked | special
    · refine .inr ⟨shorthand, ?_, ?_⟩
      · obtain ⟨_, us, rfl, ⟨_, rfl, u, rfl, -⟩, -⟩ := marked
        simpa [Draft.kind, Draft.token] using noParen
      · have leaves : Leaves (fun leaf => leaf.1 = leaf.2.kind ∧ leaf.2.kind ≠ .keyword ∧
            (leaf.2.kind = .slash → Grammar.specialNode head = .lookupForm))
            ((Draft.tokenOf mark).followedBy (Recovery.expected quiet)) :=
          (Leaves.tokenOf fun u isMark => ⟨isMark.symm, by rw [isMark]; exact noKeyword,
            fun isSlash => absurd (isMark.symm.trans isSlash) noSlash⟩).followedBy Leaves.expected
        exact leaves ds marked
    · exact .inl special
  cases head
  case lookupHead =>
    rcases follows with infixed | special
    · refine .inr ⟨by decide, ?_, ?_⟩
      · obtain ⟨_, us, rfl, isAccount, -⟩ := infixed
        rcases isAccount with ⟨_, rfl, os, rfl, -⟩ | ⟨_, rfl, os, rfl, -⟩ <;> simp [Draft.kind]
      · have leaves : Leaves (fun leaf => leaf.1 = leaf.2.kind ∧ leaf.2.kind ≠ .keyword ∧
            (leaf.2.kind = .slash → Grammar.specialNode .lookupHead = .lookupForm))
            (Recovery.account.followedBy ((Draft.tokenOf .slash).followedBy Recovery.name)) :=
          Leaves.account.followedBy ((Leaves.tokenOf fun u isSlash =>
            ⟨isSlash.symm, by rw [isSlash]; decide, fun _ => rfl⟩).followedBy (Leaves.node .symbol))
        exact leaves ds infixed
    · exact .inl special
  case quoteHead | quasiquoteHead | unquoteHead => exact quoted (by decide) (by decide) (by decide) (by decide) follows
  all_goals first | exact .inl follows | exact absurd isHead (by decide)

theorem stands_of_special (isSpecial : kind ∈ Kind.heads.map Grammar.specialNode)
    (follows : Recovery.production alone quiet kind ds) (child : ds[i]? = some (Draft.token k t)) :
    Stands alone kind (ds.map Draft.kind) i t k := by
  obtain ⟨head, isHead, rfl⟩ := List.mem_map.mp isSpecial
  rcases special_or_marked isHead follows with special | ⟨-, noParen, leaves⟩
  · exact stands_special isHead special child
  · obtain ⟨own, noKeyword, isLookup⟩ := leaves (k, t) (List.mem_of_getElem? child)
    refine .inr ⟨own, ?_, fun isSlash => .inl ⟨isLookup isSlash, noParen⟩⟩
    intro l renamed
    cases renamed with
    | head _ opens => exact noParen opens
    | asMark _ isKeyword => exact noKeyword isKeyword
    | rest isList =>
      rw [isList] at isSpecial
      exact absurd isSpecial (by decide)
    | slash isName =>
      rw [isName] at isSpecial
      exact absurd isSpecial (by decide)

/-- How any token of a draft stands, whatever was reported. -/
theorem stands_of_production (isSymbol : alone.isSymbolToken = true)
    (follows : Recovery.production alone quiet kind ds) (child : ds[i]? = some (Draft.token k t)) :
    Stands alone kind (ds.map Draft.kind) i t k := by
  by_cases isName : kind = .symbol
  · subst isName
    exact stands_symbol isSymbol follows child
  by_cases isList : kind = .paramList
  · subst isList
    exact stands_paramList follows child
  by_cases isSpecial : kind ∈ Kind.heads.map Grammar.specialNode
  · exact stands_of_special isSpecial follows child
  · exact stands_plain isSpecial isList isName follows child

/-! ## Slashes in errors -/

section

open Grammar

/-- An error in which a slash stands is a form that is nested too deeply, and it is reported at its first
token. -/
theorem exists_report_of_slash {p q : Parser} (sourced : Sourced p q .error ds)
    (follows : Recovery.production alone quiet .error ds) (member : Draft.token .slash t ∈ ds) :
    ∃ k u rest context, ds = Draft.token k u :: rest ∧ ⟨.tooDeep, u.span, context⟩ ∈ q.reports := by
  obtain ⟨k, u, rest, rfl⟩ : ∃ k u rest, ds = Draft.token k u :: rest := by
    rcases follows with ⟨_, rfl, u, rfl, -⟩ | ⟨-, ⟨nonempty, plain⟩ | ⟨-, nodes⟩ | ⟨_, rfl, os, rfl⟩⟩
    · exact ⟨_, u, [], rfl⟩
    · obtain ⟨d, rest, rfl⟩ := List.exists_cons_of_ne_nil nonempty
      obtain ⟨u, rfl⟩ := plain d (by simp)
      exact ⟨_, u, rest, rfl⟩
    · obtain ⟨kind, os, eq, -⟩ := nodes _ member
      contradiction
    · cases List.mem_singleton.mp member
  obtain ⟨state, made, ready, -, makes, -, upTo, origin⟩ := sourced
  have current : state.current = u := by
    have ahead := makes.runs.rest
    simp only [Draft.tokensAll_cons, Draft.tokens_node, Draft.tokens_token, List.cons_append,
      List.nil_append] at ahead
    exact Parser.current_of_rest ahead
  refine ⟨k, u, rest, state.context, rfl, ?_⟩
  cases origin with
  | form _ _ _ noSlash => exact absurd member (noSlash rfl t)
  | stray _ closes =>
    have same := List.mem_singleton.mp member
    simp only [Draft.token, Outline.leaf.injEq, Prod.mk.injEq] at same
    rw [← same.1] at closes
    contradiction
  | givenUp nodes =>
    obtain ⟨kind, os, eq⟩ := nodes _ member
    contradiction
  | tooDeep going =>
    rw [← current]
    exact upTo.reports.subset (mem_reports_tooDeep ready)

end

/-! ## Results -/

/-- The leaf has the place, the lexeme and the trivia of the token. -/
def LeafView.Shows (v : LeafView) (t : Token) : Prop :=
  v.trimmedSpan = t.span ∧ v.leaf.trimmed = .ok t.text ∧ v.leaf.leading = t.leading ∧
    v.leaf.trailing = t.trailing

/-- The view begins with a parenthesis, and the token after it is the head of the form: its text is that of a head, and
its leaf has the kind of that head, which is not its own. -/
def View.Headed (v : View) (tokens : List Token) : Prop :=
  (v.children.map View.kind).head? = some .leftParen ∧
    ∃ l t, v.children[1]?.bind View.leaf? = some l ∧ t ∈ tokens ∧ l.Shows t ∧ l.kind ≠ t.kind ∧
      Kind.ofHead? t.text = some l.kind ∧ Grammar.specialNode l.kind = v.kind

/-- The view is of an error that was reported, at its first token, to be nested too deeply. -/
def View.TooDeep (v : View) (diagnostics : List Diagnostic) : Prop :=
  v.kind = .error ∧ ∃ first d, v.firstLeaf? = some first ∧ d ∈ diagnostics ∧ d.kind = .structural ∧
    d.message = StructuralProblem.tooDeep.message ∧ d.span = first.trimmedSpan

theorem Token.LiesIn.shows {text : Text} {t : Token} (lies : t.LiesIn text) (kind : Kind) :
    (Draft.leafView text (kind, t)).Shows t := by
  refine ⟨lies.trimmedSpan_leaf kind, lies.trimmed_leaf kind, ?_, ?_⟩
  · simp only [Draft.leafView, lies.leaf_eq]
  · simp only [Draft.leafView, lies.leaf_eq]

/-- Tokens in their places are told apart by their spans. -/
theorem Token.Placed.eq_of_span_eq {ts : List Token} {t u : Token} (placed : Token.Placed ts)
    (first : t ∈ ts) (second : u ∈ ts) (same : t.span = u.span) : t = u := by
  obtain ⟨i, found⟩ := List.mem_iff_getElem?.mp first
  obtain ⟨j, found'⟩ := List.mem_iff_getElem?.mp second
  have apart : ∀ {i j : Nat} {t u : Token}, ts[i]? = some t → ts[j]? = some u → t.span = u.span →
      ¬ i < j := by
    intro i j t u found found' same before
    obtain ⟨nonempty, inOrder⟩ := placed.stop_le_start before found found'
    have size := placed.size t (List.mem_of_getElem? found)
    have positive : Text.size t.text ≠ 0 := fun zero => nonempty (Text.size_eq_zero.mp zero)
    rw [← same] at inOrder
    omega
  have sameIndex : i = j := by
    have left := apart found found' same
    have right := apart found' found same.symm
    omega
  subst sameIndex
  exact Option.some.inj (found.symm.trans found')

theorem Draft.map_kind_trees (text : Text) (start : Nat) (ds : List Draft) :
    (View.placeAll start (Draft.trees text ds)).map View.kind = ds.map Draft.kind := by
  induction ds generalizing start with
  | nil => rfl
  | cons d ds inductionHypothesis =>
    rw [Draft.trees_cons, View.placeAll, List.map_cons, List.map_cons, inductionHypothesis]
    congr 1
    cases d with
    | node kind children => rfl
    | leaf leaf => exact Token.kind_leaf text leaf.1 leaf.2

/-- The draft of a text stands in it from the start to the end. -/
theorem Drafted.placed {text : Text} {r : Registry} {start : Parser} {d : Draft}
    (drafted : Drafted text r start d) : Draft.Placed text 0 [d] (Text.size text) := by
  have tokens : Draft.tokensAll [d] = (Token.tokenize text r).1 := by
    rw [Draft.tokensAll_cons, Draft.tokensAll_nil, List.append_nil, drafted.tokens]
  refine ⟨fun t member => drafted.lies t ?_, ?_⟩
  · rw [drafted.tokens, ← tokens]
    exact member
  · rw [tokens]
    exact (Token.laidOut_tokensFrom r 0 text [] rfl).1

namespace Drafted

variable {text : Text} {r : Registry} {start : Parser} {d : Draft}

theorem forall₂_shows (drafted : Drafted text r start d) :
    List.Forall₂ LeafView.Shows (View.root (d.tree text)).descendantLeaves
      (Token.tokenize text r).1 := by
  have leaves : (View.root (d.tree text)).descendantLeaves = d.leaves.map (Draft.leafView text) :=
    (View.descendantLeaves_eq _).trans (Draft.leavesAt_tree d drafted.placed)
  rw [leaves, ← drafted.tokens, Draft.tokens, List.forall₂_map_left_iff, List.forall₂_map_right_iff,
    List.forall₂_same]
  intro leaf member
  exact (drafted.lies leaf.2 (List.mem_map_of_mem member)).shows leaf.1

/-- A leaf shows the token that it is the leaf of, and no other. -/
theorem eq_of_shows (drafted : Drafted text r start d) {n : Kind × List Draft} {u : Token}
    (found : n ∈ d.nodes) (here : Draft.token k u ∈ n.2) (token : t ∈ (Token.tokenize text r).1)
    (shows : (Draft.leafView text (k, u)).Shows t) : u = t := by
  have leaf : (k, u) ∈ d.leaves := (Outline.mem_leaves_iff d).mpr (.inr ⟨n, found, here⟩)
  have inTokens : u ∈ d.tokens := List.mem_map_of_mem leaf
  have lies := drafted.lies u inTokens
  rw [drafted.tokens] at inTokens
  exact (Token.placed_tokensFrom r 0 text).1.eq_of_span_eq inTokens token
    ((lies.trimmedSpan_leaf k).symm.trans shows.1)

/-- A special form that is written with a head has it behind the parenthesis, under the kind of the head. -/
theorem headed_of_special (drafted : Drafted text r start d) (found : (kind, ds) ∈ d.nodes) {offset stop : Nat}
    (placed : Draft.Placed text offset ds stop) {head : Kind} (isHead : head ∈ Kind.heads)
    (special : Recovery.special quiet head ds) (kindEq : Grammar.specialNode head = kind) :
    (View.mk (.node kind (Draft.trees text ds)) offset).Headed (Token.tokenize text r).1 := by
  obtain ⟨a, t, tail, rfl, -, isSymbol, textEq, -⟩ := Leaves.exists_head special
  have leaf : (head, t) ∈ d.leaves := (Outline.mem_leaves_iff d).mpr (.inr ⟨_, found, by simp [Draft.token]⟩)
  have token : t ∈ d.tokens := List.mem_map_of_mem leaf
  have leafKind : (Draft.leafView text (head, t)).kind = head := Token.kind_leaf text head t
  have noName : ∀ head ∈ Kind.heads, head.isSymbolToken = false := by decide
  refine ⟨?_, Draft.leafView text (head, t), t, Draft.child_of_token placed rfl, ?_,
    (drafted.lies t token).shows head, ?_, ?_, ?_⟩
  · exact congrArg List.head? (Draft.map_kind_trees text offset _)
  · rw [← drafted.tokens]
    exact token
  · rw [leafKind]
    exact (ne_of_isSymbolToken isSymbol (noName head isHead)).symm
  · rw [leafKind, textEq]
  · rw [leafKind]
    exact kindEq

/-- A special form has its head behind the parenthesis, unless it is a quote or a lookup that is written without one. -/
theorem marked_or_headed (drafted : Drafted text r start d)
    (table : Grammar.FollowsTable start (Grammar.source start) d) (found : (kind, ds) ∈ d.nodes) {offset stop : Nat}
    (placed : Draft.Placed text offset ds stop) (isSpecial : kind ∈ Kind.heads.map Grammar.specialNode) :
    (kind ∈ Kind.shorthands ∧
        ((View.placeAll offset (Draft.trees text ds)).map View.kind).head? ≠ some .leftParen) ∨
      (View.mk (.node kind (Draft.trees text ds)) offset).Headed (Token.tokenize text r).1 := by
  obtain ⟨head, isHead, kindEq⟩ := List.mem_map.mp isSpecial
  subst kindEq
  rcases special_or_marked isHead (table False False.elim _ found) with special | ⟨shorthand, noParen, -⟩
  · exact .inr (drafted.headed_of_special found placed isHead special rfl)
  · refine .inl ⟨shorthand, ?_⟩
    rwa [Draft.map_kind_trees]

theorem tooDeep_of_slash (table : Grammar.FollowsTable start (Grammar.source start) d)
    (traced : Grammar.Traced start.begun (Grammar.source start) [d]) {offset stop : Nat}
    (found : (.error, ds) ∈ d.nodes) (placed : Draft.Placed text offset ds stop)
    (member : Draft.token .slash t ∈ ds) :
    (View.mk (.node .error (Draft.trees text ds)) offset).TooDeep (diagnostics text r start) := by
  obtain ⟨k, first, rest, context, rfl, reported⟩ := exists_report_of_slash
    (traced (.error, ds) (by simpa using found) rfl) (table False False.elim (.error, ds) found) member
  obtain ⟨middle, atFirst, -⟩ := Draft.placed_cons.mp placed
  refine ⟨rfl, _, Report.diagnostic ⟨.tooDeep, first.span, context⟩, Draft.firstLeaf?_trees placed, ?_,
    rfl, rfl, ((atFirst.token k).1.trimmedSpan_leaf k).symm⟩
  exact Diagnostic.mem_sortByStart.mpr (List.mem_append_right _ (List.mem_map_of_mem reported))

end Drafted

/-- The leaves of a tree are the tokens of its text, in order, each with the place, the lexeme and the trivia of
its token. A leaf has another kind than its token just where `Renamed` says so, and then that kind; a slash that keeps
its kind is that of a lookup or stands in a form that is nested too deeply. Each special form that is not a lookup or a
quote without a head has its head behind the parenthesis, under the kind of the head. -/
theorem leaves_correspond_to_tokens (text : Text) (r : Registry) :
    (Text.size text < sizeLimit → LogFits text r → ∃ result, parse text r = .ok result) ∧
    ∀ result, parse text r = .ok result →
      List.Forall₂ LeafView.Shows result.root.descendantLeaves (Token.tokenize text r).1 ∧
      (∀ v ∈ result.root.descendants, v.kind ∈ Kind.heads.map Grammar.specialNode →
        (v.kind ∈ Kind.shorthands ∧ (v.children.map View.kind).head? ≠ some .leftParen) ∨
          v.Headed (Token.tokenize text r).1) ∧
      ∀ v ∈ result.root.descendants, ∀ i l t, v.children[i]?.bind View.leaf? = some l →
        t ∈ (Token.tokenize text r).1 → l.Shows t →
        (l.kind ≠ t.kind ↔
          ∃ k, Renamed (Scan.symbolKind r ['/']) v.kind (v.children.map View.kind) i t k) ∧
        (∀ k, Renamed (Scan.symbolKind r ['/']) v.kind (v.children.map View.kind) i t k → l.kind = k) ∧
        (l.kind = .slash → t.kind = .slash →
          (v.kind = .lookupForm ∧ (v.children.map View.kind).head? ≠ some .leftParen) ∨
            v.TooDeep result.diagnostics) := by
  refine ⟨exists_parse, fun result parsed => ?_⟩
  obtain ⟨start, d, drafted, -, follows, traced⟩ := exists_origins parsed
  obtain rfl := drafted.eq_of_parse_eq_ok parsed
  refine ⟨drafted.forall₂_shows, ?_, ?_⟩
  · rintro ⟨tree, offset⟩ member isSpecial
    obtain ⟨⟨kind, ds⟩, found, rfl, stop, placed⟩ :=
      Draft.exists_node_of_walk d drafted.placed _ (View.mem_descendants.mp member)
    exact drafted.marked_or_headed follows found placed isSpecial
  rintro ⟨tree, offset⟩ member i l t child token shows
  obtain ⟨⟨kind, ds⟩, found, rfl, stop, placed⟩ :=
    Draft.exists_node_of_walk d drafted.placed _ (View.mem_descendants.mp member)
  obtain ⟨k, u, here, rfl, -⟩ := Draft.exists_token_of_child placed child
  obtain rfl := drafted.eq_of_shows found (List.mem_of_getElem? here) token shows
  have kindEq : (Draft.leafView text (k, u)).kind = k := Token.kind_leaf text k u
  have kinds : (View.mk (.node kind (Draft.trees text ds)) offset).children.map View.kind =
      ds.map Draft.kind := Draft.map_kind_trees text offset ds
  have table := follows False False.elim (kind, ds) found
  rw [drafted.slash] at table
  rw [kindEq, kinds]
  rcases stands_of_production (Scan.isSymbolToken_symbolKind r ['/']) table here with
    ⟨renamed, differs⟩ | ⟨own, noRename, slashes⟩
  · refine ⟨⟨fun _ => ⟨k, renamed⟩, fun _ => differs⟩, fun l other => renamed.unique other, ?_⟩
    intro isSlash isSlash'
    exact absurd (isSlash.trans isSlash'.symm) differs
  · refine ⟨⟨fun differs => absurd own differs, fun ⟨l, renamed⟩ => absurd renamed (noRename l)⟩,
      fun l renamed => absurd renamed (noRename l), ?_⟩
    intro isSlash isSlash'
    rcases slashes isSlash' with lookup | isError
    · exact .inl lookup
    · dsimp only at isError
      subst isError isSlash
      exact .inr (Drafted.tooDeep_of_slash follows traced found placed (List.mem_of_getElem? here))

/-- An import with an alias. -/
def aliasSample : Text :=
  "(import a.b :as c)".toList

/-- The head and the alias mark of the sample are leaves of other kinds than their tokens. -/
theorem leaves_correspond_to_tokens_sample :
    ∃ result v l t, parse aliasSample .empty = .ok result ∧ v ∈ result.root.descendants ∧
      v.kind = .importForm ∧ v.Headed (Token.tokenize aliasSample .empty).1 ∧ v.children[3]?.bind View.leaf? = some l ∧
      t ∈ (Token.tokenize aliasSample .empty).1 ∧ l.Shows t ∧ l.kind = .asMark ∧
      (l.kind ≠ t.kind ↔ ∃ k,
        Renamed (Scan.symbolKind .empty ['/']) v.kind (v.children.map View.kind) 3 t k) := by
  have checked : (parse aliasSample .empty).toOption.any (fun result =>
      result.root.descendants[1]?.any fun v => v.kind == .importForm &&
        (v.children[3]?.bind View.leaf?).any fun l =>
          l.kind == .asMark && decide (l ∈ result.root.descendantLeaves)) = true := by
    decide +kernel
  obtain ⟨result, parsed, checked⟩ := exists_parse_of_any checked
  simp only [Option.any_eq_true, Bool.and_eq_true, beq_iff_eq, decide_eq_true_eq] at checked
  obtain ⟨v, second, isImport, l, fourth, isMark, inLeaves⟩ := checked
  obtain ⟨leaves, heads, kinds⟩ := (leaves_correspond_to_tokens aliasSample .empty).2 result parsed
  obtain ⟨t, token, shows⟩ : ∃ t ∈ (Token.tokenize aliasSample .empty).1, l.Shows t := by
    obtain ⟨i, below, rfl⟩ := List.mem_iff_getElem.mp inLeaves
    have below' : i < (Token.tokenize aliasSample .empty).1.length := by
      rw [← leaves.length_eq]
      exact below
    exact ⟨_, List.getElem_mem below', leaves.get below below'⟩
  have member := List.mem_of_getElem? second
  have headed := (heads v member (by rw [isImport]; decide)).resolve_left
    fun shorthand => absurd shorthand.1 (by rw [isImport]; decide)
  exact ⟨result, v, l, t, parsed, member, isImport, headed, fourth, token, shows, isMark,
    (kinds v member 3 l t fourth token shows).1⟩

end LispSyntax
