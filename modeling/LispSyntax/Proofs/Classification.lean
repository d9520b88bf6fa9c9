import LispSyntax.Proofs.Faults
import LispSyntax.Proofs.Leaves
import LispSyntax.Proofs.Likeness.Form

/-! # The registry only classifies

A registry decides which of three kinds a symbol has, and nothing else. `declassified` forgets that decision.
With any two registries a text has the same tokens up to it (`tokenize_declassified`), the parser sees two
sources that are alike, and the two results of `parse` are the same up to it (`registry_only_classifies`).
What a registry does decide is read off the lexeme, for the slash that stands alone too: every leaf with one
of the three kinds has the one that the registry gives to its text.
-/

namespace LispSyntax

/-- The kind with the classes of symbols forgotten. -/
def Kind.declassified (k : Kind) : Kind :=
  if k.isSymbolToken then .name else k

theorem Kind.declassified_of_isSymbolToken {k : Kind} (isSymbol : k.isSymbolToken = true) :
    k.declassified = .name :=
  if_pos isSymbol

theorem Kind.eq_or_symbols {k l : Kind} (same : k.declassified = l.declassified) :
    k = l ∨ (k.isSymbolToken = true ∧ l.isSymbolToken = true) := by
  unfold declassified at same
  cases isSymbol : k.isSymbolToken <;> cases isSymbol' : l.isSymbolToken <;>
    simp only [isSymbol, isSymbol', Bool.false_eq_true, if_false, if_true] at same
  · exact .inl same
  · rw [same] at isSymbol
    contradiction
  · rw [← same] at isSymbol'
    contradiction
  · exact .inr ⟨rfl, rfl⟩

def Token.declassified (t : Token) : Token :=
  { t with kind := t.kind.declassified }

/-- Only the kinds of two tokens differ, and only by the class of a symbol. -/
theorem Token.declassified_eq_iff {t u : Token} : t.declassified = u.declassified ↔
    t.leading = u.leading ∧ t.kind.declassified = u.kind.declassified ∧ t.text = u.text ∧
      t.span = u.span ∧ t.trailing = u.trailing := by
  simp only [declassified, Token.mk.injEq]

def Leaf.declassified (l : Leaf) : Leaf :=
  { l with kind := l.kind.declassified }

mutual

def Tree.declassified : Tree → Tree
  | .node kind children => .node kind (Forest.declassified children)
  | .leaf l => .leaf l.declassified

def Forest.declassified : List Tree → List Tree
  | [] => []
  | t :: ts => t.declassified :: Forest.declassified ts

end

def Parse.declassified (p : Parse) : Parse :=
  { p with tree := p.tree.declassified }

/-! ## Scanning -/

namespace Scan

/-- A kind that no registry gives: neither a symbol nor the slash, which is a symbol when it stands alone. -/
def isClassless (k : Kind) : Bool :=
  !k.isSymbolToken && k != .slash

theorem kind_named (kind : Kind) (text name : Text) : (Lexeme.named kind text name).kind = kind := by
  unfold Lexeme.named
  split <;> rfl

theorem isClassless_endNumber (fraction : Bool) (text rest : Text) :
    isClassless (endNumber fraction text rest).lexeme.kind = true := by
  unfold endNumber
  split
  · rfl
  · cases fraction <;> rfl

theorem isClassless_number (first : Char) (cs : Text) :
    isClassless (number first cs).lexeme.kind = true := by
  simp only [number]
  split
  · exact isClassless_endNumber ..
  · split
    · split
      · exact isClassless_endNumber ..
      · rfl
    · exact isClassless_endNumber ..

theorem isClassless_digit (first : Char) (cs : Text) :
    isClassless (digit first cs).lexeme.kind = true := by
  unfold digit
  split
  · simp only [bytes]
    split
    · rfl
    · split <;> rfl
  · exact isClassless_number first cs

theorem isClassless_hash (cs : Text) : isClassless (hash cs).lexeme.kind = true := by
  unfold hash
  split
  · rfl
  · split <;> rfl
  · split <;> rfl

theorem isClassless_keyword (cs : Text) : isClassless (keyword cs).lexeme.kind = true := by
  unfold keyword
  split
  · rfl
  · simp only [kind_named]
    rfl

theorem isClassless_character (cs : Text) : isClassless (character cs).lexeme.kind = true := by
  unfold character
  split
  · rfl
  · split
    · rfl
    · split
      · rfl
      · split <;> rfl

/-- The registry has no say in a lexeme, or the lexeme is a name and the registry gives its kind. -/
theorem scan_cases (first : Char) (cs : Text) :
    (∃ l rest, (∀ r, scan r first cs = ⟨l, rest⟩) ∧
      (isClassless l.kind = true ∨ l.kind = .slash ∧ l.text = ['/'])) ∨
    ∃ name rest, ∀ r, scan r first cs = ⟨.named (symbolKind r name) name name, rest⟩ := by
  unfold scan
  split
  · rename_i kind isMark
    refine .inl ⟨_, _, fun r => rfl, ?_⟩
    unfold mark? at isMark
    split at isMark <;> cases isMark <;> first | exact .inl rfl | exact .inr ⟨rfl, rfl⟩
  split
  · exact .inl ⟨_, _, fun r => rfl, .inl rfl⟩
  split
  · exact .inl ⟨_, _, fun r => rfl, .inl (isClassless_character cs)⟩
  split
  · exact .inl ⟨_, _, fun r => rfl, .inl (isClassless_hash cs)⟩
  split
  · exact .inl ⟨_, _, fun r => rfl, .inl (isClassless_keyword cs)⟩
  split
  · exact .inl ⟨_, _, fun r => rfl, .inl (isClassless_digit first cs)⟩
  split
  · exact .inl ⟨_, _, fun r => rfl, .inl (isClassless_number first cs)⟩
  split
  · unfold symbol symbolLexeme
    iterate 4
      split
      · exact .inl ⟨_, _, fun r => rfl, .inl rfl⟩
    exact .inr ⟨_, _, fun r => rfl⟩
  · exact .inl ⟨_, _, fun r => rfl, .inl rfl⟩

end Scan

/-! ## Tokens -/

namespace Token

theorem problems_named (k l : Kind) (text name : Text) :
    (Lexeme.named k text name).problems = (Lexeme.named l text name).problems := by
  unfold Lexeme.named
  split <;> rfl

theorem lexemeOf_declassified (r s : Registry) (text : Text) :
    (lexemeOf r text).lexeme.text = (lexemeOf s text).lexeme.text ∧
      (lexemeOf r text).lexeme.kind.declassified = (lexemeOf s text).lexeme.kind.declassified ∧
      (lexemeOf r text).lexeme.problems = (lexemeOf s text).lexeme.problems ∧
      (lexemeOf r text).rest = (lexemeOf s text).rest := by
  cases text with
  | nil => exact ⟨rfl, rfl, rfl, rfl⟩
  | cons c cs =>
    simp only [lexemeOf]
    rcases Scan.scan_cases c cs with ⟨l, rest, same, -⟩ | ⟨name, rest, same⟩
    · rw [same r, same s]
      exact ⟨rfl, rfl, rfl, rfl⟩
    · rw [same r, same s]
      refine ⟨by simp, ?_, problems_named _ _ name name, rfl⟩
      simp only [Scan.kind_named]
      rw [Kind.declassified_of_isSymbolToken (Scan.isSymbolToken_symbolKind r name),
        Kind.declassified_of_isSymbolToken (Scan.isSymbolToken_symbolKind s name)]

theorem read_declassified (r s : Registry) (offset : Nat) (text : Text) :
    (read r offset text).token.declassified = (read s offset text).token.declassified ∧
      (read r offset text).diagnostics = (read s offset text).diagnostics ∧
      (read r offset text).offset = (read s offset text).offset ∧
      (read r offset text).rest = (read s offset text).rest := by
  obtain ⟨textEq, kindEq, problemsEq, restEq⟩ := lexemeOf_declassified r s (Trivia.skip .leading text)
  simp only [read, declassified, diagnosticsAt, textEq, kindEq, problemsEq, restEq, and_self]

theorem kind_eq_eof_iff {t u : Token} (same : t.declassified = u.declassified) :
    t.kind = .eof ↔ u.kind = .eof := by
  have kinds := (declassified_eq_iff.mp same).2.1
  rcases Kind.eq_or_symbols kinds with eq | ⟨isSymbol, isSymbol'⟩
  · rw [eq]
  · constructor <;> intro atEnd
    · rw [atEnd] at isSymbol
      contradiction
    · rw [atEnd] at isSymbol'
      contradiction

theorem tokensFrom_declassified (r s : Registry) (offset : Nat) (text : Text) :
    (tokensFrom r offset text).1.map declassified = (tokensFrom s offset text).1.map declassified ∧
      (tokensFrom r offset text).2 = (tokensFrom s offset text).2 := by
  fun_induction tokensFrom r offset text with
  | case1 offset text reading isEnd =>
    obtain ⟨same, diagnostics, -, -⟩ := read_declassified r s offset text
    rw [tokensFrom, if_pos ((kind_eq_eof_iff same).mp isEnd)]
    exact ⟨by simpa using same, diagnostics⟩
  | case2 offset text reading notEnd next inductionHypothesis =>
    obtain ⟨same, diagnostics, offsetEq, restEq⟩ := read_declassified r s offset text
    have notEnd' := mt (kind_eq_eof_iff same).mpr notEnd
    rw [tokensFrom.eq_def s, if_neg notEnd', ← offsetEq, ← restEq, ← diagnostics]
    simp only [List.map_cons, same, next, reading, inductionHypothesis, and_self]

/-- With any two registries a text has the same tokens up to the classes of symbols, and the same problems
with them. -/
theorem tokenize_declassified (text : Text) (r s : Registry) :
    (tokenize text r).1.map declassified = (tokenize text s).1.map declassified ∧
      (tokenize text r).2 = (tokenize text s).2 :=
  tokensFrom_declassified r s 0 text

/-- A token with one of the three kinds has the one that the registry gives to its text, and a slash is
written as one. -/
def Classified (r : Registry) (t : Token) : Prop :=
  (t.kind.isSymbolToken = true → t.kind = Scan.symbolKind r t.text) ∧ (t.kind = .slash → t.text = ['/'])

theorem classified_read (r : Registry) (offset : Nat) (text : Text) :
    (read r offset text).token.Classified r := by
  simp only [read, Classified]
  cases Trivia.skip .leading text with
  | nil => exact ⟨fun isSymbol => Bool.noConfusion isSymbol, fun isSlash => Kind.noConfusion isSlash⟩
  | cons c cs =>
    simp only [lexemeOf]
    rcases Scan.scan_cases c cs with ⟨l, rest, same, kind⟩ | ⟨name, rest, same⟩
    · rw [same r]
      rcases kind with classless | ⟨isSlash, textEq⟩
      · simp only [Scan.isClassless, Bool.and_eq_true, Bool.not_eq_true', bne_iff_ne] at classless
        exact ⟨fun isSymbol => by simp [classless.1] at isSymbol, fun isSlash => absurd isSlash classless.2⟩
      · rw [isSlash]
        exact ⟨fun isSymbol => Bool.noConfusion isSymbol, fun _ => textEq⟩
    · rw [same r]
      simp only [Scan.kind_named, Scan.text_named, implies_true, true_and]
      intro isSlash
      have isSymbol := Scan.isSymbolToken_symbolKind r name
      rw [isSlash] at isSymbol
      contradiction

theorem classified_tokensFrom (r : Registry) (offset : Nat) (text : Text) :
    ∀ t ∈ (tokensFrom r offset text).1, t.Classified r := by
  fun_induction tokensFrom r offset text with
  | case1 offset text reading isEnd =>
    rw [List.forall_mem_singleton]
    exact classified_read r offset text
  | case2 offset text reading notEnd next inductionHypothesis =>
    exact List.forall_mem_cons.mpr ⟨classified_read r offset text, inductionHypothesis⟩

end Token

/-! ## Trees -/

def Likeness.upToRegistry : Likeness (Kind × Token) where
  kinds k l := k.declassified = l.declassified
  tokens t u := t.declassified = u.declassified
  spans a b := a = b
  view leaf := (leaf.1.declassified, leaf.2.declassified)
  kinds_refl _ := rfl
  eq_or_symbols := Kind.eq_or_symbols
  kind_of_tokens same := (Token.declassified_eq_iff.mp same).2.1
  text_of_tokens same := (Token.declassified_eq_iff.mp same).2.2.1
  span_of_tokens same := (Token.declassified_eq_iff.mp same).2.2.2.1
  cover first second := by rw [first, second]
  view_eq kinds tokens := by rw [kinds, tokens]

theorem Token.declassified_leaf (text : Text) (kind : Kind) (t : Token) :
    (t.leaf text kind).declassified = t.declassified.leaf text kind.declassified := by
  by_cases fits : Trivia.size t.leading + Trivia.size t.trailing ≤ Text.size (t.cover text)
  · have left : t.leaf text kind = ⟨t.leading, kind, t.cover text, t.trailing, fits⟩ := dif_pos fits
    have right : t.declassified.leaf text kind.declassified =
        ⟨t.leading, kind.declassified, t.cover text, t.trailing, fits⟩ := dif_pos fits
    rw [left, right]
    rfl
  · have left : t.leaf text kind = ⟨[], kind, [], [], nothing_fits⟩ := dif_neg fits
    have right : t.declassified.leaf text kind.declassified =
        ⟨[], kind.declassified, [], [], nothing_fits⟩ := dif_neg fits
    rw [left, right]
    rfl

mutual

theorem Draft.declassified_tree (text : Text) : (d : Draft) →
    (d.tree text).declassified = Draft.tree text (d.map Likeness.upToRegistry.view)
  | .node kind children => by
    rw [Draft.tree, Tree.declassified, Draft.declassified_trees text children, Outline.map, Draft.tree]
  | .leaf (kind, t) => by
    rw [Draft.tree, Tree.declassified, Token.declassified_leaf]
    rfl

theorem Draft.declassified_trees (text : Text) : (ds : List Draft) →
    Forest.declassified (Draft.trees text ds) =
      Draft.trees text (Outline.mapAll Likeness.upToRegistry.view ds)
  | [] => rfl
  | d :: ds => by
    rw [Draft.trees, Forest.declassified, Outline.mapAll, Draft.trees, Draft.declassified_tree text d,
      Draft.declassified_trees text ds]

end

theorem agreeAtSlashes_of_declassified {ts us : List Token}
    (same : ts.map Token.declassified = us.map Token.declassified) : Token.AgreeAtSlashes ts us := by
  have fields : ∀ {i : Nat} {t u : Token}, ts[i]? = some t → us[i]? = some u →
      t.declassified = u.declassified := by
    intro i t u found found'
    have at_i := congrArg (·[i]?) same
    simpa [found, found'] using at_i
  intro i t t' u u' first second first' second' _
  have before : t.trailing = u.trailing := (Token.declassified_eq_iff.mp (fields first first')).2.2.2.2
  have after : t'.leading = u'.leading := (Token.declassified_eq_iff.mp (fields second second')).1
  rw [Token.joined, Token.joined, before, after]

/-! ## Leaves -/

/-- Whether the kind that a token is taken under is its own, a head, or that of a slash that stands alone. -/
def Draft.Labelled (alone : Kind) (leaf : Kind × Token) : Prop :=
  leaf.1 = leaf.2.kind ∨ leaf.1.isHead = true ∨ (leaf.1 = alone ∧ leaf.2.kind = .slash)

namespace Labels

open Leaves

variable {alone : Kind} {quiet : Prop}

theorem own (t : Token) : Draft.Labelled alone (t.kind, t) :=
  .inl rfl

theorem ownKind {kind : Kind} (t : Token) (isKind : t.kind = kind) : Draft.Labelled alone (kind, t) :=
  .inl isKind.symm

theorem delimited {a : Pattern (Kind × Token)} (opener closer : Kind)
    (inside : Leaves (Draft.Labelled alone) a) :
    Leaves (Draft.Labelled alone) (Recovery.delimited quiet opener closer a) :=
  Leaves.delimited ownKind ownKind inside

theorem special {kind : Kind} (isHead : kind.isHead = true) :
    Leaves (Draft.Labelled alone) (Recovery.special quiet kind) :=
  delimited .leftParen .rightParen ((taken fun _ _ => .inr (.inl isHead)).followedBy
    ((specialBody fun _ _ _ => .inr (.inl rfl)).followedBy (optional gaveUp)))

theorem quote (mark : Kind) {kind : Kind} (isHead : kind.isHead = true) :
    Leaves (Draft.Labelled alone) (Recovery.quote quiet mark kind) :=
  ((tokenOf ownKind).followedBy expected).orElse (special isHead)

/-- The parser takes a token under its own kind, unless it is a head or a slash that stands alone. -/
theorem production (kind : Kind) :
    Leaves (Draft.Labelled alone) (Recovery.production alone quiet kind) := by
  cases kind with
  | source => exact forms.followedBy (tokenOf ownKind)
  | literal => exact tokenIn fun t _ => own t
  | symbol => exact (tokenIn fun t _ => own t).orElse (taken fun t isSlash => .inr (.inr ⟨rfl, isSlash⟩))
  | listForm => exact delimited .leftParen .rightParen forms
  | vectorForm => exact delimited .leftBracket .rightBracket forms
  | setForm => exact delimited .hashLeftBrace .rightBrace forms
  | mapForm => exact delimited .leftBrace .rightBrace (forms.imp fun _ good => good.1)
  | metadata =>
    exact (tokenOf ownKind).followedBy
      ((single (isNode_of_hasKind .mapForm)).orElse (provided (optional form)))
  | lookupForm => exact (account.followedBy ((tokenOf ownKind).followedBy (node .symbol))).orElse (special rfl)
  | importForm | defForm | defnForm | defmacroForm | fnForm | macroForm => exact special rfl
  | condForm | letForm | loopForm | ifLetForm | whenLetForm | dotimesForm => exact special rfl
  | arity => exact arityParts.orElse (delimited .leftParen .rightParen (arityParts.orElse gaveUp))
  | paramList => exact delimited .leftBracket .rightBracket (parameters fun _ _ => .inr (.inl rfl))
  | fixedParam | optionalParam => exact tokenIn fun t _ => own t
  | condClause => exact form.followedBy (optional form)
  | condFallback => exact form
  | bindings => exact delimited .leftBracket .rightBracket bindingList
  | binding => exact (node .symbol).followedBy expected
  | quoteForm => exact quote .quoteMark rfl
  | quasiquoteForm => exact quote .backtick rfl
  | unquoteForm => exact quote .tilde rfl
  | error => exact errorParts own
  | _ => exact fun _ impossible => impossible.elim

end Labels

/-! ## Results -/

/-- With any two registries the tokens of a text are read alike. -/
theorem exists_twin_drafts_of_registries (text : Text) (r s : Registry) :
    ∃ start start' d e, Drafted text r start d ∧ Drafted text s start' e ∧
      d.map Likeness.upToRegistry.view = e.map Likeness.upToRegistry.view ∧
      List.Forall₂ Likeness.upToRegistry.reports (Grammar.source start).reports (Grammar.source start').reports ∧
      (LogFits text s → LogFits text r) := by
  have same := (Token.tokenize_declassified text r s).1
  have tokens : List.Forall₂ Likeness.upToRegistry.tokens (Token.tokenize text r).1
      (Token.tokenize text s).1 := by
    have inits := same
    rw [← List.forall₂_eq_eq_eq, List.forall₂_map_left_iff, List.forall₂_map_right_iff] at inits
    exact inits
  have slash : Likeness.upToRegistry.kinds (Scan.symbolKind r ['/']) (Scan.symbolKind s ['/']) :=
    (Kind.declassified_of_isSymbolToken (Scan.isSymbolToken_symbolKind r ['/'])).trans
      (Kind.declassified_of_isSymbolToken (Scan.isSymbolToken_symbolKind s ['/'])).symm
  exact exists_twin_drafts tokens (agreeAtSlashes_of_declassified same) slash

theorem logFits_iff_of_registries (text : Text) (r s : Registry) : LogFits text r ↔ LogFits text s := by
  obtain ⟨_, _, _, _, -, -, -, -, backward⟩ := exists_twin_drafts_of_registries text r s
  obtain ⟨_, _, _, _, -, -, -, -, forward⟩ := exists_twin_drafts_of_registries text s r
  exact ⟨forward, backward⟩

theorem parsed_iff_of_registries (text : Text) (r s : Registry) :
    (∃ result, parse text r = .ok result) ↔ ∃ result, parse text s = .ok result := by
  rw [parse_eq_ok_iff, parse_eq_ok_iff, logFits_iff_of_registries text r s]

/-- Two results for one text differ by the classes of symbols only. -/
theorem parse_declassified_eq {text : Text} {r s : Registry} {a b : Parse}
    (parsed : parse text r = .ok a) (parsed' : parse text s = .ok b) :
    a.declassified = b.declassified := by
  obtain ⟨start, start', d, e, drafted, drafted', view, reports, -⟩ := exists_twin_drafts_of_registries text r s
  have lexical := (Token.tokenize_declassified text r s).2
  have sameReports : (Grammar.source start).reports = (Grammar.source start').reports := by
    rw [← List.forall₂_eq_eq_eq]
    refine reports.imp ?_
    rintro ⟨problem, span, context⟩ ⟨problem', span', context'⟩ ⟨rfl, rfl, rfl⟩
    rfl
  rw [drafted.eq_of_parse_eq_ok parsed, drafted'.eq_of_parse_eq_ok parsed']
  simp only [Parse.declassified, Drafted.diagnostics, Draft.declassified_tree, view, sameReports, lexical]

/-- A leaf with one of the three kinds has the one that the registry gives to its text. -/
theorem kind_eq_symbolKind {text : Text} {r : Registry} {result : Parse}
    (parsed : parse text r = .ok result) {l : Leaf} (member : l ∈ result.tree.leaves)
    (isSymbol : l.kind.isSymbolToken = true) : l.kind = Scan.symbolKind r l.lexeme := by
  obtain ⟨start, d, drafted, table⟩ := exists_drafted text r
  rw [drafted.eq_of_parse_eq_ok parsed, Draft.leaves_tree] at member
  obtain ⟨⟨kind, t⟩, found, rfl⟩ := List.mem_map.mp member
  have lies : t.LiesIn text := drafted.lies t (List.mem_map_of_mem found)
  have classified : t.Classified r := by
    have token : t ∈ (Token.tokenize text r).1 := by
      rw [← drafted.tokens]
      exact List.mem_map_of_mem found
    exact Token.classified_tokensFrom r 0 text t token
  have labelled : Draft.Labelled start.slashKind (kind, t) := by
    obtain ⟨ds, rfl⟩ := drafted.reads.isSource
    rcases (Outline.mem_leaves_iff _).mp found with whole | ⟨n, inside, child⟩
    · contradiction
    · exact Labels.production n.1 n.2 (table False False.elim n inside) _ child
  dsimp only at isSymbol ⊢
  rw [lies.lexeme_leaf, lies.leaf_eq]
  rw [lies.leaf_eq] at isSymbol
  rcases labelled with own | isHead | ⟨alone, isSlash⟩
  · simp only at own isSymbol ⊢
    rw [own] at isSymbol ⊢
    exact classified.1 isSymbol
  · simp only at isHead isSymbol
    cases kind <;> contradiction
  · simp only at alone ⊢
    rw [alone, drafted.slash, classified.2 isSlash]

/-- With any two registries a text has the same result up to the classes of symbols, the same diagnostics
included. The class of a symbol is the one that the registry gives to its text. -/
theorem registry_only_classifies (text : Text) (r s : Registry) :
    (parse text r).toOption.map Parse.declassified = (parse text s).toOption.map Parse.declassified ∧
    (Text.size text < sizeLimit → LogFits text r → ∃ result, parse text r = .ok result) ∧
    ∀ result, parse text r = .ok result → ∀ l ∈ result.tree.leaves, l.kind.isSymbolToken = true →
      (l.kind = .builtinFunction ↔ r.classify l.lexeme = some .function) ∧
      (l.kind = .builtinSymbol ↔ r.classify l.lexeme = some .symbol) ∧
      (l.kind = .name ↔ r.classify l.lexeme = none) := by
  refine ⟨?_, ?_, ?_⟩
  · have both := parsed_iff_of_registries text r s
    cases parsed : parse text r with
    | ok a =>
      obtain ⟨b, parsed'⟩ := both.mp ⟨a, parsed⟩
      rw [parsed']
      exact congrArg some (parse_declassified_eq parsed parsed')
    | error fault =>
      cases parsed' : parse text s with
      | ok b =>
        obtain ⟨a, parsed''⟩ := both.mpr ⟨b, parsed'⟩
        rw [parsed] at parsed''
        contradiction
      | error fault' => rfl
  · exact exists_parse
  · intro result parsed l member isSymbol
    rw [kind_eq_symbolKind parsed member isSymbol]
    unfold Scan.symbolKind
    split <;> rename_i found <;> simp [found]

end LispSyntax
