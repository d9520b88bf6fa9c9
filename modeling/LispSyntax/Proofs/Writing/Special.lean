import LispSyntax.Proofs.Reading.Special
import LispSyntax.Proofs.Writing.Binding

/-! # Reading special forms back

A parenthesized list is a special form if its first word is a head that no slash touches. Written heads are
followed by a space, and lists that are no special form start with something else, so the right rule is
chosen either way (`yields_special`, `yields_list`). Each head then has its own body.
-/

namespace LispSyntax

open LispSyntax.Parser Grammar

namespace Writing

variable {r : Registry} {p q : Parser} {k inside : List Item} {w : Word} {ss : List Sketch}
  {form : FormRule} {depth : Nat}

/-! ## The choice of the rule -/

theorem headAhead?_name {n : Name} (ahead : Ahead r (.one w :: name n :: k) p) (more : k ≠ []) :
    headAhead? p = Kind.ofHead? n.text := by
  obtain ⟨t, ts, rest, -, -, after⟩ := ahead.spelled.exists_one
  obtain ⟨u, us, rfl, spells, apart, -⟩ := after.exists_one
  have isSymbol : u.kind.isSymbolToken = true := by
    rw [spells.kind]
    exact Scan.isSymbolToken_symbolKind r n.text
  -- More comes after the name, so a space does, and no slash can touch it.
  have spaced : u.trailing.isEmpty = false := by simpa using apart more
  have textEq : u.text = n.text := spells.text
  simp [headAhead?, nth, token, rest, joined, Token.joined, isSymbol, spaced, textEq]

theorem headAhead?_lookup {account : Account} {n : Name}
    (ahead : Ahead r (.one w :: .lookup account n :: k) p) : headAhead? p = none := by
  obtain ⟨t, ts, rest, -, -, after⟩ := ahead.spelled.exists_one
  obtain ⟨u, slash, v, us, rfl, -, touches, spellsSlash, -⟩ := after.exists_lookup
  have slashKind : slash.kind = .slash := spellsSlash.kind
  simp [headAhead?, nth, token, rest, joined, Token.joined, slashKind, touches, spellsSlash.leading]

theorem Other.headAhead?_eq_none (o : Other) (ahead : Ahead r (.one w :: (o.items ++ k)) p) :
    headAhead? p = none := by
  obtain ⟨account, n, items⟩ | ⟨v, is, items, begins⟩ := o.items_cases
  · rw [items] at ahead
    exact headAhead?_lookup ahead
  · rw [items] at ahead
    have notSymbol : (p.nth 1).isSymbolToken = false := by
      rw [ahead.nth_one]
      exact (begins r).2
    simp [headAhead?, notSymbol]

theorem parenthesized_eq_list (isParen : p.isAt .leftParen = true) (plain : headAhead? p = none) :
    parenthesized form p = list form p := by
  unfold parenthesized
  simp only [require_eq isParen, plain]

theorem parenthesized_eq_specialForm {head : Kind} (isParen : p.isAt .leftParen = true)
    (found : headAhead? p = some head) : parenthesized form p = specialForm form head p := by
  unfold parenthesized
  simp only [require_eq isParen, found]

theorem yields_list (readsBack : ReadsBack r form depth) (fs : List Form)
    (shallow : Form.depthAll fs ≤ depth) (ahead : Ahead r (inParens (Form.itemsAll fs) ++ k) p)
    (plain : headAhead? p = none) :
    Yields r p [.node .listForm (between .leftParen .rightParen (Form.sketchAll r fs))] k
      (parenthesized form p).2 := by
  rw [parenthesized_eq_list (ahead.isAt_eq .leftParen) plain]
  rw [inParens_append] at ahead
  exact yields_delimited readsBack rfl rfl shallow ahead

/-- A special form is read as one if its body is. -/
theorem yields_special {head : Kind} {isHead : head ∈ Kind.heads}
    (ahead : Ahead r (special head isHead inside ++ k) p)
    (body : ∀ q, Inside rightParen.kind q → Ahead r (inside ++ rightParen.item :: k) q →
      Yields r q ss (rightParen.item :: k) (specialBody form head q)) :
    Yields r p [specialSketch (specialNode head) head ss] k (parenthesized form p).2 := by
  have isParen : p.isAt .leftParen = true := ahead.isAt_eq .leftParen
  rw [special, inParens_append, List.cons_append] at ahead
  have found : headAhead? p = some head := by
    rw [headAhead?_name ahead (by simp)]
    exact ofHead?_headText isHead
  obtain ⟨opened, inside⟩ := ahead.begun.openSequence rightParen rfl (spellingOf head)
  have taken := opened.advanceAs head
  have filled := taken.trans (body _ (taken.inside inside) taken.ahead)
  have closed := ahead.begun.enclosed rfl filled
  -- The body has read everything up to the closing token.
  have nothingLeft : noMoreForms form (spellingOf head) (specialBody form head
      ((p.begun.openSequence (spellingOf head)).advanceAs head)) = specialBody form head
      ((p.begun.openSequence (spellingOf head)).advanceAs head) := by
    rw [noMoreForms, filled.ahead.ended (filled.inside inside), if_pos rfl]
  rw [← nothingLeft] at closed
  have made : Yields r p [specialSketch (specialNode head) head ss] k
      (p.node (specialNode head) fun q => (noMoreForms form (spellingOf head) (specialBody form head
        ((q.openSequence (spellingOf head)).advanceAs head))).closeSequence).2 :=
    .node (isLabel_specialNode isHead).1 closed
  rw [parenthesized_eq_specialForm isParen found]
  exact made

/-! ## Lookups and imports -/

theorem yields_expectSymbol {n : Name} (missing : StructuralProblem)
    (ahead : Ahead r (name n :: k) p) :
    Yields r p [symbolSketch r n] k (expectSymbol form missing p) := by
  rw [expectSymbol, ahead.atSymbol, if_pos rfl]
  exact yields_symbol ahead

theorem Ahead.not_address {n : Name} (ahead : Ahead r (name n :: k) p) : p.isAt .address = false := by
  have isSymbol := ahead.atSymbol
  refine beq_eq_false_iff_ne.mpr fun isAddress => ?_
  rw [Parser.atSymbol, isAddress] at isSymbol
  contradiction

/-- Of two symbols the first is the account, and a symbol alone is the name. -/
theorem yields_lookupBody {account : Option Account} {n : Name} {closer : Closer}
    (ahead : Ahead r ((account.map Account.items).getD [] ++ name n :: closer.item :: k) p) :
    Yields r p ((account.map (Account.sketch r)).toList ++ [symbolSketch r n]) (closer.item :: k)
      (lookupBody form p) := by
  cases account with
  | none =>
    have ahead : Ahead r (name n :: closer.item :: k) p := ahead
    have alone : (p.nth 1).isSymbolToken = false := by
      have closes := closer.closes
      rw [ahead.nth_one]
      change closer.kind.isSymbolToken = false
      revert closes
      generalize closer.kind = kind
      have apart : ∀ kind ∈ Kind.all, kind.isCloser = true → kind.isSymbolToken = false := by decide
      exact apart kind (Kind.mem_all kind)
    simp only [lookupBody, ahead.not_address, ahead.atSymbol, alone]
    exact yields_expectSymbol _ ahead
  | some account =>
    cases account with
    | address digits =>
      have ahead : Ahead r (.one (.literal (.address digits)) :: name n :: closer.item :: k) p := ahead
      have isAddress : p.isAt .address = true := ahead.isAt_eq .address
      have first := yields_literal ahead
      simp only [lookupBody, isAddress, if_true]
      exact first.trans (yields_expectSymbol _ first.ahead)
    | symbol m =>
      have ahead : Ahead r (name m :: name n :: closer.item :: k) p := ahead
      have followed : (p.nth 1).isSymbolToken = true := by
        rw [ahead.nth_one]
        exact Scan.isSymbolToken_symbolKind r n.text
      have first := yields_symbol ahead
      simp only [lookupBody, ahead.not_address, ahead.atSymbol, followed]
      exact first.trans (yields_expectSymbol _ first.ahead)

theorem yields_importBody {library : Name} {closer : Closer}
    (ahead : Ahead r (name library :: closer.item :: k) p) :
    Yields r p [symbolSketch r library] (closer.item :: k) (importBody form p) := by
  have first := yields_symbol ahead
  have noAlias : (symbol p).2.isAt .keyword = false := by
    have closes := closer.closes
    rw [first.ahead.isAt_eq]
    refine beq_eq_false_iff_ne.mpr fun isKeyword => ?_
    rw [show closer.kind = .keyword from isKeyword] at closes
    contradiction
  simp only [importBody, ahead.atSymbol, noAlias]
  exact first

theorem yields_importBody_as {library rename : Name}
    (ahead : Ahead r (name library :: .one (.literal asKeyword) :: name rename :: k) p) :
    Yields r p [symbolSketch r library, .leaf (.asMark, ":as".toList), symbolSketch r rename] k
      (importBody form p) := by
  have first := yields_symbol ahead
  have isKeyword : (symbol p).2.isAt .keyword = true := first.ahead.isAt_eq .keyword
  have isAs : (symbol p).2.current.text = ":as".toList := first.ahead.current_text
  have second : Yields r _ [.leaf (.asMark, ":as".toList)] _ _ := first.ahead.advanceAs .asMark
  simp only [importBody, ahead.atSymbol, isKeyword, isAs]
  exact first.trans (second.trans (yields_expectSymbol _ second.ahead))

/-! ## Definitions -/

theorem yields_definition (readsBack : ReadsBack r form depth) {missing : StructuralProblem}
    {body : Parser → Parser} {n : Name} {metadata : Option Pairs} {closer : Kind}
    (shallow : Pairs.metadataDepth metadata ≤ depth) (starts : Starts (firstKind r inside))
    (within : Inside closer p) (ahead : Ahead r (name n :: (Pairs.metadataItems metadata ++ inside)) p)
    (filled : ∀ q, Inside closer q → Ahead r inside q → Yields r q ss k (body q)) :
    Yields r p (symbolSketch r n :: (Pairs.metadataSketch r metadata ++ ss)) k
      (definition form missing body p) := by
  have first := yields_symbol ahead
  have second := yields_metadata? readsBack shallow starts first.ahead
  have both := first.trans second
  rw [definition, ahead.atSymbol, if_pos rfl]
  simpa using both.trans (filled _ (both.inside within) both.ahead)

theorem yields_singleArity (readsBack : ReadsBack r form depth) {closer : Closer} {ps : Parameters}
    {body : Form} (shallow : body.depth ≤ depth) (inside : Inside closer.kind p)
    (ahead : Ahead r (ps.items ++ (body.items ++ closer.item :: k)) p) :
    Yields r p [.node .arity [ps.sketch r, body.sketch r]] (closer.item :: k) (singleArity form p) := by
  rw [singleArity, ahead.isAt_parameters, if_pos rfl]
  exact yields_bareArity readsBack shallow inside ahead

theorem yields_expectForm (readsBack : ReadsBack r form depth) {f : Form} (shallow : f.depth ≤ depth)
    (missing : StructuralProblem) (ahead : Ahead r (f.items ++ k) p) :
    Yields r p [f.sketch r] k (expectForm form missing p).2 := by
  obtain ⟨c, q, read, yields⟩ := readsBack.reads f shallow p k ahead
  rw [expectForm_eq ahead, read]
  exact yields

/-! ## Conditions -/

theorem clauses_pair (readsBack : ReadsBack r form depth) {test result : Form}
    (shallow : test.depth ≤ depth) (shallow' : result.depth ≤ depth) (turns count : Nat)
    (ahead : Ahead r (test.items ++ (result.items ++ k)) p) :
    ∃ q, clauses form (turns + 1) count p = clauses form turns (count + 1) q ∧
      Yields r p [.node .condClause [test.sketch r, result.sketch r]] k q := by
  obtain ⟨c, q, read, first⟩ := readsBack.reads test shallow _ _ ahead.begun
  obtain ⟨c', q', read', second⟩ := readsBack.reads result shallow' _ _ first.ahead
  refine ⟨(q'.complete p.start.1 .condClause).2, ?_,
    .complete rfl (first.trans second)⟩
  have read : form p.start.2 = (some c, q) := read
  simp only [clauses, ahead.going (test.starts _), read, first.ahead.going (result.starts _), read']
  rfl

theorem clauses_last (readsBack : ReadsBack r form depth) {closer : Closer} {last : Form}
    (shallow : last.depth ≤ depth) (turns count : Nat) (inside : Inside closer.kind p)
    (ahead : Ahead r (last.items ++ closer.item :: k) p) :
    Yields r p [.node (if count = 0 then .condClause else .condFallback) [last.sketch r]]
      (closer.item :: k) (clauses form (turns + 1) count p) := by
  obtain ⟨c, q, read, first⟩ := readsBack.reads last shallow _ _ ahead.begun
  have ended := first.ahead.ended (first.inside (p := p.begun) inside)
  have read : form p.start.2 = (some c, q) := read
  simp only [clauses, ahead.going (last.starts _), read, ended]
  exact .complete (by split <;> rfl) first

/-- Once there is a clause, a last form alone is the fallback. -/
theorem yields_clauses (readsBack : ReadsBack r form depth) {closer : Closer} (turns count : Nat)
    (counted : 0 < count) (pairs : Pairs) (last : Option Form) (shallow : pairs.depth ≤ depth)
    (shallowLast : ∀ f ∈ last, f.depth ≤ depth)
    (enough : pairs.forms.length + last.toList.length ≤ turns) (inside : Inside closer.kind p)
    (ahead : Ahead r (pairs.items ++ (Form.itemsAll last.toList ++ closer.item :: k)) p) :
    Yields r p (pairs.clauseSketch r ++
      last.toList.map fun f => .node .condFallback [f.sketch r]) (closer.item :: k)
      (clauses form turns count p) := by
  induction turns generalizing p count pairs with
  | zero =>
    cases pairs with
    | nil =>
      cases last with
      | none => exact ahead.stays
      | some f => contradiction
    | cons test result rest => simp [Pairs.forms] at enough
  | succ turns ih =>
    cases pairs with
    | nil =>
      cases last with
      | none =>
        rw [clauses, ahead.ended inside]
        exact ahead.stays
      | some f =>
        have ahead : Ahead r (f.items ++ closer.item :: k) p := by
          simpa [Pairs.items, Form.itemsAll] using ahead
        have yields := clauses_last readsBack (shallowLast f rfl) turns count inside ahead
        rw [if_neg (by omega)] at yields
        exact yields
    | cons test result rest =>
      simp only [Pairs.depth, Nat.max_le] at shallow
      have ahead : Ahead r (test.items ++ (result.items ++
          (rest.items ++ (Form.itemsAll last.toList ++ closer.item :: k)))) p := by
        simpa [Pairs.items] using ahead
      obtain ⟨q, same, first⟩ := clauses_pair readsBack shallow.1 shallow.2.1 turns count ahead
      simp only [Pairs.forms, List.length_cons] at enough
      rw [same]
      exact first.trans (ih (count + 1) (by omega) rest shallow.2.2 (by omega) (first.inside inside)
        first.ahead)

theorem yields_clauses_cons (readsBack : ReadsBack r form depth) {closer : Closer}
    {test result : Form} {rest : Pairs} (last : Option Form)
    (shallow : (Pairs.cons test result rest).depth ≤ depth)
    (shallowLast : ∀ f ∈ last, f.depth ≤ depth) (inside : Inside closer.kind p)
    (ahead : Ahead r ((Pairs.cons test result rest).items ++
      (Form.itemsAll last.toList ++ closer.item :: k)) p) :
    Yields r p (.node .condClause [test.sketch r, result.sketch r] :: (rest.clauseSketch r ++
      last.toList.map fun f => .node .condFallback [f.sketch r])) (closer.item :: k)
      (clauses form p.rest.length 0 p) := by
  have enough : rest.forms.length + last.toList.length + 2 ≤ p.rest.length := by
    have tokens := ahead.spelled.length_le
    have forms := Form.length_le_itemsAll (Pairs.cons test result rest).forms
    have lasts := Form.length_le_itemsAll last.toList
    rw [Pairs.itemsAll_forms] at forms
    simp only [Pairs.forms, List.length_cons, List.length_append] at forms tokens
    omega
  -- The first pair is read with no clause before it, all others with one.
  obtain ⟨turns, turnsEq⟩ : ∃ turns, p.rest.length = turns + 1 := ⟨p.rest.length - 1, by omega⟩
  simp only [Pairs.depth, Nat.max_le] at shallow
  rw [Pairs.items, List.append_assoc, List.append_assoc] at ahead
  obtain ⟨q, same, first⟩ := clauses_pair readsBack shallow.1 shallow.2.1 turns 0 ahead
  rw [turnsEq, same]
  exact first.trans (yields_clauses readsBack turns 1 (by omega) rest last shallow.2.2 shallowLast
    (by omega) (first.inside inside) first.ahead)

/-! ## Parenthesized forms -/

/-- Given the rule for the forms inside it, the form in parentheses is read as what it stands for. -/
def ReadsParens (r : Registry) (form : FormRule) (depth : Nat) (o : Other) : Prop :=
  o.depth ≤ depth + 1 → ∀ (p : Parser) (k : List Item), Ahead r (o.items ++ k) p →
    Yields r p [o.sketch r] k (parenthesized form p).2

theorem readsParens_emptyList (readsBack : ReadsBack r form depth) :
    ReadsParens r form depth .emptyList := by
  intro _ p k ahead
  have noHead : headAhead? p = none := by
    have ahead : Ahead r (mark .leftParen (by decide) :: rightParen.item :: k) p := ahead
    have closes : (p.nth 1).isSymbolToken = false := by
      rw [ahead.nth_one]
      rfl
    simp [headAhead?, closes]
  exact yields_list readsBack [] (Nat.zero_le _) ahead noHead

theorem readsParens_call (readsBack : ReadsBack r form depth) (head : OrdinaryName)
    (arguments : List Form) : ReadsParens r form depth (.call head arguments) := by
  intro shallow p k ahead
  have noHead : headAhead? p = none := by
    have ahead : Ahead r (inParens (name head.name :: Form.itemsAll arguments) ++ k) p := ahead
    rw [inParens_append, List.cons_append] at ahead
    rw [headAhead?_name ahead (by simp)]
    exact head.notHead
  exact yields_list readsBack (.symbol head.name :: arguments) (Nat.le_of_succ_le_succ shallow)
    ahead noHead

theorem readsParens_group (readsBack : ReadsBack r form depth) (first : Other) (rest : List Form) :
    ReadsParens r form depth (.group first rest) := by
  intro shallow p k ahead
  have noHead : headAhead? p = none := by
    have ahead : Ahead r (inParens (first.items ++ Form.itemsAll rest) ++ k) p := ahead
    rw [inParens_append, List.append_assoc] at ahead
    exact first.headAhead?_eq_none ahead
  exact yields_list readsBack (.other first :: rest) (Nat.le_of_succ_le_succ shallow) ahead noHead

theorem readsParens_callLookup (account : Option Account) (n : Name) :
    ReadsParens r form depth (.callLookup account n) := by
  intro _ p k ahead
  refine yields_special ahead fun q _ ahead => ?_
  rw [List.append_assoc] at ahead
  exact yields_lookupBody ahead

theorem readsParens_quoted (readsBack : ReadsBack r form depth) (quotation : Quotation) (f : Form) :
    ReadsParens r form depth (.quoted quotation f) := by
  intro shallow p k ahead
  replace shallow : f.depth ≤ depth := Nat.le_of_succ_le_succ shallow
  -- Three heads share one body, and each has a node of its own.
  cases quotation <;>
    exact yields_special ahead fun q _ ahead => yields_expectForm readsBack shallow _ ahead

theorem readsParens_importing (library : Name) (rename : Option Name) :
    ReadsParens r form depth (.importing library rename) := by
  intro _ p k ahead
  cases rename with
  | none => exact yields_special ahead fun q _ ahead => yields_importBody ahead
  | some rename => exact yields_special ahead fun q _ ahead => yields_importBody_as ahead

theorem readsParens_define (readsBack : ReadsBack r form depth) (n : Name) (metadata : Option Pairs)
    (value : Form) : ReadsParens r form depth (.define n metadata value) := by
  intro shallow p k ahead
  replace shallow := Nat.max_le.mp (Nat.le_of_succ_le_succ shallow)
  refine yields_special ahead fun q within ahead => ?_
  rw [List.cons_append, List.append_assoc] at ahead
  exact yields_definition readsBack shallow.1 (value.starts _) within ahead fun q _ ahead =>
    yields_expectForm readsBack shallow.2 _ ahead

theorem readsParens_function (readsBack : ReadsBack r form depth) (n : Name)
    (metadata : Option Pairs) (ps : Parameters) (body : Form) :
    ReadsParens r form depth (.function n metadata ps body) := by
  intro shallow p k ahead
  replace shallow := Nat.max_le.mp (Nat.le_of_succ_le_succ shallow)
  refine yields_special ahead fun q within ahead => ?_
  rw [List.cons_append, List.append_assoc, List.append_assoc] at ahead
  refine yields_definition readsBack shallow.1 (ps.starts _) within ahead fun q within ahead => ?_
  rw [arities, ahead.isAt_parameters, if_pos rfl]
  exact yields_bareArity readsBack shallow.2 within ahead

theorem readsParens_functions (readsBack : ReadsBack r form depth) (n : Name)
    (metadata : Option Pairs) (as : Arities) :
    ReadsParens r form depth (.functions n metadata as) := by
  intro shallow p k ahead
  replace shallow := Nat.max_le.mp (Nat.le_of_succ_le_succ shallow)
  refine yields_special ahead fun q within ahead => ?_
  rw [List.cons_append, List.append_assoc] at ahead
  refine yields_definition readsBack shallow.1 ?_ within ahead fun q _ ahead =>
    yields_arities readsBack shallow.2 ahead
  cases as <;> exact (by decide : Starts .leftParen)

theorem readsParens_expander (readsBack : ReadsBack r form depth) (n : Name)
    (metadata : Option Pairs) (ps : Parameters) (body : Form) :
    ReadsParens r form depth (.expander n metadata ps body) := by
  intro shallow p k ahead
  replace shallow := Nat.max_le.mp (Nat.le_of_succ_le_succ shallow)
  refine yields_special ahead fun q within ahead => ?_
  rw [List.cons_append, List.append_assoc, List.append_assoc] at ahead
  exact yields_definition readsBack shallow.1 (ps.starts _) within ahead fun q within ahead =>
    yields_singleArity readsBack shallow.2 within ahead

theorem readsParens_anonymous (readsBack : ReadsBack r form depth) (expands : Bool)
    (ps : Parameters) (body : Form) : ReadsParens r form depth (.anonymous expands ps body) := by
  intro shallow p k ahead
  replace shallow : body.depth ≤ depth := Nat.le_of_succ_le_succ shallow
  cases expands <;>
  · refine yields_special ahead fun q within ahead => ?_
    rw [List.append_assoc] at ahead
    exact yields_singleArity readsBack shallow within ahead

theorem readsParens_scope (readsBack : ReadsBack r form depth) (repeats : Bool) (bs : Bindings)
    (body : List Form) : ReadsParens r form depth (.scope repeats bs body) := by
  intro shallow p k ahead
  replace shallow := Nat.max_le.mp (Nat.le_of_succ_le_succ shallow)
  cases repeats <;>
  · refine yields_special ahead fun q within ahead => ?_
    rw [List.append_assoc] at ahead
    exact yields_boundBody readsBack shallow.1 (by simp) shallow.2 within ahead

theorem Bindings.items_single (n : Name) (value : Form) :
    (Bindings.cons n value .nil).items = name n :: value.items := by
  simp [Bindings.items]

theorem Bindings.depth_single (n : Name) (value : Form) :
    (Bindings.cons n value .nil).depth = value.depth := by
  simp [Bindings.depth]

theorem readsParens_branch (readsBack : ReadsBack r form depth) (n : Name)
    (value consequence : Form) (alternative : Option Form) :
    ReadsParens r form depth (.branch n value consequence alternative) := by
  intro shallow p k ahead
  cases alternative with
  | none =>
    replace shallow := Nat.max_le.mp (Nat.le_of_succ_le_succ shallow)
    rw [← Bindings.depth_single n value] at shallow
    refine yields_special ahead fun q within ahead => ?_
    rw [List.append_assoc, ← Bindings.items_single] at ahead
    exact yields_boundBranches readsBack none shallow.1 rfl
      shallow.2 (by simp) within ahead
  | some alternative =>
    replace shallow := Nat.max_le.mp (Nat.le_of_succ_le_succ shallow)
    rw [← Bindings.depth_single n value, Nat.max_le] at shallow
    refine yields_special ahead fun q within ahead => ?_
    rw [List.append_assoc, List.append_assoc, ← Bindings.items_single] at ahead
    refine yields_boundBranches readsBack (some alternative)
      shallow.1 rfl shallow.2.1 ?_ within ?_
    · rintro f ⟨⟩
      exact shallow.2.2
    · simpa [Form.itemsAll] using ahead

theorem readsParens_guarded (readsBack : ReadsBack r form depth) (counts : Bool) (n : Name)
    (value : Form) (body : List Form) :
    ReadsParens r form depth (.guarded counts n value body) := by
  intro shallow p k ahead
  replace shallow := Nat.max_le.mp (Nat.le_of_succ_le_succ shallow)
  rw [← Bindings.depth_single n value] at shallow
  cases counts <;>
  · refine yields_special ahead fun q within ahead => ?_
    rw [List.append_assoc, ← Bindings.items_single] at ahead
    exact yields_boundBody readsBack shallow.1 (fun _ => rfl) shallow.2 within
      ahead

theorem readsParens_choose (readsBack : ReadsBack r form depth) (pairs : Pairs)
    (last : Option Form) : ReadsParens r form depth (.choose pairs last) := by
  intro shallow p k ahead
  cases last with
  | none =>
    replace shallow : pairs.depth ≤ depth := Nat.le_of_succ_le_succ shallow
    refine yields_special ahead fun q within ahead => ?_
    cases pairs with
    | nil =>
      have ahead : Ahead r (rightParen.item :: k) q := ahead
      have stopped : clauses form q.rest.length 0 q = q := by
        cases q.rest.length with
        | zero => rfl
        | succ turns => simp [clauses, ahead.ended within]
      rw [specialBody, stopped]
      exact ahead.stays
    | cons test result rest =>
      have yields := yields_clauses_cons readsBack none shallow (by simp)
        within ahead
      simpa [Pairs.clauseSketch, specialBody] using yields
  | some last =>
    replace shallow := Nat.max_le.mp (Nat.le_of_succ_le_succ shallow)
    cases pairs with
    | nil =>
      change Yields r p [specialSketch .condForm .condHead [.node .condClause [last.sketch r]]] k _
      refine yields_special ahead fun q within ahead => ?_
      have ahead : Ahead r (last.items ++ rightParen.item :: k) q := ahead
      obtain ⟨t, ts, rest⟩ := ahead.ready.exists_rest_of_going (ahead.going (last.starts _))
      rw [specialBody, rest]
      exact clauses_last readsBack shallow.2 ts.length 0 within ahead
    | cons test result rest =>
      refine yields_special ahead fun q within ahead => ?_
      rw [List.append_assoc] at ahead
      refine yields_clauses_cons readsBack (some last) shallow.1 ?_
        within ?_
      · rintro f ⟨⟩
        exact shallow.2
      · simpa [Form.itemsAll] using ahead

end Writing

end LispSyntax
