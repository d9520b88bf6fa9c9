import LispSyntax.Proofs.Drafted
import LispSyntax.Proofs.Writing.Special

/-! # Parsing what is written gives the forms back

Forms that do not nest too deeply, written with one space between any two items, are parsed without a
diagnostic, and the tree says exactly what the forms say, just when the text has a size that positions can express and
its log does not outgrow the slots (`parse_writeOut_iff`). The rule for a form is shown
to read back what nests as deeply as its budget allows, by induction on the budget: one level of it is
spent on the form, the rest is what the forms inside may use.

The log grows faster than the text: a division sign takes two bytes with the space behind it, and three entries.
-/

namespace LispSyntax

open LispSyntax.Parser Grammar

namespace Writing

variable {r : Registry} {p q : Parser} {k : List Item} {form : FormRule} {depth : Nat}

/-! ## One form -/

theorem literal_eq (isLiteral : p.kind.isLiteralToken = true) :
    literal p = p.node .literal Parser.advance := by
  rw [literal, require_eq isLiteral]

def ReadsAs (r : Registry) (form : FormRule) (p : Parser) (ss : List Sketch) (k : List Item) : Prop :=
  ∃ c q, formAt form p = (some c, q) ∧ Yields r p ss k q

theorem readsAs_counted {ss : List Sketch} {result : Completed × Parser}
    (same : formAt form p = counted result) (yields : Yields r p ss k result.2) :
    ReadsAs r form p ss k :=
  ⟨result.1, result.2, same, yields⟩

theorem readsAs_symbol {n : Name} (ahead : Ahead r (name n :: k) p) :
    ReadsAs r form p [symbolSketch r n] k := by
  have alone : infixLookup (symbol p) = symbol p := by
    rw [symbol_eq ahead.atSymbol]
    exact infixLookup_eq rfl ahead
  have same := formAt_symbol form ahead.atSymbol
  rw [alone] at same
  exact readsAs_counted same (yields_symbol ahead)

theorem readsAs_literal {l : Literal} (ahead : Ahead r (.one (.literal l) :: k) p) :
    ReadsAs r form p [literalSketch l] k := by
  have isLiteral : p.kind.isLiteralToken = true := by
    rw [ahead.kind_eq]
    exact l.isLiteralToken_kind
  have alone : infixLookup (literal p) = literal p := by
    rw [literal_eq isLiteral]
    exact infixLookup_eq rfl ahead
  have same := formAt_literal form isLiteral
  rw [alone, ite_self] at same
  exact readsAs_counted same (yields_literal ahead)

theorem readsAs_lookup {account : Account} {n : Name} (ahead : Ahead r (.lookup account n :: k) p) :
    ReadsAs r form p [.node .lookupForm [account.sketch r, markLeaf .slash, symbolSketch r n]] k := by
  cases account with
  | address digits =>
    have isAddress : p.kind = .address := ahead.kind_eq
    have same : formAt form p = counted (infixLookup (literal p)) := by simp only [formAt, isAddress]
    rw [literal_eq (by rw [isAddress]; rfl)] at same
    exact readsAs_counted same (yields_infixLookup .literal rfl ahead)
  | symbol m =>
    have isSymbol : p.atSymbol = true := by
      rw [ahead.atSymbol_eq]
      exact Scan.isSymbolToken_symbolKind r m.text
    have same := formAt_symbol form isSymbol
    rw [symbol_eq isSymbol] at same
    exact readsAs_counted same (yields_infixLookup .symbol rfl ahead)

/-- A slash alone is the symbol for division, under the kind that the registry gives it. -/
theorem readsAs_division (ahead : Ahead r (.one .slash :: k) p) :
    ReadsAs r form p [(Other.division).sketch r] k := by
  have isSlash : p.kind = .slash := ahead.kind_eq
  have same : formAt form p = counted (p.node .symbol fun p => p.advanceAs p.slashKind) := by
    simp only [formAt, isSlash]
  refine readsAs_counted same (.node rfl ?_)
  rw [ahead.begun.slash]
  exact ahead.begun.advanceAs (Scan.symbolKind r ['/'])

theorem readsAs_parens {o : Other} (shallow : o.depth ≤ depth + 1)
    (reads : ReadsParens r form depth o) (ahead : Ahead r (o.items ++ k) p)
    (isParen : firstKind r (o.items ++ k) = .leftParen) : ReadsAs r form p [o.sketch r] k := by
  have isParen : p.kind = .leftParen := by rw [ahead.kind_eq, isParen]
  have same : formAt form p = counted (parenthesized form p) := by simp only [formAt, isParen]
  exact readsAs_counted same (reads shallow p k ahead)

/-- Given the rule for the forms inside it, every form is read as what it stands for. -/
theorem readsAs_other (readsBack : ReadsBack r form depth) (o : Other) (shallow : o.depth ≤ depth + 1)
    (ahead : Ahead r (o.items ++ k) p) : ReadsAs r form p [o.sketch r] k := by
  -- The first token of what is written picks the branch of the parser.
  cases o with
  | literal l => exact readsAs_literal ahead
  | division => exact readsAs_division ahead
  | infixLookup account n => exact readsAs_lookup ahead
  | marked quotation f =>
    have isMark : p.kind = quotation.mark := ahead.kind_eq
    have same : formAt form p = counted (markedForm form p) := by
      cases quotation <;> simp only [formAt, isMark, Quotation.mark]
    exact readsAs_counted same (yields_markedForm readsBack (Nat.le_of_succ_le_succ shallow) ahead)
  | vector items =>
    have isBracket : p.kind = .leftBracket := ahead.kind_eq
    have same : formAt form p = counted (vector form p) := by simp only [formAt, isBracket]
    replace ahead : Ahead r (inBrackets (Form.itemsAll items) ++ k) p := ahead
    rw [inBrackets_append] at ahead
    exact readsAs_counted same (yields_delimited readsBack rfl rfl
      (Nat.le_of_succ_le_succ shallow) ahead)
  | set items =>
    have isOpener : p.kind = .hashLeftBrace := ahead.kind_eq
    have same : formAt form p = counted (set form p) := by simp only [formAt, isOpener]
    replace ahead : Ahead r (mark .hashLeftBrace (by decide) ::
        ((Form.itemsAll items ++ [rightBrace.item]) ++ k)) p := ahead
    rw [List.append_assoc, List.singleton_append] at ahead
    exact readsAs_counted same (yields_delimited readsBack rfl rfl
      (Nat.le_of_succ_le_succ shallow) ahead)
  | map entries =>
    have isBrace : p.kind = .leftBrace := ahead.kind_eq
    have same : formAt form p = counted (map form p) := by simp only [formAt, isBrace]
    exact readsAs_counted same (yields_map readsBack (Nat.le_of_succ_le_succ shallow) ahead)
  | emptyList => exact readsAs_parens shallow (readsParens_emptyList readsBack) ahead rfl
  | call head arguments =>
    exact readsAs_parens shallow (readsParens_call readsBack head arguments) ahead rfl
  | group first rest =>
    exact readsAs_parens shallow (readsParens_group readsBack first rest) ahead rfl
  | callLookup account n => exact readsAs_parens shallow (readsParens_callLookup account n) ahead rfl
  | quoted quotation f =>
    exact readsAs_parens shallow (readsParens_quoted readsBack quotation f) ahead rfl
  | importing library rename =>
    refine readsAs_parens shallow (readsParens_importing library rename) ahead ?_
    cases rename <;> rfl
  | define n metadata value =>
    exact readsAs_parens shallow (readsParens_define readsBack n metadata value) ahead rfl
  | function n metadata ps body =>
    exact readsAs_parens shallow (readsParens_function readsBack n metadata ps body) ahead rfl
  | functions n metadata as =>
    exact readsAs_parens shallow (readsParens_functions readsBack n metadata as) ahead rfl
  | expander n metadata ps body =>
    exact readsAs_parens shallow (readsParens_expander readsBack n metadata ps body) ahead rfl
  | anonymous expands ps body =>
    refine readsAs_parens shallow (readsParens_anonymous readsBack expands ps body) ahead ?_
    cases expands <;> rfl
  | choose clauses last =>
    refine readsAs_parens shallow (readsParens_choose readsBack clauses last) ahead ?_
    cases last <;> rfl
  | scope repeats bs body =>
    refine readsAs_parens shallow (readsParens_scope readsBack repeats bs body) ahead ?_
    cases repeats <;> rfl
  | branch n value consequence alternative =>
    refine readsAs_parens shallow (readsParens_branch readsBack n value consequence alternative) ahead ?_
    cases alternative <;> rfl
  | guarded counts n value body =>
    refine readsAs_parens shallow (readsParens_guarded readsBack counts n value body) ahead ?_
    cases counts <;> rfl

/-! ## The rule for a form -/

theorem Form.depth_pos (f : Form) : 0 < f.depth := by
  cases f with
  | symbol n => exact Nat.one_pos
  | other o =>
    cases o with
    | choose clauses last => cases last <;> exact Nat.succ_pos _
    | branch n value consequence alternative => cases alternative <;> exact Nat.succ_pos _
    | _ => exact Nat.succ_pos _

/-- The rule for a form reads back all forms that nest at most as deeply as its budget. -/
theorem readsBack_form (r : Registry) (budget : Nat) : ReadsBack r (Grammar.form budget) budget := by
  induction budget with
  | zero =>
    -- A budget of nothing is never asked for: every form is at least one level deep.
    refine ⟨fun p atEnd => by simp [Grammar.form, atEnd], fun f shallow => ?_⟩
    exact absurd f.depth_pos (by omega)
  | succ budget ih =>
    refine ⟨fun p atEnd => by simp [Grammar.form, atEnd], fun f shallow p k ahead => ?_⟩
    simp only [Grammar.form, ahead.going (f.starts k), Bool.false_eq_true, if_false]
    cases f with
    | symbol n => exact readsAs_symbol ahead
    | other o => exact readsAs_other ih o shallow ahead

/-! ## Sources -/

def afterForms : Nat → Parser → Parser
  | 0, p => p
  | n + 1, p => afterForms n (Grammar.form maxDepth p).2

theorem topLevel_of_isAt (turns : Nat) (atEnd : p.isAt .eof = true) : topLevel turns p = p := by
  cases turns with
  | zero => rfl
  | succ turns => rw [topLevel, if_pos atEnd]

/-- The loop over a source goes through these states. -/
theorem topLevel_add (n turns : Nat) (p : Parser) : topLevel (n + turns) p = topLevel turns (afterForms n p) := by
  induction n generalizing p with
  | zero => rw [Nat.zero_add, afterForms]
  | succ n ih =>
    rw [afterForms, ← ih, Nat.succ_add]
    cases atEnd : p.isAt .eof with
    | false => rw [topLevel, atEnd, if_neg Bool.false_ne_true]
    | true =>
      have stays : (Grammar.form maxDepth p).2 = p := by
        rw [(readsBack_form .empty maxDepth).atEnd p (by simp [atSequenceEnd, atEnd])]
      rw [stays, topLevel_of_isAt _ atEnd, topLevel_of_isAt _ atEnd]

theorem yields_afterForms (fs : List Form) (shallow : ∀ f ∈ fs, f.depth ≤ maxDepth)
    (ahead : Ahead r (Form.itemsAll fs ++ k) p) : Yields r p (fs.map (Form.sketch r)) k (afterForms fs.length p) := by
  induction fs generalizing p with
  | nil => exact ahead.stays
  | cons f fs ih =>
    rw [Form.itemsAll, List.append_assoc] at ahead
    obtain ⟨c, q, read, first⟩ := (readsBack_form r maxDepth).reads f (shallow f (by simp)) p _ ahead
    have rest := ih (fun g member => shallow g (List.mem_cons_of_mem f member)) first.ahead
    simp only [List.length_cons, afterForms, read]
    exact first.trans rest

theorem yields_topLevel (fs : List Form) (shallow : ∀ f ∈ fs, f.depth ≤ maxDepth) (turns : Nat)
    (enough : fs.length ≤ turns) (ahead : Ahead r (Form.itemsAll fs) p) :
    Yields r p (fs.map (Form.sketch r)) [] (topLevel turns p) := by
  have yields : Yields r p (fs.map (Form.sketch r)) [] (afterForms fs.length p) :=
    yields_afterForms fs shallow (by rwa [List.append_nil])
  have atEnd : (afterForms fs.length p).isAt .eof = true := yields.ahead.isAt_eq .eof
  rwa [← Nat.add_sub_cancel' enough, topLevel_add, topLevel_of_isAt _ atEnd]

/-- Forms that are written out are read to a draft that has just these forms, and nothing is reported. -/
theorem exists_drafted_writeOut (r : Registry) (fs : List Form) (shallow : ∀ f ∈ fs, f.depth ≤ maxDepth) :
    ∃ start d, Drafted (writeOut fs) r start d ∧ Drafted.diagnostics (writeOut fs) r start = [] ∧
      d.sketch = .node .source (fs.map (Form.sketch r) ++ [.leaf (.eof, [])]) := by
  obtain ⟨ts, last, tokens, spelled, lastEnd, empty⟩ := exists_spelled r 0 (Form.itemsAll fs)
  change Token.tokenize (writeOut fs) r = (ts ++ [last], []) at tokens
  have ahead : Ahead r (Form.itemsAll fs) (startOf r ts last) := ⟨spelled, lastEnd, rfl⟩
  have enough : fs.length ≤ (startOf r ts last).begun.rest.length := by
    have items := ahead.begun.spelled.length_le
    have forms := Form.length_le_itemsAll fs
    omega
  -- The parser makes a draft with the right sketch, reports nothing, and gets to the end.
  obtain ⟨aheadEnd, ds, runs, quiet, sketches⟩ := yields_topLevel fs shallow _ enough ahead.begun
  have ending := aheadEnd.spelled.eq_nil
  have drafted : Drafted (writeOut fs) r (startOf r ts last) _ :=
    drafted_of_runs (by rw [tokens]) ahead.ready runs ending
  have silent : (source (startOf r ts last)).reports = [] := by
    rw [reports_source, quiet]
    rfl
  refine ⟨_, _, drafted, ?_, ?_⟩
  · simp [Drafted.diagnostics, tokens, silent, Diagnostic.sortByStart]
  · rw [Draft.sketch_node, List.map_append, sketches]
    simp [empty]

/-- Forms with few enough nodes and leaves have a log that fits. -/
theorem logFits_writeOut (r : Registry) {fs : List Form} (shallow : ∀ f ∈ fs, f.depth ≤ maxDepth)
    (few : Outline.entries (fs.map (Form.sketch r)) + 3 ≤ sizeLimit) : LogFits (writeOut fs) r := by
  obtain ⟨start, d, drafted, -, sketch⟩ := exists_drafted_writeOut r fs shallow
  refine drafted.logFits_of_entries_le ?_
  have same : Outline.entries [d] = Outline.entries [d.sketch] := (Draft.entries_sketch [d]).symm
  rw [same, sketch]
  simpa using few

theorem exists_parse_writeOut {r : Registry} {fs : List Form} (shallow : ∀ f ∈ fs, f.depth ≤ maxDepth)
    (small : Text.size (writeOut fs) < sizeLimit) (fits : LogFits (writeOut fs) r) :
    ∃ result, parse (writeOut fs) r = .ok result ∧ result.isOk = true ∧
      result.tree.sketch = .node .source (fs.map (Form.sketch r) ++ [.leaf (.eof, [])]) := by
  obtain ⟨start, d, drafted, silent, sketch⟩ := exists_drafted_writeOut r fs shallow
  refine ⟨_, drafted.parse_eq small fits, ?_, ?_⟩
  · simp [Parse.isOk, silent]
  · rw [Draft.sketch_tree d drafted.lies, sketch]

/-- Forms that nest at most as deeply as the grammar allows, written out, are parsed without a diagnostic to
a tree that has just these forms, if there is room for the text and for its log, and otherwise not at all. -/
theorem parse_writeOut_iff (r : Registry) (fs : List Form) (shallow : ∀ f ∈ fs, f.depth ≤ maxDepth) :
    (∃ result, parse (writeOut fs) r = .ok result ∧ result.isOk = true ∧
      result.tree.sketch = .node .source (fs.map (Form.sketch r) ++ [.leaf (.eof, [])])) ↔
    Text.size (writeOut fs) < sizeLimit ∧ LogFits (writeOut fs) r := by
  constructor
  · rintro ⟨result, parsed, -, -⟩
    exact (parse_eq_ok_iff _ r).mp ⟨result, parsed⟩
  · rintro ⟨small, fits⟩
    exact exists_parse_writeOut shallow small fits

def sampleName : Name :=
  ⟨"x".toList, by decide, by decide, List.all_eq_true.mp (by decide), by decide⟩

/-- A function with two arities, and a condition with a fallback. -/
def sampleForms : List Form :=
  let parameter : Parameter := ⟨sampleName, by decide⟩
  let seven : Digits := ⟨"7".toList, by decide, List.all_eq_true.mp (by decide)⟩
  [.other (.functions sampleName none (.cons ⟨[parameter], [parameter]⟩
      (.other (.infixLookup (.address seven) sampleName))
      (.last ⟨[], []⟩ (.other (.marked .quote (.symbol sampleName)))))),
    .other (.choose (.cons (.symbol sampleName) (.other .division) .nil) (some (.other .emptyList)))]

/-- The sample is written and read back. -/
theorem parse_writeOut_iff_sample :
    writeOut sampleForms =
      "( defn x ( [ x & x ] #7/x ) ( [ ] ' x ) ) ( cond x / ( ) )".toList ∧
    (∀ f ∈ sampleForms, f.depth ≤ maxDepth) ∧
    ∃ result, parse (writeOut sampleForms) Registry.empty = .ok result ∧ result.isOk = true ∧
      result.tree.sketch =
        .node .source (sampleForms.map (Form.sketch .empty) ++ [.leaf (.eof, [])]) :=
  ⟨by decide, by decide, (parse_writeOut_iff _ _ (by decide)).mpr
    ⟨by decide, logFits_writeOut _ (by decide) (by decide)⟩⟩

/-! ## A log that does not fit -/

/-- As many division signs. -/
def divisions (n : Nat) : List Form :=
  List.replicate n (.other .division)

theorem shallow_divisions (n : Nat) : ∀ f ∈ divisions n, f.depth ≤ maxDepth := by
  intro f member
  rw [List.eq_of_mem_replicate member]
  decide

theorem itemsAll_divisions_succ (n : Nat) :
    Form.itemsAll (divisions (n + 1)) = .one .slash :: Form.itemsAll (divisions n) :=
  rfl

theorem size_following_divisions (n : Nat) : Text.size (following (Form.itemsAll (divisions n))) = 2 * n := by
  induction n with
  | zero => rfl
  | succ n ih =>
    have sign : Text.size (Item.one .slash).text = 1 := by decide
    have space : ' '.utf8Size = 1 := by decide
    rw [itemsAll_divisions_succ, following, write_cons, Text.size_cons, Text.size_append, ih, sign, space]
    · omega
    · exact List.cons_ne_nil _ _

theorem size_writeOut_divisions (n : Nat) : Text.size (writeOut (divisions (n + 1))) = 2 * n + 1 := by
  have sign : Text.size (Item.one .slash).text = 1 := by decide
  rw [writeOut, itemsAll_divisions_succ, write_cons, Text.size_append, size_following_divisions, sign]
  omega

theorem entries_divisions (r : Registry) (n : Nat) :
    Outline.entries ((divisions n).map (Form.sketch r)) = 3 * n := by
  induction n with
  | zero => rfl
  | succ n ih =>
    have forms : (divisions (n + 1)).map (Form.sketch r) =
        (Other.division).sketch r :: (divisions n).map (Form.sketch r) := rfl
    have one : Outline.entries [(Other.division).sketch r] = 3 := rfl
    rw [forms, Outline.entries_cons, ih, one]
    omega

theorem sketch_divisions_succ (r : Registry) (n : Nat) : (divisions (n + 1)).map (Form.sketch r) =
    (divisions n).map (Form.sketch r) ++ [(Other.division).sketch r] := by
  rw [divisions, List.replicate_succ', List.map_append]
  rfl

theorem logFits_divisions (r : Registry) {n : Nat} (few : 3 * n + 3 ≤ sizeLimit) :
    LogFits (writeOut (divisions n)) r :=
  logFits_writeOut r (shallow_divisions n) (by rwa [entries_divisions])

/-- The last of many division signs starts behind all slots. -/
theorem not_logFits_divisions (r : Registry) {n : Nat} (many : sizeLimit ≤ 3 * n + 1) :
    ¬ LogFits (writeOut (divisions (n + 1))) r := by
  intro fits
  obtain ⟨start, d, drafted, -, sketch⟩ := exists_drafted_writeOut r _ (shallow_divisions (n + 1))
  rw [sketch_divisions_succ, List.append_assoc] at sketch
  have few := drafted.entries_lt_of_logFits sketch fits
  rw [entries_divisions] at few
  omega

/-- Positions can express the size of this text, and slots not all of its log. -/
theorem parse_divisions_ne_ok :
    (∀ f ∈ divisions 1431655766, f.depth ≤ maxDepth) ∧ Text.size (writeOut (divisions 1431655766)) < sizeLimit ∧
      ∀ result, parse (writeOut (divisions 1431655766)) .empty ≠ .ok result := by
  refine ⟨shallow_divisions _, ?_, fun result parsed => ?_⟩
  · rw [size_writeOut_divisions]
    decide
  · exact not_logFits_divisions .empty (by decide) ((parse_eq_ok_iff _ _).mp ⟨result, parsed⟩).2

end Writing

end LispSyntax
