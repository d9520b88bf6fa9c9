import LispSyntax.Grammar.Binding
import LispSyntax.Proofs.Writing.Collection

/-! # Reading parameters, arities and bindings back

The vectors that introduce names. The loop over parameters has two stages, before and after the mark of the
optional ones; the loop over bindings counts, and a vector with one binding is a case of any vector.
-/

namespace LispSyntax

open LispSyntax.Parser Grammar

namespace Writing

variable {r : Registry} {p q : Parser} {k : List Item} {form : FormRule} {depth : Nat}

/-! ## Parameters -/

theorem Ahead.going_name {n : Name} (ahead : Ahead r (name n :: k) p) : p.atSequenceEnd = false :=
  ahead.going (starts_symbolKind n.text)

theorem checkAmp_eq {seen : Grammar.Parameters} (settled : seen.amp = none ∨ seen.optional = true)
    (p : Parser) : checkAmp seen p = p := by
  rw [checkAmp]
  split
  · rename_i isAmp
    cases settled with
    | inl none => rw [none] at isAmp; contradiction
    | inr optional => simp [optional]
  · rfl

theorem Ahead.not_amp {param : Parameter} (ahead : Ahead r (name param.name :: k) p) :
    p.current.text ≠ ['&'] := by
  rw [ahead.current_text]
  exact param.notAmp

theorem parametersLoop_ended {closer : Closer} (inside : Inside closer.kind p)
    (ahead : Ahead r (closer.item :: k) p) (turns : Nat) (seen : Grammar.Parameters) :
    parametersLoop form turns seen p = (seen, p) := by
  cases turns with
  | zero => rfl
  | succ turns => simp [parametersLoop, ahead.ended inside]

/-- After the mark, names are optional parameters up to the end. -/
theorem yields_optionalLoop (form : FormRule) {closer : Closer} (ps : List Parameter) (turns : Nat)
    (enough : ps.length ≤ turns) (seen : Grammar.Parameters) (marked : seen.amp.isSome = true)
    (inside : Inside closer.kind p)
    (ahead : Ahead r ((ps.map fun p => name p.name) ++ closer.item :: k) p) :
    (ps ≠ [] ∨ seen.optional = true → (parametersLoop form turns seen p).1.optional = true) ∧
      Yields r p (ps.map fun p => .node .optionalParam [nameLeaf r p.name]) (closer.item :: k)
        (parametersLoop form turns seen p).2 := by
  induction ps generalizing p turns seen with
  | nil =>
    rw [parametersLoop_ended inside ahead]
    exact ⟨fun some => by simpa using some, ahead.stays⟩
  | cons param ps ih =>
    cases turns with
    | zero => contradiction
    | succ turns =>
      have ahead : Ahead r (name param.name :: ((ps.map fun p => name p.name) ++ closer.item :: k)) p :=
        ahead
      have first : Yields r p [.node .optionalParam [nameLeaf r param.name]] _
          (p.node .optionalParam Parser.advance).2 :=
        .node rfl ahead.begun.advance
      obtain ⟨optional, rest⟩ := ih turns (by simpa using enough) { seen with optional := true } marked
        (first.inside inside) first.ahead
      simp only [parametersLoop, ahead.going_name, ahead.atSymbol, ahead.not_amp, marked]
      exact ⟨fun _ => optional (.inr rfl), first.trans rest⟩

/-- Before the mark, names are parameters by position. -/
theorem yields_parametersLoop (form : FormRule) {closer : Closer} (fixed optional : List Parameter) (turns : Nat)
    (enough : ((fixed.map fun p => name p.name) ++ optionalItems optional).length ≤ turns)
    (inside : Inside closer.kind p)
    (ahead : Ahead r ((fixed.map fun p => name p.name) ++ (optionalItems optional ++ closer.item :: k))
      p) :
    (∀ q, checkAmp (parametersLoop form turns ⟨none, false, false⟩ p).1 q = q) ∧
      Yields r p ((fixed.map fun p => .node .fixedParam [nameLeaf r p.name]) ++
        optionalSketches r optional) (closer.item :: k)
        (parametersLoop form turns ⟨none, false, false⟩ p).2 := by
  induction fixed generalizing p turns with
  | nil =>
    cases optional with
    | nil =>
      rw [parametersLoop_ended inside ahead]
      exact ⟨checkAmp_eq (.inl rfl), ahead.stays⟩
    | cons param ps =>
      -- The mark is seen for the first time, and at least one parameter follows it.
      cases turns with
      | zero => contradiction
      | succ turns =>
        have ahead : Ahead r (name ampName ::
            (((param :: ps).map fun p => name p.name) ++ closer.item :: k)) p := ahead
        have isAmp : p.current.text = ['&'] := ahead.current_text
        have first : Yields r p [.leaf (.amp, ['&'])] _ (p.advanceAs .amp) := ahead.advanceAs .amp
        obtain ⟨settled, rest⟩ := yields_optionalLoop form (param :: ps) turns
          (by simpa [optionalItems] using enough) ⟨some p.current.span, false, false⟩ rfl
          (first.inside inside) first.ahead
        simp only [parametersLoop, ahead.going_name, ahead.atSymbol, isAmp]
        exact ⟨checkAmp_eq (.inr (settled (.inl (by simp)))), first.trans rest⟩
  | cons param fixed ih =>
    cases turns with
    | zero => contradiction
    | succ turns =>
      have ahead : Ahead r (name param.name ::
          ((fixed.map fun p => name p.name) ++ (optionalItems optional ++ closer.item :: k))) p := ahead
      have first : Yields r p [.node .fixedParam [nameLeaf r param.name]] _
          (p.node .fixedParam Parser.advance).2 :=
        .node rfl ahead.begun.advance
      obtain ⟨settled, rest⟩ := ih turns (by simpa using enough) (first.inside inside) first.ahead
      simp only [parametersLoop, ahead.going_name, ahead.atSymbol, ahead.not_amp]
      exact ⟨settled, first.trans rest⟩

theorem yields_parameters (form : FormRule) {ps : Parameters} (ahead : Ahead r (ps.items ++ k) p) :
    Yields r p [ps.sketch r] k (parameters form p) := by
  rw [Parameters.items, inBrackets_append, List.append_assoc] at ahead
  obtain ⟨opened, inside⟩ := ahead.begun.openSequence rightBracket rfl "parameters"
  have enough := opened.spelled.length_le
  rw [← List.append_assoc, List.length_append] at enough
  obtain ⟨settled, filled⟩ := yields_parametersLoop form ps.fixed ps.optional _
    (Nat.le_of_add_right_le enough) inside opened
  refine .node rfl ?_
  have closed := ahead.begun.enclosed rfl filled
  simp only [settled]
  exact closed

theorem Parameters.starts (ps : Parameters) (k : List Item) : Starts (firstKind r (ps.items ++ k)) :=
  (by decide : Starts .leftBracket)

/-! ## Arities -/

theorem yields_arityParts (readsBack : ReadsBack r form depth) {closer : Closer} {ps : Parameters}
    {body : Form} (shallow : body.depth ≤ depth) (inside : Inside closer.kind p)
    (ahead : Ahead r (ps.items ++ (body.items ++ closer.item :: k)) p) :
    Yields r p [ps.sketch r, body.sketch r] (closer.item :: k) (arityParts form p) := by
  have first := yields_parameters form ahead
  obtain ⟨c, q, read, second⟩ := readsBack.reads body shallow _ _ first.ahead
  have whole := first.trans second
  unfold arityParts
  rw [expectForm_eq first.ahead, read]
  simp only [second.ahead.ended (whole.inside inside), if_true]
  exact whole

theorem Ahead.isAt_parameters {ps : Parameters} (ahead : Ahead r (ps.items ++ k) p) :
    p.isAt .leftBracket = true :=
  ahead.isAt_eq .leftBracket

theorem yields_bareArity (readsBack : ReadsBack r form depth) {closer : Closer} {ps : Parameters}
    {body : Form} (shallow : body.depth ≤ depth) (inside : Inside closer.kind p)
    (ahead : Ahead r (ps.items ++ (body.items ++ closer.item :: k)) p) :
    Yields r p [.node .arity [ps.sketch r, body.sketch r]] (closer.item :: k) (bareArity form p) :=
  .node rfl (yields_arityParts readsBack shallow inside ahead.begun)

theorem yields_groupedArity (readsBack : ReadsBack r form depth) {ps : Parameters} {body : Form}
    (shallow : body.depth ≤ depth) (ahead : Ahead r (inParens (ps.items ++ body.items) ++ k) p) :
    Yields r p [.node .arity (between .leftParen .rightParen [ps.sketch r, body.sketch r])] k
      (groupedArity form p) := by
  rw [inParens_append, List.append_assoc] at ahead
  obtain ⟨opened, inside⟩ := ahead.begun.openSequence rightParen rfl "arity"
  have filled := yields_arityParts readsBack shallow inside opened
  refine .node rfl ?_
  have closed := ahead.begun.enclosed rfl filled
  simp only [opened.isAt_parameters, if_true]
  exact closed

def Arities.length : Arities → Nat
  | .last .. => 1
  | .cons _ _ rest => rest.length + 1

theorem Arities.length_le_items : (as : Arities) → as.length ≤ as.items.length
  | .last ps body => by simp [Arities.length, Arities.items, inParens]
  | .cons ps body rest => by
    have := rest.length_le_items
    simp only [Arities.length, Arities.items, inParens, List.length_append, List.length_cons]
    omega

theorem Arities.isAt_leftParen {as : Arities} (ahead : Ahead r (as.items ++ k) p) :
    p.isAt .leftParen = true := by
  cases as <;> exact ahead.isAt_eq .leftParen

theorem groupedArities_eq {closer : Closer} (ahead : Ahead r (closer.item :: k) p) (turns : Nat) :
    groupedArities form turns p = p := by
  cases turns with
  | zero => rfl
  | succ turns =>
    have closes := closer.closes
    have notParen : p.isAt .leftParen = false := by
      rw [ahead.isAt_eq]
      refine beq_eq_false_iff_ne.mpr fun isParen => ?_
      rw [show closer.kind = .leftParen from isParen] at closes
      contradiction
    simp [groupedArities, notParen]

theorem yields_groupedArities (readsBack : ReadsBack r form depth) {closer : Closer} (turns : Nat)
    (as : Arities) (shallow : as.depth ≤ depth) (enough : as.length ≤ turns)
    (ahead : Ahead r (as.items ++ closer.item :: k) p) :
    Yields r p (as.sketch r) (closer.item :: k) (groupedArities form turns p) := by
  induction turns generalizing as p with
  | zero => cases as <;> contradiction
  | succ turns ih =>
    rw [groupedArities, Arities.isAt_leftParen ahead, if_pos rfl]
    cases as with
    | last ps body =>
      have first := yields_groupedArity readsBack shallow ahead
      rw [groupedArities_eq first.ahead]
      exact first
    | cons ps body rest =>
      simp only [Arities.depth, Nat.max_le] at shallow
      rw [Arities.items, List.append_assoc] at ahead
      have first := yields_groupedArity readsBack shallow.1 ahead
      exact first.trans (ih rest shallow.2 (Nat.le_of_succ_le_succ enough) first.ahead)

theorem yields_arities (readsBack : ReadsBack r form depth) {closer : Closer} {as : Arities}
    (shallow : as.depth ≤ depth) (ahead : Ahead r (as.items ++ closer.item :: k) p) :
    Yields r p (as.sketch r) (closer.item :: k) (arities form p) := by
  have isParen := Arities.isAt_leftParen ahead
  have notBracket : p.isAt .leftBracket = false := by
    rw [isAt, beq_iff_eq] at isParen
    rw [isAt, isParen]
    decide
  have enough := ahead.spelled.length_le
  have := as.length_le_items
  rw [List.length_append] at enough
  rw [arities, notBracket, isParen]
  exact yields_groupedArities readsBack _ as shallow (by omega) ahead

/-! ## Bindings -/

theorem yields_binding (readsBack : ReadsBack r form depth) {n : Name} {value : Form}
    (shallow : value.depth ≤ depth) (ahead : Ahead r (name n :: (value.items ++ k)) p) :
    Yields r p [bindingSketch r n (value.sketch r)] k (binding form p) := by
  have first := yields_symbol ahead.begun
  obtain ⟨c, q, read, second⟩ := readsBack.reads value shallow _ k first.ahead
  refine .node rfl ?_
  rw [expectForm_eq first.ahead, read]
  exact first.trans second

def Bindings.length : Bindings → Nat
  | .nil => 0
  | .cons _ _ rest => rest.length + 1

theorem Bindings.length_le_items : (bs : Bindings) → bs.length ≤ bs.items.length
  | .nil => Nat.le_refl 0
  | .cons n value rest => by
    have := rest.length_le_items
    simp only [Bindings.length, Bindings.items, List.length_cons, List.length_append]
    omega

theorem yields_bindingsLoop (readsBack : ReadsBack r form depth) {closer : Closer} (single : Bool)
    (turns : Nat) (bs : Bindings) (shallow : bs.depth ≤ depth) (enough : bs.length ≤ turns)
    (seen : Grammar.Bindings) (few : single = true → seen.count + bs.length ≤ 1)
    (inside : Inside closer.kind p) (ahead : Ahead r (bs.items ++ closer.item :: k) p) :
    (bindingsLoop form single turns seen p).1.count = seen.count + bs.length ∧
      Yields r p (bs.sketch r) (closer.item :: k) (bindingsLoop form single turns seen p).2 := by
  induction turns generalizing p bs seen with
  | zero =>
    cases bs with
    | nil => exact ⟨rfl, ahead.stays⟩
    | cons => contradiction
  | succ turns ih =>
    cases bs with
    | nil =>
      rw [bindingsLoop, ahead.ended inside]
      exact ⟨rfl, ahead.stays⟩
    | cons n value rest =>
      simp only [Bindings.depth, Nat.max_le] at shallow
      simp only [Bindings.length] at few enough ⊢
      have ahead : Ahead r (name n :: (value.items ++ (rest.items ++ closer.item :: k))) p := by
        simpa [Bindings.items] using ahead
      -- If only one binding is allowed then this is the first.
      have room : (single && seen.count == 1) = false := by
        cases single with
        | false => rfl
        | true =>
          have := few rfl
          simp only [Bool.true_and, beq_eq_false_iff_ne]
          omega
      have first := yields_binding readsBack shallow.1 ahead
      obtain ⟨count, more⟩ := ih rest shallow.2 (by omega) ⟨seen.count + 1, seen.recovered⟩
        (fun one => by have := few one; simp only; omega) (first.inside inside) first.ahead
      simp only [bindingsLoop, ahead.going_name, ahead.atSymbol, room]
      refine ⟨?_, first.trans more⟩
      simp only [Bool.false_eq_true, if_false, Bool.not_true, count]
      omega

theorem yields_bindings (readsBack : ReadsBack r form depth) (single : Bool) {bs : Bindings}
    (shallow : bs.depth ≤ depth) (one : single = true → bs.length = 1)
    (ahead : Ahead r (inBrackets bs.items ++ k) p) :
    ∃ q, bindings form single p = (true, q) ∧ Yields r p [bindingsSketch (bs.sketch r)] k q := by
  have isBracket : p.isAt .leftBracket = true := ahead.isAt_eq .leftBracket
  rw [inBrackets_append] at ahead
  obtain ⟨opened, inside⟩ := ahead.begun.openSequence rightBracket rfl "bindings"
  have enough := opened.spelled.length_le
  have := bs.length_le_items
  rw [List.length_append] at enough
  obtain ⟨count, filled⟩ := yields_bindingsLoop readsBack single
    (p.begun.openSequence "bindings").rest.length bs shallow (by omega) ⟨0, false⟩
    (fun h => by have := one h; simp only; omega) inside opened
  have closed := ahead.begun.enclosed rfl filled
  rw [bindings, isBracket, if_pos rfl]
  refine ⟨_, rfl, .node rfl ?_⟩
  -- The loop has counted all bindings, so where one is asked for there is one.
  have there : (single && (bindingsLoop form single (p.begun.openSequence "bindings").rest.length
      ⟨0, false⟩ (p.begun.openSequence "bindings")).1.count == 0) = false := by
    cases single with
    | false => rfl
    | true =>
      have := one rfl
      rw [count]
      simp only [Bool.true_and, beq_eq_false_iff_ne]
      omega
  simp only [there, Bool.false_and, Bool.false_eq_true, if_false]
  exact closed

theorem yields_boundBody (readsBack : ReadsBack r form depth) {closer : Closer} {single : Bool}
    {bs : Bindings} {body : List Form} (shallow : bs.depth ≤ depth)
    (one : single = true → bs.length = 1) (shallowBody : Form.depthAll body ≤ depth)
    (inside : Inside closer.kind p)
    (ahead : Ahead r (inBrackets bs.items ++ (Form.itemsAll body ++ closer.item :: k)) p) :
    Yields r p (bindingsSketch (bs.sketch r) :: Form.sketchAll r body) (closer.item :: k)
      (boundBody form single p) := by
  obtain ⟨q, read, first⟩ := yields_bindings readsBack single shallow one ahead
  rw [boundBody, read]
  exact first.trans (yields_sequence readsBack shallowBody (first.inside inside) first.ahead)

/-- A binding and one form, or two. The second is read by the rule itself, which finds none at the end. -/
theorem yields_boundBranches (readsBack : ReadsBack r form depth) {closer : Closer} {bs : Bindings}
    {consequence : Form} (alternative : Option Form)
    (shallow : bs.depth ≤ depth) (one : bs.length = 1) (shallowThen : consequence.depth ≤ depth)
    (shallowElse : ∀ f ∈ alternative, f.depth ≤ depth) (inside : Inside closer.kind p)
    (ahead : Ahead r (inBrackets bs.items ++ (consequence.items ++
      (Form.itemsAll alternative.toList ++ closer.item :: k))) p) :
    Yields r p (bindingsSketch (bs.sketch r) :: consequence.sketch r ::
      Form.sketchAll r alternative.toList) (closer.item :: k) (boundBranches form p) := by
  obtain ⟨q, read, first⟩ := yields_bindings readsBack true shallow (fun _ => one) ahead
  obtain ⟨c, q', read', second⟩ := readsBack.reads consequence shallowThen _ _ first.ahead
  have both := first.trans second
  simp only [boundBranches, read, expectForm_eq first.ahead, read']
  cases alternative with
  | none =>
    rw [readsBack.atEnd q' (both.ahead.ended (both.inside inside))]
    exact both
  | some f =>
    have ahead' : Ahead r (f.items ++ closer.item :: k) q' := by
      simpa [Form.itemsAll] using both.ahead
    obtain ⟨c', q'', read'', third⟩ := readsBack.reads f (shallowElse f rfl) _ _ ahead'
    rw [read'']
    exact both.trans third

end Writing

end LispSyntax
