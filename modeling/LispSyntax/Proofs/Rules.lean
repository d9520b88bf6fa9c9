import LispSyntax.Grammar.Special

/-! # Rules in parts

A rule for a vector, an arity or a binding form is one thing after the other: what stands between two brackets, what
follows a vector that was found, what follows a form that was read. The parts get names here, and the rules are put
together from them, so that what holds of a rule can be shown for its parts.
-/

namespace LispSyntax

namespace Grammar

variable {form : FormRule} {single : Bool} {p : Parser}

/-! ## Parameters and arities -/

def parameterList (form : FormRule) (p : Parser) : Parser :=
  checkAmp (parametersLoop form p.rest.length ⟨none, false, false⟩ p).1
    (parametersLoop form p.rest.length ⟨none, false, false⟩ p).2

theorem parameters_eq (form : FormRule) (p : Parser) : parameters form p =
    (p.node .paramList fun p => (parameterList form (p.openSequence "parameters")).closeSequence).2 :=
  rfl

def arityEnd (form : FormRule) (body : Option Completed) (p : Parser) : Parser :=
  match body with
  | none => p
  | some _ => if p.atSequenceEnd then p else recover form .extraBody p

theorem arityParts_eq (form : FormRule) (p : Parser) : arityParts form p =
    arityEnd form (expectForm form .noBody (parameters form p)).1
      (expectForm form .noBody (parameters form p)).2 := by
  unfold arityParts
  generalize expectForm form .noBody (parameters form p) = r
  obtain ⟨v, q⟩ := r
  cases v <;> rfl

def arityInside (form : FormRule) (p : Parser) : Parser :=
  if p.isAt .leftBracket then arityParts form p else recover form .noParameters p

theorem groupedArity_eq (form : FormRule) (p : Parser) : groupedArity form p =
    (p.node .arity fun p => (arityInside form (p.openSequence "arity")).closeSequence).2 :=
  rfl

/-! ## Bindings -/

def bindingList (form : FormRule) (single : Bool) (p : Parser) : Parser :=
  if single && (bindingsLoop form single p.rest.length ⟨0, false⟩ p).1.count == 0 &&
      !(bindingsLoop form single p.rest.length ⟨0, false⟩ p).1.recovered
    then (bindingsLoop form single p.rest.length ⟨0, false⟩ p).2.report .noBinding
    else (bindingsLoop form single p.rest.length ⟨0, false⟩ p).2

def bindingVector (form : FormRule) (single : Bool) (p : Parser) : Parser :=
  (p.node .bindings fun p => (bindingList form single (p.openSequence "bindings")).closeSequence).2

theorem bindings_of_bracket (isBracket : p.isAt .leftBracket = true) :
    bindings form single p = (true, bindingVector form single p) := by
  rw [bindings, if_pos isBracket]
  rfl

theorem bindings_of_no_bracket (noBracket : p.isAt .leftBracket = false) :
    bindings form single p = (false, recover form .noBindings p) := by
  rw [bindings, if_neg (by simp [noBracket])]

/-- What follows a binding vector, if there is one. -/
def afterBindings (body : Parser → Parser) (found : Bool) (p : Parser) : Parser :=
  if found then body p else p

theorem boundBody_eq (form : FormRule) (single : Bool) (p : Parser) : boundBody form single p =
    afterBindings (sequence form) (bindings form single p).1 (bindings form single p).2 := by
  rw [boundBody]
  generalize bindings form single p = r
  obtain ⟨found, q⟩ := r
  cases found <;> rfl

def branches (form : FormRule) (p : Parser) : Parser :=
  match expectForm form .noTrueBranch p with
  | (none, p) => p
  | (some _, p) => (form p).2

theorem boundBranches_eq (form : FormRule) (p : Parser) : boundBranches form p =
    afterBindings (branches form) (bindings form true p).1 (bindings form true p).2 := by
  rw [boundBranches]
  generalize bindings form true p = r
  obtain ⟨found, q⟩ := r
  cases found <;> rfl

theorem boundBody_of_bracket (isBracket : p.isAt .leftBracket = true) :
    boundBody form single p = sequence form (bindingVector form single p) := by
  rw [boundBody_eq, bindings_of_bracket isBracket]
  rfl

theorem boundBody_of_no_bracket (noBracket : p.isAt .leftBracket = false) :
    boundBody form single p = recover form .noBindings p := by
  rw [boundBody_eq, bindings_of_no_bracket noBracket]
  rfl

theorem boundBranches_of_bracket (isBracket : p.isAt .leftBracket = true) :
    boundBranches form p = branches form (bindingVector form true p) := by
  rw [boundBranches_eq, bindings_of_bracket isBracket]
  exact if_pos rfl

theorem boundBranches_of_no_bracket (noBracket : p.isAt .leftBracket = false) :
    boundBranches form p = recover form .noBindings p := by
  rw [boundBranches_eq, bindings_of_no_bracket noBracket]
  rfl

def formAfter (form : FormRule) (before : Option Completed) (p : Parser) : Parser :=
  match before with
  | none => p
  | some _ => (form p).2

theorem branches_eq (form : FormRule) (p : Parser) : branches form p =
    formAfter form (expectForm form .noTrueBranch p).1 (expectForm form .noTrueBranch p).2 := by
  rw [branches]
  generalize expectForm form .noTrueBranch p = r
  obtain ⟨v, q⟩ := r
  cases v <;> rfl

end Grammar

end LispSyntax
