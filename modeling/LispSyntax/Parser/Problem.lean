import LispSyntax.Diagnostic
import LispSyntax.Kind

/-! # Structural problems

What the parser can find wrong with the order of tokens. Each cause is a constructor; the wording is in
one place, `StructuralProblem.message`.
-/

namespace LispSyntax

inductive StructuralProblem where
  -- Anywhere.
  | expectedCloser (closer : Kind)
  | unexpectedCloser (closer : Kind)
  | noKeywordName
  | notAForm
  | tooDeep
  -- Collections and quotes.
  | noMapValue
  | noMetadataMap
  | misplacedMetadata
  | nothingAfterMark (mark : Kind)
  | nothingToQuote
  -- Special forms.
  | extraForms (form : String)
  | nothingToLookUp
  | noLookupName
  | noLibrary
  | noAlias
  | noDefinitionName
  | noFunctionName
  | noExpanderName
  | noDefinitionValue
  -- Parameters and arities.
  | noArities
  | noParameters
  | noBody
  | extraBody
  | noParameterName
  | secondAmp
  | nothingAfterAmp
  -- Bindings.
  | noBindings
  | noTrueBranch
  | extraBinding
  | noBindingName
  | noBindingValue
  | noBinding
deriving DecidableEq, Repr

def spellingOf (kind : Kind) : String :=
  kind.spelling.getD ""

def StructuralProblem.message : StructuralProblem → String
  | expectedCloser closer => "expected `" ++ spellingOf closer ++ "`"
  | unexpectedCloser closer => "unexpected `" ++ spellingOf closer ++ "`"
  | noKeywordName => "expected a keyword name after `:`"
  | notAForm => "expected a form"
  | tooDeep => "form is nested too deeply"
  | noMapValue => "expected a value for this key"
  | noMetadataMap => "expected a map after `^`"
  | misplacedMetadata => "metadata is only allowed on `def`, `defn` and `defmacro`"
  | nothingAfterMark mark => "expected a form after `" ++ spellingOf mark ++ "`"
  | nothingToQuote => "expected a form to quote"
  | extraForms form => "unexpected form, expected `)` to close `" ++ form ++ "`"
  | nothingToLookUp => "expected an account or a symbol to look up"
  | noLookupName => "expected a symbol to look up"
  | noLibrary => "expected the name of a library to import"
  | noAlias => "expected an alias after `:as`"
  | noDefinitionName => "expected a symbol to name the definition"
  | noFunctionName => "expected a symbol to name the function"
  | noExpanderName => "expected a symbol to name the macro"
  | noDefinitionValue => "expected a value for the definition"
  | noArities => "expected a parameter vector or a list of arities"
  | noParameters => "expected a parameter vector"
  | noBody => "expected a body form"
  | extraBody => "expected exactly one body form"
  | noParameterName => "expected a parameter name"
  | secondAmp => "only one `&` is allowed in a parameter list"
  | nothingAfterAmp => "expected a parameter after `&`"
  | noBindings => "expected a binding vector"
  | noTrueBranch => "expected a form for the true branch"
  | extraBinding => "expected exactly one binding"
  | noBindingName => "expected a symbol to bind"
  | noBindingValue => "expected a value to bind"
  | noBinding => "expected a binding"

structure Report where
  problem : StructuralProblem
  span : Span
  context : Option String
deriving DecidableEq, Repr

def Report.diagnostic (r : Report) : Diagnostic :=
  ⟨.structural, r.problem.message, r.span, r.context⟩

end LispSyntax
