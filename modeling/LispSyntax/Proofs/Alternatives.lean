import LispSyntax.Grammar.Form
import LispSyntax.Proofs.Run

/-! # The alternatives of a form

The rule for a form goes by the kind of the next token and by nothing else. `Alternative` lists what it can come to,
and `formAt_cases` says that it comes to one of them. The kind is fixed before the rule for the forms inside, and
before the state, so two rules, or two states with the same token ahead, come to the same alternative.
-/

namespace LispSyntax

namespace Grammar

open LispSyntax.Parser

variable {p : Parser} {t : Token} {ts : List Token} {kind : Kind}

theorem snd_counted (r : Completed × Parser) : (counted r).2 = r.2 :=
  rfl

/-- A kind of token with which nothing starts that the rule for a form knows, not even an error of its own. -/
structure Formless (kind : Kind) : Prop where
  noLiteral : kind.isLiteralToken = false
  noSymbol : kind.isSymbolToken = false
  noSlash : kind ≠ .slash
  noOpener : kind.closer? = none
  noCloser : kind.isCloser = false
  noMark : marks.contains kind = false
  readable : kind ≠ .unknown
  notEnd : kind ≠ .eof

/-- What the rule for a form does where the next token has the kind. -/
inductive Alternative (kind : Kind) : (FormRule → FormRule) → Prop
  | address (isAddress : kind = .address) : Alternative kind fun _ p => counted (infixLookup (literal p))
  | literal (isLiteral : kind.isLiteralToken = true) (noAddress : kind ≠ .address) :
      Alternative kind fun _ p => counted (literal p)
  | symbol (isSymbol : kind.isSymbolToken = true) : Alternative kind fun _ p => counted (infixLookup (symbol p))
  | slash (isSlash : kind = .slash) :
      Alternative kind fun _ p => counted (p.node .symbol fun p => p.advanceAs p.slashKind)
  | parenthesized (isParen : kind = .leftParen) : Alternative kind fun form p => counted (parenthesized form p)
  | vector (isBracket : kind = .leftBracket) : Alternative kind fun form p => counted (vector form p)
  | map (isBrace : kind = .leftBrace) : Alternative kind fun form p => counted (map form p)
  | set (isHashBrace : kind = .hashLeftBrace) : Alternative kind fun form p => counted (set form p)
  | marked (isMark : kind = .quoteMark ∨ kind = .backtick ∨ kind = .tilde) :
      Alternative kind fun form p => counted (markedForm form p)
  | metadata (isCaret : kind = .caret) : Alternative kind fun form p => counted (misplacedMetadata form p)
  | unknown (isUnknown : kind = .unknown) : Alternative kind fun _ p => counted (p.node .error Parser.advance)
  | stray (isCloser : kind.isCloser = true) :
      Alternative kind fun _ p => (none, (badToken (.unexpectedCloser p.kind) p).2)
  | bad {problem : StructuralProblem} (isBad : problem = .noKeywordName ∨ problem = .notAForm)
      (formless : Formless kind) : Alternative kind fun _ p => counted (badToken problem p)

theorem exists_alternative (notEnd : kind ≠ .eof) :
    ∃ rule, Alternative kind rule ∧ ∀ form p, p.kind = kind → formAt form p = rule form p := by
  cases kind
  case eof => contradiction
  case address => exact ⟨_, .address rfl, fun _ _ met => by simp only [formAt, met]⟩
  case nilWord | trueWord | falseWord | char | string | bytes | int | float | keyword =>
    exact ⟨_, .literal rfl (by decide), fun _ _ met => by simp only [formAt, met]⟩
  case name | builtinSymbol | builtinFunction => exact ⟨_, .symbol rfl, fun _ _ met => by simp only [formAt, met]⟩
  case slash => exact ⟨_, .slash rfl, fun _ _ met => by simp only [formAt, met]⟩
  case leftParen => exact ⟨_, .parenthesized rfl, fun _ _ met => by simp only [formAt, met]⟩
  case leftBracket => exact ⟨_, .vector rfl, fun _ _ met => by simp only [formAt, met]⟩
  case leftBrace => exact ⟨_, .map rfl, fun _ _ met => by simp only [formAt, met]⟩
  case hashLeftBrace => exact ⟨_, .set rfl, fun _ _ met => by simp only [formAt, met]⟩
  case quoteMark => exact ⟨_, .marked (.inl rfl), fun _ _ met => by simp only [formAt, met]⟩
  case backtick => exact ⟨_, .marked (.inr (.inl rfl)), fun _ _ met => by simp only [formAt, met]⟩
  case tilde => exact ⟨_, .marked (.inr (.inr rfl)), fun _ _ met => by simp only [formAt, met]⟩
  case caret => exact ⟨_, .metadata rfl, fun _ _ met => by simp only [formAt, met]⟩
  case unknown => exact ⟨_, .unknown rfl, fun _ _ met => by simp only [formAt, met]⟩
  case rightParen | rightBracket | rightBrace => exact ⟨_, .stray rfl, fun _ _ met => by simp only [formAt, met]⟩
  case colon =>
    refine ⟨_, .bad (.inl rfl) ?_, fun _ _ met => by simp only [formAt, met]⟩
    exact ⟨rfl, rfl, by decide, rfl, rfl, by decide, by decide, by decide⟩
  all_goals
    refine ⟨_, .bad (.inr rfl) ?_, fun _ _ met => by simp only [formAt, met]⟩
    exact ⟨rfl, rfl, by decide, rfl, rfl, by decide, by decide, by decide⟩

/-- Where a sequence goes on, the rule for a form comes to one of its alternatives. -/
theorem formAt_cases (going : p.atSequenceEnd = false) (rest : p.rest = t :: ts) :
    ∃ rule, Alternative t.kind rule ∧ ∀ form q, q.kind = t.kind → formAt form q = rule form q :=
  exists_alternative (kind_of_rest rest ▸ kind_ne_eof_of_not_atSequenceEnd going)

/-! ## One alternative -/

theorem formAt_symbol (form : FormRule) (isSymbol : p.atSymbol = true) :
    formAt form p = counted (infixLookup (symbol p)) := by
  unfold atSymbol at isSymbol
  unfold formAt
  generalize p.kind = kind at isSymbol
  cases kind <;> first | contradiction | rfl

/-- Only an address can be an account. -/
theorem formAt_literal (form : FormRule) (isLiteral : p.kind.isLiteralToken = true) :
    formAt form p =
      counted (if p.kind = .address then infixLookup (literal p) else literal p) := by
  unfold formAt
  generalize p.kind = kind at isLiteral
  cases kind <;> first | contradiction | rfl

/-- A closing token does not count as a form. -/
theorem formAt_closer (form : FormRule) (isCloser : p.kind.isCloser = true) : (formAt form p).1 = none := by
  unfold formAt
  generalize p.kind = kind at isCloser
  cases kind <;> first | contradiction | rfl

end Grammar

end LispSyntax
