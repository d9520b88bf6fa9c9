import LispSyntax.Proofs.Completeness
import LispSyntax.Proofs.Height.Form
import LispSyntax.Registry.Core

/-! # Parsing is total and lossless

A text below the size limit is given back by its tree (`parse_lossless_iff`), and nothing on the way to the tree is a
fault (`parse_never_faults_iff`), just when slots can express the starts in its log. That is no matter of what the text
says: the tokens lie in it anyway, and every text is read to a draft of all its tokens. It is a matter of how many nodes
there are. Nodes do not nest without limit, so the log of a text of four megabytes fits, but a text of division signs has
a node for every two bytes, and two thirds of the size limit are enough for a log that does not fit.
-/

namespace LispSyntax

open Grammar

variable {text : Text} {r : Registry} {start : Parser} {d : Draft} {result : Parse}

/-! ## The text is given back -/

theorem Drafted.text_tree (drafted : Drafted text r start d) : (d.tree text).text = text := by
  rw [Draft.text_tree d drafted.lies, drafted.whole]

/-- The tree of a result has the text, and the root spans all of it. -/
theorem Parse.text_root (parsed : parse text r = .ok result) :
    result.root.text = text ∧ result.root.span = Span.ofSize 0 (Text.size text) := by
  obtain ⟨start, d, drafted, -⟩ := exists_drafted text r
  have whole : result.tree.text = text := by
    rw [drafted.eq_of_parse_eq_ok parsed]
    exact drafted.text_tree
  refine ⟨whole, ?_⟩
  rw [Parse.root, View.root, View.span, ← Tree.size_text, whole]

/-- A text below the size limit is parsed to a tree that has the text, with a root that spans all of it, just when its
log fits. That is so for every text up to some four megabytes. -/
theorem parse_lossless_iff (text : Text) (r : Registry) (small : Text.size text < sizeLimit) :
    ((∃ result, parse text r = .ok result ∧ result.root.text = text ∧
      result.root.span = Span.ofSize 0 (Text.size text)) ↔ LogFits text r) ∧
    ((8 * maxDepth + 5) * (Text.size text + 1) ≤ sizeLimit → LogFits text r) := by
  refine ⟨⟨?_, ?_⟩, logFits_of_small r⟩
  · rintro ⟨result, parsed, -⟩
    exact logFits_of_parse parsed
  · intro fits
    obtain ⟨result, parsed⟩ := exists_parse small fits
    exact ⟨result, parsed, Parse.text_root parsed⟩

/-- An unclosed function with a stray mark and a character outside the language. -/
def unclosedSample : Text :=
  "(defn f [x &\n  ^é ; no end".toList

/-- The sample is read without loss. -/
theorem parse_lossless_iff_unclosedSample :
    Text.size unclosedSample < sizeLimit ∧ LogFits unclosedSample Registry.core ∧
    ∃ result, parse unclosedSample Registry.core = .ok result ∧ result.root.text = unclosedSample ∧
      result.root.span = Span.ofSize 0 (Text.size unclosedSample) := by
  obtain ⟨lossless, fits⟩ := parse_lossless_iff unclosedSample Registry.core (by decide)
  exact ⟨by decide, fits (by decide), lossless.mpr (fits (by decide))⟩

/-- Positions can express all of so many division signs, but no tree gives them back. -/
theorem parse_divisions_not_lossless :
    Text.size (Writing.writeOut (Writing.divisions 1431655766)) < sizeLimit ∧
      ¬ ∃ result, parse (Writing.writeOut (Writing.divisions 1431655766)) .empty = .ok result ∧
        result.root.text = Writing.writeOut (Writing.divisions 1431655766) ∧
        result.root.span = Span.ofSize 0 (Text.size (Writing.writeOut (Writing.divisions 1431655766))) := by
  constructor
  · rw [Writing.size_writeOut_divisions]
    decide
  · rintro ⟨result, parsed, -⟩
    exact Writing.not_logFits_divisions .empty (by decide) (logFits_of_parse parsed)

/-! ## No fault -/

theorem exists_fault_iff (small : Text.size text < sizeLimit) :
    (∃ fault, parse text r = .error fault) ↔ ¬ LogFits text r := by
  constructor
  · rintro ⟨fault, faulted⟩ fits
    obtain ⟨result, parsed⟩ := exists_parse small fits
    rw [faulted] at parsed
    contradiction
  · intro misfit
    cases parsed : parse text r with
    | error fault => exact ⟨fault, rfl⟩
    | ok result => exact absurd (logFits_of_parse parsed) misfit

/-- The tokens of a text below the size limit lie in it and their positions can be expressed. If the log fits then the
parser keeps to the conditions of its operations, every node it starts is complete, and the log makes up one tree. So
parsing the text meets a fault just when the log does not fit. -/
theorem parse_never_faults_iff (text : Text) (r : Registry) (small : Text.size text < sizeLimit) :
    (∀ t ∈ (Token.tokenize text r).1, t.fullSpan.stop < sizeLimit ∧
      Text.slice? text t.span.start t.span.stop = some t.text) ∧
    (∃ start, Parser.ofTokens (Token.tokenize text r).1 (Scan.symbolKind r ['/']) = .ok start ∧
      (LogFits text r → (source start).fault = none ∧
        (∀ e ∈ (source start).events.toList, e.isTombstone = false) ∧
        ∃ tree, (source start).finish text (Token.tokenize text r).1 = .ok tree)) ∧
    ((∀ fault, parse text r ≠ .error fault) ↔ LogFits text r) := by
  obtain ⟨start, d, drafted, -⟩ := exists_drafted text r
  refine ⟨fun t member => ?_, ⟨start, drafted.started, fun fits => ?_⟩, ?_⟩
  · rw [← drafted.tokens] at member
    have lies := drafted.lies t member
    exact ⟨Nat.lt_of_le_of_lt lies.stop_le small, lies.slice?_eq_text⟩
  · obtain ⟨noFault, -⟩ := drafted.reads.logged (drafted.logFits_iff.mp fits)
    exact ⟨noFault, drafted.isTombstone_eq_false fits, _, drafted.finish_eq small fits⟩
  · rw [← not_exists, exists_fault_iff small, Classical.not_not]

/-- Delimiters that do not match, and a quote of nothing. -/
def mismatchedSample : Text :=
  "(let [a \x7d `) \"é".toList

/-- The sample is no reason for a fault. -/
theorem parse_never_faults_iff_mismatchedSample :
    Text.size mismatchedSample < sizeLimit ∧ LogFits mismatchedSample Registry.core ∧
    (∀ t ∈ (Token.tokenize mismatchedSample Registry.core).1, t.fullSpan.stop < sizeLimit ∧
      Text.slice? mismatchedSample t.span.start t.span.stop = some t.text) ∧
    (∃ start, Parser.ofTokens (Token.tokenize mismatchedSample Registry.core).1
        (Scan.symbolKind Registry.core ['/']) = .ok start ∧
      (source start).fault = none ∧ (∀ e ∈ (source start).events.toList, e.isTombstone = false) ∧
      ∃ tree, (source start).finish mismatchedSample (Token.tokenize mismatchedSample Registry.core).1 = .ok tree) ∧
    ∀ fault, parse mismatchedSample Registry.core ≠ .error fault := by
  have fits : LogFits mismatchedSample Registry.core := logFits_of_small _ (by decide)
  obtain ⟨tokens, ⟨start, started, holds⟩, never⟩ := parse_never_faults_iff mismatchedSample Registry.core (by decide)
  exact ⟨by decide, fits, tokens, ⟨start, started, holds fits⟩, never.mpr fits⟩

/-- One division sign more is a fault as well. -/
theorem parse_divisions_faults :
    Text.size (Writing.writeOut (Writing.divisions 1431655767)) < sizeLimit ∧
      ∃ fault, parse (Writing.writeOut (Writing.divisions 1431655767)) .empty = .error fault := by
  have small : Text.size (Writing.writeOut (Writing.divisions 1431655767)) < sizeLimit := by
    rw [Writing.size_writeOut_divisions]
    decide
  exact ⟨small, (exists_fault_iff small).mpr (Writing.not_logFits_divisions .empty (by decide))⟩

end LispSyntax
