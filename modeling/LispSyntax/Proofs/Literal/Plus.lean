import LispSyntax.Proofs.Layout
import LispSyntax.Proofs.Literal.Decoding

/-! # Codes with a plus

A string that the decoder gives a value is closed, and the scanner found no fault with it but one. The scanner counts
the hex digits after `\u`; the decoder hands four characters to the reader of numbers, which takes a plus before three
digits (`StringPart.plusCode`). Such a code is reported and decoded all the same, and it is the only thing that is
(`diagnostics_of_decoded`).
-/

namespace LispSyntax

open Lexical Writing Scan

/-! ## Numbers in hexadecimal -/

namespace Number

theorem isHexDigit_of_hexValue? {c : Char} {d : Nat} (value : Text.hexValue? c = some d) :
    Text.isHexDigit c = true := by
  unfold Text.hexValue? at value
  unfold Text.isHexDigit
  split at value
  · rename_i isDigit
    simp [isDigit]
  split at value
  · rename_i isLower
    simp [isLower]
  split at value
  · rename_i isUpper
    simp [isUpper]
  · contradiction

theorem digital_of_digitsValue? {base n : Nat} {digits : Text} (value : digitsValue? base digits = some n) :
    ∀ c ∈ digits, Text.isHexDigit c = true := by
  -- From the right, where the last step read the last digit.
  induction digits using List.reverseRecOn generalizing n with
  | nil => simp
  | append_singleton digits c inductionHypothesis =>
    rw [digitsValue?_append] at value
    split at value
    · rename_i before last
      intro d member
      cases List.mem_append.mp member with
      | inl inside => exact inductionHypothesis before d inside
      | inr isLast =>
        rw [List.mem_singleton.mp isLast]
        exact isHexDigit_of_hexValue? last
    · contradiction

theorem digital_of_digits? {base n : Nat} {digits : Text} (value : digits? base digits = some n) :
    ∀ c ∈ digits, Text.isHexDigit c = true := by
  unfold digits? at value
  split at value
  · contradiction
  · exact digital_of_digitsValue? value

/-- What is read as a number in hexadecimal is digits, or a plus and digits. -/
theorem digital_of_hex? {n : Nat} {text : Text} (value : hex? text = some n) :
    (∀ c ∈ text, Text.isHexDigit c = true) ∨
      ∃ digits, text = '+' :: digits ∧ ∀ c ∈ digits, Text.isHexDigit c = true := by
  unfold hex? unsigned? at value
  split at value
  · exact .inr ⟨_, rfl, digital_of_digits? value⟩
  · exact .inl (digital_of_digits? value)

end Number

/-! ## Parts of a string -/

/-- What the decoder reads at once: an item, or a code with a plus in place of its first digit. -/
inductive StringPart where
  | item (item : StringItem)
  | plusCode (digits : Text) (three : digits.length = 3) (digital : ∀ c ∈ digits, Text.isHexDigit c = true)

namespace StringPart

def text : StringPart → Text
  | item i => i.text
  | plusCode digits _ _ => '\\' :: 'u' :: '+' :: digits

/-- What the scanner reports of a part at the offset: the backslash and the letter of a code with a plus. -/
def marks (offset : Nat) : StringPart → List Span
  | item _ => []
  | plusCode .. => [Span.ofSize offset 2]

/-- What the scanner reports of parts that start at the offset. -/
def marksFrom (offset : Nat) : List StringPart → List Span
  | [] => []
  | part :: parts => part.marks offset ++ marksFrom (offset + Text.size part.text) parts

theorem marksFrom_eq_nil_iff {offset : Nat} {parts : List StringPart} :
    marksFrom offset parts = [] ↔ ∀ part ∈ parts, ∃ i, part = item i := by
  induction parts generalizing offset with
  | nil => simp [marksFrom]
  | cons part parts inductionHypothesis =>
    rw [marksFrom, List.append_eq_nil_iff, inductionHypothesis, List.forall_mem_cons]
    cases part <;> simp [marks]

/-- The scanner goes through the text part by part. -/
theorem stringBody_part (part : StringPart) (offset : Nat) (rest : Text) :
    stringBody offset (part.text ++ rest) =
      { stringBody (offset + Text.size part.text) rest with
        text := part.text ++ (stringBody (offset + Text.size part.text) rest).text
        badEscapes := part.marks offset ++ (stringBody (offset + Text.size part.text) rest).badEscapes } := by
  have backslash : '\\'.utf8Size = 1 := rfl
  have ordinary : ∀ digits : Text, (∀ c ∈ digits, Text.isHexDigit c = true) →
      ∀ c ∈ digits, c ≠ '"' ∧ c ≠ '\\' :=
    fun _ digital c member => ⟨ne_of_class (digital c member) rfl, ne_of_class (digital c member) rfl⟩
  cases part with
  | item i =>
    cases i with
    | plain c isOrdinary =>
      simp [text, marks, StringItem.text, Text.size_cons, stringBody_plain offset isOrdinary, StringBody.cons]
    | escape c notCode =>
      simp [text, marks, StringItem.text, Text.size_cons, stringBody, notCode, StringBody.cons, backslash,
        Nat.add_assoc]
    | code digits =>
      have good : badEscape? offset (digits.text ++ rest) = [] := by
        simp [badEscape?, hexRun_code, digits.four]
      have place : offset + Text.size (text (.item (.code digits))) =
          offset + 1 + 'u'.utf8Size + Text.size digits.text := by
        simp only [text, StringItem.text, Text.size_cons]
        omega
      rw [place]
      simp [text, marks, StringItem.text, stringBody, good, StringBody.cons, StringBody.flag,
        stringBody_ordinary _ (ordinary _ digits.digital)]
  | plusCode digits three digital =>
    have bad : badEscape? offset ('+' :: (digits ++ rest)) = [Span.ofSize offset 2] := by
      have none : hexRun ('+' :: (digits ++ rest)) = [] := rfl
      simp [badEscape?, none]
    have place : offset + Text.size (text (.plusCode digits three digital)) =
        offset + 1 + 'u'.utf8Size + '+'.utf8Size + Text.size digits := by
      simp only [text, Text.size_cons]
      omega
    rw [place]
    simp [text, marks, stringBody, bad, StringBody.cons, StringBody.flag, stringBody_plain _ (c := '+') (by decide),
      stringBody_ordinary _ (ordinary _ digital)]

theorem stringBody_parts_append (parts : List StringPart) (offset : Nat) (rest : Text) :
    stringBody offset (parts.flatMap text ++ '"' :: rest) =
      ⟨parts.flatMap text ++ ['"'], rest, true, marksFrom offset parts⟩ := by
  induction parts generalizing offset with
  | nil => simp [stringBody, marksFrom]
  | cons part parts inductionHypothesis =>
    rw [List.flatMap_cons, List.append_assoc, stringBody_part, inductionHypothesis, marksFrom, List.append_assoc]

/-- The decoder takes four characters for a code, whatever they are. -/
theorem exists_four_of_unescape? {ds chars : Text} (decoded : Literal.unescape? ('\\' :: 'u' :: ds) = some chars) :
    ∃ w x y z rest, ds = w :: x :: y :: z :: rest := by
  rcases ds with _ | ⟨w, _ | ⟨x, _ | ⟨y, _ | ⟨z, rest⟩⟩⟩⟩
  case cons.cons.cons.cons => exact ⟨w, x, y, z, rest, rfl⟩
  all_goals simp [Literal.unescape?] at decoded

/-- What is decoded starts with a part, unless it starts with a quote. -/
theorem exists_part {c : Char} {cs chars : Text} (decoded : Literal.unescape? (c :: cs) = some chars)
    (notQuote : c ≠ '"') :
    ∃ part rest chars', c :: cs = text part ++ rest ∧ Literal.unescape? rest = some chars' := by
  by_cases isEscape : c = '\\'
  · subst isEscape
    cases cs with
    | nil => simp [Literal.unescape?] at decoded
    | cons d ds =>
      by_cases isU : d = 'u'
      · subst isU
        obtain ⟨w, x, y, z, rest, rfl⟩ := exists_four_of_unescape? decoded
        simp only [Literal.unescape?, Option.bind_eq_bind, Option.bind_eq_some_iff] at decoded
        obtain ⟨code, number, char, -, chars', decodedRest, -⟩ := decoded
        cases Number.digital_of_hex? number with
        | inl digital => exact ⟨.item (.code ⟨[w, x, y, z], rfl, digital⟩), rest, chars', rfl, decodedRest⟩
        | inr withPlus =>
          obtain ⟨digits, same, digital⟩ := withPlus
          obtain ⟨rfl, rfl⟩ := List.cons.inj same
          exact ⟨.plusCode [x, y, z] rfl digital, rest, chars', rfl, decodedRest⟩
      · have item : '\\' :: d :: ds = (StringItem.escape d isU).text ++ ds := rfl
        rw [item, StringItem.unescape?_append] at decoded
        simp only [StringItem.decode?, Option.bind_some, Option.map_eq_some_iff] at decoded
        obtain ⟨chars', decodedRest, -⟩ := decoded
        exact ⟨.item (.escape d isU), ds, chars', rfl, decodedRest⟩
  · have item : c :: cs = (StringItem.plain c ⟨notQuote, isEscape⟩).text ++ cs := rfl
    rw [item, StringItem.unescape?_append] at decoded
    simp only [StringItem.decode?, Option.bind_some, Option.map_eq_some_iff] at decoded
    obtain ⟨chars', decodedRest, -⟩ := decoded
    exact ⟨.item (.plain c ⟨notQuote, isEscape⟩), cs, chars', rfl, decodedRest⟩

theorem text_ne_nil (part : StringPart) : part.text ≠ [] := by
  cases part with
  | item i => cases i <;> simp [text, StringItem.text]
  | plusCode => simp [text]

/-- What is decoded is parts, if the scanner reads it to the closing quote. -/
theorem exists_parts (offset : Nat) (body : Text) {chars : Text} (decoded : Literal.unescape? body = some chars)
    (uncut : (stringBody offset (body ++ ['"'])).text = body ++ ['"']) :
    ∃ parts : List StringPart, body = parts.flatMap text := by
  cases body with
  | nil => exact ⟨[], rfl⟩
  | cons c cs =>
    have notQuote : c ≠ '"' := by
      rintro rfl
      simp [stringBody] at uncut
    obtain ⟨part, rest, chars', split, decodedRest⟩ := exists_part decoded notQuote
    rw [split, List.append_assoc, stringBody_part] at uncut
    have shorter : rest.length < (c :: cs).length := by
      have positive := List.length_pos_iff.mpr part.text_ne_nil
      rw [split, List.length_append]
      omega
    obtain ⟨parts, rfl⟩ := exists_parts _ rest decodedRest (List.append_cancel_left uncut)
    exact ⟨part :: parts, split⟩
termination_by body.length

/-- The same of a whole token, for the reader of strings. -/
theorem exists_parts_of_readString? {cs chars : Text} (decoded : Literal.readString? ('"' :: cs) = some chars)
    (uncut : (stringBody 1 cs).text = cs) : ∃ parts : List StringPart, cs = parts.flatMap text ++ ['"'] := by
  obtain ⟨body, stripped, decoded⟩ := Option.bind_eq_some_iff.mp decoded
  obtain ⟨tail, opened, dropped⟩ := Option.bind_eq_some_iff.mp stripped
  obtain rfl : tail = cs := by simpa [Text.after?] using opened.symm
  unfold Literal.dropQuote? at dropped
  split at dropped
  · rename_i last
    obtain rfl := Option.some.inj dropped
    have whole := List.dropLast_append_getLast? _ last
    split at decoded
    · contradiction
    rw [← whole] at uncut
    obtain ⟨parts, same⟩ := exists_parts 1 _ decoded uncut
    exact ⟨parts, by rw [← same, whole]⟩
  · contradiction

end StringPart

/-! ## Tokens and their diagnostics -/

theorem Lexical.Recognises.string_cases {r : Registry} {rest lexeme : Text}
    (recognised : Recognises r rest .string lexeme) :
    IsString lexeme ∨ ['"'] <+: rest ∧ Absent IsString rest ∧ lexeme = rest := by
  generalize kindEq : Kind.string = kind at recognised
  cases recognised with
  | string isString _ => exact .inl isString
  | unterminated opens absent => exact .inr ⟨opens, absent, rfl⟩
  | number _ _ isNumber => cases isNumber <;> contradiction
  | reserved _ _ member =>
    subst kindEq
    simp [reservedWords] at member
  | symbol _ _ _ =>
    unfold Scan.symbolKind at kindEq
    split at kindEq <;> contradiction
  | fixed member _ =>
    subst kindEq
    simp [fixedLexemes] at member
  | _ => contradiction

/-- The scanner reads the text of a string to its end. -/
theorem Lexical.Recognises.exists_uncut {r : Registry} {rest lexeme : Text}
    (recognised : Recognises r rest .string lexeme) :
    ∃ cs, lexeme = '"' :: cs ∧ (stringBody 1 cs).text = cs := by
  cases recognised.string_cases with
  | inl isString =>
    obtain ⟨body, quoted, rfl⟩ := isString
    exact ⟨_, rfl, (quoted.stringBody_eq 1 []).1⟩
  | inr unterminated =>
    obtain ⟨⟨cs, rfl⟩, absent, rfl⟩ := unterminated
    exact ⟨cs, rfl, (stringBody_parts 1 cs).2 (Scan.closed_of_absent absent)⟩

namespace Token

def Holds (t : Token) (d : Diagnostic) : Prop :=
  t.span.start ≤ d.span.start ∧ d.span.stop ≤ t.span.stop

instance (t : Token) (d : Diagnostic) : Decidable (t.Holds d) :=
  inferInstanceAs (Decidable (_ ∧ _))

variable {text : Text} {r : Registry} {t : Token}

theorem holds_of_mem_diagnostics (member : t ∈ (tokenize text r).1) {d : Diagnostic} (own : d ∈ t.diagnostics) :
    t.Holds d ∧ d.span.start < d.span.stop := by
  obtain ⟨problem, isProblem, rfl⟩ := List.mem_map.mp own
  have within := part_of_mem_tokensFrom r 0 text t member problem isProblem
  have size := (placed_tokensFrom r 0 text).1.size t member
  simp only [Holds, Diagnostic.lexical, Span.shift]
  omega

/-- The diagnostics about a part of the token are its own. -/
theorem filter_holds_tokenize (member : t ∈ (tokenize text r).1) :
    (tokenize text r).2.filter (fun d => t.Holds d) = t.diagnostics := by
  obtain ⟨before, after, split⟩ := List.append_of_mem member
  have diagnostics : (tokenize text r).2 =
      before.flatMap diagnostics ++ (t.diagnostics ++ after.flatMap Token.diagnostics) := by
    rw [tokenize, diagnostics_tokensFrom, ← tokenize, split, List.flatMap_append, List.flatMap_cons]
  have apart := (placed_tokensFrom r 0 text).1.apart
  rw [← tokenize, split, List.pairwise_append, List.pairwise_cons] at apart
  obtain ⟨-, ⟨ahead, -⟩, behind⟩ := apart
  have noneBefore : (before.flatMap Token.diagnostics).filter (fun d => t.Holds d) = [] := by
    rw [List.filter_eq_nil_iff]
    intro d isDiagnostic inside
    have inside := of_decide_eq_true inside
    obtain ⟨u, isToken, own⟩ := List.mem_flatMap.mp isDiagnostic
    have place := holds_of_mem_diagnostics (split ▸ List.mem_append_left _ isToken) own
    have order := (behind u isToken t List.mem_cons_self).2
    simp only [Holds] at place inside
    omega
  have noneAfter : (after.flatMap Token.diagnostics).filter (fun d => t.Holds d) = [] := by
    rw [List.filter_eq_nil_iff]
    intro d isDiagnostic inside
    have inside := of_decide_eq_true inside
    obtain ⟨u, isToken, own⟩ := List.mem_flatMap.mp isDiagnostic
    have place := holds_of_mem_diagnostics
      (split ▸ List.mem_append_right _ (List.mem_cons_of_mem _ isToken)) own
    have order := (ahead u isToken).2
    simp only [Holds] at place inside
    omega
  have all : t.diagnostics.filter (fun d => t.Holds d) = t.diagnostics := by
    rw [List.filter_eq_self]
    intro d own
    exact decide_eq_true (holds_of_mem_diagnostics member own).1
  rw [diagnostics, List.filter_append, List.filter_append, noneBefore, noneAfter, all, List.nil_append,
    List.append_nil]

/-- What is reported of a string made of parts. -/
theorem diagnostics_of_parts (isString : t.kind = .string) {parts : List StringPart}
    (textEq : t.text = '"' :: (parts.flatMap StringPart.text ++ ['"'])) :
    t.diagnostics = (StringPart.marksFrom 1 parts).map fun mark =>
      .lexical LexicalProblem.badUnicodeEscape.message (mark.shift t.span.start) := by
  have read := StringPart.stringBody_parts_append parts 1 []
  simp [diagnostics, Lexeme.problemsOf, isString, textEq, Scan.string, read]

end Token

/-- A string that the accessor gives a value is closed, and what the scanner reported inside its token is one bad
escape for each code with a plus; so nothing was reported exactly if there is no such code. This holds of the node of
the token wherever it stands, and a literal in the tree of the text that shows the token is that node. -/
theorem diagnostics_of_decoded {text : Text} {r : Registry} {t : Token} (member : t ∈ (Token.tokenize text r).1)
    (isString : t.kind = .string) :
    (∀ l : Literal, l.IsOf text t → ∀ chars, l.asString = .ok (some chars) →
      ∃ parts : List StringPart, t.text = '"' :: (parts.flatMap StringPart.text ++ ['"']) ∧
        ((Token.tokenize text r).2.filter fun d => t.Holds d) =
          ((StringPart.marksFrom 1 parts).map fun mark =>
            .lexical LexicalProblem.badUnicodeEscape.message (mark.shift t.span.start)) ∧
        ((∀ d ∈ (Token.tokenize text r).2, ¬ t.Holds d) ↔ ∀ part ∈ parts, ∃ i, part = .item i)) ∧
    ∀ result, parse text r = .ok result → ∀ l : Literal, l.view ∈ result.root.descendants →
      ∀ x ∈ l.view.tokens, x.Shows t → l.IsOf text t := by
  constructor
  · intro l isOf chars decoded
    have lies := (Token.tiles_tokenize text r).liesIn [] rfl
    have kind : (LeafView.mk (t.leaf text t.kind) l.view.offset).kind = t.kind := Token.kind_leaf text t.kind t
    have token : l.token? = some ⟨t.leaf text t.kind, l.view.offset⟩ := by
      rw [Literal.token?, View.tokens_of_leaf isOf, List.find?_cons_of_pos]
      rw [kind, isString]
      rfl
    have trimmed : (t.leaf text t.kind).trimmed = .ok t.text := (lies.1 t member).trimmed_leaf t.kind
    have same : LiteralKind.ofToken? (LeafView.mk (t.leaf text t.kind) l.view.offset).kind = some .string := by
      rw [kind, isString]
      rfl
    have accessor : l.asString = .ok (Literal.readString? t.text) := by
      simp only [Literal.asString, Literal.readAs, token, same, if_true, trimmed]
      rfl
    have read : Literal.readString? t.text = some chars := Except.ok.inj (accessor.symm.trans decoded)
    obtain ⟨rest, -, -, recognised⟩ :=
      Token.recognised_tokensFrom r 0 text [] rfl t member (by rw [isString]; decide)
    have own := (recognised t.kind t.text).mpr ⟨rfl, rfl⟩
    rw [isString] at own
    obtain ⟨cs, textEq, uncut⟩ := own.exists_uncut
    rw [textEq] at read
    obtain ⟨parts, rfl⟩ := StringPart.exists_parts_of_readString? read uncut
    have found := (Token.filter_holds_tokenize member).trans (Token.diagnostics_of_parts isString textEq)
    refine ⟨parts, textEq, found, ?_⟩
    rw [← @StringPart.marksFrom_eq_nil_iff 1, ← List.map_eq_nil_iff, ← found, List.filter_eq_nil_iff]
    simp
  · intro result parsed l below x inside shows
    exact Literal.isOf_of_shows parsed member below inside shows

/-- A string with a code that has a plus, after an escaped backslash. -/
def plusSample : Text :=
  "\"\\\\\\u+041\"".toList

def plusToken : Token :=
  ⟨[], .string, plusSample, Span.ofSize 0 10, []⟩

theorem diagnostics_of_decoded_plusSample :
    plusToken ∈ (Token.tokenize plusSample .empty).1 ∧ plusToken.kind = .string ∧
      (∀ l : Literal, l.IsOf plusSample plusToken → ∀ chars, l.asString = .ok (some chars) →
        ∃ parts : List StringPart, plusToken.text = '"' :: (parts.flatMap StringPart.text ++ ['"']) ∧
          ((Token.tokenize plusSample .empty).2.filter fun d => plusToken.Holds d) =
            ((StringPart.marksFrom 1 parts).map fun mark =>
              .lexical LexicalProblem.badUnicodeEscape.message (mark.shift plusToken.span.start)) ∧
          ((∀ d ∈ (Token.tokenize plusSample .empty).2, ¬ plusToken.Holds d) ↔
            ∀ part ∈ parts, ∃ i, part = .item i)) ∧
      ∀ result, parse plusSample .empty = .ok result → ∀ l : Literal, l.view ∈ result.root.descendants →
        ∀ x ∈ l.view.tokens, x.Shows plusToken → l.IsOf plusSample plusToken := by
  have member : plusToken ∈ (Token.tokenize plusSample .empty).1 := by decide +kernel
  exact ⟨member, rfl, diagnostics_of_decoded member rfl⟩

/-- The code is reported, and the accessor of the literal takes it for a letter all the same. -/
theorem decoded_and_reported_plusSample :
    plusToken ∈ (Token.tokenize plusSample .empty).1 ∧ plusToken.kind = .string ∧
      (∃ d ∈ (Token.tokenize plusSample .empty).2, plusToken.Holds d) ∧
      ∃ result, parse plusSample .empty = .ok result ∧ ∃ l : Literal, l.view ∈ result.root.descendants ∧
        l.IsOf plusSample plusToken ∧ l.asString = .ok (some ['\\', 'A']) := by
  have reported : ∃ d ∈ (Token.tokenize plusSample .empty).2, plusToken.Holds d := by decide +kernel
  let l : Literal := ⟨⟨.node .literal [.leaf (plusToken.leaf plusSample .string)], 0⟩, rfl, rfl⟩
  have found : (parse plusSample .empty).toOption.any (fun result => l.view ∈ result.root.descendants) = true := by
    decide +kernel
  obtain ⟨result, parsed, found⟩ := exists_parse_of_any found
  refine ⟨by decide +kernel, rfl, reported, result, parsed, l, of_decide_eq_true found, rfl, ?_⟩
  decide +kernel

end LispSyntax
