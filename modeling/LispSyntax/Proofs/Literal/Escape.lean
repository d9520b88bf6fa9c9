import LispSyntax.Proofs.Legible
import LispSyntax.Proofs.Literal.Numeral

/-! # Characters and escapes

What the items of a string stand for, said without the decoder: a plain character for itself, an escape for what its
letter names, and a code for the character of its number (`Writing.StringItem.Means`). The code of a surrogate stands
for nothing, and then neither does the string. What the scanner accepts as a string is made of such items
(`exists_items`), so the decoder, which looks for escapes once more, meets nothing else.
-/

namespace LispSyntax

open Lexical Writing

/-! ## Characters -/

/-- The code points that are no characters. -/
def IsSurrogate (n : Nat) : Prop :=
  0xd800 ≤ n ∧ n ≤ 0xdfff

namespace Number

theorem character?_toNat (c : Char) : character? c.toNat = some c := by
  have valid : c.toNat.isValidChar := c.valid
  rw [character?, if_pos valid, Char.ofNat_toNat]

theorem character?_of_surrogate {n : Nat} (isSurrogate : IsSurrogate n) : character? n = none := by
  obtain ⟨least, most⟩ := isSurrogate
  rw [character?, if_neg]
  unfold Nat.isValidChar
  omega

/-- A code of four digits is that of a character, unless it is a surrogate. -/
theorem exists_character {n : Nat} (small : n < 16 ^ 4) (notSurrogate : ¬ IsSurrogate n) :
    ∃ c : Char, c.toNat = n := by
  have valid : n.isValidChar := by
    unfold IsSurrogate at notSurrogate
    unfold Nat.isValidChar
    omega
  exact ⟨Char.ofNatAux n valid, by simp [Char.toNat, Char.ofNatAux]⟩

end Number

namespace Literal

/-- A name is the whole text after the backslash. -/
theorem isSome_readChar?_named {word : Text} (isName : word ∈ Scan.namedCharacters) :
    (readChar? ('\\' :: word)).isSome = true := by
  revert word
  decide

theorem lookup_namedCharacters {text : Text} (isName : text ∉ Scan.namedCharacters) :
    namedCharacters.lookup text = none := by
  have words : namedCharacters.map Prod.fst = Scan.namedCharacters := by decide
  rw [List.lookup_eq_none_iff]
  rintro ⟨word, c⟩ member
  rw [bne_iff_ne]
  rintro rfl
  exact isName (words ▸ List.mem_map_of_mem member)

theorem readChar?_plain (c : Char) : readChar? ['\\', c] = some c := by
  have unnamed : namedCharacters.lookup [c] = none := by
    apply lookup_namedCharacters
    simp [Scan.namedCharacters]
  have read : readChar? ['\\', c] = readEscaped? [c] := rfl
  -- A lone `u` has no code after it.
  by_cases isU : c = 'u'
  · rw [isU]
    rfl
  · rw [read, readEscaped?, unnamed]
    · rfl
    · exact fun code same => isU (List.cons.inj same).1

theorem size_of_digital {digits : Text} (digital : ∀ c ∈ digits, Text.isHexDigit c = true) :
    Text.size digits = digits.length := by
  induction digits with
  | nil => rfl
  | cons c digits inductionHypothesis =>
    obtain ⟨d, isDigit⟩ := IsHexDigitOf.exists_of_isHexDigit (digital c (by simp))
    rw [Text.size_cons, isDigit.utf8Size_eq, inductionHypothesis fun e member => digital e (by simp [member]),
      List.length_cons, Nat.add_comm]

theorem readChar?_code {digits : Text} {n : Nat} (four : digits.length = 4) (hexadecimal : Hexadecimal digits n) :
    readChar? ('\\' :: 'u' :: digits) = Number.character? n := by
  have unnamed : namedCharacters.lookup ('u' :: digits) = none := by
    apply lookup_namedCharacters
    simp [Scan.namedCharacters]
  have read : readChar? ('\\' :: 'u' :: digits) = readEscaped? ('u' :: digits) := rfl
  have nonempty : digits ≠ [] := by rintro rfl; contradiction
  rw [read, readEscaped?]
  simp only [unnamed, size_of_digital hexadecimal.digital, four, if_true, hexadecimal.hex?_eq nonempty,
    Option.bind_some]

end Literal

/-! ## Strings -/

/-- The characters that a letter after a backslash stands for; any other character stands for itself. -/
def escapes : List (Char × Char) :=
  [('n', '\n'), ('t', '\t'), ('r', '\r'), ('b', '\x08'), ('f', '\x0c')]

namespace Writing.StringItem

inductive Means : StringItem → Char → Prop where
  | plain {c : Char} {ordinary : c ≠ '"' ∧ c ≠ '\\'} : Means (.plain c ordinary) c
  | escape {c : Char} {notCode : c ≠ 'u'} : Means (.escape c notCode) ((escapes.lookup c).getD c)
  | code {digits : CodeDigits} {c : Char} : Hexadecimal digits.text c.toNat → Means (.code digits) c

def HoldsSurrogate (item : StringItem) : Prop :=
  ∃ digits n, item = .code digits ∧ Hexadecimal digits.text n ∧ IsSurrogate n

theorem means_or_holdsSurrogate (item : StringItem) : (∃ c, Means item c) ∨ item.HoldsSurrogate := by
  cases item with
  | plain c ordinary => exact .inl ⟨c, .plain⟩
  | escape c notCode => exact .inl ⟨_, .escape⟩
  | code digits =>
    obtain ⟨n, hexadecimal⟩ := Hexadecimal.exists_of_digital digits.digital
    by_cases isSurrogate : IsSurrogate n
    · exact .inr ⟨digits, n, rfl, hexadecimal, isSurrogate⟩
    · have small := hexadecimal.lt
      rw [digits.four] at small
      obtain ⟨c, rfl⟩ := Number.exists_character small isSurrogate
      exact .inl ⟨c, .code hexadecimal⟩

def decode? : StringItem → Option Char
  | plain c _ => some c
  | escape c _ => some (Literal.unescapeChar c)
  | code digits => (Number.hex? digits.text).bind Number.character?

theorem decode?_code {digits : CodeDigits} {n : Nat} (hexadecimal : Hexadecimal digits.text n) :
    (code digits).decode? = Number.character? n := by
  have nonempty : digits.text ≠ [] := List.ne_nil_of_length_pos (by rw [digits.four]; decide)
  rw [decode?, hexadecimal.hex?_eq nonempty, Option.bind_some]

theorem Means.decode?_eq {item : StringItem} {c : Char} (means : Means item c) : item.decode? = some c := by
  cases means with
  | plain => rfl
  | @escape c =>
    -- The decoder splits on the letter; the table has the same five letters.
    have table : Literal.unescapeChar c = (escapes.lookup c).getD c := by
      unfold Literal.unescapeChar
      split
      iterate 5 rfl
      rename_i notN notT notR notB notF
      have absent : escapes.lookup c = none := by
        simpa [escapes, List.lookup_eq_none_iff] using ⟨notN, notT, notR, notB, notF⟩
      rw [absent]
      rfl
    rw [decode?, table]
  | code hexadecimal => rw [decode?_code hexadecimal, Number.character?_toNat]

theorem HoldsSurrogate.decode?_eq {item : StringItem} (holds : item.HoldsSurrogate) : item.decode? = none := by
  obtain ⟨digits, n, rfl, hexadecimal, isSurrogate⟩ := holds
  rw [decode?_code hexadecimal, Number.character?_of_surrogate isSurrogate]

/-- The decoder goes through the text item by item. -/
theorem unescape?_append (item : StringItem) (cs : Text) :
    Literal.unescape? (item.text ++ cs) = item.decode?.bind fun c => (Literal.unescape? cs).map (c :: ·) := by
  cases item with
  | plain c ordinary =>
    rw [text, List.singleton_append, Literal.unescape?, if_neg ordinary.2]
    · rfl
    · rintro a b c d cs rfl
      exact absurd rfl ordinary.2
    · rintro c cs rfl
      exact absurd rfl ordinary.2
  | escape c notCode =>
    change Literal.unescape? ('\\' :: c :: cs) = _
    rw [Literal.unescape?, if_neg notCode]
    · rfl
    · rintro a b c' d cs rfl
      exact absurd rfl notCode
  | code digits =>
    obtain ⟨digits, four, digital⟩ := digits
    obtain ⟨a, b, c, d, rfl⟩ := List.length_eq_four.mp four
    change Literal.unescape? ('\\' :: 'u' :: a :: b :: c :: d :: cs) = _
    rw [Literal.unescape?, decode?]
    cases Number.hex? [a, b, c, d] with
    | none => rfl
    | some n => cases Number.character? n <;> cases Literal.unescape? cs <;> rfl

/-- The items stand for the characters one by one. -/
theorem unescape?_of_means {items : List StringItem} {chars : List Char} (means : List.Forall₂ Means items chars) :
    Literal.unescape? (items.flatMap text) = some chars := by
  induction means with
  | nil => rfl
  | cons first _ inductionHypothesis =>
    rw [List.flatMap_cons, unescape?_append, first.decode?_eq, inductionHypothesis]
    rfl

theorem unescape?_of_surrogate {items : List StringItem} (holds : ∃ item ∈ items, item.HoldsSurrogate) :
    Literal.unescape? (items.flatMap text) = none := by
  induction items with
  | nil => simp at holds
  | cons item items inductionHypothesis =>
    rw [List.flatMap_cons, unescape?_append]
    obtain ⟨other, member, holds⟩ := holds
    cases List.mem_cons.mp member with
    | inl first =>
      rw [← first, holds.decode?_eq, Option.bind_none]
    | inr later =>
      rw [inductionHypothesis ⟨other, later, holds⟩]
      cases item.decode? <;> rfl

theorem means_or_surrogate (items : List StringItem) :
    (∃ chars, List.Forall₂ Means items chars) ∨ ∃ item ∈ items, item.HoldsSurrogate := by
  induction items with
  | nil => exact .inl ⟨[], .nil⟩
  | cons item items inductionHypothesis =>
    cases means_or_holdsSurrogate item with
    | inr holds => exact .inr ⟨item, by simp, holds⟩
    | inl first =>
      cases inductionHypothesis with
      | inr later =>
        obtain ⟨other, member, holds⟩ := later
        exact .inr ⟨other, by simp [member], holds⟩
      | inl others =>
        obtain ⟨c, means⟩ := first
        obtain ⟨chars, rest⟩ := others
        exact .inl ⟨c :: chars, .cons means rest⟩

/-! ### The closing quote -/

theorem endsEscaping_of_ne {body : Text} {c : Char} (notEscape : c ≠ '\\') :
    Literal.endsEscaping (body ++ [c]) = false := by
  simp [Literal.endsEscaping, notEscape]

theorem endsEscaping_pair (body : Text) :
    Literal.endsEscaping (body ++ ['\\', '\\']) = Literal.endsEscaping body := by
  have parity : ∀ n : Nat, (n + 1 + 1) % 2 = n % 2 := by omega
  simp [Literal.endsEscaping, parity]

/-- After whole items no backslash is left that would take the closing quote with it. -/
theorem endsEscaping_items (items : List StringItem) : Literal.endsEscaping (items.flatMap text) = false := by
  induction items using List.reverseRecOn with
  | nil => rfl
  | append_singleton items item inductionHypothesis =>
    rw [List.flatMap_append, List.flatMap_singleton]
    cases item with
    | plain c ordinary => exact endsEscaping_of_ne ordinary.2
    | escape c notCode =>
      by_cases isEscape : c = '\\'
      · subst isEscape
        exact (endsEscaping_pair _).trans inductionHypothesis
      · rw [text, List.append_cons]
        exact endsEscaping_of_ne isEscape
    | code digits =>
      obtain ⟨digits, four, digital⟩ := digits
      obtain ⟨a, b, c, d, rfl⟩ := List.length_eq_four.mp four
      have notEscape : d ≠ '\\' := ne_of_class (digital d (by simp)) rfl
      have whole : items.flatMap text ++ text (.code ⟨[a, b, c, d], four, digital⟩) =
          items.flatMap text ++ ['\\', 'u', a, b, c] ++ [d] := by
        simp [text]
      rw [whole]
      exact endsEscaping_of_ne notEscape

/-- A string is decoded item by item. -/
theorem readString?_items (items : List StringItem) :
    Literal.readString? ('"' :: (items.flatMap text ++ ['"'])) = Literal.unescape? (items.flatMap text) := by
  have body : (Text.after? ['"'] ('"' :: (items.flatMap text ++ ['"']))).bind Literal.dropQuote? =
      some (items.flatMap text) := by
    have opened : Text.after? ['"'] ('"' :: (items.flatMap text ++ ['"'])) = some (items.flatMap text ++ ['"']) :=
      Text.after?_eq_some_iff.mpr rfl
    rw [opened]
    simp [Literal.dropQuote?]
  rw [Literal.readString?, body]
  simp [endsEscaping_items]

end Writing.StringItem

/-! ## Strings without problems are made of items -/

namespace Scan

theorem length_hexRun_of_good {offset : Nat} {cs : Text} (good : badEscape? offset cs = []) :
    (hexRun cs).length = 4 := by
  have most : (hexRun cs).length ≤ 4 := by
    refine Nat.le_trans (List.takeWhile_prefix _).length_le ?_
    rw [List.length_take]
    omega
  unfold badEscape? at good
  split at good
  · contradiction
  · omega

/-- What is read of a string that is closed and has no bad escape is items and the closing quote. -/
theorem exists_items (offset : Nat) (cs : Text) (closed : (stringBody offset cs).closed = true)
    (good : (stringBody offset cs).badEscapes = []) :
    ∃ items : List StringItem, (stringBody offset cs).text = items.flatMap StringItem.text ++ ['"'] := by
  cases cs with
  | nil => contradiction
  | cons c cs =>
    by_cases isQuote : c = '"'
    · subst isQuote
      exact ⟨[], rfl⟩
    by_cases isEscape : c = '\\'
    · subst isEscape
      cases cs with
      | nil => contradiction
      | cons d cs =>
        by_cases isU : d = 'u'
        · -- The four digits that the scanner looks at again belong to the item.
          subst isU
          have body : stringBody offset ('\\' :: 'u' :: cs) =
              (((stringBody (offset + 1 + 'u'.utf8Size) cs).cons 'u').cons '\\').flag (badEscape? offset cs) := rfl
          rw [body] at closed good ⊢
          obtain ⟨ownGood, restGood⟩ := List.append_eq_nil_iff.mp good
          have four := length_hexRun_of_good ownGood
          have digital : ∀ c ∈ hexRun cs, Text.isHexDigit c = true := inside_takeWhile Text.isHexDigit _
          obtain ⟨offset', inside⟩ := stringBody_digits (offset + 1 + 'u'.utf8Size) digital (cs.drop 4)
          rw [hexRun_append_drop four] at inside
          simp only [StringBody.flag, StringBody.cons, inside] at closed restGood ⊢
          have shorter : (cs.drop 4).length < ('\\' :: 'u' :: cs).length := by simp; omega
          obtain ⟨items, rest⟩ := exists_items offset' (cs.drop 4) closed restGood
          refine ⟨.code ⟨hexRun cs, four, digital⟩ :: items, ?_⟩
          simp [StringItem.text, rest]
        · have body : stringBody offset ('\\' :: d :: cs) =
              ((stringBody (offset + 1 + d.utf8Size) cs).cons d).cons '\\' := by
            simp [stringBody, isU]
          rw [body] at closed good ⊢
          obtain ⟨items, rest⟩ := exists_items (offset + 1 + d.utf8Size) cs closed good
          exact ⟨.escape d isU :: items, congrArg (fun text => '\\' :: d :: text) rest⟩
    · rw [stringBody_plain offset ⟨isQuote, isEscape⟩] at closed good ⊢
      obtain ⟨items, rest⟩ := exists_items (offset + c.utf8Size) cs closed good
      exact ⟨.plain c ⟨isQuote, isEscape⟩ :: items, congrArg (c :: ·) rest⟩
termination_by cs.length

end Scan

end LispSyntax
