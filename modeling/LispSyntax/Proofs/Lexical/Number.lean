import LispSyntax.Proofs.Lexical

/-! # Numbers in the lexical grammar

The scanner looks ahead from the front of a number and never goes back; the grammar asks for the longest prefix
that is a number. `longest_number` says that the two agree. A number is cut into its first character, the digits
after it and a tail (`Tail`); in any prefix that is a number the digits are either all there are, or the tail is
empty, so no choice of the scanner can be improved on.
-/

namespace LispSyntax

namespace Lexical

open Writing Scan

/-! ## Kinds -/

theorem IsSign.ne {sign : Text} (isSign : IsSign sign) :
    ∀ c ∈ sign, c ≠ '.' ∧ c ≠ 'e' ∧ c ≠ 'E' := by
  rcases isSign with rfl | rfl | rfl <;> simp

theorem ne_of_isDigit {c : Char} (isDigit : Text.isDigit c = true) : c ≠ '.' ∧ c ≠ 'e' ∧ c ≠ 'E' :=
  ⟨ne_of_class isDigit rfl, ne_of_class isDigit rfl, ne_of_class isDigit rfl⟩

theorem getLast?_digits {digits : Text} (isDigits : IsDigits digits) (before : Text) :
    ∃ c, (before ++ digits).getLast? = some c ∧ Text.isDigit c = true := by
  obtain ⟨nonempty, digital⟩ := isDigits
  refine ⟨digits.getLast nonempty, ?_, digital _ (List.getLast_mem nonempty)⟩
  rw [List.getLast?_append, List.getLast?_eq_some_getLast nonempty, Option.some_or]

/-- A float ends in a digit, and has a point or the mark of an exponent before it. -/
theorem isFloat_parts {text : Text} (isFloat : IsNumber .float text) :
    (∃ c, text.getLast? = some c ∧ Text.isDigit c = true) ∧
      ∃ c ∈ text, c = '.' ∨ c = 'e' ∨ c = 'E' := by
  have marked : ∀ {exponent : Text}, IsExponent exponent → ∀ before,
      (∃ c, (before ++ exponent).getLast? = some c ∧ Text.isDigit c = true) ∧
        ∃ c ∈ before ++ exponent, c = '.' ∨ c = 'e' ∨ c = 'E' := by
    intro exponent isExponent before
    cases isExponent with
    | @intro mark sign digits isMark _ isDigits =>
      constructor
      · have last := getLast?_digits isDigits (before ++ mark :: sign)
        simpa using last
      · exact ⟨mark, by simp, .inr isMark⟩
  cases isFloat with
  | @fraction sign digits fraction exponent _ _ isDigits exponential =>
    cases exponential with
    | inl none =>
      subst none
      constructor
      · have last := getLast?_digits isDigits (sign ++ (digits ++ ['.']))
        simpa using last
      · exact ⟨'.', by simp, .inl rfl⟩
    | inr isExponent =>
      have parts := marked isExponent (sign ++ (digits ++ '.' :: fraction))
      simpa using parts
  | @scientific sign digits exponent _ _ isExponent =>
    have parts := marked isExponent (sign ++ digits)
    simpa using parts

/-- An integer ends in a point, or has neither a point nor the mark of an exponent. -/
theorem isInt_parts {text : Text} (isInt : IsNumber .int text) :
    text.getLast? = some '.' ∨ ∀ c ∈ text, c ≠ '.' ∧ c ≠ 'e' ∧ c ≠ 'E' := by
  cases isInt with
  | @whole sign digits isSign isDigits =>
    right
    intro c member
    cases List.mem_append.mp member with
    | inl inSign => exact isSign.ne c inSign
    | inr inDigits => exact ne_of_isDigit (isDigits.2 c inDigits)
  | @pointed sign digits isSign isDigits =>
    left
    rw [← List.append_assoc]
    simp

theorem not_int_and_float {text : Text} (isInt : IsNumber .int text) (isFloat : IsNumber .float text) :
    False := by
  obtain ⟨⟨last, lastEq, isDigit⟩, c, member, marked⟩ := isFloat_parts isFloat
  cases isInt_parts isInt with
  | inl pointed =>
    rw [pointed] at lastEq
    cases lastEq
    contradiction
  | inr unmarked => simp [unmarked c member] at marked

/-- The text of a number determines its kind. -/
theorem IsNumber.kind_eq {k l : Kind} {text : Text} (first : IsNumber k text)
    (second : IsNumber l text) : k = l := by
  have kinds : ∀ {kind : Kind}, IsNumber kind text → kind = .int ∨ kind = .float := by
    intro kind isNumber
    cases isNumber <;> simp
  rcases kinds first with rfl | rfl <;> rcases kinds second with rfl | rfl
  · rfl
  · exact (not_int_and_float first second).elim
  · exact (not_int_and_float second first).elim
  · rfl

/-! ## Exponents -/

theorem isExponent_of_exponent? {cs exponent rest : Text} (found : exponent? cs = some (exponent, rest)) :
    IsExponent exponent := by
  cases cs with
  | nil => simp [exponent?] at found
  | cons mark cs =>
    simp only [exponent?] at found
    split at found
    · rename_i isMark
      have isMark : mark = 'e' ∨ mark = 'E' := by simpa using isMark
      split at found
      · contradiction
      · rename_i nonempty
        simp only [Option.some.injEq, Prod.mk.injEq] at found
        obtain ⟨rfl, -⟩ := found
        refine .intro isMark ?_ ⟨nonempty, inside_takeWhile _ _⟩
        cases cs with
        | nil => exact .inl rfl
        | cons sign cs =>
          by_cases plus : sign = '+'
          · exact .inr (.inl (by simp [plus]))
          · by_cases minus : sign = '-'
            · exact .inr (.inr (by simp [minus]))
            · exact .inl (by simp [plus, minus])
    · contradiction

/-- Where some exponent stands at the front, one at least as long is read. -/
theorem exponent?_of_prefix {exponent cs : Text} (isExponent : IsExponent exponent)
    (starts : exponent <+: cs) :
    ∃ taken rest, exponent? cs = some (taken, rest) ∧ exponent.length ≤ taken.length := by
  obtain ⟨after, rfl⟩ := starts
  cases isExponent with
  | @intro mark sign digits isMark isSign isDigits =>
    obtain ⟨nonempty, digital⟩ := isDigits
    have bounded : digits.length ≤ ((digits ++ after).takeWhile Text.isDigit).length :=
      length_le_takeWhile digital (List.prefix_append digits after)
    have taken : (digits ++ after).takeWhile Text.isDigit ≠ [] := by
      intro empty
      rw [empty] at bounded
      exact nonempty (List.eq_nil_of_length_eq_zero (Nat.le_zero.mp bounded))
    have signed : ((sign ++ (digits ++ after)).take 1).filter (fun c => c == '+' || c == '-') = sign := by
      rcases isSign with rfl | rfl | rfl
      · cases digits with
        | nil => exact absurd rfl nonempty
        | cons d ds => simpa using not_sign_of_isDigit (digital d (by simp))
      · rfl
      · rfl
    have marked : (decide (mark = 'e') || decide (mark = 'E')) = true := by simpa using isMark
    refine ⟨mark :: sign ++ (digits ++ after).takeWhile Text.isDigit,
      (digits ++ after).dropWhile Text.isDigit, ?_, by simpa using bounded⟩
    simp only [List.cons_append, List.append_assoc, exponent?, marked, if_true, signed,
      List.drop_left]

/-! ## Tails -/

/-- What may follow the digits of a number. -/
inductive Tail : Text → Prop where
  | none : Tail []
  | point : Tail ['.']
  | fraction {fraction exponent : Text} : IsDigits fraction → (exponent = [] ∨ IsExponent exponent) →
      Tail ('.' :: (fraction ++ exponent))
  | exponent {exponent : Text} : IsExponent exponent → Tail exponent

theorem IsExponent.stops {exponent : Text} (isExponent : IsExponent exponent) :
    Stops Text.isDigit exponent := by
  cases isExponent with
  | intro isMark _ _ => rcases isMark with rfl | rfl <;> exact stops_cons rfl _

theorem stops_optionalExponent {exponent : Text} (exponential : exponent = [] ∨ IsExponent exponent) :
    Stops Text.isDigit exponent := by
  cases exponential with
  | inl none => rw [none]; exact stops_nil _
  | inr isExponent => exact isExponent.stops

theorem Tail.stops {tail : Text} (isTail : Tail tail) : Stops Text.isDigit tail := by
  cases isTail with
  | none => exact stops_nil _
  | point => exact stops_cons rfl _
  | fraction _ _ => exact stops_cons rfl _
  | exponent isExponent => exact isExponent.stops

/-- A number is a sign or a digit with more digits and a tail, or a point with a fraction. -/
theorem IsNumber.parts {kind : Kind} {text : Text} (isNumber : IsNumber kind text) :
    (∃ first digits tail, text = first :: (digits ++ tail) ∧
      (Text.isDigit first = true ∨ ((first = '+' ∨ first = '-') ∧
        (digits ≠ [] ∨ ∃ d ds, tail = '.' :: d :: ds ∧ Text.isDigit d = true))) ∧
      (∀ c ∈ digits, Text.isDigit c = true) ∧ Tail tail) ∨
    ∃ fraction exponent, text = '.' :: (fraction ++ exponent) ∧ IsDigits fraction ∧
      (exponent = [] ∨ IsExponent exponent) := by
  -- With digits the first character is the sign or, without one, the first digit.
  have digital : ∀ {sign digits tail : Text}, IsSign sign → IsDigits digits → Tail tail →
      ∃ first run after, sign ++ (digits ++ tail) = first :: (run ++ after) ∧
        (Text.isDigit first = true ∨ ((first = '+' ∨ first = '-') ∧
          (run ≠ [] ∨ ∃ d ds, after = '.' :: d :: ds ∧ Text.isDigit d = true))) ∧
        (∀ c ∈ run, Text.isDigit c = true) ∧ Tail after := by
    rintro sign digits tail isSign ⟨nonempty, inside⟩ isTail
    rcases isSign with rfl | rfl | rfl
    · cases digits with
      | nil => exact absurd rfl nonempty
      | cons d ds =>
        exact ⟨d, ds, tail, rfl, .inl (inside d (by simp)), fun c member => inside c (by simp [member]),
          isTail⟩
    · exact ⟨'+', digits, tail, rfl, .inr ⟨.inl rfl, .inl nonempty⟩, inside, isTail⟩
    · exact ⟨'-', digits, tail, rfl, .inr ⟨.inr rfl, .inl nonempty⟩, inside, isTail⟩
  cases isNumber with
  | whole isSign isDigits => simpa using Or.inl (digital isSign isDigits .none)
  | pointed isSign isDigits => exact .inl (digital isSign isDigits .point)
  | scientific isSign isDigits isExponent =>
    exact .inl (digital isSign isDigits (.exponent isExponent))
  | @fraction sign digits fraction exponent isSign isDigits isFraction exponential =>
    cases isDigits with
    | inr isDigits => exact .inl (digital isSign isDigits (.fraction isFraction exponential))
    | inl none =>
      subst none
      have isTail := Tail.fraction isFraction exponential
      obtain ⟨nonempty, inside⟩ := isFraction
      cases fraction with
      | nil => exact absurd rfl nonempty
      | cons d ds =>
        have isDigit := inside d (by simp)
        rcases isSign with rfl | rfl | rfl
        · exact .inr ⟨d :: ds, exponent, rfl, ⟨nonempty, inside⟩, exponential⟩
        · exact .inl ⟨'+', [], _, rfl, .inr ⟨.inl rfl, .inr ⟨d, _, rfl, isDigit⟩⟩, by simp, isTail⟩
        · exact .inl ⟨'-', [], _, rfl, .inr ⟨.inr rfl, .inr ⟨d, _, rfl, isDigit⟩⟩, by simp, isTail⟩

/-! ## No prefix is longer -/

/-- A run with something behind it, at the front of a text: either nothing is behind it, or it is all the text
has of its class. -/
theorem prefix_run {within : Char → Bool} {run tail cs : Text} (inside : ∀ c ∈ run, within c = true)
    (stops : Stops within tail) (starts : run ++ tail <+: cs) :
    (tail = [] ∧ run.length ≤ (cs.takeWhile within).length) ∨
      (run = cs.takeWhile within ∧ tail <+: cs.dropWhile within) := by
  cases tail with
  | nil =>
    rw [List.append_nil] at starts
    exact .inl ⟨rfl, length_le_takeWhile inside starts⟩
  | cons c tail =>
    obtain ⟨after, rfl⟩ := starts
    have stops' : Stops within (c :: (tail ++ after)) := stops_cons (stops c tail rfl) _
    rw [List.append_assoc, List.cons_append, takeWhile_run inside stops', dropWhile_run inside stops']
    exact .inr ⟨rfl, after, rfl⟩

theorem length_le_endNumber (hasFraction : Bool) (text : Text) {exponent rest : Text}
    (exponential : exponent = [] ∨ IsExponent exponent) (starts : exponent <+: rest) :
    text.length + exponent.length ≤ (endNumber hasFraction text rest).lexeme.text.length := by
  unfold endNumber
  cases exponential with
  | inl none =>
    subst none
    split <;> simp
  | inr isExponent =>
    obtain ⟨taken, after, found, bounded⟩ := exponent?_of_prefix isExponent starts
    rw [found]
    simpa using bounded

theorem length_le_endNumber_of_fraction (text : Text) {fraction exponent rest : Text}
    (isFraction : ∀ c ∈ fraction, Text.isDigit c = true)
    (exponential : exponent = [] ∨ IsExponent exponent) (starts : fraction ++ exponent <+: rest) :
    text.length + fraction.length + exponent.length ≤
      (endNumber true (text ++ rest.takeWhile Text.isDigit)
        (rest.dropWhile Text.isDigit)).lexeme.text.length := by
  have least : ∀ text rest : Text, text.length ≤ (endNumber true text rest).lexeme.text.length :=
    fun text rest => by
      simpa using length_le_endNumber true text (.inl rfl) (List.nil_prefix (l := rest))
  cases prefix_run isFraction (stops_optionalExponent exponential) starts with
  | inl alone =>
    have bounded := least (text ++ rest.takeWhile Text.isDigit) (rest.dropWhile Text.isDigit)
    rw [List.length_append] at bounded
    have shorter := alone.2
    simp only [alone.1, List.length_nil]
    omega
  | inr followed =>
    have bounded := length_le_endNumber true (text ++ rest.takeWhile Text.isDigit) exponential
      followed.2
    rw [List.length_append, ← followed.1] at bounded
    rw [← followed.1]
    exact bounded

/-- The digits after the first character are taken in any case. -/
theorem length_le_number_of_digits {first : Char} (notPoint : first ≠ '.') (cs : Text) :
    (cs.takeWhile Text.isDigit).length + 1 ≤ (number first cs).lexeme.text.length := by
  have least : ∀ hasFraction, ∀ text rest : Text,
      text.length ≤ (endNumber hasFraction text rest).lexeme.text.length :=
    fun hasFraction text rest => by
      simpa using length_le_endNumber hasFraction text (.inl rfl) (List.nil_prefix (l := rest))
  simp only [number, if_neg notPoint]
  split
  · rename_i fraction _
    split
    · refine Nat.le_trans ?_ (least true _ _)
      simp
    · simp
  · refine Nat.le_trans ?_ (least false _ _)
    simp

theorem length_le_number_of_tail {first : Char} (notPoint : first ≠ '.') {digits tail cs : Text}
    (inside : ∀ c ∈ digits, Text.isDigit c = true) (isTail : Tail tail)
    (starts : digits ++ tail <+: cs) :
    digits.length + tail.length + 1 ≤ (number first cs).lexeme.text.length := by
  -- Either the digits that are given end before the run of digits does, and then nothing stands behind them, or they
  -- are the whole run.
  cases prefix_run inside isTail.stops starts with
  | inl alone =>
    have bounded := length_le_number_of_digits notPoint cs
    have shorter := alone.2
    simp only [alone.1, List.length_nil]
    omega
  | inr followed =>
    obtain ⟨same, startsTail⟩ := followed
    rw [same]
    cases isTail with
    | none => simpa using length_le_number_of_digits notPoint cs
    | point =>
      obtain ⟨after, pointed⟩ := startsTail
      have pointed : cs.dropWhile Text.isDigit = '.' :: after := by simpa using pointed.symm
      simp only [number, if_neg notPoint, pointed]
      split
      · have noDigits : ∀ c ∈ ([] : Text), Text.isDigit c = true := by simp
        have nothing : ([] : Text) ++ [] <+: after := List.nil_prefix
        have bounded := length_le_endNumber_of_fraction (first :: cs.takeWhile Text.isDigit ++ ['.'])
          noDigits (.inl rfl) nothing
        simpa using bounded
      · simp
    | @fraction fraction exponent isFraction exponential =>
      obtain ⟨after, pointed⟩ := startsTail
      have pointed : cs.dropWhile Text.isDigit = '.' :: (fraction ++ exponent ++ after) := by
        simpa using pointed.symm
      have starts : startsWithDigit (fraction ++ exponent ++ after) = true := by
        rw [List.append_assoc]
        exact startsWithDigit_text ⟨fraction, isFraction.1, isFraction.2⟩ _
      simp only [number, if_neg notPoint, pointed, starts, if_true]
      have bounded := length_le_endNumber_of_fraction (first :: cs.takeWhile Text.isDigit ++ ['.'])
        isFraction.2 exponential (List.prefix_append (fraction ++ exponent) after)
      simp only [List.length_append, List.length_cons, List.length_nil, List.append_assoc,
        List.cons_append, List.nil_append] at bounded ⊢
      omega
    | exponent isExponent =>
      have unpointed : ∀ after, cs.dropWhile Text.isDigit ≠ '.' :: after := by
        rintro after pointed
        rw [pointed] at startsTail
        cases isExponent with
        | intro isMark _ _ =>
          have marked := (List.cons_prefix_cons.mp startsTail).1
          rcases isMark with rfl | rfl <;> contradiction
      have bounded := length_le_endNumber false (first :: cs.takeWhile Text.isDigit)
        (.inr isExponent) startsTail
      simp only [number, if_neg notPoint]
      simp only [List.length_cons] at bounded
      omega

/-- No number at the front of the text is longer than the one scanned. -/
theorem length_le_number {kind : Kind} {text : Text} {first : Char} {cs : Text}
    (isNumber : IsNumber kind text) (starts : text <+: first :: cs) :
    text.length ≤ (number first cs).lexeme.text.length := by
  cases isNumber.parts with
  | inl digital =>
    obtain ⟨head, digits, tail, rfl, opens, inside, isTail⟩ := digital
    obtain ⟨rfl, startsRest⟩ := List.cons_prefix_cons.mp starts
    have notPoint : head ≠ '.' := by
      rcases opens with isDigit | ⟨rfl | rfl, -⟩
      · exact (ne_of_isDigit isDigit).1
      · decide
      · decide
    simpa using length_le_number_of_tail notPoint inside isTail startsRest
  | inr pointed =>
    obtain ⟨fraction, exponent, rfl, isFraction, exponential⟩ := pointed
    obtain ⟨rfl, startsRest⟩ := List.cons_prefix_cons.mp starts
    have bounded := length_le_endNumber_of_fraction ['.'] isFraction.2 exponential startsRest
    simp only [number, if_true]
    simp only [List.length_cons, List.length_append, List.length_nil, List.cons_append,
      List.nil_append] at bounded ⊢
    omega

/-! ## What is scanned is a number -/

theorem isNumber_fraction {sign digits fraction : Text} (isSign : IsSign sign)
    (isDigits : digits = [] ∨ IsDigits digits) (isFraction : IsDigits fraction) (rest : Text) :
    IsNumber (endNumber true (sign ++ (digits ++ '.' :: fraction)) rest).lexeme.kind
      (endNumber true (sign ++ (digits ++ '.' :: fraction)) rest).lexeme.text := by
  unfold endNumber
  split
  · rename_i exponent after found
    have isNumber := IsNumber.fraction isSign isDigits isFraction (.inr (isExponent_of_exponent? found))
    simpa [Lexeme.clean] using isNumber
  · have isNumber := IsNumber.fraction isSign isDigits isFraction (.inl rfl)
    simpa [Lexeme.clean] using isNumber

theorem isNumber_digits {sign digits : Text} (isSign : IsSign sign) (isDigits : IsDigits digits)
    (rest : Text) :
    IsNumber (endNumber false (sign ++ digits) rest).lexeme.kind
      (endNumber false (sign ++ digits) rest).lexeme.text := by
  unfold endNumber
  split
  · rename_i exponent after found
    have isNumber := IsNumber.scientific isSign isDigits (isExponent_of_exponent? found)
    simpa [Lexeme.clean] using isNumber
  · exact .whole isSign isDigits

theorem isDigits_takeWhile {cs : Text} (starts : startsWithDigit cs = true) :
    IsDigits (cs.takeWhile Text.isDigit) := by
  refine ⟨?_, inside_takeWhile _ _⟩
  cases cs with
  | nil => contradiction
  | cons c cs =>
    have isDigit : Text.isDigit c = true := starts
    simp [isDigit]

/-- A sign that a digit, or a point and a digit, follows, and what is scanned after it. -/
theorem isNumber_number_of_sign {sign digits : Text} {first : Char} {cs : Text} (isSign : IsSign sign)
    (split : first :: cs.takeWhile Text.isDigit = sign ++ digits) (notPoint : first ≠ '.')
    (inside : ∀ c ∈ digits, Text.isDigit c = true)
    (enough : digits = [] → ∃ fraction, cs.dropWhile Text.isDigit = '.' :: fraction ∧
      startsWithDigit fraction = true) :
    IsNumber (number first cs).lexeme.kind (number first cs).lexeme.text := by
  have isDigits : digits = [] ∨ IsDigits digits := by
    by_cases none : digits = []
    · exact .inl none
    · exact .inr ⟨none, inside⟩
  simp only [number, if_neg notPoint]
  split
  · rename_i fraction pointed
    split
    · rename_i starts
      have isNumber := isNumber_fraction isSign isDigits (isDigits_takeWhile starts)
        (fraction.dropWhile Text.isDigit)
      rw [← List.append_assoc, ← split] at isNumber
      exact isNumber
    · rename_i ends
      cases isDigits with
      | inl none =>
        obtain ⟨fraction', pointed', starts⟩ := enough none
        rw [pointed] at pointed'
        cases pointed'
        exact absurd starts ends
      | inr isDigits =>
        have isNumber := IsNumber.pointed isSign isDigits
        rw [← List.append_assoc, ← split] at isNumber
        exact isNumber
  · rename_i unpointed
    cases isDigits with
    | inl none =>
      obtain ⟨fraction, pointed, -⟩ := enough none
      exact absurd pointed (unpointed fraction)
    | inr isDigits =>
      rw [split]
      exact isNumber_digits isSign isDigits _

/-- Where the scanner expects a number there is one. -/
theorem isNumber_number {first : Char} {cs : Text}
    (opens : Text.isDigit first = true ∨ opensNumber first cs = true) :
    IsNumber (number first cs).lexeme.kind (number first cs).lexeme.text := by
  by_cases isDigit : Text.isDigit first = true
  · have noSign : IsSign [] := .inl rfl
    apply isNumber_number_of_sign noSign (List.nil_append _).symm (ne_of_isDigit isDigit).1
    · intro c member
      cases member with
      | head => exact isDigit
      | tail _ member => exact inside_takeWhile _ _ c member
    · intro empty
      contradiction
  · have opens := opens.resolve_left isDigit
    simp only [opensNumber, Bool.or_eq_true, Bool.and_eq_true, beq_iff_eq] at opens
    rcases opens with ⟨signed, starts⟩ | ⟨rfl, starts⟩
    · have isSign : IsSign [first] := by
        rcases signed with rfl | rfl
        · exact .inr (.inl rfl)
        · exact .inr (.inr rfl)
      have notPoint : first ≠ '.' := by rcases signed with rfl | rfl <;> decide
      apply isNumber_number_of_sign isSign rfl notPoint (inside_takeWhile _ _)
      -- Without a digit the sign is followed by a point and a digit.
      intro none
      unfold startsNumber at starts
      split at starts
      · rename_i fraction
        exact ⟨fraction, by simp [Text.isDigit], starts⟩
      · exact absurd none (isDigits_takeWhile starts).1
    · have noSign : IsSign [] := .inl rfl
      have isNumber := isNumber_fraction noSign (.inl rfl) (isDigits_takeWhile starts)
        (cs.dropWhile Text.isDigit)
      simp only [number, if_true]
      exact isNumber

/-! ## The longest number -/

/-- Where some number stands at the front, the scanner expects one. -/
theorem opens_of_isNumber {kind : Kind} {text : Text} {first : Char} {cs : Text}
    (isNumber : IsNumber kind text) (starts : text <+: first :: cs) :
    Text.isDigit first = true ∨ opensNumber first cs = true := by
  have digit : ∀ {digits : Text}, IsDigits digits → ∀ after, startsWithDigit (digits ++ after) = true :=
    fun isDigits after => startsWithDigit_text ⟨_, isDigits.1, isDigits.2⟩ after
  obtain ⟨after, whole⟩ := starts
  cases isNumber.parts with
  | inl digital =>
    obtain ⟨head, digits, tail, rfl, opens, inside, isTail⟩ := digital
    simp only [List.cons_append, List.cons.injEq] at whole
    obtain ⟨rfl, rfl⟩ := whole
    rcases opens with isDigit | ⟨signed, followed⟩
    · exact .inl isDigit
    · right
      have starts : startsNumber (digits ++ (tail ++ after)) = true := by
        rcases followed with nonempty | ⟨d, ds, rfl, isDigit⟩
        · exact startsNumber_of_digit (digit ⟨nonempty, inside⟩ _)
        · cases digits with
          | nil => exact isDigit
          | cons c cs => exact startsNumber_of_digit (inside c (by simp))
      rcases signed with rfl | rfl <;> simp [opensNumber, starts]
  | inr pointed =>
    obtain ⟨fraction, exponent, rfl, isFraction, -⟩ := pointed
    simp only [List.cons_append, List.cons.injEq] at whole
    obtain ⟨rfl, rfl⟩ := whole
    right
    simp [opensNumber, digit isFraction]

/-- The scanner takes the longest number at the front of the text. -/
theorem longest_number {first : Char} {cs : Text}
    (opens : Text.isDigit first = true ∨ opensNumber first cs = true) :
    Longest IsNumeral (first :: cs) (number first cs).lexeme.text where
  spelled := ⟨_, isNumber_number opens⟩
  starts := ⟨_, whole_number first cs⟩
  longest := by
    rintro other ⟨kind, isNumber⟩ starts
    exact length_le_number isNumber starts

theorem absent_number {first : Char} {cs : Text} (notDigit : Text.isDigit first = false)
    (noNumber : opensNumber first cs = false) : Absent IsNumeral (first :: cs) := by
  rintro lexeme ⟨kind, isNumber⟩ starts
  have opens := opens_of_isNumber isNumber starts
  simp [notDigit, noNumber] at opens

/-- Where no number stands at the front, the scanner expects none. -/
theorem Absent.not_opens {first : Char} {cs : Text} (absent : Absent IsNumeral (first :: cs)) :
    Text.isDigit first = false ∧ opensNumber first cs = false := by
  constructor
  · cases isDigit : Text.isDigit first with
    | false => rfl
    | true => exact absurd absent (longest_number (.inl isDigit)).not_absent
  · cases opens : opensNumber first cs with
    | false => rfl
    | true => exact absurd absent (longest_number (.inr opens)).not_absent

end Lexical

end LispSyntax
