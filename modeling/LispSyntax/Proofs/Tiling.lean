import LispSyntax.Proofs.Outline
import LispSyntax.Token.Read

/-! # Tokens tile the text

Each token covers a stretch of the text: its leading trivia, its lexeme and its trailing trivia, in this
order. `Tiles` says that the stretches of a list of tokens follow one another without gap or overlap, and
`tiles_tokenize` that the tokens of a text tile it from its first character to its last. So every token
can be cut out of the text again, and the tree of a draft over these tokens has the text it should.
-/

namespace LispSyntax

namespace Token

/-- The token's trivia and lexeme make up the stretch of text that starts at the offset. -/
structure Covers (t : Token) (offset : Nat) (before after stretch : Text) : Prop where
  parts : stretch = before ++ t.text ++ after
  before_size : before.size = Trivia.size t.leading
  after_size : after.size = Trivia.size t.trailing
  start_eq : t.span.start = offset + before.size
  stop_eq : t.span.stop = offset + before.size + Text.size t.text

def LiesIn (text : Text) (t : Token) : Prop :=
  ∃ left before after stretch right,
    text = left ++ stretch ++ right ∧ t.Covers (Text.size left) before after stretch

/-- The stretches of the tokens, one after the other, make up the text that starts at the offset. -/
inductive Tiles : Nat → List Token → Text → Prop where
  | nil (offset : Nat) : Tiles offset [] []
  | cons {offset : Nat} {t : Token} {before after stretch : Text} {ts : List Token} {rest : Text} :
      t.Covers offset before after stretch → Tiles (offset + stretch.size) ts rest →
      Tiles offset (t :: ts) (stretch ++ rest)

/-! ## Reading tiles the text -/

theorem covers_read (r : Registry) (offset : Nat) (text : Text) :
    ∃ before after stretch, text = stretch ++ (read r offset text).rest ∧
      (read r offset text).offset = offset + Text.size stretch ∧
      (read r offset text).token.Covers offset before after stretch := by
  obtain ⟨before, beforeEq⟩ : ∃ before, before ++ Trivia.skip .leading text = text :=
    ⟨_, Trivia.flatten_cuts_append .leading text⟩
  have whole := lexemeOf_append r (Trivia.skip .leading text)
  generalize scanned : lexemeOf r (Trivia.skip .leading text) = scan at whole
  obtain ⟨after, afterEq⟩ : ∃ after, after ++ Trivia.skip .trailing scan.rest = scan.rest :=
    ⟨_, Trivia.flatten_cuts_append .trailing scan.rest⟩
  have beforeSize := Trivia.size_read_add .leading text
  have afterSize := Trivia.size_read_add .trailing scan.rest
  rw [← congrArg Text.size beforeEq, Text.size_append] at beforeSize
  rw [← congrArg Text.size afterEq, Text.size_append] at afterSize
  refine ⟨before, after, before ++ scan.lexeme.text ++ after, ?_, ?_, ?_⟩
  · simp only [read, scanned]
    rw [List.append_assoc, afterEq, List.append_assoc, whole, beforeEq]
  · simp only [read, scanned, Span.ofSize, Text.size_append]
    omega
  · constructor <;> simp only [read, scanned, Span.ofSize] <;> omega

/-- What is left is as far from the start as what was taken is long. -/
theorem size_rest_read (r : Registry) (offset : Nat) (text : Text) :
    (read r offset text).offset + Text.size (read r offset text).rest = offset + Text.size text := by
  obtain ⟨-, -, stretch, whole, offsetEq, -⟩ := covers_read r offset text
  have size := congrArg Text.size whole
  rw [Text.size_append] at size
  omega

end Token

/-! ## Only the end is read as the end -/

/-- The lexeme does not pretend to be the end of the text, and an unreadable one says what is wrong. -/
def Lexeme.Regular (l : Lexeme) : Prop :=
  l.kind ≠ .eof ∧ (l.kind = .unknown → l.problems ≠ [])

namespace Scan

theorem regular_clean {k : Kind} (text : Text) (notEnd : k ≠ .eof) (known : k ≠ .unknown) :
    (Lexeme.clean k text).Regular :=
  ⟨notEnd, fun h => absurd h known⟩

theorem regular_flawed {k : Kind} (text : Text) (problem : LexicalProblem) (notEnd : k ≠ .eof) :
    (Lexeme.flawed k text problem).Regular :=
  ⟨notEnd, fun _ => by simp [Lexeme.flawed]⟩

theorem regular_named {k : Kind} (text name : Text) (notEnd : k ≠ .eof) (known : k ≠ .unknown) :
    (Lexeme.named k text name).Regular := by
  unfold Lexeme.named
  split
  · exact regular_flawed text _ notEnd
  · exact regular_clean text notEnd known

theorem regular_endNumber (fraction : Bool) (text rest : Text) :
    (endNumber fraction text rest).lexeme.Regular := by
  unfold endNumber
  split
  · exact regular_clean _ (by decide) (by decide)
  · cases fraction <;> exact regular_clean _ (by decide) (by decide)

theorem regular_number (first : Char) (cs : Text) : (number first cs).lexeme.Regular := by
  simp only [number]
  split
  · exact regular_endNumber ..
  · split
    · split
      · exact regular_endNumber ..
      · exact regular_clean _ (by decide) (by decide)
    · exact regular_endNumber ..

theorem regular_bytes (cs : Text) : (bytes cs).lexeme.Regular := by
  simp only [bytes]
  split
  · exact regular_flawed _ _ (by decide)
  · split
    · exact regular_flawed _ _ (by decide)
    · exact regular_clean _ (by decide) (by decide)

theorem regular_hash (cs : Text) : (hash cs).lexeme.Regular := by
  unfold hash
  split
  · exact regular_clean _ (by decide) (by decide)
  · split
    · exact regular_clean _ (by decide) (by decide)
    · exact regular_flawed _ _ (by decide)
  · split
    · exact regular_clean _ (by decide) (by decide)
    · exact regular_flawed _ _ (by decide)

theorem regular_keyword (cs : Text) : (keyword cs).lexeme.Regular := by
  unfold keyword
  split
  · exact regular_clean _ (by decide) (by decide)
  · exact regular_named _ _ (by decide) (by decide)

theorem isSymbolToken_symbolKind (r : Registry) (name : Text) :
    (symbolKind r name).isSymbolToken = true := by
  unfold symbolKind
  split <;> rfl

theorem regular_symbolLexeme (r : Registry) (text : Text) : (symbolLexeme r text).Regular := by
  have isSymbol := isSymbolToken_symbolKind r text
  unfold symbolLexeme
  split
  · exact regular_clean _ (by decide) (by decide)
  split
  · exact regular_clean _ (by decide) (by decide)
  split
  · exact regular_clean _ (by decide) (by decide)
  split
  · exact regular_clean _ (by decide) (by decide)
  · apply regular_named
    · intro h; rw [h] at isSymbol; contradiction
    · intro h; rw [h] at isSymbol; contradiction

theorem regular_character (cs : Text) : (character cs).lexeme.Regular := by
  unfold character
  split
  · exact regular_flawed _ _ (by decide)
  · split
    · exact regular_flawed _ _ (by decide)
    · split
      · exact regular_clean _ (by decide) (by decide)
      · split <;> exact regular_clean _ (by decide) (by decide)

theorem regular_string (cs : Text) : (string cs).lexeme.Regular :=
  ⟨by simp [string], by simp [string]⟩

theorem regular_mark {c : Char} {k : Kind} (h : mark? c = some k) (text : Text) :
    (Lexeme.clean k text).Regular := by
  unfold mark? at h
  split at h <;> cases h <;> exact regular_clean _ (by decide) (by decide)

theorem regular_digit (first : Char) (cs : Text) : (digit first cs).lexeme.Regular := by
  unfold digit
  split
  · exact regular_bytes _
  · exact regular_number ..

theorem regular_scan (r : Registry) (first : Char) (cs : Text) :
    (scan r first cs).lexeme.Regular := by
  unfold scan
  split
  · rename_i marked; exact regular_mark marked _
  · split
    · exact regular_string cs
    split
    · exact regular_character cs
    split
    · exact regular_hash cs
    split
    · exact regular_keyword cs
    split
    · exact regular_digit first cs
    split
    · exact regular_number first cs
    split
    · exact regular_symbolLexeme r _
    · exact regular_flawed _ _ (by decide)

end Scan

namespace Token

/-- Nothing is left after the end of the text. -/
theorem rest_read_of_eof {r : Registry} {offset : Nat} {text : Text}
    (h : (read r offset text).token.kind = .eof) : (read r offset text).rest = [] := by
  simp only [read] at h ⊢
  -- The scanner gives no character the kind of the end, so there was none.
  cases skipped : Trivia.skip .leading text with
  | nil => exact List.eq_nil_of_length_eq_zero (Nat.le_zero.mp (Trivia.length_skip_le .trailing []))
  | cons c cs =>
    rw [skipped] at h
    exact absurd h (Scan.regular_scan r c cs).1

theorem tiles_tokensFrom (r : Registry) (offset : Nat) (text : Text) :
    Tiles offset (tokensFrom r offset text).1 text := by
  fun_induction tokensFrom r offset text with
  | case1 offset text reading isEnd =>
    obtain ⟨before, after, stretch, whole, -, covers⟩ := covers_read r offset text
    rw [rest_read_of_eof isEnd] at whole
    rw [whole]
    exact .cons covers (.nil _)
  | case2 offset text reading notEnd next ih =>
    obtain ⟨before, after, stretch, whole, offsetEq, covers⟩ := covers_read r offset text
    have tiled : Tiles offset (reading.token :: next.1) (stretch ++ reading.rest) := by
      apply Tiles.cons covers
      rw [← offsetEq]
      exact ih
    rwa [← whole] at tiled

theorem tiles_tokenize (text : Text) (r : Registry) : Tiles 0 (tokenize text r).1 text :=
  tiles_tokensFrom r 0 text

/-- The tokens of a text are some that are not its end, and then its end. -/
theorem exists_init_tokensFrom (r : Registry) (offset : Nat) (text : Text) :
    ∃ init last, (tokensFrom r offset text).1 = init ++ [last] ∧ last.kind = .eof ∧
      ∀ t ∈ init, t.kind ≠ .eof := by
  fun_induction tokensFrom r offset text with
  | case1 offset text reading isEnd => exact ⟨[], _, rfl, isEnd, by simp⟩
  | case2 offset text reading notEnd next ih =>
    obtain ⟨init, last, tokensEq, lastEnd, initNotEnd⟩ := ih
    refine ⟨reading.token :: init, last, ?_, lastEnd, ?_⟩
    · simp only [next, tokensEq, List.cons_append]
    · simpa using ⟨notEnd, initNotEnd⟩

/-! ## Cutting tokens out of the text -/

def cover (text : Text) (t : Token) : Text :=
  (Text.slice? text t.fullSpan.start t.fullSpan.stop).getD []

theorem slice?_of_covers {t : Token} {left before after stretch right : Text}
    (covers : t.Covers (Text.size left) before after stretch) :
    Text.slice? (left ++ stretch ++ right) t.fullSpan.start t.fullSpan.stop = some stretch := by
  have whole := congrArg Text.size covers.parts
  have beforeSize := covers.before_size
  have afterSize := covers.after_size
  have startEq := covers.start_eq
  have stopEq := covers.stop_eq
  simp only [Text.size_append] at whole
  have first : t.fullSpan.start = left.size := by simp only [fullSpan]; omega
  have last : t.fullSpan.stop = left.size + stretch.size := by simp only [fullSpan]; omega
  rw [first, last]
  exact Text.slice?_append left stretch right

theorem cover_of_covers {t : Token} {left before after stretch right : Text}
    (covers : t.Covers (Text.size left) before after stretch) :
    cover (left ++ stretch ++ right) t = stretch := by
  rw [cover, slice?_of_covers covers]
  rfl

/-- Tokens that tile the end of a text lie in it, and their stretches make up that end. -/
theorem Tiles.liesIn {offset : Nat} {ts : List Token} {rest : Text} (tiled : Tiles offset ts rest) :
    ∀ left : Text, left.size = offset →
      (∀ t ∈ ts, t.LiesIn (left ++ rest)) ∧ ts.flatMap (cover (left ++ rest)) = rest := by
  -- What has been read moves to the left from token to token, so the text there is left open.
  induction tiled with
  | nil offset => intro left _; simp
  | @cons offset t before after stretch ts rest covers _ ih =>
    intro left leftSize
    subst leftSize
    obtain ⟨tailLies, tailText⟩ := ih (left ++ stretch) (by simp)
    rw [List.append_assoc] at tailLies tailText
    constructor
    · intro u member
      rcases List.mem_cons.mp member with rfl | member
      · exact ⟨left, before, after, stretch, rest, by rw [List.append_assoc], covers⟩
      · exact tailLies u member
    · rw [List.flatMap_cons, tailText, ← List.append_assoc, cover_of_covers covers]

/-- Each token of a text lies in it. -/
theorem liesIn_of_mem_tokenize {text : Text} {r : Registry} {t : Token} (member : t ∈ (tokenize text r).1) :
    t.LiesIn text :=
  ((tiles_tokenize text r).liesIn [] rfl).1 t member

theorem nothing_fits : Trivia.size [] + Trivia.size [] ≤ Text.size [] :=
  Nat.le_refl 0

def leaf (text : Text) (kind : Kind) (t : Token) : Leaf :=
  if fits : Trivia.size t.leading + Trivia.size t.trailing ≤ Text.size (t.cover text) then
    ⟨t.leading, kind, t.cover text, t.trailing, fits⟩
  else ⟨[], kind, [], [], nothing_fits⟩

theorem LiesIn.fits {text : Text} {t : Token} (lies : t.LiesIn text) :
    Trivia.size t.leading + Trivia.size t.trailing ≤ Text.size (t.cover text) := by
  obtain ⟨left, before, after, stretch, right, rfl, covers⟩ := lies
  rw [cover_of_covers covers, covers.parts, ← covers.before_size, ← covers.after_size]
  simp only [Text.size_append]
  omega

theorem LiesIn.leaf_eq {text : Text} {t : Token} (lies : t.LiesIn text) (kind : Kind) :
    t.leaf text kind = ⟨t.leading, kind, t.cover text, t.trailing, lies.fits⟩ := by
  rw [leaf, dif_pos lies.fits]

/-- Without its trivia the leaf of a token is its lexeme. -/
theorem LiesIn.lexeme_leaf {text : Text} {t : Token} (lies : t.LiesIn text) (kind : Kind) :
    (t.leaf text kind).lexeme = t.text := by
  rw [lies.leaf_eq]
  obtain ⟨left, before, after, stretch, right, rfl, covers⟩ := lies
  simp only [Leaf.lexeme, Leaf.trimmed, Leaf.size, cover_of_covers covers]
  have stop : stretch.size - Trivia.size t.trailing = before.size + Text.size t.text := by
    rw [covers.parts, ← covers.after_size]
    simp only [Text.size_append]
    omega
  rw [stop, ← covers.before_size, covers.parts, Text.slice?_append]

end Token

/-! ## The tree of a draft -/

mutual

/-- The tree of a draft, its tokens cut out of the text. -/
def Draft.tree (text : Text) : Draft → Tree
  | .node kind children => .node kind (Draft.trees text children)
  | .leaf (kind, t) => .leaf (t.leaf text kind)

def Draft.trees (text : Text) : List Draft → List Tree
  | [] => []
  | d :: ds => Draft.tree text d :: Draft.trees text ds

end

namespace Draft

variable {text : Text}

@[simp] theorem trees_nil : trees text [] = [] := rfl

@[simp] theorem trees_cons (d : Draft) (ds : List Draft) :
    trees text (d :: ds) = tree text d :: trees text ds := rfl

mutual

theorem text_tree : (d : Draft) → (∀ t ∈ d.tokens, t.LiesIn text) →
    (d.tree text).text = d.tokens.flatMap (Token.cover text)
  | .node kind children, lies => by
    rw [tree, Tree.text, tokens_node]
    exact text_trees children lies
  | .leaf (kind, t), lies => by
    have lies : t.LiesIn text := lies t (by simp [tokens])
    simp [tree, Tree.text, tokens, lies.leaf_eq]

theorem text_trees : (ds : List Draft) → (∀ t ∈ tokensAll ds, t.LiesIn text) →
    Forest.text (trees text ds) = (tokensAll ds).flatMap (Token.cover text)
  | [], _ => rfl
  | d :: ds, lies => by
    simp only [tokensAll_cons, List.mem_append] at lies
    simp only [trees_cons, Forest.text, tokensAll_cons, List.flatMap_append,
      text_tree d fun t member => lies t (.inl member),
      text_trees ds fun t member => lies t (.inr member)]

end

mutual

/-- A draft's tree says what the draft says. -/
theorem sketch_tree : (d : Draft) → (∀ t ∈ d.tokens, t.LiesIn text) →
    (d.tree text).sketch = d.sketch
  | .node kind children, lies => by
    rw [tree, Tree.sketch, sketch_node, sketch_trees children lies]
  | .leaf (kind, t), lies => by
    have lies : t.LiesIn text := lies t (by simp [tokens])
    rw [tree, Tree.sketch, lies.lexeme_leaf, lies.leaf_eq]
    rfl

theorem sketch_trees : (ds : List Draft) → (∀ t ∈ tokensAll ds, t.LiesIn text) →
    Forest.sketch (trees text ds) = ds.map sketch
  | [], _ => rfl
  | d :: ds, lies => by
    simp only [tokensAll_cons, List.mem_append] at lies
    simp only [trees_cons, Forest.sketch, List.map_cons,
      sketch_tree d fun t member => lies t (.inl member),
      sketch_trees ds fun t member => lies t (.inr member)]

end

end Draft

end LispSyntax
