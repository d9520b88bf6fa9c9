/-! # Source text

A text is a list of characters, while every position, length and range of this library counts UTF-8
bytes. `Text.size` is the bridge, and the byte slices `Text.drop?`, `Text.take?` and `Text.slice?`
refuse to end inside a character or past the end. The lemma `Text.slice?_append` says that slicing
at the sizes of three neighbouring pieces gives back the middle one.
-/

namespace LispSyntax

abbrev Text := List Char

namespace Text

/-- Length in UTF-8 bytes. -/
def size : Text → Nat
  | [] => 0
  | c :: cs => c.utf8Size + size cs

@[simp] theorem size_nil : size [] = 0 := rfl

@[simp] theorem size_cons (c : Char) (cs : Text) : size (c :: cs) = c.utf8Size + size cs := rfl

@[simp] theorem size_append (a b : Text) : size (a ++ b) = size a + size b := by
  induction a with
  | nil => simp
  | cons c cs ih => simp [ih, Nat.add_assoc]

/-- Only the empty text has size zero: every character takes at least one byte. -/
@[simp] theorem size_eq_zero {a : Text} : size a = 0 ↔ a = [] := by
  cases a with
  | nil => simp
  | cons c cs => have := c.utf8Size_pos; simp; omega

theorem length_le_size (a : Text) : a.length ≤ size a := by
  induction a with
  | nil => exact Nat.le_refl 0
  | cons c cs ih =>
    have pos := c.utf8Size_pos
    rw [List.length_cons, size_cons]
    omega

/-- What follows the given beginning. -/
def after? : Text → Text → Option Text
  | [], cs => some cs
  | _ :: _, [] => none
  | a :: as, c :: cs => if a = c then after? as cs else none

theorem after?_eq_some_iff {start text rest : Text} : after? start text = some rest ↔ start ++ rest = text := by
  fun_induction after? start text with
  | case1 cs => simp [eq_comm]
  | case2 a as => simp
  | case3 a as cs inductionHypothesis => simpa using inductionHypothesis
  | case4 a as c cs differ => simp [differ]

/-! ## Byte slices -/

/-- What follows the first `n` bytes, if these are whole characters. -/
def drop? : Text → Nat → Option Text
  | cs, 0 => some cs
  | [], _ + 1 => none
  | c :: cs, n + 1 => if c.utf8Size ≤ n + 1 then drop? cs (n + 1 - c.utf8Size) else none

/-- The first `n` bytes, if these are whole characters. -/
def take? : Text → Nat → Option Text
  | _, 0 => some []
  | [], _ + 1 => none
  | c :: cs, n + 1 =>
    if c.utf8Size ≤ n + 1 then (take? cs (n + 1 - c.utf8Size)).map (c :: ·) else none

/-- The bytes from `start` up to `stop`, if both are character boundaries in this order. -/
def slice? (text : Text) (start stop : Nat) : Option Text :=
  if start ≤ stop then (drop? text start).bind (take? · (stop - start)) else none

/-- Whether the byte offset is the end of the text or the start of one of its characters. -/
def isBoundary (text : Text) (offset : Nat) : Bool :=
  (drop? text offset).isSome

theorem drop?_append (a b : Text) : drop? (a ++ b) a.size = some b := by
  induction a with
  | nil => cases b <;> rfl
  | cons c cs ih =>
    have pos := c.utf8Size_pos
    obtain ⟨n, hn⟩ : ∃ n, c.utf8Size + size cs = n + 1 := ⟨c.utf8Size + size cs - 1, by omega⟩
    have fits : c.utf8Size ≤ n + 1 := by omega
    have left : n + 1 - c.utf8Size = size cs := by omega
    simp [hn, drop?, fits, left, ih]

theorem take?_append (a b : Text) : take? (a ++ b) a.size = some a := by
  induction a with
  | nil => cases b <;> rfl
  | cons c cs ih =>
    have pos := c.utf8Size_pos
    obtain ⟨n, hn⟩ : ∃ n, c.utf8Size + size cs = n + 1 := ⟨c.utf8Size + size cs - 1, by omega⟩
    have fits : c.utf8Size ≤ n + 1 := by omega
    have left : n + 1 - c.utf8Size = size cs := by omega
    simp [hn, take?, fits, left, ih]

/-- Slicing at the sizes of three neighbouring pieces gives back the middle one. -/
theorem slice?_append (a b c : Text) : slice? (a ++ b ++ c) a.size (a.size + b.size) = some b := by
  have ordered : a.size ≤ a.size + b.size := Nat.le_add_right ..
  have width : a.size + b.size - a.size = b.size := Nat.add_sub_cancel_left ..
  rw [slice?, if_pos ordered, List.append_assoc, drop?_append, width]
  exact take?_append b c

/-- A boundary is where the text can be divided. -/
theorem isBoundary_iff {text : Text} {offset : Nat} :
    isBoundary text offset = true ↔ ∃ before after, text = before ++ after ∧ size before = offset := by
  constructor
  · intro boundary
    rw [isBoundary] at boundary
    fun_induction drop? text offset with
    | case1 text => exact ⟨[], text, rfl, rfl⟩
    | case2 => contradiction
    | case3 c text n fits inductionHypothesis =>
      obtain ⟨before, after, rfl, beforeSize⟩ := inductionHypothesis boundary
      refine ⟨c :: before, after, rfl, ?_⟩
      rw [size_cons, beforeSize]
      omega
    | case4 => contradiction
  · rintro ⟨before, after, rfl, rfl⟩
    rw [isBoundary, drop?_append]
    rfl

theorem le_size_of_isBoundary {text : Text} {offset : Nat} (boundary : isBoundary text offset = true) :
    offset ≤ size text := by
  obtain ⟨before, after, rfl, rfl⟩ := isBoundary_iff.mp boundary
  rw [size_append]
  exact Nat.le_add_right ..

end Text

end LispSyntax
