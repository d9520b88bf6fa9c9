import LispSyntax.Proofs.Lexical.Excerpt
import LispSyntax.Proofs.Literal.Plus
import LispSyntax.Token.Stream

/-! # Streams read what the tokenizer reads

A stream is one token ahead of what it hands out, and its diagnostics are those of the token ahead too. `Ahead` is the
state of a stream after so many tokens have been handed out, past the end of the text as well; every call keeps to it
(`Ahead.call`), so whatever is asked, and in which order, is answered from the list of all tokens (`Ahead.run`).
-/

namespace LispSyntax

namespace TokenStream

/-! ## Calls -/

inductive Call where
  | peek
  | next
  | diagnostics
deriving DecidableEq, Repr

inductive Answer where
  | token (t : Token)
  | diagnostics (ds : List Diagnostic)
deriving DecidableEq, Repr

def call (s : TokenStream) : Call → Answer × TokenStream
  | .peek => (.token s.peek, s)
  | .next => (.token s.next.1, s.next.2)
  | .diagnostics => (.diagnostics s.diagnostics, s)

/-- The answers to calls one after the other, and the stream after them. -/
def run (s : TokenStream) : List Call → List Answer × TokenStream
  | [] => ([], s)
  | c :: calls =>
    let (answer, s) := s.call c
    let (answers, s) := s.run calls
    (answer :: answers, s)

def taken (calls : List Call) : Nat :=
  calls.count .next

@[simp] theorem taken_nil : taken [] = 0 := rfl

theorem taken_cons (c : Call) (calls : List Call) : taken (c :: calls) = taken [c] + taken calls := by
  cases c <;> simp [taken, Nat.add_comm]

/-- A token handed out is not one of those handed out before. -/
theorem taken_take_lt {calls : List Call} {i : Nat} (asked : calls[i]? = some .next) :
    taken (calls.take i) < taken calls := by
  have upTo : taken (calls.take (i + 1)) = taken (calls.take i) + 1 := by
    rw [List.take_add_one, asked, taken, List.count_append]
    rfl
  have most : taken (calls.take (i + 1)) ≤ taken calls := (List.take_sublist (i + 1) calls).count_le _
  omega

end TokenStream

namespace Token

/-- The token of the text with the number; behind the last one the end of the text, without trivia. -/
def nth (text : Text) (r : Registry) (n : Nat) : Token :=
  (tokenize text r).1[n]?.getD (endAt (Text.size text))

variable {text : Text} {r : Registry} {n : Nat}

theorem read_nil (r : Registry) (offset : Nat) : read r offset [] = ⟨endAt offset, [], offset, []⟩ := by
  have solid : Writing.Solid [] := fun _ _ same => by contradiction
  simp [read, Trivia.skip, Trivia.read, Writing.cuts_of_solid solid, lexemeOf, endAt, Lexeme.clean, diagnosticsAt,
    Span.ofSize]

/-- Only the last token of a text is its end. -/
theorem length_le_of_nth_eof (isEnd : (nth text r n).kind = .eof) : (tokenize text r).1.length ≤ n + 1 := by
  obtain ⟨init, last, tokensEq, -, notEnd⟩ := exists_init_tokensFrom r 0 text
  rw [nth] at isEnd
  rw [tokenize, tokensEq] at isEnd ⊢
  by_cases inside : n < init.length
  · rw [List.getElem?_append_left inside, List.getElem?_eq_getElem inside] at isEnd
    exact absurd isEnd (notEnd _ (List.getElem_mem inside))
  · rw [List.length_append, List.length_singleton]
    omega

end Token

namespace TokenStream

open Token

variable {text : Text} {r : Registry} {n : Nat} {s : TokenStream}

/-! ## The state of a stream -/

/-- So many tokens of the text have been handed out. -/
structure Ahead (text : Text) (r : Registry) (n : Nat) (s : TokenStream) : Prop where
  registry : s.registry = r
  current : s.current = nth text r n
  diagnostics : s.diagnostics = ((tokenize text r).1.take (n + 1)).flatMap Token.diagnostics
  place : s.offset + Text.size s.rest = Text.size text
  going : s.current.kind ≠ .eof → (tokensFrom r s.offset s.rest).1 = (tokenize text r).1.drop (n + 1)
  ended : s.current.kind = .eof → s.rest = []

/-- Reading the token with the number leads there. -/
theorem ahead_read {offset : Nat} {rest : Text} {ds : List Diagnostic}
    (recorded : ds = ((tokenize text r).1.take n).flatMap Token.diagnostics)
    (place : offset + Text.size rest = Text.size text)
    (upcoming : (tokensFrom r offset rest).1 = (tokenize text r).1.drop n) :
    Ahead text r n ⟨r, (read r offset rest).token, ds ++ (read r offset rest).diagnostics, (read r offset rest).offset,
      (read r offset rest).rest⟩ := by
  have unfolded : ∃ after, (tokensFrom r offset rest).1 = (read r offset rest).token :: after ∧
      ((read r offset rest).token.kind ≠ .eof →
        (tokensFrom r (read r offset rest).offset (read r offset rest).rest).1 = after) := by
    rw [tokensFrom]
    split
    · rename_i isEnd
      exact ⟨[], rfl, fun notEnd => absurd isEnd notEnd⟩
    · exact ⟨_, rfl, fun _ => rfl⟩
  obtain ⟨after, first, going⟩ := unfolded
  rw [upcoming] at first
  have found : (tokenize text r).1[n]? = some (read r offset rest).token := by
    rw [← List.head?_drop, first, List.head?_cons]
  refine ⟨rfl, ?_, ?_, ?_, ?_, rest_read_of_eof⟩
  · rw [nth, found, Option.getD_some]
  · rw [List.take_add_one, found, Option.toList_some, List.flatMap_append, List.flatMap_singleton, ← recorded,
      diagnostics_read]
  · rw [size_rest_read, place]
  · intro notEnd
    rw [going notEnd, ← List.drop_drop, first, List.drop_succ_cons, List.drop_zero]

theorem ahead_ofText (text : Text) (r : Registry) : Ahead text r 0 (ofText text r) := by
  have recorded : ([] : List Diagnostic) = ((tokenize text r).1.take 0).flatMap Token.diagnostics := rfl
  exact ahead_read recorded (Nat.zero_add (Text.size text)) rfl

namespace Ahead

/-- Handing out a token leads to the next one, or stays at the end. -/
theorem next (ahead : Ahead text r n s) : Ahead text r (n + 1) s.next.2 := by
  by_cases isEnd : s.current.kind = .eof
  · -- Behind the end nothing is left, and the end is read again without its trivia.
    have none := ahead.ended isEnd
    have place := ahead.place
    rw [none, Text.size_nil, Nat.add_zero] at place
    have all : (tokenize text r).1.length ≤ n + 1 := length_le_of_nth_eof (by rw [← ahead.current]; exact isEnd)
    have nextEq : s.next.2 = ⟨r, endAt (Text.size text), s.diagnostics, Text.size text, []⟩ := by
      simp only [TokenStream.next, ahead.registry, none, place, read_nil, List.append_nil]
    rw [nextEq]
    refine ⟨rfl, ?_, ?_, Nat.add_zero _, fun notEnd => absurd rfl notEnd, fun _ => rfl⟩
    · rw [nth, List.getElem?_eq_none all, Option.getD_none]
    · rw [ahead.diagnostics, List.take_of_length_le all, List.take_of_length_le (Nat.le_succ_of_le all)]
  · have read := ahead_read ahead.diagnostics ahead.place (ahead.going isEnd)
    rw [TokenStream.next, ahead.registry]
    exact read

/-- What one call does: it answers from where the stream is, and only `next` moves on. -/
theorem call (ahead : Ahead text r n s) (c : Call) : Ahead text r (n + taken [c]) (s.call c).2 := by
  cases c with
  | peek => exact ahead
  | next => exact ahead.next
  | diagnostics => exact ahead

/-- Each call of a run is answered from where the calls in front of it have led. -/
theorem run (ahead : Ahead text r n s) (calls : List Call) :
    Ahead text r (n + taken calls) (s.run calls).2 ∧
      ∀ (i : Nat) c, calls[i]? = some c → ∃ s', Ahead text r (n + taken (calls.take i)) s' ∧
        (s.run calls).1[i]? = some (s'.call c).1 := by
  -- Behind the first call it is another stream, further on in the text, so both are left open.
  induction calls generalizing n s with
  | nil => exact ⟨ahead, by simp⟩
  | cons first calls inductionHypothesis =>
    obtain ⟨final, answers⟩ := inductionHypothesis (ahead.call first)
    refine ⟨?_, ?_⟩
    · rw [taken_cons, ← Nat.add_assoc]
      exact final
    · intro i c asked
      cases i with
      | zero =>
        obtain rfl : first = c := by simpa using asked
        exact ⟨s, ahead, rfl⟩
      | succ i =>
        obtain ⟨s', ahead', answer⟩ := answers i c (by simpa using asked)
        refine ⟨s', ?_, by simpa [TokenStream.run] using answer⟩
        rw [List.take_succ_cons, taken_cons, ← Nat.add_assoc]
        exact ahead'

/-- Once the end is the next token, all diagnostics are recorded. -/
theorem diagnostics_eq (ahead : Ahead text r n s) (all : (tokenize text r).1.length ≤ n + 1) :
    s.diagnostics = (tokenize text r).2 := by
  rw [ahead.diagnostics, List.take_of_length_le all]
  exact (diagnostics_tokensFrom r 0 text).symm

/-- The diagnostics recorded are the first ones of the text, and all those of the tokens up to the next. -/
theorem recorded (ahead : Ahead text r n s) :
    s.diagnostics <+: (tokenize text r).2 ∧
      ∀ t ∈ (tokenize text r).1.take (n + 1), ∀ d ∈ (tokenize text r).2, t.Holds d → d ∈ s.diagnostics := by
  have all : (tokenize text r).2 = (tokenize text r).1.flatMap Token.diagnostics := diagnostics_tokensFrom r 0 text
  rw [ahead.diagnostics]
  constructor
  · refine ⟨((tokenize text r).1.drop (n + 1)).flatMap Token.diagnostics, ?_⟩
    rw [← List.flatMap_append, List.take_append_drop, all]
  · intro t member d reported inside
    have own : d ∈ (tokenize text r).2.filter fun d => t.Holds d :=
      List.mem_filter.mpr ⟨reported, decide_eq_true inside⟩
    rw [filter_holds_tokenize (List.mem_of_mem_take member)] at own
    exact List.mem_flatMap.mpr ⟨t, member, own⟩

end Ahead

end TokenStream

open TokenStream

/-- A stream agrees with the tokenizer whatever it is asked for, and in which order. A call of `next` or `peek` is
answered by the token that comes after those handed out before; behind the last that is the end of the text, without
trivia. The diagnostics recorded at any time are a first part of all, with those of the tokens handed out and of the
next one; once the end has been handed out they are all. -/
theorem stream_agrees (text : Text) (r : Registry) (calls : List Call) :
    (∀ (i : Nat) c, calls[i]? = some c → ∃ answer, ((ofText text r).run calls).1[i]? = some answer ∧
      match c with
      | .diagnostics => ∃ ds, answer = .diagnostics ds ∧ ds <+: (Token.tokenize text r).2 ∧
          ∀ t ∈ (Token.tokenize text r).1.take (taken (calls.take i) + 1),
            ∀ d ∈ (Token.tokenize text r).2, t.Holds d → d ∈ ds
      | _ => answer = .token ((Token.tokenize text r).1[taken (calls.take i)]?.getD
          ⟨[], .eof, [], Span.empty (Text.size text), []⟩)) ∧
    (∀ s : TokenStream, s.call .peek = (.token s.next.1, s)) ∧
    ((ofText text r).run calls).2.finish <+: (Token.tokenize text r).2 ∧
    ((∃ (i : Nat) (t : Token), calls[i]? = some .next ∧ ((ofText text r).run calls).1[i]? = some (.token t) ∧
        t.kind = .eof) →
      ((ofText text r).run calls).2.finish = (Token.tokenize text r).2) := by
  obtain ⟨final, answers⟩ := (ahead_ofText text r).run calls
  rw [Nat.zero_add] at final
  simp only [Nat.zero_add] at answers
  refine ⟨?_, fun s => rfl, final.recorded.1, ?_⟩
  · intro i c asked
    obtain ⟨s, ahead, answer⟩ := answers i c asked
    refine ⟨_, answer, ?_⟩
    cases c with
    | peek => exact congrArg Answer.token ahead.current
    | next => exact congrArg Answer.token ahead.current
    | diagnostics => exact ⟨_, rfl, ahead.recorded⟩
  · rintro ⟨i, t, asked, answer, isEnd⟩
    obtain ⟨s, ahead, answer'⟩ := answers i .next asked
    obtain rfl : s.current = t := by
      rw [answer] at answer'
      injection answer' with same
      injection same with same
      exact same.symm
    rw [ahead.current] at isEnd
    have all := Token.length_le_of_nth_eof isEnd
    have before := taken_take_lt asked
    exact final.diagnostics_eq (by omega)

/-- The diagnostics of the token ahead are there before it is handed out, and past the end it is handed out again. -/
example : ((ofText "a #".toList .empty).run [.diagnostics, .next, .diagnostics, .next, .peek, .next, .next]).1.map
    (fun | .token t => (t.text, 0) | .diagnostics ds => ([], ds.length)) =
      [([], 0), (['a'], 0), ([], 1), (['#'], 0), ([], 0), ([], 0), ([], 0)] := by
  decide +kernel

end LispSyntax
