import LispSyntax.Parser

/-! # Slots of the log

A marker has 32 bits for the slot of its start, and a log can have more entries than that. A start that is logged behind
all slots gets a marker that stands for an earlier entry: it is never filled in itself, and what is filled in, ended or
linked instead is another node, or an entry that is no start. A log in which this has happened is not what the grammar
meant, so all that is said of logs is said of those whose starts have slots (`Parser.Addressed`).

What an operation does to the log in any case is `Parser.Grows`: how many starts and ends it logs, and that a start
behind all slots stays as it is. That is enough to know that the replay notices. It ends at most as many nodes as there
are starts that are filled in (`Event.isFinish_le_of_replay`), so a log with as many starts as ends is finished only if
none of its starts was left over (`Parser.isTombstone_of_finish`).
-/

namespace LispSyntax

theorem exists_of_bind_eq_ok {ε α β : Type} {x : Except ε α} {f : α → Except ε β} {b : β}
    (h : x >>= f = .ok b) : ∃ a, x = .ok a ∧ f a = .ok b := by
  cases x with
  | error fault => contradiction
  | ok a => exact ⟨a, rfl, h⟩

/-- Setting an entry to one that counts as the old one did. -/
theorem countP_set_eq {α : Type} {f : α → Bool} {as : List α} {i : Nat} {a b : α} (found : as[i]? = some a)
    (same : f b = f a) : (as.set i b).countP f = as.countP f := by
  obtain ⟨below, rfl⟩ := List.getElem?_eq_some_iff.mp found
  have least := List.boole_getElem_le_countP (p := f) below
  rw [List.countP_set below, same]
  omega

namespace Event

def isStart : Event → Bool
  | .start .. => true
  | _ => false

def isFinish : Event → Bool
  | .finish => true
  | _ => false

/-- Whether the entry is a start that is not filled in. -/
def isTombstone : Event → Bool
  | .start .tombstone _ => true
  | _ => false

/-- Whether the entry is a start that is filled in. -/
def isFilled : Event → Bool
  | .start kind _ => kind != .tombstone
  | _ => false

theorem countP_isStart (es : List Event) :
    es.countP isStart = es.countP isFilled + es.countP isTombstone := by
  induction es with
  | nil => rfl
  | cons e es ih =>
    rw [List.countP_cons, List.countP_cons, List.countP_cons, ih]
    cases e with
    | start kind link => cases kind <;> simp [isStart, isFilled, isTombstone] <;> omega
    | token kind => simp [isStart, isFilled, isTombstone]
    | finish => simp [isStart, isFilled, isTombstone]

/-! ## What a replay ends -/

/-- How many nodes are open, or can still be opened by what is left of the log. -/
def Replay.openable (s : Replay) : Nat :=
  s.builder.stack.length + s.events.toList.countP isFilled

/-- Dealing with a start takes it from those that are filled in. -/
theorem countP_isFilled_erase {events : Array Event} {slot : Nat} {kind : Kind} {link : Option Nat}
    (found : events[slot]? = some (.start kind link)) :
    (events.setIfInBounds slot tombstone).toList.countP isFilled + (if kind = .tombstone then 0 else 1) =
      events.toList.countP isFilled := by
  obtain ⟨below, entry⟩ := Array.getElem?_eq_some_iff.mp found
  have entry : events.toList.get ⟨slot, by simpa using below⟩ = .start kind link := by simpa using entry
  rw [List.get_eq_getElem] at entry
  have least := List.boole_getElem_le_countP (p := isFilled) (l := events.toList) (by simpa using below)
  rw [Array.toList_setIfInBounds, List.countP_set (by simpa using below)]
  rw [entry] at least ⊢
  by_cases unfilled : kind = .tombstone
  · simp [unfilled, isFilled, tombstone]
  · have filled : isFilled (.start kind link) = true := by simpa [isFilled] using unfilled
    have erased : isFilled tombstone = false := rfl
    simp only [filled, erased, unfilled, if_true, if_false, Bool.false_eq_true] at least ⊢
    omega

theorem getElem?_eq_finish_erase {events : Array Event} {slot : Nat} {kind : Kind} {link : Option Nat}
    (found : events[slot]? = some (.start kind link)) (place : Nat) :
    (events.setIfInBounds slot tombstone)[place]? = some .finish ↔ events[place]? = some .finish := by
  by_cases here : slot = place
  · subst here
    obtain ⟨below, -⟩ := Array.getElem?_eq_some_iff.mp found
    rw [Array.getElem?_setIfInBounds_self_of_lt below, found]
    simp [tombstone]
  · rw [Array.getElem?_setIfInBounds_ne here]

/-- Following links opens a node for each start that is filled in and dealt with on the way. -/
theorem openable_follow {fuel index : Nat} {events events' : Array Event} {link : Option Nat}
    {kinds kinds' : List Kind} (followed : follow fuel events index link kinds = .ok (events', kinds')) :
    events'.toList.countP isFilled + kinds'.length = events.toList.countP isFilled + kinds.length ∧
      ∀ place : Nat, events'[place]? = some .finish ↔ events[place]? = some .finish := by
  fun_induction follow fuel events index link kinds with
  | case1 =>
    cases followed
    exact ⟨rfl, fun place => Iff.rfl⟩
  | case2 => cases followed
  | case3 events index kinds fuel distance target kind forward found kindsFound ih =>
    obtain ⟨count, kept⟩ := ih followed
    have erased := countP_isFilled_erase found
    refine ⟨?_, fun place => (kept place).trans (getElem?_eq_finish_erase found place)⟩
    by_cases unfilled : kind = .tombstone
    · rw [if_pos unfilled] at erased
      simp only [kindsFound, if_pos unfilled] at count
      omega
    · rw [if_neg unfilled] at erased
      simp only [kindsFound, if_neg unfilled, List.length_cons] at count
      omega
  | case4 => cases followed

theorem length_stack_start {b b' : Builder} {kind : Kind} (started : b.start kind = .ok b') :
    b'.stack.length = b.stack.length + 1 := by
  unfold Builder.start at started
  split at started
  · cases started
    rfl
  · contradiction

theorem length_stack_startAll {b b' : Builder} {kinds : List Kind} (started : startAll b kinds = .ok b') :
    b'.stack.length = b.stack.length + kinds.length := by
  induction kinds generalizing b with
  | nil =>
    cases started
    rfl
  | cons kind kinds ih =>
    rw [startAll, List.foldlM_cons] at started
    obtain ⟨next, entered, started⟩ := exists_of_bind_eq_ok started
    rw [ih started, length_stack_start entered, List.length_cons]
    omega

theorem length_stack_add (b : Builder) (t : Tree) : (b.add t).stack.length = b.stack.length := by
  unfold Builder.add
  split
  · rfl
  · rename_i stackEq
    simp [stackEq]

theorem length_stack_finishNode {b b' : Builder} (finished : b.finishNode = .ok b') :
    b'.stack.length + 1 = b.stack.length := by
  unfold Builder.finishNode at finished
  split at finished
  · contradiction
  · rename_i stackEq
    cases finished
    rw [length_stack_add, stackEq, List.length_cons]

theorem length_stack_token {b b' : Builder} {leading trailing : Trivia} {kind : Kind} {span : Span}
    (taken : b.token leading kind span trailing = .ok b') : b'.stack.length = b.stack.length := by
  unfold Builder.token at taken
  split at taken
  · contradiction
  split at taken
  · contradiction
  split at taken
  · contradiction
  · obtain ⟨leaf, -, taken⟩ := exists_of_bind_eq_ok taken
    cases taken
    exact length_stack_add b _

/-- A step changes what can be opened just by ending a node, and leaves the ends alone. -/
theorem openable_step {s s' : Replay} {index : Nat} (stepped : step s index = .ok s') :
    s'.openable + (if s.events[index]? = some .finish then 1 else 0) = s.openable ∧
      ∀ place : Nat, s'.events[place]? = some .finish ↔ s.events[place]? = some .finish := by
  unfold step at stepped
  split at stepped
  · rename_i none
    cases stepped
    exact ⟨by simp [none], fun place => Iff.rfl⟩
  · rename_i kind link found
    have erased := countP_isFilled_erase found
    have kept := getElem?_eq_finish_erase found
    -- What was filled in is open now, so the sum stays as it is.
    rw [found, if_neg (by simp)]
    simp only at stepped
    split at stepped
    · rename_i unfilled
      cases stepped
      rw [if_pos unfilled] at erased
      exact ⟨by simpa [Replay.openable] using erased, kept⟩
    · rename_i filled
      obtain ⟨⟨events, kinds⟩, followed, stepped⟩ := exists_of_bind_eq_ok stepped
      obtain ⟨b, started, stepped⟩ := exists_of_bind_eq_ok stepped
      cases stepped
      obtain ⟨count, kept'⟩ := openable_follow followed
      refine ⟨?_, fun place => (kept' place).trans (kept place)⟩
      rw [if_neg filled] at erased
      have opened : b.stack.length = s.builder.stack.length + kinds.length := length_stack_startAll started
      simp only [List.length_singleton] at count
      simp only [Replay.openable]
      omega
  · -- An end is the one entry that takes from the sum.
    rename_i found
    obtain ⟨b, finished, stepped⟩ := exists_of_bind_eq_ok stepped
    cases stepped
    have closed := length_stack_finishNode finished
    rw [found, if_pos rfl]
    refine ⟨?_, fun place => Iff.rfl⟩
    simp only [Replay.openable]
    omega
  · rename_i found
    rw [found, if_neg (by simp)]
    split at stepped
    · contradiction
    · obtain ⟨b, taken, stepped⟩ := exists_of_bind_eq_ok stepped
      cases stepped
      exact ⟨by simp [Replay.openable, length_stack_token taken], fun place => Iff.rfl⟩

/-- What can be opened only goes down, by one for every end. -/
theorem openable_foldlM {indices : List Nat} {s s' : Replay} (replayed : indices.foldlM step s = .ok s') :
    s'.openable + indices.countP (fun index => s.events[index]? = some .finish) = s.openable := by
  induction indices generalizing s with
  | nil =>
    cases replayed
    simp
  | cons index indices ih =>
    rw [List.foldlM_cons] at replayed
    obtain ⟨next, stepped, replayed⟩ := exists_of_bind_eq_ok replayed
    obtain ⟨count, kept⟩ := openable_step stepped
    have later := ih replayed
    simp only [kept] at later
    rw [List.countP_cons]
    simp only [decide_eq_true_eq]
    omega

theorem countP_range_finish (es : List Event) :
    (List.range es.length).countP (fun index => es[index]? = some .finish) = es.countP isFinish := by
  induction es with
  | nil => rfl
  | cons e es ih =>
    rw [List.length_cons, List.range_succ_eq_map, List.countP_cons, List.countP_map, List.countP_cons, ← ih]
    congr 1
    cases e <;> simp [isFinish]

/-- If as many nodes are ended as are started, and those that are ended were opened, then no start is left open. -/
theorem isTombstone_eq_false_of_countP {es : List Event} (paired : es.countP isStart = es.countP isFinish)
    (ended : es.countP isFinish ≤ es.countP isFilled) : ∀ e ∈ es, e.isTombstone = false := by
  have none : es.countP isTombstone = 0 := by
    rw [countP_isStart] at paired
    omega
  intro e member
  exact Bool.eq_false_iff.mpr (List.countP_eq_zero.mp none e member)

/-- Replaying all of a log without fault ends at most as many nodes as are open or can be opened. -/
theorem isFinish_le_of_foldlM {es : List Event} {tokens : List Token} {b : Builder} {s : Replay}
    (replayed : (List.range es.length).foldlM step ⟨es.toArray, tokens, b⟩ = .ok s) :
    s.builder.stack.length + es.countP isFinish ≤ b.stack.length + es.countP isFilled := by
  have count := openable_foldlM replayed
  simp only [List.getElem?_toArray, countP_range_finish, Replay.openable] at count
  omega

theorem isFinish_le_of_replay {text : Text} {tokens : List Token} {events : Array Event} {t : Tree}
    (replayed : replay text tokens events = .ok t) :
    events.toList.countP isFinish ≤ events.toList.countP isFilled := by
  obtain ⟨done, stepped, -⟩ := exists_of_bind_eq_ok replayed
  rw [← Array.length_toList] at stepped
  have count : _ + events.toList.countP isFinish ≤ _ := isFinish_le_of_foldlM stepped
  simp only [Builder.ofText, List.length_nil] at count
  omega

end Event

namespace Parser

open Event

/-! ## Entries behind all slots -/

/-- The entries that no slot stands for. -/
def beyond (p : Parser) : List Event :=
  p.events.toList.drop sizeLimit

/-- Every start of the log has a slot. -/
def Addressed (p : Parser) : Prop :=
  ∀ e ∈ p.beyond, e.isStart = false

theorem addressed_of_size_le {p : Parser} (short : p.events.size ≤ sizeLimit) : p.Addressed := by
  intro e member
  rw [beyond, List.drop_eq_nil_of_le (by simpa using short)] at member
  contradiction

theorem beyond_of_push {p q : Parser} {e : Event} (events : q.events = p.events.push e) :
    q.beyond = p.beyond ++ [e].drop (sizeLimit - p.events.size) := by
  rw [beyond, events, Array.toList_push, List.drop_append, Array.length_toList]
  rfl

theorem toNat_slot_lt (slot : UInt32) : slot.toNat < sizeLimit :=
  slot.toNat_lt

theorem drop_setIfInBounds (events : Array Event) (slot : UInt32) (e : Event) :
    (events.setIfInBounds slot.toNat e).toList.drop sizeLimit = events.toList.drop sizeLimit := by
  rw [Array.toList_setIfInBounds, List.drop_set_of_lt (toNat_slot_lt slot)]

theorem addressed_of_push {p q : Parser} {e : Event} (addressed : p.Addressed) (events : q.events = p.events.push e)
    (noStart : e.isStart = false) : q.Addressed := by
  intro f member
  rw [beyond_of_push events] at member
  cases List.mem_append.mp member with
  | inl before => exact addressed f before
  | inr last =>
    rw [List.mem_singleton.mp (List.mem_of_mem_drop last)]
    exact noStart

theorem addressed_start_iff {p : Parser} :
    p.start.2.Addressed ↔ p.Addressed ∧ p.events.size < sizeLimit := by
  have beyond : p.start.2.beyond = p.beyond ++ [tombstone].drop (sizeLimit - p.events.size) := beyond_of_push rfl
  constructor
  · intro addressed
    refine ⟨fun e member => addressed e (by rw [beyond]; exact List.mem_append_left _ member), ?_⟩
    refine Nat.lt_of_not_le fun behind => ?_
    have isStart := addressed tombstone (by rw [beyond, Nat.sub_eq_zero_of_le behind]; simp)
    contradiction
  · rintro ⟨addressed, below⟩ e member
    rw [beyond, List.drop_eq_nil_of_le (by simp; omega), List.append_nil] at member
    exact addressed e member

/-- If every start has a slot then the marker of the last one stands for it. -/
theorem toNat_slot_start {p : Parser} (addressed : p.start.2.Addressed) :
    p.start.1.slot.toNat = p.events.size :=
  UInt32.toNat_ofNat_of_lt' (addressed_start_iff.mp addressed).2

theorem addressed_complete {p : Parser} (addressed : p.Addressed) (m : Marker) (kind : Kind) :
    (p.complete m kind).2.Addressed := by
  simp only [complete]
  split
  · rename_i link found
    let filled : Parser := { p with events := p.events.setIfInBounds m.slot.toNat (.start kind link) }
    have same : filled.Addressed := by
      rw [Addressed, beyond, drop_setIfInBounds]
      exact addressed
    exact addressed_of_push (e := .finish) same rfl rfl
  · exact addressed

theorem size_precede (p : Parser) (c : Completed) : (p.precede c).2.events.size = p.events.size + 1 := by
  simp only [precede]
  split
  · split <;> simp [start, fail]
  · simp [start, fail]

theorem beyond_precede (p : Parser) (c : Completed) : (p.precede c).2.beyond = p.start.2.beyond := by
  simp only [precede]
  split
  · split
    · rfl
    · rw [beyond, drop_setIfInBounds]
      rfl
  · rfl

/-! ## What operations log -/

/-- From `p` to `q` as many nodes are started and ended, with so many entries at most. -/
structure Grows (p : Parser) (started ended entries : Nat) (q : Parser) : Prop where
  beyond : ∃ es, q.beyond = p.beyond ++ es ∧ ∀ e ∈ es, e.isStart = true → e = tombstone
  size_ge : p.events.size ≤ q.events.size
  size : q.events.size ≤ p.events.size + entries
  counts : q.fault = none → p.fault = none ∧
    q.events.toList.countP isStart = p.events.toList.countP isStart + started ∧
    q.events.toList.countP isFinish = p.events.toList.countP isFinish + ended

namespace Grows

variable {p q r : Parser} {started ended entries started' ended' entries' : Nat}

theorem of_events (events : q.events = p.events) (fault : q.fault = p.fault) : Grows p 0 0 entries q where
  beyond := ⟨[], by rw [Parser.beyond, Parser.beyond, events, List.append_nil], by simp⟩
  size_ge := Nat.le_of_eq (congrArg Array.size events.symm)
  size := by rw [events]; exact Nat.le_add_right _ _
  counts noFault := ⟨fault ▸ noFault, by rw [events]; rfl, by rw [events]; rfl⟩

theorem refl (p : Parser) : Grows p 0 0 0 p :=
  .of_events rfl rfl

theorem cast (grows : Grows p started ended entries q) (starts : started = started') (ends : ended = ended')
    (size : entries = entries') : Grows p started' ended' entries' q :=
  starts ▸ ends ▸ size ▸ grows

/-- Only the log and the fault matter. -/
theorem congr {p' q' : Parser} (grows : Grows p started ended entries q) (events : p'.events = p.events)
    (fault : p'.fault = p.fault) (events' : q'.events = q.events) (fault' : q'.fault = q.fault) :
    Grows p' started ended entries q' where
  beyond := by
    rw [Parser.beyond, Parser.beyond, events, events']
    exact grows.beyond
  size_ge := by
    rw [events, events']
    exact grows.size_ge
  size := by
    rw [events, events']
    exact grows.size
  counts := by
    rw [events, events', fault, fault']
    exact grows.counts

theorem trans (first : Grows p started ended entries q) (second : Grows q started' ended' entries' r) :
    Grows p (started + started') (ended + ended') (entries + entries') r where
  beyond := by
    obtain ⟨es, before, unfilled⟩ := first.beyond
    obtain ⟨fs, after, unfilled'⟩ := second.beyond
    refine ⟨es ++ fs, by rw [after, before, List.append_assoc], fun e member => ?_⟩
    exact (List.mem_append.mp member).elim (unfilled e) (unfilled' e)
  size_ge := Nat.le_trans first.size_ge second.size_ge
  size := by
    have before := first.size
    have after := second.size
    omega
  counts noFault := by
    obtain ⟨noFault, starts, ends⟩ := second.counts noFault
    obtain ⟨noFault, starts', ends'⟩ := first.counts noFault
    exact ⟨noFault, by omega, by omega⟩

/-- One more entry, which is no start that is filled in. -/
theorem of_push {e : Event} (events : q.events = p.events.push e) (fault : q.fault = none → p.fault = none)
    (unfilled : e.isStart = true → e = tombstone) : Grows p e.isStart.toNat e.isFinish.toNat 1 q where
  beyond := by
    refine ⟨_, beyond_of_push events, fun f member => ?_⟩
    rw [List.mem_singleton.mp (List.mem_of_mem_drop member)]
    exact unfilled
  size_ge := by rw [events, Array.size_push]; exact Nat.le_succ _
  size := Nat.le_of_eq (by rw [events, Array.size_push])
  counts noFault := by
    refine ⟨fault noFault, ?_, ?_⟩ <;> rw [events, Array.toList_push, List.countP_append, List.countP_singleton] <;>
      cases e <;> rfl

/-- A start that gets another kind or link, if it has a slot. -/
theorem of_set {slot : UInt32} {kind : Kind} {link : Option Nat} (kind' : Kind) (link' : Option Nat)
    (found : p.events[slot.toNat]? = some (.start kind link))
    (events : q.events = p.events.setIfInBounds slot.toNat (.start kind' link')) (fault : q.fault = p.fault) :
    Grows p 0 0 0 q where
  beyond := ⟨[], by rw [Parser.beyond, Parser.beyond, events, drop_setIfInBounds, List.append_nil], by simp⟩
  size_ge := by simp [events]
  size := by simp [events]
  counts noFault := by
    rw [← Array.getElem?_toList] at found
    have starts := countP_set_eq (f := isStart) (b := .start kind' link') found rfl
    have ends := countP_set_eq (f := isFinish) (b := .start kind' link') found rfl
    rw [events, Array.toList_setIfInBounds, starts, ends]
    exact ⟨fault ▸ noFault, rfl, rfl⟩

/-- After a fault nothing is counted any more. -/
theorem of_fault (events : q.events = p.events) (fault : q.fault ≠ none) : Grows p started ended entries q where
  beyond := ⟨[], by rw [Parser.beyond, Parser.beyond, events, List.append_nil], by simp⟩
  size_ge := Nat.le_of_eq (congrArg Array.size events.symm)
  size := by rw [events]; exact Nat.le_add_right _ _
  counts noFault := absurd noFault fault

theorem addressed (grows : Grows p started ended entries q) (addressed : q.Addressed) : p.Addressed := by
  obtain ⟨es, eventsEq, -⟩ := grows.beyond
  intro e member
  apply addressed
  rw [eventsEq]
  exact List.mem_append_left _ member

end Grows

theorem fail_fault_ne_none (p : Parser) (f : Fault) : (p.fail f).fault ≠ none := by
  cases fault : p.fault <;> simp [fail, fault]

theorem grows_fail (p : Parser) (f : Fault) {started ended entries : Nat} : Grows p started ended entries (p.fail f) :=
  .of_fault rfl (fail_fault_ne_none p f)

theorem grows_start (p : Parser) : Grows p 1 0 1 p.start.2 :=
  .of_push (e := tombstone) rfl id fun _ => rfl

theorem grows_advanceAs (p : Parser) (kind : Kind) : Grows p 0 0 1 (p.advanceAs kind) := by
  unfold advanceAs
  split
  · exact .of_events rfl rfl
  · exact .of_push (e := .token kind) rfl id (by simp [isStart])

theorem grows_reportAt (p : Parser) (problem : StructuralProblem) (span : Span) :
    Grows p 0 0 0 (p.reportAt problem span) :=
  .of_events rfl rfl

theorem events_takeEnd (p : Parser) : p.takeEnd.events = p.events.push (.token .eof) := by
  unfold takeEnd require
  split <;> rfl

theorem grows_takeEnd (p : Parser) : Grows p 0 0 1 p.takeEnd := by
  refine .of_push (events_takeEnd p) ?_ (by simp [isStart])
  · unfold takeEnd require
    split
    · exact id
    · exact fun noFault => absurd noFault (fail_fault_ne_none _ _)

theorem grows_complete (p : Parser) (m : Marker) (kind : Kind) : Grows p 0 1 1 (p.complete m kind).2 := by
  simp only [complete]
  split
  · rename_i link found
    let filled : Parser := { p with events := p.events.setIfInBounds m.slot.toNat (.start kind link) }
    have first : Grows p 0 0 0 filled := .of_set kind link found rfl rfl
    have last : Grows filled 0 1 1 { filled with events := filled.events.push .finish } :=
      .of_push (e := .finish) rfl id (by simp [isStart])
    exact first.trans last
  · exact grows_fail p _

/-- Preceding starts a node, and then links the other one to it. -/
theorem grows_link (p : Parser) (c : Completed) : Grows p.start.2 0 0 0 (p.precede c).2 := by
  simp only [precede]
  split
  · rename_i kind link found
    split
    · exact grows_fail p.start.2 _
    · exact .of_set kind (some (p.start.1.slot.toNat - c.slot.toNat)) found rfl rfl
  · exact grows_fail p.start.2 _

theorem grows_precede (p : Parser) (c : Completed) : Grows p 1 0 1 (p.precede c).2 :=
  (grows_start p).trans (grows_link p c)

/-! ## Finishing -/

theorem finish_eq_ok_iff {p : Parser} {text : Text} {tokens : List Token} {t : Tree} :
    p.finish text tokens = .ok t ↔ p.fault = none ∧ Event.replay text tokens p.events = .ok t := by
  unfold finish
  cases p.fault <;> simp

/-- A log with as many starts as ends that is finished has all its starts filled in. -/
theorem isTombstone_of_finish {p : Parser} {text : Text} {tokens : List Token} {t : Tree}
    (finished : p.finish text tokens = .ok t)
    (paired : p.events.toList.countP isStart = p.events.toList.countP isFinish) :
    ∀ e ∈ p.events.toList, e.isTombstone = false :=
  isTombstone_eq_false_of_countP paired (isFinish_le_of_replay (finish_eq_ok_iff.mp finished).2)

end Parser

end LispSyntax
