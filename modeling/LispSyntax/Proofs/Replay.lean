import LispSyntax.Proofs.Slots
import LispSyntax.Proofs.Tiling

/-! # Logs and what they describe

`Logs es ds` says that the stretch `es` of an event log describes the drafts `ds`. A node is logged
either in place, its start before its children and its end after them, or around a node that was
complete already: then its start comes late and the complete node's start has a link to it. `Spine` is
the second half of this description; it keeps the outermost start of a node apart, because that is the
entry that a later parent fills in.

The main statement is `replay_spine`: a log of one node replays without fault, and the tree it builds is
the tree of the draft. The one way in which a replay can fail is a token with more trivia than a leaf can
hold, and `tooLong` stands for that. The invariant that carries the statement over the late starts is
`Leads`: following the link of a start collects the kinds of the parents to come, erases their starts and
changes nothing else.
-/

namespace LispSyntax

/-- A kind that a complete node can have. -/
def Kind.isLabel (kind : Kind) : Bool :=
  kind.isNode && kind != .tombstone

theorem Kind.isNode_of_isLabel {kind : Kind} (label : kind.isLabel = true) : kind.isNode = true :=
  (Bool.and_eq_true_iff.mp label).1

theorem Kind.ne_tombstone {kind : Kind} (label : kind.isLabel = true) : kind ≠ .tombstone :=
  bne_iff_ne.mp (Bool.and_eq_true_iff.mp label).2

/-- The token has more trivia than a leaf can hold. -/
def Token.TooLong (t : Token) : Prop :=
  sizeLimit ≤ Trivia.size t.leading + Trivia.size t.trailing

instance (t : Token) : Decidable t.TooLong :=
  inferInstanceAs (Decidable (_ ≤ _))

/-- The token lies in the text, and if it has too much trivia then that is known. -/
def Token.Cuttable (tooLong : Prop) (text : Text) (t : Token) : Prop :=
  t.LiesIn text ∧ (t.TooLong → tooLong)

/-! ## Builders -/

namespace Builder

def enter (b : Builder) (kind : Kind) : Builder :=
  { b with stack := ⟨kind, []⟩ :: b.stack }

/-- The builder inside new nodes of the given kinds, the first outermost. -/
def enterAll (b : Builder) (kinds : List Kind) : Builder :=
  kinds.foldl enter b

def addAll (b : Builder) (ts : List Tree) : Builder :=
  ts.foldl add b

@[simp] theorem addAll_nil (b : Builder) : b.addAll [] = b := rfl

@[simp] theorem addAll_cons (b : Builder) (t : Tree) (ts : List Tree) :
    b.addAll (t :: ts) = (b.add t).addAll ts := rfl

@[simp] theorem enterAll_nil (b : Builder) : b.enterAll [] = b := rfl

theorem enterAll_append (b : Builder) (outer inner : List Kind) :
    b.enterAll (outer ++ inner) = (b.enterAll outer).enterAll inner :=
  List.foldl_append

@[simp] theorem text_enter (b : Builder) (kind : Kind) : (b.enter kind).text = b.text := rfl

@[simp] theorem text_enterAll (b : Builder) (kinds : List Kind) :
    (b.enterAll kinds).text = b.text := by
  induction kinds generalizing b with
  | nil => rfl
  | cons kind kinds ih => exact ih (b.enter kind)

@[simp] theorem text_add (b : Builder) (t : Tree) : (b.add t).text = b.text := by
  unfold add
  split <;> rfl

@[simp] theorem stack_enter_ne_nil (b : Builder) (kind : Kind) : (b.enter kind).stack ≠ [] := by
  simp [enter]

theorem stack_add_ne_nil {b : Builder} (inside : b.stack ≠ []) (t : Tree) : (b.add t).stack ≠ [] := by
  unfold add
  split
  · contradiction
  · simp

theorem addAll_enter (b : Builder) (kind : Kind) (done ts : List Tree) :
    addAll { b with stack := ⟨kind, done⟩ :: b.stack } ts =
      { b with stack := ⟨kind, ts.reverse ++ done⟩ :: b.stack } := by
  induction ts generalizing done with
  | nil => rfl
  | cons t ts ih =>
    rw [addAll_cons]
    exact (ih (t :: done)).trans (by simp)

/-- A node that was entered, filled and finished is added where it was entered. -/
theorem finishNode_addAll_enter (b : Builder) (kind : Kind) (ts : List Tree) :
    ((b.enter kind).addAll ts).finishNode = .ok (b.add (.node kind ts)) := by
  rw [enter, addAll_enter]
  simp [finishNode]

/-- A token that lies in the text is cut out of it, unless it has too much trivia. -/
theorem token_eq_add {b : Builder} {t : Token} (inside : b.stack ≠ []) (lies : t.LiesIn b.text)
    (kind : Kind) :
    b.token t.leading kind t.span t.trailing =
      if t.TooLong then .error .sizeOverflow else .ok (b.add (.leaf (t.leaf b.text kind))) := by
  have fits := lies.fits
  have leafEq := lies.leaf_eq kind
  obtain ⟨left, before, after, stretch, right, whole, covers⟩ := lies
  have startEq := covers.start_eq
  have beforeSize := covers.before_size
  have notBefore : ¬ t.span.start < Trivia.size t.leading := by omega
  have sliced : Text.slice? (left ++ stretch ++ right) t.fullSpan.start t.fullSpan.stop =
      some stretch := Token.slice?_of_covers covers
  rw [← whole] at sliced
  have coverEq : t.cover b.text = stretch := by rw [Token.cover, sliced]; rfl
  simp only [Token.fullSpan] at sliced
  simp only [coverEq] at fits leafEq
  rw [leafEq, token, if_neg (by simpa using inside), if_neg notBefore, sliced]
  simp only [Leaf.ofParts]
  by_cases long : t.TooLong
  · rw [if_pos long, if_neg (Nat.not_lt.mpr long)]
    rfl
  · rw [if_neg long, if_pos (Nat.not_le.mp long), dif_pos fits]
    rfl

end Builder

namespace Event

theorem startAll_eq_enterAll (b : Builder) (kinds : List Kind) (nodes : ∀ k ∈ kinds, k.isNode = true) :
    startAll b kinds = .ok (b.enterAll kinds) := by
  induction kinds generalizing b with
  | nil => rfl
  | cons kind kinds ih =>
    have started : b.start kind = .ok (b.enter kind) := by
      rw [Builder.start, if_pos (nodes kind (by simp))]
      rfl
    rw [startAll, List.foldlM_cons, started]
    exact ih (b.enter kind) fun k member => nodes k (by simp [member])

/-! ## Replaying a stretch of a log -/

/-- Replaying `count` events from an index on leads from one state to the other, unless a token has too
much trivia. -/
def Replays (tooLong : Prop) (s : Replay) (index count : Nat) (s' : Replay) : Prop :=
  (List.range' index count).foldlM step s = .ok s' ∨
    tooLong ∧ ∃ fault, (List.range' index count).foldlM step s = .error fault

section

variable {tooLong : Prop} {s s' s'' : Replay} {index : Nat}

theorem Replays.zero (s : Replay) (index : Nat) : Replays tooLong s index 0 s :=
  .inl rfl

theorem Replays.one (stepped : step s index = .ok s') : Replays tooLong s index 1 s' :=
  .inl (by simp [stepped])

theorem Replays.trans {first second : Nat} (before : Replays tooLong s index first s')
    (after : Replays tooLong s' (index + first) second s'') :
    Replays tooLong s index (first + second) s'' := by
  unfold Replays at *
  rw [← List.range'_append_1, List.foldlM_append]
  rcases before with before | ⟨known, fault, before⟩
  · rw [before]
    exact after
  · rw [before]
    exact .inr ⟨known, fault, rfl⟩

end

/-! ## Logs -/

mutual

/-- The stretch of a log describes the drafts. -/
inductive Logs : List Event → List Draft → Prop where
  | nil : Logs [] []
  | token {kind : Kind} {t : Token} {es : List Event} {ds : List Draft} :
      Logs es ds → Logs (.token kind :: es) (Draft.token kind t :: ds)
  | node {before after es : List Event} {kind : Kind} {d : Draft} {ds : List Draft} :
      Spine before kind after d → Logs es ds →
      Logs (before ++ .start kind none :: after ++ es) (d :: ds)

/-- The log of one node, with its outermost start, of the given kind, between the two stretches. -/
inductive Spine : List Event → Kind → List Event → Draft → Prop where
  | plain {kind : Kind} {es : List Event} {ds : List Draft} :
      kind.isLabel = true → Logs es ds →
      Spine [] kind (es ++ [.finish]) (.node kind ds)
  | wrapped {before after es : List Event} {inner kind : Kind} {d : Draft} {ds : List Draft} :
      kind.isLabel = true → Spine before inner after d → Logs es ds →
      Spine (before ++ .start inner (some (after.length + 1)) :: after) kind (es ++ [.finish])
        (.node kind (d :: ds))

end

theorem Logs.append {es fs : List Event} {ds gs : List Draft} :
    Logs es ds → Logs fs gs → Logs (es ++ fs) (ds ++ gs)
  | .nil, after => after
  | .token before, after => .token (before.append after)
  | .node spine before, after => by
    rw [List.append_assoc]
    exact .node spine (before.append after)

theorem Spine.logs {before after : List Event} {kind : Kind} {d : Draft}
    (spine : Spine before kind after d) : Logs (before ++ .start kind none :: after) [d] := by
  simpa using Logs.node spine .nil

mutual

theorem Logs.length_eq {es : List Event} {ds : List Draft} : Logs es ds → es.length = Outline.entries ds
  | .nil => rfl
  | .token logs => by
    rw [Draft.token, List.length_cons, logs.length_eq, Outline.entries_leaf]
  | .node spine logs => by
    rw [List.length_append, logs.length_eq, spine.length_eq none, ← Outline.entries_cons]

theorem Spine.length_eq {before after : List Event} {kind : Kind} {d : Draft} :
    Spine before kind after d → ∀ link, (before ++ .start kind link :: after).length = Outline.entries [d]
  | .plain _ logs => by
    intro link
    simp [logs.length_eq]
  | @Spine.wrapped _ _ _ _ _ inside ds _ spine logs => by
    intro link
    rw [List.length_append, spine.length_eq, Outline.entries_node, Outline.entries_cons inside ds]
    simp [logs.length_eq]
    omega

end

/-- The log of some drafts and then others is made up of the logs of both. -/
theorem Logs.exists_split {ds gs : List Draft} {es : List Event} (logs : Logs es (ds ++ gs)) :
    ∃ fs hs, es = fs ++ hs ∧ Logs fs ds ∧ Logs hs gs := by
  induction ds generalizing es with
  | nil => exact ⟨[], es, rfl, .nil, logs⟩
  | cons d ds ih =>
    cases logs with
    | @token kind t es _ logs =>
      obtain ⟨fs, hs, rfl, first, second⟩ := ih logs
      exact ⟨.token kind :: fs, hs, rfl, .token first, second⟩
    | @node before after es kind _ _ spine logs =>
      obtain ⟨fs, hs, rfl, first, second⟩ := ih logs
      exact ⟨before ++ .start kind none :: after ++ fs, hs, by simp, .node spine first, second⟩

/-- A node among the drafts has a start behind the log of those before it. -/
theorem Logs.exists_isStart {ds gs : List Draft} {es : List Event} {kind : Kind} {children : List Draft}
    (logs : Logs es (ds ++ .node kind children :: gs)) : ∃ e ∈ es.drop (Outline.entries ds), e.isStart = true := by
  obtain ⟨fs, hs, rfl, first, second⟩ := logs.exists_split
  rw [← first.length_eq, List.drop_left]
  cases second with
  | @node before after es kind _ _ spine logs => exact ⟨.start kind none, by simp, rfl⟩

/-- A node that was started in place has its children logged between its start and its end. -/
theorem Spine.exists_logs {before after : List Event} {kind : Kind} {ds : List Draft}
    (spine : Spine before kind after (.node kind ds)) (inPlace : before = []) :
    ∃ es, after = es ++ [.finish] ∧ Logs es ds := by
  cases spine with
  | plain _ logs => exact ⟨_, rfl, logs⟩
  | wrapped => simp at inPlace

theorem isTombstone_start {kind : Kind} (label : kind.isLabel = true) (link : Option Nat) :
    (start kind link).isTombstone = false := by
  cases kind <;> first | rfl | contradiction

mutual

theorem Logs.isTombstone_eq_false {es : List Event} {ds : List Draft} :
    Logs es ds → ∀ e ∈ es, e.isTombstone = false
  | .nil => by simp
  | .token logs => by
    intro e member
    rcases List.mem_cons.mp member with rfl | member
    · rfl
    · exact logs.isTombstone_eq_false e member
  | .node spine logs => by
    intro e member
    rcases List.mem_append.mp member with member | member
    · exact spine.isTombstone_eq_false none e member
    · exact logs.isTombstone_eq_false e member

theorem Spine.isTombstone_eq_false {before after : List Event} {kind : Kind} {d : Draft} :
    Spine before kind after d → ∀ link, ∀ e ∈ before ++ .start kind link :: after,
      e.isTombstone = false
  | .plain label logs => by
    intro link e member
    simp only [List.nil_append, List.mem_cons, List.mem_append, List.not_mem_nil, or_false] at member
    rcases member with rfl | member | rfl
    · exact isTombstone_start label link
    · exact logs.isTombstone_eq_false e member
    · rfl
  | .wrapped label spine logs => by
    intro link e member
    rw [List.mem_append] at member
    rcases member with member | member
    · exact spine.isTombstone_eq_false _ e member
    · simp only [List.mem_cons, List.mem_append, List.not_mem_nil, or_false] at member
      rcases member with rfl | member | rfl
      · exact isTombstone_start label link
      · exact logs.isTombstone_eq_false e member
      · rfl

end

/-- Following the link of the start at an index collects the kinds of the parents whose starts lie
in `after`, which begins at `base`, and erases these starts. -/
def Leads (base index : Nat) (link : Option Nat) (after erased : List Event)
    (parents : List Kind) : Prop :=
  ∀ (before : List Event) (kinds : List Kind) (fuel : Nat),
    before.length = base → after.length ≤ fuel →
    follow fuel (before ++ after).toArray index link kinds =
      .ok ((before ++ erased).toArray, parents ++ kinds)

theorem Leads.none (base index : Nat) (after : List Event) : Leads base index none after after [] := by
  intro before kinds fuel _ _
  cases fuel <;> rfl

theorem Leads.shift {base index : Nat} {link : Option Nat} {between after erased : List Event}
    {parents : List Kind} (leads : Leads (base + between.length) index link after erased parents) :
    Leads base index link (between ++ after) (between ++ erased) parents := by
  intro before kinds fuel beforeLength enough
  rw [List.length_append] at enough
  have next := leads (before ++ between) kinds fuel (by simp [beforeLength]) (by omega)
  simpa only [List.append_assoc] using next

/-- A link to the first event of a stretch finds the parent there and then that one's parents. -/
theorem Leads.some {base index : Nat} {link : Option Nat} {between after erased : List Event}
    {parents : List Kind} {kind : Kind} (notTombstone : kind ≠ .tombstone) (distance : Nat)
    (reaches : index + distance = base)
    (leads : Leads (base + 1 + between.length) base link after erased parents) :
    Leads base index (some distance) (.start kind link :: between ++ after)
      (tombstone :: between ++ erased) (parents ++ [kind]) := by
  subst reaches
  intro before kinds fuel beforeLength enough
  cases fuel with
  | zero => simp at enough
  | succ fuel =>
    have found : (before ++ (.start kind link :: between ++ after)).toArray[index + distance]? =
        Option.some (.start kind link) := by
      simp [← beforeLength]
    have erase : (before ++ (.start kind link :: between ++ after)).toArray.setIfInBounds
        (index + distance) tombstone = (before ++ tombstone :: between ++ after).toArray := by
      simp [← beforeLength]
    rw [follow]
    simp only [found, erase, if_neg notTombstone]
    have next := leads (before ++ tombstone :: between) (kind :: kinds) fuel
      (by simp; omega) (by simp at enough; omega)
    rw [next]
    simp

/-! ## Replaying a log -/

theorem replays_token {tooLong : Prop} {s : Replay} (index : Nat) (kind : Kind) {t : Token}
    {ts : List Token} (logged : s.events[index]? = some (.token kind)) (tokens : s.tokens = t :: ts)
    (inside : s.builder.stack ≠ []) (cuttable : t.Cuttable tooLong s.builder.text) :
    Replays tooLong s index 1
      ⟨s.events, ts, s.builder.add (.leaf (t.leaf s.builder.text kind))⟩ := by
  have stepped : step s index = (do
      let builder ← s.builder.token t.leading kind t.span t.trailing
      return { s with tokens := ts, builder := builder }) := by
    simp only [step, logged, tokens]
  rw [Builder.token_eq_add inside cuttable.1] at stepped
  by_cases long : t.TooLong
  · rw [if_pos long] at stepped
    exact .inr ⟨cuttable.2 long, .sizeOverflow, by simp [stepped, bind, Except.bind]⟩
  · rw [if_neg long] at stepped
    exact .one stepped

theorem step_finish (events : Array Event) (index : Nat) (tokens : List Token) (b : Builder)
    (kind : Kind) (ts : List Tree) (logged : events[index]? = some .finish) :
    step ⟨events, tokens, (b.enter kind).addAll ts⟩ index =
      .ok ⟨events, tokens, b.add (.node kind ts)⟩ := by
  simp only [step, logged, Builder.finishNode_addAll_enter]
  rfl

theorem step_tombstone (before after : List Event) (tokens : List Token) (b : Builder) :
    step ⟨(before ++ tombstone :: after).toArray, tokens, b⟩ before.length =
      .ok ⟨(before ++ tombstone :: after).toArray, tokens, b⟩ := by
  simp [step, tombstone]

/-- A start that leads to its parents opens them and then its own node. -/
theorem step_start {s : Replay} {before after erased : List Event} {kind : Kind} {link : Option Nat}
    {parents : List Kind} (label : kind.isLabel = true)
    (parentNodes : ∀ k ∈ parents, k.isNode = true)
    (logged : s.events = (before ++ .start kind link :: after).toArray)
    (leads : Leads (before.length + 1) before.length link after erased parents) :
    step s before.length =
      .ok ⟨(before ++ tombstone :: erased).toArray, s.tokens,
        (s.builder.enterAll parents).enter kind⟩ := by
  have found : s.events[before.length]? = some (.start kind link) := by simp [logged]
  have erase : s.events.setIfInBounds before.length tombstone =
      (before ++ [tombstone] ++ after).toArray := by simp [logged]
  have followed := leads (before ++ [tombstone]) [kind] (before ++ [tombstone] ++ after).length
    (by simp) (by simp; omega)
  have opened : startAll s.builder (parents ++ [kind]) =
      .ok ((s.builder.enterAll parents).enter kind) := by
    rw [startAll_eq_enterAll, Builder.enterAll_append]
    · rfl
    · intro k member
      rcases List.mem_append.mp member with member | member
      · exact parentNodes k member
      · simp only [List.mem_singleton] at member
        rw [member, Kind.isNode_of_isLabel label]
  simp only [step, found, if_neg (Kind.ne_tombstone label), erase, List.size_toArray, followed]
  change (do
    let builder ← startAll s.builder (parents ++ [kind])
    return { s with events := (before ++ [tombstone] ++ erased).toArray, builder := builder }) = _
  rw [opened]
  simp only [List.append_assoc, List.singleton_append]
  rfl

-- Both halves go by recursion on the description of the log: a token and a plain start are one step, a
-- wrapped node replays the node it wraps with itself among the parents to open.
section

variable {tooLong : Prop}

mutual

/-- Replaying the log of some drafts inside a node adds their trees to it. -/
theorem replay_logs {es : List Event} {ds : List Draft} : Logs es ds →
    ∀ (before after : List Event) (s : Replay) (ts : List Token),
      s.events = (before ++ es ++ after).toArray → s.tokens = Draft.tokensAll ds ++ ts →
      s.builder.stack ≠ [] → (∀ t ∈ Draft.tokensAll ds, t.Cuttable tooLong s.builder.text) →
      ∃ done, done.length = before.length + es.length ∧
        Replays tooLong s before.length es.length
          ⟨(done ++ after).toArray, ts, s.builder.addAll (Draft.trees s.builder.text ds)⟩
  | .nil => by
    intro before after s ts events tokens inside cuttable
    refine ⟨before, rfl, ?_⟩
    simp only [List.append_nil] at events
    simp only [Draft.tokensAll_nil, List.nil_append] at tokens
    rw [← events, ← tokens]
    exact .zero s _
  | @Logs.token kind t es ds logs => by
    intro before after s ts events tokens inside cuttable
    have taken := replays_token before.length kind (by simp [events]) (by simpa using tokens) inside
      (cuttable t (by simp))
    obtain ⟨done, doneLength, replayed⟩ := replay_logs logs (before ++ [.token kind]) after
      ⟨s.events, Draft.tokensAll ds ++ ts, s.builder.add (.leaf (t.leaf s.builder.text kind))⟩ ts
      (by simp [events]) rfl (Builder.stack_add_ne_nil inside _)
      (by
        intro u member
        rw [Builder.text_add]
        exact cuttable u (by simp [member]))
    refine ⟨done, by simp at doneLength ⊢; omega, ?_⟩
    rw [List.length_cons, Nat.add_comm]
    simp only [Builder.text_add, List.length_append, List.length_singleton] at replayed
    exact taken.trans replayed
  | @Logs.node nodeBefore nodeAfter es kind d ds spine logs => by
    intro before after s ts events tokens inside cuttable
    rw [Draft.tokensAll_cons, List.append_assoc] at tokens
    simp only [Draft.tokensAll_cons, List.mem_append] at cuttable
    obtain ⟨first, firstLength, firstReplayed⟩ := replay_spine spine before (es ++ after)
      (es ++ after) none [] s (Draft.tokensAll ds ++ ts) (by simp [events]) tokens
      (fun t member => cuttable t (.inl member)) (Leads.none _ _ _) (by simp)
    obtain ⟨done, doneLength, replayed⟩ := replay_logs logs first after
      ⟨(first ++ (es ++ after)).toArray, Draft.tokensAll ds ++ ts,
        s.builder.add (d.tree s.builder.text)⟩ ts
      (by simp) rfl (Builder.stack_add_ne_nil inside _)
      (by
        intro u member
        rw [Builder.text_add]
        exact cuttable u (.inr member))
    refine ⟨done, by simp at doneLength ⊢; omega, ?_⟩
    have count : (nodeBefore ++ .start kind none :: nodeAfter ++ es).length =
        (nodeBefore.length + 1 + nodeAfter.length) + es.length := by simp; omega
    rw [count]
    rw [firstLength] at replayed
    simp only [Builder.text_add] at replayed
    exact firstReplayed.trans replayed

/-- Replaying the log of a node opens the parents that its start leads to and adds the node's tree to
the innermost of them. -/
theorem replay_spine {nodeBefore nodeAfter : List Event} {kind : Kind} {d : Draft} :
    Spine nodeBefore kind nodeAfter d →
    ∀ (before after erased : List Event) (link : Option Nat) (parents : List Kind) (s : Replay)
      (ts : List Token),
      s.events = (before ++ (nodeBefore ++ .start kind link :: nodeAfter) ++ after).toArray →
      s.tokens = d.tokens ++ ts → (∀ t ∈ d.tokens, t.Cuttable tooLong s.builder.text) →
      Leads (before.length + (nodeBefore.length + 1 + nodeAfter.length))
        (before.length + nodeBefore.length) link after erased parents →
      (∀ k ∈ parents, k.isNode = true) →
      ∃ done, done.length = before.length + (nodeBefore.length + 1 + nodeAfter.length) ∧
        Replays tooLong s before.length (nodeBefore.length + 1 + nodeAfter.length)
          ⟨(done ++ erased).toArray, ts,
            (s.builder.enterAll parents).add (d.tree s.builder.text)⟩
  | @Spine.plain kind es ds label logs => by
    intro before after erased link parents s ts events tokens cuttable leads parentNodes
    -- The start is erased and opens the parents and the node, the children fill it, the end closes it.
    have leads : Leads (before.length + 1) before.length link (es ++ [.finish] ++ after)
        (es ++ [.finish] ++ erased) parents := by
      apply Leads.shift
      simpa [Nat.add_assoc, Nat.add_comm, Nat.add_left_comm] using leads
    have started := step_start label parentNodes (by simpa using events) leads
    obtain ⟨filled, filledLength, replayed⟩ := replay_logs logs (before ++ [tombstone])
      (.finish :: erased)
      ⟨(before ++ tombstone :: (es ++ [.finish] ++ erased)).toArray, s.tokens,
        (s.builder.enterAll parents).enter kind⟩ ts
      (by simp) tokens (by simp) (by simpa using cuttable)
    have finished := step_finish (filled ++ .finish :: erased).toArray filled.length ts
      (s.builder.enterAll parents) kind (Draft.trees s.builder.text ds) (by simp)
    have place : filled.length = before.length + (1 + es.length) := by
      simp at filledLength; omega
    refine ⟨filled ++ [.finish], by simp; omega, ?_⟩
    have count : ([] : List Event).length + 1 + (es ++ [Event.finish]).length =
        1 + es.length + 1 := by simp; omega
    rw [count]
    rw [place] at finished
    simp only [List.length_append, List.length_singleton, Builder.text_enter,
      Builder.text_enterAll] at replayed
    have whole := ((Replays.one started).trans replayed).trans (.one finished)
    simpa [Draft.tree] using whole
  | @Spine.wrapped innerBefore innerAfter es inner kind d ds label spine logs => by
    intro before after erased link parents s ts events tokens cuttable leads parentNodes
    rw [Draft.tokens_node, Draft.tokensAll_cons, List.append_assoc] at tokens
    simp only [Draft.tokens_node, Draft.tokensAll_cons, List.mem_append] at cuttable
    -- The inner node opens this one as the innermost of its parents, and with that erases its start.
    have leads : Leads (before.length + (innerBefore.length + 1 + innerAfter.length))
        (before.length + innerBefore.length) (some (innerAfter.length + 1))
        (.start kind link :: (es ++ [.finish]) ++ after)
        (tombstone :: (es ++ [.finish]) ++ erased) (parents ++ [kind]) := by
      apply Leads.some (Kind.ne_tombstone label) _ (by omega)
      simpa [Nat.add_assoc, Nat.add_comm, Nat.add_left_comm] using leads
    obtain ⟨first, firstLength, firstReplayed⟩ := replay_spine spine before _ _ _ _ s _
      (by simpa using events) tokens (fun t member => cuttable t (.inl member)) leads
      (by
        intro k member
        rcases List.mem_append.mp member with member | member
        · exact parentNodes k member
        · simp only [List.mem_singleton] at member
          rw [member, Kind.isNode_of_isLabel label])
    have entered : (s.builder.enterAll (parents ++ [kind])) =
        (s.builder.enterAll parents).enter kind := Builder.enterAll_append ..
    rw [entered] at firstReplayed
    -- The late start is passed over, and the rest of the node goes on as if it had started in place.
    have passed := step_tombstone first (es ++ [.finish] ++ erased) (Draft.tokensAll ds ++ ts)
      (((s.builder.enterAll parents).enter kind).add (d.tree s.builder.text))
    obtain ⟨filled, filledLength, replayed⟩ := replay_logs logs (first ++ [tombstone])
      (.finish :: erased)
      ⟨(first ++ tombstone :: (es ++ [.finish] ++ erased)).toArray, Draft.tokensAll ds ++ ts,
        ((s.builder.enterAll parents).enter kind).add (d.tree s.builder.text)⟩ ts
      (by simp) rfl (Builder.stack_add_ne_nil (Builder.stack_enter_ne_nil _ _) _)
      (by
        intro u member
        simpa using cuttable u (.inr member))
    have finished := step_finish (filled ++ .finish :: erased).toArray filled.length ts
      (s.builder.enterAll parents) kind (d.tree s.builder.text :: Draft.trees s.builder.text ds)
      (by simp)
    simp only [List.length_append, List.length_singleton, Builder.text_add, Builder.text_enter,
      Builder.text_enterAll, firstLength] at replayed filledLength
    rw [firstLength] at passed
    rw [filledLength] at finished
    refine ⟨filled ++ [.finish], by simp; omega, ?_⟩
    have count : (innerBefore ++ Event.start inner (some (innerAfter.length + 1)) :: innerAfter).length +
        1 + (es ++ [Event.finish]).length =
        (innerBefore.length + 1 + innerAfter.length) + (1 + es.length + 1) := by simp; omega
    rw [count]
    have inner := (Replays.one passed).trans replayed
    have inner := inner.trans (by simpa [Nat.add_assoc] using Replays.one finished)
    have whole := firstReplayed.trans inner
    simpa [Draft.tree] using whole

end

end

theorem Spine.exists_node {before after : List Event} {kind : Kind} {d : Draft} :
    Spine before kind after d → ∃ ds, d = .node kind ds
  | .plain .. => ⟨_, rfl⟩
  | .wrapped .. => ⟨_, rfl⟩

/-- The log of a node whose tokens make up the text replays to the tree of the node, unless one of them has
too much trivia. -/
theorem replay_eq_tree {before after : List Event} {kind : Kind} {d : Draft} {text : Text}
    (spine : Spine before kind after d) (lies : ∀ t ∈ d.tokens, t.LiesIn text)
    (whole : d.tokens.flatMap (Token.cover text) = text) :
    replay text d.tokens (before ++ .start kind none :: after).toArray = .ok (d.tree text) ∨
      (∃ t ∈ d.tokens, t.TooLong) ∧
        ∃ fault, replay text d.tokens (before ++ .start kind none :: after).toArray = .error fault := by
  obtain ⟨done, -, replayed⟩ := @replay_spine (∃ t ∈ d.tokens, t.TooLong) _ _ _ _ spine [] [] []
    none [] ⟨(before ++ .start kind none :: after).toArray, d.tokens, Builder.ofText text⟩ []
    (by simp) (by simp) (fun t member => ⟨lies t member, fun long => ⟨t, member, long⟩⟩)
    (Leads.none _ _ _) (by simp)
  have count : (before ++ .start kind none :: after).length = before.length + 1 + after.length := by
    simp; omega
  -- The replay goes over the indices of the log, so the one run from the first to the last is all of it.
  simp only [Replays, List.length_nil] at replayed
  simp only [replay, List.size_toArray, List.range_eq_range', count]
  rcases replayed with replayed | ⟨known, fault, replayed⟩
  · left
    have covered := Draft.text_tree d lies
    obtain ⟨ds, rfl⟩ := spine.exists_node
    have size : (Draft.tree text (.node kind ds)).size = Text.size text := by
      rw [← Tree.size_text, covered, whole]
    simp only [replayed]
    simp only [Draft.tree] at size ⊢
    change ((Builder.ofText text).add (.node kind (Draft.trees text ds))).finish =
      .ok (.node kind (Draft.trees text ds))
    simp [Builder.finish, Builder.add, Builder.ofText, size]
  · right
    exact ⟨known, fault, by rw [replayed]; rfl⟩

/-! ## One log, one list of drafts -/

/-- A token without a text, which can be cut out of any. -/
def blank : Token :=
  ⟨[], .eof, [], Span.empty 0, []⟩

def blanked (d : Draft) : Draft :=
  d.map fun leaf => (leaf.1, blank)

mutual

/-- A log does not say which tokens were taken. -/
theorem Logs.blanked {es : List Event} {ds : List Draft} : Logs es ds → Logs es (ds.map Event.blanked)
  | .nil => .nil
  | .token logs => .token logs.blanked
  | .node spine logs => .node spine.blanked logs.blanked

theorem Spine.blanked {before after : List Event} {kind : Kind} {d : Draft} :
    Spine before kind after d → Spine before kind after (Event.blanked d)
  | .plain label logs => by
    rw [Event.blanked, Outline.map_node]
    exact .plain label logs.blanked
  | .wrapped label spine logs => by
    rw [Event.blanked, Outline.map_node]
    exact .wrapped label spine.blanked logs.blanked

end

theorem tokensAll_blanked (ds : List Draft) :
    Draft.tokensAll (ds.map blanked) = List.replicate (Draft.tokensAll ds).length blank := by
  have leaves : Outline.leavesAll (ds.map blanked) = (Outline.leavesAll ds).map fun leaf => (leaf.1, blank) := by
    rw [← Outline.leavesAll_mapAll, Outline.mapAll_eq_map]
    rfl
  rw [Draft.tokensAll, Draft.tokensAll, leaves, List.map_map, List.length_map]
  exact List.map_const' ..

theorem sketch_blanked (d : Draft) : (blanked d).sketch = d.map fun leaf => (leaf.1, ([] : Text)) :=
  Outline.map_map ..

/-- A log describes one list of drafts for the tokens. -/
theorem Logs.unique {es : List Event} {ds ds' : List Draft} (logs : Logs es ds) (logs' : Logs es ds')
    (tokens : Draft.tokensAll ds = Draft.tokensAll ds') : ds = ds' := by
  -- Blank tokens can be replayed whatever the log, and the trees that are built show the nodes and the kinds.
  let s : Replay := ⟨es.toArray, List.replicate (Draft.tokensAll ds).length blank, (Builder.ofText []).enter .source⟩
  have lies : ∀ gs : List Draft, ∀ t ∈ Draft.tokensAll (gs.map Event.blanked), t.LiesIn [] ∧ ¬ t.TooLong := by
    intro gs t member
    rw [tokensAll_blanked] at member
    rw [List.eq_of_mem_replicate member]
    exact ⟨⟨[], [], [], [], [], rfl, rfl, rfl, rfl, rfl, rfl⟩, by decide⟩
  have replayed : ∀ gs, Logs es gs → Draft.tokensAll ds = Draft.tokensAll gs →
      ∃ events, (List.range' 0 es.length).foldlM step s =
        .ok ⟨events, [], s.builder.addAll (Draft.trees [] (gs.map Event.blanked))⟩ := by
    intro gs logs tokens
    obtain ⟨done, -, replays⟩ := @replay_logs False es _ logs.blanked [] [] s [] (by simp [s])
      (by simp [s, tokensAll_blanked, tokens]) (Builder.stack_enter_ne_nil _ _) (lies gs)
    exact ⟨_, replays.resolve_right fun impossible => impossible.1⟩
  obtain ⟨events, first⟩ := replayed ds logs rfl
  obtain ⟨events', second⟩ := replayed ds' logs' tokens
  rw [first] at second
  have built := congrArg (fun s => s.builder.stack) (Except.ok.inj second)
  simp only [s, Builder.enter, Builder.addAll_enter, List.append_nil] at built
  have trees : Draft.trees [] (ds.map Event.blanked) = Draft.trees [] (ds'.map Event.blanked) := by
    simpa using built
  have sketches := congrArg Forest.sketch trees
  rw [Draft.sketch_trees _ fun t member => (lies ds t member).1,
    Draft.sketch_trees _ fun t member => (lies ds' t member).1, List.map_map, List.map_map] at sketches
  refine Draft.eq_of_mapAll_eq (f := fun leaf => (leaf.1, ([] : Text))) (fun a b same => (Prod.mk.inj same).1) ds ds'
    ?_ tokens
  simpa [Function.comp_def, sketch_blanked] using sketches

end Event

end LispSyntax
