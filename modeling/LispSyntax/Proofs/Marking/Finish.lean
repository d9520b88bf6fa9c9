import LispSyntax.Proofs.Faults
import LispSyntax.Proofs.Marking.Levels

/-! # Finishing a log builds the direct tree

A node may be given any kind, also that of a token or the one that stands for a start that is not filled in. The
direct builder does not mind, but such a log is not replayed: `Recorded` says that the kind of every node that was
completed stays in the log, and a replay without fault meets every start of the log (`isNode_of_replayed`), be it in
its turn or as the parent of an earlier one.

So finishing a log either builds the tree of the direct builder or is a fault, and it is a fault only for the kind of a
node, for the trivia of a token or for a start behind all slots (`finish_eq_direct_iff`).
-/

namespace LispSyntax

open Event

/-! ## What a replay has met -/

/-- Following links collects the kinds of the starts that it erases and leaves the other starts alone. -/
theorem follow_keeps {fuel index : Nat} {events events' : Array Event} {link : Option Nat}
    {kinds kinds' : List Kind} (followed : follow fuel events index link kinds = .ok (events', kinds')) :
    (∀ kind ∈ kinds, kind ∈ kinds') ∧
      ∀ (slot : Nat) (kind : Kind) (forward : Option Nat), events[slot]? = some (.start kind forward) →
        events'[slot]? = some (.start kind forward) ∨ kind = .tombstone ∨ kind ∈ kinds' := by
  fun_induction follow fuel events index link kinds with
  | case1 =>
    cases followed
    exact ⟨fun kind member => member, fun slot kind forward found => .inl found⟩
  | case2 => cases followed
  | case3 events index kinds fuel distance target kind forward found kindsFound ih =>
    obtain ⟨collected, kept⟩ := ih followed
    refine ⟨fun k member => collected k ?_, fun slot k link logged => ?_⟩
    · simp only [kindsFound]
      split
      · exact member
      · exact List.mem_cons_of_mem kind member
    · by_cases here : slot = target
      · -- This is the start that is erased, and its kind is collected unless it has none.
        subst here
        rw [found] at logged
        cases logged
        by_cases unfilled : kind = .tombstone
        · exact .inr (.inl unfilled)
        · exact .inr (.inr (collected kind (by simp [kindsFound, unfilled])))
      · refine kept slot k link ?_
        rw [Array.getElem?_setIfInBounds_ne (Ne.symm here)]
        exact logged
  | case4 => cases followed

/-- Only nodes are started. -/
theorem isNode_of_startAll {b b' : Builder} {kinds : List Kind} (started : startAll b kinds = .ok b') :
    ∀ kind ∈ kinds, kind.isNode = true := by
  induction kinds generalizing b with
  | nil => simp
  | cons first kinds ih =>
    rw [startAll, List.foldlM_cons] at started
    obtain ⟨next, entered, started⟩ := exists_of_bind_eq_ok started
    unfold Builder.start at entered
    split at entered
    · rename_i node
      intro kind member
      cases List.mem_cons.mp member with
      | inl here => rw [here, node]
      | inr later => exact ih started kind later
    · contradiction

/-- A step meets the start at its index and perhaps others, all of them of nodes, and leaves the other starts
alone. -/
theorem step_keeps {s s' : Replay} {index slot : Nat} {kind : Kind} {forward : Option Nat}
    (stepped : step s index = .ok s') (logged : s.events[slot]? = some (.start kind forward)) :
    kind.isNode = true ∨ slot ≠ index ∧ s'.events[slot]? = some (.start kind forward) := by
  by_cases here : slot = index
  · left
    subst here
    simp only [step, logged] at stepped
    by_cases unfilled : kind = .tombstone
    · rw [unfilled]
      rfl
    · rw [if_neg unfilled] at stepped
      obtain ⟨⟨events, kinds⟩, followed, stepped⟩ := exists_of_bind_eq_ok stepped
      obtain ⟨b, started, -⟩ := exists_of_bind_eq_ok stepped
      exact isNode_of_startAll started kind ((follow_keeps followed).1 kind (by simp))
  · unfold step at stepped
    split at stepped
    · cases stepped
      exact .inr ⟨here, logged⟩
    · -- Apart from its own start the step erases those that it follows the links to.
      rename_i first link found
      have kept : (s.events.setIfInBounds index tombstone)[slot]? = some (.start kind forward) := by
        rw [Array.getElem?_setIfInBounds_ne (Ne.symm here)]
        exact logged
      simp only at stepped
      split at stepped
      · cases stepped
        exact .inr ⟨here, kept⟩
      · obtain ⟨⟨events, kinds⟩, followed, stepped⟩ := exists_of_bind_eq_ok stepped
        obtain ⟨b, started, stepped⟩ := exists_of_bind_eq_ok stepped
        cases stepped
        obtain after | unfilled | collected := (follow_keeps followed).2 slot kind forward kept
        · exact .inr ⟨here, after⟩
        · exact .inl (by rw [unfilled]; rfl)
        · exact .inl (isNode_of_startAll started kind collected)
    · obtain ⟨b, finished, stepped⟩ := exists_of_bind_eq_ok stepped
      cases stepped
      exact .inr ⟨here, logged⟩
    · split at stepped
      · contradiction
      · obtain ⟨b, taken, stepped⟩ := exists_of_bind_eq_ok stepped
        cases stepped
        exact .inr ⟨here, logged⟩

/-- A replay without fault meets every start that it comes across. -/
theorem isNode_of_replayed {count index slot : Nat} {s s' : Replay} {kind : Kind} {forward : Option Nat}
    (replayed : (List.range' index count).foldlM step s = .ok s') (after : index ≤ slot)
    (before : slot < index + count) (logged : s.events[slot]? = some (.start kind forward)) :
    kind.isNode = true := by
  induction count generalizing index s with
  | zero => omega
  | succ count ih =>
    rw [List.range'_succ, List.foldlM_cons] at replayed
    obtain ⟨next, stepped, replayed⟩ := exists_of_bind_eq_ok replayed
    cases step_keeps stepped logged with
    | inl node => exact node
    | inr kept =>
      obtain ⟨elsewhere, kept⟩ := kept
      exact ih replayed (by omega) (by omega) kept

/-- If a log whose starts are all filled in is finished without fault then they are filled in with kinds of nodes. -/
theorem isLabel_of_finish {p : Parser} {text : Text} {tokens : List Token} {t : Tree}
    (finished : p.finish text tokens = .ok t) (filled : ∀ e ∈ p.events.toList, e.isTombstone = false) {slot : Nat}
    {kind : Kind} {forward : Option Nat} (logged : p.events[slot]? = some (.start kind forward)) :
    kind.isLabel = true := by
  obtain ⟨bound, -⟩ := Array.getElem?_eq_some_iff.mp logged
  obtain ⟨done, ran, -⟩ := exists_of_bind_eq_ok (Parser.finish_eq_ok_iff.mp finished).2
  rw [List.range_eq_range'] at ran
  have node : kind.isNode = true := isNode_of_replayed ran (Nat.zero_le slot) (by simpa using bound) logged
  have notTombstone : kind ≠ .tombstone := by
    rintro rfl
    have unfilled := filled _ (Array.mem_toList_iff.mpr (Array.mem_of_getElem? logged))
    contradiction
  simp [Kind.isLabel, node, notTombstone]

/-! ## What stays in the log -/

theorem getElem?_push_of_some {events : Array Event} {slot : Nat} {event : Event}
    (logged : events[slot]? = some event) (next : Event) : (events.push next)[slot]? = some event := by
  obtain ⟨bound, -⟩ := Array.getElem?_eq_some_iff.mp logged
  rw [Array.getElem?_push_lt bound, ← logged, Array.getElem?_eq_getElem bound]

/-- A node of the kind starts at the slot, and none of the markers stands for it. -/
def Marking.Filled (m : Marking) (slot : Nat) (kind : Kind) : Prop :=
  (∃ link, m.parser.events[slot]? = some (.start kind link)) ∧ ∀ marker ∈ m.opened, marker.slot.toNat ≠ slot

theorem Marking.Filled.start {m : Marking} {slot : Nat} {kind : Kind} (filled : m.Filled slot kind)
    {marker : Marker} (behind : marker.slot.toNat = m.parser.events.size) :
    Marking.Filled ⟨m.parser.start.2, marker :: m.opened, none⟩ slot kind := by
  obtain ⟨⟨link, logged⟩, free⟩ := filled
  refine ⟨⟨link, getElem?_push_of_some logged tombstone⟩, fun other member => ?_⟩
  cases member with
  | head =>
    obtain ⟨bound, -⟩ := Array.getElem?_eq_some_iff.mp logged
    omega
  | tail _ member => exact free other member

/-- The markers stand for starts of their own that are not filled in. The node that was just completed and nodes of
all the kinds are in the log. -/
structure Recorded (kinds : List Kind) (m : Marking) : Prop where
  distinct : (m.opened.map Marker.slot).Nodup
  unfilled : ∀ marker ∈ m.opened, m.parser.events[marker.slot.toNat]? = some tombstone
  completed : ∀ c, m.completed = some c → ∃ kind, m.Filled c.slot.toNat kind
  kinds : ∀ kind ∈ kinds, ∃ slot, m.Filled slot kind

namespace Recorded

variable {kinds : List Kind} {m : Marking}

theorem begun (p : Parser) : Recorded [] ⟨p, [], none⟩ :=
  ⟨List.nodup_nil, by simp, by simp, by simp⟩

/-- Logging something else changes nothing about that. -/
theorem push (recorded : Recorded kinds m) {p : Parser} (next : Event)
    (events : p.events = m.parser.events.push next) : Recorded kinds ⟨p, m.opened, none⟩ where
  distinct := recorded.distinct
  unfilled := by
    intro marker member
    rw [events]
    exact getElem?_push_of_some (recorded.unfilled marker member) next
  completed := by simp
  kinds := by
    intro kind member
    obtain ⟨slot, ⟨link, logged⟩, free⟩ := recorded.kinds kind member
    refine ⟨slot, ⟨link, ?_⟩, free⟩
    rw [events]
    exact getElem?_push_of_some logged next

theorem advanceAs (recorded : Recorded kinds m) (kind : Kind) :
    Recorded kinds ⟨m.parser.advanceAs kind, m.opened, none⟩ := by
  cases rest : m.parser.rest with
  | nil =>
    have stays : m.parser.advanceAs kind = m.parser := by simp [Parser.advanceAs, rest]
    rw [stays]
    exact ⟨recorded.distinct, recorded.unfilled, by simp, recorded.kinds⟩
  | cons t ts => exact recorded.push (.token kind) (by simp [Parser.advanceAs, rest])

theorem takeEnd (recorded : Recorded kinds m) : Recorded kinds ⟨m.parser.takeEnd, m.opened, none⟩ := by
  refine recorded.push (.token .eof) ?_
  simp only [Parser.takeEnd, Parser.require]
  split <;> rfl

/-- A new marker has the slot behind the log. -/
theorem start (recorded : Recorded kinds m) {marker : Marker} (slot : marker.slot.toNat = m.parser.events.size) :
    Recorded kinds ⟨m.parser.start.2, marker :: m.opened, none⟩ where
  distinct := by
    rw [List.map_cons, List.nodup_cons]
    refine ⟨fun member => ?_, recorded.distinct⟩
    obtain ⟨other, found, same⟩ := List.mem_map.mp member
    obtain ⟨bound, -⟩ := Array.getElem?_eq_some_iff.mp (recorded.unfilled other found)
    rw [same, slot] at bound
    exact Nat.lt_irrefl _ bound
  unfilled := by
    intro other member
    cases member with
    | head => simp [Parser.start, slot]
    | tail _ member => exact getElem?_push_of_some (recorded.unfilled other member) tombstone
  completed := by simp
  kinds := by
    intro kind member
    obtain ⟨place, filled⟩ := recorded.kinds kind member
    exact ⟨place, filled.start slot⟩

/-- A node that is complete may get another link. -/
theorem relink (recorded : Recorded kinds m) {slot : Nat} {kind : Kind} {p : Parser}
    (filled : m.Filled slot kind) (link : Option Nat)
    (events : p.events = m.parser.events.setIfInBounds slot (.start kind link)) :
    Recorded kinds ⟨p, m.opened, none⟩ where
  distinct := recorded.distinct
  unfilled := by
    intro marker member
    rw [events, Array.getElem?_setIfInBounds_ne (filled.2 marker member).symm]
    exact recorded.unfilled marker member
  completed := by simp
  kinds := by
    intro other member
    obtain ⟨place, ⟨otherLink, logged⟩, free⟩ := recorded.kinds other member
    obtain ⟨oldLink, old⟩ := filled.1
    by_cases here : slot = place
    · subst here
      rw [old] at logged
      cases logged
      obtain ⟨bound, -⟩ := Array.getElem?_eq_some_iff.mp old
      exact ⟨slot, ⟨link, by rw [events, Array.getElem?_setIfInBounds_self_of_lt bound]⟩, free⟩
    · refine ⟨place, ⟨otherLink, ?_⟩, free⟩
      rw [events, Array.getElem?_setIfInBounds_ne here]
      exact logged

theorem precede (recorded : Recorded kinds m) {c : Completed} (completed : m.completed = some c)
    (addressed : (m.parser.precede c).2.Addressed) :
    Recorded kinds ⟨(m.parser.precede c).2, (m.parser.precede c).1 :: m.opened, none⟩ := by
  obtain ⟨kind, filled⟩ := recorded.completed c completed
  have begunSlot : m.parser.start.1.slot.toNat = m.parser.events.size :=
    Parser.toNat_slot_start ((Parser.grows_link m.parser c).addressed addressed)
  have slot : (m.parser.precede c).1.slot.toNat = m.parser.events.size := by
    rw [Parser.marker_precede, begunSlot]
  -- The node starts before its parent, so the link leads forward.
  have behind : ¬ m.parser.start.1.slot < c.slot := by
    obtain ⟨link, logged⟩ := filled.1
    obtain ⟨bound, -⟩ := Array.getElem?_eq_some_iff.mp logged
    rw [UInt32.lt_iff_toNat_lt, begunSlot]
    omega
  -- The parent is started first, which leaves the node where it is, and then the node gets its link.
  have begun := recorded.start slot
  have still := filled.start slot
  obtain ⟨link, logged⟩ := still.1
  refine begun.relink still (some (m.parser.start.1.slot.toNat - c.slot.toNat)) ?_
  simp only [Parser.start] at logged behind ⊢
  simp [Parser.precede, Parser.start, logged, behind]

/-- Completing a node fills its start in, and no other marker stands for it. -/
theorem complete (recorded : Recorded kinds m) {marker : Marker} {ms : List Marker}
    (opened : m.opened = marker :: ms) (kind : Kind) :
    Recorded (kinds ++ [kind])
      ⟨(m.parser.complete marker kind).2, ms, some (m.parser.complete marker kind).1⟩ := by
  obtain ⟨distinct, unfilled, -, filled⟩ := recorded
  rw [opened] at distinct unfilled
  rw [List.map_cons, List.nodup_cons] at distinct
  have found := unfilled marker (List.mem_cons_self ..)
  have others : ∀ other ∈ ms, other.slot.toNat ≠ marker.slot.toNat := by
    intro other member same
    exact distinct.1 (UInt32.toNat.inj same ▸ List.mem_map_of_mem member)
  have events : (m.parser.complete marker kind).2.events =
      (m.parser.events.setIfInBounds marker.slot.toNat (.start kind none)).push .finish := by
    simp [Parser.complete, found, tombstone]
  -- One entry changes, and neither the other markers nor the nodes that are complete have that slot.
  have elsewhere : ∀ {place : Nat} {event : Event}, place ≠ marker.slot.toNat →
      m.parser.events[place]? = some event →
      (m.parser.complete marker kind).2.events[place]? = some event := by
    intro place event away logged
    rw [events]
    refine getElem?_push_of_some ?_ _
    rw [Array.getElem?_setIfInBounds_ne away.symm]
    exact logged
  have here : Marking.Filled ⟨(m.parser.complete marker kind).2, ms,
      some (m.parser.complete marker kind).1⟩ marker.slot.toNat kind := by
    obtain ⟨bound, -⟩ := Array.getElem?_eq_some_iff.mp found
    refine ⟨⟨none, ?_⟩, others⟩
    rw [events]
    exact getElem?_push_of_some (Array.getElem?_setIfInBounds_self_of_lt bound) _
  refine ⟨distinct.2, fun other member => ?_, fun c same => ?_, fun other member => ?_⟩
  · exact elsewhere (others other member) (unfilled other (List.mem_cons_of_mem _ member))
  · cases same
    rw [Parser.slot_complete]
    exact ⟨kind, here⟩
  · cases List.mem_append.mp member with
    | inl earlier =>
      obtain ⟨place, ⟨link, logged⟩, free⟩ := filled other earlier
      rw [opened] at free
      refine ⟨place, ⟨link, elsewhere ?_ logged⟩, fun rest member => ?_⟩
      · exact (free marker (List.mem_cons_self ..)).symm
      · exact free rest (List.mem_cons_of_mem _ member)
    | inr last =>
      rw [List.mem_singleton.mp last]
      exact ⟨marker.slot.toNat, here⟩

theorem step (recorded : Recorded kinds m) {op : Operation} {m' : Marking} (marked : m.step op = some m')
    (addressed : m'.parser.Addressed) : Recorded (kinds ++ op.kind?.toList) m' := by
  cases op with
  | start =>
    cases marked
    simpa [Operation.kind?] using recorded.start (Parser.toNat_slot_start addressed)
  | advance =>
    cases marked
    simpa [Operation.kind?, Parser.advance] using recorded.advanceAs m.parser.kind
  | advanceAs kind =>
    cases marked
    simpa [Operation.kind?] using recorded.advanceAs kind
  | takeEnd =>
    cases marked
    simpa [Operation.kind?] using recorded.takeEnd
  | complete kind =>
    cases opened : m.opened with
    | nil => simp [Marking.step, opened] at marked
    | cons marker ms =>
      rw [Marking.step_complete opened] at marked
      cases marked
      exact recorded.complete opened kind
  | precede =>
    cases completed : m.completed with
    | none => simp [Marking.step, completed] at marked
    | some c =>
      rw [Marking.step_precede completed] at marked
      cases marked
      simpa [Operation.kind?] using recorded.precede completed addressed

/-- The kinds of all nodes that were completed are in the log in the end. -/
theorem run (recorded : Recorded kinds m) {ops : List Operation} {m' : Marking}
    (marked : ops.foldlM Marking.step m = some m') (addressed : m'.parser.Addressed) :
    Recorded (kinds ++ ops.filterMap Operation.kind?) m' := by
  induction ops generalizing kinds m with
  | nil =>
    cases marked
    simpa using recorded
  | cons op ops ih =>
    rw [List.foldlM_cons] at marked
    obtain ⟨next, stepped, marked⟩ := Option.bind_eq_some_iff.mp marked
    have later := ih (recorded.step stepped (Marking.addressed_of_run marked addressed)) marked
    cases kind : op.kind? <;> simpa [kind] using later

end Recorded

/-! ## The comparison -/

/-- Every sequence of the discipline can be done by the parser and by the direct builder, which then has a tree. If all
nodes get kinds of nodes and all starts have slots then the log is that of the tree. -/
theorem Fits.exists_run {text : Text} {r : Registry} {ops : List Operation} (slashKind : Kind)
    (fits : Fits (Stage.first (Token.tokenize text r).1) ops) :
    ∃ p m b t, Parser.ofTokens (Token.tokenize text r).1 slashKind = .ok p ∧ Marking.run p ops = some m ∧
      ops.foldlM (DirectBuilder.step text) ⟨(Token.tokenize text r).1, [], []⟩ = some b ∧ b.tree? = some t ∧
      Stage.final.Reached m b ∧
      ((∀ kind ∈ ops.filterMap Operation.kind?, kind.isLabel = true) → m.parser.Addressed →
        ∃ es gs, Tracks text (Token.tokenize text r).1 true m b es gs) := by
  obtain ⟨init, last, tokensEq, lastEnd, -⟩ := Token.exists_init_tokensFrom r 0 text
  change (Token.tokenize text r).1 = init ++ [last] at tokensEq
  let p : Parser := ⟨init, last, none, 0, #[], [], [], slashKind, none⟩
  have started : Parser.ofTokens (Token.tokenize text r).1 slashKind = .ok p := by
    simp [Parser.ofTokens, tokensEq, lastEnd, p]
  have reached : (Stage.first (Token.tokenize text r).1).Reached ⟨p, [], none⟩
      ⟨(Token.tokenize text r).1, [], []⟩ := by
    refine ⟨rfl, rfl, by simp [Stage.first], by simp [Stage.first], ⟨tokensEq, ?_⟩, rfl, fun _ => rfl⟩
    simp [tokensEq, p]
  have tracks : Tracks text (Token.tokenize text r).1 false ⟨p, [], none⟩
      ⟨(Token.tokenize text r).1, [], []⟩ [] [] := ⟨rfl, lastEnd, .going .outside, rfl, rfl, rfl⟩
  obtain ⟨m, b, marked, built, final⟩ := fits.run text reached
  obtain ⟨t, tree, -⟩ := final.tree?_eq
  refine ⟨p, m, b, t, started, marked, built, tree, final, fun labels addressed => ?_⟩
  exact fits.tracks reached (fun op member kind has => labels kind (List.mem_filterMap.mpr ⟨op, member, has⟩))
    marked built addressed tracks

section

variable {text : Text} {tokens : List Token} {slashKind : Kind} {ops : List Operation} {p : Parser} {m : Marking}
  {t : Tree}

/-- If the log is finished without fault after all nodes were completed then its starts have slots and are filled
in. -/
theorem Marking.addressed_of_finish (started : Parser.ofTokens tokens slashKind = .ok p)
    (marked : Marking.run p ops = some m) (noneOpen : m.opened = []) {u : List Token}
    (finished : m.parser.finish text u = .ok t) :
    m.parser.Addressed ∧ ∀ e ∈ m.parser.events.toList, e.isTombstone = false := by
  have noEvents : p.events = #[] := Parser.events_ofTokens started
  obtain ⟨nodes, ended, grows, count⟩ := Marking.grows_run marked
  obtain rfl : nodes = ended := by simpa [noneOpen] using count
  refine ⟨grows.addressed_of_finish noEvents finished, Parser.isTombstone_of_finish finished ?_⟩
  obtain ⟨-, starts, ends⟩ := grows.counts (Parser.finish_eq_ok_iff.mp finished).1
  rw [starts, ends, noEvents]
  rfl

/-- And then all nodes were completed with kinds of nodes. -/
theorem Marking.isLabel_of_finish (started : Parser.ofTokens tokens slashKind = .ok p)
    (marked : Marking.run p ops = some m) (noneOpen : m.opened = []) {u : List Token}
    (finished : m.parser.finish text u = .ok t) :
    ∀ kind ∈ ops.filterMap Operation.kind?, kind.isLabel = true := by
  obtain ⟨addressed, filled⟩ := addressed_of_finish started marked noneOpen finished
  intro kind member
  obtain ⟨slot, ⟨link, logged⟩, -⟩ :=
    ((Recorded.begun p).run marked addressed).kinds kind (by simpa using member)
  exact LispSyntax.isLabel_of_finish finished filled logged

end

/-- Every sequence of the discipline can be done by the parser and by the direct builder, which then has a tree. To
finish the log either gives this tree or is a fault: it is a fault if a node was given a kind that no node can have,
if a token of the text has more trivia than a leaf can hold, or if the log has a start behind all slots. -/
theorem finish_eq_direct_iff {text : Text} {r : Registry} {ops : List Operation} (slashKind : Kind)
    (fits : Fits (Stage.first (Token.tokenize text r).1) ops) :
    ∃ p m t, Parser.ofTokens (Token.tokenize text r).1 slashKind = .ok p ∧ Marking.run p ops = some m ∧
      DirectBuilder.build text (Token.tokenize text r).1 ops = some t ∧
      ∀ t', m.parser.finish text (Token.tokenize text r).1 = .ok t' ↔
        t' = t ∧ (∀ kind ∈ ops.filterMap Operation.kind?, kind.isLabel = true) ∧
          (∀ u ∈ (Token.tokenize text r).1, ¬ u.TooLong) ∧ m.parser.Addressed := by
  obtain ⟨p, m, b, t, started, marked, built, tree, final, tracked⟩ := fits.exists_run slashKind
  have noneOpen : m.opened = [] := List.eq_nil_of_length_eq_zero final.opened
  refine ⟨p, m, t, started, marked, by rw [DirectBuilder.build, built]; exact tree, fun t' => ?_⟩
  constructor
  · intro finished
    have labels := Marking.isLabel_of_finish started marked noneOpen finished
    have addressed := (Marking.addressed_of_finish started marked noneOpen finished).1
    -- So the log is that of a draft, and the tree that was built is the tree of the draft.
    obtain ⟨es, gs, ended⟩ := tracked labels addressed
    obtain ⟨d, rfl, tokens, same | ⟨-, fault, faulted⟩⟩ := ended.exists_draft final tree
    · have lies : ∀ u ∈ d.tokens, u.LiesIn text := by
        rw [tokens]
        exact fun u member => Token.liesIn_of_mem_tokenize member
      rw [same] at finished
      refine ⟨(Except.ok.inj finished).symm, labels, ?_, addressed⟩
      rw [← tokens]
      exact not_tooLong_of_replay lies (Parser.finish_eq_ok_iff.mp same).2
    · rw [faulted] at finished
      contradiction
  · rintro ⟨rfl, labels, short, addressed⟩
    obtain ⟨es, gs, ended⟩ := tracked labels addressed
    obtain ⟨d, -, tokens, finished | ⟨⟨u, member, long⟩, -⟩⟩ := ended.exists_draft final tree
    · exact finished
    · exact absurd long (short u (tokens ▸ member))

def chainSample : Text :=
  "a b".toList

/-- A name gets a parent, which gets a parent with the second name, all of it inside the root. -/
def chainOperations : List Operation :=
  [.start, .start, .advance, .complete .symbol, .precede, .complete .lookupForm, .precede, .advance,
    .complete .listForm, .takeEnd, .complete .source]

/-- A chain of parents is finished to what the direct builder makes of it. -/
theorem finish_eq_direct_iff_chain :
    Fits (Stage.first (Token.tokenize chainSample .empty).1) chainOperations ∧
    ∃ p m t, Parser.ofTokens (Token.tokenize chainSample .empty).1 .slash = .ok p ∧
      Marking.run p chainOperations = some m ∧
      DirectBuilder.build chainSample (Token.tokenize chainSample .empty).1 chainOperations = some t ∧
      m.parser.finish chainSample (Token.tokenize chainSample .empty).1 = .ok t := by
  have count : (Token.tokenize chainSample .empty).1.length = 3 := by decide +kernel
  have fits : Fits (Stage.first (Token.tokenize chainSample .empty).1) chainOperations := by
    rw [Stage.first, count]
    exact .step .root (.step .start (.step .advance (.step .complete (.step .precede (.step .complete
      (.step .precede (.step .advance (.step .complete (.step .takeEnd (.step .complete .done))))))))))
  obtain ⟨p, m, t, started, marked, built, finished⟩ := finish_eq_direct_iff .slash fits
  have labels : ∀ kind ∈ chainOperations.filterMap Operation.kind?, kind.isLabel = true := by decide
  have short : ∀ u ∈ (Token.tokenize chainSample .empty).1, ¬ u.TooLong := by decide +kernel
  have addressed : m.parser.Addressed := by
    refine Marking.addressed_of_length_le marked ?_
    rw [Parser.events_ofTokens started]
    decide
  exact ⟨fits, p, m, t, started, marked, built, (finished t).mpr ⟨rfl, labels, short, addressed⟩⟩

/-! ## A start behind all slots -/

def emptyNodes (n : Nat) : List Operation :=
  (List.replicate n [.start, .complete .symbol]).flatten

theorem emptyNodes_succ (n : Nat) : emptyNodes (n + 1) = .start :: .complete .symbol :: emptyNodes n := by
  rw [emptyNodes, List.replicate_succ, List.flatten_cons]
  rfl

theorem fits_emptyNodes {n opened : Nat} {closed : Bool} {left : Option Nat} {ops : List Operation}
    (behind : ∀ closed, Fits ⟨opened + 1, left, closed⟩ ops) :
    Fits ⟨opened + 1, left, closed⟩ (emptyNodes n ++ ops) := by
  induction n generalizing closed with
  | zero => exact behind closed
  | succ n ih =>
    rw [emptyNodes_succ]
    exact .step .start (.step .complete ih)

/-- An empty node takes two entries. -/
theorem Parser.size_complete_start {p : Parser} (addressed : p.start.2.Addressed) (kind : Kind) :
    (p.start.2.complete p.start.1 kind).2.events.size = p.events.size + 2 := by
  have begun : p.start.2.events.toList = p.events.toList ++ tombstone :: [] := by simp [start]
  obtain ⟨events, completed, filled⟩ := complete_slot_eq kind begun (toNat_slot_start addressed)
  rw [completed, ← Array.length_toList, filled]
  simp

theorem Marking.size_emptyNodes {n : Nat} {m m' : Marking} (marked : (emptyNodes n).foldlM step m = some m')
    (addressed : m'.parser.Addressed) : m'.parser.events.size = m.parser.events.size + 2 * n := by
  induction n generalizing m with
  | zero =>
    cases marked
    rfl
  | succ n ih =>
    rw [emptyNodes_succ, List.foldlM_cons] at marked
    obtain ⟨begun, started, marked⟩ := Option.bind_eq_some_iff.mp marked
    cases started
    rw [List.foldlM_cons] at marked
    obtain ⟨ended, completed, rest⟩ := Option.bind_eq_some_iff.mp marked
    cases completed
    have begunAddressed : m.parser.start.2.Addressed :=
      (Parser.grows_complete _ _ .symbol).addressed (addressed_of_run rest addressed)
    rw [ih rest, Parser.size_complete_start begunAddressed]
    omega

/-- A root with empty nodes in it, the last of which starts behind the others. -/
def rootOperations (n : Nat) : List Operation :=
  .start :: (emptyNodes n ++ [.start, .complete .symbol, .takeEnd, .complete .source])

theorem fits_rootOperations (n : Nat) : Fits ⟨0, some 0, false⟩ (rootOperations n) :=
  .step .root (fits_emptyNodes fun _ =>
    .step .start (.step .complete (.step .takeEnd (.step .complete .done))))

theorem isLabel_rootOperations (n : Nat) :
    ∀ kind ∈ (rootOperations n).filterMap Operation.kind?, kind.isLabel = true := by
  have inside : ∀ kind ∈ (emptyNodes n).filterMap Operation.kind?, kind = .symbol := by
    induction n with
    | zero => exact List.forall_mem_nil _
    | succ n ih =>
      rw [emptyNodes_succ]
      exact List.forall_mem_cons.mpr ⟨rfl, ih⟩
  intro kind member
  have kinds : kind = .symbol ∨ kind = .source := by
    have whole : (rootOperations n).filterMap Operation.kind? =
        (emptyNodes n).filterMap Operation.kind? ++ [.symbol, .source] := by
      rw [rootOperations, List.filterMap_cons_none rfl, List.filterMap_append]
      rfl
    rw [whole, List.mem_append] at member
    cases member with
    | inl member => exact .inl (inside kind member)
    | inr member => simpa using member
  rcases kinds with rfl | rfl <;> rfl

theorem Marking.not_addressed_rootOperations {n : Nat} {p : Parser} {m : Marking} (noEvents : p.events = #[])
    (marked : Marking.run p (rootOperations n) = some m) (many : sizeLimit ≤ 2 * n + 1) : ¬ m.parser.Addressed := by
  intro addressed
  rw [run, rootOperations, List.foldlM_cons] at marked
  obtain ⟨begun, started, marked⟩ := Option.bind_eq_some_iff.mp marked
  cases started
  rw [List.foldlM_append] at marked
  obtain ⟨between, nodes, marked⟩ := Option.bind_eq_some_iff.mp marked
  rw [List.foldlM_cons] at marked
  obtain ⟨last, started, ending⟩ := Option.bind_eq_some_iff.mp marked
  cases started
  -- The start of the last node has a slot, so there are not so many entries before it.
  obtain ⟨betweenAddressed, below⟩ := Parser.addressed_start_iff.mp (addressed_of_run ending addressed)
  have size := size_emptyNodes nodes betweenAddressed
  simp only [Parser.start, Array.size_push, noEvents] at size
  simp at size
  omega

/-- All of so many nodes get kinds of nodes, and they are a tree for the direct builder, but their log is not
finished. -/
theorem finish_rootOperations_ne_direct :
    Fits (Stage.first (Token.tokenize [] .empty).1) (rootOperations 2147483648) ∧
    (∀ kind ∈ (rootOperations 2147483648).filterMap Operation.kind?, kind.isLabel = true) ∧
    (∀ u ∈ (Token.tokenize [] .empty).1, ¬ u.TooLong) ∧
    ∃ p m t, Parser.ofTokens (Token.tokenize [] .empty).1 .slash = .ok p ∧
      Marking.run p (rootOperations 2147483648) = some m ∧
      DirectBuilder.build [] (Token.tokenize [] .empty).1 (rootOperations 2147483648) = some t ∧
      ∀ t', m.parser.finish [] (Token.tokenize [] .empty).1 ≠ .ok t' := by
  have count : (Token.tokenize [] .empty).1.length = 1 := by decide +kernel
  have short : ∀ u ∈ (Token.tokenize [] .empty).1, ¬ u.TooLong := by decide +kernel
  have fits : Fits (Stage.first (Token.tokenize [] .empty).1) (rootOperations 2147483648) := by
    rw [Stage.first, count]
    exact fits_rootOperations _
  obtain ⟨p, m, b, t, started, marked, built, tree, final, -⟩ := fits.exists_run .slash
  have noneOpen : m.opened = [] := List.eq_nil_of_length_eq_zero final.opened
  refine ⟨fits, isLabel_rootOperations _, short, p, m, t, started, marked,
    by rw [DirectBuilder.build, built]; exact tree, fun t' finished => ?_⟩
  exact Marking.not_addressed_rootOperations (Parser.events_ofTokens started) marked (by decide)
    (Marking.addressed_of_finish started marked noneOpen finished).1

end LispSyntax
