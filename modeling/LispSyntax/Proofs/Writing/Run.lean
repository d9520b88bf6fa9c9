import LispSyntax.Proofs.Run
import LispSyntax.Proofs.Writing.Form
import LispSyntax.Proofs.Writing.Tokens

/-! # Reading what is written

`Ahead r items p` says that the parser stands before written items, and everything it can see of them is a
function of the items: kinds, texts, and whether two tokens touch. `Yields r p ss items q` says that
between two states exactly the nodes and tokens of the sketches `ss` are read, that nothing is reported,
and that `items` are next. The operations of the parser that succeed are put together from these two.
-/

namespace LispSyntax

open LispSyntax.Parser

namespace Writing

variable {r : Registry} {p q : Parser} {items k : List Item} {w : Word} {ss : List Sketch}

/-! ## What is ahead -/

structure Ahead (r : Registry) (items : List Item) (p : Parser) : Prop where
  spelled : Spelled r items p.rest
  last_eof : p.last.kind = .eof
  slash : p.slashKind = Scan.symbolKind r ['/']

/-- The kind of the first word, or the end. -/
def firstKind (r : Registry) : List Item → Kind
  | [] => .eof
  | .one w :: _ => w.kind r
  | .lookup account _ :: _ => account.word.kind r

theorem Spelled.kind_ne_eof {ts : List Token} (spelled : Spelled r items ts) :
    ∀ t ∈ ts, t.kind ≠ .eof := by
  have notEnd : ∀ {t : Token} {w : Word}, Spells r t w → t.kind ≠ .eof := by
    intro t w spells
    rw [spells.kind]
    exact w.kind_ne.1
  induction spelled with
  | nil => simp
  | one spells _ _ ih => simpa using ⟨notEnd spells, ih⟩
  | lookup first _ slash _ second _ _ ih =>
    simpa using ⟨notEnd first, notEnd slash, notEnd second, ih⟩

theorem Spelled.length_le {ts : List Token} (spelled : Spelled r items ts) :
    items.length ≤ ts.length := by
  induction spelled with
  | nil => simp
  | one _ _ _ ih => simpa using ih
  | lookup _ _ _ _ _ _ _ ih =>
    simp only [List.length_cons]
    omega

theorem Spelled.eq_nil {ts : List Token} (spelled : Spelled r [] ts) : ts = [] := by
  cases spelled with
  | nil => rfl

/-- The next token is the word; what comes after it touches it only if nothing comes. -/
theorem Spelled.exists_one {ts : List Token} (spelled : Spelled r (.one w :: k) ts) :
    ∃ t us, ts = t :: us ∧ Spells r t w ∧ (k ≠ [] → t.trailing ≠ []) ∧ Spelled r k us := by
  cases spelled with
  | one spells apart rest => exact ⟨_, _, rfl, spells, apart, rest⟩

theorem Spelled.exists_lookup {account : Account} {n : Name} {ts : List Token}
    (spelled : Spelled r (.lookup account n :: k) ts) :
    ∃ t slash u us, ts = t :: slash :: u :: us ∧ Spells r t account.word ∧ t.trailing = [] ∧
      Spells r slash .slash ∧ slash.trailing = [] ∧ Spells r u (.name n) ∧
      (k ≠ [] → u.trailing ≠ []) ∧ Spelled r k us := by
  cases spelled with
  | lookup first touches slash slashTouches second apart rest =>
    exact ⟨_, _, _, _, rfl, first, touches, slash, slashTouches, second, apart, rest⟩

theorem Ahead.ready (ahead : Ahead r items p) : p.Ready :=
  ⟨ahead.last_eof, ahead.spelled.kind_ne_eof⟩

theorem Ahead.begun (ahead : Ahead r items p) : Ahead r items p.begun :=
  ⟨ahead.spelled, ahead.last_eof, ahead.slash⟩

theorem Spelled.kind_head {ts : List Token} (spelled : Spelled r items ts) {last : Token}
    (lastEnd : last.kind = .eof) : (ts[0]?.getD last).kind = firstKind r items := by
  cases spelled with
  | nil => exact lastEnd
  | one spells => exact spells.kind
  | lookup spells => exact spells.kind

theorem Ahead.kind_eq (ahead : Ahead r items p) : p.kind = firstKind r items :=
  ahead.spelled.kind_head ahead.last_eof

theorem Ahead.isAt_eq (ahead : Ahead r items p) (kind : Kind) :
    p.isAt kind = (firstKind r items == kind) := by
  rw [isAt, ahead.kind_eq]

theorem Ahead.atSymbol_eq (ahead : Ahead r items p) :
    p.atSymbol = (firstKind r items).isSymbolToken := by
  rw [atSymbol, ahead.kind_eq]

theorem Ahead.current_text (ahead : Ahead r (.one w :: k) p) : p.current.text = w.text := by
  obtain ⟨t, ts, rest, spells, -, -⟩ := ahead.spelled.exists_one
  rw [current_of_rest rest, spells.text]

theorem Ahead.nth_one (ahead : Ahead r (.one w :: k) p) : p.nth 1 = firstKind r k := by
  obtain ⟨t, ts, rest, -, -, after⟩ := ahead.spelled.exists_one
  have seen := after.kind_head ahead.last_eof
  simpa [nth, token, rest] using seen

/-! ## The end of a sequence -/

def Inside (closer : Kind) (p : Parser) : Prop :=
  ∃ name outer, p.frames = ⟨closer, name⟩ :: outer

def Starts (kind : Kind) : Prop :=
  kind ≠ .eof ∧ kind.isCloser = false ∧ kind ≠ .caret

instance (kind : Kind) : Decidable (Starts kind) :=
  inferInstanceAs (Decidable (_ ∧ _ ∧ _))

theorem Ahead.going (ahead : Ahead r items p) (starts : Starts (firstKind r items)) :
    p.atSequenceEnd = false := by
  have notEnd : (firstKind r items == .eof) = false := by simpa using starts.1
  rw [atSequenceEnd, ahead.isAt_eq, ahead.kind_eq, notEnd, starts.2.1]
  rfl

structure Closer where
  kind : Kind
  closes : kind.isCloser = true

theorem Closer.isMark (closer : Closer) : closer.kind ∈ markKinds := by
  have marks : ∀ kind ∈ Kind.all, kind.isCloser = true → kind ∈ markKinds := by decide
  exact marks closer.kind (Kind.mem_all closer.kind) closer.closes

def Closer.item (closer : Closer) : Item :=
  mark closer.kind closer.isMark

theorem Ahead.ended {closer : Closer} (ahead : Ahead r (closer.item :: k) p)
    (inside : Inside closer.kind p) : p.atSequenceEnd = true := by
  obtain ⟨name, outer, frames⟩ := inside
  have kindEq : p.kind = closer.kind := ahead.kind_eq
  simp [atSequenceEnd, kindEq, frames, closer.closes]

/-! ## What is read -/

def Yields (r : Registry) (p : Parser) (ss : List Sketch) (items : List Item) (q : Parser) : Prop :=
  Ahead r items q ∧ ∃ ds, Runs p ds q ∧ Quiet p q ∧ ds.map Draft.sketch = ss

theorem Yields.ahead (yields : Yields r p ss items q) : Ahead r items q :=
  yields.1

theorem Yields.inside {closer : Kind} (yields : Yields r p ss items q) (inside : Inside closer p) :
    Inside closer q := by
  obtain ⟨-, ds, runs, -⟩ := yields
  rw [Inside, runs.frames]
  exact inside

theorem Ahead.yields (ahead : Ahead r items p) {ds : List Draft} (runs : Runs p ds q)
    (quiet : Quiet p q) (spelled : Spelled r k q.rest) : Yields r p (ds.map Draft.sketch) k q :=
  ⟨⟨spelled, runs.last ▸ ahead.last_eof, runs.slash ▸ ahead.slash⟩, ds, runs, quiet, rfl⟩

theorem Ahead.stays (ahead : Ahead r items p) : Yields r p [] items p :=
  ahead.yields (.refl p) rfl ahead.spelled

theorem Yields.trans {s : Parser} {us : List Sketch} (first : Yields r p ss items q)
    (second : Yields r q us k s) : Yields r p (ss ++ us) k s := by
  obtain ⟨-, ds, runs, quiet, rfl⟩ := first
  obtain ⟨ahead, es, runs', quiet', rfl⟩ := second
  refine ⟨ahead, ds ++ es, runs.trans runs', quiet'.trans quiet, ?_⟩
  rw [List.map_append]

theorem Ahead.advanceAs (ahead : Ahead r (.one w :: k) p) (kind : Kind) :
    Yields r p [.leaf (kind, w.text)] k (p.advanceAs kind) := by
  obtain ⟨t, ts, rest, spells, -, after⟩ := ahead.spelled.exists_one
  have taken := ahead.yields (k := k) (runs_advanceAs rest kind) (quiet_advanceAs rest kind)
    (by rw [rest_advanceAs rest]; exact after)
  simpa [spells.text] using taken

theorem Ahead.advance (ahead : Ahead r (.one w :: k) p) :
    Yields r p [.leaf (w.kind r, w.text)] k p.advance := by
  rw [Parser.advance, ahead.kind_eq]
  exact ahead.advanceAs (w.kind r)

/-! ## Nodes -/

theorem Yields.complete {kind : Kind} (label : kind.isLabel = true)
    (filled : Yields r p.begun ss k q) :
    Yields r p [.node kind ss] k (q.complete p.start.1 kind).2 := by
  obtain ⟨ahead, ds, runs, quiet, rfl⟩ := filled
  have made := makes_complete label runs
  obtain ⟨events, fault, completed⟩ := completed_eq q p.start.1 kind
  refine ⟨?_, _, made.runs, ?_, by simp⟩
  · rw [completed]
    exact ⟨ahead.spelled, ahead.last_eof, ahead.slash⟩
  · rw [Quiet, reports_complete]
    exact quiet

theorem Yields.node {kind : Kind} (label : kind.isLabel = true) {body : Parser → Parser}
    (filled : Yields r p.begun ss k (body p.begun)) :
    Yields r p [.node kind ss] k (p.node kind body).2 :=
  Yields.complete label filled

/-! ## Delimited sequences -/

theorem Ahead.openSequence {opener : Kind} {isMark : opener ∈ markKinds}
    (ahead : Ahead r (mark opener isMark :: k) p) (closer : Closer)
    (opens : opener.closer? = some closer.kind) (name : String) :
    Ahead r k (p.openSequence name) ∧ Inside closer.kind (p.openSequence name) := by
  obtain ⟨t, ts, rest, spells, -, after⟩ := ahead.spelled.exists_one
  have kindEq : t.kind.closer? = some closer.kind := by
    rw [spells.kind]
    exact opens
  refine ⟨?_, name, p.frames, frames_openSequence rest kindEq name⟩
  rw [openSequence_eq rest kindEq]
  have runs := runs_advanceAs rest t.kind
  refine ⟨?_, runs.last ▸ ahead.last_eof, runs.slash ▸ ahead.slash⟩
  change Spelled r k (p.advanceAs t.kind).rest
  rw [rest_advanceAs rest]
  exact after

theorem Ahead.enclosed {opener : Kind} {closer : Closer} {isMark : opener ∈ markKinds}
    (ahead : Ahead r (mark opener isMark :: items) p) (opens : opener.closer? = some closer.kind)
    {name : String} (filled : Yields r (p.openSequence name) ss (closer.item :: k) q) :
    Yields r p (between opener closer.kind ss) k q.closeSequence := by
  obtain ⟨t, ts, rest, spells, -, -⟩ := ahead.spelled.exists_one
  have kindEq : t.kind = opener := spells.kind
  have opens' : t.kind.closer? = some closer.kind := by
    rw [kindEq]
    exact opens
  obtain ⟨aheadCloser, ds, runs, quiet, rfl⟩ := filled
  have frames : q.frames = ⟨closer.kind, name⟩ :: p.frames := by
    rw [runs.frames, frames_openSequence rest opens']
  obtain ⟨u, us, rest', spells', -, after⟩ := aheadCloser.spelled.exists_one
  have closes : q.isAt closer.kind = true := by
    rw [aheadCloser.isAt_eq]
    exact beq_self_eq_true closer.kind
  -- The frame that was opened is the innermost one again, and its closing token is next.
  have closed : q.closeSequence = { q.advanceAs u.kind with frames := p.frames } := by
    simp [closeSequence, frames, closes, Parser.advance, kind_of_rest rest']
  have whole := (runs_inside rest opens' runs).trans
    ((runs_advanceAs rest' u.kind).withFrames p.frames)
  have silent : Quiet p q.closeSequence := by
    rw [closed]
    exact (quiet_advanceAs rest' u.kind).trans (quiet.trans (reports_openSequence rest opens' name))
  rw [← closed] at whole
  have yields := ahead.yields (k := k) whole silent (by
    rw [closed]
    change Spelled r k (q.advanceAs u.kind).rest
    rw [rest_advanceAs rest']
    exact after)
  have openerText : t.text = (opener.spelling.getD "").toList := spells.text
  have closerText : u.text = (closer.kind.spelling.getD "").toList := spells'.text
  have closerKind : u.kind = closer.kind := spells'.kind
  simpa [between, markLeaf, kindEq, openerText, closerText, closerKind] using yields

end Writing

end LispSyntax
