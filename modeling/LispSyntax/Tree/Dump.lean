import LispSyntax.Text.Quoted
import LispSyntax.Tree.Walk

/-! # Listings of trees

A listing has a line per element, indented by depth. Nodes show the span of their lexemes, leaves their
span and quoted lexeme; trivia is left out.
-/

namespace LispSyntax

/-- A leaf as `KIND@start..stop "lexeme"`. -/
def LeafView.describe (v : LeafView) : Except Fault String := do
  let lexeme ← v.leaf.trimmed
  return v.kind.label ++ "@" ++ v.trimmedSpan.render ++ " " ++ Text.quoted lexeme

namespace View

def describe (v : View) : String :=
  v.kind.label ++ "@" ++ v.span.render

def dumpLine (v : View) : Except Fault String :=
  match v.leaf? with
  | some leaf => leaf.describe
  | none => .ok (v.kind.label ++ "@" ++ v.trimmedSpan.render)

def dumpVisits (depth : Nat) : List Visit → Except Fault String
  | [] => .ok ""
  | .enter e :: rest => do
    let line ← e.dumpLine
    let below ← dumpVisits (if e.isNode then depth + 1 else depth) rest
    return String.ofList (List.replicate (2 * depth) ' ') ++ line ++ "\n" ++ below
  | .leave e :: rest => dumpVisits (if e.isNode then depth - 1 else depth) rest

def dump (v : View) : Except Fault String :=
  dumpVisits 0 v.walk

end View

end LispSyntax
