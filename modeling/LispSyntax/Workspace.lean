import LispSyntax.Ast.Form
import LispSyntax.Parse
import LispSyntax.Text.Lines

/-! # Workspaces

A workspace holds source files by number. A file has a path, a text and the registry it is read with; all
else is computed from these when asked for.
-/

namespace LispSyntax

structure SourceFile where
  path : String
  text : Text
  registry : Registry

namespace SourceFile

def parse (f : SourceFile) : Except Fault Parse :=
  LispSyntax.parse f.text f.registry

def lineCol (f : SourceFile) (offset : Nat) : Except Fault LineCol :=
  match f.text.lineCol? offset with
  | some place => .ok place
  | none => .error .invalidOffset

/-- The diagnostics of the file, each with the place where it starts. -/
def check (f : SourceFile) : Except Fault (List (LineCol × Diagnostic)) := do
  let p ← f.parse
  p.diagnostics.mapM fun d => do return (← f.lineCol d.span.start, d)

/-- The symbols of the file in order, each with its class. -/
def classified (f : SourceFile) : Except Fault (List (Text × Option Builtin)) := do
  let p ← f.parse
  let symbols := p.root.descendants.filterMap (Typed.cast? .symbol)
  symbols.mapM fun s => do return (← s.name, Symbol.builtin? s)

end SourceFile

structure Workspace where
  files : List SourceFile

namespace Workspace

def empty : Workspace :=
  ⟨[]⟩

def add (w : Workspace) (f : SourceFile) : Nat × Workspace :=
  (w.files.length, ⟨w.files ++ [f]⟩)

def file? (w : Workspace) (number : Nat) : Option SourceFile :=
  w.files[number]?

def update? (w : Workspace) (number : Nat) (change : SourceFile → SourceFile) :
    Option Workspace :=
  (w.file? number).map fun f => ⟨w.files.set number (change f)⟩

end Workspace

end LispSyntax
