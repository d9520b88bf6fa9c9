import LispSyntax.Text.Basic

/-! # Builtin registry

A registry is two disjoint sets of non-empty names, supplied by the caller. It classifies names and
decides nothing else: a name outside it is an ordinary symbol. The conditions on the two sets are
part of the type; `Registry.ofNames` checks them on names read from outside.
-/

namespace LispSyntax

inductive Builtin where
  | symbol
  | function
deriving DecidableEq, Repr

def Builtin.label : Builtin → String
  | symbol => "Symbol"
  | function => "Function"

/-- Two disjoint sets of builtin names. -/
structure Registry where
  symbols : List Text
  functions : List Text
  symbols_nodup : symbols.Nodup
  functions_nodup : functions.Nodup
  nonempty : ∀ name ∈ symbols ++ functions, name ≠ []
  disjoint : ∀ name ∈ symbols, name ∉ functions

namespace Registry

inductive Problem where
  | emptyName
  | overlap (name : Text)
deriving DecidableEq, Repr

def Problem.message : Problem → String
  | emptyName => "builtin names must not be empty"
  | overlap name =>
    "`" ++ String.ofList name
      ++ "` is registered both as a builtin symbol and as a builtin function"

def collect (names : List Text) : List Text :=
  names.foldr List.insert []

theorem mem_collect {name : Text} {names : List Text} : name ∈ collect names ↔ name ∈ names := by
  induction names with
  | nil => simp [collect]
  | cons a names ih => simp only [collect, List.foldr_cons] at ih ⊢; simp [ih]

theorem nodup_collect (names : List Text) : (collect names).Nodup := by
  induction names with
  | nil => simp [collect]
  | cons a names ih =>
    simp only [collect, List.foldr_cons] at ih ⊢
    by_cases h : a ∈ names.foldr List.insert []
    · simpa [List.insert, h] using ih
    · simpa [List.insert, h] using ih

/-- The registry of the listed names. An empty name is reported before an overlap. -/
def ofNames (symbols functions : List Text) : Except Problem Registry :=
  if empty : [] ∈ symbols ++ functions then .error .emptyName
  else
    match shared : symbols.find? (functions.contains ·) with
    | some name => .error (.overlap name)
    | none => .ok {
        symbols := collect symbols
        functions := collect functions
        symbols_nodup := nodup_collect symbols
        functions_nodup := nodup_collect functions
        nonempty := by
          intro name mem eq
          subst eq
          simp only [List.mem_append, mem_collect] at mem empty
          exact empty mem
        disjoint := by
          intro name mem mem'
          rw [mem_collect] at mem mem'
          have := List.find?_eq_none.mp shared name mem
          simp [mem'] at this }

def empty : Registry :=
  ⟨[], [], .nil, .nil, by simp, by simp⟩

def isFunction (r : Registry) (name : Text) : Bool :=
  r.functions.contains name

def isSymbol (r : Registry) (name : Text) : Bool :=
  r.symbols.contains name

def classify (r : Registry) (name : Text) : Option Builtin :=
  if r.isFunction name then some .function
  else if r.isSymbol name then some .symbol
  else none

def size (r : Registry) : Nat :=
  r.symbols.length + r.functions.length

def isEmpty (r : Registry) : Bool :=
  r.size == 0

/-- Order of names by code point, which is also their order by UTF-8 bytes. -/
def nameLE : Text → Text → Bool
  | [], _ => true
  | _ :: _, [] => false
  | a :: as, b :: bs => if a = b then nameLE as bs else decide (a < b)

def insertName (name : Text) : List Text → List Text
  | [] => [name]
  | other :: rest =>
    if nameLE name other then name :: other :: rest else other :: insertName name rest

def sortNames (names : List Text) : List Text :=
  names.foldr insertName []

end Registry

end LispSyntax
