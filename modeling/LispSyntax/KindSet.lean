import LispSyntax.Kind

/-! # Sets of kinds

A set of kinds is a bit mask over `Kind.index`, so two sets with the same members are equal.
-/

namespace LispSyntax

/-- A set of kinds as a bit mask. -/
structure KindSet where
  bits : Nat
deriving DecidableEq, Repr

namespace KindSet

def empty : KindSet :=
  ⟨0⟩

def singleton (k : Kind) : KindSet :=
  ⟨1 <<< k.index⟩

def union (a b : KindSet) : KindSet :=
  ⟨a.bits ||| b.bits⟩

def ofList (kinds : List Kind) : KindSet :=
  kinds.foldl (fun s k => s.union (singleton k)) empty

def contains (s : KindSet) (k : Kind) : Bool :=
  s.bits.testBit k.index

end KindSet

end LispSyntax
