/-!
# SsaForm.Consistency.Checks — which checks are made

The mutators refuse what would break a phi or name an unknown variable. The consistency check looks at
the whole method again and finds what got past them: changes made to the variable table directly.
-/

namespace SsaForm

/-- Which relations the consistency check looks at, and whether every mutation runs it. -/
structure Checks where
  /-- Each argument of a phi is owned by that phi. -/
  parallelBindings : Bool := true
  /-- No phi binds a predecessor twice. -/
  uniquePredecessors : Bool := true
  /-- A phi reads a variable exactly if the variable lists it as a consumer. -/
  backReferences : Bool := true
  /-- Arguments and results agree with the uses and definitions that variables record. -/
  useLists : Bool := true
  /-- Every phi carries its markers. -/
  phiFlags : Bool := true
  /-- Every mutation of a method is followed by its check. A mutation that fails the check stays. -/
  afterMutation : Bool := false
  /-- The largest number of arguments of a phi; zero sets no limit. -/
  maxPhiArgs : Nat := 0
deriving DecidableEq, Repr

namespace Checks

/-- Every relation is looked at, on demand. -/
def standard : Checks := {}

/-- Nothing is looked at. -/
def disabled : Checks where
  parallelBindings := false
  uniquePredecessors := false
  backReferences := false
  useLists := false
  phiFlags := false

/-- Only the bindings of phis are looked at, not the variables. -/
def minimal : Checks := { disabled with parallelBindings := true, uniquePredecessors := true }

/-- Every relation is looked at, after every mutation. -/
def strict : Checks := { standard with afterMutation := true }

/-- Is any relation looked at? -/
def anyEnabled (c : Checks) : Bool :=
  c.parallelBindings || c.uniquePredecessors || c.backReferences || c.useLists || c.phiFlags ||
    c.maxPhiArgs != 0

end Checks

end SsaForm
