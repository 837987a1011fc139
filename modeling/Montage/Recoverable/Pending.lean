import Mathlib.Data.Finset.Basic

namespace Montage.Recoverable

/-- A thread's share of `pending_allocs` and `pending_retires`. -/
structure PendingLists where
  pendingAllocs : List Nat
  pendingRetires : List Nat

/-- The payloads that are registered with the epoch system, and those that are retired. -/
structure Payloads where
  committed : Finset Nat
  retired : Finset Nat

namespace PendingLists

def empty : PendingLists := ⟨[],[]⟩

@[simp]
def pnew (p : PendingLists) (n : Nat) : PendingLists :=
  { p with pendingAllocs := p.pendingAllocs ++ [n] }

/-- `pdelete` of a payload that is still pending. -/
@[simp]
def pdelete (p : PendingLists) (n : Nat) : PendingLists :=
  { p with pendingAllocs := p.pendingAllocs.erase n }

/-- `pretire`, which only notes the payload. -/
@[simp]
def pretire (p : PendingLists) (n : Nat) : PendingLists :=
  { p with pendingRetires := p.pendingRetires ++ [n] }

@[simp]
def abortOp (p : PendingLists) : PendingLists := { p with pendingRetires := [] }

end PendingLists

/-- `end_op`: the pending allocations are registered and the pending retirements made. -/
@[simp]
def Payloads.endOp (s : Payloads) (p : PendingLists) : Payloads :=
  ⟨s.committed ∪ p.pendingAllocs.toFinset,s.retired ∪ p.pendingRetires.toFinset⟩

end Montage.Recoverable
