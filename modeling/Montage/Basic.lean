import Mathlib.Algebra.Group.Nat.Defs
import Mathlib.Logic.Function.Basic

namespace Montage

/-- `NULL_EPOCH`: the block carries no epoch. -/
def nullEpoch : Nat := 0

/-- `INIT_EPOCH`: the global epoch of a fresh heap. -/
def initEpoch : Nat := 3

/-- `EPOCH_WINDOW`: the number of per-epoch buckets. -/
def epochWindow : Nat := 4

def uint64Max : Nat := 2 ^ 64 - 1

/-- Subtraction on `uint64_t`, which wraps around below zero. -/
def sub64 (a b : Nat) : Nat := (2 ^ 64 + a - b) % 2 ^ 64

theorem sub64_of_le (hb : b ≤ a) (ha : a < 2 ^ 64) : sub64 a b = a - b := by
  unfold sub64
  omega

/-- The block types of `PBlkType`, in the order of the source. -/
inductive PBlkType where
  | init | alloc | update | delete | reclaimed | epoch | owned | desc
  deriving DecidableEq

end Montage
