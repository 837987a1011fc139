import Mathlib.Init

namespace Montage.Library.Maps

/-- The calls of a map. -/
inductive Call (K V : Type) where
  | get (key : K)
  | put (key : K) (val : V)
  | insert (key : K) (val : V)
  | remove (key : K)
  deriving DecidableEq

/-- What a call returns: `insert` a flag, the others the old value. -/
inductive Result (V : Type) where
  | value (val : Option V)
  | flag (done : Bool)
  deriving DecidableEq

namespace Call

def key : Call K V → K
  | .get key | .put key _ | .insert key _ | .remove key => key

/-- What a call makes of the value of its key, and what it returns. -/
def effect : Call K V → Option V → Option V × Result V
  | .get _, old => (old,.value old)
  | .put _ val, old => (some val,.value old)
  | .insert _ val, none => (some val,.flag true)
  | .insert _ _, some old => (some old,.flag false)
  | .remove _, old => (none,.value old)

/-- The value that a call comes with. -/
def made : Call K V → Option V
  | .put _ val | .insert _ val => some val
  | .get _ | .remove _ => none

def readOnly : Call K V → Bool
  | .get _ => true
  | _ => false

end Call

end Montage.Library.Maps
