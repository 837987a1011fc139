import Montage.Durable.Steps

namespace Montage.Durable
open Library Recover

variable {n : Nat} {s s' : State n} {t : Fin n} {a b : Addr} {d j : Nat} {wb : WriteBack}

section
variable (h : Inv s)
include h

theorem Inv.late (hx : Pledged s x e ∨ Booked s x e) : s.globalEpoch ≤ e + 1 := by
  rcases hx with ⟨u,hop,-⟩ | ⟨hg,-⟩
  · exact ((h.worker u).epoch e hop).2.2
  · exact hg

end

end Montage.Durable
