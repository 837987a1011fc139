import Mathlib.Logic.Function.Basic

namespace Montage.Library
open Function

variable {ι τ ν : Type} [DecidableEq ι] {own : τ → Option ν} {f : ι → τ} {t : ι} {x : τ}

def Apart (own : τ → Option ν) (f : ι → τ) : Prop :=
  ∀ t u n, own (f t) = some n → own (f u) = some n → t = u

theorem Apart.update (h : Apart own f)
    (hx : ∀ u n, u ≠ t → own (f u) = some n → own x ≠ some n) :
    Apart own (update f t x) := by
  intro u w n hu hw
  by_cases hut : u = t
  · by_cases hwt : w = t
    · rw [hut,hwt]
    · rw [update_of_ne hwt] at hw
      rw [hut,update_self] at hu
      exact absurd hu (hx w n hwt hw)
  · rw [update_of_ne hut] at hu
    by_cases hwt : w = t
    · rw [hwt,update_self] at hw
      exact absurd hw (hx u n hut hu)
    · rw [update_of_ne hwt] at hw
      exact h u w n hu hw

/-- What a step of one thread has to show: its own part anew, and that the parts of the others
are kept. -/
theorem update_each {P Q : ι → τ → Prop} (h : ∀ u, P u (f u)) (hx : Q t x)
    (hother : ∀ u, u ≠ t → P u (f u) → Q u (f u)) : ∀ u, Q u (update f t x u) := by
  intro u
  by_cases hu : u = t
  · rw [hu,update_self]
    exact hx
  · rw [update_of_ne hu]
    exact hother u hu (h u)

end Montage.Library
