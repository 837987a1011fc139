namespace Montage.Library

variable {α β ε : Type} {r : β}

/-- What is known of a computation that can fail once it has returned: its first part
returned as well. -/
theorem of_bind_ok {x : Except ε α} {f : α → Except ε β} (h : x >>= f = .ok r) :
    ∃ a, x = .ok a ∧ f a = .ok r := by
  cases x with
  | error => cases h
  | ok a => exact ⟨a,rfl,h⟩

theorem of_check_ok {p : Prop} [Decidable p] {e : ε} {x : Except ε β}
    (h : (if p then .error e else x) = .ok r) : ¬p ∧ x = .ok r := by
  by_cases hp : p
  · rw [if_pos hp] at h
    cases h
  · rw [if_neg hp] at h
    exact ⟨hp,h⟩

theorem exists_ok {x : Except ε α} {P : α → Prop} {a : α} (h : x = .ok a)
    (hrest : x = .ok a → P a) : ∃ a, x = .ok a ∧ P a :=
  ⟨a,h,hrest h⟩

end Montage.Library
