/-!
# Steps that may fail

When a chain of steps has a result, so has each of its steps.
-/

namespace MacroCalls

section Outcome

variable {ε α β : Type} {r : Except ε α} {b : β}

theorem exists_ok_of_map {g : α → β} (h : r.map g = .ok b) : ∃ a, r = .ok a ∧ g a = b := by
  cases r with
  | error e => cases h
  | ok a => exact ⟨a, rfl, Except.ok.inj h⟩

theorem exists_ok_of_bind {g : α → Except ε β} (h : r >>= g = .ok b) :
    ∃ a, r = .ok a ∧ g a = .ok b := by
  cases r with
  | error e => cases h
  | ok a => exact ⟨a, rfl, h⟩

theorem exists_ok_of_mapM_cons {f : α → Except ε β} {a : α} {l : List α} {bs : List β}
    (h : (a :: l).mapM f = .ok bs) :
    ∃ b rest, f a = .ok b ∧ l.mapM f = .ok rest ∧ bs = b :: rest := by
  rw [List.mapM_cons] at h
  obtain ⟨b, hb, h⟩ := exists_ok_of_bind h
  obtain ⟨rest, hrest, h⟩ := exists_ok_of_bind h
  exact ⟨b, rest, hb, hrest, (Except.ok.inj h).symm⟩

/-- Two chains that start with the same step agree if they agree on its result. -/
theorem bind_congr_of_ok {f g : α → Except ε β} (h : ∀ a, r = .ok a → f a = g a) :
    r >>= f = r >>= g := by
  cases r with
  | error e => rfl
  | ok a => exact h a rfl

end Outcome

end MacroCalls
