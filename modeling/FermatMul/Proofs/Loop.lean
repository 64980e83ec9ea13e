namespace FermatMul

variable {σ : Type} {guard : σ → Prop} {body : σ → σ} {n n' : Nat} {s t t' : σ}

/-- A run that ends: the body is applied as long as the guard holds, `n` times in all. -/
inductive Loop (guard : σ → Prop) (body : σ → σ) : Nat → σ → σ → Prop
  | done {s : σ} (h : ¬ guard s) : Loop guard body 0 s s
  | turn {n : Nat} {s t : σ} (h : guard s) (rest : Loop guard body n (body s) t) :
      Loop guard body (n + 1) s t

theorem Loop.unique (h : Loop guard body n s t) (h' : Loop guard body n' s t') :
    n' = n ∧ t' = t := by
  induction h generalizing n' with
  | done hstop =>
      cases h' with
      | done _ => exact ⟨rfl, rfl⟩
      | turn hgo _ => exact absurd hgo hstop
  | turn hgo _ ih =>
      cases h' with
      | done hstop => exact absurd hgo hstop
      | turn _ rest =>
          obtain ⟨hcount, hend⟩ := ih rest
          exact ⟨by rw [hcount], hend⟩

theorem Loop.iff_of_run (h : Loop guard body n s t) :
    Loop guard body n' s t' ↔ n' = n ∧ t' = t := by
  constructor
  · exact h.unique
  · rintro ⟨rfl, rfl⟩
    exact h

end FermatMul
