namespace FermatMul

/-- A traversal whose steps all succeed. -/
theorem mapM_eq_pure {m : Type → Type} [Monad m] [LawfulMonad m] {α β : Type} {f : α → m β}
    {g : α → β} {as : List α} (h : ∀ a ∈ as, f a = pure (g a)) :
    as.mapM f = pure (as.map g) := by
  induction as with
  | nil => rfl
  | cons a as ih =>
      rw [List.mapM_cons, h a List.mem_cons_self,
        ih fun b hb => h b (List.mem_cons_of_mem a hb), pure_bind, pure_bind, List.map_cons]

theorem map_eq_map_of_key_eq {α β γ : Type} {key : α → β} {f : α → γ} {as as' : List α}
    (hkey : as.map key = as'.map key) (h : ∀ a ∈ as, ∀ a', key a = key a' → f a = f a') :
    as.map f = as'.map f := by
  induction as generalizing as' with
  | nil =>
      rw [List.map_nil, eq_comm, List.map_eq_nil_iff] at hkey
      rw [hkey]
  | cons a as ih =>
      cases as' with
      | nil => simp at hkey
      | cons a' as' =>
          obtain ⟨hhead, htail⟩ := List.cons.inj hkey
          rw [List.map_cons, List.map_cons, h a List.mem_cons_self a' hhead,
            ih htail fun b hb => h b (List.mem_cons_of_mem a hb)]

end FermatMul
