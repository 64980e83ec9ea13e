import Mathlib.Data.List.Forall2
import Mathlib.Data.Nat.Digits.Defs
import FermatMul.Proofs.Text.Decimal

namespace FermatMul.Text.Digits

variable {r : Radix} {c : Char} {cs : List Char} {d n : Nat}

/-- A character that stands for a digit of the base. -/
def IsDigit (r : Radix) (c : Char) (d : Nat) : Prop :=
  d < r.base ∧ (c = Nat.digitChar d ∨ c = (Nat.digitChar d).toUpper)

/-- Digits of the base, most significant first, and the number that they denote. -/
def Denotes (r : Radix) (cs : List Char) (n : Nat) : Prop :=
  ∃ ds, ds ≠ [] ∧ List.Forall₂ (IsDigit r) cs ds ∧ n = Nat.ofDigits r.base ds.reverse

/-- What holds of all characters below a bound is checked one code point after the other. -/
theorem forall_char {P : Char → Prop} {bound : Nat} (h : ∀ k < bound, P (Char.ofNat k))
    (hc : c.toNat < bound) : P c := by
  rw [← Char.ofNat_toNat c]
  exact h c.toNat hc

theorem lt_of_value? (h : value? r c = some d) : c.toNat < 103 ∧ d < r.base := by
  simp only [value?] at h
  grind

theorem value?_digitChar (r : Radix) : ∀ d < r.base,
    value? r (Nat.digitChar d) = some d ∧ value? r (Nat.digitChar d).toUpper = some d := by
  cases r <;> decide

theorem eq_digitChar_of_value? (r : Radix) (hc : c.toNat < 103) :
    ∀ d < r.base, value? r c = some d → c = Nat.digitChar d ∨ c = (Nat.digitChar d).toUpper := by
  refine forall_char (P := fun c => ∀ d < r.base, value? r c = some d →
    c = Nat.digitChar d ∨ c = (Nat.digitChar d).toUpper) ?_ hc
  cases r <;> decide +kernel

theorem value?_eq_some_iff : value? r c = some d ↔ IsDigit r c d := by
  constructor
  · intro h
    obtain ⟨hc, hd⟩ := lt_of_value? h
    exact ⟨hd, eq_digitChar_of_value? r hc d hd h⟩
  · rintro ⟨hd, rfl | rfl⟩
    · exact (value?_digitChar r d hd).1
    · exact (value?_digitChar r d hd).2

theorem not_isDigit (h : value? r c = none) (d : Nat) : ¬ IsDigit r c d := by
  rw [← value?_eq_some_iff, h]
  exact nofun

theorem IsDigit.ne {c' : Char} (h : IsDigit r c d) (hnone : value? r c' = none) : c ≠ c' := by
  rintro rfl
  exact not_isDigit hnone d h

theorem isDigit_digitChar (h : d < r.base) : IsDigit r (Nat.digitChar d) d :=
  ⟨h, .inl rfl⟩

theorem toLower_eq_self (h : 91 ≤ c.toNat) : c.toLower = c := by
  apply dif_neg
  rintro ⟨_, hcapital⟩
  have hle : c.toNat ≤ 90 := UInt32.le_iff_toNat_le.mp hcapital
  omega

theorem value?_toLower (r : Radix) (c : Char) : value? r c.toLower = value? r c := by
  rcases Nat.lt_or_ge c.toNat 91 with hlow | hhigh
  · refine forall_char (P := fun c => value? r c.toLower = value? r c) ?_ hlow
    cases r <;> decide +kernel
  · rw [toLower_eq_self hhigh]

theorem readOnto_eq_some_iff {m : Nat} :
    readOnto r cs m = some n ↔
      ∃ ds, List.Forall₂ (IsDigit r) cs ds ∧
        n = Nat.ofDigits r.base ds.reverse + r.base ^ ds.length * m := by
  induction cs generalizing m with
  | nil => simp [readOnto, List.forall₂_nil_left_iff, eq_comm]
  | cons c cs ih =>
      have hvalue : ∀ d (ds : List Nat),
          Nat.ofDigits r.base ds.reverse + r.base ^ ds.length * (r.base * m + d) =
            Nat.ofDigits r.base (d :: ds).reverse + r.base ^ (d :: ds).length * m := by
        intro d ds
        rw [Nat.ofDigits_reverse_cons, List.length_cons, Nat.pow_succ]
        ring
      rw [readOnto]
      constructor
      · intro h
        split at h
        case h_1 d hd =>
          obtain ⟨ds, hds, rfl⟩ := ih.mp h
          exact ⟨d :: ds, .cons (value?_eq_some_iff.mp hd) hds, hvalue d ds⟩
        case h_2 => cases h
      · rintro ⟨_, _ | ⟨hd, hds⟩, rfl⟩
        rw [value?_eq_some_iff.mpr hd]
        exact ih.mpr ⟨_, hds, (hvalue _ _).symm⟩

theorem toNat?_eq_some_iff : toNat? r cs = some n ↔ Denotes r cs n := by
  cases cs with
  | nil =>
      refine iff_of_false nofun ?_
      rintro ⟨_, hne, hds, _⟩
      exact hne (List.forall₂_nil_left_iff.mp hds)
  | cons c cs =>
      rw [toNat?, readOnto_eq_some_iff]
      constructor
      · rintro ⟨ds, hds, hn⟩
        refine ⟨ds, ?_, hds, hn⟩
        rintro rfl
        cases hds
      · rintro ⟨ds, _, hds, hn⟩
        exact ⟨ds, hds, hn⟩

theorem toNat?_cons_eq_none (h : value? r c = none) (cs : List Char) :
    toNat? r (c :: cs) = none := by
  rw [toNat?, readOnto, h]

theorem Denotes.concat (h : Denotes r cs n) (hd : IsDigit r c d) :
    Denotes r (cs ++ [c]) (r.base * n + d) := by
  obtain ⟨ds, _, hds, rfl⟩ := h
  refine ⟨ds ++ [d], by simp, List.rel_append hds (.cons hd .nil), ?_⟩
  rw [List.reverse_append, List.reverse_singleton, List.singleton_append, Nat.ofDigits_cons,
    Nat.add_comm]

theorem denotes_ofNat (r : Radix) (n : Nat) : Denotes r (ofNat r n) n := by
  rw [ofNat_eq_toDigits]
  induction n using Nat.strong_induction_on with
  | _ n ih =>
      rcases Nat.lt_or_ge n r.base with hlow | hhigh
      · rw [Nat.toDigits_of_lt_base hlow]
        exact ⟨[n], by simp, .cons (isDigit_digitChar hlow) .nil, by simp⟩
      · have hbase := r.two_le_base
        rw [Nat.toDigits_of_base_le hbase hhigh]
        have hprefix := ih (n / r.base) (Nat.div_lt_self (by omega) hbase)
        have hlast : IsDigit r (Nat.digitChar (n % r.base)) (n % r.base) :=
          isDigit_digitChar (Nat.mod_lt n (by omega))
        have hboth := hprefix.concat hlast
        rwa [Nat.div_add_mod] at hboth

theorem Denotes.isDigit (h : Denotes r cs n) : ∀ c ∈ cs, ∃ d, IsDigit r c d := by
  obtain ⟨ds, _, hds, _⟩ := h
  have hboth : List.Forall₂ (fun c d => (∃ d, IsDigit r c d) ∧ IsDigit r c d) cs ds :=
    hds.imp fun _ d hd => ⟨⟨d, hd⟩, hd⟩
  exact ((List.forall₂_and_left cs ds).mp hboth).1

theorem readOnto_map_toLower (r : Radix) (cs : List Char) (m : Nat) :
    readOnto r (cs.map Char.toLower) m = readOnto r cs m := by
  induction cs generalizing m with
  | nil => rfl
  | cons c cs ih => simp only [List.map_cons, readOnto, value?_toLower, ih]

/-- Capital and small letters are the same digits. -/
theorem toNat?_map_toLower (r : Radix) (cs : List Char) :
    toNat? r (cs.map Char.toLower) = toNat? r cs := by
  cases cs with
  | nil => rfl
  | cons c cs => exact readOnto_map_toLower r (c :: cs) 0

end FermatMul.Text.Digits
