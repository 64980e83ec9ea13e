import Mathlib.Data.List.DropRight
import FermatMul.Text.Blank

namespace FermatMul.Text.Blank

variable {cs core : List Char}

/-- The part of a text between the white space at both of its ends. -/
structure Trimmed (cs core : List Char) : Prop where
  split : ∃ lead trail, cs = lead ++ core ++ trail ∧
    (∀ c ∈ lead, isBlank c = true) ∧ ∀ c ∈ trail, isBlank c = true
  head_eq : ∀ c ∈ core.head?, isBlank c = false
  last_eq : ∀ c ∈ core.getLast?, isBlank c = false

theorem head?_dropWhile (cs : List Char) :
    ∀ c ∈ (cs.dropWhile isBlank).head?, isBlank c = false := by
  intro c hc
  have hhead := List.head?_dropWhile_not isBlank cs
  rw [Option.mem_def.mp hc] at hhead
  exact hhead

theorem dropWhile_eq_self (h : ∀ c ∈ cs.head?, isBlank c = false) : cs.dropWhile isBlank = cs := by
  cases cs with
  | nil => rfl
  | cons c cs => rw [List.dropWhile_cons, h c rfl, if_neg Bool.false_ne_true]

theorem trimmed_trim (cs : List Char) : Trimmed cs (trim cs) where
  split := by
    refine ⟨cs.takeWhile isBlank, (cs.dropWhile isBlank).rtakeWhile isBlank, ?_,
      fun _ => List.mem_takeWhile_imp, fun _ => List.mem_rtakeWhile_imp⟩
    change cs = _ ++ (cs.dropWhile isBlank).rdropWhile isBlank ++ _
    rw [List.append_assoc, List.rdropWhile_append_rtakeWhile, List.takeWhile_append_dropWhile]
  head_eq := by
    intro c hc
    obtain ⟨trail, htrail⟩ : trim cs <+: cs.dropWhile isBlank := List.rdropWhile_prefix isBlank _
    apply head?_dropWhile cs
    rw [← htrail, List.head?_append, Option.mem_def.mp hc]
    rfl
  last_eq := by
    intro c hc
    rw [trim, List.getLast?_reverse] at hc
    exact head?_dropWhile _ c hc

/-- Only one part of a text stands between the white space at its ends. -/
theorem Trimmed.eq (h : Trimmed cs core) : trim cs = core := by
  obtain ⟨⟨lead, trail, rfl, hlead, htrail⟩, hhead, hlast⟩ := h
  rw [trim, List.append_assoc, List.dropWhile_append_of_pos hlead]
  cases core with
  | nil =>
      rw [List.nil_append, List.dropWhile_eq_nil_iff.mpr htrail]
      rfl
  | cons c core =>
      have hkept : (c :: core ++ trail).dropWhile isBlank = c :: core ++ trail :=
        dropWhile_eq_self hhead
      rw [hkept, List.reverse_append, List.dropWhile_append_of_pos, dropWhile_eq_self,
        List.reverse_reverse]
      · rwa [List.head?_reverse]
      · intro b hb
        exact htrail b (List.mem_reverse.mp hb)

theorem trim_append {lead trail : List Char} (hlead : ∀ c ∈ lead, isBlank c = true)
    (htrail : ∀ c ∈ trail, isBlank c = true) (hcore : ∀ c ∈ core, isBlank c = false) :
    trim (lead ++ core ++ trail) = core :=
  Trimmed.eq
    { split := ⟨lead, trail, rfl, hlead, htrail⟩
      head_eq := fun c hc => hcore c (List.mem_of_head? hc)
      last_eq := fun c hc => hcore c (List.mem_of_getLast? hc) }

end FermatMul.Text.Blank
