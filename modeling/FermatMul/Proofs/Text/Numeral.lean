import FermatMul.Proofs.Text.Blank
import FermatMul.Proofs.Text.Digits
import FermatMul.Text.Numeral

/-!
The grammar of integers on a command line, and the reader of it: it accepts exactly the grammar,
with the integer that a text denotes. Every integer is read from its decimal text and from its
digits in base sixteen, however the letters are cased and wherever underscores stand.
-/

namespace FermatMul.Text.Numeral

variable {cs : List Char} {n : Nat} {v : Int}

/-- Digits of base ten, or the mark of base sixteen and digits of that base. -/
inductive Unsigned : List Char → Nat → Prop
  | decimal {cs : List Char} {n : Nat} (h : Digits.Denotes .decimal cs n) : Unsigned cs n
  | hexadecimal {mark : Char} {cs : List Char} {n : Nat} (hmark : mark = 'x' ∨ mark = 'X')
      (h : Digits.Denotes .hexadecimal cs n) : Unsigned ('0' :: mark :: cs) n

/-- An unsigned number with at most one sign before it. -/
inductive Denotes : List Char → Int → Prop
  | plain {cs : List Char} {n : Nat} (h : Unsigned cs n) : Denotes cs n
  | plus {cs : List Char} {n : Nat} (h : Unsigned cs n) : Denotes ('+' :: cs) n
  | minus {cs : List Char} {n : Nat} (h : Unsigned cs n) : Denotes ('-' :: cs) (-n)

section Grammar

theorem Unsigned.isDigit_or_mark (h : Unsigned cs n) :
    ∀ c ∈ cs, (∃ d, Digits.IsDigit .hexadecimal c d) ∨ c = 'x' ∨ c = 'X' := by
  intro c hc
  cases h with
  | decimal h =>
      obtain ⟨d, hd, hchar⟩ := h.isDigit c hc
      exact .inl ⟨d, Nat.lt_trans hd (by decide), hchar⟩
  | hexadecimal hmark h =>
      rcases List.mem_cons.mp hc with rfl | hc
      · exact .inl ⟨0, by decide, .inl rfl⟩
      · rcases List.mem_cons.mp hc with rfl | hc
        · exact .inr hmark
        · exact .inl (h.isDigit c hc)

theorem Unsigned.splitSign_eq (h : Unsigned cs n) : splitSign cs = (false, cs) := by
  have hsign : ∀ c ∈ cs, c ≠ '-' ∧ c ≠ '+' := by
    intro c hc
    rcases h.isDigit_or_mark c hc with ⟨d, hd⟩ | rfl | rfl
    · exact ⟨hd.ne rfl, hd.ne rfl⟩
    · decide
    · decide
  unfold splitSign
  split
  · exact absurd rfl (hsign '-' List.mem_cons_self).1
  · exact absurd rfl (hsign '+' List.mem_cons_self).2
  · rfl

theorem splitRadix_eq_of_decimal (h : Digits.Denotes .decimal cs n) :
    splitRadix cs = (.decimal, cs) := by
  have hmark : ∀ c ∈ cs, c ≠ 'x' ∧ c ≠ 'X' := by
    intro c hc
    obtain ⟨d, hd⟩ := h.isDigit c hc
    exact ⟨hd.ne rfl, hd.ne rfl⟩
  unfold splitRadix
  split
  · exact absurd rfl (hmark 'x' (by simp)).1
  · exact absurd rfl (hmark 'X' (by simp)).2
  · rfl

theorem splitSign_suffix (cs : List Char) : (splitSign cs).2 <:+ cs := by
  unfold splitSign
  split
  · exact List.suffix_cons ..
  · exact List.suffix_cons ..
  · exact List.suffix_rfl

theorem splitRadix_suffix (cs : List Char) : (splitRadix cs).2 <:+ cs := by
  unfold splitRadix
  split
  · exact (List.suffix_cons ..).trans (List.suffix_cons ..)
  · exact (List.suffix_cons ..).trans (List.suffix_cons ..)
  · exact List.suffix_rfl

theorem toNat?_splitRadix_eq_some_iff :
    Digits.toNat? (splitRadix cs).1 (splitRadix cs).2 = some n ↔ Unsigned cs n := by
  constructor
  · intro h
    rw [Digits.toNat?_eq_some_iff] at h
    unfold splitRadix at h
    split at h
    · exact .hexadecimal (.inl rfl) h
    · exact .hexadecimal (.inr rfl) h
    · exact .decimal h
  · intro h
    rw [Digits.toNat?_eq_some_iff]
    cases h with
    | decimal h =>
        rw [splitRadix_eq_of_decimal h]
        exact h
    | hexadecimal hmark h =>
        rcases hmark with rfl | rfl
        · exact h
        · exact h

theorem ofChars?_eq (cs : List Char) :
    ofChars? cs =
      (Digits.toNat? (splitRadix (splitSign cs).2).1 (splitRadix (splitSign cs).2).2).map
        fun n : Nat => if (splitSign cs).1 then -(n : Int) else n := by
  rw [ofChars?]
  cases Digits.toNat? (splitRadix (splitSign cs).2).1 (splitRadix (splitSign cs).2).2 <;> rfl

theorem ofChars?_eq_some_iff : ofChars? cs = some v ↔ Denotes cs v := by
  simp only [ofChars?_eq, Option.map_eq_some_iff, toNat?_splitRadix_eq_some_iff]
  constructor
  · rintro ⟨n, h, rfl⟩
    unfold splitSign at h ⊢
    split at h
    · exact .minus h
    · exact .plus h
    · exact .plain h
  · intro h
    cases h with
    | plain h =>
        rw [h.splitSign_eq]
        exact ⟨_, h, rfl⟩
    | plus h => exact ⟨_, h, rfl⟩
    | minus h => exact ⟨_, h, rfl⟩

end Grammar

section Letters

theorem eq_or_eq_toUpper (c : Char) : c = c.toLower ∨ c = c.toLower.toUpper := by
  rcases Nat.lt_or_ge c.toNat 91 with hlow | hhigh
  · refine Digits.forall_char (P := fun c => c = c.toLower ∨ c = c.toLower.toUpper) ?_ hlow
    decide +kernel
  · exact .inl (Digits.toLower_eq_self hhigh).symm

theorem toLower_eq_iff {a : Char} (hupper : a.toUpper = a) (hlower : a.toLower = a) (c : Char) :
    c.toLower = a ↔ c = a := by
  constructor
  · rintro rfl
    rcases eq_or_eq_toUpper c with h | h
    · exact h
    · exact h.trans hupper
  · rintro rfl
    exact hlower

theorem toLower_mark_iff (c : Char) :
    (c.toLower = 'x' ∨ c.toLower = 'X') ↔ (c = 'x' ∨ c = 'X') := by
  constructor
  · intro h
    have hc := eq_or_eq_toUpper c
    rcases h with h | h
    · rw [h] at hc
      exact hc
    · rw [h] at hc
      exact .inr (hc.elim id id)
  · rintro (rfl | rfl)
    · exact .inl rfl
    · exact .inl rfl

theorem splitSign_cons (c : Char) (cs : List Char) :
    splitSign (c :: cs) =
      if c = '-' then (true, cs) else if c = '+' then (false, cs) else (false, c :: cs) := by
  unfold splitSign
  split <;> simp_all

theorem splitRadix_cons_cons (c c' : Char) (cs : List Char) :
    splitRadix (c :: c' :: cs) =
      if c = '0' ∧ (c' = 'x' ∨ c' = 'X') then (.hexadecimal, cs)
      else (.decimal, c :: c' :: cs) := by
  unfold splitRadix
  split <;> simp_all

theorem splitRadix_singleton (c : Char) : splitRadix [c] = (.decimal, [c]) := by
  unfold splitRadix
  split <;> simp_all

theorem splitSign_map_toLower (cs : List Char) :
    splitSign (cs.map Char.toLower) = ((splitSign cs).1, (splitSign cs).2.map Char.toLower) := by
  cases cs with
  | nil => rfl
  | cons c cs =>
      simp only [List.map_cons, splitSign_cons, toLower_eq_iff (a := '-') rfl rfl,
        toLower_eq_iff (a := '+') rfl rfl]
      split_ifs <;> rfl

theorem splitRadix_map_toLower (cs : List Char) :
    splitRadix (cs.map Char.toLower) =
      ((splitRadix cs).1, (splitRadix cs).2.map Char.toLower) := by
  match cs with
  | [] => rfl
  | [c] => rw [List.map_singleton, splitRadix_singleton, splitRadix_singleton, List.map_singleton]
  | c :: c' :: cs =>
      simp only [List.map_cons, splitRadix_cons_cons, toLower_eq_iff (a := '0') rfl rfl,
        toLower_mark_iff]
      split_ifs <;> rfl

/-- The reader does not distinguish capital letters from small ones. -/
theorem ofChars?_map_toLower (cs : List Char) : ofChars? (cs.map Char.toLower) = ofChars? cs := by
  simp only [ofChars?_eq, splitSign_map_toLower, splitRadix_map_toLower, Digits.toNat?_map_toLower]

end Letters

section Forms

/-- The usual text of an integer. -/
def decimalForm (v : Int) : List Char :=
  (toString v).toList

/-- The digits of an integer in base sixteen, with the mark of the base and the sign before it. -/
def hexadecimalForm (v : Int) : List Char :=
  (if v < 0 then ['-'] else []) ++ '0' :: 'x' :: Nat.toDigits 16 v.natAbs

/-- The spellings of an integer in either base: an integer that is not negative may have a plus
sign, letters may be capital or small, and underscores may stand anywhere. -/
def Spells (cs : List Char) (v : Int) : Prop :=
  let bare := (cs.filter (· ≠ '_')).map Char.toLower
  (bare = decimalForm v ∨ bare = hexadecimalForm v) ∨
    0 ≤ v ∧ (bare = '+' :: decimalForm v ∨ bare = '+' :: hexadecimalForm v)

theorem denotes_of_natAbs (h : Unsigned cs v.natAbs) :
    Denotes ((if v < 0 then ['-'] else []) ++ cs) v := by
  split
  case isTrue hneg =>
    have hminus := Denotes.minus h
    rwa [Int.ofNat_natAbs_of_nonpos hneg.le, Int.neg_neg] at hminus
  case isFalse hnonneg =>
    have hplain := Denotes.plain h
    rwa [Int.natAbs_of_nonneg (Int.not_lt.mp hnonneg)] at hplain

theorem denotes_plus_of_natAbs (hv : 0 ≤ v) (h : Unsigned cs v.natAbs) : Denotes ('+' :: cs) v := by
  have hplus := Denotes.plus h
  rwa [Int.natAbs_of_nonneg hv] at hplus

theorem decimalForm_eq (v : Int) :
    decimalForm v = (if v < 0 then ['-'] else []) ++ Digits.ofNat .decimal v.natAbs := by
  rw [decimalForm, ← Digits.decimalText_eq_toString, Digits.decimalText, String.toList_ofList]
  split <;> rfl

theorem unsigned_decimal (n : Nat) : Unsigned (Digits.ofNat .decimal n) n :=
  .decimal (Digits.denotes_ofNat .decimal n)

theorem unsigned_hexadecimal (n : Nat) : Unsigned ('0' :: 'x' :: Nat.toDigits 16 n) n := by
  refine .hexadecimal (.inl rfl) ?_
  have hdigits := Digits.denotes_ofNat .hexadecimal n
  rwa [Digits.ofNat_eq_toDigits] at hdigits

theorem denotes_of_spells (h : Spells cs v) : Denotes (cs.filter (· ≠ '_')) v := by
  rw [← ofChars?_eq_some_iff, ← ofChars?_map_toLower, ofChars?_eq_some_iff]
  rcases h with (h | h) | ⟨hv, h | h⟩
  · rw [h, decimalForm_eq]
    exact denotes_of_natAbs (unsigned_decimal v.natAbs)
  · rw [h]
    exact denotes_of_natAbs (unsigned_hexadecimal v.natAbs)
  · rw [h, decimalForm_eq, if_neg (Int.not_lt.mpr hv)]
    exact denotes_plus_of_natAbs hv (unsigned_decimal v.natAbs)
  · rw [h, hexadecimalForm, if_neg (Int.not_lt.mpr hv)]
    exact denotes_plus_of_natAbs hv (unsigned_hexadecimal v.natAbs)

end Forms

section WhiteSpace

theorem isBlank_eq_false_of_isDigit {c : Char} {d : Nat} (h : Digits.IsDigit .hexadecimal c d) :
    Blank.isBlank c = false := by
  have hvalue := Digits.value?_eq_some_iff.mpr h
  have hchar : (Digits.value? .hexadecimal c).isSome → Blank.isBlank c = false :=
    Digits.forall_char (P := fun c => (Digits.value? .hexadecimal c).isSome →
      Blank.isBlank c = false) (by decide +kernel) (Digits.lt_of_value? hvalue).1
  exact hchar (by rw [hvalue]; rfl)

theorem Unsigned.isBlank_eq_false (h : Unsigned cs n) : ∀ c ∈ cs, Blank.isBlank c = false := by
  intro c hc
  rcases h.isDigit_or_mark c hc with ⟨d, hd⟩ | rfl | rfl
  · exact isBlank_eq_false_of_isDigit hd
  · decide
  · decide

/-- No white space stands within a written integer. -/
theorem Denotes.isBlank_eq_false (h : Denotes cs v) : ∀ c ∈ cs, Blank.isBlank c = false := by
  cases h with
  | plain h => exact h.isBlank_eq_false
  | plus h => exact List.forall_mem_cons.mpr ⟨by decide, h.isBlank_eq_false⟩
  | minus h => exact List.forall_mem_cons.mpr ⟨by decide, h.isBlank_eq_false⟩

theorem parse?_eq_some_iff {text : String} {core : List Char}
    (h : Blank.Trimmed text.toList core) :
    parse? text = some v ↔ Denotes (core.filter (· ≠ '_')) v := by
  rw [parse?, strip, h.eq, ofChars?_eq_some_iff]

theorem Unsigned.ne_underscore (h : Unsigned cs n) : ∀ c ∈ cs, c ≠ '_' := by
  intro c hc
  rcases h.isDigit_or_mark c hc with ⟨d, hd⟩ | rfl | rfl
  · exact hd.ne rfl
  · decide
  · decide

theorem Denotes.ne_underscore (h : Denotes cs v) : ∀ c ∈ cs, c ≠ '_' := by
  cases h with
  | plain h => exact h.ne_underscore
  | plus h => exact List.forall_mem_cons.mpr ⟨by decide, h.ne_underscore⟩
  | minus h => exact List.forall_mem_cons.mpr ⟨by decide, h.ne_underscore⟩

/-- A text of the grammar has nothing around it or in it that would be dropped. -/
theorem parse?_of_denotes {text : String} (h : Denotes text.toList v) : parse? text = some v := by
  have hcore : Blank.Trimmed text.toList text.toList :=
    { split := ⟨[], [], (List.append_nil _).symm, nofun, nofun⟩
      head_eq := fun c hc => h.isBlank_eq_false c (List.mem_of_head? hc)
      last_eq := fun c hc => h.isBlank_eq_false c (List.mem_of_getLast? hc) }
  rw [parse?_eq_some_iff hcore, List.filter_eq_self.mpr]
  · exact h
  · intro c hc
    simpa using h.ne_underscore c hc

/-- A text in which an integer is spelled, with white space before and after it. -/
def Shows (text : String) (v : Int) : Prop :=
  ∃ lead cs trail, text.toList = lead ++ cs ++ trail ∧
    (∀ c ∈ lead, Blank.isBlank c = true) ∧ (∀ c ∈ trail, Blank.isBlank c = true) ∧ Spells cs v

theorem parse?_of_shows {text : String} (h : Shows text v) : parse? text = some v := by
  obtain ⟨lead, cs, trail, htext, hlead, htrail, hspells⟩ := h
  have hdenotes := denotes_of_spells hspells
  have hcore : ∀ c ∈ cs, Blank.isBlank c = false := by
    intro c hc
    by_cases hunderscore : c = '_'
    · rw [hunderscore]
      decide
    · exact hdenotes.isBlank_eq_false c (List.mem_filter.mpr ⟨hc, by simpa using hunderscore⟩)
  rw [parse?, strip, htext, Blank.trim_append hlead htrail hcore, ofChars?_eq_some_iff]
  exact hdenotes

end WhiteSpace

end FermatMul.Text.Numeral
