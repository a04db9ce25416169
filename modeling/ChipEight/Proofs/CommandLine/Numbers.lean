import ChipEight.CommandLine.Number
import ChipEight.Proofs.Text.Numeral

namespace ChipEight.CommandLine

/-!
# Numbers read back

A number may stand on a command line with a plus sign and with any number of zeros before its
digits. Reading it gives the number if it lies in its range and an error otherwise: what is read
is never a part of the number, nor the number less some multiple of the range.
-/

open Numeral

/-- The text stands for a number: its decimal digits, any number of zeros in front of them, and
perhaps a plus sign. -/
inductive Denotes : List Char → Nat → Prop
  | plain {text : List Char} (hne : text ≠ []) (hdigits : ∀ c ∈ text, c ∈ alphabet.take 10) :
      Denotes text (valueOf 10 text)
  | signed {text : List Char} (hne : text ≠ []) (hdigits : ∀ c ∈ text, c ∈ alphabet.take 10) :
      Denotes ('+' :: text) (valueOf 10 text)

/-- A number written with some zeros in front. -/
def written (signed : Bool) (zeros n : Nat) : List Char :=
  (if signed then ['+'] else []) ++ (List.replicate zeros '0' ++ digits 10 n)

theorem denotes_written (signed : Bool) (zeros n : Nat) : Denotes (written signed zeros n) n := by
  have hvalue : valueOf 10 (List.replicate zeros '0' ++ digits 10 n) = n :=
    (valueOf_zeros_append 10 zeros (digits 10 n)).trans (valueOf_digits (by decide) (by decide) n)
  have hne : List.replicate zeros '0' ++ digits 10 n ≠ [] :=
    List.append_ne_nil_of_right_ne_nil _ (digits_ne_nil 10 n)
  have hdigits : ∀ c ∈ List.replicate zeros '0' ++ digits 10 n, c ∈ alphabet.take 10 := by
    intro c hc
    rcases List.mem_append.mp hc with hzero | hdigit
    · rw [List.eq_of_mem_replicate hzero]
      decide
    · exact mem_digits (by decide) (by decide) n c hdigit
  cases signed with
  | true =>
      have hsigned := Denotes.signed hne hdigits
      rwa [hvalue] at hsigned
  | false =>
      have hplain := Denotes.plain hne hdigits
      rwa [hvalue] at hplain

/-- The number that `value` becomes when the digits of `text` are written behind it. -/
def appended (value : Nat) (text : List Char) : Nat :=
  text.foldl (fun value c => 10 * value + alphabet.idxOf c) value

theorem le_appended (value : Nat) (text : List Char) : value ≤ appended value text := by
  induction text generalizing value with
  | nil => exact Nat.le_refl value
  | cons c rest ih =>
      have hnext := ih (10 * value + alphabet.idxOf c)
      exact Nat.le_trans (by omega) hnext

theorem digitValue?_of_mem {c : Char} (h : c ∈ alphabet.take 10) :
    digitValue? c = some (alphabet.idxOf c) := by
  have hall :
      (alphabet.take 10).all (fun c => digitValue? c == some (alphabet.idxOf c)) = true := by
    decide
  exact beq_iff_eq.mp (List.all_eq_true.mp hall c h)

theorem ne_of_mem {c : Char} (h : c ∈ alphabet.take 10) : c ≠ '+' ∧ c ≠ '-' ∧ c ≠ '=' := by
  have hsigns : '+' ∉ alphabet.take 10 ∧ '-' ∉ alphabet.take 10 ∧ '=' ∉ alphabet.take 10 := by
    decide
  exact ⟨fun heq => hsigns.1 (heq ▸ h), fun heq => hsigns.2.1 (heq ▸ h),
    fun heq => hsigns.2.2 (heq ▸ h)⟩

section Digits

variable {limit value : Nat} (beyond : NumberError) {text : List Char}

/-- Reading breaks off as soon as the number so far leaves its range. More digits would not have
brought it back, so it breaks off only on numbers that are too large as a whole. -/
theorem readDigits_eq (hvalue : value ≤ limit) (htext : ∀ c ∈ text, c ∈ alphabet.take 10) :
    readDigits limit beyond value text =
      if appended value text ≤ limit then .ok (appended value text) else .error beyond := by
  induction text generalizing value with
  | nil => exact (if_pos hvalue).symm
  | cons c rest ih =>
      obtain ⟨hc, hrest⟩ := List.forall_mem_cons.mp htext
      have hcons : appended value (c :: rest) =
        appended (10 * value + alphabet.idxOf c) rest := rfl
      have hge := le_appended (10 * value + alphabet.idxOf c) rest
      simp only [readDigits, digitValue?_of_mem hc, hcons]
      split
      · next hbeyond => rw [if_neg (by omega)]
      · next hwithin => exact ih (by omega) hrest

end Digits

theorem readNumeral_eq (limit : Nat) (beyond : NumberError) {text : List Char} (hne : text ≠ [])
    (hdigits : ∀ c ∈ text, c ∈ alphabet.take 10) :
    readNumeral limit beyond text =
      if valueOf 10 text ≤ limit then .ok (valueOf 10 text) else .error beyond := by
  have hread := readDigits_eq beyond (Nat.zero_le limit) hdigits
  cases text with
  | nil => contradiction
  | cons c rest => exact hread

namespace Denotes

variable {text : List Char} {n : Nat}

/-- A number cannot be taken for an option, nor for what stands behind an equals sign. -/
theorem exists_cons (h : Denotes text n) : ∃ c cs, text = c :: cs ∧ c ≠ '-' ∧ c ≠ '=' := by
  cases h with
  | plain hne hdigits =>
      obtain ⟨c, cs, rfl⟩ := List.exists_cons_of_ne_nil hne
      exact ⟨c, cs, rfl, (ne_of_mem (hdigits c List.mem_cons_self)).2⟩
  | signed => exact ⟨'+', _, rfl, by decide, by decide⟩

theorem readSigned_eq (h : Denotes text n) :
    readSigned text = if n ≤ maxSigned then .ok (.ofNat n) else .error .tooLarge := by
  have hmap : ∀ digits, digits ≠ [] → (∀ c ∈ digits, c ∈ alphabet.take 10) →
      (readNumeral maxSigned .tooLarge digits).map Int.ofNat =
        if valueOf 10 digits ≤ maxSigned then .ok (.ofNat (valueOf 10 digits))
        else .error .tooLarge := by
    intro digits hne hdigits
    rw [readNumeral_eq maxSigned .tooLarge hne hdigits]
    split <;> rfl
  cases h with
  | plain hne hdigits =>
      rw [← hmap text hne hdigits]
      unfold readSigned
      split
      · contradiction
      · exact absurd rfl (ne_of_mem (hdigits _ List.mem_cons_self)).2.1
      · exact absurd rfl (ne_of_mem (hdigits _ List.mem_cons_self)).1
      · rfl
  | signed hne hdigits => exact hmap _ hne hdigits

theorem readUInt64_eq (h : Denotes text n) :
    readUInt64 text = if n < 2 ^ 64 then .ok (.ofNat n) else .error .tooLarge := by
  have hmap : ∀ digits, digits ≠ [] → (∀ c ∈ digits, c ∈ alphabet.take 10) →
      (readNumeral (UInt64.size - 1) .tooLarge digits).map UInt64.ofNat =
        if valueOf 10 digits < 2 ^ 64 then .ok (.ofNat (valueOf 10 digits))
        else .error .tooLarge := by
    intro digits hne hdigits
    have hlimit : valueOf 10 digits ≤ UInt64.size - 1 ↔ valueOf 10 digits < 2 ^ 64 := by
      simp only [UInt64.size]
      omega
    simp only [readNumeral_eq (UInt64.size - 1) .tooLarge hne hdigits, hlimit]
    split <;> rfl
  cases h with
  | plain hne hdigits =>
      rw [← hmap text hne hdigits]
      unfold readUInt64
      split
      · contradiction
      · exact absurd rfl (ne_of_mem (hdigits _ List.mem_cons_self)).1
      · rfl
  | signed hne hdigits => exact hmap _ hne hdigits

/-- A number of 32 bits that is too large is named if it fits into 64 signed bits. -/
theorem readUInt32_eq (h : Denotes text n) :
    readUInt32 text =
      if n < 2 ^ 32 then .ok (.ofNat n)
      else .error (if n ≤ maxSigned then .outside n (2 ^ 32 - 1) else .tooLarge) := by
  rw [readUInt32, h.readSigned_eq]
  by_cases hsigned : n ≤ maxSigned
  · simp only [if_pos hsigned]
    rfl
  · have hlarge : ¬ n < 2 ^ 32 := by
      unfold maxSigned at hsigned
      omega
    simp only [if_neg hsigned, if_neg hlarge]

end Denotes

end ChipEight.CommandLine
