import Mathlib.Algebra.Order.Group.Nat
import Mathlib.Data.List.Basic
import ChipEight.Text.Numeral

namespace ChipEight.Numeral

/-!
# Reading numerals back

A numeral is read from the left, one digit after the other. What is read from the digits of a
number is that number, however many zeros stand before them; so a numeral of some least width
has one value, and no zeros that the width does not ask for.
-/

/-- The digits of every base, each at the place of its value. -/
def alphabet : List Char :=
  ['0', '1', '2', '3', '4', '5', '6', '7', '8', '9', 'A', 'B', 'C', 'D', 'E', 'F']

/-- The number that digits make, read from the left. -/
def valueOf (base : Nat) (text : List Char) : Nat :=
  text.foldl (fun value c => base * value + alphabet.idxOf c) 0

/-- A text is the numeral of `n`: digits that read back to it, at least `width` of them, and with
a leading zero only if there are no more than that. -/
structure Spells (base width n : Nat) (text : String) : Prop where
  digits : ∀ c ∈ text.toList, c ∈ alphabet.take base
  value : valueOf base text.toList = n
  wide : width ≤ text.toList.length
  tight : width < text.toList.length → text.toList.head? ≠ some '0'

theorem valueOf_append_singleton (base : Nat) (text : List Char) (c : Char) :
    valueOf base (text ++ [c]) = base * valueOf base text + alphabet.idxOf c := by
  simp [valueOf]

theorem valueOf_zeros_append (base count : Nat) (text : List Char) :
    valueOf base (List.replicate count '0' ++ text) = valueOf base text := by
  induction count with
  | zero => rfl
  | succ count ih => exact ih

section Digit

variable {base d : Nat}

theorem getElem?_alphabet (h : d < 16) : alphabet[d]? = some (digitChar d) := by
  revert d
  decide

theorem idxOf_digitChar (h : d < 16) : alphabet.idxOf (digitChar d) = d := by
  revert d
  decide

theorem digitChar_mem (hd : d < base) (hbase : base ≤ 16) : digitChar d ∈ alphabet.take base := by
  have hget : (alphabet.take base)[d]? = some (digitChar d) := by
    rw [List.getElem?_take_of_lt hd, getElem?_alphabet (Nat.lt_of_lt_of_le hd hbase)]
  exact List.mem_of_getElem? hget

theorem digitChar_ne_zero (hpos : 0 < d) (hd : d < 16) : digitChar d ≠ '0' := by
  intro h
  have hidx := idxOf_digitChar hd
  rw [h] at hidx
  exact Nat.ne_of_lt hpos hidx

end Digit

theorem digits_ne_nil (base n : Nat) : digits base n ≠ [] := by
  rw [digits]
  split <;> simp

section Digits

variable {base : Nat} (hbase : 1 < base)
include hbase

theorem length_digits_le_iff (n k : Nat) :
    (digits base n).length ≤ k + 1 ↔ n < base ^ (k + 1) := by
  induction k generalizing n with
  | zero =>
      rcases Nat.lt_or_ge n base with hlt | hge
      · simp [digits_of_lt hlt, hlt]
      · have hhead := List.length_pos_iff.mpr (digits_ne_nil base (n / base))
        rw [digits_of_le hbase hge, List.length_append, List.length_singleton, Nat.zero_add,
          pow_one]
        omega
  | succ k ih =>
      rcases Nat.lt_or_ge n base with hlt | hge
      · have hpow : base ≤ base ^ (k + 1 + 1) := Nat.le_self_pow (by omega) base
        simp [digits_of_lt hlt, Nat.lt_of_lt_of_le hlt hpow]
      · rw [digits_of_le hbase hge, List.length_append, List.length_singleton,
          Nat.add_le_add_iff_right, ih, Nat.div_lt_iff_lt_mul (by omega), ← pow_succ]

variable (hle : base ≤ 16)
include hle

theorem mem_digits (n : Nat) : ∀ c ∈ digits base n, c ∈ alphabet.take base := by
  induction n using Nat.strongRecOn with
  | ind n ih =>
      intro c hc
      rcases Nat.lt_or_ge n base with hlt | hge
      · rw [digits_of_lt hlt, List.mem_singleton] at hc
        exact hc ▸ digitChar_mem hlt hle
      · rw [digits_of_le hbase hge, List.mem_append, List.mem_singleton] at hc
        rcases hc with hc | rfl
        · exact ih (n / base) (Nat.div_lt_self (by omega) hbase) c hc
        · exact digitChar_mem (Nat.mod_lt n (by omega)) hle

theorem valueOf_digits (n : Nat) : valueOf base (digits base n) = n := by
  induction n using Nat.strongRecOn with
  | ind n ih =>
      rcases Nat.lt_or_ge n base with hlt | hge
      · rw [digits_of_lt hlt]
        simpa [valueOf] using idxOf_digitChar (Nat.lt_of_lt_of_le hlt hle)
      · have hlast : n % base < 16 := Nat.lt_of_lt_of_le (Nat.mod_lt n (by omega)) hle
        rw [digits_of_le hbase hge, valueOf_append_singleton,
          ih (n / base) (Nat.div_lt_self (by omega) hbase), idxOf_digitChar hlast,
          Nat.div_add_mod]

theorem head?_digits_ne_zero {n : Nat} (hpos : 0 < n) : (digits base n).head? ≠ some '0' := by
  induction n using Nat.strongRecOn with
  | ind n ih =>
      rcases Nat.lt_or_ge n base with hlt | hge
      · rw [digits_of_lt hlt, List.head?_cons]
        intro h
        exact digitChar_ne_zero hpos (Nat.lt_of_lt_of_le hlt hle) (Option.some.inj h)
      · rw [digits_of_le hbase hge, List.head?_append_of_ne_nil _ (digits_ne_nil _ _)]
        exact ih (n / base) (Nat.div_lt_self (by omega) hbase) (Nat.div_pos hge (by omega))

end Digits

theorem length_padded (base width n : Nat) :
    (padded base width n).length = max width (digits base n).length := by
  rw [padded, List.length_append, List.length_replicate]
  omega

theorem spells_padded {base width : Nat} (hbase : 1 < base) (hle : base ≤ 16) (hwidth : 0 < width)
    (n : Nat) : Spells base width n (String.ofList (padded base width n)) := by
  constructor <;> rw [String.toList_ofList]
  · intro c hc
    rw [padded, List.mem_append] at hc
    rcases hc with hzero | hc
    · obtain rfl := List.eq_of_mem_replicate hzero
      exact digitChar_mem (d := 0) (by omega) hle
    · exact mem_digits hbase hle n c hc
  · rw [padded, valueOf_zeros_append, valueOf_digits hbase hle]
  · rw [length_padded]
    omega
  · intro hlong
    -- A text wider than asked for is not padded, and only the digits of zero begin with a zero.
    have hfull : width < (digits base n).length := by
      rw [length_padded] at hlong
      omega
    rw [padded_of_le hfull.le]
    apply head?_digits_ne_zero hbase hle
    by_contra hzero
    have hone := (length_digits_le_iff hbase n 0).mpr (by rw [pow_one]; omega)
    omega

theorem spells_hex {width : Nat} (hwidth : 0 < width) (n : Nat) :
    Spells 16 width n (hex width n) :=
  spells_padded (by decide) (by decide) hwidth n

theorem exists_cons_hex {width : Nat} (hwidth : 0 < width) (n : Nat) :
    ∃ c cs, (hex width n).toList = c :: cs ∧ c ∈ alphabet := by
  have hspells := spells_hex hwidth n
  obtain ⟨c, cs, hcons⟩ := List.exists_cons_of_length_pos (hwidth.trans_le hspells.wide)
  have hmem : c ∈ (hex width n).toList := hcons ▸ List.mem_cons_self
  exact ⟨c, cs, hcons, List.mem_of_mem_take (hspells.digits c hmem)⟩

/-- A number that fits is written with as many digits as are asked for. -/
theorem length_hex_of_lt {width n : Nat} (h : n < 16 ^ (width + 1)) :
    (hex (width + 1) n).length = width + 1 := by
  have hfit := (length_digits_le_iff (by decide) n width).mpr h
  rw [← String.length_toList, toList_hex, length_padded]
  omega

theorem spells_decimal (n : Nat) : Spells 10 1 n (decimal n) := by
  have hpos := List.length_pos_iff.mpr (digits_ne_nil 10 n)
  rw [decimal, ← padded_of_le hpos]
  exact spells_padded (by decide) (by decide) Nat.one_pos n

section Read

variable {base width n m : Nat} {s t : String}

theorem Spells.eq_of_eq (hs : Spells base width n s) (ht : Spells base width m s) : n = m :=
  hs.value.symm.trans ht.value

/-- Two texts are cut at the same place where each has its first `c`. -/
theorem eq_of_append_cons_eq {c : Char} {front front' back back' : List Char} (h : c ∉ front)
    (h' : c ∉ front') (heq : front ++ c :: back = front' ++ c :: back') :
    front = front' ∧ back = back' := by
  rcases List.append_eq_append_iff.mp heq with ⟨between, rfl, hback⟩ | ⟨between, rfl, hback⟩
  all_goals cases between with
  | nil => simp_all
  | cons d between =>
      obtain ⟨rfl, -⟩ := List.cons.inj hback
      simp_all

/-- A numeral ends where a text stands that does not begin with a digit. -/
theorem Spells.eq_of_append_eq (hs : Spells base width n s) (ht : Spells base width m t)
    {mark rest rest' : String} (hmark : ∃ c cs, mark.toList = c :: cs ∧ c ∉ alphabet)
    (h : s ++ (mark ++ rest) = t ++ (mark ++ rest')) : n = m ∧ rest = rest' := by
  obtain ⟨c, cs, hcons, hc⟩ := hmark
  have hs' : c ∉ s.toList := fun hmem => hc (List.mem_of_mem_take (hs.digits c hmem))
  have ht' : c ∉ t.toList := fun hmem => hc (List.mem_of_mem_take (ht.digits c hmem))
  have hlists : s.toList ++ c :: (cs ++ rest.toList) = t.toList ++ c :: (cs ++ rest'.toList) := by
    simpa [hcons] using congrArg String.toList h
  obtain ⟨heq, hback⟩ := eq_of_append_cons_eq hs' ht' hlists
  obtain rfl := String.toList_inj.mp heq
  exact ⟨hs.eq_of_eq ht, String.toList_inj.mp (List.append_cancel_left hback)⟩

end Read

section Append

variable {width n m : Nat} {mark rest rest' : String}

theorem hex_inj (hwidth : 0 < width) (h : hex width n = hex width m) : n = m :=
  (spells_hex hwidth n).eq_of_eq (h ▸ spells_hex hwidth m)

theorem decimal_inj (h : decimal n = decimal m) : n = m :=
  (spells_decimal n).eq_of_eq (h ▸ spells_decimal m)

theorem hex_append_inj (hwidth : 0 < width) (hmark : ∃ c cs, mark.toList = c :: cs ∧ c ∉ alphabet)
    (h : hex width n ++ (mark ++ rest) = hex width m ++ (mark ++ rest')) : n = m ∧ rest = rest' :=
  (spells_hex hwidth n).eq_of_append_eq (spells_hex hwidth m) hmark h

theorem decimal_append_inj (hmark : ∃ c cs, mark.toList = c :: cs ∧ c ∉ alphabet)
    (h : decimal n ++ (mark ++ rest) = decimal m ++ (mark ++ rest')) : n = m ∧ rest = rest' :=
  (spells_decimal n).eq_of_append_eq (spells_decimal m) hmark h

end Append

end ChipEight.Numeral
