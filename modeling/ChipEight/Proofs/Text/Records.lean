import ChipEight.Log
import ChipEight.Proofs.Text.Messages

namespace ChipEight.Log.Record

/-!
# What the lines of a log tell

The text of a record says all that the record holds. The record of a fetch is made of numerals of
fixed width with marks between them, so it begins with a digit; all others begin with words of
their own, and only the two that report a loaded program have to be told apart at their ends.
-/

open Numeral

/-- A list of bytes with commas between them ends where another mark stands. -/
theorem eq_of_intercalate_append_eq {bytes bytes' : List UInt8} (hne : bytes ≠ [])
    (hlen : bytes.length = bytes'.length) {mark rest rest' : String}
    (hmark : ∃ c cs, mark.toList = c :: cs ∧ c ∉ alphabet)
    (h : String.intercalate ", " (bytes.map fun b => hex 2 b.toNat) ++ (mark ++ rest) =
      String.intercalate ", " (bytes'.map fun b => hex 2 b.toNat) ++ (mark ++ rest')) :
    bytes = bytes' ∧ rest = rest' := by
  induction bytes generalizing bytes' with
  | nil => exact absurd rfl hne
  | cons b tail ih =>
      obtain ⟨b', tail', rfl⟩ := List.exists_cons_of_length_eq_add_one hlen.symm
      have hlen' : tail.length = tail'.length := Nat.succ.inj hlen
      cases tail with
      | nil =>
          obtain rfl := List.length_eq_zero_iff.mp hlen'.symm
          rw [List.map_singleton, List.map_singleton, String.intercalate_singleton,
            String.intercalate_singleton] at h
          obtain ⟨hb, hrest⟩ := hex_append_inj (by decide) hmark h
          rw [UInt8.toNat_inj.mp hb]
          exact ⟨rfl, hrest⟩
      | cons d tail =>
          obtain ⟨d', tail', rfl⟩ := List.exists_cons_of_length_eq_add_one hlen'.symm
          simp only [List.map_cons, String.intercalate_cons_cons, String.append_assoc] at h ih
          obtain ⟨hb, hrest⟩ := hex_append_inj (by decide) ⟨',', _, rfl, by decide⟩ h
          obtain ⟨htail, hrest'⟩ := ih (List.cons_ne_nil d tail) hlen' hrest
          rw [UInt8.toNat_inj.mp hb, htail]
          exact ⟨rfl, hrest'⟩

theorem eq_of_text_fetched {w w' : Word} {a a' : UInt16} {v v' : Registers} {i i' : UInt16}
    (h : (fetched w a v i).text = (fetched w' a' v' i').text) :
    w = w' ∧ a = a' ∧ v = v' ∧ i = i' := by
  unfold text at h
  simp only [String.append_assoc] at h
  obtain ⟨hw, h⟩ := hex_append_inj (by decide) ⟨' ', _, rfl, by decide⟩ h
  obtain ⟨ha, h⟩ := hex_append_inj (by decide) ⟨' ', _, rfl, by decide⟩ h
  have hne : v.toList ≠ [] := List.ne_nil_of_length_pos (by simp)
  obtain ⟨hv, h⟩ := eq_of_intercalate_append_eq hne (by simp) ⟨']', _, rfl, by decide⟩ h
  exact ⟨UInt16.toNat_inj.mp hw, UInt16.toNat_inj.mp ha, Vector.toList_inj.mp hv,
    UInt16.toNat_inj.mp (hex_inj (by decide) h)⟩

theorem eq_of_text_rejected {w w' : Word} {a a' : UInt16}
    (h : (rejected w a).text = (rejected w' a').text) : w = w' ∧ a = a' := by
  unfold text at h
  simp only [String.append_assoc, String.append_right_inj] at h
  obtain ⟨hw, h⟩ := hex_append_inj (by decide) ⟨' ', _, rfl, by decide⟩ h
  exact ⟨UInt16.toNat_inj.mp hw, UInt16.toNat_inj.mp (hex_inj (by decide) h)⟩

/-- A path may hold anything, so the text is read from its end: the size is what follows the last
parenthesis that opens. -/
theorem eq_of_text_opened {path path' : String} {size size' : Nat}
    (h : (opened path size).text = (opened path' size').text) : path = path' ∧ size = size' := by
  have hback : (decimal size).toList.reverse ++ '(' :: ("loaded " ++ path ++ " ").toList.reverse =
      (decimal size').toList.reverse ++ '(' :: ("loaded " ++ path' ++ " ").toList.reverse := by
    unfold text at h
    simpa using congrArg (fun t => t.toList.reverse) h
  have hdigits : ∀ n, '(' ∉ (decimal n).toList.reverse := by
    intro n hmem
    have hdigit := (spells_decimal n).digits '(' (List.mem_reverse.mp hmem)
    revert hdigit
    decide
  obtain ⟨hsize, hpath⟩ := eq_of_append_cons_eq (hdigits size) (hdigits size') hback
  rw [List.reverse_inj, String.toList_inj] at hsize hpath
  exact ⟨by simpa [String.append_assoc] using hpath, decimal_inj hsize⟩

/-- All records but those of fetches begin with a small letter. -/
theorem exists_cons_text {r : Record} (h : ∀ w a v i, r ≠ fetched w a v i) :
    ∃ c cs, r.text.toList = c :: cs ∧ c ∉ alphabet := by
  unfold text
  cases r with
  | fetched w a v i => exact absurd rfl (h w a v i)
  | _ =>
      simp only [String.toList_append]
      exact ⟨_, _, rfl, by decide⟩

theorem text_fetched_ne (w : Word) (a : UInt16) (v : Registers) (i : UInt16) {r : Record}
    (h : ∀ w' a' v' i', r ≠ fetched w' a' v' i') : (fetched w a v i).text ≠ r.text := by
  intro heq
  obtain ⟨c, cs, hcons, hc⟩ := exists_cons_text h
  have hfour : 0 < 4 := by decide
  obtain ⟨d, ds, hhex, hd⟩ := exists_cons_hex hfour w.toNat
  have hhead : (fetched w a v i).text.toList.head? = some d := by
    unfold text
    simp only [String.append_assoc]
    rw [String.toList_append, hhex, List.cons_append, List.head?_cons]
  rw [heq, hcons, List.head?_cons] at hhead
  exact hc (Option.some.inj hhead ▸ hd)

/-- The two records of a loaded program end differently. -/
theorem text_loaded_ne_opened (size size' : Nat) (path : String) :
    (loaded size).text ≠ (opened path size').text := by
  intro h
  unfold text at h
  simpa using congrArg (fun t => t.toList.reverse) h

theorem eq_fetched_of_text {w : Word} {a : UInt16} {v : Registers} {i : UInt16} {r : Record}
    (h : r.text = (fetched w a v i).text) : r = fetched w a v i := by
  cases r with
  | fetched w' a' v' i' =>
      obtain ⟨rfl, rfl, rfl, rfl⟩ := eq_of_text_fetched h
      rfl
  | _ => exact absurd h.symm (text_fetched_ne w a v i (by simp))

theorem text_injective {r s : Record} (h : r.text = s.text) : r = s := by
  by_cases hfetched : ∃ w a v i, s = fetched w a v i
  · obtain ⟨w, a, v, i, rfl⟩ := hfetched
    exact eq_fetched_of_text h
  have htext := congrArg String.toList h
  unfold text at htext
  cases r with
  | fetched w a v i => exact (eq_fetched_of_text h.symm).symm
  | loaded size =>
      cases s with
      | loaded size' =>
          have hsize : decimal size = decimal size' := by simpa [← String.toList_inj] using htext
          rw [decimal_inj hsize]
      | opened path size' => exact absurd h (text_loaded_ne_opened size size' path)
      | _ => simp at htext hfetched
  | opened path size =>
      cases s with
      | opened path' size' =>
          obtain ⟨rfl, rfl⟩ := eq_of_text_opened h
          rfl
      | loaded size' => exact absurd h.symm (text_loaded_ne_opened size' size path)
      | _ => simp at htext hfetched
  | rejected w a =>
      cases s with
      | rejected w' a' =>
          obtain ⟨rfl, rfl⟩ := eq_of_text_rejected h
          rfl
      | _ => simp at htext hfetched
  | waiting x =>
      cases s with
      | waiting x' =>
          have hx : hex 1 x.val = hex 1 x'.val := by simpa [← String.toList_inj] using htext
          rw [Fin.ext (hex_inj (by decide) hx)]
      | _ => simp at htext hfetched
  | notRendered reason =>
      cases s with
      | notRendered reason' =>
          have hreason : reason = reason' := by simpa [← String.toList_inj] using htext
          rw [hreason]
      | _ => simp at htext hfetched
  | halting cause =>
      cases s with
      | halting cause' =>
          have hcause : cause.message = cause'.message := by
            simpa [← String.toList_inj] using htext
          rw [Fault.message_injective hcause]
      | _ => simp at htext hfetched
  | reset => cases s <;> simp at htext hfetched ⊢
  | exiting => cases s <;> simp at htext hfetched ⊢

end ChipEight.Log.Record
