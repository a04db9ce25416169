import ChipEight.Fault
import ChipEight.Proofs.Text.Numeral

namespace ChipEight.Fault

/-!
# What messages tell

The wording of a fault says which fault it is, and the numerals in it say of what: nothing is
lost between a fault and its message. A word stands in it with four digits, a key with two, and an
address with three or, from `0x1000` on, four.
-/

open Numeral

theorem eq_of_message_invalidInstruction {w v : Word} {a b : UInt16}
    (h : (invalidInstruction w a).message = (invalidInstruction v b).message) :
    w = v ∧ a = b := by
  have hword : hex 4 w.toNat ++ (" at " ++ ("0x" ++ (hex 3 a.toNat ++ " is not valid"))) =
      hex 4 v.toNat ++ (" at " ++ ("0x" ++ (hex 3 b.toNat ++ " is not valid"))) := by
    unfold message at h
    simpa [prefixedHex, String.append_assoc] using h
  -- the space behind the word is where both texts are cut
  obtain ⟨hw, hrest⟩ := hex_append_inj (by decide) ⟨' ', _, rfl, by decide⟩ hword
  have ha : hex 3 a.toNat = hex 3 b.toNat := by simpa using hrest
  exact ⟨UInt16.toNat_inj.mp hw, UInt16.toNat_inj.mp (hex_inj (by decide) ha)⟩

theorem eq_of_message_programTooLarge {size size' room room' : Nat}
    (h : (programTooLarge size room).message = (programTooLarge size' room').message) :
    size = size' ∧ room = room' := by
  have hsize : decimal size ++ (" bytes but only " ++ (decimal room ++ " bytes are available")) =
      decimal size' ++ (" bytes but only " ++ (decimal room' ++ " bytes are available")) := by
    unfold message at h
    simpa [String.append_assoc] using h
  obtain ⟨hs, hrest⟩ := decimal_append_inj ⟨' ', _, rfl, by decide⟩ hsize
  have hr : decimal room = decimal room' := by simpa using hrest
  exact ⟨hs, decimal_inj hr⟩

theorem eq_of_message_invalidKey {code code' : UInt8}
    (h : (invalidKey code).message = (invalidKey code').message) : code = code' := by
  have hcode : hex 2 code.toNat = hex 2 code'.toNat := by
    unfold message at h
    simpa [prefixedHex, String.append_assoc] using h
  exact UInt8.toNat_inj.mp (hex_inj (by decide) hcode)

/-- Each kind of fault has its own first letters, so only faults of one kind can have one
message. -/
theorem message_injective {f g : Fault} (h : f.message = g.message) : f = g := by
  have htext := congrArg String.toList h
  unfold message at htext
  cases f with
  | invalidInstruction w a =>
      cases g with
      | invalidInstruction v b =>
          obtain ⟨rfl, rfl⟩ := eq_of_message_invalidInstruction h
          rfl
      | _ => simp at htext
  | programTooLarge size room =>
      cases g with
      | programTooLarge size' room' =>
          obtain ⟨rfl, rfl⟩ := eq_of_message_programTooLarge h
          rfl
      | _ => simp at htext
  | stackOverflow => cases g <;> simp at htext ⊢
  | stackUnderflow => cases g <;> simp at htext ⊢
  | invalidKey code =>
      cases g with
      | invalidKey code' => rw [eq_of_message_invalidKey h]
      | _ => simp at htext

/-- An address below `0x1000` is filled up to three digits, every other one has four. -/
theorem length_hex_address (address : UInt16) :
    (hex 3 address.toNat).length = if address.toNat < 0x1000 then 3 else 4 := by
  have hlt : address.toNat < 16 ^ (3 + 1) := address.toNat_lt
  split
  · next hsmall => exact length_hex_of_lt hsmall
  · next hlarge =>
      have hbase : 1 < 16 := by decide
      have hfour := (length_digits_le_iff hbase address.toNat 3).mpr hlt
      have hthree := (length_digits_le_iff hbase address.toNat 2).not.mpr hlarge
      rw [← String.length_toList, toList_hex, length_padded]
      omega

/-- A fault can be read off its message: equal messages are messages of one fault, and the word,
the address, the key and the two sizes in them are numerals that read back to what they stand for,
with no zeros but those that fill them up to four, three, two digits and one. -/
theorem messages_tell_faults :
    (∀ f g : Fault, f.message = g.message → f = g) ∧
    (∀ word address, ∃ opcode place,
      (invalidInstruction word address).message =
        "instruction 0x" ++ opcode ++ " at 0x" ++ place ++ " is not valid" ∧
      Spells 16 4 word.toNat opcode ∧ Spells 16 3 address.toNat place ∧ opcode.length = 4 ∧
      place.length = if address.toNat < 0x1000 then 3 else 4) ∧
    (∀ size room, ∃ given most,
      (programTooLarge size room).message =
        "program is " ++ given ++ " bytes but only " ++ most ++ " bytes are available" ∧
      Spells 10 1 size given ∧ Spells 10 1 room most) ∧
    ∀ code, ∃ key, (invalidKey code).message = "key 0x" ++ key ++ " is not on the keypad" ∧
      Spells 16 2 code.toNat key ∧ key.length = 2 := by
  refine ⟨fun f g => message_injective, ?_, ?_, ?_⟩
  · intro word address
    refine ⟨hex 4 word.toNat, hex 3 address.toNat, ?_, spells_hex (by decide) _,
      spells_hex (by decide) _, length_hex_of_lt word.toNat_lt, length_hex_address address⟩
    unfold message
    apply String.toList_inj.mp
    simp [prefixedHex]
  · intro size room
    exact ⟨decimal size, decimal room, rfl, spells_decimal size, spells_decimal room⟩
  · intro code
    refine ⟨hex 2 code.toNat, ?_, spells_hex (by decide) _, length_hex_of_lt code.toNat_lt⟩
    unfold message
    apply String.toList_inj.mp
    simp [prefixedHex]

/-- A word put together from its bytes is named as the word is, and an address above `0x0FFF` with
a fourth digit. -/
theorem messages_tell_faults_of_high_address :
    (invalidInstruction (.ofBytes 0x51 0x21) 0x1204).message =
      (invalidInstruction 0x5121 0x1204).message ∧
    invalidInstruction (.ofBytes 0x51 0x21) 0x1204 = invalidInstruction 0x5121 0x1204 ∧
    ∃ opcode place, (invalidInstruction 0x5121 0x1204).message =
        "instruction 0x" ++ opcode ++ " at 0x" ++ place ++ " is not valid" ∧
      Spells 16 4 0x5121 opcode ∧ Spells 16 3 0x1204 place ∧ place.length = 4 := by
  have heq : (invalidInstruction (.ofBytes 0x51 0x21) 0x1204).message =
      (invalidInstruction 0x5121 0x1204).message := congrArg message (by decide)
  obtain ⟨hinj, hwords, -⟩ := messages_tell_faults
  obtain ⟨opcode, place, htext, hopcode, hplace, -, hlength⟩ := hwords 0x5121 0x1204
  exact ⟨heq, hinj _ _ heq, opcode, place, htext, hopcode, hplace, hlength⟩

end ChipEight.Fault
