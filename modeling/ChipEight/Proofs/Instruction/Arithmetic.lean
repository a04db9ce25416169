import ChipEight.Instruction.Execute
import ChipEight.Proofs.Instruction.Table

namespace ChipEight

/-!
# Exact arithmetic with a flag

A result and the flag together hold the exact sum, difference or double of bytes, or the
byte that was halved. So an operand can be found again from them, unless the flag was
written over the result.
-/

namespace Combine

/-- How the flag and the result make up for the operands, all taken as numbers. -/
def Balances (a b told r : Nat) : Combine → Prop
  | add => a + b = 256 * told + r
  | subtract => a + 256 * (1 - told) = b + r
  | shiftRight => a = 2 * r + told
  | subtractFrom => b + 256 * (1 - told) = a + r
  | shiftLeft => 2 * a = 256 * told + r
  | copy | or | and | xor => False

theorem balances_of_flag? {f : Combine} {a b : UInt8} {told : Bool} (h : f.flag? a b = some told) :
    f.Balances a.toNat b.toNat told.toNat (f.result a b).toNat := by
  have ha := a.toNat_lt
  have hb := b.toNat_lt
  cases f with
  | copy | or | and | xor => cases h
  | add =>
      cases h
      simp only [Balances, result, UInt8.toNat_add, Bool.toNat, Bool.cond_decide]
      split <;> omega
  | subtract | subtractFrom =>
      cases h
      simp only [Balances, result, UInt8.toNat_sub, UInt8.le_iff_toNat_le, Bool.toNat,
        Bool.cond_decide]
      split <;> omega
  | shiftRight =>
      cases h
      simp only [Balances, result, UInt8.toNat_shiftRight, UInt8.reduceToNat, Nat.reduceMod,
        Nat.shiftRight_eq_div_pow, Bool.toNat, Bool.cond_decide]
      split <;> omega
  | shiftLeft =>
      cases h
      simp only [Balances, result, UInt8.toNat_shiftLeft, UInt8.reduceToNat, Nat.reduceMod,
        Nat.shiftLeft_eq, Bool.toNat, Bool.cond_decide]
      split <;> omega

/-- With the second operand, unless it does not matter, flag and result determine the first. -/
theorem Balances.eq_of_eq {f : Combine} {a b a' b' told r : Nat} (h : f.Balances a b told r)
    (h' : f.Balances a' b' told r) (hb : f = shiftRight ∨ f = shiftLeft ∨ b = b') : a = a' := by
  cases f with
  | copy | or | and | xor => exact h.elim
  | shiftRight | shiftLeft =>
      simp only [Balances] at h h'
      omega
  | add | subtract | subtractFrom =>
      simp only [Balances] at h h'
      simp only [reduceCtorEq, false_or] at hb
      omega

/-- The balances by the last digit of the word. -/
theorem Balances.equations {f : Combine} {a b told r : Nat} (h : f.Balances a b told r) :
    (f.digit = 0x4 → a + b = 256 * told + r) ∧
    (f.digit = 0x5 → a + 256 * (1 - told) = b + r) ∧
    (f.digit = 0x7 → b + 256 * (1 - told) = a + r) ∧
    (f.digit = 0x6 → a = 2 * r + told) ∧
    (f.digit = 0xE → 2 * a = 256 * told + r) := by
  cases f with
  | copy | or | and | xor => exact h.elim
  | _ => simpa [digit, Balances] using h

theorem isShift_of_digit {f : Combine} (h : f.digit = 0x6 ∨ f.digit = 0xE) :
    f = shiftRight ∨ f = shiftLeft := by
  revert h
  cases f <;> decide

end Combine

namespace Word

theorem IsArithmetic.exists_combine {w : Word} (h : w.IsArithmetic) :
    ∃ f : Combine, Instruction.ofWord? w = some (.combine f w.x w.y) ∧ w.n.val = f.digit ∧
      ∀ a b, (f.flag? a b).isSome := by
  obtain ⟨hg, hn⟩ := h
  simp only [List.mem_cons, List.not_mem_nil, or_false] at hn
  rcases hn with hn | hn | hn | hn | hn
  · exact ⟨.add, Instruction.ofWord?_of_encodes ⟨hg, hn, rfl, rfl⟩, hn, fun _ _ => rfl⟩
  · exact ⟨.subtract, Instruction.ofWord?_of_encodes ⟨hg, hn, rfl, rfl⟩, hn, fun _ _ => rfl⟩
  · exact ⟨.shiftRight, Instruction.ofWord?_of_encodes ⟨hg, hn, rfl, rfl⟩, hn, fun _ _ => rfl⟩
  · exact ⟨.subtractFrom, Instruction.ofWord?_of_encodes ⟨hg, hn, rfl, rfl⟩, hn, fun _ _ => rfl⟩
  · exact ⟨.shiftLeft, Instruction.ofWord?_of_encodes ⟨hg, hn, rfl, rfl⟩, hn, fun _ _ => rfl⟩

end Word

namespace State

section Combine

variable {f : Combine} {s : State} {x y : Reg} {told : Bool}

/-- The flag is written last, so it wins if both go to the flag register. -/
theorem reg_combine (h : f.flag? (s.reg x) (s.reg y) = some told) (k : Reg) :
    (s.combine f x y).reg k =
      if k = flag then told.toUInt8
      else if k = x then f.result (s.reg x) (s.reg y) else s.reg k := by
  simp only [combine, h, reg_setReg, eq_comm]

theorem toNat_flag_combine (h : f.flag? (s.reg x) (s.reg y) = some told) :
    ((s.combine f x y).reg flag).toNat = told.toNat := by
  rw [reg_combine h, if_pos rfl]
  cases told <;> rfl

theorem reg_combine_self (h : f.flag? (s.reg x) (s.reg y) = some told) (hx : x ≠ flag) :
    (s.combine f x y).reg x = f.result (s.reg x) (s.reg y) := by
  rw [reg_combine h, if_neg hx, if_pos rfl]

theorem reg_combine_of_ne (h : f.flag? (s.reg x) (s.reg y) = some told) {k : Reg} (hx : k ≠ x)
    (hf : k ≠ flag) : (s.combine f x y).reg k = s.reg k := by
  rw [reg_combine h, if_neg hf, if_neg hx]

/-- Where the flag is not written over the result, the first operand is found again. -/
theorem reg_eq_of_combine {s' : State} {told' : Bool}
    (h : f.flag? (s.reg x) (s.reg y) = some told) (h' : f.flag? (s'.reg x) (s'.reg y) = some told')
    (hx : x ≠ flag) (hflag : (s.combine f x y).reg flag = (s'.combine f x y).reg flag)
    (hresult : (s.combine f x y).reg x = (s'.combine f x y).reg x)
    (hy : f = .shiftRight ∨ f = .shiftLeft ∨ s.reg y = s'.reg y) : s.reg x = s'.reg x := by
  have htold : told.toNat = told'.toNat := by
    rw [← toNat_flag_combine h, hflag, toNat_flag_combine h']
  rw [reg_combine_self h hx, reg_combine_self h' hx] at hresult
  have hbalance := Combine.balances_of_flag? h
  rw [htold, hresult] at hbalance
  exact UInt8.toNat_inj.mp (hbalance.eq_of_eq (Combine.balances_of_flag? h')
    (hy.imp_right (Or.imp_right (congrArg UInt8.toNat))))

end Combine

end State

/-- The sum, difference, half or double of registers is exact if the flag register is counted in,
which the flag always goes to. The other registers keep their values, and the shifts do not look at
the second operand. Unless the flag is written over the result, flag and result determine what the
first register held, together with the second register where that matters and still is as it was. -/
theorem arithmetic_exact_with_flag {w : Word} (hw : w.IsArithmetic) :
    (∀ keys random (s : State), ∃ i e,
      Instruction.ofWord? w = some i ∧ i.execute keys random s = .ok e ∧
      let a := (s.reg w.x).toNat
      let b := (s.reg w.y).toNat
      let f := (e.state.reg flag).toNat
      (∃ r < 256, f ≤ 1 ∧ (w.x ≠ flag → (e.state.reg w.x).toNat = r) ∧
        (w.n.val = 0x4 → a + b = 256 * f + r) ∧
        (w.n.val = 0x5 → a + 256 * (1 - f) = b + r) ∧
        (w.n.val = 0x7 → b + 256 * (1 - f) = a + r) ∧
        (w.n.val = 0x6 → a = 2 * r + f) ∧
        (w.n.val = 0xE → 2 * a = 256 * f + r)) ∧
      (∀ k, k ≠ w.x → k ≠ flag → e.state.reg k = s.reg k) ∧
      (w.n.val = 0x6 ∨ w.n.val = 0xE → ∀ v : Word, v.group = w.group → v.n = w.n → v.x = w.x →
        ∃ j, Instruction.ofWord? v = some j ∧ j.execute keys random s = .ok e)) ∧
    (w.x ≠ flag → ∀ i keys keys' random random' (s s' : State) e e',
      Instruction.ofWord? w = some i →
      i.execute keys random s = .ok e → i.execute keys' random' s' = .ok e' →
      e.state.reg flag = e'.state.reg flag → e.state.reg w.x = e'.state.reg w.x →
      (w.n.val = 0x6 ∨ w.n.val = 0xE → s.reg w.x = s'.reg w.x) ∧
      (w.n.val = 0x4 ∨ w.n.val = 0x5 ∨ w.n.val = 0x7 → w.y ≠ w.x → w.y ≠ flag →
        e.state.reg w.y = e'.state.reg w.y → s.reg w.x = s'.reg w.x)) := by
  obtain ⟨f, hf, hdigit, htold⟩ := hw.exists_combine
  refine ⟨?_, ?_⟩
  · intro keys random s
    obtain ⟨told, ht⟩ := Option.isSome_iff_exists.mp (htold (s.reg w.x) (s.reg w.y))
    refine ⟨_, _, hf, rfl, ⟨(f.result (s.reg w.x) (s.reg w.y)).toNat, UInt8.toNat_lt _, ?_⟩, ?_, ?_⟩
    · rw [State.toNat_flag_combine ht, hdigit]
      exact ⟨told.toNat_le, fun hx => congrArg UInt8.toNat (State.reg_combine_self ht hx),
        (Combine.balances_of_flag? ht).equations⟩
    · intro k hx hk
      exact State.reg_combine_of_ne ht hx hk
    · intro hn v hgroup hv hx
      refine ⟨.combine f v.x v.y, Instruction.ofWord?_of_encodes
        ⟨hgroup ▸ hw.1, hv ▸ hdigit, rfl, rfl⟩, ?_⟩
      rw [hdigit] at hn
      rcases Combine.isShift_of_digit hn with rfl | rfl <;> rw [hx] <;> rfl
  · intro hx i keys keys' random random' s s' e e' hi he he' hflag hresult
    obtain rfl : i = .combine f w.x w.y := Option.some.inj (hi.symm.trans hf)
    obtain rfl := Except.ok.inj he
    obtain rfl := Except.ok.inj he'
    obtain ⟨told, ht⟩ := Option.isSome_iff_exists.mp (htold (s.reg w.x) (s.reg w.y))
    obtain ⟨told', ht'⟩ := Option.isSome_iff_exists.mp (htold (s'.reg w.x) (s'.reg w.y))
    have hfound := State.reg_eq_of_combine ht ht' hx hflag hresult
    rw [hdigit]
    refine ⟨?_, ?_⟩
    · intro hn
      exact hfound ((Combine.isShift_of_digit hn).imp_right Or.inl)
    · intro _ hy hyflag hsecond
      rw [State.reg_combine_of_ne ht hy hyflag, State.reg_combine_of_ne ht' hy hyflag] at hsecond
      exact hfound (Or.inr (Or.inr hsecond))

/-- Five less seven, in the flag register against the second register: the borrow is all that is
left of the result. With the difference in register 1 the five is found again. -/
theorem arithmetic_exact_with_flag_of_borrow :
    let keys := Keypad.free
    let random : Generator := ⟨Vector.replicate 8 0, 0⟩
    let s := ((State.powerOn.setReg flag 5).setReg 1 5).setReg 2 7
    let w : Word := 0x8F25
    let v : Word := 0x8125
    w.IsArithmetic ∧ v.IsArithmetic ∧ v.x ≠ flag ∧
      (∃ i e, Instruction.ofWord? w = some i ∧ i.execute keys random s = .ok e ∧
        e.state.reg flag = 0 ∧ e.state.reg 1 = 5 ∧ e.state.reg 2 = 7) ∧
      ∀ i s' e e', Instruction.ofWord? v = some i → i.execute keys random s = .ok e →
        i.execute keys random s' = .ok e' → e.state.registers = e'.state.registers →
        s'.reg 1 = 5 := by
  intro keys random s w v
  have hw : w.IsArithmetic := by decide
  have hv : v.IsArithmetic := by decide
  have hx : v.x ≠ flag := by decide
  refine ⟨hw, hv, hx, ?_, ?_⟩
  · obtain ⟨i, e, hi, he, ⟨r, hr, hflag, -, -, hdifference, -⟩, hother, -⟩ :=
      (arithmetic_exact_with_flag hw).1 keys random s
    have hfirst : (s.reg w.x).toNat = 5 := by decide
    have hsecond : (s.reg w.y).toNat = 7 := by decide
    have hborrow := hdifference (by decide)
    refine ⟨i, e, hi, he, UInt8.toNat_inj.mp ?_, hother 1 (by decide) (by decide),
      hother 2 (by decide) (by decide)⟩
    rw [UInt8.toNat_zero]
    omega
  · intro i s' e e' hi he he' hsame
    have hregs : ∀ k, e.state.reg k = e'.state.reg k := fun k => congrArg (·.get k) hsame
    have hfive : s.reg v.x = 5 := by decide
    have hfound := ((arithmetic_exact_with_flag hv).2 hx i keys keys random random s s' e e' hi he
      he' (hregs flag) (hregs v.x)).2 (Or.inr (Or.inl (by decide))) (by decide) (by decide)
      (hregs v.y)
    have hone : v.x = 1 := by decide
    rw [← hone, ← hfound, hfive]

end ChipEight
