import Mathlib.Data.Fintype.Basic
import Mathlib.Data.List.Induction
import Mathlib.Tactic.FinCases
import ChipEight.Proofs.Memory.Window
import ChipEight.Proofs.Trapping.Drawing

namespace ChipEight.Trapping

/-!
# No operation traps

Each operation, on a state that is written down in bytes, ends and does what the
instruction of its word does. Sums stay in range because register and address are small
enough, accesses because a digit is below 16, an address is taken modulo the size of
memory and at most 16 return addresses are on the stack.
-/

namespace State

variable (s : ChipEight.State)

/-- Storing bytes one after the other stores their list. -/
theorem storeEach_ofState (bytes : List UInt8) {byte : Nat → Guarded UInt8}
    (h : ∀ k (hk : k < bytes.length), byte k = .ok bytes[k]) :
    (ofState s).storeEach bytes.length byte =
      .ok (ofState { s with memory := s.memory.writeList s.index bytes }) := by
  induction bytes using List.reverseRecOn with
  | nil => rfl
  | append_singleton init b ih =>
      have hinit : ∀ k (hk : k < init.length), byte k = .ok init[k] := by
        intro k hk
        rw [h k (by rw [List.length_append]; omega), List.getElem_append_left hk]
      have hlast : byte init.length = .ok b := by
        rw [h init.length (by simp), List.getElem_concat_length rfl]
      have hwrite := write_ofState { s with memory := s.memory.writeList s.index init }
        (s.index + UInt16.ofNat init.length) b
      have hindex : (ofState s).index = s.index := rfl
      simp only [storeEach, hindex] at ih ⊢
      rw [List.length_append, List.length_singleton, List.range_succ, List.foldlM_append, ih hinit,
        s.memory.writeList_concat]
      simp only [List.foldlM_cons, List.foldlM_nil, hlast, hwrite, ok_bind, pure_eq_ok]

/-- Reading bytes one after the other into the first registers loads those registers. -/
theorem foldlM_update_registers {count : Nat} (hcount : count ≤ 16) :
    (List.range count).foldlM
        (fun v k => do update v k (← (ofState s).read (s.index + UInt16.ofNat k))) s.registers =
      .ok (Vector.ofFn fun k =>
        if k.val < count then s.memory.read (s.index + UInt16.ofNat k.val) else s.reg k) := by
  induction count with
  | zero =>
      simp only [List.range_zero, List.foldlM_nil, pure_eq_ok, Nat.not_lt_zero, if_false]
      refine congrArg Except.ok (Vector.ext fun k hk => ?_)
      rw [Vector.getElem_ofFn]
      rfl
  | succ count ih =>
      rw [List.range_succ, List.foldlM_append, ih (Nat.le_of_succ_le hcount)]
      simp only [ok_bind, List.foldlM_cons, List.foldlM_nil, read_ofState, update_of_lt _ hcount,
        pure_eq_ok]
      refine congrArg Except.ok (Vector.ext fun k hk => ?_)
      simp only [Vector.getElem_set, Vector.getElem_ofFn]
      by_cases hlast : count = k
      · subst hlast
        simp
      · have hlt : k < count + 1 ↔ k < count := by omega
        simp [hlast, hlt]

end State

namespace Operation

/-- On a word, an operation does what an instruction does, without a trap. -/
def Performs (operation : Operation) (w : Word) (i : Instruction) : Prop :=
  ∀ (keys : Keypad) (random : Generator) (s : ChipEight.State),
    operation w ⟨keys, random⟩ (.ofState s) = .ok ((i.execute keys random s).map .ofEffect)

variable (w : Word)

section Families

variable {w}

@[simp] theorem vx_ofState (w : Word) (s : ChipEight.State) : vx w (.ofState s) = .ok (s.reg w.x) :=
  State.register_ofState s (Field.toNat_x w)

@[simp] theorem vy_ofState (w : Word) (s : ChipEight.State) : vy w (.ofState s) = .ok (s.reg w.y) :=
  State.register_ofState s (Field.toNat_y w)

theorem skip_performs {condition : Word → Context → State → Guarded Bool} {c : Condition}
    (h : ∀ keys random s, condition w ⟨keys, random⟩ (.ofState s) = .ok (c.holds keys s)) :
    (skip condition).Performs w (.skipIf c) := by
  intro keys random s
  simp only [skip, h, ok_bind, pure_eq_ok, Instruction.execute, State.advanceIf]
  cases c.holds keys s <;> rfl

theorem assign_ofState {value : Word → State → Guarded UInt8} {s : ChipEight.State} {b : UInt8}
    (h : value w (.ofState s) = .ok b) (c : Context) :
    assign value w c (.ofState s) = .ok (finish c (.ofState (s.setReg w.x b))) := by
  simp only [assign, h, ok_bind, State.setRegister_ofState s (Field.toNat_x w), pure_eq_ok]

theorem assign_performs {value : Word → State → Guarded UInt8} {f : Combine}
    (hflag : ∀ a b, f.flag? a b = none)
    (h : ∀ s : ChipEight.State, value w (.ofState s) = .ok (f.result (s.reg w.x) (s.reg w.y))) :
    (assign value).Performs w (.combine f w.x w.y) := by
  intro keys random s
  rw [assign_ofState (h s), Instruction.execute, State.combine, hflag]
  rfl

theorem assignFlagged_performs {value : Word → State → Guarded (UInt8 × UInt8)} {f : Combine}
    {told : UInt8 → UInt8 → Bool} (hflag : ∀ a b, f.flag? a b = some (told a b))
    (h : ∀ s : ChipEight.State, value w (.ofState s) =
      .ok (f.result (s.reg w.x) (s.reg w.y), (told (s.reg w.x) (s.reg w.y)).toUInt8)) :
    (assignFlagged value).Performs w (.combine f w.x w.y) := by
  intro keys random s
  have hF : (0xF : UInt8).toNat = flag.val := rfl
  simp only [assignFlagged, h, ok_bind, State.setRegister_ofState _ (Field.toNat_x w),
    State.setRegister_ofState _ hF, pure_eq_ok]
  rw [Instruction.execute, State.combine, hflag]
  rfl

end Families

theorem clear_performs : clear.Performs w .clear := by
  intro keys random s
  simp only [clear, finish, Instruction.execute, Except.map, Effect.ofEffect, State.ofState,
    Screen.dark, Pixels.ofGrid_blank]

theorem ret_performs : ret.Performs w .ret := by
  rintro keys random ⟨registers, index, counter, ⟨slots, _ | depth, hle⟩, delay, memory, screen⟩
  case zero => rfl
  case succ =>
    have hdepth := State.toNat_depth hle
    have hne : UInt8.ofNat (depth + 1) ≠ 0 := by
      intro hzero
      rw [hzero] at hdepth
      cases hdepth
    have hpred : UInt8.ofNat (depth + 1) - 1 = UInt8.ofNat depth := by
      rw [UInt8.ofNat_add]
      exact UInt8.add_sub_cancel _ _
    simp only [ret, State.ofState, hne, if_false, hpred, State.toNat_depth (Nat.le_of_lt hle),
      lookup_of_lt slots hle, ok_bind, pure_eq_ok]
    rfl

/-- What keeps a return inside the stack is the depth alone: a greater one would trap. -/
theorem ret_of_depth_gt {s : State} (h : 16 < s.depth.toNat) (c : Context) :
    ret w c s = .error .outOfBounds := by
  have hne : s.depth ≠ 0 := by
    intro hzero
    rw [hzero] at h
    cases h
  have hpred : ¬(s.depth - 1).toNat < 16 := by
    have hle : (1 : UInt8) ≤ s.depth := by
      rw [UInt8.le_iff_toNat_le, UInt8.toNat_one]
      omega
    rw [UInt8.toNat_sub_of_le _ _ hle, UInt8.toNat_one]
    omega
  simp only [ret, hne, if_false, lookup, dif_neg hpred]
  rfl

theorem jump_performs : jump.Performs w (.jump w.nnn) := by
  intro keys random s
  rw [jump, Field.nnn_eq]
  rfl

theorem call_performs : call.Performs w (.call w.nnn) := by
  rintro keys random ⟨registers, index, counter, ⟨slots, depth, hle⟩, delay, memory, screen⟩
  have hdepth := State.toNat_depth hle
  by_cases hroom : depth < 16
  · have hfits : (UInt8.ofNat depth).toNat + (1 : UInt8).toNat < 256 := by
      rw [hdepth]
      exact Nat.lt_of_le_of_lt hroom (by decide)
    have hsucc : add8 (UInt8.ofNat depth) 1 = .ok (UInt8.ofNat (depth + 1)) := by
      rw [add8_of_lt hfits, UInt8.ofNat_add]
      rfl
    simp only [call, State.ofState, hdepth, Nat.not_le.mpr hroom, if_false,
      update_of_lt slots hroom, hsucc, ok_bind, pure_eq_ok, Field.nnn_eq, Instruction.execute,
      CallStack.push?, dif_pos hroom]
    rfl
  · simp only [call, State.ofState, hdepth, Nat.not_lt.mp hroom, if_true, Instruction.execute,
      CallStack.push?, dif_neg hroom]
    rfl

theorem skipEqualsByte_performs : skipEqualsByte.Performs w (.skipIf (.equalsByte w.x w.nn)) :=
  skip_performs fun keys random s => by simp [Condition.holds]

theorem skipDiffersByte_performs : skipDiffersByte.Performs w (.skipIf (.differsByte w.x w.nn)) :=
  skip_performs fun keys random s => by simp [Condition.holds]

theorem skipEqualsReg_performs : skipEqualsReg.Performs w (.skipIf (.equalsReg w.x w.y)) :=
  skip_performs fun keys random s => by simp [Condition.holds]

theorem skipDiffersReg_performs : skipDiffersReg.Performs w (.skipIf (.differsReg w.x w.y)) :=
  skip_performs fun keys random s => by simp [Condition.holds]

theorem skipKeyHeld_performs : skipKeyHeld.Performs w (.skipIf (.keyHeld w.x)) :=
  skip_performs fun keys random s => by simp [Condition.holds]

theorem skipKeyFree_performs : skipKeyFree.Performs w (.skipIf (.keyFree w.x)) :=
  skip_performs fun keys random s => by simp [Condition.holds]

theorem setByte_performs : setByte.Performs w (.setByte w.x w.nn) := by
  intro keys random s
  rw [setByte, assign_ofState rfl, Field.nn_eq]
  rfl

theorem addByte_performs : addByte.Performs w (.addByte w.x w.nn) := by
  intro keys random s
  have hvalue : (do return (← vx w (.ofState s)) + Field.nn w : Guarded UInt8) =
      .ok (s.reg w.x + w.nn) := by
    simp only [vx_ofState, Field.nn_eq, ok_bind, pure_eq_ok]
  rw [addByte, assign_ofState hvalue]
  rfl

theorem readDelay_performs : readDelay.Performs w (.readDelay w.x) := by
  intro keys random s
  rw [readDelay, assign_ofState rfl]
  rfl

theorem copy_performs : copy.Performs w (.combine .copy w.x w.y) :=
  assign_performs (fun _ _ => rfl) fun s => vy_ofState w s

theorem or_performs : or.Performs w (.combine .or w.x w.y) :=
  assign_performs (fun _ _ => rfl) fun s => by simp [Combine.result]

theorem and_performs : and.Performs w (.combine .and w.x w.y) :=
  assign_performs (fun _ _ => rfl) fun s => by simp [Combine.result]

theorem xor_performs : xor.Performs w (.combine .xor w.x w.y) :=
  assign_performs (fun _ _ => rfl) fun s => by simp [Combine.result]

theorem add_performs : add.Performs w (.combine .add w.x w.y) :=
  assignFlagged_performs (fun _ _ => rfl) fun s => by simp [Combine.result]

theorem not_decide_lt (a b : UInt8) : (!decide (a < b)) = decide (b ≤ a) := by
  rw [← decide_not, decide_eq_decide, UInt8.not_lt]

theorem subtract_performs : subtract.Performs w (.combine .subtract w.x w.y) :=
  assignFlagged_performs (fun _ _ => rfl) fun s => by simp [Combine.result, not_decide_lt]

theorem subtractFrom_performs : subtractFrom.Performs w (.combine .subtractFrom w.x w.y) :=
  assignFlagged_performs (fun _ _ => rfl) fun s => by simp [Combine.result, not_decide_lt]

theorem and_one_eq (a : UInt8) : a &&& 1 = (decide (a.toNat % 2 = 1)).toUInt8 := by
  apply UInt8.toNat_inj.mp
  rw [UInt8.toNat_and, UInt8.toNat_one, Nat.and_one_is_mod]
  rcases Nat.mod_two_eq_zero_or_one a.toNat with h | h <;> rw [h] <;> rfl

theorem shiftRight_seven_eq (a : UInt8) : a >>> 7 = (decide (128 ≤ a.toNat)).toUInt8 := by
  have hlt := a.toNat_lt
  apply UInt8.toNat_inj.mp
  simp only [UInt8.toNat_shiftRight, UInt8.reduceToNat, Nat.reduceMod, Nat.shiftRight_eq_div_pow,
    Nat.reducePow]
  by_cases h : 128 ≤ a.toNat
  · have hquotient : a.toNat / 128 = 1 := by omega
    rw [decide_eq_true h, hquotient]
    rfl
  · have hquotient : a.toNat / 128 = 0 := by omega
    rw [decide_eq_false h, hquotient]
    rfl

theorem shiftRight_performs : shiftRight.Performs w (.combine .shiftRight w.x w.y) :=
  assignFlagged_performs (fun _ _ => rfl) fun s => by simp [Combine.result, and_one_eq]

theorem shiftLeft_performs : shiftLeft.Performs w (.combine .shiftLeft w.x w.y) :=
  assignFlagged_performs (fun _ _ => rfl) fun s => by simp [Combine.result, shiftRight_seven_eq]

theorem setIndex_performs : setIndex.Performs w (.setIndex w.nnn) := by
  intro keys random s
  rw [setIndex, Field.nnn_eq]
  rfl

theorem add16_nnn (b : UInt8) :
    add16 b.toUInt16 (Field.nnn w) = .ok (UInt16.ofNat (b.toNat + w.nnn.val)) := by
  have hb := b.toNat_lt
  have hn := w.nnn.isLt
  have hfits : b.toUInt16.toNat + (Field.nnn w).toNat < 65536 := by
    rw [UInt8.toNat_toUInt16, Field.toNat_nnn]
    omega
  rw [add16_of_lt hfits, Field.nnn_eq, UInt16.ofNat_add, UInt16.ofNat_uInt8ToNat]

theorem jumpOffset_performs : jumpOffset.Performs w (.jumpOffset w.nnn) := by
  intro keys random s
  have hbase : lookup (State.ofState s).registers 0 = .ok (s.reg offset) :=
    lookup_of_lt s.registers (by decide)
  simp only [jumpOffset, hbase, add16_nnn, ok_bind, pure_eq_ok]
  rfl

theorem random_performs : random.Performs w (.random w.x w.nn) := by
  intro keys g s
  simp only [random, State.setRegister_ofState s (Field.toNat_x w), Field.nn_eq, ok_bind,
    pure_eq_ok]
  rfl

theorem draw_performs : draw.Performs w (.draw w.x w.y w.n) := by
  intro keys random s
  have hF : (0xF : UInt8).toNat = flag.val := rfl
  have hn := w.n.isLt
  have hloops := Canvas.foldlM_plotRow_flushed s (s.reg w.x).toNat_lt (s.reg w.y).toNat_lt
    (show w.n.val ≤ 32 by omega)
  simp only [draw, vx_ofState, vy_ofState, ok_bind, Field.toNat_n, hloops,
    State.setRegister_ofState s hF, pure_eq_ok]
  rfl

theorem awaitKey_performs : awaitKey.Performs w (.awaitKey w.x) := by
  intro keys random s
  cases h : keys.least? with
  | none =>
      simp only [awaitKey, h, Instruction.execute]
      rfl
  | some k =>
      simp only [awaitKey, h, Instruction.execute, State.setRegister_ofState s (Field.toNat_x w),
        ok_bind]
      rfl

theorem writeDelay_performs : writeDelay.Performs w (.writeDelay w.x) := by
  intro keys random s
  simp only [writeDelay, vx_ofState, ok_bind, pure_eq_ok]
  rfl

theorem beep_performs : beep.Performs w (.beep w.x) := by
  intro keys random s
  simp only [beep, vx_ofState, ok_bind, pure_eq_ok]
  rfl

theorem addIndex_performs : addIndex.Performs w (.addIndex w.x) := by
  intro keys random s
  simp only [addIndex, vx_ofState, ok_bind, pure_eq_ok]
  rfl

theorem pointAtDigit_performs : pointAtDigit.Performs w (.pointAtDigit w.x) := by
  intro keys random s
  have hb := (s.reg w.x).toNat_lt
  have hheight : (UInt16.ofNat Font.glyphHeight).toNat = 5 := rfl
  have hbase : (UInt16.ofNat Font.base).toNat = 0 := rfl
  have hproduct : (s.reg w.x).toUInt16.toNat * (UInt16.ofNat Font.glyphHeight).toNat < 65536 := by
    rw [UInt8.toNat_toUInt16, hheight]
    omega
  have hsum : (UInt16.ofNat Font.base).toNat +
      ((s.reg w.x).toUInt16 * UInt16.ofNat Font.glyphHeight).toNat < 65536 := by
    rw [hbase, Nat.zero_add]
    exact UInt16.toNat_lt _
  have haddress : UInt16.ofNat Font.base + (s.reg w.x).toUInt16 * UInt16.ofNat Font.glyphHeight =
      Font.glyphAddress (s.reg w.x) := by
    rw [Font.glyphAddress, UInt16.ofNat_add, UInt16.ofNat_mul, UInt16.ofNat_uInt8ToNat]
  simp only [pointAtDigit, vx_ofState, ok_bind, mul16_of_lt hproduct, add16_of_lt hsum, haddress,
    pure_eq_ok]
  rfl

theorem storeDigits_performs : storeDigits.Performs w (.storeDigits w.x) := by
  intro keys random s
  have hstore := State.storeEach_ofState s (decimalDigits (s.reg w.x))
    fun k hk => lookup_of_lt #v[s.reg w.x / 100, s.reg w.x / 10 % 10, s.reg w.x % 10] hk
  have hlen : (decimalDigits (s.reg w.x)).length = 3 := rfl
  rw [hlen] at hstore
  simp only [storeDigits, vx_ofState, ok_bind, hstore, pure_eq_ok]
  rfl

theorem save_performs : save.Performs w (.save w.x) := by
  intro keys random s
  have hx := w.x.isLt
  have hlen := s.length_regsUpTo w.x
  have hbyte : ∀ k (hk : k < (s.regsUpTo w.x).length),
      lookup s.registers k = .ok (s.regsUpTo w.x)[k] := by
    intro k hk
    have hlt : k < 16 := by omega
    simp only [lookup_of_lt _ hlt, State.regsUpTo, List.getElem_take, Vector.getElem_toList]
  have hstore := State.storeEach_ofState s (s.regsUpTo w.x) hbyte
  have hregisters : (State.ofState s).registers = s.registers := rfl
  rw [hlen] at hstore
  simp only [save, Field.toNat_x, hregisters, hstore, ok_bind, pure_eq_ok]
  rfl

theorem restore_performs : restore.Performs w (.restore w.x) := by
  intro keys random s
  have hload := State.foldlM_update_registers s (Nat.succ_le_of_lt w.x.isLt)
  have hindex : (State.ofState s).index = s.index := rfl
  have hregisters : (State.ofState s).registers = s.registers := rfl
  simp only [restore, Field.toNat_x, hindex, hregisters, hload, ok_bind, pure_eq_ok,
    Nat.lt_succ_iff]
  rw [Instruction.execute, State.loadRegs]
  rfl

theorem toNat_nn_eq : w.nn.toNat = 16 * w.y.val + w.n.val := by
  simp only [Word.nn, Word.low, Word.y, Word.n, UInt8.toNat_ofNat']
  omega

theorem rel_ofSystemByte? :
    Option.Rel (fun operation i => operation.Performs w i)
      (ofSystemByte? w.y.val w.n.val) (Instruction.ofSystemByte? w.nn.toNat) := by
  have hy := w.y.isLt
  have hn := w.n.isLt
  rw [toNat_nn_eq]
  generalize w.y.val = y at *
  generalize w.n.val = n at *
  unfold Instruction.ofSystemByte?
  split
  · obtain ⟨rfl, rfl⟩ : y = 0xE ∧ n = 0x0 := by omega
    exact .some (clear_performs w)
  · obtain ⟨rfl, rfl⟩ : y = 0xE ∧ n = 0xE := by omega
    exact .some (ret_performs w)
  -- the digits of any row would make one of the bytes above
  · unfold ofSystemByte?
    split
    case h_3 => exact .none
    all_goals simp_all

theorem rel_ofKeyByte? :
    Option.Rel (fun operation i => operation.Performs w i)
      (ofKeyByte? w.y.val w.n.val) (Instruction.ofKeyByte? w.x w.nn.toNat) := by
  have hy := w.y.isLt
  have hn := w.n.isLt
  rw [toNat_nn_eq]
  generalize w.y.val = y at *
  generalize w.n.val = n at *
  unfold Instruction.ofKeyByte?
  split
  · obtain ⟨rfl, rfl⟩ : y = 0x9 ∧ n = 0xE := by omega
    exact .some (skipKeyHeld_performs w)
  · obtain ⟨rfl, rfl⟩ : y = 0xA ∧ n = 0x1 := by omega
    exact .some (skipKeyFree_performs w)
  · unfold ofKeyByte?
    split
    case h_3 => exact .none
    all_goals simp_all

theorem rel_ofDeviceByte? :
    Option.Rel (fun operation i => operation.Performs w i)
      (ofDeviceByte? w.y.val w.n.val) (Instruction.ofDeviceByte? w.x w.nn.toNat) := by
  have hy := w.y.isLt
  have hn := w.n.isLt
  rw [toNat_nn_eq]
  generalize w.y.val = y at *
  generalize w.n.val = n at *
  unfold Instruction.ofDeviceByte?
  split
  · obtain ⟨rfl, rfl⟩ : y = 0x0 ∧ n = 0x7 := by omega
    exact .some (readDelay_performs w)
  · obtain ⟨rfl, rfl⟩ : y = 0x0 ∧ n = 0xA := by omega
    exact .some (awaitKey_performs w)
  · obtain ⟨rfl, rfl⟩ : y = 0x1 ∧ n = 0x5 := by omega
    exact .some (writeDelay_performs w)
  · obtain ⟨rfl, rfl⟩ : y = 0x1 ∧ n = 0x8 := by omega
    exact .some (beep_performs w)
  · obtain ⟨rfl, rfl⟩ : y = 0x1 ∧ n = 0xE := by omega
    exact .some (addIndex_performs w)
  · obtain ⟨rfl, rfl⟩ : y = 0x2 ∧ n = 0x9 := by omega
    exact .some (pointAtDigit_performs w)
  · obtain ⟨rfl, rfl⟩ : y = 0x3 ∧ n = 0x3 := by omega
    exact .some (storeDigits_performs w)
  · obtain ⟨rfl, rfl⟩ : y = 0x5 ∧ n = 0x5 := by omega
    exact .some (save_performs w)
  · obtain ⟨rfl, rfl⟩ : y = 0x6 ∧ n = 0x5 := by omega
    exact .some (restore_performs w)
  · unfold ofDeviceByte?
    split
    case h_10 => exact .none
    all_goals simp_all

theorem rel_ofDigit? :
    Option.Rel (fun operation i => operation.Performs w i)
      (ofDigit? w.n.val) ((Combine.ofDigit? w.n.val).map fun f => .combine f w.x w.y) := by
  generalize w.n = n
  fin_cases n
  case «0» => exact .some (copy_performs w)
  case «1» => exact .some (or_performs w)
  case «2» => exact .some (and_performs w)
  case «3» => exact .some (xor_performs w)
  case «4» => exact .some (add_performs w)
  case «5» => exact .some (subtract_performs w)
  case «6» => exact .some (shiftRight_performs w)
  case «7» => exact .some (subtractFrom_performs w)
  case «14» => exact .some (shiftLeft_performs w)
  all_goals exact .none

/-- The operation that a word selects performs the instruction that the word stands for, and a
word that selects none stands for none. -/
theorem rel_ofWord? :
    Option.Rel (fun operation i => operation.Performs w i) (ofWord? w)
      (Instruction.ofWord? w) := by
  unfold ofWord? Instruction.ofWord?
  simp only [Field.toNat_group, Field.toNat_y, Field.toNat_n]
  generalize w.group = g
  fin_cases g
  case «0» => exact rel_ofSystemByte? w
  case «1» => exact .some (jump_performs w)
  case «2» => exact .some (call_performs w)
  case «3» => exact .some (skipEqualsByte_performs w)
  case «4» => exact .some (skipDiffersByte_performs w)
  case «5» => exact .some (skipEqualsReg_performs w)
  case «6» => exact .some (setByte_performs w)
  case «7» => exact .some (addByte_performs w)
  case «8» => exact rel_ofDigit? w
  case «9» => exact .some (skipDiffersReg_performs w)
  case «10» => exact .some (setIndex_performs w)
  case «11» => exact .some (jumpOffset_performs w)
  case «12» => exact .some (random_performs w)
  case «13» => exact .some (draw_performs w)
  case «14» => exact rel_ofKeyByte? w
  case «15» => exact rel_ofDeviceByte? w

end Operation

end ChipEight.Trapping
