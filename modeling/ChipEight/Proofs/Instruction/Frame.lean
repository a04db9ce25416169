import ChipEight.Proofs.Instruction.Effects
import ChipEight.Proofs.Instruction.Table
import ChipEight.Proofs.Screen.Sprite

namespace ChipEight

/-!
# What an instruction leaves alone

Each instruction writes a few parts of the state, and every other part comes out of it as it
went in. What is written is said once by instruction and once by part: for each part, the
words of the table that may change it.
-/

/-- The parts of a state, each register and each slot of the call stack on its own. -/
inductive Part
  | register (k : Reg)
  | index
  | counter
  | slot (k : Fin 16)
  | depth
  | delay
  | memory
  | visible
  | fading
  | stale

namespace State

/-- Two states have the same in a part. -/
def Same (s t : State) : Part → Prop
  | .register k => s.reg k = t.reg k
  | .index => s.index = t.index
  | .counter => s.counter = t.counter
  | .slot k => s.calls.slots.get k = t.calls.slots.get k
  | .depth => s.calls.depth = t.calls.depth
  | .delay => s.delay = t.delay
  | .memory => s.memory = t.memory
  | .visible => s.screen.visible = t.screen.visible
  | .fading => s.screen.fading = t.screen.fading
  | .stale => s.screen.stale = t.screen.stale

end State

namespace Part

def OfScreen : Part → Prop
  | visible | fading | stale => True
  | _ => False

end Part

namespace Word

/-- The rows of the table that may change a part of a state. -/
def MayChange (w : Word) (keys : Keypad) (s : State) : Part → Prop
  | .register k =>
    k = w.x ∧ (w.group.val ∈ [0x6, 0x7, 0x8, 0xC] ∨ w.group.val = 0xF ∧ w.nn ∈ [0x07, 0x0A]) ∨
    k = flag ∧ (w.IsArithmetic ∨ w.group.val = 0xD) ∨
    k.val ≤ w.x.val ∧ w.group.val = 0xF ∧ w.nn = 0x65
  | .index => w.group.val = 0xA ∨ w.group.val = 0xF ∧ w.nn ∈ [0x1E, 0x29]
  | .counter =>
    w.group.val ∈ [0x1, 0x2, 0x3, 0x4, 0x5, 0x9, 0xB] ∨ w.IsReturn ∨ w.TestsHeld ∨ w.TestsFree ∨
    w.AwaitsKey ∧ ∀ k, keys.isHeld k = false
  | .slot k => w.IsCall ∧ k.val = s.calls.depth
  | .depth => w.IsCall ∨ w.IsReturn
  | .delay => w.group.val = 0xF ∧ w.nn = 0x15
  | .memory => w.group.val = 0xF ∧ w.nn ∈ [0x33, 0x55]
  | .visible | .fading | .stale => w.group.val = 0x0 ∧ w.nn = 0xE0 ∨ w.group.val = 0xD

instance (w : Word) (keys : Keypad) (s : State) : (p : Part) → Decidable (w.MayChange keys s p)
  | .register _ | .index | .counter | .depth | .visible | .fading | .stale =>
    inferInstanceAs (Decidable (_ ∨ _))
  | .slot _ | .delay | .memory => inferInstanceAs (Decidable (_ ∧ _))

end Word

namespace Combine

def Reports : Combine → Prop
  | add | subtract | shiftRight | subtractFrom | shiftLeft => True
  | copy | or | and | xor => False

end Combine

namespace Instruction

/-- The parts that an instruction writes. -/
def Writes (keys : Keypad) (s : State) (p : Part) : Instruction → Prop
  | clear => p.OfScreen
  | ret => p = .counter ∨ p = .depth
  | jump _ | jumpOffset _ | skipIf _ => p = .counter
  | call _ => p = .counter ∨ p = .depth ∨ ∃ k, p = .slot k ∧ k.val = s.calls.depth
  | setByte x _ | addByte x _ | random x _ | readDelay x => p = .register x
  | combine f x _ => p = .register x ∨ f.Reports ∧ p = .register flag
  | setIndex _ | addIndex _ | pointAtDigit _ => p = .index
  | draw .. => p = .register flag ∨ p.OfScreen
  | writeDelay _ => p = .delay
  | beep _ => False
  | awaitKey x => p = .register x ∨ p = .counter ∧ ∀ k, keys.isHeld k = false
  | storeDigits _ | save _ => p = .memory
  | restore x => ∃ k, p = .register k ∧ k.val ≤ x.val

end Instruction

namespace State

variable {s : State} {p : Part}

theorem same_refl (s : State) (p : Part) : s.Same s p := by
  cases p <;> rfl

theorem Same.trans {t u : State} (h : s.Same t p) (h' : t.Same u p) : s.Same u p := by
  cases p <;> exact Eq.trans h h'

theorem same_setReg {x : Reg} (h : p ≠ .register x) (b : UInt8) : (s.setReg x b).Same s p := by
  cases p with
  | register k => exact s.reg_setReg_of_ne (fun hk => h (congrArg Part.register hk.symm)) b
  | _ => rfl

theorem same_jump (h : p ≠ .counter) (a : UInt16) : { s with counter := a }.Same s p := by
  cases p with
  | counter => exact absurd rfl h
  | _ => rfl

theorem same_point (h : p ≠ .index) (a : UInt16) : { s with index := a }.Same s p := by
  cases p with
  | index => exact absurd rfl h
  | _ => rfl

theorem same_store (h : p ≠ .memory) (m : Memory) : { s with memory := m }.Same s p := by
  cases p with
  | memory => exact absurd rfl h
  | _ => rfl

theorem same_paint (h : ¬p.OfScreen) (t : Screen) : { s with screen := t }.Same s p := by
  cases p with
  | visible | fading | stale => exact absurd trivial h
  | _ => rfl

theorem same_restore {x : Reg} (h : ∀ k, p = .register k → ¬k.val ≤ x.val) :
    (s.loadRegs x).Same s p := by
  cases p with
  | register k => exact (s.reg_loadRegs x k).trans (if_neg (h k rfl))
  | _ => rw [State.loadRegs, Same]

/-- The parts make up the whole state. -/
theorem eq_of_same {s t : State} (h : ∀ p, s.Same t p) : s = t := by
  have hregisters : s.registers = t.registers := Vector.ext fun k hk => h (.register ⟨k, hk⟩)
  have hslots : s.calls.slots = t.calls.slots := Vector.ext fun k hk => h (.slot ⟨k, hk⟩)
  have hcalls : s.calls = t.calls := by
    rw [CallStack.mk.injEq]
    exact ⟨hslots, h .depth⟩
  have hscreen : s.screen = t.screen := by
    rw [Screen.mk.injEq]
    exact ⟨h .visible, h .fading, h .stale⟩
  rw [State.mk.injEq]
  exact ⟨hregisters, h .index, h .counter, hcalls, h .delay, h .memory, hscreen⟩

end State

namespace CallStack

theorem slots_of_pop? {s t : CallStack} {a : UInt16} (h : s.pop? = some (a, t)) :
    t.slots = s.slots := by
  rcases s with ⟨slots, _ | depth, hle⟩
  · cases h
  · cases h
    rfl

theorem get_slots_of_push? {s t : CallStack} {a : UInt16} (h : s.push? a = some t) {k : Fin 16}
    (hk : k.val ≠ s.depth) : t.slots.get k = s.slots.get k := by
  unfold push? at h
  split at h
  case isTrue hroom =>
    cases h
    exact Vector.getElem_set_ne hroom k.isLt (Ne.symm hk)
  case isFalse => cases h

end CallStack

namespace Instruction

theorem same_of_not_writes {i : Instruction} {keys : Keypad} {random : Generator} {s : State}
    {e : Effect} {p : Part} (h : ¬i.Writes keys s p) (he : i.execute keys random s = .ok e) :
    e.state.Same s p := by
  cases i with
  | clear =>
      cases he
      exact State.same_paint h _
  | ret =>
      simp only [Writes, not_or] at h
      simp only [execute] at he
      split at he
      case h_1 back calls hpop =>
        cases he
        cases p with
        | counter => exact absurd rfl h.1
        | depth => exact absurd rfl h.2
        | slot k => exact congrArg (·.get k) (CallStack.slots_of_pop? hpop)
        | _ => rfl
      case h_2 => cases he
  | jump target | jumpOffset target =>
      cases he
      exact State.same_jump h _
  | call target =>
      simp only [Writes, not_or, not_exists, not_and] at h
      simp only [execute] at he
      split at he
      case h_1 calls hpush =>
        cases he
        cases p with
        | counter => exact absurd rfl h.1
        | depth => exact absurd rfl h.2.1
        | slot k => exact CallStack.get_slots_of_push? hpush (h.2.2 k rfl)
        | _ => rfl
      case h_2 => cases he
  | skipIf c =>
      cases he
      simp only [State.advanceIf]
      split
      · exact State.same_jump h _
      · exact s.same_refl p
  | setByte x b | addByte x b | random x b | readDelay x =>
      cases he
      exact State.same_setReg h _
  | combine f x y =>
      simp only [Writes, not_or, not_and] at h
      cases he
      cases f with
      | copy | or | and | xor => exact State.same_setReg h.1 _
      | add | subtract | shiftRight | subtractFrom | shiftLeft =>
          exact (State.same_setReg (h.2 trivial) _).trans (State.same_setReg h.1 _)
  | setIndex target | addIndex x | pointAtDigit x =>
      cases he
      exact State.same_point h _
  | draw x y rows =>
      simp only [Writes, not_or] at h
      cases he
      exact (State.same_paint h.2 _).trans (State.same_setReg h.1 _)
  | writeDelay x =>
      cases he
      cases p with
      | delay => exact absurd rfl h
      | _ => rfl
  | beep x =>
      cases he
      exact s.same_refl p
  | awaitKey x =>
      simp only [Writes, not_or, not_and] at h
      simp only [execute] at he
      split at he
      case h_1 =>
        cases he
        exact State.same_setReg h.1 _
      case h_2 hfree =>
        cases he
        exact State.same_jump (fun hp => h.2 hp (keys.least?_eq_none_iff.mp hfree)) _
  | storeDigits x | save x =>
      cases he
      exact State.same_store h _
  | restore x =>
      obtain rfl := Except.ok.inj he
      exact State.same_restore fun k hp hk => h ⟨k, hp, hk⟩

theorem mayChange_of_writes {w : Word} {i : Instruction} {keys : Keypad} {s : State} {p : Part}
    (hi : ofWord? w = some i) (h : i.Writes keys s p) : w.MayChange keys s p := by
  have hw := encodes_of_ofWord? hi
  cases i with
  | clear =>
      cases p with
      | visible | fading | stale => exact Or.inl hw
      | _ => exact h.elim
  | ret =>
      rcases h with rfl | rfl
      · exact Or.inr (Or.inl hw)
      · exact Or.inr hw
  | call target =>
      rcases h with rfl | rfl | ⟨k, rfl, hk⟩
      · exact Or.inl (by simp [hw.1])
      · exact Or.inl hw.1
      · exact ⟨hw.1, hk⟩
  | jump target | jumpOffset target =>
      obtain rfl := h
      exact Or.inl (by simp [hw.1])
  | skipIf c =>
      obtain rfl := h
      cases c with
      | keyHeld x => exact Or.inr (Or.inr (Or.inl ⟨hw.1, hw.2.1⟩))
      | keyFree x => exact Or.inr (Or.inr (Or.inr (Or.inl ⟨hw.1, hw.2.1⟩)))
      | _ => exact Or.inl (by simp [hw.1])
  | setByte x b | addByte x b | random x b =>
      obtain rfl := h
      exact Or.inl ⟨hw.2.1.symm, Or.inl (by simp [hw.1])⟩
  | combine f x y =>
      obtain ⟨hg, hn, hx, -⟩ := hw
      rcases h with rfl | ⟨hf, rfl⟩
      · exact Or.inl ⟨hx.symm, Or.inl (by simp [hg])⟩
      · refine Or.inr (Or.inl ⟨rfl, Or.inl ⟨hg, ?_⟩⟩)
        cases f with
        | copy | or | and | xor => exact hf.elim
        | _ => simp [hn, Combine.digit]
  | setIndex target =>
      obtain rfl := h
      exact Or.inl hw.1
  | addIndex x | pointAtDigit x =>
      obtain rfl := h
      exact Or.inr ⟨hw.1, by simp [hw.2.1]⟩
  | draw x y rows =>
      rcases h with rfl | h
      · exact Or.inr (Or.inl ⟨rfl, Or.inr hw.1⟩)
      · cases p with
        | visible | fading | stale => exact Or.inr hw.1
        | _ => exact h.elim
  | readDelay x =>
      obtain rfl := h
      exact Or.inl ⟨hw.2.2.symm, Or.inr ⟨hw.1, by simp [hw.2.1]⟩⟩
  | writeDelay x =>
      obtain rfl := h
      exact ⟨hw.1, hw.2.1⟩
  | beep x => exact h.elim
  | awaitKey x =>
      rcases h with rfl | ⟨rfl, hfree⟩
      · exact Or.inl ⟨hw.2.2.symm, Or.inr ⟨hw.1, by simp [hw.2.1]⟩⟩
      · exact Or.inr (Or.inr (Or.inr (Or.inr ⟨⟨hw.1, hw.2.1⟩, hfree⟩)))
  | storeDigits x | save x =>
      obtain rfl := h
      exact ⟨hw.1, by simp [hw.2.1]⟩
  | restore x =>
      obtain ⟨k, rfl, hk⟩ := h
      exact Or.inr (Or.inr ⟨hw.2.2 ▸ hk, hw.1, hw.2.1⟩)

theorem stale_of_execute {i : Instruction} {keys : Keypad} {random : Generator} {s : State}
    {e : Effect} (h : s.screen.stale = true) (he : i.execute keys random s = .ok e) :
    e.state.screen.stale = true := by
  by_cases hi : i.Paints
  · cases i with
    | clear =>
        cases he
        rfl
    | draw x y rows =>
        cases he
        exact (s.screen.stale_draw_iff ..).mpr (Or.inl h)
    | _ => exact hi.elim
  · rw [screen_of_execute hi he]
    exact h

/-- A word changes no part but those that the table gives it, and it never makes a stale screen
fresh. Random words take one byte from the generator, and the words that beep do it once, for as
long as their register says; no others do. -/
theorem words_change_own_parts_only {w : Word} {i : Instruction} {keys : Keypad}
    {random : Generator} {s : State} {e : Effect} (hi : ofWord? w = some i)
    (he : i.execute keys random s = .ok e) :
    (∀ p, ¬w.MayChange keys s p → e.state.Same s p) ∧
    (∀ t : State, (∀ p, t.Same s p) → t = s) ∧
    (s.screen.stale = true → e.state.screen.stale = true) ∧
    e.random = (if w.IsRandom then random.next else random) ∧
    e.beep = if w.group.val = 0xF ∧ w.nn = 0x18 then some (s.reg w.x) else none := by
  have hw := encodes_of_ofWord? hi
  refine ⟨fun p hp => same_of_not_writes (mt (mayChange_of_writes hi) hp) he,
    fun t => State.eq_of_same, fun h => stale_of_execute h he, ?_, ?_⟩
  · split
    case isTrue hrandom =>
      obtain rfl : i = .random w.x w.nn := Option.some.inj (hi.symm.trans hrandom.ofWord?)
      exact (random_beep_of_execute he).1
    case isFalse hother =>
      refine random_of_execute ?_ he
      rintro x mask rfl
      exact hother hw.1
  · rw [(random_beep_of_execute he).2]
    unfold beepIn
    split
    case h_1 x =>
      obtain ⟨hg, hnn, rfl⟩ := hw
      exact (if_pos ⟨hg, hnn⟩).symm
    case h_2 hother =>
      refine (if_neg ?_).symm
      intro h
      have hword : ofWord? w = some (.beep w.x) := ofWord?_of_encodes ⟨h.1, h.2, rfl⟩
      exact hother w.x (Option.some.inj (hi.symm.trans hword))

/-- A call from a subroutine takes the second slot; the first one, with the way back out of that
subroutine, is left alone. -/
theorem words_change_own_parts_only_of_nested_call :
    let keys := Keypad.free
    let random : Generator := ⟨Vector.replicate 8 0, 0⟩
    let s := { State.powerOn with calls := ⟨Vector.replicate 16 0x202, 1, by decide⟩ }
    let w : Word := 0x2400
    ∃ i e, ofWord? w = some i ∧ i.execute keys random s = .ok e ∧
      e.state.calls.slots.get 0 = 0x202 ∧ e.state.calls.slots.get 1 = 0x200 ∧
      e.state.calls.slots.get 2 = 0x202 ∧ e.state.memory = s.memory ∧ e.state.screen.stale = true ∧
      e.random = random ∧ e.beep = none := by
  intro keys random s w
  have hi : ofWord? w = some (.call w.nnn) := by decide
  have hrest : ¬w.IsRandom ∧ ¬(w.group.val = 0xF ∧ w.nn = 0x18) := by decide
  obtain ⟨hsame, -, hstale, hrandom, hbeep⟩ :=
    @words_change_own_parts_only w (.call w.nnn) keys random s _ hi rfl
  refine ⟨_, _, hi, rfl, ?_, rfl, ?_, ?_, hstale rfl,
    hrandom.trans (if_neg hrest.1), hbeep.trans (if_neg hrest.2)⟩
  · exact hsame (.slot 0) (by decide)
  · exact hsame (.slot 2) (by decide)
  · exact hsame .memory (by decide)

end Instruction

end ChipEight
