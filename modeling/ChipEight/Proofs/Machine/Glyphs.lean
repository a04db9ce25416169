import ChipEight.Proofs.Instruction.Drawing
import ChipEight.Proofs.Machine.LastWrite

namespace ChipEight

/-!
# Digits on the screen

The sprites of the digits stay in memory through any run that does not store over them. The
word that points at a digit then finds its sprite, and drawing five rows puts that sprite on
the screen.
-/

namespace Font

theorem toNat_glyphAddress (value : UInt8) : (glyphAddress value).toNat = 5 * value.toNat := by
  have hlt := value.toNat_lt
  rw [glyphAddress, UInt16.toNat_ofNat', base, glyphHeight]
  omega

/-- The sprite of a digit, with its top left corner in column `x` of row `y`, has a bit on a pixel,
the most significant bit of each row leftmost. -/
def Covers (digit x y : Nat) (c : Fin 64) (r : Fin 32) : Prop :=
  ∃ k < 5, ∃ b < 8,
    (∃ byte, sheet[5 * digit + k]? = some byte ∧ byte.toNat.testBit (7 - b) = true) ∧
    c.val = (x + b) % 64 ∧ r.val = (y + k) % 32

end Font

namespace Memory

/-- The sprites of the digits are where they were put at power-on. -/
def HoldsSheet (m : Memory) : Prop :=
  ∀ (c : Fin 4096) (b : UInt8), Font.sheet[c.val]? = some b → m.get c = b

theorem HoldsSheet.byteAt_eq {m : Memory} (h : m.HoldsSheet) {a : Nat} {b : UInt8}
    (hb : Font.sheet[a]? = some b) : m.byteAt a = b := by
  obtain ⟨ha, -⟩ := List.getElem?_eq_some_iff.mp hb
  have hlt : a < 4096 := ha.trans (by decide)
  exact (byteAt_eq_get (c := ⟨a, hlt⟩) (Nat.mod_eq_of_lt hlt)).trans (h ⟨a, hlt⟩ b hb)

end Memory

namespace State

/-- A step stores over the sprites of the digits. -/
def WritesSheet (s : State) : Prop := ∃ c : Fin 4096, c.val < 80 ∧ s.Writes c

theorem writesSheet_iff {s : State} {i : Instruction}
    (hi : Instruction.ofWord? s.fetch = some i) :
    s.WritesSheet ↔ ∃ k < i.writeLength, (s.index.toNat + k) % 4096 < 80 := by
  simp only [WritesSheet, writes_iff hi, Memory.Window]
  constructor
  · rintro ⟨c, hc, k, hk, heq⟩
    exact ⟨k, hk, heq ▸ hc⟩
  · rintro ⟨k, hk, hlt⟩
    exact ⟨⟨_, Nat.mod_lt _ (by decide)⟩, hlt, k, hk, rfl⟩

theorem not_writesSheet_of_none {s : State} (hi : Instruction.ofWord? s.fetch = none) :
    ¬s.WritesSheet := by
  rintro ⟨c, _, hw⟩
  exact not_writes_of_none hi c hw

instance : DecidablePred WritesSheet := fun s =>
  match hi : Instruction.ofWord? s.fetch with
  | some _ => decidable_of_iff _ (writesSheet_iff hi).symm
  | none => isFalse (not_writesSheet_of_none hi)

/-- Where the index register points at a digit, five rows have the image of its sprite. -/
theorem inImage_iff_covers {s : State} (hsheet : s.memory.HoldsSheet) {digit : Nat}
    (hdigit : digit ≤ 15) (hindex : s.index.toNat = 5 * digit) {w : Word} (hn : w.n.val = 5)
    (c : Fin 64) (r : Fin 32) :
    s.InImage w c r ↔ Font.Covers digit (s.reg w.x).toNat (s.reg w.y).toNat c r := by
  have hbit : ∀ k < 5, ∀ b, s.spriteBit k b = true ↔
      ∃ byte, Font.sheet[5 * digit + k]? = some byte ∧ byte.toNat.testBit (7 - b) = true := by
    intro k hk b
    have hlt : 5 * digit + k < Font.sheet.length := by
      rw [Font.length_sheet, Font.glyphHeight]
      omega
    have hsome := List.getElem?_eq_getElem hlt
    rw [spriteBit, hindex, hsheet.byteAt_eq hsome, hsome]
    simp only [Option.some.injEq, exists_eq_left']
  rw [InImage, Font.Covers, hn]
  refine exists_congr fun k => and_congr_right fun hk => exists_congr fun b =>
    and_congr_right fun _ => and_congr_left fun _ => hbit k hk b

end State

namespace Machine

variable {program : List UInt8} {m : Machine}

theorem Started.holdsSheet (h : Started program m) : m.state.memory.HoldsSheet := by
  intro c b hb
  rw [h.get_memory, Memory.image_eq_of_sheet hb program]

theorem holdsSheet_obey (h : m.state.memory.HoldsSheet) {c : Command}
    (hc : ¬(c = .step ∧ m.state.WritesSheet)) : (m.obey c).machine.state.memory.HoldsSheet := by
  by_cases hrenews : c.Renews
  · have hok := ((m.renews_iff c).mp hrenews).2
    cases c with
    | load program => exact (Started.load hok).holdsSheet
    | reset => exact (Started.reset m).holdsSheet
    | _ => exact hrenews.elim
  · by_cases hstep : c = .step
    · subst hstep
      intro d b hb
      obtain ⟨hd, -⟩ := List.getElem?_eq_some_iff.mp hb
      have hkept : ¬m.state.Writes d := fun hw => hc ⟨rfl, d, hd, hw⟩
      exact (get_step_of_not_writes hkept).trans (h d b hb)
    · obtain ⟨_, delay, screen, hs⟩ := m.obey_of_ne_step hstep hrenews
      rw [hs]
      exact h

theorem holdsSheet_after (h : m.state.memory.HoldsSheet) {commands : List Command}
    (hkept : ¬m.SomeStep State.WritesSheet commands) :
    (m.after commands).state.memory.HoldsSheet := by
  induction commands generalizing m with
  | nil => exact h
  | cons c rest ih =>
      rw [someStep_cons, not_or] at hkept
      exact ih (holdsSheet_obey h hkept.1) hkept.2

/-- The word that points at a digit sets the index register to five times the value of its register,
which always fits. After a run from a program's image that has not stored over the sprites of the
digits, drawing five rows from there turns over the pixels of the digit's sprite on the solid part
of the screen and no others, and the flag register reports whether one of them was solid. -/
theorem digits_drawn_from_sheet {program : List UInt8} {m : Machine} (hm : Started program m)
    {commands : List Command} (hkept : ¬m.SomeStep State.WritesSheet commands) {w v : Word}
    (hw : w.PointsAtDigit) (hv : v.group.val = 0xD) (hn : v.n.val = 5) (keys : Keypad)
    (random : Generator) :
    let s := (m.after commands).state
    let value := (s.reg w.x).toNat
    let Covered := Font.Covers value (s.reg v.x).toNat (s.reg v.y).toNat
    ∃ e, w.Executes keys random s e ∧
      Trapping.Operation.pointAtDigit w ⟨keys, random⟩ (.ofState s) = .ok (.ok (.ofEffect e)) ∧
      e.state = { s with index := e.state.index } ∧ e.state.index.toNat = 5 * value ∧
      (value ≤ 15 → ∀ keys' random', ∃ e', v.Executes keys' random' e.state e' ∧
        e'.state.index = e.state.index ∧
        (∀ c r, e'.state.IsSolid c r ↔ ¬(s.IsSolid c r ↔ Covered c r)) ∧
        (e'.state.reg flag = 1 ∧ (∃ c r, s.IsSolid c r ∧ Covered c r) ∨
          e'.state.reg flag = 0 ∧ ¬∃ c r, s.IsSolid c r ∧ Covered c r)) := by
  intro s value Covered
  let u := { s with index := Font.glyphAddress (s.reg w.x) }
  have hindex : u.index.toNat = 5 * value := Font.toNat_glyphAddress (s.reg w.x)
  refine ⟨{ state := u, random }, ⟨_, hw.ofWord?, rfl⟩,
    Trapping.Operation.pointAtDigit_performs w keys random s, rfl, hindex, ?_⟩
  intro hvalue keys' random'
  -- `u` differs from `s` in the index register only: memory, screen and registers are those of `s`
  have hsheet : u.memory.HoldsSheet := holdsSheet_after hm.holdsSheet hkept
  have himage := State.inImage_iff_covers hsheet hvalue hindex hn
  have hdraw : Instruction.ofWord? v = some (.draw v.x v.y v.n) :=
    Instruction.ofWord?_of_encodes ⟨hv, rfl, rfl, rfl⟩
  refine ⟨_, ⟨_, hdraw, rfl⟩, rfl, ?_, ?_⟩
  · intro c r
    rw [← State.lit_solid_iff]
    exact (u.solid_drawn_iff v c r).trans (by rw [himage c r]; rfl)
  · have hhit : (∃ c r, s.IsSolid c r ∧ Covered c r) ↔ ∃ c r, u.IsSolid c r ∧ u.InImage v c r :=
      exists_congr fun c => exists_congr fun r => and_congr_right fun _ => (himage c r).symm
    rw [hhit]
    exact u.reg_flag_draw v

/-- The digit 7 is drawn a second time over the lower edge of the screen, behind a store that does
not meet the sprites, and its corner vanishes. -/
theorem digits_drawn_from_sheet_of_second_drawing :
    let random : Generator := ⟨Vector.replicate 8 0, 0⟩
    let program : List UInt8 :=
      [0x60, 0x07, 0x61, 0x1F, 0xA3, 0x00, 0xF0, 0x33, 0xF0, 0x29, 0xD0, 0x15]
    let commands : List Command := [.step, .step, .step, .step, .tick, .step, .step]
    let m := ((powerOn random).load program).machine
    let s := (m.after commands).state
    let w : Word := 0xF029
    let v : Word := 0xD015
    Started program m ∧ m.SomeStep (fun s => s.fetch.StoresDigits) commands ∧
      ¬m.SomeStep State.WritesSheet commands ∧ w.PointsAtDigit ∧ v.group.val = 0xD ∧ v.n.val = 5 ∧
      s.reg w.x = 7 ∧ s.IsSolid 10 0 ∧
      ∃ e, w.Executes .free random s e ∧ e.state.index.toNat = 35 ∧
      ∃ e', v.Executes .free random e.state e' ∧ ¬e'.state.IsSolid 10 0 ∧
        e'.state.reg flag = 1 := by
  intro random program commands m s w v
  have hm : Started program m := .load rfl
  obtain ⟨hstores, hkept⟩ : m.SomeStep (fun s => s.fetch.StoresDigits) commands ∧
      ¬m.SomeStep State.WritesSheet commands := by decide +kernel
  obtain ⟨hw, hv, hn⟩ : w.PointsAtDigit ∧ v.group.val = 0xD ∧ v.n.val = 5 := by decide
  obtain ⟨hwx, hvx, hvy⟩ : w.x = 0 ∧ v.x = 0 ∧ v.y = 1 := by decide
  obtain ⟨hvalue, hrow, hvisible, hfading⟩ : s.reg 0 = 7 ∧ s.reg 1 = 31 ∧
      s.screen.visible.lit 10 0 = true ∧ s.screen.fading.lit 10 0 = false := by decide +kernel
  have hcorner : s.IsSolid 10 0 := ⟨hvisible, hfading⟩
  obtain ⟨e, he, _, _, hindex, hdraw⟩ := digits_drawn_from_sheet hm hkept hw hv hn .free random
  have hx : s.reg w.x = 7 := hwx ▸ hvalue
  rw [hx] at hindex hdraw
  obtain ⟨e', he', _, hsolid, hflag⟩ := hdraw (by decide) .free random
  have hcovered : Font.Covers 7 (s.reg v.x).toNat (s.reg v.y).toNat 10 0 := by
    rw [hvx, hvy, hvalue, hrow]
    exact ⟨1, by decide, 3, by decide, ⟨0x10, by decide, by decide⟩, by decide, by decide⟩
  refine ⟨hm, hstores, hkept, hw, hv, hn, hx, hcorner, e, he, hindex, e', he', ?_, ?_⟩
  · intro h
    exact (hsolid 10 0).mp h (iff_of_true hcorner hcovered)
  · rcases hflag with ⟨h, _⟩ | ⟨_, hnone⟩
    · exact h
    · exact absurd ⟨10, 0, hcorner, hcovered⟩ hnone

end Machine

end ChipEight
