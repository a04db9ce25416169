import ChipEight.Proofs.Instruction.Table
import ChipEight.Proofs.Memory.Window
import ChipEight.Proofs.Memory.Wrapping

namespace ChipEight

/-!
# Registers and digits in memory

Two words write to memory from where the index register points, registers or the decimal
digits of one, and one word loads registers from there. The window of at most sixteen
bytes covers no cell twice, even around the end of memory or of the addresses, so what was
written is what is loaded.
-/

namespace Memory

variable (m : Memory) (a : UInt16)

theorem byteAt_writeList_of_getElem? {bytes : List UInt8} {k : Nat} {b : UInt8}
    (h : bytes[k]? = some b) (fits : bytes.length ≤ 4096) :
    (m.writeList a bytes).byteAt (a.toNat + k) = b := by
  obtain ⟨hk, rfl⟩ := List.getElem?_eq_some_iff.mp h
  rw [← read_add_eq_byteAt]
  exact get_writeList_add hk fits

theorem byteAt_writeList_behind {bytes : List UInt8} {k : Nat} (hk : bytes.length ≤ k)
    (hlast : k < 4096) : (m.writeList a bytes).byteAt (a.toNat + k) = m.byteAt (a.toNat + k) := by
  apply get_writeList_of_not_window
  rintro ⟨j, hj, heq⟩
  simp only at heq
  omega

theorem write_read : m.write a (m.read a) = m := by
  apply Memory.ext
  intro c
  rw [write, get_set]
  split
  case isTrue h => rw [← h, read]
  case isFalse => rfl

/-- Writing back what was read changes nothing. -/
theorem writeList_readList (count : Nat) : m.writeList a (m.readList a count) = m := by
  induction count generalizing a with
  | zero => rfl
  | succ count ih => rw [readList, writeList, write_read, ih]

end Memory

namespace State

variable (s : State) (x : Reg)

theorem reg_eq_iff_getElem? (k : Reg) (b : UInt8) : s.reg k = b ↔ s.registers[k.val]? = some b := by
  rw [Vector.getElem?_eq_getElem k.isLt, Option.some.injEq]
  rfl

theorem byteAt_save {k : Reg} (hk : k ≤ x) :
    (s.memory.writeList s.index (s.regsUpTo x)).byteAt (s.index.toNat + k.val) = s.reg k := by
  have hlen := s.length_regsUpTo x
  have hx := x.isLt
  apply Memory.byteAt_writeList_of_getElem?
  · exact (s.getElem?_regsUpTo x k.val _).mpr ⟨hk, (s.reg_eq_iff_getElem? k _).mp rfl⟩
  · omega

theorem byteAt_save_behind {k : Reg} (hk : x < k) :
    (s.memory.writeList s.index (s.regsUpTo x)).byteAt (s.index.toNat + k.val) =
      s.memory.byteAt (s.index.toNat + k.val) := by
  have hlt := k.isLt
  apply Memory.byteAt_writeList_behind
  · rw [length_regsUpTo]
    exact hk
  · omega

theorem loadRegs_eq : s.loadRegs x = { s with registers := (s.loadRegs x).registers } := by
  rw [loadRegs]

theorem memory_loadRegs : (s.loadRegs x).memory = s.memory := by
  rw [loadRegs]

theorem index_loadRegs : (s.loadRegs x).index = s.index := by
  rw [loadRegs]

theorem reg_loadRegs_of_le {k : Reg} (hk : k ≤ x) :
    (s.loadRegs x).reg k = s.memory.byteAt (s.index.toNat + k.val) := by
  rw [reg_loadRegs, if_pos (Fin.le_def.mp hk), Memory.read_add_eq_byteAt]

theorem reg_loadRegs_of_lt {k : Reg} (hk : x < k) : (s.loadRegs x).reg k = s.reg k := by
  rw [reg_loadRegs, if_neg (Nat.not_le.mpr hk)]

theorem regsUpTo_loadRegs :
    (s.loadRegs x).regsUpTo x = s.memory.readList s.index (x.val + 1) := by
  apply List.ext_getElem
  · rw [length_regsUpTo, Memory.length_readList]
  · intro k hk _
    rw [length_regsUpTo] at hk
    have hle : k ≤ x.val := Nat.le_of_lt_succ hk
    simp only [regsUpTo, loadRegs, List.getElem_take, Vector.getElem_toList, Vector.getElem_ofFn,
      Memory.getElem_readList, if_pos hle]

end State

namespace Word

variable {w : Word} (keys : Keypad) (random : Generator) (s : State)

theorem Saves.executes (h : w.Saves) :
    w.Executes keys random s
      { state := { s with memory := s.memory.writeList s.index (s.regsUpTo w.x) }, random } :=
  ⟨_, h.ofWord?, rfl⟩

theorem Restores.executes (h : w.Restores) :
    w.Executes keys random s { state := s.loadRegs w.x, random } :=
  ⟨_, h.ofWord?, rfl⟩

theorem StoresDigits.executes (h : w.StoresDigits) :
    w.Executes keys random s
      { state := { s with memory := s.memory.writeList s.index (decimalDigits (s.reg w.x)) },
        random } :=
  ⟨_, h.ofWord?, rfl⟩

end Word

/-- Saving registers changes memory only and restoring changes registers only, so the index register
stays. What was saved is restored in any state that has the index register and the bytes of the
window, whatever else it holds. Restoring and saving again leaves memory as it was, and restoring
more registers than were saved gives the others the bytes that memory held behind the window. -/
theorem registers_saved_and_restored {w v : Word} (hw : w.Saves) (hv : v.Restores)
    (keys : Keypad) (random : Generator) (s : State) :
    (∃ e, w.Executes keys random s e ∧
      e.state = { s with memory := e.state.memory } ∧
      (v.x = w.x → ∀ keys' random' (t : State), t.index = e.state.index →
        (∀ k ≤ w.x.val, t.memory.byteAt (e.state.index.toNat + k) =
          e.state.memory.byteAt (e.state.index.toNat + k)) →
        ∃ e', v.Executes keys' random' t e' ∧
          e'.state = { t with registers := e'.state.registers } ∧
          (∀ k ≤ w.x, e'.state.reg k = s.reg k) ∧ ∀ k > w.x, e'.state.reg k = t.reg k) ∧
      (w.x ≤ v.x → ∀ keys' random', ∃ e', v.Executes keys' random' e.state e' ∧
        e'.state.index = s.index ∧ e'.state.memory = e.state.memory ∧
        (∀ k ≤ w.x, e'.state.reg k = s.reg k) ∧
        (∀ k > w.x, k ≤ v.x → e'.state.reg k = s.memory.byteAt (s.index.toNat + k.val)) ∧
        ∀ k > v.x, e'.state.reg k = s.reg k)) ∧
    (v.x = w.x → ∃ e, v.Executes keys random s e ∧ e.state.index = s.index ∧
      ∀ keys' random', ∃ e', w.Executes keys' random' e.state e' ∧ e'.state.index = s.index ∧
        e'.state.memory = s.memory) := by
  refine ⟨⟨_, hw.executes keys random s, rfl, ?_, ?_⟩, ?_⟩
  · intro hx keys' random' t hindex hbytes
    refine ⟨_, hv.executes keys' random' t, t.loadRegs_eq v.x, ?_, ?_⟩
    · intro k hk
      rw [State.reg_loadRegs_of_le t v.x (hx ▸ hk), hindex, hbytes k.val hk]
      exact s.byteAt_save w.x hk
    · intro k hk
      exact State.reg_loadRegs_of_lt t v.x (hx ▸ hk)
  · intro hle keys' random'
    refine ⟨_, hv.executes keys' random' _, State.index_loadRegs _ v.x,
      State.memory_loadRegs _ v.x, ?_, ?_, ?_⟩
    · intro k hk
      rw [State.reg_loadRegs_of_le _ v.x (hk.trans hle)]
      exact s.byteAt_save w.x hk
    · intro k hk hkv
      rw [State.reg_loadRegs_of_le _ v.x hkv]
      exact s.byteAt_save_behind w.x hk
    · intro k hk
      exact State.reg_loadRegs_of_lt _ v.x hk
  · intro hx
    refine ⟨_, hv.executes keys random s, s.index_loadRegs v.x, ?_⟩
    intro keys' random'
    refine ⟨_, hw.executes keys' random' (s.loadRegs v.x), ?_, ?_⟩
    · simp only [State.index_loadRegs]
    · simp only [State.memory_loadRegs, State.index_loadRegs, hx, State.regsUpTo_loadRegs,
        Memory.writeList_readList]

/-- Four registers are saved in the last two cells and the first two, over the digit 0, and restored
behind other values. The next two registers come from the digit. -/
theorem registers_saved_and_restored_around_end :
    let keys := Keypad.free
    let random : Generator := ⟨Vector.replicate 8 0, 0⟩
    let s := { (State.powerOn.setReg 0 7).setReg 3 9 with index := 0xFFFE }
    let w : Word := 0xF355
    let v : Word := 0xF365
    let u : Word := 0xF565
    w.Saves ∧ v.Restores ∧ v.x = w.x ∧ u.Restores ∧ w.x ≤ u.x ∧
      (∃ e, w.Executes keys random s e ∧
        ∃ e', v.Executes keys random { e.state with registers := Vector.replicate 16 0xAA } e' ∧
          e'.state.reg 0 = 7 ∧ e'.state.reg 3 = 9 ∧ e'.state.reg 4 = 0xAA) ∧
      ∃ e, w.Executes keys random s e ∧ ∃ e', u.Executes keys random e.state e' ∧
        e'.state.reg 3 = 9 ∧ e'.state.reg 4 = 0x90 ∧ e'.state.reg 6 = 0 := by
  intro keys random s w v u
  have hw : w.Saves := by decide
  have hv : v.Restores := by decide
  have hu : u.Restores := by decide
  have hx : v.x = w.x := by decide
  have hle : w.x ≤ u.x := by decide
  have hglyph : s.memory.byteAt (s.index.toNat + 4) = 0x90 := by decide +kernel
  refine ⟨hw, hv, hx, hu, hle, ?_, ?_⟩
  · obtain ⟨⟨e, he, _, hback, _⟩, _⟩ := registers_saved_and_restored hw hv keys random s
    obtain ⟨e', he', _, hregs, hother⟩ := hback hx keys random
      { e.state with registers := Vector.replicate 16 0xAA } rfl (fun _ _ => rfl)
    exact ⟨e, he, e', he', hregs 0 (by decide), hregs 3 (by decide), hother 4 (by decide)⟩
  · obtain ⟨⟨e, he, _, _, hmore⟩, _⟩ := registers_saved_and_restored hw hu keys random s
    obtain ⟨e', he', _, _, hregs, hbehind, hother⟩ := hmore hle keys random
    exact ⟨e, he, e', he', hregs 3 (by decide), (hbehind 4 (by decide) (by decide)).trans hglyph,
      hother 6 (by decide)⟩

/-- A byte has at most two hundreds, and its digits make it up. -/
theorem exists_decimalDigits_eq (b : UInt8) :
    ∃ h t o, decimalDigits b = [h, t, o] ∧ h ≤ 2 ∧ t ≤ 9 ∧ o ≤ 9 ∧
      100 * h.toNat + 10 * t.toNat + o.toNat = b.toNat := by
  have hb := b.toNat_lt
  refine ⟨b / 100, b / 10 % 10, b % 10, rfl, ?_, ?_, ?_, ?_⟩ <;>
    simp only [UInt8.le_iff_toNat_le, UInt8.toNat_div, UInt8.toNat_mod, UInt8.reduceToNat] <;>
    omega

theorem Word.StoresDigits.byteAt_eq {w : Word} (hw : w.StoresDigits) {keys : Keypad}
    {random : Generator} {s : State} {e : Effect} (he : w.Executes keys random s e) {k : Nat}
    {b : UInt8} (hb : (decimalDigits (s.reg w.x))[k]? = some b) :
    e.state.memory.byteAt (s.index.toNat + k) = b := by
  have hlen : (decimalDigits (s.reg w.x)).length = 3 := rfl
  obtain rfl := Except.ok.inj ((Word.executes_iff hw.ofWord? keys random s e).mp he)
  exact s.memory.byteAt_writeList_of_getElem? s.index hb (hlen ▸ by decide)

/-- The decimal digits of a register are stored in three cells, most significant first, and nothing
else changes. Loading them puts them into the first three registers, also if the register they came
from is one of these. Different values never give the same digits. -/
theorem decimal_digits_stored_and_loaded {w : Word} (hw : w.StoresDigits) :
    (∀ keys random (s : State), ∃ e h t o, w.Executes keys random s e ∧
      (h ≤ 2 ∧ t ≤ 9 ∧ o ≤ 9 ∧ 100 * h.toNat + 10 * t.toNat + o.toNat = (s.reg w.x).toNat) ∧
      e.state = { s with memory := e.state.memory } ∧
      (∀ c, ¬Memory.Window s.index.toNat 3 c → e.state.memory.get c = s.memory.get c) ∧
      e.state.memory.byteAt s.index.toNat = h ∧
      e.state.memory.byteAt (s.index.toNat + 1) = t ∧
      e.state.memory.byteAt (s.index.toNat + 2) = o ∧
      ∀ keys' random', ∃ e', Word.Executes 0xF265 keys' random' e.state e' ∧
        e'.state.reg 0 = h ∧ e'.state.reg 1 = t ∧ e'.state.reg 2 = o ∧
        (∀ k > 2, e'.state.reg k = s.reg k) ∧ e'.state.index = s.index ∧
        100 * (e'.state.reg 0).toNat + 10 * (e'.state.reg 1).toNat + (e'.state.reg 2).toNat =
          (s.reg w.x).toNat) ∧
    ∀ keys keys' random random' (s s' : State) e e', w.Executes keys random s e →
      w.Executes keys' random' s' e' → s.reg w.x ≠ s'.reg w.x →
      ∃ k < 3, e.state.memory.byteAt (s.index.toNat + k) ≠
        e'.state.memory.byteAt (s'.index.toNat + k) := by
  constructor
  · intro keys random s
    obtain ⟨h, t, o, hd, hh, ht, ho, hsum⟩ := exists_decimalDigits_eq (s.reg w.x)
    have he := hw.executes keys random s
    have hbyte := fun k b (hb : (decimalDigits (s.reg w.x))[k]? = some b) => hw.byteAt_eq he hb
    have hfirst := hbyte 0 h (by rw [hd]; rfl)
    have hsecond := hbyte 1 t (by rw [hd]; rfl)
    have hthird := hbyte 2 o (by rw [hd]; rfl)
    refine ⟨_, h, t, o, he, ⟨hh, ht, ho, hsum⟩, rfl, ?_, hfirst, hsecond, hthird, ?_⟩
    · intro c hc
      exact Memory.get_writeList_of_not_window hc
    · intro keys' random'
      have hv : Word.Restores 0xF265 := by decide
      let u := { s with memory := s.memory.writeList s.index (decimalDigits (s.reg w.x)) }
      have hload := hv.executes keys' random' u
      have hx : Word.x 0xF265 = 2 := by decide
      rw [hx] at hload
      -- What is loaded is what was stored, whichever register the digits came from.
      have hzero : (u.loadRegs 2).reg 0 = h := (u.reg_loadRegs_of_le 2 (by decide)).trans hfirst
      have hone : (u.loadRegs 2).reg 1 = t := (u.reg_loadRegs_of_le 2 (by decide)).trans hsecond
      have htwo : (u.loadRegs 2).reg 2 = o := (u.reg_loadRegs_of_le 2 (by decide)).trans hthird
      refine ⟨_, hload, hzero, hone, htwo, ?_, u.index_loadRegs 2, ?_⟩
      · intro k hk
        exact u.reg_loadRegs_of_lt 2 hk
      · simp only [hzero, hone, htwo, hsum]
  · intro keys keys' random random' s s' e e' he he' hne
    by_contra hsame
    simp only [not_exists, not_and, not_not] at hsame
    obtain ⟨h, t, o, hd, _, _, _, hsum⟩ := exists_decimalDigits_eq (s.reg w.x)
    obtain ⟨h', t', o', hd', _, _, _, hsum'⟩ := exists_decimalDigits_eq (s'.reg w.x)
    have hdigit : ∀ k < 3, ∀ b b',
        [h, t, o][k]? = some b → [h', t', o'][k]? = some b' → b = b' := by
      intro k hk b b' hb hb'
      rw [← hd] at hb
      rw [← hd'] at hb'
      rw [← hw.byteAt_eq he hb, hsame k hk, hw.byteAt_eq he' hb']
    obtain rfl := hdigit 0 (by decide) h h' rfl rfl
    obtain rfl := hdigit 1 (by decide) t t' rfl rfl
    obtain rfl := hdigit 2 (by decide) o o' rfl rfl
    exact hne (UInt8.toNat_inj.mp (hsum.symm.trans hsum'))

/-- The digits of register 2 go to the last cell and the first two, and come back over the register
that they were taken from. -/
theorem decimal_digits_stored_and_loaded_over_source :
    let keys := Keypad.free
    let random : Generator := ⟨Vector.replicate 8 0, 0⟩
    let s := { (State.powerOn.setReg 2 205).setReg 3 7 with index := 0xFFFF }
    let s' := s.setReg 2 105
    let w : Word := 0xF233
    w.StoresDigits ∧
      (∃ e, w.Executes keys random s e ∧ e.state.memory.get 4095 = 2 ∧ e.state.memory.get 0 = 0 ∧
        e.state.memory.get 1 = 5 ∧ e.state.memory.get 2 = 0x90 ∧
        ∃ e', Word.Executes 0xF265 keys random e.state e' ∧
          e'.state.reg 0 = 2 ∧ e'.state.reg 1 = 0 ∧ e'.state.reg 2 = 5 ∧ e'.state.reg 3 = 7) ∧
      ∀ e e', w.Executes keys random s e → w.Executes keys random s' e' →
        ∃ k < 3, e.state.memory.byteAt (s.index.toNat + k) ≠
          e'.state.memory.byteAt (s'.index.toNat + k) := by
  intro keys random s s' w
  have hw : w.StoresDigits := by decide
  have hvalue : (s.reg w.x).toNat = 205 := by decide
  have hne : s.reg w.x ≠ s'.reg w.x := by decide
  obtain ⟨hstored, hdiffer⟩ := decimal_digits_stored_and_loaded hw
  refine ⟨hw, ?_, fun e e' he he' => hdiffer keys keys random random s s' e e' he he' hne⟩
  obtain ⟨e, h, t, o, he, ⟨_, ht, ho, hsum⟩, _, hother, hfirst, hsecond, hthird, hback⟩ :=
    hstored keys random s
  obtain ⟨e', he', hzero, hone, htwo, hrest, _⟩ := hback keys random
  rw [hvalue] at hsum
  simp only [UInt8.le_iff_toNat_le, UInt8.reduceToNat] at ht ho
  obtain rfl : h = 2 := UInt8.toNat_inj.mp (by simp only [UInt8.reduceToNat]; omega)
  obtain rfl : t = 0 := UInt8.toNat_inj.mp (by simp only [UInt8.reduceToNat]; omega)
  obtain rfl : o = 5 := UInt8.toNat_inj.mp (by simp only [UInt8.reduceToNat]; omega)
  rw [Memory.byteAt_eq_get (c := 4095) (by decide)] at hfirst
  rw [Memory.byteAt_eq_get (c := 0) (by decide)] at hsecond
  rw [Memory.byteAt_eq_get (c := 1) (by decide)] at hthird
  have hkept : e.state.memory.get 2 = 0x90 := (hother 2 (by decide)).trans (by decide +kernel)
  exact ⟨e, he, hfirst, hsecond, hthird, hkept, e', he', hzero, hone, htwo, hrest 3 (by decide)⟩

end ChipEight
