import Mathlib.Data.Bool.Basic
import Mathlib.Data.List.Pairwise
import ChipEight.Proofs.Classic.Machine
import ChipEight.Proofs.Instruction.Effects
import ChipEight.Proofs.Screen.Sprite

namespace ChipEight.Classic

/-!
# Fading cannot be noticed

A machine with fading pixels and one with a single screen, lit where the other is
solid, answer every command alike. Drawing is the only place where the two differ: the
flushed screen, the marks of the pixels a sprite leaves dark and the test for a
collision are compared with turning pixels over one by one.
-/

theorem foldl_toggle_iff {touched : List Pixel} (h : touched.Nodup) (lit : Pixels) (q : Pixel) :
    touched.foldl toggle lit q = true ↔ (lit q = true ↔ q ∉ touched) := by
  induction touched generalizing lit with
  | nil => simp
  | cons p rest ih =>
      -- the first pixel is not turned over a second time
      obtain ⟨hp, hrest⟩ := List.nodup_cons.mp h
      rw [List.foldl_cons, ih hrest]
      by_cases hq : q = p
      · subst hq
        simp [toggle, hp]
      · simp [toggle, hq]

theorem nodup_dots (memory : Memory) (address x y : Nat) (rows : Fin 16) :
    (dots memory address x y rows.val).Nodup := by
  have hrows := rows.isLt
  exact Grid.nodup_places x y (by omega) fun _ => List.filter_sublist

theorem mem_dots_iff (memory : Memory) (index : UInt16) (x y : Nat) (rows : Fin 16)
    (p : Pixel) :
    p ∈ dots memory index.toNat x y rows.val ↔
      (Grid.stamp x y (memory.readList index rows.val)).lit p.1 p.2 = true := by
  have hlen : (memory.readList index rows.val).length ≤ 32 := by
    rw [Memory.length_readList]
    omega
  rw [Grid.lit_stamp_iff x y hlen]
  simp only [dots, List.mem_flatMap, List.mem_map, List.mem_filter, List.mem_range,
    Memory.length_readList, Memory.getElem_readList, Memory.read_add_eq_byteAt, Prod.ext_iff,
    Fin.ext_iff, exists_prop]
  constructor
  · rintro ⟨r, hr, b, ⟨hb, hbit⟩, hc, hrow⟩
    exact ⟨r, hr, b, hb, hbit, hc.symm, hrow.symm⟩
  · rintro ⟨r, hr, b, hb, hbit, hc, hrow⟩
    exact ⟨r, hr, b, ⟨hb, hbit⟩, hc.symm, hrow.symm⟩

def solidPixels (s : Screen) : Pixels := fun p => s.solid.lit p.1 p.2

theorem solidPixels_dark : solidPixels .dark = fun _ => false := by
  funext p
  simp [solidPixels]

theorem solidPixels_draw (s : Screen) (memory : Memory) (index : UInt16) (x y : Nat)
    (rows : Fin 16) :
    solidPixels (s.draw x y (memory.readList index rows.val)) =
      (dots memory index.toNat x y rows.val).foldl toggle (solidPixels s) := by
  funext p
  have hmem := mem_dots_iff memory index x y rows p
  rw [Bool.eq_iff_iff, foldl_toggle_iff (nodup_dots memory index.toNat x y rows), hmem]
  simp only [solidPixels, Screen.solid_draw, Grid.lit_xor]
  exact (Bool.coe_xor_iff _ _).trans xor_iff_iff_not

theorem any_dots (s : Screen) (memory : Memory) (index : UInt16) (x y : Nat) (rows : Fin 16) :
    (dots memory index.toNat x y rows.val).any (solidPixels s) =
      s.collides x y (memory.readList index rows.val) := by
  rw [Bool.eq_iff_iff, List.any_eq_true, Screen.collides_iff]
  constructor
  · rintro ⟨p, hp, hlit⟩
    exact ⟨p.1, p.2, hlit, (mem_dots_iff memory index x y rows p).mp hp⟩
  · rintro ⟨c, r, hlit, hstamp⟩
    exact ⟨(c, r), (mem_dots_iff memory index x y rows (c, r)).mpr hstamp, hlit⟩

namespace State

def ofState (s : ChipEight.State) : State := .ofCore s (solidPixels s.screen)

theorem draw_ofState (s : ChipEight.State) (x y : Reg) (rows : Fin 16) :
    (ofState s).draw x y rows = ofState (s.draw x y rows) := by
  simp only [draw, ofState, ofCore, ChipEight.State.draw, ChipEight.State.setReg,
    ChipEight.State.reg, solidPixels_draw, any_dots]
  rfl

theorem clear_ofState (s : ChipEight.State) :
    (ofState s).clear = ofState { s with screen := .dark } := by
  simp only [clear, ofState, ofCore, solidPixels_dark]

end State

/-- A machine with the solid pixels of another as its only screen. -/
def Machine.ofMachine (m : ChipEight.Machine) : Machine := ⟨.ofState m.state, m.keys, m.random⟩

def Reply.ofReply (r : ChipEight.Reply) : Reply :=
  ⟨.ofMachine r.machine, r.output.filter fun o => o.frame?.isNone, r.result⟩

namespace Reply

theorem records_ofReply (r : ChipEight.Reply) : (ofReply r).records = r.records := by
  simp only [records, ofReply, ChipEight.Reply.records, List.filterMap_filter]
  congr 1
  funext o
  cases o <;> rfl

theorem beeps_ofReply (r : ChipEight.Reply) : (ofReply r).beeps = r.beeps := by
  simp only [beeps, ofReply, ChipEight.Reply.beeps, List.filterMap_filter]
  congr 1
  funext o
  cases o <;> rfl

end Reply

namespace Machine

theorem fetch_ofMachine (m : ChipEight.Machine) : (ofMachine m).fetch = m.state.fetch :=
  m.state.fetch_eq_wordAt.symm

theorem past_ofMachine (m : ChipEight.Machine) : (ofMachine m).past = ofMachine m.past := rfl

theorem fetched_ofMachine (m : ChipEight.Machine) : (ofMachine m).fetched = m.fetched := by
  rw [fetched, fetch_ofMachine]
  rfl

theorem filter_output (e : Effect) : (e.output.filter fun o => o.frame?.isNone) = e.output := by
  rcases e with ⟨s, g, _ | d, _ | x⟩ <;> rfl

/-- Whatever an instruction other than clearing and drawing does before a dark screen, it does
before any, and leaves that screen alone. -/
theorem performCore_ofMachine (m : ChipEight.Machine) {i : Instruction} (hi : ¬i.Paints) :
    (ofMachine m).performCore i = .ofReply (m.perform i) := by
  have hcore : (ofMachine m).past.state.core = m.past.state.withScreen .dark := rfl
  have hkeys : (ofMachine m).keys = m.keys := rfl
  have hrandom : (ofMachine m).random = m.random := rfl
  rw [performCore, hcore, hkeys, hrandom, Instruction.execute_withScreen hi, fetched_ofMachine,
    past_ofMachine]
  cases he : i.execute m.keys m.random m.past.state with
  | error f =>
      rw [ChipEight.Machine.perform_of_error he]
      rfl
  | ok e =>
      have hs : e.state.screen = m.past.state.screen := Instruction.screen_of_execute hi he
      have hstate : State.ofCore e.state (ofMachine m).state.screen = .ofState e.state := by
        rw [State.ofState, hs]
        rfl
      rw [ChipEight.Machine.perform_of_ok he]
      simp only [Except.map, Reply.ofReply]
      congr 1
      · exact congrArg (fun s => (⟨s, m.keys, e.random⟩ : Machine)) hstate
      · exact congrArg (m.fetched :: ·) (filter_output e).symm

theorem perform_of_not_paints (m : Machine) {i : Instruction} (hi : ¬i.Paints) :
    m.perform i = m.performCore i := by
  cases i with
  | clear => exact absurd trivial hi
  | draw x y rows => exact absurd trivial hi
  | _ => rfl

theorem perform_ofMachine (m : ChipEight.Machine) (i : Instruction) :
    (ofMachine m).perform i = .ofReply (m.perform i) := by
  by_cases hi : i.Paints
  · cases i with
    | clear =>
        have hclear : (ofMachine m.past).state.clear = _ := State.clear_ofState m.past.state
        rw [perform, past_ofMachine, fetched_ofMachine, hclear]
        rfl
    | draw x y rows =>
        have hdraw : (ofMachine m.past).state.draw x y rows = _ :=
          State.draw_ofState m.past.state x y rows
        rw [perform, past_ofMachine, fetched_ofMachine, hdraw]
        rfl
    | _ => exact hi.elim
  · rw [perform_of_not_paints _ hi]
    exact performCore_ofMachine m hi

theorem step_ofMachine (m : ChipEight.Machine) : (ofMachine m).step = .ofReply m.step := by
  rw [step, fetch_ofMachine]
  cases hi : Instruction.ofWord? m.state.fetch with
  | none =>
      rw [ChipEight.Machine.step_of_none hi]
      simp only [reject, fetch_ofMachine, past_ofMachine, fetched_ofMachine]
      rfl
  | some i =>
      rw [ChipEight.Machine.step_of_some hi]
      exact perform_ofMachine m i

theorem obey_ofMachine (m : ChipEight.Machine) (c : Command) :
    (ofMachine m).obey c = .ofReply (m.obey c) := by
  cases c with
  | load program =>
      simp only [obey, load, ChipEight.Machine.obey, ChipEight.Machine.load, ← solidPixels_dark]
      split <;> rfl
  | reset =>
      simp only [obey, reset, ← solidPixels_dark]
      rfl
  | step => exact step_ofMachine m
  | tick =>
      simp only [ChipEight.Machine.obey, ChipEight.Machine.tick]
      cases m.state.screen.stale <;> rfl
  | press code | release code =>
      simp only [obey, setKey, ChipEight.Machine.obey, ChipEight.Machine.setKey]
      cases Keypad.key? code <;> rfl

theorem after_ofMachine (m : ChipEight.Machine) (commands : List Command) :
    (ofMachine m).after commands = ofMachine (m.after commands) := by
  induction commands generalizing m with
  | nil => rfl
  | cons c rest ih =>
      have hc : ((ofMachine m).obey c).machine = ofMachine (m.obey c).machine :=
        congrArg Reply.machine (obey_ofMachine m c)
      rw [ChipEight.Machine.after_cons, ← ih, ← hc]
      rfl

/-- Two machines agree if only the screens differ, and the single screen is lit where the
other one is lit and not fading. -/
structure Agrees (m : ChipEight.Machine) (c : Machine) : Prop where
  registers : c.state.registers = m.state.registers
  index : c.state.index = m.state.index
  counter : c.state.counter = m.state.counter
  calls : c.state.calls = m.state.calls
  delay : c.state.delay = m.state.delay
  memory : c.state.memory = m.state.memory
  screen : ∀ x y, c.state.screen (x, y) =
    (m.state.screen.visible.lit x y && !m.state.screen.fading.lit x y)
  keys : c.keys = m.keys
  random : c.random = m.random

theorem agrees_ofMachine (m : ChipEight.Machine) : Agrees m (ofMachine m) where
  registers := rfl
  index := rfl
  counter := rfl
  calls := rfl
  delay := rfl
  memory := rfl
  screen := fun x y => m.state.screen.lit_solid x y
  keys := rfl
  random := rfl

theorem Agrees.eq_ofMachine {m : ChipEight.Machine} {c : Machine} (h : Agrees m c) :
    c = ofMachine m := by
  obtain ⟨⟨registers, index, counter, calls, delay, memory, screen⟩, keys, random⟩ := c
  have hscreen : screen = solidPixels m.state.screen := by
    funext p
    exact (h.screen p.1 p.2).trans (m.state.screen.lit_solid p.1 p.2).symm
  obtain rfl : registers = m.state.registers := h.registers
  obtain rfl : index = m.state.index := h.index
  obtain rfl : counter = m.state.counter := h.counter
  obtain rfl : calls = m.state.calls := h.calls
  obtain rfl : delay = m.state.delay := h.delay
  obtain rfl : memory = m.state.memory := h.memory
  obtain rfl : keys = m.keys := h.keys
  obtain rfl : random = m.random := h.random
  subst hscreen
  rfl

theorem agrees_powerOn (random : Generator) :
    Agrees (.powerOn random) (powerOn random) := by
  have h : powerOn random = ofMachine (.powerOn random) := by
    simp only [powerOn, ← solidPixels_dark]
    rfl
  rw [h]
  exact agrees_ofMachine _

/-- From power-on, and from any two machines that agree, a machine with fading pixels and one
with a single screen go through every list of commands with the same results, records, beeps
and random bytes, and agree after each of them. -/
theorem single_screen_simulation :
    (∀ random, Agrees (.powerOn random) (powerOn random)) ∧
    ∀ (m : ChipEight.Machine) (c : Machine), Agrees m c → ∀ commands next,
      Agrees (m.after commands) (c.after commands) ∧
      ((c.after commands).obey next).result = ((m.after commands).obey next).result ∧
      ((c.after commands).obey next).beeps = ((m.after commands).obey next).beeps ∧
      ((c.after commands).obey next).records = ((m.after commands).obey next).records ∧
      (c.after commands).drawnBy next = (m.after commands).drawnBy next ∧
      Agrees ((m.after commands).obey next).machine ((c.after commands).obey next).machine := by
  refine ⟨agrees_powerOn, ?_⟩
  intro m c h commands next
  rw [h.eq_ofMachine, after_ofMachine]
  generalize m.after commands = a
  have hreply := obey_ofMachine a next
  refine ⟨agrees_ofMachine a, ?_, ?_, ?_, ?_, ?_⟩
  · exact congrArg Reply.result hreply
  · rw [hreply]
    exact Reply.beeps_ofReply _
  · rw [hreply]
    exact Reply.records_ofReply _
  · rw [drawnBy, hreply]
    rfl
  · rw [hreply]
    exact agrees_ofMachine _

theorem single_screen_simulation_of_fading :
    let random : Generator := ⟨Vector.replicate 8 0, 0⟩
    let pixel := Grid.stamp 63 31 [0x80]
    let m : ChipEight.Machine :=
      { ChipEight.Machine.powerOn random with
        state := ChipEight.State.powerOn.withScreen ⟨pixel, pixel, false⟩ }
    let commands := [.load [0xD0, 0x05, 0xD0, 0x05], .step, .tick]
    Agrees m (powerOn random) ∧
      Agrees (m.after commands) ((powerOn random).after commands) ∧
      (((powerOn random).after commands).obey .step).result =
        ((m.after commands).obey .step).result := by
  intro random pixel m commands
  have h : Agrees m (powerOn random) :=
    ⟨rfl, rfl, rfl, rfl, rfl, rfl, fun x y => (Bool.and_not_self _).symm, rfl, rfl⟩
  have hrun := single_screen_simulation.2 m (powerOn random) h commands .step
  exact ⟨h, hrun.1, hrun.2.1⟩

end Machine

end ChipEight.Classic
