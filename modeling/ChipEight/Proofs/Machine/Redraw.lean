import Mathlib.Data.List.Induction
import ChipEight.Proofs.Instruction.Table
import ChipEight.Proofs.Machine.Commands
import ChipEight.Proofs.Memory.Wrapping
import ChipEight.Proofs.Screen.Sprite

namespace ChipEight

/-!
# The viewer is never behind

A screen is stale from the first command that may have changed its visible pixels up
to the next tick, which hands it out. While it is not stale, the last frame handed out
is what is visible.
-/

namespace Grid

theorem isBlank_stamp_eq_false_iff (x y : Nat) {sprite : List UInt8}
    (hlen : sprite.length ≤ 32) :
    (stamp x y sprite).isBlank = false ↔
      ∃ k, ∃ hk : k < sprite.length, ∃ b < 8, sprite[k].toNat.testBit b = true := by
  rw [isBlank_eq_false_iff]
  constructor
  · rintro ⟨c, r, hlit⟩
    obtain ⟨k, hk, b, hb, hbit, _, _⟩ := (lit_stamp_iff x y hlen c r).mp hlit
    exact ⟨k, hk, 7 - b, by omega, hbit⟩
  · rintro ⟨k, hk, b, hb, hbit⟩
    have hflip : 7 - (7 - b) = b := by omega
    refine ⟨⟨(x + (7 - b)) % 64, Nat.mod_lt _ (by decide)⟩,
      ⟨(y + k) % 32, Nat.mod_lt _ (by decide)⟩, (lit_stamp_iff x y hlen _ _).mpr ?_⟩
    exact ⟨k, hk, 7 - b, by omega, by rwa [hflip], rfl, rfl⟩

end Grid

namespace Screen

theorem visible_draw_of_not_stale {s : Screen} {x y : Nat} {sprite : List UInt8}
    (h : (s.draw x y sprite).stale = false) : (s.draw x y sprite).visible = s.visible := by
  have hstale := (s.stale_draw_iff x y sprite).not.mp (by simp [h])
  simp only [not_or, Bool.not_eq_false] at hstale
  obtain ⟨_, hnone, hblank⟩ := hstale
  -- the sprite is blank and no lit pixel was fading, so the flush removes nothing
  ext c r
  have himage := (Grid.isBlank_iff _).mp hblank c r
  have hfading : ¬(s.visible.lit c r = true ∧ s.fading.lit c r = true) :=
    fun hc => hnone ⟨c, r, hc⟩
  simp only [draw, Grid.lit_or, lit_solid, himage, Bool.or_false]
  revert hfading
  generalize s.visible.lit c r = v
  generalize s.fading.lit c r = f
  revert v f
  decide

end Screen

namespace Machine

def word (m : Machine) : Word := m.state.memory.wordAt m.state.counter.toNat

theorem word_eq_fetch (m : Machine) : m.word = m.state.fetch := m.state.fetch_eq_wordAt.symm

def SpriteHasBit (m : Machine) (rows : Nat) : Prop :=
  ∃ r < rows, ∃ b < 8,
    (m.state.memory.byteAt (m.state.index.toNat + r)).toNat.testBit b = true

/-- A command that is obeyed and calls for the screen to be handed out again. -/
def Redraws (m : Machine) (c : Command) : Prop :=
  (m.obey c).result = .ok () ∧
  match c with
  | .reset | .load _ => True
  | .step =>
    m.word.group.val = 0x0 ∧ m.word.nn = 0xE0 ∨
    m.word.group.val = 0xD ∧
      ((∃ x y, m.state.screen.visible.lit x y = true ∧ m.state.screen.fading.lit x y = true) ∨
        m.SpriteHasBit m.word.n.val)
  | .tick | .press _ | .release _ => False

/-- A step blanks the screen, draws on it or leaves it alone. -/
theorem screen_step_cases (m : Machine) :
    m.word.Encodes .clear ∧ m.step.result = .ok () ∧ m.step.machine.state.screen = .dark ∨
    (∃ x y rows, m.word.Encodes (.draw x y rows) ∧ m.step.result = .ok () ∧
      m.step.machine.state.screen = m.state.screen.draw (m.state.reg x).toNat
        (m.state.reg y).toNat (m.state.memory.readList m.state.index rows.val)) ∨
    (∀ i, m.word.Encodes i → ¬i.Paints) ∧ m.step.machine.state.screen = m.state.screen := by
  rw [word_eq_fetch]
  have henc := fun i => Instruction.ofWord?_eq_some_iff m.state.fetch i
  rcases m.step_cases with ⟨hi, hs⟩ | ⟨i, f, hi, he, hs⟩ | ⟨i, e, hi, he, hs⟩
  · right; right
    refine ⟨?_, by rw [hs]; rfl⟩
    intro i hw
    rw [(henc i).mpr hw] at hi
    cases hi
  · right; right
    refine ⟨?_, by rw [hs]; rfl⟩
    intro j hw hp
    obtain rfl : i = j := Option.some.inj (hi.symm.trans ((henc j).mpr hw))
    rcases (Instruction.execute_eq_error_iff i _ _ _ f).mp he with ⟨rfl, _⟩ | ⟨⟨t, rfl⟩, _⟩
    · exact hp
    · exact hp
  · by_cases hp : i.Paints
    · cases i with
      | clear =>
          left
          cases he
          exact ⟨(henc _).mp hi, by rw [hs], by rw [hs]⟩
      | draw x y rows =>
          right; left
          cases he
          exact ⟨x, y, rows, (henc _).mp hi, by rw [hs], by rw [hs]; rfl⟩
      | _ => exact hp.elim
    · right; right
      refine ⟨?_, ?_⟩
      · intro j hw
        obtain rfl : i = j := Option.some.inj (hi.symm.trans ((henc j).mpr hw))
        exact hp
      · have hsame : e.state.screen = m.past.state.screen := Instruction.screen_of_execute hp he
        rw [hs]
        exact hsame

theorem encodes_draw_iff (w : Word) :
    (∃ x y rows, w.Encodes (.draw x y rows)) ↔ w.group.val = 0xD := by
  constructor
  · rintro ⟨x, y, rows, hg, _⟩
    exact hg
  · intro hg
    exact ⟨w.x, w.y, w.n, hg, rfl, rfl, rfl⟩

theorem isBlank_sprite_iff (m : Machine) (x y : Nat) (rows : Fin 16) :
    (Grid.stamp x y (m.state.memory.readList m.state.index rows.val)).isBlank = false ↔
      m.SpriteHasBit rows.val := by
  have hlen : (m.state.memory.readList m.state.index rows.val).length ≤ 32 := by
    rw [Memory.length_readList]
    omega
  rw [Grid.isBlank_stamp_eq_false_iff x y hlen]
  simp only [SpriteHasBit, Memory.length_readList, Memory.getElem_readList,
    Memory.read_add_eq_byteAt, exists_prop]

theorem stale_step_iff (m : Machine) :
    m.step.machine.state.screen.stale = true ↔
      m.state.screen.stale = true ∨ m.Redraws .step := by
  rcases m.screen_step_cases with ⟨hw, hr, hs⟩ | ⟨x, y, rows, hw, hr, hs⟩ | ⟨hw, hs⟩
  · have hredraws : m.Redraws .step := ⟨hr, Or.inl hw⟩
    simp [hs, hredraws, Screen.dark]
  · obtain ⟨hg, _, _, rfl⟩ := hw
    have hnot : ¬(0xD : Nat) = 0x0 := by decide
    rw [hs, Screen.stale_draw_iff, isBlank_sprite_iff]
    simp only [Redraws, obey, hr, hg, hnot, true_and, false_and, false_or]
  · have hredraws : ¬m.Redraws .step := by
      rintro ⟨_, ⟨hg, hnn⟩ | ⟨hg, _⟩⟩
      · exact hw .clear ⟨hg, hnn⟩ trivial
      · obtain ⟨x, y, rows, hd⟩ := (encodes_draw_iff _).mpr hg
        exact hw _ hd trivial
    simp [hs, hredraws]

/-- Only a tick makes a stale screen fresh, and exactly the commands that redraw make a fresh
one stale. -/
theorem stale_obey_iff (m : Machine) (c : Command) :
    (m.obey c).machine.state.screen.stale = true ↔
      c ≠ .tick ∧ (m.state.screen.stale = true ∨ m.Redraws c) := by
  cases c with
  | load program =>
      simp only [obey, load, Redraws]
      by_cases hfits : program.length ≤ programRoom
      · simp [hfits, State.withProgram, State.powerOn, Screen.dark]
      · simp [hfits]
  | reset => simp [obey, reset, Redraws, State.powerOn, Screen.dark]
  | step => simpa [obey] using m.stale_step_iff
  | tick =>
      cases h : m.state.screen.stale <;>
        simp [obey, tick, h, State.countDown, State.shown, Screen.shown]
  | press code | release code =>
      simp only [obey, setKey, Redraws]
      split <;> simp

theorem visible_obey_of_not_stale {m : Machine} {c : Command} (hc : c ≠ .tick)
    (h : (m.obey c).machine.state.screen.stale = false) :
    (m.obey c).machine.state.screen.visible = m.state.screen.visible := by
  cases c with
  | load program =>
      simp only [obey, load] at h ⊢
      by_cases hfits : program.length ≤ programRoom
      · rw [if_pos hfits] at h
        cases h
      · rw [if_neg hfits]
  | reset => cases h
  | step =>
      simp only [obey] at h ⊢
      rcases m.screen_step_cases with ⟨_, _, hs⟩ | ⟨x, y, rows, _, _, hs⟩ | ⟨_, hs⟩
      · rw [hs] at h
        cases h
      · rw [hs] at h ⊢
        exact Screen.visible_draw_of_not_stale h
      · rw [hs]
  | tick => exact absurd rfl hc
  | press code | release code =>
      simp only [obey, setKey]
      split <;> rfl

theorem visible_tick (m : Machine) :
    m.tick.machine.state.screen.visible = m.state.screen.visible := by
  unfold tick
  split <;> rfl

/-- Some command that no tick has followed yet, and that is none itself, satisfies `p`, which is
told the commands before it. -/
def SinceTick (p : List Command → Command → Prop) (commands : List Command) : Prop :=
  ∃ first c rest, commands = first ++ c :: rest ∧ .tick ∉ c :: rest ∧ p first c

theorem sinceTick_append_singleton (p : List Command → Command → Prop)
    (commands : List Command) (c : Command) :
    SinceTick p (commands ++ [c]) ↔ c ≠ .tick ∧ (SinceTick p commands ∨ p commands c) := by
  constructor
  · rintro ⟨first, d, rest, heq, hnone, hp⟩
    rcases Command.split_append_singleton heq with ⟨rfl, rfl, rfl⟩ | ⟨rest, rfl, rfl⟩
    · exact ⟨fun hc => hnone (by simp [hc]), Or.inr hp⟩
    · refine ⟨fun hc => hnone (by simp [hc]), Or.inl ⟨first, d, rest, rfl, ?_, hp⟩⟩
      intro hmem
      rw [← List.cons_append] at hnone
      exact hnone (List.mem_append_left _ hmem)
  · rintro ⟨hc, ⟨first, d, rest, rfl, hnone, hp⟩ | hp⟩
    · refine ⟨first, d, rest ++ [c], by simp, ?_, hp⟩
      simp only [List.mem_cons, List.mem_append, not_or] at hnone ⊢
      exact ⟨hnone.1, hnone.2, Ne.symm hc, List.not_mem_nil⟩
    · refine ⟨commands, c, [], rfl, ?_, hp⟩
      simpa using Ne.symm hc

theorem stale_after_powerOn_iff (random : Generator) (commands : List Command) :
    ((powerOn random).after commands).state.screen.stale = true ↔
      .tick ∉ commands ∨
        SinceTick (fun first c => ((powerOn random).after first).Redraws c) commands := by
  induction commands using List.reverseRecOn with
  | nil => simp [powerOn, State.powerOn, Screen.dark]
  | append_singleton commands c ih =>
      -- a tick as the last command falsifies both sides, any other adds what it redraws
      rw [after_append_singleton, stale_obey_iff, ih, sinceTick_append_singleton]
      simp only [List.mem_append, List.mem_singleton, not_or, ne_eq, eq_comm]
      tauto

theorem getLast?_shownBy_of_not_stale (random : Generator) {commands : List Command}
    (h : ((powerOn random).after commands).state.screen.stale = false) :
    ((powerOn random).shownBy commands).getLast? =
      some ((powerOn random).after commands).state.screen.visible := by
  induction commands using List.reverseRecOn with
  | nil => cases h
  | append_singleton commands c ih =>
      rw [after_append_singleton] at h ⊢
      rw [shownBy_append_singleton]
      by_cases hc : c = .tick
      · -- the tick hands the screen out, or it was fresh before and is handed out already
        subst hc
        rw [obey, visible_tick, frames_tick]
        cases hstale : ((powerOn random).after commands).state.screen.stale with
        | true => simp
        | false => simpa using ih hstale
      · have hold := (stale_obey_iff ((powerOn random).after commands) c).not.mp (by simp [h])
        have hstale : ((powerOn random).after commands).state.screen.stale = false := by
          by_contra hs
          exact hold ⟨hc, Or.inl (by simpa using hs)⟩
        rw [frames_obey_of_ne_tick _ hc, List.append_nil, visible_obey_of_not_stale hc h]
        exact ih hstale

/-- After any commands from power-on: a fresh screen has been handed out as it is, and so has any
screen behind a tick; only ticks hand out frames, one at most, and a tick does so exactly if the
machine has not ticked before or has been put back, loaded, cleared or drawn on since. -/
theorem frames_of_ticks (random : Generator) (commands : List Command) :
    let m := powerOn random
    ((m.after commands).state.screen.stale = false →
      (m.shownBy commands).getLast? = some (m.after commands).state.screen.visible) ∧
    (m.shownBy (commands ++ [.tick])).getLast? =
      some (m.after (commands ++ [.tick])).state.screen.visible ∧
    (∀ c, c ≠ .tick → ((m.after commands).obey c).frames = []) ∧
    ((m.after commands).obey .tick).frames.length ≤ 1 ∧
    (((m.after commands).obey .tick).frames ≠ [] ↔
      .tick ∉ commands ∨ SinceTick (fun first c => (m.after first).Redraws c) commands) := by
  intro m
  refine ⟨getLast?_shownBy_of_not_stale random, ?_, ?_, ?_, ?_⟩
  · apply getLast?_shownBy_of_not_stale
    rw [after_append_singleton, ← Bool.not_eq_true, stale_obey_iff]
    simp
  · intro c hc
    exact frames_obey_of_ne_tick _ hc
  · rw [obey, frames_tick]
    split <;> simp
  · rw [← stale_after_powerOn_iff, obey, frames_tick]
    split <;> simp [*, m]

theorem frames_of_ticks_of_digit :
    let random : Generator := ⟨Vector.replicate 8 0, 0⟩
    let commands := [.load [0xD0, 0x05], .step, .tick]
    ((powerOn random).after commands).state.screen.stale = false ∧ Command.step ≠ .tick ∧
      ((powerOn random).shownBy commands).getLast? =
        some ((powerOn random).after commands).state.screen.visible ∧
      (((powerOn random).after commands).obey .step).frames = [] := by
  intro random commands
  have hfresh : ((powerOn random).after commands).state.screen.stale = false := by
    have hsplit : commands = [.load [0xD0, 0x05], .step] ++ [.tick] := rfl
    rw [hsplit, after_append_singleton, ← Bool.not_eq_true, stale_obey_iff]
    simp
  have hstep : Command.step ≠ .tick := by decide
  obtain ⟨hlast, _, hnone, _⟩ := frames_of_ticks random commands
  exact ⟨hfresh, hstep, hlast hfresh, hnone .step hstep⟩

end Machine

end ChipEight
