import Mathlib.Data.List.Induction
import ChipEight.Proofs.Instruction.Frame
import ChipEight.Proofs.Machine.Timing
import ChipEight.Proofs.Machine.Waiting

namespace ChipEight

/-!
# The delay timer over a run

One word sets the timer, to what a register holds, and a restart sets it to zero. Every
tick takes one from it down to zero, and nothing else touches it. So its value is what it
was set to last, less the ticks that have come since.
-/

namespace Machine

/-- A command sets the timer to `t`. -/
def SetsDelay (m : Machine) (t : UInt8) (c : Command) : Prop :=
  c.Renews ∧ t = 0 ∨ c = .step ∧ m.state.fetch.WritesDelay ∧ t = m.state.reg m.state.fetch.x

/-- No command of a run sets the timer. -/
def LeavesDelay (m : Machine) : List Command → Prop
  | [] => True
  | c :: rest => (∀ t, ¬m.SetsDelay t c) ∧ (m.obey c).machine.LeavesDelay rest

/-- A run has set the timer to `t` last and has ticked `n` times since. A run that never sets it
counts from zero and from its beginning. -/
inductive LastSet (m : Machine) : List Command → UInt8 → Nat → Prop
  | never {commands : List Command} (h : m.LeavesDelay commands) :
      LastSet m commands 0 (commands.count .tick)
  | set {first : List Command} {c : Command} {rest : List Command} {t : UInt8}
      (hc : (m.after first).SetsDelay t c)
      (h : ((m.after first).obey c).machine.LeavesDelay rest) :
      LastSet m (first ++ c :: rest) t (rest.count .tick)

section Command

variable {m : Machine} {c : Command}

theorem SetsDelay.eq {t u : UInt8} (h : m.SetsDelay t c) (h' : m.SetsDelay u c) : u = t := by
  rcases h with ⟨_, rfl⟩ | ⟨rfl, _, rfl⟩
  · rcases h' with ⟨_, hu⟩ | ⟨rfl, _, _⟩
    · exact hu
    · contradiction
  · rcases h' with ⟨hc, _⟩ | ⟨_, _, hu⟩
    · exact hc.elim
    · exact hu

theorem step_of_writesDelay (h : m.state.fetch.WritesDelay) :
    m.step = ⟨{ m with state := { m.past.state with delay := m.state.reg m.state.fetch.x } },
      [m.fetched], .ok ()⟩ := by
  rw [step_of_some h.ofWord?]
  rfl

theorem delay_obey_of_setsDelay {t : UInt8} (h : m.SetsDelay t c) :
    (m.obey c).machine.state.delay = t := by
  rcases h with ⟨hc, rfl⟩ | ⟨rfl, hw, rfl⟩
  · cases c with
    | load program =>
        rw [obey, load_of_le hc]
        rfl
    | reset => rfl
    | _ => exact hc.elim
  · rw [obey, step_of_writesDelay hw]

theorem delay_step_of_not_writesDelay (h : ¬m.state.fetch.WritesDelay) :
    m.step.machine.state.delay = m.state.delay := by
  rcases m.step_cases with ⟨_, hs⟩ | ⟨i, f, _, _, hs⟩ | ⟨i, e, hi, he, hs⟩
  · rw [hs]
    rfl
  · rw [hs]
    rfl
  · have hkept : ¬i.Writes m.keys m.past.state .delay :=
      mt (Instruction.mayChange_of_writes hi) h
    have hsame : e.state.delay = m.past.state.delay := Instruction.same_of_not_writes hkept he
    rw [hs]
    exact hsame

theorem toNat_delay_obey (h : ∀ t, ¬m.SetsDelay t c) :
    (m.obey c).machine.state.delay.toNat = m.state.delay.toNat - [c].count .tick := by
  cases c with
  | load program =>
      have large : programRoom < program.length :=
        Nat.lt_of_not_le fun fits => h 0 (Or.inl ⟨fits, rfl⟩)
      rw [obey, load_of_lt large]
      rfl
  | reset => exact absurd (Or.inl ⟨trivial, rfl⟩) (h 0)
  | step =>
      rw [obey, delay_step_of_not_writesDelay fun hw => h _ (Or.inr ⟨rfl, hw, rfl⟩)]
      rfl
  | tick =>
      have hlt := m.state.delay.toNat_lt
      rw [obey, machine_tick, idled, State.idled]
      simp only [UInt8.toNat_ofNat', List.count_singleton_self]
      omega
  | press code | release code =>
      simp only [obey, setKey]
      split <;> rfl

end Command

theorem leavesDelay_append_singleton (m : Machine) (commands : List Command) (c : Command) :
    m.LeavesDelay (commands ++ [c]) ↔
      m.LeavesDelay commands ∧ ∀ t, ¬(m.after commands).SetsDelay t c := by
  induction commands generalizing m with
  | nil => simp only [List.nil_append, LeavesDelay, and_true, true_and, after_nil]
  | cons d rest ih => simp only [List.cons_append, LeavesDelay, ih, after_cons, and_assoc]

/-- What a run has set last is what its last command sets, or else what was set before it. -/
theorem lastSet_append_singleton (m : Machine) (commands : List Command) (c : Command) (t : UInt8)
    (n : Nat) :
    m.LastSet (commands ++ [c]) t n ↔
      (m.after commands).SetsDelay t c ∧ n = 0 ∨
      (∀ u, ¬(m.after commands).SetsDelay u c) ∧
        ∃ k, m.LastSet commands t k ∧ n = k + [c].count .tick := by
  constructor
  · intro h
    generalize hall : commands ++ [c] = all at h
    cases h with
    | never h =>
        subst hall
        obtain ⟨hrun, hc⟩ := (m.leavesDelay_append_singleton commands c).mp h
        exact Or.inr ⟨hc, _, .never hrun, List.count_append⟩
    | @set first d rest t hd h =>
        rcases Command.split_append_singleton hall with ⟨rfl, rfl, rfl⟩ | ⟨rest, rfl, rfl⟩
        · exact Or.inl ⟨hd, rfl⟩
        · obtain ⟨hrun, hc⟩ := (leavesDelay_append_singleton _ rest c).mp h
          rw [after_append]
          exact Or.inr ⟨hc, _, .set hd hrun, List.count_append⟩
  · rintro (⟨hc, rfl⟩ | ⟨hc, k, h, rfl⟩)
    · exact .set hc trivial
    · cases h with
      | never h =>
          rw [← List.count_append]
          exact .never ((m.leavesDelay_append_singleton commands c).mpr ⟨h, hc⟩)
      | @set first d rest t hd h =>
          rw [after_append] at hc
          rw [← List.count_append, List.append_assoc, List.cons_append]
          exact .set hd ((leavesDelay_append_singleton _ rest c).mpr ⟨h, hc⟩)

/-- What a run has set last and how often it has ticked since is determined, and the timer has come
down from the one by the other. -/
theorem exists_lastSet (random : Generator) (commands : List Command) :
    let m := powerOn random
    ∃ t n, (∀ u k, m.LastSet commands u k ↔ u = t ∧ k = n) ∧
      (m.after commands).state.delay.toNat = t.toNat - n := by
  intro m
  induction commands using List.reverseRecOn with
  | nil =>
      refine ⟨0, 0, fun u k => ⟨?_, ?_⟩, rfl⟩
      · intro h
        generalize hnil : [] = commands at h
        cases h with
        | never h => exact ⟨rfl, by rw [← hnil]; rfl⟩
        | set hc h => simp at hnil
      · rintro ⟨rfl, rfl⟩
        exact .never trivial
  | append_singleton commands c ih =>
      obtain ⟨t, n, hlast, hdelay⟩ := ih
      simp only [lastSet_append_singleton, after_append_singleton]
      -- Either the last command starts a new count, or it goes on with the old one.
      by_cases hc : ∃ t', (m.after commands).SetsDelay t' c
      · obtain ⟨t', hset⟩ := hc
        refine ⟨t', 0, fun u k => ⟨?_, ?_⟩, ?_⟩
        · rintro (⟨hu, rfl⟩ | ⟨hnone, _⟩)
          · exact ⟨hset.eq hu, rfl⟩
          · exact absurd hset (hnone t')
        · rintro ⟨rfl, rfl⟩
          exact Or.inl ⟨hset, rfl⟩
        · rw [delay_obey_of_setsDelay hset, Nat.sub_zero]
      · rw [not_exists] at hc
        refine ⟨t, n + [c].count .tick, fun u k => ⟨?_, ?_⟩, ?_⟩
        · rintro (⟨hu, _⟩ | ⟨_, j, hj, rfl⟩)
          · exact absurd hu (hc u)
          · obtain ⟨rfl, rfl⟩ := (hlast u j).mp hj
            exact ⟨rfl, rfl⟩
        · rintro ⟨rfl, rfl⟩
          exact Or.inr ⟨hc, n, (hlast u n).mpr ⟨rfl, rfl⟩, rfl⟩
        · rw [toNat_delay_obey hc, hdelay, Nat.sub_sub]

theorem not_setsDelay_of_refused {m : Machine} {c : Command}
    (h : (m.obey c).result ≠ .ok () ∨ c.OfKeys) (t : UInt8) : ¬m.SetsDelay t c := by
  rintro (⟨hc, -⟩ | ⟨rfl, hw, -⟩)
  · rcases h with hfail | hkeys
    · exact hfail ((m.renews_iff c).mp hc).2
    · cases c with
      | press code | release code => exact hc
      | _ => exact hkeys
  · rcases h with hfail | hkeys
    · exact hfail (by rw [obey, step_of_writesDelay hw])
    · exact hkeys

theorem result_tick (m : Machine) : (m.obey .tick).result = .ok () := by
  rw [obey, tick]
  split <;> rfl

theorem after_ticks (m : Machine) (k : Nat) : m.after (List.replicate k .tick) = m.idled k := by
  induction k generalizing m with
  | zero => exact m.idled_zero.symm
  | succ k ih =>
      rw [List.replicate_succ, after_cons, ih, obey, machine_tick, idled_idled, Nat.add_comm]

theorem shownBy_ticks_of_not_stale {m : Machine} (h : m.state.screen.stale = false) (k : Nat) :
    m.shownBy (List.replicate k .tick) = [] := by
  induction k with
  | zero => rfl
  | succ k ih =>
      have hlast : (m.idled k).state.screen.stale = false := by
        rw [idled, State.idled, h, Bool.false_and]
      rw [List.replicate_succ', shownBy_append_singleton, ih, List.nil_append, after_ticks, obey,
        frames_tick, hlast, if_neg Bool.false_ne_true]

/-- However many ticks come in a row, at most the first hands the screen out. -/
theorem length_shownBy_ticks_le (m : Machine) (k : Nat) :
    (m.shownBy (List.replicate k .tick)).length ≤ 1 := by
  cases k with
  | zero => exact Nat.zero_le 1
  | succ k =>
      have hfresh : (m.obey .tick).machine.state.screen.stale = false := by
        rw [obey, machine_tick, idled, State.idled]
        exact Bool.and_false _
      have hframes : (m.obey .tick).frames.length ≤ 1 := by
        rw [obey, frames_tick]
        split <;> simp
      have hrest := shownBy_ticks_of_not_stale hfresh k
      rw [shownBy] at hrest ⊢
      rw [List.replicate_succ, replies, List.flatMap_cons, hrest, List.append_nil]
      exact hframes

/-- After any commands from power-on there is one value that the timer was set to last, and one
number of ticks since: the timer holds their difference, or zero if there were more ticks. A word
that reads the timer puts this into its register. Refused commands and keys change neither of the
two numbers. Any number of ticks more goes down to zero and no further, and hands out one frame at
most. -/
theorem timer_counts_down_from_last_value (random : Generator) (commands : List Command) :
    let m := powerOn random
    let now := m.after commands
    ∃ t n, (∀ u k, m.LastSet commands u k ↔ u = t ∧ k = n) ∧
      now.state.delay.toNat = t.toNat - n ∧
      (now.state.fetch.ReadsDelay → now.step.result = .ok () ∧
        (now.step.machine.state.reg now.state.fetch.x).toNat = t.toNat - n) ∧
      (∀ c, (now.obey c).result ≠ .ok () ∨ c.OfKeys →
        ∀ u k, m.LastSet (commands ++ [c]) u k ↔ m.LastSet commands u k) ∧
      ∀ k, (now.after (List.replicate k .tick)).state.delay.toNat = t.toNat - (n + k) ∧
        (now.shownBy (List.replicate k .tick)).length ≤ 1 := by
  intro m now
  obtain ⟨t, n, hlast, hdelay⟩ := exists_lastSet random commands
  refine ⟨t, n, hlast, hdelay, ?_, ?_, ?_⟩
  · intro hreads
    rw [step_of_readsDelay hreads]
    refine ⟨rfl, ?_⟩
    rw [State.reg_setReg_self]
    exact hdelay
  · intro c hc u k
    have hnone := not_setsDelay_of_refused hc
    have hcount : [c].count .tick = 0 := by
      rw [List.count_eq_zero, List.mem_singleton]
      rintro rfl
      rcases hc with hfail | hkeys
      · exact hfail now.result_tick
      · exact hkeys
    rw [lastSet_append_singleton, hcount]
    constructor
    · rintro (⟨hset, _⟩ | ⟨_, j, hj, rfl⟩)
      · exact absurd hset (hnone u)
      · exact hj
    · intro h
      exact Or.inr ⟨hnone, k, h, rfl⟩
  · intro k
    refine ⟨?_, now.length_shownBy_ticks_le k⟩
    have hlt := t.toNat_lt
    rw [after_ticks, idled, State.idled, UInt8.toNat_ofNat', hdelay]
    omega

/-- Two ticks behind a timer that was set to five, the next word reads three. -/
theorem timer_counts_down_from_last_value_of_two_ticks :
    let random : Generator := ⟨Vector.replicate 8 0, 0⟩
    let program : List UInt8 := [0x60, 0x05, 0xF0, 0x15, 0xF1, 0x07]
    let commands : List Command := [.load program, .step, .step, .tick, .press 0x10, .tick]
    let m := powerOn random
    let now := m.after commands
    m.LastSet commands 5 2 ∧ now.state.fetch.ReadsDelay ∧ now.step.result = .ok () ∧
      (now.step.machine.state.reg 1).toNat = 3 ∧
      (now.after (List.replicate 9 .tick)).state.delay.toNat = 0 ∧
      (now.shownBy (List.replicate 9 .tick)).length ≤ 1 := by
  intro random program commands m now
  let first : List Command := [.load program, .step]
  obtain ⟨hword, hvalue, hnext⟩ : (m.after first).state.fetch = 0xF015 ∧
      (m.after first).state.reg 0 = 5 ∧ now.state.fetch = 0xF107 := by decide +kernel
  have hset : (m.after first).SetsDelay 5 .step := by
    refine Or.inr ⟨rfl, ?_, ?_⟩
    · rw [hword]
      decide
    · rw [hword]
      exact hvalue.symm
  have hleaves : ((m.after first).obey .step).machine.LeavesDelay [.tick, .press 0x10, .tick] := by
    simp [LeavesDelay, SetsDelay, Command.Renews]
  have hlast : m.LastSet commands 5 2 := .set hset hleaves
  have hreads : now.state.fetch.ReadsDelay := by
    rw [hnext]
    decide
  have hx : now.state.fetch.x = 1 := by
    rw [hnext]
    decide
  obtain ⟨t, n, hfound, _, hread, _, hticks⟩ := timer_counts_down_from_last_value random commands
  obtain ⟨rfl, rfl⟩ := (hfound 5 2).mp hlast
  obtain ⟨hok, hreg⟩ := hread hreads
  obtain ⟨hzero, hframe⟩ := hticks 9
  exact ⟨hlast, hreads, hok, hx ▸ hreg, hzero, hframe⟩

end Machine

end ChipEight
