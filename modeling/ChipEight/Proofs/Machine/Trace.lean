import ChipEight.Proofs.Machine.Keys
import ChipEight.Proofs.Machine.Refusal
import ChipEight.Proofs.Text.Records

namespace ChipEight

/-!
# The log as a trace

Every step writes down where it starts from before it does anything else; besides that the log only
hears of words that are no instructions, of waits for a key, of resets and of loads. The record of a
step can be read back from its text, so a log tells every step that was made.
-/

/-- Where a step starts from: the word it fetches, the word's address, and the registers. -/
structure Fetch where
  word : Word
  address : UInt16
  registers : Registers
  index : UInt16
  deriving DecidableEq

namespace Fetch

def record (f : Fetch) : Log.Record := .fetched f.word f.address f.registers f.index

theorem eq_of_text_record {f g : Fetch} (h : f.record.text = g.record.text) : f = g := by
  have hrecord := Log.Record.text_injective h
  cases f
  cases g
  obtain ⟨rfl, rfl, rfl, rfl⟩ := Log.Record.fetched.inj hrecord
  rfl

end Fetch

def Log.Record.fetch? : Log.Record → Option Fetch
  | .fetched word address registers index => some ⟨word, address, registers, index⟩
  | _ => none

/-- No key is held. -/
def Keypad.AllFree (p : Keypad) : Prop := ∀ k, p.isHeld k = false

theorem Keypad.isNone_least?_iff (p : Keypad) : p.least?.isNone = true ↔ p.AllFree := by
  rw [Option.isNone_iff_eq_none]
  exact p.least?_eq_none_iff

instance (p : Keypad) : Decidable p.AllFree := decidable_of_iff _ p.isNone_least?_iff

instance (w : Word) : Decidable w.Listed := decidable_of_iff _ (Instruction.isValid_iff_listed w)

namespace Reply

/-- The records of a reply, each with its level. -/
def lines (r : Reply) : List (Log.Level × Log.Record) := r.records.map fun x => (x.level, x)

end Reply

/-- Only the instruction that takes a key waits, and only while none is held. -/
theorem Instruction.awaits_of_execute {i : Instruction} {keys : Keypad} {random : Generator}
    {s : State} {e : Effect} (h : i.execute keys random s = .ok e)
    (hnot : ∀ x, i = .awaitKey x → ¬keys.AllFree) : e.awaits = none := by
  cases i with
  | awaitKey x =>
      simp only [execute] at h
      cases hleast : keys.least? with
      | none => exact absurd (keys.least?_eq_none_iff.mp hleast) (hnot x rfl)
      | some k =>
          rw [hleast] at h
          obtain rfl := Except.ok.inj h
          rfl
  | ret | call target =>
      simp only [execute] at h
      split at h
      · obtain rfl := Except.ok.inj h
        rfl
      · cases h
  | _ =>
      obtain rfl := Except.ok.inj h
      rfl

namespace Machine

def fetch (m : Machine) : Fetch where
  word := m.state.memory.wordAt m.state.counter.toNat
  address := m.state.counter
  registers := m.state.registers
  index := m.state.index

/-- What a command has to tell. -/
def told (m : Machine) : Command → List (Log.Level × Log.Record)
  | .load program =>
    if program.length ≤ 3584 then [(.debug, .reset), (.debug, .loaded program.length)] else []
  | .reset => [(.debug, .reset)]
  | .step =>
    let w := m.fetch.word
    (.trace, m.fetch.record) ::
      if ¬w.Listed then [(.warn, .rejected w m.fetch.address)]
      else if w.AwaitsKey ∧ m.keys.AllFree then [(.trace, .waiting w.x)]
      else []
  | .tick | .press _ | .release _ => []

/-- What a run has to tell, command by command. -/
def toldBy (m : Machine) : List Command → List (List (Log.Level × Log.Record))
  | [] => []
  | c :: rest => m.told c :: (m.obey c).machine.toldBy rest

/-- Where the steps of a run start from. -/
def fetches (m : Machine) : List Command → List Fetch
  | [] => []
  | c :: rest => (if c = .step then [m.fetch] else []) ++ (m.obey c).machine.fetches rest

/-- The log of a run. -/
def logged (m : Machine) (commands : List Command) : List Log.Record :=
  (m.replies commands).flatMap Reply.records

theorem record_fetch (m : Machine) : .record m.fetch.record = m.fetched := by
  rw [fetched, State.fetch_eq_wordAt]
  rfl

theorem lines_step (m : Machine) : m.step.lines = m.told .step := by
  have hword : m.fetch.word = m.state.fetch := m.state.fetch_eq_wordAt.symm
  have hlisted : ∀ {i}, Instruction.ofWord? m.state.fetch = some i → m.state.fetch.Listed := by
    intro i hi
    by_contra hnot
    rw [(Instruction.ofWord?_eq_none_iff _).mpr hnot] at hi
    cases hi
  rw [told, hword]
  by_cases hwaits : m.state.fetch.AwaitsKey ∧ m.keys.AllFree
  · rw [step_of_awaitsKey_of_free hwaits.1 hwaits.2,
      if_neg (not_not.mpr (hlisted hwaits.1.ofWord?)), if_pos hwaits, ← record_fetch]
    rfl
  rcases m.step_cases with ⟨hi, hs⟩ | ⟨i, f, hi, _, hs⟩ | ⟨i, e, hi, he, hs⟩
  · rw [hs, if_pos ((Instruction.ofWord?_eq_none_iff _).mp hi), reject, ← record_fetch]
    rfl
  · rw [hs, if_neg (not_not.mpr (hlisted hi)), if_neg hwaits, ← record_fetch]
    rfl
  · have hsilent : e.awaits = none := by
      refine Instruction.awaits_of_execute he ?_
      rintro x rfl hfree
      obtain ⟨hgroup, hnn, -⟩ := Instruction.encodes_of_ofWord? hi
      exact hwaits ⟨⟨hgroup, hnn⟩, hfree⟩
    rw [hs, if_neg (not_not.mpr (hlisted hi)), if_neg hwaits, ← record_fetch]
    rcases e with ⟨s, g, _ | d, _ | x⟩
    · rfl
    · cases hsilent
    · rfl
    · cases hsilent

theorem lines_obey (m : Machine) (c : Command) : (m.obey c).lines = m.told c := by
  cases c with
  | load program =>
      rw [told]
      split
      · next fits =>
          rw [obey, load_of_le fits]
          rfl
      · next large =>
          rw [obey, load_of_lt (Nat.lt_of_not_le large)]
          rfl
  | reset => rfl
  | step => exact m.lines_step
  | tick =>
      simp only [obey, tick]
      split <;> rfl
  | press code | release code =>
      simp only [obey, setKey]
      split <;> rfl

theorem lines_replies (m : Machine) (commands : List Command) :
    (m.replies commands).map Reply.lines = m.toldBy commands := by
  induction commands generalizing m with
  | nil => rfl
  | cons c rest ih => rw [replies, List.map_cons, toldBy, lines_obey, ih]

theorem records_obey (m : Machine) (c : Command) :
    (m.obey c).records = (m.told c).map Prod.snd := by
  rw [← lines_obey, Reply.lines, List.map_map]
  exact (List.map_id _).symm

/-- Steps are the only commands that report a fetch, and they report it once. -/
theorem fetch?_records_obey (m : Machine) (c : Command) :
    (m.obey c).records.filterMap Log.Record.fetch? = if c = .step then [m.fetch] else [] := by
  rw [records_obey]
  cases c with
  | load program =>
      rw [told]
      split <;> rfl
  | step =>
      have hhead : m.fetch.record.fetch? = some m.fetch := rfl
      rw [told, List.map_cons, List.filterMap_cons_some hhead, if_pos rfl]
      congr 1
      split
      · rfl
      · split <;> rfl
  | reset | tick | press code | release code => rfl

theorem fetches_eq (m : Machine) (commands : List Command) :
    m.fetches commands = (m.logged commands).filterMap Log.Record.fetch? := by
  induction commands generalizing m with
  | nil => rfl
  | cons c rest ih =>
      rw [logged, replies, List.flatMap_cons, List.filterMap_append, fetch?_records_obey, fetches,
        ih]
      rfl

/-- Command by command, a run writes what its commands have to tell and nothing else. The text of a
step's record tells what the step started from, so runs from any two machines that leave the same
texts have made the same steps, from the same words, addresses and registers. -/
theorem log_tells_steps :
    (∀ (m : Machine) (commands : List Command),
      (m.replies commands).map Reply.lines = m.toldBy commands) ∧
    (∀ f g : Fetch, f.record.text = g.record.text → f = g) ∧
    ∀ (m n : Machine) (commands commands' : List Command),
      (m.logged commands).map Log.Record.text = (n.logged commands').map Log.Record.text →
        m.fetches commands = n.fetches commands' := by
  refine ⟨lines_replies, fun f g => Fetch.eq_of_text_record, ?_⟩
  intro m n commands commands' h
  have hlog : m.logged commands = n.logged commands' :=
    List.map_injective_iff.mpr (fun r s => Log.Record.text_injective) h
  rw [fetches_eq, fetches_eq, hlog]

/-- The second run begins with another seed, and commands that tell nothing lie between its steps;
the second step of both waits for a key. -/
theorem log_tells_steps_of_waiting :
    let m := powerOn ⟨Vector.replicate 8 0, 0⟩
    let n := powerOn ⟨Vector.replicate 8 1, 7⟩
    let program : List UInt8 := [0x60, 0x05, 0xF1, 0x0A]
    let commands : List Command := [.load program, .step, .step]
    let commands' : List Command :=
      [.tick, .load program, .step, .release 3, .press 0x20, .step, .load (List.replicate 3585 0)]
    (m.logged commands).map Log.Record.text = (n.logged commands').map Log.Record.text ∧
      m.fetches commands = n.fetches commands' ∧
      (n.fetches commands').map Fetch.word = [0x6005, 0xF10A] := by
  intro m n program commands commands'
  have hlog : m.logged commands = n.logged commands' := by decide +kernel
  have htexts := congrArg (List.map Log.Record.text) hlog
  have hsteps := log_tells_steps.2.2 m n commands commands' htexts
  refine ⟨htexts, hsteps, ?_⟩
  rw [← hsteps]
  decide +kernel

end Machine

end ChipEight
