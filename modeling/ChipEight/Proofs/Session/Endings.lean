import ChipEight.Proofs.Graphics.Software
import ChipEight.Proofs.Machine.Refusal
import ChipEight.Proofs.Machine.Timing
import ChipEight.Proofs.Window.Library
import ChipEight.Session

namespace ChipEight

/-!
# How a session ends

The window comes before the file, the file before its size, and all of them before the events;
an event by which the user leaves comes before every step. A session that gets past all that is a
machine with the program loaded and the keys of the events pressed and released: if the machine
never reads its timer, the session ends with the machine's first fault, however the ticks fall.

The library that draws is taken to limit the sides of windows, and not to fail in drawing, since the
session would log that.
-/

namespace Event

/-- The user leaves, by the window or by the key for that. -/
def Leaves : Event → Prop
  | .quit => True
  | .keyDown name => name = "Escape"
  | .keyUp _ => False

/-- What the machine is told of an event: nothing, unless the key lies on the pad. -/
def command? : Event → Option Command
  | .quit => none
  | .keyDown name => (Keypad.ofKeyboard? name).map fun k => .press (UInt8.ofNat k.val)
  | .keyUp name => (Keypad.ofKeyboard? name).map fun k => .release (UInt8.ofNat k.val)

end Event

/-- What is reported of a fault before the session halts. -/
def Fault.warnings : Fault → List Log.Record
  | .invalidInstruction word address => [.rejected word address]
  | _ => []

namespace Reply

/-- The records that a session shows. -/
def shown (r : Reply) : List Log.Record := r.records.filter (·.atLeast .info)

end Reply

namespace Machine

theorem shown_step (m : Machine) :
    m.step.shown =
      match m.step.result with
      | .error f => f.warnings
      | .ok () => [] := by
  rcases m.step_cases with ⟨_, hs⟩ | ⟨i, f, hi, he, hs⟩ | ⟨i, e, _, _, hs⟩
  · rw [hs]
    rfl
  · rw [hs]
    rcases (execute_past_eq_error_iff hi f).mp he with ⟨_, rfl⟩ | ⟨_, rfl⟩ <;> rfl
  · rw [hs]
    rcases e with ⟨s, g, _ | d, _ | x⟩ <;> rfl

/-- Of the commands only a step has something to show. -/
theorem shown_obey_of_ne_step (m : Machine) {c : Command} (hc : c ≠ .step) :
    (m.obey c).shown = [] := by
  cases c with
  | load program =>
      simp only [obey, load]
      split <;> rfl
  | reset => rfl
  | step => exact absurd rfl hc
  | tick =>
      simp only [obey, tick]
      split <;> rfl
  | press code | release code =>
      simp only [obey, setKey]
      split <;> rfl

/-- The next steps of a machine: `k` that are obeyed and do not read the timer, then one that is
refused. -/
structure FaultsAfter (m : Machine) (k : Nat) (f : Fault) : Prop where
  obeyed : ∀ j < k, (m.after (List.replicate j .step)).step.result = .ok ()
  blind : ∀ j < k, ¬(m.after (List.replicate j .step)).state.fetch.ReadsDelay
  refused : (m.after (List.replicate k .step)).step.result = .error f

namespace FaultsAfter

variable {m : Machine} {k : Nat} {f : Fault}

theorem of_succ (h : m.FaultsAfter (k + 1) f) : m.step.machine.FaultsAfter k f where
  obeyed := fun j hj => h.obeyed (j + 1) (Nat.succ_lt_succ hj)
  blind := fun j hj => h.blind (j + 1) (Nat.succ_lt_succ hj)
  refused := h.refused

theorem not_readsDelay (h : m.FaultsAfter k f) : ¬m.state.fetch.ReadsDelay := by
  cases k with
  | zero =>
      intro hreads
      have hfault : m.step.result = .error f := h.refused
      rw [step_of_readsDelay hreads] at hfault
      cases hfault
  | succ k => exact h.blind 0 (Nat.succ_pos k)

end FaultsAfter

theorem step_alike {m n : Machine} (h : m.untimed = n.untimed)
    (hblind : ¬n.state.fetch.ReadsDelay) :
    m.step.result = n.step.result ∧ m.step.machine.untimed = n.step.machine.untimed := by
  have hblind' : ¬(Command.step = .step ∧ m.state.fetch.ReadsDelay) := by
    rw [fetch_alike h]
    exact fun hreads => hblind hreads.2
  exact ⟨congrArg Answer.result (answer_alike h (by decide) hblind'),
    congrArg Reply.machine (obey_alike h (by decide) hblind')⟩

end Machine

namespace Session

variable {G : Graphics}

theorem log_note (s : Session G) (r : Log.Record) :
    (s.note r).log.toList = s.log.toList ++ [r].filter (·.atLeast .info) := by
  unfold note
  cases h : r.atLeast .info <;> simp [h]

theorem machine_note (s : Session G) (r : Log.Record) : (s.note r).machine = s.machine := by
  unfold note
  split <;> rfl

theorem machine_take (s : Session G) (o : Output) : (s.take o).machine = s.machine := by
  cases o with
  | record r => exact s.machine_note r
  | beep d => rfl
  | frame g =>
      rw [take]
      split
      · rfl
      · exact machine_note _ _

theorem machine_foldl_take (s : Session G) (output : List Output) :
    (output.foldl take s).machine = s.machine := by
  induction output generalizing s with
  | nil => rfl
  | cons o rest ih => rw [List.foldl_cons, ih, machine_take]

theorem machine_obey (s : Session G) (c : Command) :
    (s.obey c).1.machine = (s.machine.obey c).machine :=
  machine_foldl_take _ _

theorem commands?_of_leaves {e : Event} (h : e.Leaves) : commands? e = none := by
  cases e with
  | keyDown name => exact if_pos h
  | keyUp name => exact h.elim
  | quit => rfl

theorem commands?_of_not_leaves {e : Event} (h : ¬e.Leaves) :
    commands? e = some e.command?.toList := by
  cases e with
  | keyDown name =>
      have hquit : name ≠ Keypad.quitKey := h
      rw [commands?, if_neg hquit, Event.command?]
      cases Keypad.ofKeyboard? name <;> rfl
  | keyUp name =>
      rw [commands?, Event.command?]
      cases Keypad.ofKeyboard? name <;> rfl
  | quit => exact absurd trivial h

theorem command?_ne_step {e : Event} {c : Command} (h : e.command? = some c) : c ≠ .step := by
  rintro rfl
  cases e with
  | keyDown name | keyUp name =>
      obtain ⟨k, _, hk⟩ := Option.map_eq_some_iff.mp h
      cases hk
  | quit => cases h

theorem readFile_of_error {setup : Setup} {reason : String} (h : setup.file = .error reason)
    (s : Session G) : s.readFile setup = (s, .error (.unreadable setup.path reason)) := by
  rw [readFile, h]

section Draws

variable (hdraws : G.Draws)
include hdraws

theorem log_take (s : Session G) (o : Output) :
    (s.take o).log.toList = s.log.toList ++ o.record?.toList.filter (·.atLeast .info) := by
  cases o with
  | record r => exact s.log_note r
  | beep d => exact (List.append_nil _).symm
  | frame g =>
      obtain ⟨w, hpresent⟩ := s.window.exists_present hdraws g
      rw [take, hpresent]
      exact (List.append_nil _).symm

theorem log_foldl_take (s : Session G) (output : List Output) :
    (output.foldl take s).log.toList =
      s.log.toList ++ (output.filterMap Output.record?).filter (·.atLeast .info) := by
  induction output generalizing s with
  | nil => exact (List.append_nil _).symm
  | cons o rest ih =>
      have hhead : (o :: rest).filterMap Output.record? =
          o.record?.toList ++ rest.filterMap Output.record? := by
        cases ho : o.record? <;> simp [ho]
      rw [List.foldl_cons, ih, log_take hdraws, hhead, List.filter_append, List.append_assoc]

theorem log_obey (s : Session G) (c : Command) :
    (s.obey c).1.log.toList = s.log.toList ++ (s.machine.obey c).shown :=
  log_foldl_take hdraws _ _

theorem log_obey_of_ne_step (s : Session G) {c : Command} (hc : c ≠ .step) :
    (s.obey c).1.log.toList = s.log.toList := by
  rw [log_obey hdraws, Machine.shown_obey_of_ne_step _ hc, List.append_nil]

/-- Taking an event that does not make the user leave tells the machine of it. -/
theorem takeEvents_cons {e : Event} (h : ¬e.Leaves) (s : Session G) (rest : List Event) :
    ∃ t : Session G, s.takeEvents (e :: rest) = t.takeEvents rest ∧
      t.machine = s.machine.after e.command?.toList ∧ t.log.toList = s.log.toList := by
  rw [takeEvents, commands?_of_not_leaves h]
  cases hc : e.command? with
  | none => exact ⟨s, rfl, rfl, rfl⟩
  | some c =>
      exact ⟨(s.obey c).1, rfl, s.machine_obey c,
        log_obey_of_ne_step hdraws s (command?_ne_step hc)⟩

theorem takeEvents_of_leaves {events : List Event} (h : ∃ e ∈ events, e.Leaves) (s : Session G) :
    ∃ t, s.takeEvents events = (t, true) ∧ t.log.toList = s.log.toList := by
  induction events generalizing s with
  | nil =>
      obtain ⟨e, he, _⟩ := h
      cases he
  | cons e rest ih =>
      by_cases hleaves : e.Leaves
      · rw [takeEvents, commands?_of_leaves hleaves]
        exact ⟨s, rfl, rfl⟩
      · have hrest : ∃ d ∈ rest, d.Leaves := by
          obtain ⟨d, hd, hl⟩ := h
          rcases List.mem_cons.mp hd with rfl | hd
          · exact absurd hl hleaves
          · exact ⟨d, hd, hl⟩
        obtain ⟨t, htake, -, hlog⟩ := takeEvents_cons hdraws hleaves s rest
        obtain ⟨u, hu, hlog'⟩ := ih hrest t
        exact ⟨u, htake.trans hu, hlog'.trans hlog⟩

theorem takeEvents_of_stays {events : List Event} (h : ∀ e ∈ events, ¬e.Leaves) (s : Session G) :
    ∃ t, s.takeEvents events = (t, false) ∧
      t.machine = s.machine.after (events.filterMap Event.command?) ∧
      t.log.toList = s.log.toList := by
  induction events generalizing s with
  | nil => exact ⟨s, rfl, rfl, rfl⟩
  | cons e rest ih =>
      obtain ⟨t, htake, hmachine, hlog⟩ :=
        takeEvents_cons hdraws (h e (List.mem_cons_self ..)) s rest
      obtain ⟨u, hu, hmachine', hlog'⟩ := ih (fun d hd => h d (List.mem_cons_of_mem e hd)) t
      refine ⟨u, htake.trans hu, ?_, hlog'.trans hlog⟩
      rw [hmachine', hmachine, ← Machine.after_append]
      congr 1
      cases hc : e.command? <;> simp [hc]

theorem tickTimes_alike (s : Session G) (count : Nat) :
    (s.tickTimes count).machine.untimed = s.machine.untimed ∧
      (s.tickTimes count).log.toList = s.log.toList := by
  induction count generalizing s with
  | zero => exact ⟨rfl, rfl⟩
  | succ count ih =>
      obtain ⟨hmachine, hlog⟩ := ih (s.obey .tick).1
      refine ⟨?_, ?_⟩
      · rw [tickTimes, hmachine, machine_obey]
        exact s.machine.untimed_tick
      · rw [tickTimes, hlog, log_obey_of_ne_step hdraws s (by decide)]

theorem cycle_of_leaves {c : Cycle} (h : ∃ e ∈ c.events, e.Leaves) (s : Session G) :
    ∃ t, s.cycle c = (t, some .left) ∧ t.log.toList = s.log.toList ++ [.exiting] := by
  obtain ⟨t, htake, hlog⟩ := takeEvents_of_leaves hdraws h s
  refine ⟨t.note .exiting, ?_, ?_⟩
  · rw [cycle, htake]
  · rw [log_note, hlog]
    rfl

theorem cycle_of_fault {c : Cycle} {s t : Session G} {f : Fault}
    (htake : s.takeEvents c.events = (t, false)) (hfault : t.machine.step.result = .error f) :
    ∃ u, s.cycle c = (u, some (.halted f)) ∧
      u.log.toList = t.log.toList ++ f.warnings ++ [.halting f] := by
  have hobey : t.obey .step = ((t.obey .step).1, .error f) := Prod.ext rfl hfault
  refine ⟨(t.obey .step).1.note (.halting f), ?_, ?_⟩
  · rw [cycle, htake]
    simp only
    rw [hobey]
  · rw [log_note, log_obey hdraws, Machine.obey, Machine.shown_step, hfault]
    rfl

theorem cycle_of_ok {c : Cycle} {s t : Session G} (htake : s.takeEvents c.events = (t, false))
    (hok : t.machine.step.result = .ok ()) :
    ∃ u, s.cycle c = (u, none) ∧ u.machine.untimed = t.machine.step.machine.untimed ∧
      u.log.toList = t.log.toList := by
  have hobey : t.obey .step = ((t.obey .step).1, .ok ()) := Prod.ext rfl hok
  obtain ⟨hmachine, hlog⟩ := tickTimes_alike hdraws (t.obey .step).1 c.ticks
  refine ⟨(t.obey .step).1.tickTimes c.ticks, ?_, ?_, ?_⟩
  · rw [cycle, htake]
    simp only
    rw [hobey]
  · rw [hmachine, machine_obey]
    rfl
  · rw [hlog, log_obey hdraws, Machine.obey, Machine.shown_step, hok]
    exact List.append_nil _

theorem play_of_leaves {cycles : Nat → Cycle} {i : Nat} (h : ∃ e ∈ (cycles i).events, e.Leaves)
    (s : Session G) {limit : Nat} (hlimit : 0 < limit) :
    ∃ t, s.play cycles i limit = (t, some .left) ∧ t.log.toList = s.log.toList ++ [.exiting] := by
  obtain ⟨limit, rfl⟩ := Nat.exists_eq_succ_of_ne_zero (Nat.ne_zero_of_lt hlimit)
  obtain ⟨t, hcycle, hlog⟩ := cycle_of_leaves hdraws h s
  refine ⟨t, ?_, hlog⟩
  rw [play, hcycle]

/-- A session whose machine is, but for the timer, one that is about to fault, and to which no more
events come, halts with that fault. -/
theorem play_of_faultsAfter {m : Machine} {k : Nat} {f : Fault} (h : m.FaultsAfter k f)
    {cycles : Nat → Cycle} {i : Nat} {s t : Session G}
    (htake : s.takeEvents (cycles i).events = (t, false))
    (halike : t.machine.untimed = m.untimed) (hquiet : ∀ j, i < j → (cycles j).events = [])
    {limit : Nat} (hlimit : k < limit) :
    ∃ u, s.play cycles i limit = (u, some (.halted f)) ∧
      u.log.toList = t.log.toList ++ f.warnings ++ [.halting f] := by
  induction k generalizing m s t i limit with
  | zero =>
      obtain ⟨limit, rfl⟩ := Nat.exists_eq_succ_of_ne_zero (Nat.ne_zero_of_lt hlimit)
      obtain ⟨hresult, -⟩ := Machine.step_alike halike h.not_readsDelay
      obtain ⟨u, hcycle, hlog⟩ := cycle_of_fault hdraws htake (hresult.trans h.refused)
      refine ⟨u, ?_, hlog⟩
      rw [play, hcycle]
  | succ k ih =>
      obtain ⟨limit, rfl⟩ := Nat.exists_eq_succ_of_ne_zero (Nat.ne_zero_of_lt hlimit)
      obtain ⟨hresult, hnext⟩ := Machine.step_alike halike h.not_readsDelay
      obtain ⟨u, hcycle, hmachine, hlog⟩ :=
        cycle_of_ok hdraws htake (hresult.trans (h.obeyed 0 (Nat.succ_pos k)))
      have hstill : u.takeEvents (cycles (i + 1)).events = (u, false) := by
        rw [hquiet (i + 1) (Nat.lt_succ_self i)]
        rfl
      obtain ⟨v, hplay, hlog'⟩ := ih h.of_succ hstill (hmachine.trans hnext)
        (fun j hj => hquiet j (Nat.lt_of_succ_lt hj)) (Nat.lt_of_succ_lt_succ hlimit)
      refine ⟨v, ?_, ?_⟩
      · rw [play, hcycle]
        exact hplay
      · rw [hlog', hlog]

section ReadFile

variable {setup : Setup} {program : List UInt8} (s : Session G)

theorem readFile_of_too_large (h : setup.file = .ok program)
    (large : programRoom < program.length) :
    ∃ t, s.readFile setup =
      (t, .error (.fault (.programTooLarge program.length programRoom))) ∧
      t.log.toList = s.log.toList := by
  have hobey : s.obey (.load program) =
      ((s.obey (.load program)).1, .error (.programTooLarge program.length programRoom)) :=
    Prod.ext rfl (congrArg Reply.result (Machine.load_of_lt large s.machine))
  refine ⟨(s.obey (.load program)).1, ?_, log_obey_of_ne_step hdraws s (by simp)⟩
  rw [readFile, h]
  simp only
  rw [hobey]

theorem readFile_of_fits (h : setup.file = .ok program) (fits : program.length ≤ programRoom) :
    ∃ t, s.readFile setup = (t, .ok ()) ∧ t.machine = (s.machine.load program).machine ∧
      t.log.toList = s.log.toList ++ [.opened setup.path program.length] := by
  have hobey : s.obey (.load program) = ((s.obey (.load program)).1, .ok ()) :=
    Prod.ext rfl (congrArg Reply.result (Machine.load_of_le fits s.machine))
  refine ⟨(s.obey (.load program)).1.note (.opened setup.path program.length), ?_, ?_, ?_⟩
  · rw [readFile, h]
    simp only
    rw [hobey]
  · rw [machine_note, machine_obey]
    rfl
  · rw [log_note, log_obey_of_ne_step hdraws s (by simp)]
    rfl

end ReadFile

end Draws

end Session

namespace Setup

variable {G : Graphics} {setup : Setup} {cycles : Nat → Cycle} {limit : Nat}

/-- The session of a window that was just opened. -/
def started (setup : Setup) (w : Window G) : Session G := ⟨.powerOn setup.random, w, #[]⟩

theorem runOn_of_openOn_error {e : WindowError} (h : Window.openOn G setup.scale = .error e) :
    setup.runOn G cycles limit = ⟨[], some (.error (.window e))⟩ := by
  rw [runOn, runFrom, h]

section Opened

variable {w : Window G} {s t : Session G} (hw : Window.openOn G setup.scale = .ok w)
include hw

theorem runOn_of_readFile_error {e : Failure}
    (hread : (setup.started w).readFile setup = (s, .error e)) :
    setup.runOn G cycles limit = ⟨s.log.toList, some (.error e)⟩ := by
  rw [started] at hread
  rw [runOn, runFrom, hw]
  simp only [hread]

variable (hread : (setup.started w).readFile setup = (s, .ok ()))
include hread

theorem runOn_of_left (hplay : s.play cycles 0 limit = (t, some .left)) :
    setup.runOn G cycles limit = ⟨t.log.toList, some (.ok ())⟩ := by
  rw [started] at hread
  rw [runOn, runFrom, hw]
  simp only [hread, hplay]

theorem runOn_of_halted {f : Fault} (hplay : s.play cycles 0 limit = (t, some (.halted f))) :
    setup.runOn G cycles limit = ⟨t.log.toList, some (.error (.fault f))⟩ := by
  rw [started] at hread
  rw [runOn, runFrom, hw]
  simp only [hread, hplay]

end Opened

end Setup

/-- The ways a session can end, in their order of precedence, if the library refuses windows that
are too wide or too large, makes all others and draws without failing. A window that is refused
comes first, whatever the file and the events are; next a file that cannot be read, and one that
does not fit. Otherwise the file is opened; if the user leaves by one of the events that are there
at the start, that is all, and nothing is stepped. If not, and the machine with the program loaded
and the keys of the events pressed and released faults after `k` steps that do not read the timer,
the session halts with that fault, however the ticks fall. -/
theorem session_endings {G : Graphics} (hrefuses : G.RefusesWide) (hsides : G.LimitsSides)
    (hdraws : G.Draws) (setup : Setup) (hscale : setup.scale < 67108864) (cycles : Nat → Cycle)
    (limit : Nat) :
    let width := 64 * setup.scale
    (2147483648 ≤ width →
      setup.runOn G cycles limit = ⟨[], some (.error (.window (.tooWide width)))⟩) ∧
    (width < 2147483648 → 16384 < width →
      setup.runOn G cycles limit = ⟨[], some (.error (.window .tooLarge))⟩) ∧
    (width ≤ 16384 →
      (∀ reason, setup.file = .error reason →
        setup.runOn G cycles limit = ⟨[], some (.error (.unreadable setup.path reason))⟩) ∧
      ∀ program, setup.file = .ok program →
        (3584 < program.length → setup.runOn G cycles limit =
          ⟨[], some (.error (.fault (.programTooLarge program.length 3584)))⟩) ∧
        (program.length ≤ 3584 →
          let opened := Log.Record.opened setup.path program.length
          ((∃ e ∈ (cycles 0).events, e.Leaves) → 0 < limit →
            setup.runOn G cycles limit = ⟨[opened, .exiting], some (.ok ())⟩) ∧
          ((∀ e ∈ (cycles 0).events, ¬e.Leaves) → (∀ j, 0 < j → (cycles j).events = []) →
            ∀ k f, k < limit →
              (((Machine.powerOn setup.random).load program).machine.after
                ((cycles 0).events.filterMap Event.command?)).FaultsAfter k f →
              setup.runOn G cycles limit =
                ⟨[opened] ++ f.warnings ++ [.halting f], some (.error (.fault f))⟩))) := by
  intro width
  refine ⟨?_, ?_, ?_⟩
  · intro hwide
    exact Setup.runOn_of_openOn_error (Window.openOn_of_refusesWide hscale hwide hrefuses)
  · intro hwide hlarge
    exact Setup.runOn_of_openOn_error (Window.openOn_of_tooLarge hscale hwide hlarge hsides)
  intro hfits
  obtain ⟨w, hw⟩ := Window.exists_openOn hscale hfits hsides
  refine ⟨?_, ?_⟩
  · intro reason hfile
    exact Setup.runOn_of_readFile_error hw (Session.readFile_of_error hfile _)
  intro program hfile
  refine ⟨?_, ?_⟩
  · intro large
    obtain ⟨t, hread, hlog⟩ := Session.readFile_of_too_large hdraws (setup.started w) hfile large
    rw [Setup.runOn_of_readFile_error hw hread, hlog]
    rfl
  intro fits opened
  obtain ⟨s, hread, hmachine, hlog⟩ :=
    Session.readFile_of_fits hdraws (setup.started w) hfile fits
  refine ⟨?_, ?_⟩
  · intro hleaves hlimit
    obtain ⟨t, hplay, hlog'⟩ := Session.play_of_leaves hdraws hleaves s hlimit
    rw [Setup.runOn_of_left hw hread hplay, hlog', hlog]
    rfl
  · intro hstays hquiet k f hlimit hfaults
    obtain ⟨t, htake, hmachine', hlog'⟩ := Session.takeEvents_of_stays hdraws hstays s
    have hloaded : s.machine = ((Machine.powerOn setup.random).load program).machine := hmachine
    rw [← hloaded, ← hmachine'] at hfaults
    obtain ⟨u, hplay, hlog''⟩ :=
      Session.play_of_faultsAfter hdraws hfaults htake rfl hquiet hlimit
    rw [Setup.runOn_of_halted hw hread hplay, hlog'', hlog', hlog]
    rfl

/-- The first word takes key 0, which the first event presses; the second is no instruction. -/
theorem session_endings_of_refused_word :
    let program : List UInt8 := [0xF2, 0x0A, 0x81, 0x28]
    let setup : Setup := ⟨1, "rom.ch8", .ok program, ⟨Vector.replicate 8 0, 0⟩⟩
    let cycles : Nat → Cycle := fun j =>
      ⟨if j = 0 then [.keyDown "X", .keyUp "Z", .keyDown "Space"] else [], 3 * j + 1⟩
    let fault : Fault := .invalidInstruction 0x8128 0x202
    setup.scale < 67108864 ∧ 64 * setup.scale ≤ 16384 ∧ program.length ≤ 3584 ∧
      (∀ e ∈ (cycles 0).events, ¬e.Leaves) ∧ (∀ j, 0 < j → (cycles j).events = []) ∧
      (((Machine.powerOn setup.random).load program).machine.after
        ((cycles 0).events.filterMap Event.command?)).FaultsAfter 1 fault ∧
      setup.run cycles 2 = ⟨[.opened "rom.ch8" 4, .rejected 0x8128 0x202, .halting fault],
        some (.error (.fault fault))⟩ := by
  intro program setup cycles fault
  have hscale : setup.scale < 67108864 := by decide
  have hwidth : 64 * setup.scale ≤ 16384 := by decide
  have hlength : program.length ≤ 3584 := by decide
  have hstays : ∀ e ∈ (cycles 0).events, ¬e.Leaves := by
    simp [cycles, Event.Leaves]
  have hquiet : ∀ j, 0 < j → (cycles j).events = [] := by
    intro j hj
    exact if_neg (Nat.ne_of_gt hj)
  have hfaults : (((Machine.powerOn setup.random).load program).machine.after
      ((cycles 0).events.filterMap Event.command?)).FaultsAfter 1 fault := by
    constructor
    · decide +kernel
    · decide +kernel
    · decide +kernel
  have hendings := session_endings (Graphics.inMemory_refusesWide _ _) Graphics.software_limitsSides
    (Graphics.inMemory_draws _ _) setup hscale cycles 2
  have hrun := (hendings.2.2 hwidth).2 program rfl
  exact ⟨hscale, hwidth, hlength, hstays, hquiet, hfaults,
    (hrun.2 hlength).2 hstays hquiet 1 fault (by decide) hfaults⟩

/-- A window of 64 times 257 pixels is not too wide to be asked for but too large to be made, so
that a missing file is not what such a session reports. -/
theorem missing_file_behind_large_window :
    let reason := "No such file or directory (os error 2)"
    let setup : Setup := ⟨257, "rom.ch8", .error reason, ⟨Vector.replicate 8 0, 0⟩⟩
    let result := (setup.run (fun _ => ⟨[], 0⟩) 1).result
    1 ≤ setup.scale ∧ setup.scale ≤ 67108863 ∧ 64 * setup.scale < 2147483648 ∧
      setup.file = .error reason ∧ result ≠ some (.error (.unreadable setup.path reason)) ∧
      result = some (.error (.window .tooLarge)) := by
  intro reason setup result
  have hresult : result = some (.error (.window .tooLarge)) := rfl
  refine ⟨by decide, by decide, by decide, rfl, ?_, hresult⟩
  rw [hresult]
  simp

end ChipEight
