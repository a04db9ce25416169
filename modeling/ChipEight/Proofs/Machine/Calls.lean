import ChipEight.Proofs.Instruction.Table
import ChipEight.Proofs.Machine.Commands

namespace ChipEight

/-!
# The call stack is a bounded list

The live slots of the call stack behave like a list of at most sixteen return addresses,
extended by calls and shortened by returns at the same end. What a return leaves behind
in the slots above the depth is never seen again.
-/

namespace CallStack

theorem getElem?_live (s : CallStack) (k : Nat) :
    s.live[k]? = if k < s.depth then s.slots[k]? else none := by
  simp only [live, List.getElem?_take, Vector.getElem?_toList]

theorem slots_of_isPrefix {s : CallStack} {calls : List UInt16} (h : calls <+: s.live) {k : Nat}
    (hk : k < calls.length) : s.slots[k]? = calls[k]? := by
  have hdepth : k < s.depth := by
    have := h.length_le
    rw [length_live] at this
    omega
  have hget := List.prefix_iff_getElem?.mp h k hk
  rw [getElem?_live, if_pos hdepth] at hget
  rw [hget, List.getElem?_eq_getElem hk]

/-- The same depth, and the same slots below it. -/
structure SameLive (s t : CallStack) : Prop where
  depth : s.depth = t.depth
  slots : ∀ k < s.depth, s.slots[k]? = t.slots[k]?

theorem sameLive_iff (s t : CallStack) : s.SameLive t ↔ s.live = t.live := by
  constructor
  · intro h
    apply List.ext_getElem?
    intro k
    rw [getElem?_live, getElem?_live, h.depth]
    split
    · exact h.slots k (by rwa [h.depth])
    · rfl
  · intro h
    have hdepth : s.depth = t.depth := by rw [← length_live, h, length_live]
    refine ⟨hdepth, ?_⟩
    intro k hk
    have hget : s.live[k]? = t.live[k]? := by rw [h]
    rwa [getElem?_live, getElem?_live, if_pos hk, if_pos (hdepth ▸ hk)] at hget

theorem exists_push? {s : CallStack} (h : s.live.length < 16) (a : UInt16) :
    ∃ t, s.push? a = some t ∧ t.live = s.live ++ [a] := by
  rw [length_live] at h
  have hnone := s.push?_eq_none_iff a
  cases hs : s.push? a with
  | none => exact absurd (hnone.mp hs) (Nat.ne_of_lt h)
  | some t => exact ⟨t, rfl, live_of_push? hs⟩

theorem exists_pop? {s : CallStack} {rest : List UInt16} {back : UInt16}
    (h : s.live = rest ++ [back]) : ∃ t, s.pop? = some (back, t) ∧ t.live = rest := by
  cases hs : s.pop? with
  | none =>
      have hlen := s.length_live
      simp [h, s.pop?_eq_none_iff.mp hs] at hlen
  | some p =>
      rw [live_of_pop? hs] at h
      obtain ⟨hinit, hlast⟩ := List.append_inj' h rfl
      obtain rfl : p.1 = back := List.singleton_inj.mp hlast
      exact ⟨p.2, rfl, hinit⟩

namespace SameLive

variable {s t : CallStack}

theorem push? (h : s.SameLive t) (a : UInt16) : Option.Rel SameLive (s.push? a) (t.push? a) := by
  have hlive := (sameLive_iff s t).mp h
  rcases Nat.lt_or_eq_of_le s.depth_le with hroom | hfull
  · obtain ⟨p, hp, hpush⟩ := exists_push? (s.length_live ▸ hroom) a
    obtain ⟨q, hq, hpush'⟩ := exists_push? (t.length_live ▸ h.depth ▸ hroom) a
    rw [hp, hq]
    exact .some ((sameLive_iff p q).mpr (by rw [hpush, hpush', hlive]))
  · rw [(s.push?_eq_none_iff a).mpr hfull, (t.push?_eq_none_iff a).mpr (h.depth ▸ hfull)]
    exact .none

theorem pop? (h : s.SameLive t) :
    Option.Rel (fun p q => p.1 = q.1 ∧ p.2.SameLive q.2) s.pop? t.pop? := by
  have hlive := (sameLive_iff s t).mp h
  cases hs : s.pop? with
  | none =>
      rw [t.pop?_eq_none_iff.mpr (h.depth ▸ s.pop?_eq_none_iff.mp hs)]
      exact .none
  | some p =>
      obtain ⟨q, hq, hrest⟩ := exists_pop? (hlive ▸ live_of_pop? hs)
      rw [hq]
      exact .some ⟨rfl, (sameLive_iff _ _).mpr hrest.symm⟩

end SameLive

end CallStack

namespace Machine

variable {m : Machine}

theorem step_of_push? {calls : CallStack} (hw : m.state.fetch.IsCall)
    (h : m.state.calls.push? (m.state.counter + 2) = some calls) :
    m.step = ⟨{ m with state := { m.state with
      counter := UInt16.ofNat m.state.fetch.nnn.val, calls } }, [m.fetched], .ok ()⟩ := by
  rw [step_of_some hw.ofWord?]
  simp only [perform, Instruction.execute, past, State.advance, h]
  rfl

theorem step_of_push?_eq_none (hw : m.state.fetch.IsCall)
    (h : m.state.calls.push? (m.state.counter + 2) = none) :
    m.step = ⟨m.past, [m.fetched], .error .stackOverflow⟩ := by
  rw [step_of_some hw.ofWord?]
  apply perform_of_error
  simp only [Instruction.execute, past, State.advance, h]

theorem step_of_pop? {back : UInt16} {calls : CallStack} (hw : m.state.fetch.IsReturn)
    (h : m.state.calls.pop? = some (back, calls)) :
    m.step = ⟨{ m with state := { m.state with counter := back, calls } },
      [m.fetched], .ok ()⟩ := by
  rw [step_of_some hw.ofWord?]
  simp only [perform, Instruction.execute, past, State.advance, h]
  rfl

theorem step_of_pop?_eq_none (hw : m.state.fetch.IsReturn) (h : m.state.calls.pop? = none) :
    m.step = ⟨m.past, [m.fetched], .error .stackUnderflow⟩ := by
  rw [step_of_some hw.ofWord?]
  apply perform_of_error
  simp only [Instruction.execute, past, State.advance, h]

theorem calls_step_of_not_links (hcall : ¬m.state.fetch.IsCall) (hret : ¬m.state.fetch.IsReturn) :
    m.step.machine.state.calls = m.state.calls := by
  rcases m.step_cases with ⟨_, h⟩ | ⟨i, f, _, _, h⟩ | ⟨i, e, hi, he, h⟩
  · rw [h]
    rfl
  · rw [h]
    rfl
  · rw [h]
    have hl : ¬i.Links := by
      intro hl
      cases i with
      | call target => exact hcall ((Word.isCall_iff hi).mpr ⟨target, rfl⟩)
      | ret => exact hret ((Word.isReturn_iff hi).mpr rfl)
      | _ => exact hl
    have hkept : e.state.calls = m.past.state.calls := Instruction.calls_of_execute hl he
    exact hkept

/-- What becomes of a list of return addresses when a machine obeys a command. -/
structure CallsFollow (m : Machine) (c : Command) (before behind : List UInt16) : Prop where
  enter : c = .step → m.state.fetch.IsCall → before.length < 16 →
    (m.obey c).result = .ok () ∧ behind = before ++ [m.state.counter + 2] ∧
      (m.obey c).machine.state.counter = UInt16.ofNat m.state.fetch.nnn.val
  full : c = .step → m.state.fetch.IsCall → before.length = 16 →
    (m.obey c).result = .error .stackOverflow ∧ behind = before
  leave : c = .step → m.state.fetch.IsReturn → ∀ rest back, before = rest ++ [back] →
    (m.obey c).result = .ok () ∧ behind = rest ∧ (m.obey c).machine.state.counter = back
  empty : c = .step → m.state.fetch.IsReturn → before = [] →
    (m.obey c).result = .error .stackUnderflow ∧ behind = []
  restart : c.Restarts → (m.obey c).result = .ok () → behind = []
  other : ¬(c = .step ∧ (m.state.fetch.IsCall ∨ m.state.fetch.IsReturn)) →
    ¬(c.Restarts ∧ (m.obey c).result = .ok ()) → behind = before

theorem live_of_restarts {c : Command} (hc : c.Restarts) (h : (m.obey c).result = .ok ()) :
    (m.obey c).machine.state.calls.live = [] := by
  rcases obey_of_restarts hc with ⟨state, output, hempty, heq⟩ | ⟨f, heq⟩
  · rw [heq, hempty]
    rfl
  · rw [heq] at h
    cases h

theorem calls_obey_of_not_restarts {c : Command} (hstep : c ≠ .step)
    (hc : ¬(c.Restarts ∧ (m.obey c).result = .ok ())) :
    (m.obey c).machine.state.calls = m.state.calls := by
  obtain ⟨_, delay, screen, hs⟩ := m.obey_of_ne_step hstep (mt (renews_iff m c).mp hc)
  rw [hs]

theorem callsFollow_obey (m : Machine) (c : Command) :
    m.CallsFollow c m.state.calls.live (m.obey c).machine.state.calls.live where
  enter := by
    rintro rfl hw hroom
    obtain ⟨calls, hpush, hlive⟩ := CallStack.exists_push? hroom (m.state.counter + 2)
    rw [obey, step_of_push? hw hpush]
    exact ⟨rfl, hlive, rfl⟩
  full := by
    rintro rfl hw hfull
    rw [CallStack.length_live] at hfull
    rw [obey, step_of_push?_eq_none hw ((m.state.calls.push?_eq_none_iff _).mpr hfull)]
    exact ⟨rfl, rfl⟩
  leave := by
    rintro rfl hw rest back hlive
    obtain ⟨calls, hpop, hrest⟩ := CallStack.exists_pop? hlive
    rw [obey, step_of_pop? hw hpop]
    exact ⟨rfl, hrest, rfl⟩
  empty := by
    rintro rfl hw hempty
    have hdepth : m.state.calls.depth = 0 := by rw [← CallStack.length_live, hempty]; rfl
    rw [obey, step_of_pop?_eq_none hw (m.state.calls.pop?_eq_none_iff.mpr hdepth)]
    exact ⟨rfl, hempty⟩
  restart := live_of_restarts
  other := by
    intro hlink hrestart
    by_cases hstep : c = .step
    · subst hstep
      simp only [true_and, not_or] at hlink
      rw [obey, calls_step_of_not_links hlink.1 hlink.2]
    · rw [calls_obey_of_not_restarts hstep hrestart]

/-- Equal but for the slots of the call stack that do not count. -/
structure SameButStale (m n : Machine) : Prop where
  calls : m.state.calls.SameLive n.state.calls
  rest : n = { m with state := { m.state with calls := n.state.calls } }

end Machine

/-- The same answer, from machines that are equal but for slots that do not count. -/
structure Reply.SameButStale (a b : Reply) : Prop where
  machine : a.machine.SameButStale b.machine
  result : a.result = b.result
  output : a.output = b.output

namespace Machine

namespace SameButStale

variable {m n : Machine}

theorem eq_mapParts (h : m.SameButStale n) : n = m.mapParts (fun _ => n.state.calls) id := h.rest

theorem fetch_eq (h : m.SameButStale n) : n.state.fetch = m.state.fetch := by
  rw [h.rest]
  rfl

theorem perform (h : m.SameButStale n) (i : Instruction) :
    (m.perform i).SameButStale (n.perform i) := by
  obtain ⟨hcalls, hrest⟩ := h
  generalize n.state.calls = t at hcalls hrest
  subst hrest
  by_cases hl : i.Links
  · cases i with
    | call target =>
        have hpush := hcalls.push? (m.state.counter + 2)
        simp only [Machine.perform, Instruction.execute, past, State.advance]
        generalize m.state.calls.push? (m.state.counter + 2) = p at hpush ⊢
        generalize t.push? (m.state.counter + 2) = q at hpush ⊢
        cases hpush with
        | none => exact ⟨⟨hcalls, rfl⟩, rfl, rfl⟩
        | some hpq => exact ⟨⟨hpq, rfl⟩, rfl, rfl⟩
    | ret =>
        have hpop := hcalls.pop?
        simp only [Machine.perform, Instruction.execute, past, State.advance]
        generalize m.state.calls.pop? = p at hpop ⊢
        generalize t.pop? = q at hpop ⊢
        cases hpop with
        | none => exact ⟨⟨hcalls, rfl⟩, rfl, rfl⟩
        | @some p q hpq =>
            obtain ⟨back, calls⟩ := p
            obtain ⟨rfl, hc⟩ := hpq
            exact ⟨⟨hc, rfl⟩, rfl, rfl⟩
    | _ => exact hl.elim
  · have hexec := Instruction.execute_mapParts (i := i) (p := id) (q := fun _ => t) (r := id)
      (fun _ => rfl) (fun h => absurd h hl) (fun _ => rfl) m.keys m.random m.past.state
    cases he : i.execute m.keys m.random m.past.state with
    | error f =>
        rw [he] at hexec
        rw [perform_of_error he, perform_of_error hexec]
        exact ⟨⟨hcalls, rfl⟩, rfl, rfl⟩
    | ok e =>
        rw [he] at hexec
        have hkept : e.state.calls = m.past.state.calls := Instruction.calls_of_execute hl he
        rw [perform_of_ok he, perform_of_ok hexec]
        exact ⟨⟨hkept ▸ hcalls, rfl⟩, rfl, rfl⟩

theorem step (h : m.SameButStale n) : m.step.SameButStale n.step := by
  cases hi : Instruction.ofWord? m.state.fetch with
  | none =>
      rw [step_of_none hi, step_of_none (h.fetch_eq ▸ hi), h.rest]
      exact ⟨⟨h.calls, rfl⟩, rfl, rfl⟩
  | some i =>
      rw [step_of_some hi, step_of_some (h.fetch_eq ▸ hi)]
      exact h.perform i

theorem obey (h : m.SameButStale n) (c : Command) : (m.obey c).SameButStale (n.obey c) := by
  by_cases hr : c.Restarts
  · rcases obey_of_restarts hr with ⟨state, output, _, heq⟩ | ⟨f, heq⟩
    · rw [heq, heq, h.rest]
      exact ⟨⟨⟨rfl, fun _ _ => rfl⟩, rfl⟩, rfl, rfl⟩
    · rw [heq, heq]
      exact ⟨h, rfl, rfl⟩
  · by_cases hstep : c = .step
    · subst hstep
      exact h.step
    · have hkept := calls_obey_of_not_restarts (m := m) hstep fun hc => hr hc.1
      rw [h.eq_mapParts, obey_mapParts m _ id hstep hr]
      exact ⟨⟨hkept ▸ h.calls, rfl⟩, rfl, rfl⟩

theorem after (h : m.SameButStale n) (commands : List Command) :
    (m.after commands).SameButStale (n.after commands) :=
  after_related (R := SameButStale) (fun hmn c => (hmn.obey c).machine) h commands

end SameButStale

/-- After any commands from power-on, the live slots of the call stack are a list of at most
sixteen return addresses, oldest first, which the next command treats as such a list; and from
machines that differ only in slots above the depth, the same commands give the same answers and
machines that differ in no more. -/
theorem calls_form_bounded_list :
    (∀ random, (powerOn random).state.calls.live = [] ∧ ∀ commands,
      let m := (powerOn random).after commands
      let live := m.state.calls.live
      m.state.calls.depth ≤ 16 ∧ live.length = m.state.calls.depth ∧
      (∀ k < m.state.calls.depth, live[k]? = m.state.calls.slots[k]?) ∧
      ∀ next, m.CallsFollow next live (m.obey next).machine.state.calls.live) ∧
    ∀ m n : Machine, m.SameButStale n → ∀ commands next,
      (m.after commands).SameButStale (n.after commands) ∧
      ((m.after commands).obey next).SameButStale ((n.after commands).obey next) ∧
      (m.after commands).drawnBy next = (n.after commands).drawnBy next := by
  constructor
  · intro random
    refine ⟨rfl, ?_⟩
    intro commands m live
    refine ⟨m.state.calls.depth_le, m.state.calls.length_live, ?_, m.callsFollow_obey⟩
    intro k hk
    rw [CallStack.getElem?_live, if_pos hk]
  · intro m n h commands next
    have hafter := h.after commands
    have hnext := hafter.obey next
    refine ⟨hafter, hnext, ?_⟩
    rw [drawnBy, drawnBy, hnext.machine.rest, hafter.rest]

theorem calls_form_bounded_list_of_stale_slots :
    let random : Generator := ⟨Vector.replicate 8 0, 0⟩
    let m := ((powerOn random).load [0x22, 0x00]).machine
    let n := m.mapParts (fun _ => ⟨Vector.replicate 16 0xABCD, 0, Nat.zero_le _⟩) id
    let commands := [.step, .tick, .step]
    m.SameButStale n ∧ (m.after commands).SameButStale (n.after commands) ∧
      ((m.after commands).obey .step).output = ((n.after commands).obey .step).output := by
  intro random m n commands
  have hlive : m.state.calls.SameLive n.state.calls :=
    ⟨rfl, fun k hk => absurd hk (Nat.not_lt_zero k)⟩
  have h : m.SameButStale n := ⟨hlive, rfl⟩
  have hrun := calls_form_bounded_list.2 m n h commands .step
  exact ⟨h, hrun.1, hrun.2.1.output⟩

end Machine

end ChipEight
