import Mathlib.Data.List.Induction
import ChipEight.Proofs.Machine.Calls

namespace ChipEight.Machine

/-!
# Subroutines return behind their calls

A call puts a return address on top of those that are there. As long as the depth has
not come back to what it was before the call, they all stay in place, so the step that
brings it back is the return to behind that call.
-/

/-- A command either keeps the addresses up to `back` or is the return that takes `back`. -/
theorem isPrefix_or_returns {m : Machine} {calls : List UInt16} {back : UInt16}
    (h : calls ++ [back] <+: m.state.calls.live) {c : Command} (hc : ¬c.Restarts) :
    calls ++ [back] <+: (m.obey c).machine.state.calls.live ∨
      c = .step ∧ m.state.fetch.IsReturn ∧ m.step.result = .ok () ∧
        m.step.machine.state.calls.live = calls ∧ m.step.machine.state.counter = back := by
  have hfollow := m.callsFollow_obey c
  by_cases hlink : c = .step ∧ (m.state.fetch.IsCall ∨ m.state.fetch.IsReturn)
  · obtain ⟨rfl, hcall | hret⟩ := hlink
    · left
      have hle : m.state.calls.live.length ≤ 16 := by
        rw [CallStack.length_live]
        exact m.state.calls.depth_le
      rcases Nat.lt_or_eq_of_le hle with hroom | hfull
      · rw [(hfollow.enter rfl hcall hroom).2.1]
        exact h.trans (List.prefix_append _ _)
      · rw [(hfollow.full rfl hcall hfull).2]
        exact h
    · rcases List.eq_nil_or_concat m.state.calls.live with hnil | ⟨rest, top, hlive⟩
      · rw [hnil] at h
        simp at h
      · rw [List.concat_eq_append] at hlive
        obtain ⟨hok, hrest, hcounter⟩ := hfollow.leave rfl hret rest top hlive
        rw [hlive] at h
        rcases List.prefix_concat_iff.mp h with heq | hkept
        · obtain ⟨rfl, hlast⟩ := List.append_inj' heq rfl
          obtain rfl : back = top := List.singleton_inj.mp hlast
          exact Or.inr ⟨rfl, hret, hok, hrest, hcounter⟩
        · left
          rw [hrest]
          exact hkept
  · left
    rw [hfollow.other hlink fun hr => hc hr.1]
    exact h

/-- While the depth is never `calls.length`, the addresses up to `back` stay. -/
theorem isPrefix_after {m : Machine} {calls : List UInt16} {back : UInt16}
    (h : calls ++ [back] <+: m.state.calls.live) {commands : List Command}
    (hc : ∀ c ∈ commands, ¬c.Restarts)
    (hdeep : ∀ first, first <+: commands → (m.after first).state.calls.depth ≠ calls.length) :
    calls ++ [back] <+: (m.after commands).state.calls.live := by
  induction commands using List.reverseRecOn with
  | nil => exact h
  | append_singleton commands c ih =>
      have hbefore := ih (fun d hd => hc d (List.mem_append_left _ hd))
        fun first hfirst => hdeep first (hfirst.trans (List.prefix_append _ _))
      rw [after_append_singleton]
      rcases isPrefix_or_returns hbefore (hc c (by simp)) with hkept | ⟨rfl, _, _, hlive, _⟩
      · exact hkept
      · -- the return would bring the depth back
        refine absurd ?_ (hdeep _ (List.prefix_refl _))
        rw [after_append_singleton, ← CallStack.length_live]
        exact congrArg List.length hlive

/-- Behind a call that has room, and as long as the depth has not come back to what it was before
it, the slots up to and with the return address stay as they are; the first command that brings
the depth back, or lower, is a return that is obeyed, to behind the call and exactly to the depth
before it. -/
theorem subroutine_returns_behind_call {m : Machine} (hcall : m.state.fetch.IsCall)
    (hroom : m.state.calls.depth < 16) :
    let depth := m.state.calls.depth
    let back := m.state.counter + 2
    m.step.result = .ok () ∧ m.step.machine.state.calls.depth = depth + 1 ∧
    ∀ commands : List Command, (∀ c ∈ commands, ¬c.Restarts) →
      (∀ first, first <+: commands →
        (m.step.machine.after first).state.calls.depth ≠ depth) →
      let now := m.step.machine.after commands
      depth + 1 ≤ now.state.calls.depth ∧
      (∀ k < depth, now.state.calls.slots[k]? = m.state.calls.slots[k]?) ∧
      now.state.calls.slots[depth]? = some back ∧
      ∀ next : Command, ¬next.Restarts → (now.obey next).machine.state.calls.depth ≤ depth →
        next = .step ∧ now.state.fetch.IsReturn ∧ now.step.result = .ok () ∧
        now.step.machine.state.calls.depth = depth ∧ now.step.machine.state.counter = back := by
  intro depth back
  have hlen : m.state.calls.live.length = depth := m.state.calls.length_live
  obtain ⟨hok, hlive, _⟩ := (m.callsFollow_obey .step).enter rfl hcall (hlen ▸ hroom)
  refine ⟨hok, ?_, ?_⟩
  · rw [← CallStack.length_live]
    exact (congrArg List.length hlive).trans (by simp [depth])
  intro commands hc hdeep now
  have hkept : m.state.calls.live ++ [back] <+: now.state.calls.live :=
    isPrefix_after (hlive ▸ List.prefix_refl _) hc (hlen ▸ hdeep)
  have hle : depth + 1 ≤ now.state.calls.depth := by
    have := hkept.length_le
    simpa [depth] using this
  refine ⟨hle, ?_, ?_, ?_⟩
  · intro k hk
    rw [CallStack.slots_of_isPrefix hkept (by simp; omega), List.getElem?_append_left (hlen ▸ hk),
      CallStack.slots_of_isPrefix (List.prefix_refl _) (hlen ▸ hk)]
  · rw [CallStack.slots_of_isPrefix hkept (by simp; omega), ← hlen, List.getElem?_concat_length]
  · intro next hnext hback
    rcases isPrefix_or_returns hkept hnext with hstill | ⟨rfl, hret, hobeyed, hcalls, hcounter⟩
    · have := hstill.length_le
      simp only [List.length_append, CallStack.length_live, List.length_singleton] at this
      omega
    · refine ⟨rfl, hret, hobeyed, ?_, hcounter⟩
      rw [← CallStack.length_live, hcalls, hlen]

/-- A call within the call, and a word inside it that is no instruction. -/
theorem subroutine_returns_behind_call_of_nested_call :
    let m := ((powerOn ⟨Vector.replicate 8 0, 0⟩).load
      [0x22, 0x04, 0x00, 0x00, 0x22, 0x08, 0x00, 0xEE, 0x00, 0x00, 0x00, 0xEE]).machine
    let commands : List Command := [.step, .step, .tick, .step]
    let now := m.step.machine.after commands
    m.state.fetch.IsCall ∧ m.state.calls.depth < 16 ∧ (∀ c ∈ commands, ¬c.Restarts) ∧
      (∀ first, first <+: commands →
        (m.step.machine.after first).state.calls.depth ≠ m.state.calls.depth) ∧
      (now.obey .step).machine.state.calls.depth ≤ m.state.calls.depth ∧
      now.step.machine.state.counter = m.state.counter + 2 := by
  intro m commands now
  have hcall : m.state.fetch.IsCall := by decide +kernel
  have hroom : m.state.calls.depth < 16 := by decide
  have hc : ∀ c ∈ commands, ¬c.Restarts := by simp [commands, Command.Restarts]
  have hinits : ∀ first ∈ commands.inits,
      (m.step.machine.after first).state.calls.depth ≠ m.state.calls.depth := by
    decide +kernel
  have hdeep := fun first hfirst => hinits first ((List.mem_inits first commands).mpr hfirst)
  have hback : (now.obey .step).machine.state.calls.depth ≤ m.state.calls.depth := by
    decide +kernel
  have hrun := (subroutine_returns_behind_call hcall hroom).2.2 commands hc hdeep
  have hnext := hrun.2.2.2 .step (fun h => h) hback
  exact ⟨hcall, hroom, hc, hdeep, hback, hnext.2.2.2.2⟩

end ChipEight.Machine
