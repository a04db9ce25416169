namespace ChipEight

/-!
# The call stack

Up to sixteen return addresses. A return lowers the depth and leaves the entry where
it was; `live` is the list of the entries that still count, oldest first.
-/

def stackSize : Nat := 16

structure CallStack where
  slots : Vector UInt16 16
  depth : Nat
  depth_le : depth ≤ 16
  deriving DecidableEq

namespace CallStack

def empty : CallStack := ⟨Vector.replicate 16 0, 0, Nat.zero_le _⟩

/-- The return addresses of the active subroutines, oldest first. -/
def live (s : CallStack) : List UInt16 := s.slots.toList.take s.depth

/-- Enter a subroutine, unless all slots are taken. -/
def push? (s : CallStack) (a : UInt16) : Option CallStack :=
  if h : s.depth < 16 then some ⟨s.slots.set s.depth a h, s.depth + 1, h⟩ else none

/-- Leave the latest subroutine and give its return address, if there is one. -/
def pop? (s : CallStack) : Option (UInt16 × CallStack) :=
  match s with
  | ⟨_, 0, _⟩ => none
  | ⟨slots, depth + 1, h⟩ => some (slots[depth], ⟨slots, depth, Nat.le_of_succ_le h⟩)

@[simp] theorem live_empty : empty.live = [] := rfl

@[simp] theorem length_live (s : CallStack) : s.live.length = s.depth := by
  simp [live, Nat.min_eq_left s.depth_le]

theorem push?_eq_none_iff (s : CallStack) (a : UInt16) : s.push? a = none ↔ s.depth = 16 := by
  have := s.depth_le
  unfold push?
  split <;> simp <;> omega

theorem pop?_eq_none_iff (s : CallStack) : s.pop? = none ↔ s.depth = 0 := by
  rcases s with ⟨slots, _ | depth, h⟩ <;> simp [pop?]

theorem live_of_push? {s t : CallStack} {a : UInt16} (h : s.push? a = some t) :
    t.live = s.live ++ [a] := by
  unfold push? at h
  split at h
  · cases h
    have full : (s.slots.toList.take s.depth).length ≤ s.depth := List.length_take_le ..
    simp [live, List.take_add_one, List.take_set, Vector.toList_set,
      List.set_eq_of_length_le full, *]
  · cases h

theorem live_of_pop? {s t : CallStack} {a : UInt16} (h : s.pop? = some (a, t)) :
    s.live = t.live ++ [a] := by
  rcases s with ⟨slots, _ | depth, hle⟩
  · cases h
  · cases h
    simp [live, List.take_add_one]

end CallStack

end ChipEight
