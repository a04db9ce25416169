import ChipEight.Machine

namespace ChipEight

/-!
# Runs

A run obeys commands one after the other until one is refused, and keeps what the
machine let out on the way.
-/

structure Run where
  machine : Machine
  output : Array Output
  /-- How many commands were obeyed. -/
  done : Nat
  result : Except Fault Unit

namespace Run

def start (m : Machine) : Run := ⟨m, #[], 0, .ok ()⟩

/-- Obey one more command, unless one has been refused. -/
def obey (r : Run) (c : Command) : Run :=
  match r with
  | ⟨m, output, done, .ok ()⟩ =>
    let a := m.obey c
    match a.result with
    | .ok () => ⟨a.machine, output ++ a.output, done + 1, .ok ()⟩
    | .error f => ⟨a.machine, output ++ a.output, done, .error f⟩
  | stopped => stopped

def obeyTimes (r : Run) (c : Command) : Nat → Run
  | 0 => r
  | count + 1 => (r.obey c).obeyTimes c count

@[simp] theorem obeyTimes_zero (r : Run) (c : Command) : r.obeyTimes c 0 = r := rfl

end Run

end ChipEight
