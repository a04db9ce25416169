namespace ChipEight.Trapping

/-!
# Arithmetic that traps

Sums, differences and products that have to fit their type, shifts by fewer places than
there are, and access to vectors inside their bounds. Nothing here wraps around or is cut
off: a computation that leaves its range ends in a trap.
-/

inductive Trap
  | overflow
  | outOfBounds
  | unequalLengths
  deriving DecidableEq, Repr

/-- A computation that may trap. -/
abbrev Guarded := Except Trap

/-- How many sizes there are. Positions and lengths are natural numbers below this. -/
def sizeLimit : Nat := 18446744073709551616

/-- A number that has to be below a limit. -/
def below (limit n : Nat) : Guarded Nat := if n < limit then .ok n else .error .overflow

def addSize (a b : Nat) : Guarded Nat := below sizeLimit (a + b)

def subSize (a b : Nat) : Guarded Nat := if b ≤ a then .ok (a - b) else .error .overflow

def add8 (a b : UInt8) : Guarded UInt8 := do
  return UInt8.ofNat (← below 256 (a.toNat + b.toNat))

def add16 (a b : UInt16) : Guarded UInt16 := do
  return UInt16.ofNat (← below 65536 (a.toNat + b.toNat))

def mul16 (a b : UInt16) : Guarded UInt16 := do
  return UInt16.ofNat (← below 65536 (a.toNat * b.toNat))

def shiftRight8 (a : UInt8) (places : Nat) : Guarded UInt8 := do
  return a >>> UInt8.ofNat (← below 8 places)

section Vectors

variable {α : Type} {n : Nat}

def lookup (v : Vector α n) (i : Nat) : Guarded α :=
  if h : i < n then .ok (v.get ⟨i, h⟩) else .error .outOfBounds

def update (v : Vector α n) (i : Nat) (a : α) : Guarded (Vector α n) :=
  if h : i < n then .ok (v.set i a h) else .error .outOfBounds

/-- Replace the part from `start` up to `stop` by a list, which has to be as long. -/
def copyInto (v : Vector α n) (start stop : Nat) (source : List α) : Guarded (Vector α n) :=
  if start ≤ stop ∧ stop ≤ n then
    if source.length = stop - start then
      .ok (Vector.ofFn fun i =>
        if start ≤ i.val then source[i.val - start]?.getD (v.get i) else v.get i)
    else .error .unequalLengths
  else .error .outOfBounds

end Vectors

@[simp] theorem ok_bind {α β : Type} (a : α) (f : α → Guarded β) : (.ok a >>= f) = f a := rfl

@[simp] theorem pure_eq_ok {α : Type} (a : α) : (pure a : Guarded α) = .ok a := rfl

theorem below_of_lt {limit n : Nat} (h : n < limit) : below limit n = .ok n := if_pos h

theorem addSize_of_lt {a b : Nat} (h : a + b < sizeLimit) : addSize a b = .ok (a + b) :=
  below_of_lt h

theorem subSize_of_le {a b : Nat} (h : b ≤ a) : subSize a b = .ok (a - b) := if_pos h

theorem add8_of_lt {a b : UInt8} (h : a.toNat + b.toNat < 256) : add8 a b = .ok (a + b) := by
  simp [add8, below_of_lt h]

theorem add16_of_lt {a b : UInt16} (h : a.toNat + b.toNat < 65536) :
    add16 a b = .ok (a + b) := by
  simp [add16, below_of_lt h]

theorem mul16_of_lt {a b : UInt16} (h : a.toNat * b.toNat < 65536) :
    mul16 a b = .ok (a * b) := by
  simp [mul16, below_of_lt h]

theorem shiftRight8_of_lt (a : UInt8) {places : Nat} (h : places < 8) :
    shiftRight8 a places = .ok (a >>> UInt8.ofNat places) := by
  simp [shiftRight8, below_of_lt h]

example : add16 0xFFFF 1 = .error .overflow := rfl

section Vectors

variable {α β : Type} {n : Nat}

theorem lookup_of_lt (v : Vector α n) {i : Nat} (h : i < n) : lookup v i = .ok v[i] := dif_pos h

theorem update_of_lt (v : Vector α n) {i : Nat} (h : i < n) (a : α) :
    update v i a = .ok (v.set i a h) :=
  dif_pos h

/-- A copy that fits gives the vector that has the list from `start` on and is unchanged
elsewhere. -/
theorem copyInto_eq_ok {v w : Vector α n} {start stop : Nat} {source : List α}
    (hstop : stop = start + source.length) (hle : stop ≤ n)
    (hin : ∀ k (hk : k < source.length) (hi : start + k < n), w[start + k] = source[k])
    (hout : ∀ i (hi : i < n), i < start ∨ stop ≤ i → w[i] = v[i]) :
    copyInto v start stop source = .ok w := by
  have hlen : source.length = stop - start := by omega
  rw [copyInto, if_pos ⟨by omega, hle⟩, if_pos hlen]
  congr 1
  apply Vector.ext
  intro i hi
  rw [Vector.getElem_ofFn]
  by_cases hstart : start ≤ i
  · by_cases hk : i - start < source.length
    · have hi' : start + (i - start) = i := by omega
      have hw := hin (i - start) hk (by omega)
      simp only [hi'] at hw
      rw [if_pos hstart, hw, List.getElem?_eq_getElem hk, Option.getD_some]
    · have hnone : source[i - start]? = none := List.getElem?_eq_none (Nat.not_lt.mp hk)
      rw [if_pos hstart, hnone, hout i hi (by omega)]
      rfl
  · rw [if_neg hstart, hout i hi (by omega)]
    rfl

/-- A loop none of whose rounds traps does what it does without the guards. -/
theorem foldlM_eq_ok {f : β → α → Guarded β} {g : β → α → β} {l : List α}
    (h : ∀ a ∈ l, ∀ b, f b a = .ok (g b a)) (b : β) : l.foldlM f b = .ok (l.foldl g b) := by
  induction l generalizing b with
  | nil => rfl
  | cons a rest ih =>
      rw [List.foldlM_cons, h a List.mem_cons_self, ok_bind, List.foldl_cons]
      exact ih (fun a' ha' => h a' (List.mem_cons_of_mem a ha')) (g b a)

end Vectors

end ChipEight.Trapping
