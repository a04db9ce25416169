import ChipEight.Word

namespace ChipEight

/-!
# The keypad

Sixteen keys, each held or not. A register may hold a value that is no key; such a
key is never held.
-/

abbrev Key := Fin 16

def keyCount : Nat := 16

structure Keypad where
  held : Vector Bool 16
  deriving DecidableEq

namespace Keypad

def free : Keypad := ⟨Vector.replicate 16 false⟩

def isHeld (p : Keypad) (k : Key) : Bool := p.held[k]

/-- The key that a code names, if it is on the pad. -/
def key? (code : UInt8) : Option Key :=
  if h : code.toNat < 16 then some ⟨code.toNat, h⟩ else none

def holdsCode (p : Keypad) (code : UInt8) : Bool :=
  match key? code with
  | some k => p.isHeld k
  | none => false

def set (p : Keypad) (k : Key) (down : Bool) : Keypad := ⟨p.held.set k.val down k.isLt⟩

/-- The least key that is held. -/
def least? (p : Keypad) : Option Key := (List.finRange 16).find? p.isHeld

@[ext] theorem ext {p q : Keypad} (h : ∀ k, p.isHeld k = q.isHeld k) : p = q := by
  cases p with
  | mk held =>
    cases q with
    | mk held' =>
      congr 1
      apply Vector.ext
      intro i hi
      exact h ⟨i, hi⟩

@[simp] theorem key?_ofNat (k : Key) : key? (UInt8.ofNat k.val) = some k := by
  have hk : (UInt8.ofNat k.val).toNat = k.val :=
    UInt8.toNat_ofNat_of_lt' (Nat.lt_trans k.isLt (by decide))
  simp [key?, hk]

@[simp] theorem isHeld_free (k : Key) : free.isHeld k = false := by
  simp [free, isHeld]

theorem isHeld_set (p : Keypad) (k l : Key) (down : Bool) :
    (p.set k down).isHeld l = if k = l then down else p.isHeld l := by
  simp only [isHeld, set, Fin.getElem_fin, Vector.getElem_set, Fin.ext_iff]

theorem least?_eq_none_iff (p : Keypad) : p.least? = none ↔ ∀ k, p.isHeld k = false := by
  simp [least?]

end Keypad

end ChipEight
