import ChipEight.CommandLine.Reader
import ChipEight.Proofs.CommandLine.Conventions

namespace ChipEight.CommandLine

/-!
# Numbers for settings

What the reader makes of the values of settings. A number that fits is kept by a setting that has
none yet, one that does not is refused; what becomes of one setting touches none of the others, nor
the name of the program file.
-/

theorem exists_of_bind_eq_ok {α β : Type} {x : Except Stop α} {f : α → Except Stop β} {b : β}
    (h : x >>= f = .ok b) : ∃ a, x = .ok a ∧ f a = .ok b := by
  cases x with
  | error e => contradiction
  | ok a => exact ⟨a, rfl, h⟩

namespace Given

/-- The number that a setting has. -/
def number? (g : Given) : Setting → Option Nat
  | .clock => g.clock.map UInt32.toNat
  | .scale => g.scale.map UInt32.toNat
  | .seed => g.seed.map UInt64.toNat

theorem number?_nothing (o : Setting) : nothing.number? o = none := by
  cases o <;> rfl

def withPath (word : List Char) (g : Given) : Given := { g with path := some word }

/-- A number in the place of a setting. -/
def keep (g : Given) (n : Nat) : Setting → Given
  | .clock => { g with clock := some (.ofNat n) }
  | .scale => { g with scale := some (.ofNat n) }
  | .seed => { g with seed := some (.ofNat n) }

/-- Give settings their values in order, up to the first that cannot be given. -/
def assignAll (g : Given) (given : List (Setting × String)) : Except Stop Given :=
  given.foldlM (fun g entry => g.assign entry.1 entry.2.toList) g

variable {g g' : Given} {o : Setting} {value : List Char}

theorem has_eq_false (h : g.number? o = none) : g.has o = false := by
  cases o <;> simpa [number?, has] using h

section Denotes

variable {n : Nat} (hvalue : Denotes value n)
include hvalue

theorem assign_of_fits (hfree : g.number? o = none) (hfits : n < o.bound) :
    g.assign o value = .ok (g.keep n o) := by
  have hhas := has_eq_false hfree
  cases o with
  | clock | scale =>
      have hread : readUInt32 value = .ok (.ofNat n) := hvalue.readUInt32_eq.trans (if_pos hfits)
      simp [assign, hhas, hread, keep]
  | seed =>
      have hread : readUInt64 value = .ok (.ofNat n) := hvalue.readUInt64_eq.trans (if_pos hfits)
      simp [assign, hhas, hread, keep]

theorem exists_error_assign (hlarge : o.bound ≤ n) : ∃ e, g.assign o value = .error e := by
  unfold assign
  split
  · exact ⟨_, rfl⟩
  · cases o with
    | clock | scale =>
        have hread := hvalue.readUInt32_eq.trans (if_neg (Nat.not_lt.mpr hlarge))
        simp [hread]
    | seed =>
        have hread := hvalue.readUInt64_eq.trans (if_neg (Nat.not_lt.mpr hlarge))
        simp [hread]

end Denotes

/-! ## What is left as it was -/

theorem number?_assign_of_ne (h : g.assign o value = .ok g') {o' : Setting} (hne : o' ≠ o) :
    g'.number? o' = g.number? o' := by
  unfold assign at h
  split at h
  · contradiction
  · cases o <;> dsimp only at h <;> split at h <;> cases h <;> cases o' <;>
      first | rfl | contradiction

theorem path_of_assign (h : g.assign o value = .ok g') : g'.path = g.path := by
  unfold assign at h
  split at h
  · contradiction
  · cases o <;> dsimp only at h <;> split at h <;> cases h <;> rfl

/-- The file name and the numbers do not meet. -/
theorem assign_withPath (word : List Char) (o : Setting) (value : List Char) :
    (g.withPath word).assign o value = (g.assign o value).map (withPath word) := by
  unfold assign
  have hhas : (g.withPath word).has o = g.has o := by cases o <;> rfl
  rw [hhas]
  split
  · rfl
  · cases o <;> dsimp only <;> split <;> rfl

section AssignAll

variable {given : List (Setting × String)} (h : g.assignAll given = .ok g')
include h

theorem number?_assignAll (ho : o ∉ given.map Prod.fst) : g'.number? o = g.number? o := by
  induction given generalizing g with
  | nil =>
      obtain rfl := Except.ok.inj h
      rfl
  | cons entry rest ih =>
      rw [List.map_cons, List.mem_cons, not_or] at ho
      rw [assignAll, List.foldlM_cons] at h
      obtain ⟨between, hassign, hrest⟩ := exists_of_bind_eq_ok h
      exact (ih hrest ho.2).trans (number?_assign_of_ne hassign ho.1)

theorem path_of_assignAll : g'.path = g.path := by
  induction given generalizing g with
  | nil =>
      obtain rfl := Except.ok.inj h
      rfl
  | cons entry rest ih =>
      rw [assignAll, List.foldlM_cons] at h
      obtain ⟨between, hassign, hrest⟩ := exists_of_bind_eq_ok h
      exact (ih hrest).trans (path_of_assign hassign)

end AssignAll

/-! ## Requests -/

theorem request_nothing (word : List Char) :
    (nothing.withPath word).request = .ok (.plain (String.ofList word)) := rfl

theorem request_keep {word : List Char} {r : Request} (h : (g.withPath word).request = .ok r)
    (n : Nat) (o : Setting) : ((g.keep n o).withPath word).request = .ok (r.withNumber n o) := by
  obtain rfl := Except.ok.inj h
  cases o <;> rfl

end Given

end ChipEight.CommandLine
