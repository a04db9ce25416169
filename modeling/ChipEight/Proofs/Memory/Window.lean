import ChipEight.Memory

namespace ChipEight.Memory

/-!
# Windows

The cells of some consecutive addresses, around the end of memory. Lists are stored and
read in windows: a byte outside is neither seen nor changed, and of a byte inside, what
was there before is lost.
-/

/-- The cells of `count` addresses from `a` on. -/
def Window (a count : Nat) (c : Fin 4096) : Prop := ∃ k < count, (a + k) % 4096 = c.val

instance (a count : Nat) (c : Fin 4096) : Decidable (Window a count c) :=
  inferInstanceAs (Decidable (∃ k < count, (a + k) % 4096 = c.val))

@[simp] theorem not_window_zero (a : Nat) (c : Fin 4096) : ¬Window a 0 c := by
  rintro ⟨k, hk, _⟩
  exact Nat.not_lt_zero k hk

theorem cell_add_eq_iff (a : UInt16) (k : Nat) (c : Fin 4096) :
    cell (a + UInt16.ofNat k) = c ↔ (a.toNat + k) % 4096 = c.val := by
  rw [Fin.ext_iff, val_cell_add]

section Replace

variable {m : Memory} {a : UInt16} {c : Fin 4096}

theorem read_set_of_not_window {count k : Nat} (h : ¬Window a.toNat count c) (hk : k < count)
    (b : UInt8) : (m.set c b).read (a + UInt16.ofNat k) = m.read (a + UInt16.ofNat k) := by
  refine get_set_of_ne m ?_ b
  intro heq
  exact h ⟨k, hk, (cell_add_eq_iff a k c).mp heq.symm⟩

theorem readList_set_of_not_window {count : Nat} (h : ¬Window a.toNat count c) (b : UInt8) :
    (m.set c b).readList a count = m.readList a count := by
  apply List.ext_getElem
  · rw [length_readList, length_readList]
  · intro k hk _
    rw [length_readList] at hk
    rw [getElem_readList, getElem_readList, read_set_of_not_window h hk]

theorem get_writeList_of_not_window {bytes : List UInt8} (h : ¬Window a.toNat bytes.length c) :
    (m.writeList a bytes).get c = m.get c := by
  apply get_writeList_of_forall_ne
  intro k hk heq
  exact h ⟨k, hk, (cell_add_eq_iff a k c).mp heq⟩

theorem get_writeList_of_window {bytes : List UInt8} (fits : bytes.length ≤ 4096)
    (h : Window a.toNat bytes.length c) (n : Memory) :
    (m.writeList a bytes).get c = (n.writeList a bytes).get c := by
  obtain ⟨k, hk, hc⟩ := h
  obtain rfl := (cell_add_eq_iff a k c).mpr hc
  rw [get_writeList_add hk fits, get_writeList_add hk fits]

theorem writeList_set_of_window {bytes : List UInt8} (fits : bytes.length ≤ 4096)
    (h : Window a.toNat bytes.length c) (b : UInt8) :
    (m.set c b).writeList a bytes = m.writeList a bytes := by
  apply Memory.ext
  intro d
  by_cases hd : Window a.toNat bytes.length d
  · exact get_writeList_of_window fits hd m
  · have hne : c ≠ d := by
      rintro rfl
      exact hd h
    rw [get_writeList_of_not_window hd, get_writeList_of_not_window hd, get_set_of_ne m hne]

theorem writeList_set_of_not_window {bytes : List UInt8} (fits : bytes.length ≤ 4096)
    (h : ¬Window a.toNat bytes.length c) (b : UInt8) :
    (m.set c b).writeList a bytes = (m.writeList a bytes).set c b := by
  apply Memory.ext
  intro d
  by_cases hd : Window a.toNat bytes.length d
  · have hne : c ≠ d := by
      rintro rfl
      exact h hd
    rw [get_set_of_ne _ hne]
    exact get_writeList_of_window fits hd m
  · rw [get_writeList_of_not_window hd, get_set, get_set, get_writeList_of_not_window hd]

end Replace

theorem writeList_concat (m : Memory) (a : UInt16) (bytes : List UInt8) (b : UInt8) :
    m.writeList a (bytes ++ [b]) =
      (m.writeList a bytes).write (a + UInt16.ofNat bytes.length) b := by
  induction bytes generalizing m a with
  | nil =>
      have hzero : a + UInt16.ofNat 0 = a := UInt16.add_zero a
      rw [List.nil_append, List.length_nil, hzero]
      rfl
  | cons c rest ih => rw [List.cons_append, writeList, writeList, ih, add_succ, List.length_cons]

end ChipEight.Memory
