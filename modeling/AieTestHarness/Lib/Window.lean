import Mathlib.Data.List.Basic
import Mathlib.Data.List.Nodup

/-!
# A window of a shift register

A shift register holds `n` entries, and shifting `x` in moves every entry up by one. A scheduler
that reads entry `k`, shifts what it read back in and only ever looks at the first `k + 1` entries
rotates this window; one that then looks at the first `k` entries only has dropped its last one.

Each is a turn of the window. However turns of the two kinds alternate, an entry waits for those
between it and the end of the window and for no others, so the turns are round robin.
-/

namespace Window

variable {α : Type*}

/-- `x` comes in at index 0, the others move up, the last one falls out. -/
def shift (x : α) (regs : List α) : List α := (x :: regs).take regs.length

@[simp]
theorem length_shift (x : α) (regs : List α) : (shift x regs).length = regs.length := by
  simp [shift]

/-- The window before a read of entry `n`: the entry read is its last one. -/
theorem take_succ_eq {regs : List α} {n : Nat} (h : n < regs.length) :
    regs.take (n + 1) = regs.take n ++ [regs[n]] := by
  rw [List.take_succ_eq_append_getElem h]

/-- Shifting the entry read back in rotates the window. -/
theorem take_succ_shift {x : α} {regs : List α} {n : Nat} (h : n < regs.length) :
    (shift x regs).take (n + 1) = x :: regs.take n := by
  rw [shift, List.take_take, Nat.min_eq_left (by omega), List.take_succ_cons]

theorem foldl_shift (xs regs : List α) :
    xs.foldl (fun r x => shift x r) regs = (xs.reverse ++ regs).take regs.length := by
  induction xs generalizing regs with
  | nil => simp
  | cons x xs ih =>
      rw [List.foldl_cons, ih, length_shift, shift, List.reverse_cons, List.append_assoc,
        List.singleton_append, List.take_append, List.take_append, List.take_take]
      congr 2
      omega

/-- A register that is shifted full holds the list in reverse. -/
theorem foldl_shift_full {xs regs : List α} (h : regs.length = xs.length) :
    xs.foldl (fun r x => shift x r) regs = xs.reverse := by
  rw [foldl_shift, h, List.take_append_of_le_length (by simp), List.take_of_length_le (by simp)]

/-! ### Round robin -/

/-- The last entry of the window is read, and goes to the front or drops out. -/
inductive Turn (x : α) : List α → List α → Prop where
  | keep (w : List α) : Turn x (w ++ [x]) (x :: w)
  | drop (w : List α) : Turn x (w ++ [x]) w

/-- One turn after the other; the list holds the entries read, the latest first. -/
inductive Turns (w : List α) : List α → List α → Prop where
  | refl : Turns w [] w
  | tail {x : α} {xs v v' : List α} : Turns w xs v → Turn x v v' → Turns w (x :: xs) v'

variable {c x : α} {w w' xs : List α}

theorem Turn.of_append (h : Turn x (w ++ [c]) w') : x = c ∧ (w' = c :: w ∨ w' = w) := by
  generalize hv : w ++ [c] = v at h
  cases h with
  | keep u =>
      obtain ⟨rfl, hlast⟩ := List.append_inj' hv rfl
      obtain rfl := List.singleton_inj.mp hlast
      exact ⟨rfl, Or.inl rfl⟩
  | drop =>
      obtain ⟨rfl, hlast⟩ := List.append_inj' hv rfl
      exact ⟨(List.singleton_inj.mp hlast).symm, Or.inr rfl⟩

theorem Turn.subset (h : Turn x w w') : w' ⊆ w := by
  cases h with
  | keep u =>
      intro y hy
      simpa [or_comm] using hy
  | drop => exact List.subset_append_left _ _

theorem Turns.subset (h : Turns w xs w') : w' ⊆ w := by
  induction h with
  | refl => exact List.Subset.refl w
  | tail _ hturn ih => exact List.Subset.trans hturn.subset ih

theorem Turns.head (h : Turns w (xs ++ [x]) w') : ∃ v, Turn x w v ∧ Turns v xs w' := by
  induction xs generalizing w' with
  | nil =>
      obtain _ | ⟨hnil, hturn⟩ := h
      cases hnil
      exact ⟨w', hturn, .refl⟩
  | cons y ys ih =>
      obtain _ | ⟨hrest, hturn⟩ := h
      obtain ⟨v, hfirst, hrest'⟩ := ih hrest
      exact ⟨v, hfirst, hrest'.tail hturn⟩

/-- Until an entry is read, what is read is what stood behind it. -/
theorem Turns.waits {kept rest : List α} (h : Turns (kept ++ c :: rest) xs w) (hc : c ∉ xs) :
    ∃ kept' rest', rest = rest' ++ xs ∧ w = kept' ++ c :: rest' := by
  induction h with
  | refl => exact ⟨kept, rest, by simp, rfl⟩
  | @tail x xs v v' _ hturn ih =>
      rw [List.mem_cons, not_or] at hc
      obtain ⟨kept', rest', hrest, rfl⟩ := ih hc.2
      rcases List.eq_nil_or_concat rest' with rfl | ⟨rest', y, rfl⟩
      · -- nothing stands behind it any more
        exact absurd hturn.of_append.1.symm hc.1
      · rw [List.concat_eq_append, ← List.cons_append, ← List.append_assoc] at hturn
        obtain ⟨rfl, rfl | rfl⟩ := hturn.of_append
        · exact ⟨x :: kept', rest', by simp [hrest], rfl⟩
        · exact ⟨kept', rest', by simp [hrest], rfl⟩

/-- An entry is read before as many turns are over as there are entries. -/
theorem Turns.mem_of_length_le (h : Turns w xs w') (hle : w.length ≤ xs.length) (hc : c ∈ w) :
    c ∈ xs := by
  by_contra hout
  obtain ⟨kept, rest, rfl⟩ := List.append_of_mem hc
  obtain ⟨kept', rest', rfl, -⟩ := h.waits hout
  simp only [List.length_append, List.length_cons] at hle
  omega

/-- Between two reads of an entry each of the others is read, in the order of the window. -/
theorem Turns.between (hnodup : (w ++ [c]).Nodup)
    (h : Turns (w ++ [c]) (xs ++ [c]) (w' ++ [c])) (hc : c ∉ xs) : xs = w := by
  have hfresh : c ∉ w := fun hmem => (List.nodup_append.mp hnodup).2.2 c hmem c (by simp) rfl
  obtain ⟨v, hfirst, hrest⟩ := h.head
  obtain ⟨-, rfl | rfl⟩ := hfirst.of_append
  · obtain ⟨kept, rest, rfl, hend⟩ :=
      Turns.waits (show Turns ([] ++ c :: w) xs (w' ++ [c]) from hrest) hc
    rcases List.eq_nil_or_concat rest with rfl | ⟨rest, y, rfl⟩
    · rfl
    · -- the entry read next would be another one
      rw [List.concat_eq_append, ← List.cons_append, ← List.append_assoc] at hend
      obtain rfl : c = y := List.singleton_inj.mp (List.append_inj' hend rfl).2
      exact absurd (by simp) hfresh
  · exact absurd (hrest.subset (by simp)) hfresh

end Window
