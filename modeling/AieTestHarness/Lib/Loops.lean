import Mathlib.Data.List.Basic

/-!
# Loops that can fail

A loop with an exception in its body is a `foldlM` in `Except`. Its one rule is the loop invariant:
what holds at the start and is kept by each pass that returns holds at the end, the invariant being
about the entries already passed.
-/

namespace Loops

variable {ε α β γ : Type*}

theorem bind_eq_ok {ε α β : Type} {x : Except ε α} {f : α → Except ε β} {b : β} :
    (x >>= f) = .ok b ↔ ∃ a, x = .ok a ∧ f a = .ok b := by
  cases x with
  | error e => simp [bind, Except.bind]
  | ok a => simp [bind, Except.bind]

@[simp]
theorem bind_ok {ε α β : Type} (a : α) (f : α → Except ε β) : (Except.ok a >>= f) = f a := rfl

/-- A computation that can be run can be tested. -/
theorem exists_of_test {ε α : Type} {e : Except ε α} (P : α → Bool)
    (h : (match e with | .ok x => P x | .error _ => false) = true) :
    ∃ x, e = .ok x ∧ P x = true := by
  cases e with
  | error _ => cases h
  | ok x => exact ⟨x, rfl, h⟩

theorem foldlM_cons_eq_ok {ε α β : Type} {f : β → α → Except ε β} {x : α} {xs : List α} {b c : β} :
    (x :: xs).foldlM f b = .ok c ↔ ∃ b', f b x = .ok b' ∧ xs.foldlM f b' = .ok c := by
  rw [List.foldlM_cons, bind_eq_ok]

/-- The loop rule. The pass over `x` knows which entries came before and which come after. -/
theorem foldlM_invariant {ε α β : Type} {f : β → α → Except ε β} {xs : List α} {b c : β}
    (I : List α → β → Prop) (hinit : I [] b)
    (hstep : ∀ done x rest b b', xs = done ++ x :: rest → I done b → f b x = .ok b' →
      I (done ++ [x]) b')
    (hloop : xs.foldlM f b = .ok c) : I xs c := by
  suffices h : ∀ (rest done : List α) (b : β), xs = done ++ rest → I done b →
      rest.foldlM f b = .ok c → I xs c from h xs [] b rfl hinit hloop
  intro rest
  induction rest with
  | nil =>
      intro done b hxs hI hrest
      rw [List.append_nil] at hxs
      simp only [List.foldlM_nil, pure, Except.pure, Except.ok.injEq] at hrest
      rw [hxs, ← hrest]
      exact hI
  | cons x rest ih =>
      intro done b hxs hI hrest
      obtain ⟨b', hx, hrest⟩ := foldlM_cons_eq_ok.mp hrest
      exact ih (done ++ [x]) b' (by simp [hxs]) (hstep done x rest b b' hxs hI hx) hrest

/-- The loop rule for progress: a pass that cannot fail under the invariant keeps the loop going. -/
theorem foldlM_ok {ε α β : Type} {f : β → α → Except ε β} {l : List α} {b : β}
    (I : List α → β → Prop) (hinit : I [] b)
    (hstep : ∀ done x rest b, l = done ++ x :: rest → I done b →
      ∃ b', f b x = .ok b' ∧ I (done ++ [x]) b') :
    ∃ c, l.foldlM f b = .ok c ∧ I l c := by
  suffices h : ∀ (rest done : List α) (b : β), l = done ++ rest → I done b →
      ∃ c, rest.foldlM f b = .ok c ∧ I l c from h l [] b rfl hinit
  intro rest
  induction rest with
  | nil =>
      intro done b hxs hI
      rw [List.append_nil] at hxs
      exact ⟨b, rfl, hxs ▸ hI⟩
  | cons x rest ih =>
      intro done b hxs hI
      obtain ⟨b', hx, hI'⟩ := hstep done x rest b hxs hI
      obtain ⟨c, hrest, hc⟩ := ih (done ++ [x]) b' (by simp [hxs]) hI'
      exact ⟨c, foldlM_cons_eq_ok.mpr ⟨b', hx, hrest⟩, hc⟩

/-- A loop that fails does so in one of its passes. -/
theorem exists_of_foldlM_error {ε α β : Type} {f : β → α → Except ε β} {l : List α} {b : β} {e : ε}
    (h : l.foldlM f b = .error e) : ∃ x ∈ l, ∃ b', f b' x = .error e := by
  induction l generalizing b with
  | nil => cases h
  | cons x l ih =>
      rw [List.foldlM_cons] at h
      cases hx : f b x with
      | error e' =>
          rw [hx] at h
          cases h
          exact ⟨x, List.mem_cons_self, b, hx⟩
      | ok b' =>
          rw [hx] at h
          obtain ⟨y, hy, hfail⟩ := ih h
          exact ⟨y, List.mem_cons_of_mem x hy, hfail⟩

end Loops
