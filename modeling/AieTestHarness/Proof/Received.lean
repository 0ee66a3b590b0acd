import Mathlib.Data.List.Infix
import AieTestHarness.Server.Received
import AieTestHarness.Proof.Main

/-!
# Where a received file goes

The name of a file comes from the peer and is joined to the directory as it is. What is opened is
the last component of the name in the directory to which the system follows the others, so the file
lands in the directory that was given if and only if they lead back to it.
-/

namespace AieTestHarness

open Chunks Sockets

section Received

variable {d d₁ d' : Disk} {dir given p q : Path} {n n' : Name} {e : Fault}

/-! ### What a call that returns has done -/

theorem given_eq (hne : dir.string ≠ []) (h : givenPath d dir = .ok (given, d₁)) : given = dir := by
  rw [givenPath, if_neg hne] at h
  obtain ⟨found, -, h⟩ := Loops.bind_eq_ok.mp h
  cases found with
  | true =>
      cases h
      rfl
  | false =>
      obtain ⟨_, -, h⟩ := Loops.bind_eq_ok.mp h
      cases h
      rfl

end Received

def workDisk : Disk where
  cur := [[119]]
  entry q := if q = [] ∨ q = [[119]] ∨ q = [[119], xclbins] then some .directory else none
  denied _ _ := false

end AieTestHarness
