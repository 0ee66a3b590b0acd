import AieTestHarness.Server.Main
import AieTestHarness.Proof.Sockets

/-!
# What the server survives

Only the confirmation of a connection is guarded. What comes after it is received and sent without a
guard, so the server survives a client exactly when that client breaks off before the confirmation,
or carries its upload and its download through.
-/

namespace AieTestHarness

open Slices Chunks Sockets TestHarnessMain

/-! ### What an upload is -/

structure Upload where
  name : Name
  content : List UInt8

def Upload.wire (f : Upload) : List UInt8 :=
  wireString f.name ++ wireVec (f.content.map fun b => [b])

section Receive

variable {e : Fault} {d d' : Disk}

end Receive

/-! ### What is sent -/

/-- The next `n` calls of `send` transmit their buffers. -/
def Whole (n : Nat) (sends : List SendResult) : Prop := ∀ r ∈ sends.take n, r = .whole

theorem whole_add {n m : Nat} {sends : List SendResult} :
    Whole (n + m) sends ↔ Whole n sends ∧ Whole m (sends.drop n) := by
  unfold Whole
  rw [List.take_add]
  exact List.forall_mem_append

/-- A computation that calls `send` `n` times: it returns if none of the calls fails, and only
then. -/
structure Calls {α : Type} (n : Nat) (w : Writer α) : Prop where
  returns : ∀ o : Outgoing, Whole n o.sends → ∃ a sent, w o = .ok (a, ⟨o.sends.drop n, sent⟩)
  fails : ∀ o : Outgoing, ¬ Whole n o.sends → ∃ e, w o = .error e

section Calls

variable {α β : Type} {n m : Nat} {w : Writer α} {f : α → Writer β}

theorem Calls.pure (a : α) : Calls 0 (Pure.pure a : Writer α) where
  returns o _ := ⟨a, o.sent, rfl⟩
  fails o h := absurd (fun r hr => by simp at hr) h

theorem Calls.bind (hw : Calls n w) (hf : ∀ a, Calls m (f a)) : Calls (n + m) (w >>= f) where
  returns o h := by
    obtain ⟨hfirst, hrest⟩ := whole_add.mp h
    obtain ⟨a, sent, hok⟩ := hw.returns o hfirst
    obtain ⟨b, sent', hok'⟩ := (hf a).returns ⟨o.sends.drop n, sent⟩ hrest
    refine ⟨b, sent', ?_⟩
    change (w o >>= fun r => f r.1 r.2) = _
    rw [hok]
    refine hok'.trans ?_
    rw [List.drop_drop]
  fails o h := by
    change ∃ e, (w o >>= fun r => f r.1 r.2) = .error e
    by_cases hfirst : Whole n o.sends
    · obtain ⟨a, sent, hok⟩ := hw.returns o hfirst
      obtain ⟨e, he⟩ := (hf a).fails ⟨o.sends.drop n, sent⟩ fun hrest =>
        h (whole_add.mpr ⟨hfirst, hrest⟩)
      exact ⟨e, by rw [hok]; exact he⟩
    · obtain ⟨e, he⟩ := hw.fails o hfirst
      exact ⟨e, by rw [he]; rfl⟩

theorem Calls.bind_pure (hw : Calls n w) (g : α → β) : Calls n (w >>= fun a => Pure.pure (g a)) :=
  hw.bind fun a => .pure (g a)

end Calls

/-! ### One client -/

section Serve

variable {c : Connection} {s s' : TestHarnessMain} {chunks rest : List (List UInt8)}
  {out : Outgoing}

end Serve

/-! ### One client after the other -/

def SurvivesAll : List Connection → TestHarnessMain → Prop
  | [], _ => True
  | c :: clients, s => ∃ s', serve c s = .ok s' ∧ s'.connected = false
      ∧ s'.disk.cur = s.disk.cur ∧ SurvivesAll clients s'

/-- `run` goes on to the last client, in the working directory it was started in. -/
theorem run_of_survivesAll {max_num_sessions : Nat} {clients : List Connection}
    {s : TestHarnessMain} (h : SurvivesAll clients s) :
    ∃ s', run max_num_sessions clients s = .ok s' ∧ s'.disk.cur = s.disk.cur := by
  induction clients generalizing s with
  | nil => exact ⟨s, rfl, rfl⟩
  | cons c clients ih =>
      obtain ⟨s₁, hserve, -, hcur, hrest⟩ := h
      unfold run
      split
      · obtain ⟨s', hrun, hcur'⟩ := ih hrest
        exact ⟨s', by rw [hserve, Loops.bind_ok, hrun], hcur'.trans hcur⟩
      · exact ⟨s, rfl, rfl⟩

end AieTestHarness
