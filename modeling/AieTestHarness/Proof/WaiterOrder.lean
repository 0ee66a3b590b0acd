import AieTestHarness.Proof.Blocked
import AieTestHarness.Proof.Completion

/-!
# The order of the waiters

`query_mtx` is there to make the waiters ask for the results in the order of their transactions, but
any waiter may lock it first. As long as the one of the oldest transaction does, the requests come
in order and every transaction can be completed; the first time another does, neither of the two is
any more.
-/

namespace AieTestHarness

namespace System

open MgrClient

variable {s s' : System} {r : Ref} {setup : Setup} {graphs : Nat} {monitorInterval : UInt64}

structure WaiterOrder (s : System) : Prop where
  front : ∀ id timeout requests, s.server.session = .idle →
    s.toServer = .waitForTestHarness id timeout :: requests →
      ∃ a, s.server.transactions.head? = some a
        ∧ (s.server.waitForTestHarness id timeout).session = .joining a
  /-- The results have been sent in the order in which the transactions were accepted. -/
  order : answeredIds s.server.log <+: acceptedIds s.server.log
  holder : ∀ r, s.client.query_mtx = some r → s.client.oldest = some r
  completes : ∃ s', lts.Run s s' ∧ s'.server.session ≠ .ended ∧ ¬ s'.client.main.Over
    ∧ ∀ r ∈ s.client.pending_transactions, s'.Completed r

theorem waiterOrder_of_run (hrun : lts.RunIf InTurn (.new setup graphs monitorInterval) s)
    (hsession : s.server.session ≠ .ended) (hover : ¬ s.client.main.Over) : s.WaiterOrder := by
  have h : s.Going := ⟨⟨setup, graphs, monitorInterval, hrun⟩, hsession, hover⟩
  refine ⟨fun id timeout requests hidle hserver => ?_, ⟨_, h.served.server.record.answered_eq.symm⟩,
    h.turn.holder, ?_⟩
  · obtain ⟨a, threads, t, hthreads, ht, hid⟩ := h.exists_front hidle hserver
    have hqueue : s.server.transactions = a :: threads := by
      rw [h.served.server.book.queue_eq, hthreads, MgrServer.pending_of_ne (by simp [hidle]),
        List.append_nil]
    refine ⟨a, by rw [hqueue]; rfl, ?_⟩
    simp [MgrServer.waitForTestHarness, hthreads, hqueue, ht, hid]
  · obtain ⟨s', hrun', hgoing, hall⟩ := h.exists_completed
    exact ⟨s', hrun'.toRun, hgoing.alive, hgoing.live, hall⟩

/-- The waiter of a first transaction locks `query_mtx`. -/
theorem waiterOrder_of_run_startOne : ∃ s : System,
    s.client.pending_transactions = [0] ∧ s.client.query_mtx = some 0 ∧ s.WaiterOrder := by
  obtain ⟨s, hrun, hpending, hquery, hsession, hmain⟩ := Lts.exists_runIf testInTurn
    (fun _ _ => inTurn_of_test) (startOne ++ [.lockQuery 0])
    (T := lts) (s := new ⟨1, 4, 16, 4⟩ 0 0)
    (Q := fun s => s.client.pending_transactions = [0] ∧ s.client.query_mtx = some 0
      ∧ s.server.session = .idle ∧ s.client.main = .idle) (by decide +kernel)
  exact ⟨s, hpending, hquery,
    waiterOrder_of_run hrun (by rw [hsession]; decide) (by rw [hmain]; exact not_false)⟩

theorem Blocked.not_completed {ρ : Ref} (h : s.Blocked ρ r) :
    ¬ s.Completed ρ ∧ ¬ s.Completed r := by
  constructor
  · rintro (hpc | ⟨hpc, -⟩) <;> rw [h.waits] at hpc <;> cases hpc
  · rintro (hpc | ⟨hpc, -⟩) <;> rcases h.pc_ne hpc with h | h | h <;> cases h

/-- Once a waiter has locked `query_mtx` out of turn, neither its transaction nor the oldest one is
completed any more. -/
theorem not_completed_of_lockQuery (hrun : lts.Run (.new setup graphs monitorInterval) s)
    (hstep : lts.step (.lockQuery r) s = some s') (hne : s.client.oldest ≠ some r) :
    ∃ ρ ∈ s'.client.pending_transactions, ρ ≠ r ∧ ∀ s'', lts.Run s' s'' →
      s''.server.session ≠ .ended → ¬ s''.client.main.Over → ¬ s''.Completed ρ
        ∧ ¬ s''.Completed r := by
  obtain ⟨ρ, hblocked⟩ := blocked_of_lockQuery (MgrClient.inv_of_run hrun) hstep hne
  refine ⟨ρ, hblocked.mem.1, hblocked.ne, fun s'' hrun' halive hlive => ?_⟩
  exact (hblocked.run (hrun.tail _ trivial hstep) hrun' halive hlive).not_completed

/-- The waiter of the second of two transactions locks `query_mtx` first. -/
theorem not_waiterOrder : ¬ ∀ setup graphs monitorInterval s,
    lts.Run (new setup graphs monitorInterval) s → s.server.session ≠ .ended →
      ¬ s.client.main.Over → s.WaiterOrder := by
  intro hall
  have hstarted :
    ∃ s ∈ lts.exec (startOne ++ [.runTestHarness 0 [soleOutput 1 word_lt] 5, .size, .ask,
      .session 0 false, .answered, .send, .session 8 false, .session 0 false, .spawn])
        (new ⟨1, 4, 16, 4⟩ 0 0),
      s.client.oldest = some 0 ∧ ∃ s' ∈ lts.step (.lockQuery 1) s,
        s'.server.session = .idle ∧ s'.client.main = .idle := by
    decide +kernel
  obtain ⟨s, hexec, holdest, s', hstep, hsession, hmain⟩ := hstarted
  have hrun := Lts.run_of_exec (Option.mem_def.mp hexec)
  obtain ⟨ρ, hmem, -, hnever⟩ := not_completed_of_lockQuery hrun hstep (by rw [holdest]; decide)
  obtain ⟨s'', hrun', halive, hlive, hcompleted⟩ := (hall _ _ _ s' (hrun.tail _ trivial hstep)
    (by rw [hsession]; decide) (by rw [hmain]; exact not_false)).completes
  exact (hnever s'' hrun' halive hlive).1 (hcompleted ρ hmem)

end System

end AieTestHarness
