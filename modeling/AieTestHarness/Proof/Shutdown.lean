import AieTestHarness.Proof.Wire

/-!
# The end of a manager

The client's destructor deletes all transactions and leaves it to the members to go, and the session
thread leaves a manager behind where it stops. Neither joins a thread. What is left of them are the
threads of the transactions nobody has waited for.
-/

namespace AieTestHarness

namespace MgrServer

variable {m : MgrServer}

/-- The threads nobody has joined, where the session thread is past its join. -/
def unjoined (m : MgrServer) : List Addr :=
  match m.session with
  | .joining a => m.pl_threads.erase a
  | _ => m.pl_threads

/-- The transactions the session thread has in hand: one it receives, or one whose results it
sends. -/
def inHand (m : MgrServer) : Nat :=
  match m.session with
  | .created _ _ | .joining _ => 1
  | _ => 0

/-- All transactions accepted so far are answered for, but for one in hand. -/
def Served (m : MgrServer) : Prop :=
  (acceptedIds m.log).length = (answeredIds m.log).length + m.inHand

theorem Inv.unjoined_iff (h : m.Inv) (hanswered : ∀ a, m.session ≠ .answered a) :
    m.unjoined = [] ↔ m.Served := by
  have hlen := congrArg List.length h.record.answered_eq
  rw [unanswered_of_ne hanswered, h.book.queue_eq, List.length_append, List.length_map,
    List.length_append] at hlen
  rw [Served, hlen, Nat.add_left_cancel_iff, ← List.length_eq_zero_iff]
  cases hsession : m.session with
  | created a n => simp [unjoined, inHand, pending, hsession]
  | joining a =>
      have hhead := h.book.session_ok
      rw [hsession] at hhead
      obtain ⟨rest, hpl⟩ := List.head?_eq_some_iff.mp hhead
      simp [unjoined, inHand, pending, hsession, hpl]
  | answered a => exact absurd hsession (hanswered a)
  | idle => simp [unjoined, inHand, pending, hsession]
  | admitted n => simp [unjoined, inHand, pending, hsession]
  | ended => simp [unjoined, inHand, pending, hsession]

end MgrServer

namespace System

variable {s s' : System}

/-- The client's manager is destroyed: its transactions in one step, its members in another. -/
def DestroysClient (s s' : System) : Prop :=
    ¬ (s.client.main = .deleted ↔ s'.client.main = .deleted)

def DestroysServer (s s' : System) : Prop :=
  s.server.session ≠ .ended ∧ s'.server.session = .ended

/-- A step destroys a manager only when no thread is left to join, and a transaction only when no
thread works with it any more. -/
structure Orderly (s s' : System) : Prop where
  client_joined : DestroysClient s s' → s.client.transaction_threads = []
  client_finished : ∀ r, s.client.heap r ≠ none → s'.client.heap r = none
    → s.client.pc r = .returned
  server_joined : DestroysServer s s' → s.server.unjoined = []
  server_finished : ∀ a ∈ s.server.pl_threads, s.server.heap a ≠ none →
    s'.server.heap a = none ∨ DestroysServer s s' → s.server.pc a = .returned

/-- All transactions have been waited for, by `waitForRes` and by `waitForTestHarness`. -/
structure Settled (s s' : System) : Prop where
  client : DestroysClient s s' → s.client.pending_transactions = []
  server : DestroysServer s s' → s.server.Served

theorem heap_ne_none_of_update {α : Type} {heap : Nat → Option α} {i j : Nat} {x : α}
    (h : heap j ≠ none) : Function.update heap i (some x) j ≠ none := by
  by_cases hj : j = i
  · rw [hj, Function.update_self]
    exact nofun
  · rwa [Function.update_of_ne hj]

/-- The main thread deletes transactions in its destructor only. -/
theorem MainMoves.deleted {r : Ref} (h : s.MainMoves s') (hr : s.client.heap r ≠ none)
    (hr' : s'.client.heap r = none) : DestroysClient s s' := by
  cases h with
  | destroy hmain hreq =>
      exact fun hiff => MainPc.noConfusion (hmain.symm.trans (hiff.mpr rfl))
  | created hmain hmade hmain' =>
      exact absurd hr' (heap_ne_none_of_update (heap_ne_none_of_update hr))
  | spawn hmain ht => exact absurd hr' (heap_ne_none_of_update hr)
  | setTimeOut hmain hpending ht => exact absurd hr' (heap_ne_none_of_update hr)
  | @answered r memorySize b answers hmain hanswers => cases b <;> exact absurd hr' hr
  | _ => exact absurd hr' hr

theorem WaiterMoves.heap_ne_none {r ρ : Ref} {t : Transaction} (h : s.WaiterMoves r t s')
    (hρ : s.client.heap ρ ≠ none) : s'.client.heap ρ ≠ none := by
  cases h with
  | setStatus hpc => exact heap_ne_none_of_update hρ
  | recvFromAie hpc hanswers => exact heap_ne_none_of_update hρ
  | recvPerf hpc hanswers => exact heap_ne_none_of_update hρ
  | handleOutputs hpc ht' => exact heap_ne_none_of_update hρ
  | _ => exact hρ

/-- The session thread deletes the transaction whose thread it has joined. -/
theorem ServerMoves.finished (h : s.ServerMoves s') (hm : s.server.Inv) {a : Addr}
    (ha : s.server.heap a ≠ none) (ha' : s'.server.heap a = none) : s.server.pc a = .returned := by
  cases h with
  | ended hclient hserver => rw [hserver] at ha'; exact absurd ha' ha
  | waits hsession hserver ht => exact absurd ha' (heap_ne_none_of_update ha)
  | @other q rest hsession hserver => cases q <;> exact absurd ha' ha
  | created hsession hserver hnone hid => exact absurd ha' (heap_ne_none_of_update ha)
  | received hsession hserver ht hq hsize => exact absurd ha' (heap_ne_none_of_update ha)
  | @retired b t hsession ht =>
      have hok := hm.book.session_ok
      rw [hsession] at hok
      by_cases hab : a = b
      · rw [hab]
        exact hok.2
      · exact absurd ((Function.update_of_ne hab ..).symm.trans ha') ha
  | thread hsession hstep hl =>
      have hkey := (MgrServer.threadMoves_of_step hm hl hstep).frame.key_eq a
      rw [ha', Option.map_none, eq_comm, Option.map_eq_none_iff] at hkey
      exact absurd hkey ha
  | _ => exact absurd ha' ha

/-- Where a session ends: not between the results and the end of their request, and not in a
join. -/
theorem ServerMoves.destroyed (h : s.ServerMoves s') (hm : s.server.Inv)
    (hd : DestroysServer s s') :
    (∀ a, s.server.session ≠ .answered a) ∧
      ∀ a, s.server.session = .joining a → s.server.pc a = .returned := by
  obtain ⟨hne, hended⟩ := hd
  cases h with
  | ended hclient hserver hsession hanswered hjoining => exact ⟨hanswered, hjoining⟩
  | refused hsession => exact absurd hended hne
  | queried hsession => exact absurd hended hne
  | @other q rest hsession => cases q <;> exact absurd hended hne
  | thread hsession hstep hl =>
      exact absurd ((MgrServer.threadMoves_of_step hm hl hstep).frame.session_eq.symm.trans hended)
        hne
  | admitted hsession => cases hended
  | waits hsession => cases hended
  | created hsession => cases hended
  | received hsession => cases hended
  | joined hsession => cases hended
  | retired hsession => cases hended

theorem not_destroysServer_of_eq (h : s'.server = s.server) : ¬ DestroysServer s s' := by
  rintro ⟨hne, hended⟩
  rw [h] at hended
  exact hne hended

theorem destroyed_of_step {l : SystemLabel} (hm : s.server.Inv) (hstep : lts.step l s = some s')
    (hd : DestroysServer s s') : (∀ a, s.server.session ≠ .answered a) ∧
      ∀ a, s.server.session = .joining a → s.server.pc a = .returned := by
  rcases step_cases hstep with hserver | ⟨-, hmain⟩ | ⟨-, r, t, -, hwaiter⟩
  · exact hserver.destroyed hm hd
  · exact absurd hd (not_destroysServer_of_eq hmain.server_eq)
  · exact absurd hd (not_destroysServer_of_eq hwaiter.server_eq)

theorem deleted_of_step {l : SystemLabel} (hstep : lts.step l s = some s') {r : Ref}
    (hr : s.client.heap r ≠ none) (hr' : s'.client.heap r = none) : DestroysClient s s' := by
  rcases step_cases hstep with hserver | ⟨-, hmain⟩ | ⟨-, ρ, t, -, hwaiter⟩
  · rw [hserver.client_eq] at hr'
    exact absurd hr' hr
  · exact hmain.deleted hr hr'
  · exact absurd hr' (hwaiter.heap_ne_none hr)

theorem finished_of_step {l : SystemLabel} (hm : s.server.session ≠ .ended → s.server.Inv)
    (hstep : lts.step l s = some s') {a : Addr} (ha : s.server.heap a ≠ none)
    (ha' : s'.server.heap a = none) :
    s.server.pc a = .returned := by
  rcases step_cases hstep with hserver | ⟨-, hmain⟩ | ⟨-, r, t, -, hwaiter⟩
  · exact hserver.finished (hm hserver.session_ne) ha ha'
  · rw [hmain.server_eq] at ha'
    exact absurd ha' ha
  · rw [hwaiter.server_eq] at ha'
    exact absurd ha' ha

theorem returned_of_unjoined {m : MgrServer} (h : m.unjoined = [])
    (hjoining : ∀ a, m.session = .joining a → m.pc a = .returned) {a : Addr}
    (ha : a ∈ m.pl_threads) :
    m.pc a = .returned := by
  unfold MgrServer.unjoined at h
  split at h
  · rename_i b hsession
    by_cases hab : a = b
    · rw [hab]
      exact hjoining b hsession
    · exact absurd ((List.mem_erase_of_ne hab).mpr ha) (by rw [h]; exact List.not_mem_nil)
  · rw [h] at ha
    cases ha

/-- A step is orderly if and only if there is nothing left to wait for where it destroys a
manager. -/
theorem orderly_iff_settled {l : SystemLabel} (hc : s.client.Inv)
    (hm : s.server.session ≠ .ended → s.server.Inv) (hstep : lts.step l s = some s') :
    Orderly s s' ↔ Settled s s' := by
  constructor
  · intro h
    refine ⟨fun hd => ?_, fun hd => ?_⟩
    · rw [← hc.book.threads_eq]
      exact h.client_joined hd
    · obtain ⟨hanswered, -⟩ := destroyed_of_step (hm hd.1) hstep hd
      exact ((hm hd.1).unjoined_iff hanswered).mp (h.server_joined hd)
  · intro h
    have hunjoined : DestroysServer s s' → s.server.unjoined = [] := fun hd =>
      ((hm hd.1).unjoined_iff (destroyed_of_step (hm hd.1) hstep hd).1).mpr (h.server hd)
    refine ⟨fun hd => ?_, fun r hr hr' => ?_, hunjoined, fun a ha hheap hdel => ?_⟩
    · rw [hc.book.threads_eq]
      exact h.client hd
    · by_contra hret
      have hmem := hc.book.running r hret
      rw [h.client (deleted_of_step hstep hr hr')] at hmem
      cases hmem
    · rcases hdel with hnone | hd
      · exact finished_of_step hm hstep hheap hnone
      · exact returned_of_unjoined (hunjoined hd) (destroyed_of_step (hm hd.1) hstep hd).2 ha

/-- A run keeps threads and transactions in order if and only if, wherever it destroys a manager,
everything started has been waited for. -/
theorem orderly_iff (setup : Setup) (graphs : Nat) (monitorInterval : UInt64)
    (ls : List SystemLabel) :
    lts.Along Orderly ls (new setup graphs monitorInterval)
      ↔ lts.Along Settled ls (new setup graphs monitorInterval) :=
  Lts.along_congr (fun _ _ _ hrun hstep =>
    orderly_iff_settled (MgrClient.inv_of_run hrun) (server_inv_of_run hrun) hstep) ls

def startOne : List SystemLabel :=
  [.runTestHarness 0 [soleOutput 1 word_lt] 5, .ask, .session 0 false, .answered, .send,
    .session 7 false, .session 0 false, .spawn]

/-- The client is destroyed with a transaction pending. -/
theorem not_orderly : ¬ ∀ setup graphs monitorInterval ls,
    lts.Along Orderly ls (new setup graphs monitorInterval) := by
  intro hall
  have hstarted : ∃ s ∈ lts.exec startOne (new ⟨1, 4, 16, 4⟩ 0 0),
      s.client.main = .idle ∧ s.client.req_mtx = none ∧ s.client.transaction_threads = [0] := by
    decide +kernel
  obtain ⟨s, hexec, hmain, hreq, hthreads⟩ := hstarted
  have hstep : lts.step .destroy s
      = some ((s.withClient (s.client.destroy.lockReq .main)).send .destroy) := by
    simp only [lts, waiterOf, mainStep, waitStep, hmain, hreq, and_self, if_true, reduceCtorEq,
      if_false]
  have horderly := (hall ⟨1, 4, 16, 4⟩ 0 0 (startOne ++ [.destroy])).last
    (Option.mem_def.mp hexec) hstep
  have hjoined := horderly.client_joined fun hiff => by
    have hdeleted := hiff.mpr rfl
    rw [hmain] at hdeleted
    cases hdeleted
  rw [hthreads] at hjoined
  cases hjoined

end System

end AieTestHarness
