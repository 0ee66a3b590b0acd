import AieTestHarness.Proof.Pipeline
import Mathlib.Data.Set.Card

/-!
# Looking a transaction up by its id

`id2trans` gets an entry for each transaction that is accepted and loses none, while a transaction
that was answered for is deleted. So the map points to live transactions, one entry for each of the
queue, for as long as none has left the queue.
-/

namespace AieTestHarness

namespace MgrServer

variable {setup : Setup} {m m' : MgrServer} {a : Addr} {t : Transaction}

/-- Each entry of `id2trans` points to a transaction that is not deleted, and there are as many as
there are transactions in the queue. -/
structure Resolved (m : MgrServer) : Prop where
  live : ∀ k a, m.id2trans k = some a → (m.heap a).isSome
  count : {k | (m.id2trans k).isSome}.ncard = m.transactions.length

def NoRetire (l : ServerLabel) (_ : MgrServer) : Prop := l ≠ .retire

structure SameTables (m m' : MgrServer) : Prop where
  transactions_eq : m'.transactions = m.transactions
  id2trans_eq : m'.id2trans = m.id2trans
  accepted_eq : acceptedIds m'.log = acceptedIds m.log

theorem SameTables.refl (m : MgrServer) : SameTables m m := ⟨rfl, rfl, rfl⟩

theorem acceptedIds_append_inner {log es : List Event} (h : ∀ e ∈ es, e.acceptedId = none) :
    acceptedIds (log ++ es) = acceptedIds log := filterMap_append_none log h

theorem SameTables.plStep (hstep : m.plStep a t = some m') : SameTables m m' := by
  unfold MgrServer.plStep at hstep
  split at hstep
  · rw [Option.ite_none_right_eq_some, Option.some.injEq] at hstep
    rw [← hstep.2]
    exact ⟨rfl, rfl, rfl⟩
  · rw [Option.ite_none_right_eq_some, Option.some.injEq] at hstep
    rw [← hstep.2]
    exact ⟨rfl, rfl, rfl⟩
  · rw [← Option.some.inj hstep]
    exact ⟨rfl, rfl, acceptedIds_append_inner (by simp [Event.acceptedId])⟩
  · rw [← Option.some.inj hstep]
    exact ⟨rfl, rfl, rfl⟩
  · rw [← Option.some.inj hstep]
    exact ⟨rfl, rfl, rfl⟩
  · rw [← Option.some.inj hstep]
    exact ⟨rfl, rfl, acceptedIds_append_inner (by simp [Event.acceptedId])⟩
  · rw [← Option.some.inj hstep]
    exact ⟨rfl, rfl, acceptedIds_append_inner (by simp [Event.acceptedId])⟩
  · rw [← Option.some.inj hstep]
    exact ⟨rfl, rfl, acceptedIds_append_inner (by simp [Event.acceptedId])⟩
  · cases hstep
  · cases hstep
  · cases hstep

theorem SameTables.waitStep {done : Bool} (hstep : m.waitStep a t done = some m') :
    SameTables m m' := by
  rw [MgrServer.waitStep, Option.ite_none_right_eq_some] at hstep
  replace hstep := hstep.2
  split at hstep
  · rw [← Option.some.inj hstep]
    exact ⟨rfl, rfl, rfl⟩
  · rw [← Option.some.inj hstep]
    exact ⟨rfl, rfl, acceptedIds_append_inner (by simp [Event.acceptedId])⟩
  · cases hstep

/-- Only `runTestHarness` adds to the tables, and only the end of `waitForTestHarness` takes
away. -/
theorem sessionStep_tables {l : ServerLabel} (hstep : m.sessionStep l = some m') :
    SameTables m m'
      ∨ (∃ a t trans_size, m.id2trans t.trans_id = none ∧ m' = m.accept a t trans_size)
      ∨ (l = .retire ∧ ∃ a t, m.session = .answered a ∧ m.heap a = some t ∧ m' = m.retire a t) := by
  cases l with
  | runTestHarness trans_size =>
      simp only [MgrServer.sessionStep, Option.ite_none_right_eq_some, Option.some.injEq] at hstep
      rw [← hstep.2, MgrServer.runTestHarness]
      split <;> exact Or.inl ⟨rfl, rfl, rfl⟩
  | create umode trans_id timeout a =>
      simp only [MgrServer.sessionStep] at hstep
      split at hstep
      · rename_i trans_size _ _
        rw [← Option.some.inj hstep, create]
        split
        · exact Or.inl ⟨rfl, rfl, rfl⟩
        · split
          · exact Or.inl ⟨rfl, rfl, rfl⟩
          · rename_i mode _ hfresh
            exact Or.inr (Or.inl ⟨a, .new trans_id.toNat mode m.setup.num_channels m.setup.word_size
              m.setup.depth timeout.toNat 0, trans_size, Option.not_isSome_iff_eq_none.mp hfresh,
                rfl⟩)
      · cases hstep
  | receive q =>
      simp only [MgrServer.sessionStep] at hstep
      split at hstep
      · obtain ⟨t, -, rfl⟩ := Option.map_eq_some_iff.mp hstep
        rw [receive]
        split <;> exact Or.inl ⟨rfl, rfl, rfl⟩
      · cases hstep
  | waitForTestHarness tran_id timeout_millisec =>
      simp only [MgrServer.sessionStep, Option.ite_none_right_eq_some, Option.some.injEq] at hstep
      rw [← hstep.2, MgrServer.waitForTestHarness]
      repeat' split
      all_goals exact Or.inl ⟨rfl, rfl, rfl⟩
  | join =>
      simp only [MgrServer.sessionStep] at hstep
      split at hstep
      · rw [Option.ite_none_right_eq_some] at hstep
        obtain ⟨t, -, rfl⟩ := Option.map_eq_some_iff.mp hstep.2
        exact Or.inl ⟨rfl, rfl, acceptedIds_append_inner (by simp [Event.acceptedId])⟩
      · cases hstep
  | retire =>
      simp only [MgrServer.sessionStep] at hstep
      split at hstep
      · rename_i a hsession
        obtain ⟨t, ht, rfl⟩ := Option.map_eq_some_iff.mp hstep
        exact Or.inr (Or.inr ⟨rfl, a, t, hsession, ht, rfl⟩)
      · cases hstep
  | queryTransactionStatus trans_id =>
      simp only [MgrServer.sessionStep, Option.ite_none_right_eq_some, Option.some.injEq] at hstep
      rw [← hstep.2]
      split <;> exact Or.inl ⟨rfl, rfl, rfl⟩
  | other fails =>
      simp only [MgrServer.sessionStep, Option.ite_none_right_eq_some, Option.some.injEq] at hstep
      rw [← hstep.2]
      cases fails <;> exact Or.inl ⟨rfl, rfl, rfl⟩
  | destroy =>
      simp only [MgrServer.sessionStep, Option.ite_none_right_eq_some, Option.some.injEq] at hstep
      rw [← hstep.2]
      exact Or.inl ⟨rfl, rfl, rfl⟩
  | pl a => cases hstep
  | wait a done => cases hstep
  | complete r => cases hstep
  | write r perf from_aie => cases hstep

theorem step_tables {l : ServerLabel} (hstep : lts.step l m = some m') :
    SameTables m m'
      ∨ (∃ a t trans_size, m.id2trans t.trans_id = none ∧ m' = m.accept a t trans_size)
      ∨ (l = .retire ∧ ∃ a t, m.session = .answered a ∧ m.heap a = some t ∧ m' = m.retire a t) := by
  simp only [lts, Option.ite_none_left_eq_some] at hstep
  replace hstep := hstep.2
  split at hstep
  · rw [Option.ite_none_right_eq_some, Option.bind_eq_some_iff] at hstep
    obtain ⟨-, t, -, hpl⟩ := hstep
    exact Or.inl (.plStep hpl)
  · rw [Option.ite_none_right_eq_some, Option.bind_eq_some_iff] at hstep
    obtain ⟨-, t, -, hwait⟩ := hstep
    exact Or.inl (.waitStep hwait)
  · rw [Option.ite_none_right_eq_some, Option.some.injEq] at hstep
    rw [← hstep.2]
    exact Or.inl ⟨rfl, rfl, rfl⟩
  · rw [Option.ite_none_right_eq_some, Option.some.injEq] at hstep
    rw [← hstep.2]
    exact Or.inl ⟨rfl, rfl, rfl⟩
  · exact sessionStep_tables hstep

theorem accept_acceptedIds (m : MgrServer) (a : Addr) (t : Transaction) (trans_size : UInt64) :
    acceptedIds (m.accept a t trans_size).log = acceptedIds m.log ++ [t.trans_id] := by
  rw [acceptedIds, accept, List.filterMap_append]
  rfl

/-! ### What the map holds -/

/-- The map has the ids that were accepted and no others. -/
theorem accepted_of_run (hrun : lts.Run (new setup) m) :
    ∀ k, (m.id2trans k).isSome → k ∈ acceptedIds m.log := by
  refine hrun.invariant (I := fun m => ∀ k, (m.id2trans k).isSome → k ∈ acceptedIds m.log)
    (fun l m m' hI _ hstep k hk => ?_) fun k hk => absurd hk (by simp [new])
  rcases step_tables hstep with hsame | ⟨a, t, trans_size, -, rfl⟩ | ⟨-, a, t, -, -, rfl⟩
  · rw [hsame.id2trans_eq] at hk
    rw [hsame.accepted_eq]
    exact hI k hk
  · rw [accept_acceptedIds]
    by_cases heq : k = t.trans_id
    · exact List.mem_append_right _ (List.mem_singleton.mpr heq)
    · have hold : (m.accept a t trans_size).id2trans k = m.id2trans k :=
        Function.update_of_ne heq ..
      rw [hold] at hk
      exact List.mem_append_left _ (hI k hk)
  · exact hI k hk

/-- While none is taken out, what the map points to is in the queue. -/
theorem queued_of_run (hrun : lts.RunIf NoRetire (new setup) m) :
    (∀ k a, m.id2trans k = some a → a ∈ m.transactions)
      ∧ (acceptedIds m.log).length = m.transactions.length := by
  refine hrun.invariant (I := fun m => (∀ k a, m.id2trans k = some a → a ∈ m.transactions)
      ∧ (acceptedIds m.log).length = m.transactions.length)
    (fun l m m' hI hno hstep => ?_) ⟨fun k a hk => absurd hk (by simp [new]), rfl⟩
  rcases step_tables hstep with hsame | ⟨a, t, trans_size, -, rfl⟩ | ⟨hl, -⟩
  · rw [hsame.transactions_eq, hsame.id2trans_eq, hsame.accepted_eq]
    exact hI
  · refine ⟨fun k b hk => ?_, ?_⟩
    · by_cases heq : k = t.trans_id
      · subst heq
        have hself : (m.accept a t trans_size).id2trans t.trans_id = some a :=
          Function.update_self ..
        rw [← Option.some.inj (hself.symm.trans hk)]
        exact List.mem_append_right _ (List.mem_singleton_self a)
      · have hold : (m.accept a t trans_size).id2trans k = m.id2trans k :=
          Function.update_of_ne heq ..
        exact List.mem_append_left _ (hI.1 k b (hold.symm.trans hk))
    · rw [accept_acceptedIds, List.length_append, hI.2]
      simp [accept]
  · exact absurd hl hno

theorem ncard_id2trans (h : m.Inv) (hacc : ∀ k, (m.id2trans k).isSome → k ∈ acceptedIds m.log) :
    {k | (m.id2trans k).isSome}.ncard = (acceptedIds m.log).length := by
  have hset : {k | (m.id2trans k).isSome} = ((acceptedIds m.log).toFinset : Set Nat) := by
    ext k
    rw [List.coe_toFinset]
    exact ⟨hacc k, h.record.known k⟩
  rw [hset, Set.ncard_coe_finset, List.toFinset_card_of_nodup h.record.nodup]

/-! ### After the first deletion -/

/-- More was accepted than is in the queue. -/
def Outgrown (m : MgrServer) : Prop := m.transactions.length < (acceptedIds m.log).length

theorem Outgrown.step (h : m.Outgrown) {l : ServerLabel} (hstep : lts.step l m = some m') :
    m'.Outgrown := by
  rcases step_tables hstep with hsame | ⟨a, t, trans_size, -, rfl⟩ | ⟨-, a, t, -, -, rfl⟩
  · rw [Outgrown, hsame.transactions_eq, hsame.accepted_eq]
    exact h
  · rw [Outgrown, accept_acceptedIds, List.length_append]
    simpa [accept, Outgrown] using h
  · refine Nat.lt_of_le_of_lt ?_ h
    rw [retire, List.length_tail]
    exact Nat.sub_le _ _

theorem outgrown_of_retire (hrun : lts.RunIf NoRetire (new setup) m) {l : ServerLabel}
    (hl : ¬ NoRetire l m) (hstep : lts.step l m = some m') : m'.Outgrown := by
  obtain rfl : l = .retire := not_not.mp hl
  have hsession : m.session ≠ .ended := by
    intro hended
    simp [lts, hended] at hstep
  have hinv := inv_of_not_ended hrun.toRun hsession
  simp only [lts, if_neg hsession, sessionStep] at hstep
  split at hstep
  · rename_i a hanswered
    obtain ⟨t, -, rfl⟩ := Option.map_eq_some_iff.mp hstep
    have hok := hinv.book.session_ok
    rw [hanswered] at hok
    have hpos := List.length_pos_of_mem (hinv.book.mem_transactions
      (List.mem_of_mem_head? (Option.mem_def.mpr hok.1)))
    have hlen := (queued_of_run hrun).2
    rw [Outgrown, show (m.retire a t).log = m.log from rfl, hlen, retire, List.length_tail]
    omega
  · cases hstep

/-- The map can be relied on exactly until a transaction leaves the queue. -/
theorem resolved_iff (hrun : lts.Run (new setup) m) (hsession : m.session ≠ .ended) :
    m.Resolved ↔ lts.RunIf NoRetire (new setup) m := by
  have hinv := inv_of_not_ended hrun hsession
  have hcount := ncard_id2trans hinv (accepted_of_run hrun)
  constructor
  · intro hresolved
    refine (Lts.RunIf.or_trap Outgrown (fun l t u hprev hl => outgrown_of_retire hprev hl)
      (fun l t u h => h.step) hrun).resolve_right fun hout => ?_
    have heq := hresolved.count
    rw [hcount] at heq
    exact absurd heq (Nat.ne_of_gt hout)
  · intro hno
    obtain ⟨hqueued, hlen⟩ := queued_of_run hno
    refine ⟨fun k a hk => ?_, hcount.trans hlen⟩
    obtain ⟨t, ht, -⟩ := hinv.book.live a (hqueued k a hk)
    rw [ht]
    rfl

theorem resolved_iff_admitted : ∃ m : MgrServer, m.id2trans 7 = some 5 ∧ m.Resolved := by
  have hadmitted : ∃ m ∈ lts.exec (served.take 3) (new ⟨1, 4, 128, 4⟩),
      m.session ≠ .ended ∧ m.id2trans 7 = some 5 := by decide
  obtain ⟨m, hexec, hsession, hid⟩ := hadmitted
  have hno : ∀ l ∈ served.take 3, ∀ m, NoRetire l m := by simp [served, NoRetire]
  exact ⟨m, hid, (resolved_iff (Lts.run_of_exec hexec) hsession).mpr (Lts.runIf_of_exec hno hexec)⟩

/-- Transaction 7 is answered for and deleted, and its entry stays. -/
theorem not_resolved_of_run :
    ¬ ∀ setup m, lts.Run (new setup) m → m.session ≠ .ended → m.Resolved := by
  intro hall
  have hretired : ∃ m ∈ lts.exec (served ++ [.retire]) (new ⟨1, 4, 128, 4⟩),
      m.session ≠ .ended ∧ m.id2trans 7 = some 5 ∧ ¬ (m.heap 5).isSome := by decide
  obtain ⟨m, hrun, hsession, hid, hheap⟩ := Lts.exists_run _ hretired
  exact hheap ((hall _ m hrun hsession).live 7 5 hid)

end MgrServer

end AieTestHarness
