import AieTestHarness.Proof.Session

/-!
# The server manager over all runs

Every step keeps the invariant or ends the session, so the invariant holds along every run. The
order of the runs, their isolation and the bookkeeping of the queue are read off it.
-/

namespace AieTestHarness

namespace MgrServer

variable {setup : Setup} {m m' : MgrServer} {a : Addr}

theorem inv_new (setup : Setup) : (new setup).Inv where
  book :=
    { queue_eq := rfl
      nodup := List.nodup_nil
      live := fun _ ha => absurd ha List.not_mem_nil
      memory_eq := rfl
      memory_le := Nat.zero_le _
      session_ok := trivial }
  threads :=
    { idle := fun _ => ⟨⟨rfl, rfl⟩, rfl⟩
      head := fun _ _ ha _ => absurd ha (by simp [new])
      rest := fun _ ha => absurd ha List.not_mem_nil }
  record :=
    { known := fun _ hk => absurd hk List.not_mem_nil
      nodup := List.nodup_nil
      answered_eq := rfl
      started_eq := rfl
      runs_eq := rfl
      answer_ok := fun _ _ _ _ hmem => absurd hmem List.not_mem_nil }

theorem Inv.sessionStep (h : m.Inv) {l : ServerLabel} (hstep : m.sessionStep l = some m') :
    m'.Inv ∨ m' = m.fail := by
  cases l with
  | runTestHarness trans_size =>
      simp only [MgrServer.sessionStep, Option.ite_none_right_eq_some, Option.some.injEq] at hstep
      rw [← hstep.2]
      exact Or.inl (h.runTestHarness hstep.1 trans_size)
  | create umode trans_id timeout a =>
      simp only [MgrServer.sessionStep] at hstep
      split at hstep
      · rename_i hsession ha
        rw [← Option.some.inj hstep]
        exact h.create hsession ha umode trans_id timeout
      · exact absurd hstep (by simp)
  | receive q =>
      simp only [MgrServer.sessionStep] at hstep
      split at hstep
      · rename_i hsession
        obtain ⟨t, ht, rfl⟩ := Option.map_eq_some_iff.mp hstep
        exact h.receive hsession ht q
      · exact absurd hstep (by simp)
  | waitForTestHarness tran_id timeout_millisec =>
      simp only [MgrServer.sessionStep, Option.ite_none_right_eq_some, Option.some.injEq] at hstep
      rw [← hstep.2]
      exact h.waitForTestHarness hstep.1 tran_id timeout_millisec
  | join =>
      simp only [MgrServer.sessionStep] at hstep
      split at hstep
      · rename_i hsession
        rw [Option.ite_none_right_eq_some] at hstep
        obtain ⟨t, ht, rfl⟩ := Option.map_eq_some_iff.mp hstep.2
        exact Or.inl (h.answer hsession hstep.1 ht)
      · exact absurd hstep (by simp)
  | retire =>
      simp only [MgrServer.sessionStep] at hstep
      split at hstep
      · rename_i hsession
        obtain ⟨t, ht, rfl⟩ := Option.map_eq_some_iff.mp hstep
        exact Or.inl (h.retire hsession ht)
      · exact absurd hstep (by simp)
  | queryTransactionStatus trans_id =>
      simp only [MgrServer.sessionStep, Option.ite_none_right_eq_some, Option.some.injEq] at hstep
      rw [← hstep.2]
      split
      · exact Or.inl h
      · exact Or.inr rfl
  | other fails =>
      simp only [MgrServer.sessionStep, Option.ite_none_right_eq_some, Option.some.injEq] at hstep
      rw [← hstep.2]
      cases fails
      · exact Or.inl h
      · exact Or.inr rfl
  | destroy =>
      simp only [MgrServer.sessionStep, Option.ite_none_right_eq_some, Option.some.injEq] at hstep
      exact Or.inr hstep.2.symm
  | pl a => simp [MgrServer.sessionStep] at hstep
  | wait a done => simp [MgrServer.sessionStep] at hstep
  | complete r => simp [MgrServer.sessionStep] at hstep
  | write r perf from_aie => simp [MgrServer.sessionStep] at hstep

theorem Inv.step (h : m.Inv) {l : ServerLabel} (hstep : lts.step l m = some m') :
    m'.Inv ∨ m' = m.fail := by
  simp only [lts, Option.ite_none_left_eq_some] at hstep
  replace hstep := hstep.2
  split at hstep
  · rw [Option.ite_none_right_eq_some, Option.bind_eq_some_iff] at hstep
    obtain ⟨ha, t, ht, hpl⟩ := hstep
    exact Or.inl (h.plStep ha ht hpl)
  · rw [Option.ite_none_right_eq_some, Option.bind_eq_some_iff] at hstep
    obtain ⟨ha, t, ht, hwait⟩ := hstep
    exact Or.inl (h.waitStep ha ht hwait)
  · rw [Option.ite_none_right_eq_some, Option.some.injEq] at hstep
    rw [← hstep.2]
    exact Or.inl (h.device rfl rfl (fun _ => rfl) rfl)
  · rw [Option.ite_none_right_eq_some, Option.some.injEq] at hstep
    rw [← hstep.2]
    exact Or.inl (h.device rfl rfl (sizes_write hstep.1.2.1 hstep.1.2.2) rfl)
  · exact h.sessionStep hstep

theorem step_fail (l : ServerLabel) : lts.step l m.fail = none := by
  simp [lts, fail]

/-- Once the session has ended the server is as it was before. -/
theorem inv_of_run {C : ServerLabel → MgrServer → Prop} (hrun : lts.RunIf C (new setup) m) :
    m.Inv ∨ ∃ m₀, lts.RunIf C (new setup) m₀ ∧ m₀.Inv ∧ m = m₀.fail := by
  induction hrun with
  | refl => exact Or.inl (inv_new setup)
  | tail l hprev _ hstep ih =>
      rcases ih with hinv | ⟨m₀, -, -, rfl⟩
      · exact (hinv.step hstep).imp id fun hfail => ⟨_, hprev, hinv, hfail⟩
      · rw [step_fail] at hstep
        exact absurd hstep (by simp)

theorem inv_of_not_ended (hrun : lts.Run (new setup) m) (hsession : m.session ≠ .ended) :
    m.Inv := by
  rcases inv_of_run hrun with hinv | ⟨m₀, -, -, rfl⟩
  · exact hinv
  · exact absurd rfl hsession

/-! ### Order and isolation -/

/-- The thread is past its wait and has not returned. -/
def Past (m : MgrServer) (a : Addr) : Prop := m.pc a ≠ .waiting ∧ m.pc a ≠ .returned

/-- What the record and the threads show: the runs follow the queue one by one, each starts with
empty tables, and an answer has what its own run left. -/
structure Pipelined (m : MgrServer) : Prop where
  one_past : ∀ a ∈ m.pl_threads, ∀ b ∈ m.pl_threads, m.Past a → m.Past b → a = b
  in_order : startedIds m.log <+: acceptedIds m.log
  accepted_once : (acceptedIds m.log).Nodup
  own_run : ∀ k k' r, .started k r ∈ m.log → .started k' r ∈ m.log → k = k'
  starts_empty : ∀ a ∈ m.pl_threads, m.pc a = .locked →
    m.fastObj.bo_hdl = [] ∧ m.fastObj.bo_src_ptr = []
  answers : ∀ k status perf_ptr from_aie_ptr, .answered k status perf_ptr from_aie_ptr ∈ m.log →
    AnswerOk m.log k status perf_ptr from_aie_ptr
  answered_once : (answeredIds m.log).Nodup

theorem own_run_of_nodup {log : List Event} (h : (startedRuns log).Nodup) {k k' r : Nat}
    (hk : .started k r ∈ log) (hk' : .started k' r ∈ log) : k = k' := by
  have hmem : ∀ {k l}, Event.started k r ∈ l → r ∈ startedRuns l := fun hk =>
    List.mem_filterMap.mpr ⟨_, hk, rfl⟩
  induction log with
  | nil => exact absurd hk List.not_mem_nil
  | cons e log ih =>
      have htail : (startedRuns log).Nodup := by
        rw [startedRuns, List.filterMap_cons] at h
        split at h
        · exact h
        · exact (List.nodup_cons.mp h).2
      have hhead : ∀ {k k'}, e = .started k r → Event.started k' r ∉ log := by
        rintro k k' rfl hk'
        exact (List.nodup_cons.mp h).1 (hmem hk')
      rcases List.mem_cons.mp hk with he | hold
      · rcases List.mem_cons.mp hk' with he' | hold'
        · exact (Event.started.inj (he.trans he'.symm)).1
        · exact absurd hold' (hhead he.symm)
      · rcases List.mem_cons.mp hk' with he' | hold'
        · exact absurd hold (hhead he'.symm)
        · exact ih htail hold hold'

theorem Inv.pipelined (h : m.Inv) : m.Pipelined where
  one_past a ha b hb hpa hpb :=
    Option.some.inj ((h.head_of_pc ha hpa.1).symm.trans (h.head_of_pc hb hpb.1))
  in_order := ⟨_, h.record.started_eq.symm⟩
  accepted_once := h.record.nodup
  own_run _ _ _ :=
    own_run_of_nodup (by rw [h.record.runs_eq]; exact List.nodup_range)
  starts_empty a ha hpc := by
    obtain ⟨t, ht, -⟩ := h.book.live a (h.book.mem_transactions ha)
    have hok := h.threads.head a t (h.head_of_pc ha (by simp [hpc])) ht
    rw [hpc] at hok
    exact hok.1
  answers := h.record.answer_ok
  answered_once := by
    have hnodup := h.record.nodup
    rw [h.record.answered_eq] at hnodup
    exact hnodup.of_append_left

/-- In every run of the server the transactions go through the device one after the other. -/
theorem pipelined_of_run (hrun : lts.Run (new setup) m) : m.Pipelined := by
  rcases inv_of_run hrun with hinv | ⟨m₀, -, hinv, rfl⟩
  · exact hinv.pipelined
  · obtain ⟨h₁, h₂, h₃, h₄, h₅, h₆, h₇⟩ := hinv.pipelined
    exact ⟨h₁, h₂, h₃, h₄, h₅, h₆, h₇⟩

/-- The statements that put transactions 7 and 8 into the queue and take both to their answers. -/
def served : List ServerLabel :=
  [.runTestHarness 41, .create 0 7 0 5, .receive ⟨[0], [], 1⟩, .runTestHarness 41, .create 0 8 0 6,
    .receive ⟨[0], [], 1⟩, .waitForTestHarness 7 0, .pl 5, .pl 5, .pl 5, .pl 5, .pl 5, .complete 0,
    .wait 5 true, .pl 5, .pl 5, .join, .retire, .waitForTestHarness 8 0, .pl 6, .pl 6, .pl 6, .pl 6,
    .pl 6, .complete 1, .wait 6 true, .pl 6, .pl 6, .join]

theorem pipelined_of_run_served :
    ∃ m : MgrServer, answeredIds m.log = [7, 8] ∧ startedRuns m.log = [0, 1] ∧ m.Pipelined := by
  have hserved : ∃ m ∈ lts.exec served (new ⟨1, 4, 128, 4⟩),
      answeredIds m.log = [7, 8] ∧ startedRuns m.log = [0, 1] := by decide
  obtain ⟨m, hrun, hanswered, hruns⟩ := Lts.exists_run served hserved
  exact ⟨m, hanswered, hruns, pipelined_of_run hrun⟩

/-! ### Bookkeeping -/

structure Balanced (m : MgrServer) : Prop where
  memory_eq : m.memorySize = (m.transactions.map m.usage).sum
  memory_le : m.memorySize ≤ memorySizeMax
  threads_eq : ∀ a, a ∈ m.pl_threads ↔ a ∈ m.transactions
  threads_nodup : m.pl_threads.Nodup
  queue_nodup : m.transactions.Nodup
  ids_nodup : (m.transactions.map m.idOf).Nodup
  mapped : ∀ a ∈ m.transactions, (m.heap a).isSome ∧ m.id2trans (m.idOf a) = some a

theorem Inv.balanced (h : m.Inv) (hidle : m.session = .idle) : m.Balanced := by
  have hqueue : m.transactions = m.pl_threads := by
    rw [h.book.queue_eq, pending_of_ne (by simp [hidle]), List.append_nil]
  have hmapped : ∀ a ∈ m.transactions, (m.heap a).isSome ∧ m.id2trans (m.idOf a) = some a := by
    intro a ha
    obtain ⟨t, ht, hid⟩ := h.book.live a ha
    rw [idOf_of_some ht, ht]
    exact ⟨rfl, hid⟩
  refine ⟨?_, h.book.memory_le, fun a => by rw [hqueue], h.book.threads_nodup, h.book.nodup, ?_,
    hmapped⟩
  · rw [hqueue]
    exact h.book.memory_eq
  · refine h.book.nodup.map_on fun a ha b hb hab => ?_
    have hid := (hmapped a ha).2
    rw [hab, (hmapped b hb).2] at hid
    exact (Option.some.inj hid).symm

/-- At every request boundary the books are balanced, and a refusal changes nothing. -/
theorem balanced_of_run (hrun : lts.Run (new setup) m) (hidle : m.session = .idle) :
    m.Balanced ∧ ∀ trans_size, lts.step (.runTestHarness trans_size) m
      = some (if u64 (m.memorySize + trans_size.toNat) > memorySizeMax then m
          else { m with session := .admitted trans_size }) := by
  refine ⟨(inv_of_not_ended hrun (by simp [hidle])).balanced hidle, fun trans_size => ?_⟩
  simp only [lts, hidle, reduceCtorEq, if_false, sessionStep, if_true, runTestHarness]

theorem balanced_of_run_admitted :
    ∃ m : MgrServer, m.transactions = [5, 6] ∧ m.memorySize = 82 ∧ m.Balanced := by
  have hadmitted : ∃ m ∈ lts.exec (served.take 6) (new ⟨1, 4, 128, 4⟩),
      m.session = .idle ∧ m.transactions = [5, 6] ∧ m.memorySize = 82 := by decide
  obtain ⟨m, hrun, hidle, hqueue, hmemory⟩ := Lts.exists_run _ hadmitted
  exact ⟨m, hqueue, hmemory, (balanced_of_run hrun hidle).1⟩

end MgrServer

end AieTestHarness
