import AieTestHarness.Proof.Pipeline

/-!
# Runs that outlive their transaction

While no bounded wait times out, a live run belongs to the first thread, which waits for it, and its
buffers are in the tables. A wait that times out gives up a run without stopping it: `fetchRes`
takes the buffers out of the tables and the handle of the run stays in `pl_k_r_hdl`.
-/

namespace AieTestHarness

namespace MgrServer

variable {setup : Setup} {m m' : MgrServer} {a : Addr} {t : Transaction}

def NoTimeout (l : ServerLabel) (m : MgrServer) : Prop :=
  ∀ a r, l = .wait a false → m.pc a ≠ .bounded r

structure Isolated (m : MgrServer) : Prop where
  starts_alone : ∀ a ∈ m.pl_threads, m.pc a = .locked → ∀ r, m.fastObj.runs r ≠ .live
  held : ∀ r, m.fastObj.runs r = .live →
    ∀ p ∈ (m.fastObj.mem r).nonempty, (r, p) ∈ m.fastObj.bo_hdl
  no_stale : ∀ a ∈ m.pl_threads, ∀ r, m.pc a = .polling r ∨ m.pc a = .bounded r →
    ∀ r' ∈ m.fastObj.pl_k_r_hdl, r' ≠ r → m.fastObj.runs r' ≠ .live

def Watching (pc : PlPc) (r : Nat) : Prop :=
  pc = .started r ∨ pc = .loop r ∨ pc = .polling r ∨ pc = .bounded r

def Watched (m : MgrServer) (r : Nat) : Prop :=
  ∃ a, m.pl_threads.head? = some a ∧ Watching (m.pc a) r

/-- A live run has a handle and is watched. -/
def Clean (m : MgrServer) : Prop :=
  ∀ r, m.fastObj.runs r = .live → r ∈ m.fastObj.pl_k_r_hdl ∧ m.Watched r

theorem Inv.isolated (h : m.Inv) (hclean : m.Clean) : m.Isolated where
  starts_alone a ha hpc r hlive := by
    obtain ⟨b, hb, hwatch⟩ := (hclean r hlive).2
    have hhead := h.head_of_pc ha (by simp [hpc])
    obtain rfl : a = b := Option.some.inj (hhead.symm.trans hb)
    simp [Watching, hpc] at hwatch
  held r hlive p hp := by
    obtain ⟨b, hb, hwatch⟩ := (hclean r hlive).2
    obtain ⟨t, ht, -⟩ := h.book.live b
      (h.book.mem_transactions (List.mem_of_mem_head? (Option.mem_def.mpr hb)))
    have hok := h.threads.head b t hb ht
    have hrun : m.Running b t r := by
      rcases hwatch with hpc | hpc | hpc | hpc <;> rw [hpc] at hok <;> exact hok
    rw [hrun.holds.bo_hdl_eq, ← PlBuffers.nonempty_of_sizes hrun.holds.sizes_eq]
    exact List.mem_map_of_mem hp
  no_stale a ha r hpc r' _ hne hlive := by
    obtain ⟨b, hb, hwatch⟩ := (hclean r' hlive).2
    have hhead := h.head_of_pc ha (by rcases hpc with hpc | hpc <;> simp [hpc])
    obtain rfl : a = b := Option.some.inj (hhead.symm.trans hb)
    rcases hpc with hpc | hpc <;> simp [Watching, hpc] at hwatch <;> exact hne hwatch.symm

theorem Clean.congr (hclean : m.Clean) (hf : m'.fastObj = m.fastObj)
    (hhead : ∀ a, m.pl_threads.head? = some a → m'.pl_threads.head? = some a)
    (hpc : ∀ a, m.pl_threads.head? = some a → m'.pc a = m.pc a) : m'.Clean := by
  intro r hlive
  rw [hf] at hlive ⊢
  obtain ⟨hmem, a, ha, hwatch⟩ := hclean r hlive
  exact ⟨hmem, a, hhead a ha, by rwa [hpc a ha]⟩

theorem Clean.sessionStep (h : m.Inv) (hclean : m.Clean) {l : ServerLabel}
    (hstep : m.sessionStep l = some m') : m'.Clean := by
  have hfail : m.fail.Clean := hclean.congr rfl (fun _ => id) fun _ _ => rfl
  cases l with
  | runTestHarness trans_size =>
      simp only [MgrServer.sessionStep, Option.ite_none_right_eq_some, Option.some.injEq] at hstep
      rw [← hstep.2, MgrServer.runTestHarness]
      split
      · exact hclean
      · exact hclean.congr rfl (fun _ => id) fun _ _ => rfl
  | create umode trans_id timeout a =>
      simp only [MgrServer.sessionStep] at hstep
      split at hstep
      · rw [← Option.some.inj hstep, create]
        split
        · exact hfail
        · split
          · exact hfail
          · exact hclean.congr rfl (fun _ => id) fun _ _ => rfl
      · exact absurd hstep (by simp)
  | receive q =>
      simp only [MgrServer.sessionStep] at hstep
      split at hstep
      · rename_i a trans_size hsession
        obtain ⟨t, ht, rfl⟩ := Option.map_eq_some_iff.mp hstep
        have hnot := (h.book.transactions_of_created hsession).2
        rw [receive]
        split
        · exact hfail
        · refine hclean.congr rfl (fun b hb => ?_) fun b hb => Function.update_of_ne ?_ ..
          · exact (List.head?_append ..).trans (by rw [hb, Option.some_or])
          · rintro rfl
            exact hnot (List.mem_of_mem_head? (Option.mem_def.mpr hb))
      · exact absurd hstep (by simp)
  | waitForTestHarness tran_id timeout_millisec =>
      simp only [MgrServer.sessionStep, Option.ite_none_right_eq_some, Option.some.injEq] at hstep
      rw [← hstep.2, MgrServer.waitForTestHarness]
      repeat' split
      all_goals exact hclean.congr rfl (fun _ => id) fun _ _ => rfl
  | join =>
      simp only [MgrServer.sessionStep] at hstep
      split at hstep
      · rw [Option.ite_none_right_eq_some] at hstep
        obtain ⟨t, -, rfl⟩ := Option.map_eq_some_iff.mp hstep.2
        exact hclean.congr rfl (fun _ => id) fun _ _ => rfl
      · exact absurd hstep (by simp)
  | retire =>
      simp only [MgrServer.sessionStep] at hstep
      split at hstep
      · rename_i a hsession
        obtain ⟨t, ht, rfl⟩ := Option.map_eq_some_iff.mp hstep
        have hok := h.book.session_ok
        rw [hsession] at hok
        -- the thread that leaves has returned, so nothing is live
        intro r hlive
        obtain ⟨-, b, hb, hwatch⟩ := hclean r hlive
        obtain rfl : a = b := Option.some.inj (hok.1.symm.trans hb)
        simp [Watching, hok.2] at hwatch
      · exact absurd hstep (by simp)
  | queryTransactionStatus trans_id =>
      simp only [MgrServer.sessionStep, Option.ite_none_right_eq_some, Option.some.injEq] at hstep
      rw [← hstep.2]
      split
      · exact hclean
      · exact hfail
  | other fails =>
      simp only [MgrServer.sessionStep, Option.ite_none_right_eq_some, Option.some.injEq] at hstep
      rw [← hstep.2]
      cases fails
      · exact hclean
      · exact hfail
  | destroy =>
      simp only [MgrServer.sessionStep, Option.ite_none_right_eq_some, Option.some.injEq] at hstep
      rw [← hstep.2]
      exact hfail
  | pl a => simp [MgrServer.sessionStep] at hstep
  | wait a done => simp [MgrServer.sessionStep] at hstep
  | complete r => simp [MgrServer.sessionStep] at hstep
  | write r perf from_aie => simp [MgrServer.sessionStep] at hstep

/-- Nothing is live while the first thread watches nothing. -/
theorem Clean.no_live (hclean : m.Clean) (hhead : m.pl_threads.head? = some a)
    (hpc : ∀ r, ¬ Watching (m.pc a) r) (r : Nat) : m.fastObj.runs r ≠ .live := by
  intro hlive
  obtain ⟨-, b, hb, hwatch⟩ := hclean r hlive
  obtain rfl : a = b := Option.some.inj (hhead.symm.trans hb)
  exact hpc r hwatch

theorem Clean.of_no_live (hlive : ∀ r, m.fastObj.runs r ≠ .live)
    (hruns : m'.fastObj.runs = m.fastObj.runs) : m'.Clean := by
  intro r hr
  rw [hruns] at hr
  exact absurd hr (hlive r)

theorem Clean.goto (hclean : m.Clean) (hhead : m.pl_threads.head? = some a)
    (hf : m'.fastObj = m.fastObj) (hpl : m'.pl_threads = m.pl_threads)
    (hpc : ∀ r, Watching (m.pc a) r → Watching (m'.pc a) r) : m'.Clean := by
  intro r hlive
  rw [hf] at hlive ⊢
  obtain ⟨hmem, b, hb, hwatch⟩ := hclean r hlive
  obtain rfl : a = b := Option.some.inj (hhead.symm.trans hb)
  exact ⟨hmem, a, by rw [hpl, hhead], hpc r hwatch⟩

theorem Clean.start (hclean : m.Clean) (hhead : m.pl_threads.head? = some a)
    (hpc : m.pc a = .locked) : (m.start a t).Clean := by
  have hno := hclean.no_live hhead (by simp [Watching, hpc])
  intro r hlive
  by_cases hr : r = m.fastObj.started
  · subst hr
    exact ⟨List.mem_append_right _ (List.mem_singleton_self _), a, hhead,
      Or.inl (Function.update_self ..)⟩
  · have hold : (m.start a t).fastObj.runs r = m.fastObj.runs r := Function.update_of_ne hr ..
    rw [hold] at hlive
    exact absurd hlive (hno r)

theorem Clean.plStep (h : m.Inv) (hclean : m.Clean) (ha : a ∈ m.pl_threads)
    (hstep : m.plStep a t = some m') : m'.Clean := by
  cases hpc : m.pc a with
  | waiting =>
      simp only [MgrServer.plStep, hpc, Option.ite_none_right_eq_some, Option.some.injEq] at hstep
      obtain ⟨hfront, rfl⟩ := hstep
      exact .of_no_live
        (hclean.no_live (h.head_of_transactions ha hfront) (by simp [Watching, hpc])) rfl
  | passed =>
      simp only [MgrServer.plStep, hpc, Option.ite_none_right_eq_some, Option.some.injEq] at hstep
      obtain ⟨-, rfl⟩ := hstep
      exact .of_no_live
        (hclean.no_live (h.head_of_pc ha (by simp [hpc])) (by simp [Watching, hpc])) rfl
  | locked =>
      simp only [MgrServer.plStep, hpc, Option.some.injEq] at hstep
      rw [← hstep]
      exact hclean.start (h.head_of_pc ha (by simp [hpc])) hpc
  | started r =>
      simp only [MgrServer.plStep, hpc, Option.some.injEq] at hstep
      rw [← hstep]
      refine hclean.goto (h.head_of_pc ha (by simp [hpc])) rfl rfl fun r' hwatch => ?_
      simpa [Watching, hpc, MgrServer.goto] using hwatch
  | loop r =>
      simp only [MgrServer.plStep, hpc, Option.some.injEq] at hstep
      rw [← hstep]
      refine hclean.goto (h.head_of_pc ha (by simp [hpc])) rfl rfl fun r' hwatch => ?_
      have hr : r = r' := by simpa [Watching, hpc] using hwatch
      simp only [Watching, MgrServer.goto, Function.update_self, hr]
      split <;> simp
  | polling r => simp [MgrServer.plStep, hpc] at hstep
  | polled r =>
      simp only [MgrServer.plStep, hpc, Option.some.injEq] at hstep
      rw [← hstep]
      exact .of_no_live
        (hclean.no_live (h.head_of_pc ha (by simp [hpc])) (by simp [Watching, hpc])) rfl
  | fetched r =>
      simp only [MgrServer.plStep, hpc, Option.some.injEq] at hstep
      rw [← hstep]
      exact .of_no_live
        (hclean.no_live (h.head_of_pc ha (by simp [hpc])) (by simp [Watching, hpc])) rfl
  | bounded r => simp [MgrServer.plStep, hpc] at hstep
  | decided r =>
      simp only [MgrServer.plStep, hpc, Option.some.injEq] at hstep
      rw [← hstep]
      exact .of_no_live
        (hclean.no_live (h.head_of_pc ha (by simp [hpc])) (by simp [Watching, hpc])) rfl
  | returned => simp [MgrServer.plStep, hpc] at hstep

/-- A wait that ends with success has seen every run end, since each live one has a handle. -/
theorem Clean.waitStep (h : m.Inv) (hclean : m.Clean) (ha : a ∈ m.pl_threads) {done : Bool}
    (hno : NoTimeout (.wait a done) m) (hstep : m.waitStep a t done = some m') : m'.Clean := by
  rw [MgrServer.waitStep, Option.ite_none_right_eq_some] at hstep
  obtain ⟨hdone, hstep⟩ := hstep
  have hall : done = true → ∀ r, m.fastObj.runs r ≠ .live := fun htrue r hlive =>
    hdone.mp htrue r (hclean r hlive).1 hlive
  split at hstep
  · rename_i r hpc
    rw [← Option.some.inj hstep]
    cases done with
    | true => exact .of_no_live (hall rfl) rfl
    | false =>
        refine hclean.goto (h.head_of_pc ha (by simp [hpc])) rfl rfl fun r' hwatch => ?_
        simpa [Watching, hpc, MgrServer.goto] using hwatch
  · rename_i r hpc
    rw [← Option.some.inj hstep]
    cases done with
    | true => exact .of_no_live (hall rfl) rfl
    | false => exact absurd hpc (hno a r rfl)
  · exact absurd hstep (by simp)

theorem Clean.step (h : m.Inv) (hclean : m.Clean) {l : ServerLabel} (hno : NoTimeout l m)
    (hstep : lts.step l m = some m') : m'.Clean := by
  simp only [lts, Option.ite_none_left_eq_some] at hstep
  replace hstep := hstep.2
  split at hstep
  · rw [Option.ite_none_right_eq_some, Option.bind_eq_some_iff] at hstep
    obtain ⟨ha, t, -, hpl⟩ := hstep
    exact hclean.plStep h ha hpl
  · rw [Option.ite_none_right_eq_some, Option.bind_eq_some_iff] at hstep
    obtain ⟨ha, t, -, hwait⟩ := hstep
    exact hclean.waitStep h ha hno hwait
  · rename_i r
    rw [Option.ite_none_right_eq_some, Option.some.injEq] at hstep
    rw [← hstep.2]
    intro r' hlive
    have hne : r' ≠ r := by
      rintro rfl
      rw [show (m.fastObj.complete r').runs r' = .completed from Function.update_self ..] at hlive
      exact absurd hlive (by simp)
    exact hclean r' ((Function.update_of_ne hne ..).symm.trans hlive)
  · rw [Option.ite_none_right_eq_some, Option.some.injEq] at hstep
    rw [← hstep.2]
    exact hclean
  · exact hclean.sessionStep h hstep

theorem clean_of_run (hrun : lts.RunIf NoTimeout (new setup) m) : m.Clean := by
  refine hrun.invariant_of (J := fun m => m.session ≠ .ended → m.Inv)
    (fun t ht => inv_of_not_ended ht.toRun) (fun l t u hinv hclean hno hstep => ?_) ?_
  · have hsession : t.session ≠ .ended := by
      intro hended
      simp [lts, hended] at hstep
    exact hclean.step (hinv hsession) hno hstep
  · intro r hlive
    simp [new, FastXM.new, FastXM.resetTestHarness] at hlive

/-- Where no bounded wait times out, a run that is started finds no other one live. -/
theorem isolated_of_run (hrun : lts.RunIf NoTimeout (new setup) m) : m.Isolated := by
  rcases inv_of_run hrun with hinv | ⟨m₀, hrun₀, hinv, rfl⟩
  · exact hinv.isolated (clean_of_run hrun)
  · obtain ⟨h₁, h₂, h₃⟩ := hinv.isolated (clean_of_run hrun₀)
    exact ⟨h₁, h₂, h₃⟩

/-- The wait for transaction 7 ends in time, and transaction 8 starts its run after it. -/
def inTime : List ServerLabel :=
  [.runTestHarness 41, .create 0 7 0 5, .receive ⟨[0], [], 1⟩, .waitForTestHarness 7 1, .pl 5,
    .pl 5, .pl 5, .pl 5, .pl 5, .complete 0, .wait 5 true, .pl 5, .join, .retire,
    .runTestHarness 41, .create 0 8 0 6, .receive ⟨[0], [], 1⟩, .waitForTestHarness 8 1, .pl 6,
    .pl 6, .pl 6]

theorem isolated_of_run_served : ∃ m : MgrServer,
    answeredIds m.log = [7] ∧ startedRuns m.log = [0, 1] ∧ m.Isolated := by
  have hserved : ∃ m ∈ lts.exec inTime (new ⟨1, 4, 128, 4⟩),
      answeredIds m.log = [7] ∧ startedRuns m.log = [0, 1] := by decide
  obtain ⟨m, hexec, hanswered, hstarted⟩ := hserved
  have hdone : ∀ l ∈ inTime, ∀ m, NoTimeout l m := fun l hl m a r hwait => by
    subst hwait
    simp [inTime] at hl
  exact ⟨m, hanswered, hstarted, isolated_of_run (Lts.runIf_of_exec hdone hexec)⟩

/-- The wait for transaction 7 times out, and transaction 8 is about to start its run. -/
def late : List ServerLabel :=
  [.runTestHarness 41, .create 0 7 0 5, .receive ⟨[0], [], 1⟩, .waitForTestHarness 7 1, .pl 5,
    .pl 5, .pl 5, .pl 5, .pl 5, .wait 5 false, .pl 5, .join, .retire, .runTestHarness 41,
    .create 0 8 0 6, .receive ⟨[0], [], 1⟩, .pl 6, .pl 6]

theorem not_isolated_of_run : ¬ ∀ setup m, lts.Run (new setup) m → m.Isolated := by
  intro hall
  have hlate : ∃ m ∈ lts.exec late (new ⟨1, 4, 128, 4⟩),
      6 ∈ m.pl_threads ∧ m.pc 6 = .locked ∧ m.fastObj.runs 0 = .live := by decide
  obtain ⟨m, hrun, hmem, hpc, hlive⟩ := Lts.exists_run late hlate
  exact (hall _ m hrun).starts_alone 6 hmem hpc 0 hlive

end MgrServer

end AieTestHarness
