import AieTestHarness.Client.Questions
import AieTestHarness.Proof.Shutdown

/-!
# What the status of a transaction says

A waiter sets the status before it receives the vectors and copies them out. From then on until
`handleOutputs` has returned the main thread finds a transaction done whose results are not there.
-/

namespace AieTestHarness

structure Transaction.Keeps (t t' : Transaction) : Prop where
  status_eq : t'.status = t.status
  from_aie_eq : t'.from_aie_ptr = t.from_aie_ptr
  perf_eq : t'.perf_ptr = t.perf_ptr
  args_eq : t'.args_rec = t.args_rec
  perf_map_le : ∀ idx entry, t.perf_map idx = some entry → t'.perf_map idx = some entry

open Transaction

theorem Transaction.Keeps.refl (t : Transaction) : Keeps t t := ⟨rfl, rfl, rfl, rfl, fun _ _ => id⟩

theorem keeps_perfEntry (t : Transaction) (idx : UInt16) : Keeps t (t.perfEntry idx).2 := by
  unfold Transaction.perfEntry
  split
  · exact .refl t
  · rename_i hnone
    refine ⟨rfl, rfl, rfl, rfl, fun idx' entry hentry => ?_⟩
    have hne : idx' ≠ idx.toNat := by
      rintro rfl
      rw [hnone] at hentry
      cases hentry
    exact (Function.update_of_ne hne ..).trans hentry

theorem handleOutputs_status_eq {t t' : Transaction} (h : t.handleOutputs = .ok t') :
    t'.status = t.status := by
  simp only [handleOutputs, Loops.bind_eq_ok, pure, Except.pure, Except.ok.injEq] at h
  obtain ⟨out, -, rfl⟩ := h
  rfl

namespace System

variable {s s' : System} {r : Ref} {l : SystemLabel}

/-! ### What a step of the main thread leaves -/

theorem MainMoves.kept (hmoves : s.MainMoves s') (hbook : s.client.Book) {t' : Transaction}
    (ht' : s'.client.heap r = some t') :
    (∃ t, s.client.heap r = some t ∧ Keeps t t' ∧ s'.client.pc r = s.client.pc r)
      ∨ t'.status ≠ .TRANSACTION_DONE
        ∧ (s'.client.pc r = .start ∨ s'.client.pc r = .returned) := by
  have hsame : s'.client.heap = s.client.heap → s'.client.pc = s.client.pc →
      (∃ t, s.client.heap r = some t ∧ Keeps t t' ∧ s'.client.pc r = s.client.pc r)
      ∨ t'.status ≠ .TRANSACTION_DONE
        ∧ (s'.client.pc r = .start ∨ s'.client.pc r = .returned) := by
    intro hheap hpc
    rw [hheap] at ht'
    exact Or.inl ⟨t', ht', .refl t', by rw [hpc]⟩
  cases hmoves with
  | @created mode timeout t main hmain hmade hmain' =>
      by_cases hr : r = s.client.created
      · subst hr
        cases (Function.update_self ..).symm.trans ht'
        refine Or.inr ⟨hmade.status_ne, Or.inr ?_⟩
        by_contra hret
        exact Nat.lt_irrefl _ (hbook.known _ (hbook.running _ hret))
      · have hheap : (((s.client.create mode timeout).setTrans s.client.created t).goto main).heap r
            = s.client.heap r :=
          (Function.update_of_ne hr ..).trans (Function.update_of_ne hr ..)
        exact Or.inl ⟨t', hheap.symm.trans ht', .refl t', rfl⟩
  | @answered r' memorySize b answers hmain hanswers => cases b <;> exact hsame rfl rfl
  | @spawn r' t hmain ht =>
      by_cases hr : r = r'
      · subst hr
        cases (Function.update_self ..).symm.trans ht'
        exact Or.inr ⟨TransactionStatus.noConfusion, Or.inl (Function.update_self ..)⟩
      · exact Or.inl ⟨t', (Function.update_of_ne hr ..).symm.trans ht', .refl t',
          Function.update_of_ne hr ..⟩
  | @setTimeOut w r' rest t hmain hpending ht =>
      by_cases hr : r = r'
      · subst hr
        cases (Function.update_self ..).symm.trans ht'
        exact Or.inl ⟨t, ht, ⟨rfl, rfl, rfl, rfl, fun _ _ => id⟩, rfl⟩
      · exact Or.inl ⟨t', (Function.update_of_ne hr ..).symm.trans ht', .refl t', rfl⟩
  | destroy hmain hreq =>
      simp only [withClient, System.send, MgrClient.destroy, MgrClient.lockReq] at ht'
      split at ht'
      · cases ht'
      · exact Or.inl ⟨t', ht', .refl t', rfl⟩
  | _ => exact hsame rfl rfl

/-- A waiter that has returned is not started again. -/
theorem MainMoves.returned (hmoves : s.MainMoves s') (hpc : s.client.pc r = .returned)
    (hlt : r < s.client.created) (hfresh : s.client.main.fresh ≠ some r) :
    s'.client.pc r = .returned ∧ r < s'.client.created ∧ s'.client.main.fresh ≠ some r := by
  have hnone : none ≠ some r := (Option.some_ne_none r).symm
  have hcalm : ∀ {main : MainPc}, main.Calm → main.fresh ≠ some r := fun h => by
    rwa [h.fresh_eq]
  cases hmoves with
  | @created mode timeout t main hmain hmade hmain' =>
      refine ⟨hpc, Nat.lt_succ_of_lt hlt, ?_⟩
      rcases hmain' with rfl | ⟨rfl, -⟩
      · exact hnone
      · intro hr
        exact Nat.ne_of_gt hlt (Option.some.inj hr)
  | goto hmain hcalm' => exact ⟨hpc, hlt, hcalm hcalm'⟩
  | size hmain | ask hmain => exact ⟨hpc, hlt, by rwa [hmain] at hfresh⟩
  | @answered r' memorySize b answers hmain hanswers =>
      cases b
      · exact ⟨hpc, hlt, hnone⟩
      · exact ⟨hpc, hlt, by rwa [hmain] at hfresh⟩
  | send hmain ht => exact ⟨hpc, hlt, by rwa [hmain] at hfresh⟩
  | @spawn r' t hmain ht =>
      refine ⟨(Function.update_of_ne ?_ ..).trans hpc, hlt, hnone⟩
      rintro rfl
      rw [hmain] at hfresh
      exact hfresh rfl
  | unanswered hmain hcalm' => exact ⟨hpc, hlt, hcalm hcalm'⟩
  | exchanged hmain hanswers hq hcalm' => exact ⟨hpc, hlt, hcalm hcalm'⟩
  | join hmain hret hcalm' => exact ⟨hpc, hlt, hcalm hcalm'⟩
  | release hmain =>
      refine ⟨hpc, hlt, ?_⟩
      simp only [withClient, MgrClient.release, MgrClient.goto]
      split <;> exact hnone
  | _ => exact ⟨hpc, hlt, hnone⟩

/-! ### What a step of a waiter leaves -/

theorem WaiterMoves.other {t : Transaction} {ρ : Ref} (hmoves : s.WaiterMoves r t s') (hρ : ρ ≠ r) :
    s'.client.heap ρ = s.client.heap ρ ∧ s'.client.pc ρ = s.client.pc ρ := by
  cases hmoves with
  | setStatus | recvFromAie | recvPerf | handleOutputs =>
      exact ⟨Function.update_of_ne hρ .., Function.update_of_ne hρ ..⟩
  | throws => exact ⟨rfl, rfl⟩
  | _ => exact ⟨rfl, Function.update_of_ne hρ ..⟩

theorem WaiterMoves.ne_returned {t : Transaction} (hmoves : s.WaiterMoves r t s') :
    s.client.pc r ≠ .returned := by
  cases hmoves with
  | throws hpc hgone => rcases hpc with hpc | hpc | hpc | hpc <;> simp [hpc]
  | _ hpc => simp [hpc]

theorem waiterStep_of_step (hstep : lts.step l s = some s') (hne : s'.client.pc r ≠ s.client.pc r)
    (hstart : s'.client.pc r ≠ .start) : waiterOf l = some r ∧ s.waiterStep r l = some s' := by
  have hserver : ¬ s.ServerMoves s' := fun h => hne (by rw [h.client_eq])
  have hmain : ¬ s.MainMoves s' := by
    intro h
    cases h with
    | @answered r' memorySize b answers hmain hanswers => cases b <;> exact hne rfl
    | @spawn r' t hmain ht =>
        by_cases hr : r = r'
        · subst hr
          exact hstart (Function.update_self ..)
        · exact hne (Function.update_of_ne hr ..)
    | _ => exact hne rfl
  simp only [lts] at hstep
  split at hstep
  · exact absurd (serverMoves_of_sessionStep hstep) hserver
  · exact absurd (serverMoves_of_lostStep hstep) hserver
  · exact absurd (serverMoves_of_serverStep hstep) hserver
  · rw [Option.ite_none_left_eq_some] at hstep
    replace hstep := hstep.2
    split at hstep
    · rename_i ρ hρ
      obtain ⟨t, -, hmoves⟩ := waiterMoves_of_waiterStep hstep
      have hr : r = ρ := by
        by_contra hr
        exact hne (hmoves.other hr).2
      rw [hr]
      exact ⟨hρ, hstep⟩
    · exact absurd (mainMoves_of_mainStep hstep) hmain

theorem WaiterMoves.created_eq {t : Transaction} (hmoves : s.WaiterMoves r t s') :
    s'.client.created = s.client.created := by
  cases hmoves <;> rfl

theorem handleOutputs_step (hstep : lts.step (.handleOutputs r) s = some s') :
    s.client.pc r = .outputs ∧ s'.client.pc r = .returned
      ∧ s'.client.created = s.client.created ∧ s'.client.main = s.client.main := by
  simp only [lts, waiterOf, Option.ite_none_left_eq_some] at hstep
  replace hstep := hstep.2
  unfold waiterStep at hstep
  split at hstep
  · cases hstep
  · simp only [resultStep, Option.ite_none_right_eq_some] at hstep
    obtain ⟨hpc, hstep⟩ := hstep
    split at hstep
    · cases hstep
      exact ⟨hpc, Function.update_self .., rfl, rfl⟩
    · cases hstep

def deliveryOf (r : Ref) : WaiterPc → Option SystemLabel
  | .fromAie => some (.recvFromAie r)
  | .perf => some (.recvPerf r)
  | .outputs => some (.handleOutputs r)
  | _ => none

theorem label_of_step (hstep : lts.step l s = some s') (hne : s'.client.pc r ≠ s.client.pc r)
    (hstart : s'.client.pc r ≠ .start) {m : SystemLabel}
    (hm : deliveryOf r (s.client.pc r) = some m) : l = m := by
  obtain ⟨hl, hstep⟩ := waiterStep_of_step hstep hne hstart
  obtain ⟨t, ht, -⟩ := waiterMoves_of_waiterStep hstep
  rw [waiterStep, ht] at hstep
  cases hpc : s.client.pc r <;> rw [hpc] at hm <;> cases hm
  all_goals
    cases l <;> simp only [waiterOf, reduceCtorEq, Option.some.injEq] at hl <;> subst hl
    all_goals simp only [queryStep, resultStep, hpc, reduceCtorEq, false_and, if_false,
      Option.ite_none_right_eq_some, Option.some.injEq] at hstep
  case fromAie.refl.throws | perf.refl.throws =>
    obtain ⟨-, rfl⟩ := hstep
    exact absurd rfl hne
  all_goals rfl

end System

namespace Application

variable {a a' : Application} {r : Ref} {t t' : Transaction}

/-- The results are in the user's buffers and in `perf_map`; other entries may have been looked up
since. -/
def Delivered (a : Application) (r : Ref) (t : Transaction) : Prop :=
  ∃ t₀ t₁, .from_aie_ptr r t₀.from_aie_ptr ∈ a.log ∧ .perf_ptr r t₀.perf_ptr ∈ a.log
    ∧ .outputs r t₀ t₁ ∈ a.log ∧ t₀.handleOutputs = .ok t₁ ∧ t.args_rec = t₁.args_rec
    ∧ ∀ idx entry, t₁.perf_map idx = some entry → t.perf_map idx = some entry

def DoneDelivered (a : Application) : Prop :=
  ∀ r t, a.system.client.heap r = some t → t.status = .TRANSACTION_DONE → a.Delivered r t

def Publishes (a a' : Application) : Prop :=
  ∃ r, a.system.client.pc r = .received .TRANSACTION_DONE ∧ a'.system.client.pc r = .fromAie

/-- What is there of the results of a transaction whose waiter stands at `pc`. -/
def Progress (a : Application) (r : Ref) (t : Transaction) : WaiterPc → Prop
  | .fromAie => True
  | .perf => .from_aie_ptr r t.from_aie_ptr ∈ a.log
  | .unlock | .outputs =>
    .from_aie_ptr r t.from_aie_ptr ∈ a.log ∧ .perf_ptr r t.perf_ptr ∈ a.log
  | .returned => t.status = .TRANSACTION_DONE → a.Delivered r t
  | _ => t.status ≠ .TRANSACTION_DONE

structure Tracked (a : Application) : Prop where
  client : a.system.client.Inv
  progress : ∀ r t, a.system.client.heap r = some t → a.Progress r t (a.system.client.pc r)
  outputs : ∀ r t t', .outputs r t t' ∈ a.log → a.system.client.pc r = .returned
    ∧ r < a.system.client.created ∧ a.system.client.main.fresh ≠ some r

theorem Delivered.mono (h : a.Delivered r t) (hlog : ∀ d ∈ a.log, d ∈ a'.log)
    (hkeeps : Keeps t t') :
    a'.Delivered r t' := by
  obtain ⟨t₀, t₁, hfrom, hperf, hout, hok, hargs, hentries⟩ := h
  refine ⟨t₀, t₁, hlog _ hfrom, hlog _ hperf, hlog _ hout, hok, hkeeps.args_eq.trans hargs, ?_⟩
  intro idx entry hentry
  exact hkeeps.perf_map_le idx entry (hentries idx entry hentry)

theorem Progress.mono {pc : WaiterPc} (h : a.Progress r t pc) (hlog : ∀ d ∈ a.log, d ∈ a'.log)
    (hkeeps : Keeps t t') : a'.Progress r t' pc := by
  cases pc with
  | fromAie => trivial
  | perf =>
      change .from_aie_ptr r t'.from_aie_ptr ∈ a'.log
      rw [hkeeps.from_aie_eq]
      exact hlog _ h
  | unlock | outputs =>
      change .from_aie_ptr r t'.from_aie_ptr ∈ a'.log ∧ .perf_ptr r t'.perf_ptr ∈ a'.log
      rw [hkeeps.from_aie_eq, hkeeps.perf_eq]
      exact ⟨hlog _ h.1, hlog _ h.2⟩
  | returned =>
      intro hdone
      rw [hkeeps.status_eq] at hdone
      exact (h hdone).mono hlog hkeeps
  | _ =>
      change t'.status ≠ .TRANSACTION_DONE
      rw [hkeeps.status_eq]
      exact h

theorem Tracked.returned (h : a.Tracked) (hdelivered : a.Delivered r t) :
    a.system.client.pc r = .returned := by
  obtain ⟨t₀, t₁, -, -, hout, -⟩ := hdelivered
  exact (h.outputs r t₀ t₁ hout).1

/-! ### Steps of client and server -/

theorem Tracked.own (h : a.Tracked) {l : SystemLabel} {s' : System}
    (hstep : System.lts.step l a.system = some s') (ht : a.system.client.heap r = some t)
    (hmoves : a.system.WaiterMoves r t s') (ht' : s'.client.heap r = some t') :
    Progress { a with system := s', log := a.log ++ delivered a.system s' l } r t'
      (s'.client.pc r) := by
  have hprogress := h.progress r t ht
  have hset : ∀ {c : MgrClient} {u : Transaction}, c.heap = Function.update a.system.client.heap r
      (some u) → c.heap r = some t' → t' = u := by
    intro c u hheap hu
    rw [hheap, Function.update_self] at hu
    exact (Option.some.inj hu).symm
  have hlabel : ∀ {m pc}, System.deliveryOf r (a.system.client.pc r) = some m →
      s'.client.pc r = pc → pc ≠ a.system.client.pc r → pc ≠ .start → l = m :=
    fun hm hpc hne hstart => System.label_of_step hstep (by rwa [hpc]) (by rwa [hpc]) hm
  have hearly : ∀ {pc pc' : WaiterPc}, a.system.client.pc r = pc → s'.client.pc r = pc' →
      s'.client.heap r = a.system.client.heap r →
      (a.Progress r t pc → t.status ≠ .TRANSACTION_DONE) →
      (t'.status ≠ .TRANSACTION_DONE →
        Progress { a with system := s', log := a.log ++ delivered a.system s' l } r t' pc') →
      Progress { a with system := s', log := a.log ++ delivered a.system s' l } r t'
        (s'.client.pc r) := by
    intro pc pc' hpc hpc' hheap hold hnew
    rw [hheap, ht] at ht'
    cases ht'
    rw [hpc']
    exact hnew (hold (by rwa [hpc] at hprogress))
  cases hmoves with
  | lockQuery hpc hquery => exact hearly hpc (Function.update_self ..) rfl id id
  | test hpc =>
      refine hearly hpc (Function.update_self ..) rfl id fun hne => ?_
      split <;> exact hne
  | query hpc hreq => exact hearly hpc (Function.update_self ..) rfl id id
  | queried hpc hanswers hpc' =>
      refine hearly hpc (Function.update_self ..) rfl id fun hne => ?_
      rw [hpc']
      split <;> exact hne
  | lockReq hpc hreq => exact hearly hpc (Function.update_self ..) rfl id id
  | unlockQuery hpc => exact hearly hpc (Function.update_self ..) rfl id id
  | wait hpc => exact hearly hpc (Function.update_self ..) rfl id id
  | recvStatus hpc hanswers => exact hearly hpc (Function.update_self ..) rfl id id
  | setStatus hpc =>
      change Progress _ r t' (Function.update a.system.client.pc r .fromAie r)
      rw [Function.update_self]
      trivial
  | @recvFromAie v answers hpc hanswers =>
      have hl := hlabel (by rw [hpc]; rfl) (Function.update_self ..) (by simp [hpc]) (by simp)
      change Progress _ r t' (Function.update a.system.client.pc r .perf r)
      rw [Function.update_self]
      change .from_aie_ptr r t'.from_aie_ptr ∈ a.log ++ _
      rw [hl, delivered, ht']
      exact List.mem_append_right _ List.mem_cons_self
  | @recvPerf v answers hpc hanswers =>
      have hl := hlabel (by rw [hpc]; rfl) (Function.update_self ..) (by simp [hpc]) (by simp)
      have hfrom : t'.from_aie_ptr = t.from_aie_ptr := by
        rw [hset rfl ht']
      rw [hpc] at hprogress
      change Progress _ r t' (Function.update a.system.client.pc r .unlock r)
      rw [Function.update_self]
      change .from_aie_ptr r t'.from_aie_ptr ∈ a.log ++ _ ∧ .perf_ptr r t'.perf_ptr ∈ a.log ++ _
      rw [hl, delivered, ht', hfrom]
      exact ⟨List.mem_append_left _ hprogress, List.mem_append_right _ List.mem_cons_self⟩
  | unlockReq hpc =>
      cases ht.symm.trans ht'
      rw [hpc] at hprogress
      change Progress _ r t (Function.update a.system.client.pc r .outputs r)
      rw [Function.update_self]
      exact ⟨List.mem_append_left _ hprogress.1, List.mem_append_left _ hprogress.2⟩
  | @handleOutputs t₁ hpc hok =>
      have hl := hlabel (by rw [hpc]; rfl) (Function.update_self ..) (by simp [hpc]) (by simp)
      obtain rfl := hset rfl ht'
      rw [hpc] at hprogress
      change Progress _ r t' (Function.update a.system.client.pc r .returned r)
      rw [Function.update_self]
      intro hdone
      refine ⟨t, t', List.mem_append_left _ hprogress.1, List.mem_append_left _ hprogress.2,
        List.mem_append_right _ ?_, hok, rfl, fun _ _ => id⟩
      rw [hl, delivered, ht, ht']
      exact List.mem_cons_self
  | throws hpc hgone =>
      cases ht.symm.trans ht'
      exact hprogress.mono (fun _ => List.mem_append_left _) (.refl t)

theorem mem_delivered {s s' : System} {l : SystemLabel} (h : .outputs r t t' ∈ delivered s s' l) :
    l = .handleOutputs r := by
  cases l with
  | handleOutputs ρ =>
      simp only [delivered, List.mem_flatMap, List.mem_map, Delivery.outputs.injEq] at h
      obtain ⟨_, _, _, _, rfl, _⟩ := h
      rfl
  | recvFromAie | recvPerf => simp [delivered] at h
  | _ => cases h

theorem Tracked.outputs_of_step (h : a.Tracked) {l : SystemLabel} {s' : System}
    (hstep : System.lts.step l a.system = some s')
    (hmem : .outputs r t t' ∈ a.log ++ delivered a.system s' l) :
    s'.client.pc r = .returned ∧ r < s'.client.created ∧ s'.client.main.fresh ≠ some r := by
  rcases List.mem_append.mp hmem with hold | hnew
  · obtain ⟨hpc, hlt, hfresh⟩ := h.outputs r t t' hold
    rcases System.step_cases hstep with hserver | ⟨-, hmain⟩ | ⟨-, ρ, u, -, hwaiter⟩
    · rw [hserver.client_eq]
      exact ⟨hpc, hlt, hfresh⟩
    · exact hmain.returned hpc hlt hfresh
    · have hne : r ≠ ρ := by
        rintro rfl
        exact hwaiter.ne_returned hpc
      refine ⟨(hwaiter.other hne).2.trans hpc, by rwa [hwaiter.created_eq], ?_⟩
      rcases hwaiter.main_eq with heq | heq
      · rwa [heq]
      · rw [heq]
        exact (Option.some_ne_none r).symm
  · obtain rfl := mem_delivered hnew
    obtain ⟨hpc, hpc', hcreated, hmain⟩ := System.handleOutputs_step hstep
    have hpending := h.client.book.running r (by simp [hpc])
    refine ⟨hpc', by rw [hcreated]; exact h.client.book.known r hpending, ?_⟩
    rw [hmain]
    exact fun hfresh => (h.client.book.fresh r hfresh).2 hpending

theorem Tracked.system (h : a.Tracked) {l : SystemLabel} {s' : System}
    (hstep : System.lts.step l a.system = some s') :
    Tracked { a with system := s', log := a.log ++ delivered a.system s' l } := by
  have hlog : ∀ d ∈ a.log, d ∈ a.log ++ delivered a.system s' l :=
    fun _ => List.mem_append_left _
  refine ⟨h.client.step hstep, fun r t' ht' => ?_, fun r t t' => h.outputs_of_step hstep⟩
  change s'.client.heap r = some t' at ht'
  change Progress _ r t' (s'.client.pc r)
  rcases System.step_cases hstep with hserver | ⟨-, hmain⟩ | ⟨-, ρ, u, hu, hwaiter⟩
  · rw [hserver.client_eq] at ht' ⊢
    exact (h.progress r t' ht').mono hlog (.refl t')
  · rcases hmain.kept h.client.book ht' with ⟨t, ht, hkeeps, hpc⟩ | ⟨hne, hpc⟩
    · rw [hpc]
      exact (h.progress r t ht).mono hlog hkeeps
    · rcases hpc with hpc | hpc
      · rw [hpc]
        exact hne
      · rw [hpc]
        exact fun hdone => absurd hdone hne
  · by_cases hr : r = ρ
    · subst hr
      exact h.own hstep hu hwaiter ht'
    · obtain ⟨hheap, hpc⟩ := hwaiter.other hr
      rw [hheap] at ht'
      rw [hpc]
      exact (h.progress r t' ht').mono hlog (.refl t')

/-! ### Questions -/

theorem questionStep_cases {l : ApplicationLabel} (hstep : a.questionStep l = some a') :
    (∃ question, a' = a.goto question) ∨ ∃ r t idx question, a.system.client.heap r = some t
      ∧ a' = (a.setTrans r (t.perfEntry idx).2).goto question := by
  cases l with
  | system => cases hstep
  | ask q idx =>
      simp only [questionStep, Option.ite_none_right_eq_some, Option.some.injEq] at hstep
      obtain ⟨-, rfl⟩ := hstep
      refine Or.inl ?_
      unfold ask
      dsimp only
      split
      · exact ⟨a.question, rfl⟩
      · split
        · exact ⟨_, rfl⟩
        · split
          · exact ⟨a.question, rfl⟩
          · split
            · exact ⟨_, rfl⟩
            · exact ⟨a.question, rfl⟩
  | scan =>
      simp only [questionStep] at hstep
      split at hstep
      · obtain ⟨t, -, rfl⟩ := Option.map_eq_some_iff.mp hstep
        exact Or.inl ⟨_, rfl⟩
      · cases hstep
        exact Or.inl ⟨_, rfl⟩
      · cases hstep
  | check =>
      simp only [questionStep] at hstep
      split at hstep
      · obtain ⟨t, -, rfl⟩ := Option.map_eq_some_iff.mp hstep
        exact Or.inl ⟨_, rfl⟩
      · cases hstep
  | lookup =>
      simp only [questionStep] at hstep
      split at hstep
      · obtain ⟨t, ht, rfl⟩ := Option.map_eq_some_iff.mp hstep
        exact Or.inr ⟨_, t, _, _, ht, rfl⟩
      · cases hstep
        exact Or.inl ⟨_, rfl⟩
      · cases hstep

theorem Tracked.goto (h : a.Tracked) (question : QuestionPc) : (a.goto question).Tracked :=
  ⟨h.client, h.progress, h.outputs⟩

theorem perfEntry_same (t : Transaction) (idx : UInt16) :
    (t.perfEntry idx).2.trans_id = t.trans_id ∧ (t.perfEntry idx).2.mTimeOut = t.mTimeOut := by
  unfold perfEntry
  split <;> exact ⟨rfl, rfl⟩

theorem Tracked.lookup (h : a.Tracked) (ht : a.system.client.heap r = some t) (idx : UInt16) :
    (a.setTrans r (t.perfEntry idx).2).Tracked := by
  obtain ⟨hid, htimeout⟩ := perfEntry_same t idx
  obtain ⟨hbook, hlocks, howns⟩ := h.client
  refine ⟨⟨⟨hbook.threads_eq, hbook.nodup, hbook.known, hbook.running, hbook.fresh, hbook.joining⟩,
    ⟨hlocks.main, hlocks.waiter, hlocks.query⟩, howns.setTrans ht hid htimeout⟩,
    fun ρ u hu => ?_, h.outputs⟩
  change Function.update a.system.client.heap r (some (t.perfEntry idx).2) ρ = some u at hu
  change Progress _ ρ u (a.system.client.pc ρ)
  by_cases hρ : ρ = r
  · rw [hρ, Function.update_self] at hu
    cases hu
    rw [hρ]
    exact (h.progress r t ht).mono (fun _ => id) (keeps_perfEntry t idx)
  · rw [Function.update_of_ne hρ] at hu
    exact (h.progress ρ u hu).mono (fun _ => id) (.refl u)

/-! ### All runs -/

theorem systemStep_eq_some {l : SystemLabel} (hstep : a.systemStep l = some a') :
    ∃ s', System.lts.step l a.system = some s'
      ∧ a' = { a with system := s', log := a.log ++ delivered a.system s' l } := by
  unfold systemStep at hstep
  rw [Option.ite_none_left_eq_some] at hstep
  obtain ⟨s', hs', rfl⟩ := Option.map_eq_some_iff.mp hstep.2
  exact ⟨s', hs', rfl⟩

theorem step_cases {l : ApplicationLabel} (hstep : lts.step l a = some a') :
    (∃ l s', System.lts.step l a.system = some s'
      ∧ a' = { a with system := s', log := a.log ++ delivered a.system s' l })
    ∨ (∃ question, a' = a.goto question) ∨ ∃ r t idx question, a.system.client.heap r = some t
      ∧ a' = (a.setTrans r (t.perfEntry idx).2).goto question := by
  simp only [lts] at hstep
  split at hstep
  · obtain ⟨s', hs'⟩ := systemStep_eq_some hstep
    exact Or.inl ⟨_, s', hs'⟩
  · rw [Option.ite_none_right_eq_some] at hstep
    exact Or.inr (questionStep_cases hstep.2)

theorem Tracked.step (h : a.Tracked) {l : ApplicationLabel} (hstep : lts.step l a = some a') :
    a'.Tracked := by
  rcases step_cases hstep with ⟨l, s', hs', rfl⟩ | ⟨question, rfl⟩ | ⟨r, t, idx, question, ht, rfl⟩
  · exact h.system hs'
  · exact h.goto question
  · exact (h.lookup ht idx).goto question

theorem tracked_new (setup : Setup) (graphs : Nat) (monitorInterval : UInt64) :
    (new setup graphs monitorInterval).Tracked where
  client := MgrClient.inv_new setup graphs
  progress _ _ ht := by cases ht
  outputs _ _ _ hmem := by cases hmem

theorem log_of_step {l : ApplicationLabel} (hstep : lts.step l a = some a') :
    ∀ d ∈ a.log, d ∈ a'.log := by
  rcases step_cases hstep with ⟨l, s', -, rfl⟩ | ⟨question, rfl⟩ | ⟨r, t, idx, question, -, rfl⟩
  · exact fun _ => List.mem_append_left _
  · exact fun _ => id
  · exact fun _ => id

/-! ### When a transaction is done -/

theorem status_of_waiterMoves {s s' : System} (ht : s.client.heap r = some t)
    (hmoves : s.WaiterMoves r t s') (ht' : s'.client.heap r = some t')
    (hdone : t'.status = .TRANSACTION_DONE) : t.status = .TRANSACTION_DONE
      ∨ s.client.pc r = .received .TRANSACTION_DONE ∧ s'.client.pc r = .fromAie := by
  have hsame : s'.client.heap r = s.client.heap r → t.status = .TRANSACTION_DONE := by
    intro hheap
    rw [hheap, ht] at ht'
    cases ht'
    exact hdone
  cases hmoves with
  | @setStatus status hpc =>
      cases (Function.update_self ..).symm.trans ht'
      replace hdone : status = .TRANSACTION_DONE := hdone
      rw [hdone] at hpc
      exact Or.inr ⟨hpc, Function.update_self ..⟩
  | recvFromAie | recvPerf =>
      cases (Function.update_self ..).symm.trans ht'
      exact Or.inl hdone
  | handleOutputs hpc hok =>
      cases (Function.update_self ..).symm.trans ht'
      exact Or.inl ((handleOutputs_status_eq hok).symm.trans hdone)
  | _ => exact Or.inl (hsame rfl)

/-- A transaction that is done was so before, or its status has just been set. -/
theorem Tracked.done_of_step (h : a.Tracked) {l : ApplicationLabel}
    (hstep : lts.step l a = some a') (ht' : a'.system.client.heap r = some t')
    (hdone : t'.status = .TRANSACTION_DONE) :
    (∃ t, a.system.client.heap r = some t ∧ t.status = .TRANSACTION_DONE) ∨ Publishes a a' := by
  rcases step_cases hstep with ⟨l, s', hs', rfl⟩ | ⟨question, rfl⟩ | ⟨ρ, t, idx, question, ht, rfl⟩
  · rcases System.step_cases hs' with hserver | ⟨-, hmain⟩ | ⟨-, ρ, u, hu, hwaiter⟩
    · change s'.client.heap r = some t' at ht'
      rw [hserver.client_eq] at ht'
      exact Or.inl ⟨t', ht', hdone⟩
    · rcases hmain.kept h.client.book ht' with ⟨t, ht, hkeeps, -⟩ | ⟨hne, -⟩
      · exact Or.inl ⟨t, ht, hkeeps.status_eq.symm.trans hdone⟩
      · exact absurd hdone hne
    · by_cases hr : r = ρ
      · subst hr
        rcases status_of_waiterMoves hu hwaiter ht' hdone with hold | hset
        · exact Or.inl ⟨u, hu, hold⟩
        · exact Or.inr ⟨r, hset⟩
      · exact Or.inl ⟨t', (hwaiter.other hr).1.symm.trans ht', hdone⟩
  · exact Or.inl ⟨t', ht', hdone⟩
  · change Function.update a.system.client.heap ρ (some (t.perfEntry idx).2) r = some t' at ht'
    by_cases hr : r = ρ
    · rw [hr, Function.update_self] at ht'
      cases ht'
      exact Or.inl ⟨t, by rw [hr, ht], (keeps_perfEntry t idx).status_eq.symm.trans hdone⟩
    · rw [Function.update_of_ne hr] at ht'
      exact Or.inl ⟨t', ht', hdone⟩

theorem done_of_publishes {l : ApplicationLabel} (hstep : lts.step l a = some a')
    (hpc : a.system.client.pc r = .received .TRANSACTION_DONE)
    (hpc' : a'.system.client.pc r = .fromAie) :
    ∃ t', a'.system.client.heap r = some t' ∧ t'.status = .TRANSACTION_DONE := by
  rcases step_cases hstep with ⟨l, s', hs', rfl⟩ | ⟨question, rfl⟩ | ⟨ρ, t, idx, question, ht, rfl⟩
  · change s'.client.pc r = .fromAie at hpc'
    obtain ⟨-, hwaiter⟩ :=
      System.waiterStep_of_step (r := r) hs' (by simp [hpc, hpc']) (by simp [hpc'])
    obtain ⟨t, -, hmoves⟩ := System.waiterMoves_of_waiterStep hwaiter
    cases hmoves with
    | @setStatus status hstatus =>
        rw [hpc] at hstatus
        cases hstatus
        exact ⟨_, Function.update_self .., rfl⟩
    | throws hthrows => rw [hpc] at hthrows; simp at hthrows
    | _ hother => rw [hpc] at hother; cases hother
  · exact absurd (hpc.symm.trans hpc') (by simp)
  · exact absurd (hpc.symm.trans hpc') (by simp)

/-- A step keeps what is done delivered if and only if it sets no transaction to done. -/
theorem Tracked.delivered_iff (h : a.Tracked) (hdone : a.DoneDelivered) {l : ApplicationLabel}
    (hstep : lts.step l a = some a') : a'.DoneDelivered ↔ ¬ Publishes a a' := by
  have htracked := h.step hstep
  constructor
  · rintro hdone' ⟨r, hpc, hpc'⟩
    obtain ⟨t', ht', hstatus⟩ := done_of_publishes hstep hpc hpc'
    have hret := htracked.returned (hdone' r t' ht' hstatus)
    rw [hpc'] at hret
    cases hret
  · intro hnot r t' ht' hstatus
    obtain ⟨t, ht, hold⟩ := (h.done_of_step hstep ht' hstatus).resolve_right hnot
    obtain ⟨t₀, t₁, -, -, hout, -⟩ := hdone r t ht hold
    have hret := (htracked.outputs r t₀ t₁ (log_of_step hstep _ hout)).1
    have hprogress := htracked.progress r t' ht'
    rw [hret] at hprogress
    exact hprogress hstatus

/-- In a run what is done is always delivered if and only if no waiter of it ever sets the status of
its transaction to done. A transaction that is done is delivered once its waiter has returned, and
no earlier. -/
theorem doneDelivered_iff (setup : Setup) (graphs : Nat) (monitorInterval : UInt64) :
    (∀ ls, lts.Along (fun _ a => a.DoneDelivered) ls (new setup graphs monitorInterval)
      ↔ lts.Along (fun a a' => ¬ Publishes a a') ls (new setup graphs monitorInterval))
    ∧ ∀ a r t, lts.Run (new setup graphs monitorInterval) a → a.system.client.heap r = some t →
      t.status = .TRANSACTION_DONE → (a.Delivered r t ↔ a.system.client.pc r = .returned) := by
  refine ⟨fun ls => ?_, fun a r t hrun ht hdone => ?_⟩
  · refine Lts.along_congr_of (I := fun a => a.Tracked ∧ a.DoneDelivered) ?_ ls
      ⟨tracked_new setup graphs monitorInterval, fun r t ht => by cases ht⟩
    intro a l a' ⟨htracked, hdone⟩ hstep
    exact ⟨htracked.delivered_iff hdone hstep, fun hdone' => ⟨htracked.step hstep, hdone'⟩⟩
  · have htracked := hrun.invariant (I := Tracked) (fun l a a' h _ hstep => h.step hstep)
      (tracked_new setup graphs monitorInterval)
    refine ⟨htracked.returned, fun hret => ?_⟩
    have hprogress := htracked.progress r t ht
    rw [hret] at hprogress
    exact hprogress hdone

def finishOne : List SystemLabel :=
  [.lockQuery 0, .test 0, .server (.pl 7), .server (.pl 7), .server (.pl 7), .server (.pl 7),
    .server (.pl 7), .server (.complete 0), .server (.wait 7 true), .server (.pl 7),
    .server (.pl 7), .query 0, .session 0 false, .queried 0, .lockReq 0, .unlockQuery 0, .wait 0,
    .session 0 false, .session 0 false, .recvStatus 0, .setStatus 0]

/-- One transaction, done and not delivered. -/
theorem not_doneDelivered : ¬ ∀ setup graphs monitorInterval a,
    lts.Run (new setup graphs monitorInterval) a → a.DoneDelivered := by
  intro hall
  have hfinished : ∃ a ∈ lts.exec ((System.startOne ++ finishOne).map .system)
      (new ⟨1, 4, 16, 4⟩ 0 0), (a.system.client.heap 0).map Transaction.status
        = some .TRANSACTION_DONE ∧ a.log.length = 0 := by
    decide +kernel
  obtain ⟨a, hexec, hstatus, hlog⟩ := hfinished
  obtain ⟨t, ht, hdone⟩ := Option.map_eq_some_iff.mp hstatus
  obtain ⟨t₀, t₁, hfrom, -⟩ :=
    hall _ _ _ a (Lts.run_of_exec (Option.mem_def.mp hexec)) 0 t ht hdone
  rw [List.length_eq_zero_iff.mp hlog] at hfrom
  cases hfrom

end Application

end AieTestHarness
