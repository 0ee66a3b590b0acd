import AieTestHarness.Proof.Link
import AieTestHarness.Proof.Shutdown
import Mathlib.Algebra.Order.BigOperators.Group.List

/-!
# What the client adds up

`runTestHarness` adds the sizes of the pending transactions one by one while their waiters go on. A
transaction keeps its size until its waiter is through, so what the server still holds has been
added.
-/

namespace AieTestHarness

theorem sum_le_of_subset {l m : List Nat} (f : Nat → Nat) (hl : l.Nodup) (hsub : l ⊆ m) :
    (l.map f).sum ≤ (m.map f).sum := by
  obtain ⟨l', hperm, hl'⟩ := List.subperm_of_subset hl hsub
  rw [← (hperm.map f).sum_eq]
  exact (hl'.map f).sum_le_sum fun _ _ => Nat.zero_le _

namespace System

variable {s s' : System} {r : Ref}

/-- The transactions whose waiters are not through are in `memorySize` but for those in `left`. -/
def Counted (s : System) (r : Ref) (left : List Ref) (memorySize : Nat) : Prop :=
  ∀ l : List Ref, l.Nodup →
    (∀ ρ ∈ l, ρ ∈ s.client.pending_transactions ∧ s.client.pc ρ ≠ .returned ∧ ρ ∉ left) →
    s.client.usage r + (l.map s.client.usage).sum ≤ memorySize

structure Summed (s : System) : Prop where
  /-- The sum has not wrapped and will not. -/
  fits : ∀ r left memorySize, s.client.main = .sizing r left memorySize →
    memorySize + (left.map s.client.usage).sum < 2 ^ 64
  sizing : ∀ r left memorySize, s.client.main = .sizing r left memorySize →
    s.Counted r left memorySize
  asking : ∀ r memorySize, s.client.main = .asking r memorySize → s.Counted r [] memorySize

structure Shrinks (s s' : System) : Prop where
  usage_le : ∀ ρ, s'.client.usage ρ ≤ s.client.usage ρ
  kept : ∀ ρ, s'.client.pc ρ ≠ .returned →
    s.client.pc ρ ≠ .returned ∧ s'.client.usage ρ = s.client.usage ρ

theorem Shrinks.keep (hpc : s'.client.pc = s.client.pc) (hheap : s'.client.heap = s.client.heap) :
    Shrinks s s' where
  usage_le ρ := Nat.le_of_eq (MgrClient.usage_congr (by rw [hheap]))
  kept ρ hρ := ⟨by rwa [hpc] at hρ, MgrClient.usage_congr (by rw [hheap])⟩

/-- A waiter that is not through writes no buffer, or one of the same size. -/
theorem Shrinks.waiter {pc : WaiterPc} (hpc : s'.client.pc = Function.update s.client.pc r pc)
    (hret : s.client.pc r ≠ .returned) (husage : ∀ ρ, s'.client.usage ρ = s.client.usage ρ) :
    Shrinks s s' where
  usage_le ρ := Nat.le_of_eq (husage ρ)
  kept ρ hρ := by
    refine ⟨?_, husage ρ⟩
    by_cases hr : ρ = r
    · rwa [hr]
    · rwa [hpc, Function.update_of_ne hr] at hρ

theorem usage_setTrans {c : MgrClient} {t t' : Transaction} (ht : c.heap r = some t)
    (hkey : t'.key = t.key) (ρ : Ref) : (c.setTrans r t').usage ρ = c.usage ρ := by
  by_cases hr : ρ = r
  · have hself : (c.setTrans r t').heap r = some t' := Function.update_self ..
    rw [hr, MgrClient.usage_of_some hself, MgrClient.usage_of_some ht,
      Transaction.usage_of_key hkey]
  · exact MgrClient.usage_congr (Function.update_of_ne hr ..)

/-- `handleOutputs` leaves empty buffers. -/
theorem usage_of_handleOutputs {t t' : Transaction} (h : t.handleOutputs = .ok t') :
    t'.getMemoryUsage = 0 := by
  simp only [Transaction.handleOutputs, Loops.bind_eq_ok, pure, Except.pure, Except.ok.injEq] at h
  obtain ⟨out, -, rfl⟩ := h
  rfl

theorem shrinks_of_waiterMoves {t : Transaction} (hreceipt : s.Receipt)
    (ht : s.client.heap r = some t) (hmoves : s.WaiterMoves r t s') : Shrinks s s' := by
  cases hmoves with
  | lockQuery hpc hquery => exact .waiter (r := r) rfl (by simp [hpc]) fun _ => rfl
  | test hpc => exact .waiter rfl (by simp [hpc]) fun _ => rfl
  | query hpc hreq => exact .waiter rfl (by simp [hpc]) fun _ => rfl
  | queried hpc hanswers hpc' => exact .waiter rfl (by simp [hpc]) fun _ => rfl
  | lockReq hpc hreq => exact .waiter rfl (by simp [hpc]) fun _ => rfl
  | unlockQuery hpc => exact .waiter (r := r) rfl (by simp [hpc]) fun _ => rfl
  | wait hpc => exact .waiter rfl (by simp [hpc]) fun _ => rfl
  | recvStatus hpc hanswers => exact .waiter rfl (by simp [hpc]) fun _ => rfl
  | setStatus hpc => exact .waiter rfl (by simp [hpc]) (usage_setTrans ht rfl)
  | @recvFromAie v answers hpc hanswers =>
      have hfits : Answer.Fits t (.from_aie_ptr v) :=
        hreceipt.fits r t (by rw [hpc]; trivial) ht _ (by rw [hanswers]; exact List.mem_cons_self)
      have hlen : v.length = t.from_aie_ptr.length := hfits
      refine .waiter rfl (by simp [hpc]) (usage_setTrans ht ?_)
      simp only [Transaction.key, PlBuffers.sizes, Transaction.buffers, hlen]
  | @recvPerf v answers hpc hanswers =>
      have hfits : Answer.Fits t (.perf_ptr v) :=
        hreceipt.fits r t (by rw [hpc]; trivial) ht _ (by rw [hanswers]; exact List.mem_cons_self)
      have hlen : v.length = t.perf_ptr.length := hfits
      refine .waiter rfl (by simp [hpc]) (usage_setTrans ht ?_)
      simp only [Transaction.key, PlBuffers.sizes, Transaction.buffers, hlen]
  | unlockReq hpc => exact .waiter rfl (by simp [hpc]) fun _ => rfl
  | @handleOutputs t' hpc ht' =>
      have hold : ∀ ρ, ρ ≠ r → (s.client.setTrans r t').usage ρ = s.client.usage ρ := fun ρ hρ =>
        MgrClient.usage_congr (Function.update_of_ne hρ ..)
      refine ⟨fun ρ => ?_, fun ρ hρ => ?_⟩
      · by_cases hr : ρ = r
        · have hself : (s.client.setTrans r t').heap r = some t' := Function.update_self ..
          have hzero : (s.client.setTrans r t').usage r = 0 := by
            rw [MgrClient.usage_of_some hself, usage_of_handleOutputs ht']
          rw [hr]
          exact hzero.trans_le (Nat.zero_le _)
        · exact Nat.le_of_eq (hold ρ hr)
      · have hr : ρ ≠ r := by
          rintro rfl
          exact hρ (Function.update_self ..)
        rw [show ((s.withClient ((s.client.setTrans r t').waiterGoto r .returned)).client).pc ρ
          = s.client.pc ρ from Function.update_of_ne hr ..] at hρ
        exact ⟨hρ, hold ρ hr⟩
  | throws hpc hgone => exact .keep rfl rfl

theorem Counted.shrinks {left : List Ref} {memorySize : Nat} (h : s.Counted r left memorySize)
    (hshrinks : Shrinks s s')
    (hpending : s'.client.pending_transactions = s.client.pending_transactions) :
    s'.Counted r left memorySize := by
  intro l hl hmem
  have hkept : ∀ ρ ∈ l, s'.client.usage ρ = s.client.usage ρ := fun ρ hρ =>
    (hshrinks.kept ρ (hmem ρ hρ).2.1).2
  rw [List.map_congr_left hkept]
  refine Nat.le_trans (Nat.add_le_add_right (hshrinks.usage_le r) _) (h l hl fun ρ hρ => ?_)
  obtain ⟨hρ, hret, hleft⟩ := hmem ρ hρ
  exact ⟨by rwa [hpending] at hρ, (hshrinks.kept ρ hret).1, hleft⟩

theorem Summed.shrinks (h : s.Summed) (hshrinks : Shrinks s s')
    (hpending : s'.client.pending_transactions = s.client.pending_transactions)
    (hmain : s'.client.main = s.client.main) : s'.Summed where
  fits r left memorySize hr := by
    rw [hmain] at hr
    refine Nat.lt_of_le_of_lt (Nat.add_le_add_left ?_ _) (h.fits r left memorySize hr)
    exact List.sum_le_sum fun ρ _ => hshrinks.usage_le ρ
  sizing r left memorySize hr :=
    (h.sizing r left memorySize (by rwa [hmain] at hr)).shrinks hshrinks hpending
  asking r memorySize hr := (h.asking r memorySize (by rwa [hmain] at hr)).shrinks hshrinks hpending

/-- Where the main thread adds nothing up. -/
theorem summed_of_ne (hsizing : ∀ r left n, s.client.main ≠ .sizing r left n)
    (hasking : ∀ r n, s.client.main ≠ .asking r n) : s.Summed :=
  ⟨fun _ _ _ h => absurd h (hsizing _ _ _), fun _ _ _ h => absurd h (hsizing _ _ _),
    fun _ _ h => absurd h (hasking _ _)⟩

theorem summed_of_calm (hcalm : s.client.main.Calm) : s.Summed := by
  refine summed_of_ne (fun r left n h => ?_) fun r n h => ?_ <;> rw [h] at hcalm <;> exact hcalm

theorem summed_of_created (hc : s.client.Inv) {mode : TestMode} {timeout : UInt32}
    {t : Transaction} (hmain : s.client.main = .idle)
    (htotal : ((s.client.create mode timeout).setTrans s.client.created t).total < 2 ^ 64) :
    (s.withClient (((s.client.create mode timeout).setTrans s.client.created t).goto
      (.sizing s.client.created s.client.pending_transactions t.getMemoryUsage))).Summed := by
  have hself : ((s.client.create mode timeout).setTrans s.client.created t).usage s.client.created
      = t.getMemoryUsage := MgrClient.usage_of_some (Function.update_self ..)
  have hnot : s.client.created ∉ s.client.pending_transactions := fun hmem =>
    Nat.lt_irrefl _ (hc.book.known _ hmem)
  have hlive : s.client.transactions = List.range s.client.created :=
    hc.owns.live (by rw [hmain]; exact id)
  have hsub : s.client.created :: s.client.pending_transactions
      ⊆ s.client.transactions ++ [s.client.created] := by
    intro ρ hρ
    rw [hlive]
    rcases List.mem_cons.mp hρ with rfl | hold
    · exact List.mem_append_right _ (List.mem_singleton_self _)
    · exact List.mem_append_left _ (List.mem_range.mpr (hc.book.known ρ hold))
  refine ⟨fun r left n hr => ?_, fun r left n hr l hl hmem => ?_, fun r n hr => ?_⟩
  · cases hr
    have hle := sum_le_of_subset
      ((s.client.create mode timeout).setTrans s.client.created t).usage
      (List.nodup_cons.mpr ⟨hnot, hc.book.nodup⟩) hsub
    rw [List.map_cons, List.sum_cons, hself] at hle
    exact Nat.lt_of_le_of_lt hle htotal
  · cases hr
    have hnil : l = [] := List.eq_nil_iff_forall_not_mem.mpr fun ρ hρ =>
      (hmem ρ hρ).2.2 (hmem ρ hρ).1
    rw [hnil, List.map_nil, List.sum_nil, Nat.add_zero]
    exact Nat.le_of_eq hself
  · cases hr

theorem Summed.size (h : s.Summed) {ρ : Ref} {rest : List Ref} {n : Nat}
    (hmain : s.client.main = .sizing r (ρ :: rest) n) :
    (s.withClient (s.client.size r ρ rest n)).Summed := by
  have hfits := h.fits r (ρ :: rest) n hmain
  rw [List.map_cons, List.sum_cons] at hfits
  have hsum : u64 (n + s.client.usage ρ) = n + s.client.usage ρ := u64_of_lt (by omega)
  refine ⟨fun r' left n' hr => ?_, fun r' left n' hr l hl hmem => ?_, fun r' n' hr => ?_⟩
  · cases hr
    rw [hsum]
    show n + s.client.usage ρ + (rest.map s.client.usage).sum < 2 ^ 64
    omega
  · cases hr
    rw [hsum]
    have hcounted := h.sizing r (ρ :: rest) n hmain
    show s.client.usage r + (l.map s.client.usage).sum ≤ n + s.client.usage ρ
    by_cases hρ : ρ ∈ l
    · have herase := hcounted (l.erase ρ) (hl.erase ρ) fun x hx => by
        obtain ⟨hne, hxl⟩ := hl.mem_erase_iff.mp hx
        obtain ⟨hpending, hret, hrest⟩ := hmem x hxl
        exact ⟨hpending, hret, fun hx' => (List.mem_cons.mp hx').elim hne hrest⟩
      rw [← List.sum_map_erase s.client.usage hρ]
      omega
    · have hall := hcounted l hl fun x hx => by
        obtain ⟨hpending, hret, hrest⟩ := hmem x hx
        refine ⟨hpending, hret, fun hx' => (List.mem_cons.mp hx').elim ?_ hrest⟩
        rintro rfl
        exact hρ hx
      omega
  · cases hr

theorem Summed.mainMoves (h : s.Summed) (hc : s.client.Inv) (hmoves : s.MainMoves s') :
    s'.Summed := by
  cases hmoves with
  | created hmain hmade hmain' =>
      rcases hmain' with rfl | ⟨rfl, -, htotal⟩
      · exact summed_of_calm trivial
      · exact summed_of_created hc hmain htotal
  | goto hmain hcalm => exact summed_of_calm hcalm
  | size hmain => exact h.size hmain
  | ask hmain hreq =>
      refine ⟨by rintro _ _ _ ⟨⟩, by rintro _ _ _ ⟨⟩, fun r n hr => ?_⟩
      cases hr
      exact h.sizing _ [] _ hmain
  | @answered r n b answers hmain hanswers =>
      cases b
      · exact summed_of_calm trivial
      · exact summed_of_ne (by rintro _ _ _ ⟨⟩) (by rintro _ _ ⟨⟩)
  | unanswered hmain hcalm => exact summed_of_calm hcalm
  | exchanged hmain hanswers hq hcalm => exact summed_of_calm hcalm
  | join hmain hpc hcalm => exact summed_of_calm hcalm
  | release hmain =>
      refine summed_of_ne (fun r left n hr => ?_) fun r n hr => ?_
      all_goals
        simp only [withClient, MgrClient.release, MgrClient.goto] at hr
        split at hr <;> cases hr
  | _ => exact summed_of_ne (by rintro _ _ _ ⟨⟩) (by rintro _ _ ⟨⟩)

/-! ### All runs -/

variable {setup : Setup} {graphs : Nat} {monitorInterval : UInt64} {C : SystemLabel → System → Prop}

theorem summed_of_run (hrun : lts.RunIf C (.new setup graphs monitorInterval) s)
    (hsession : s.server.session ≠ .ended) (hover : ¬ s.client.main.Over) : s.Summed := by
  refine hrun.invariant_of
    (I := fun s => s.server.session ≠ .ended → ¬ s.client.main.Over → s.Summed)
    (J := fun s => s.client.Inv ∧ (s.server.session ≠ .ended → ¬ s.client.main.Over → s.Link))
    (fun s hs => ⟨MgrClient.inv_of_run hs, link_of_run hs⟩) ?_
    (fun _ _ => summed_of_calm (show MainPc.Calm .idle from trivial)) hsession hover
  intro l s s' hJ hI _ hstep hsession' hover'
  have hsession := session_ne_of_step hstep hsession'
  have hover : ¬ s.client.main.Over := fun h => hover' (over_of_step h hstep)
  rcases step_cases hstep with hserver | ⟨-, hmain⟩ | ⟨-, r, t, ht, hwaiter⟩
  · have hclient := hserver.client_eq
    exact (hI hsession hover).shrinks (.keep (by rw [hclient]) (by rw [hclient])) (by rw [hclient])
      (by rw [hclient])
  · exact (hI hsession hover).mainMoves hJ.1 hmain
  · have hshrinks := shrinks_of_waiterMoves (hJ.2 hsession hover).receipt ht hwaiter
    rcases hwaiter.main_eq with hmain | hterminated
    · exact (hI hsession hover).shrinks hshrinks hwaiter.pending_eq hmain
    · rw [hterminated] at hover'
      exact absurd trivial hover'

/-- No step changes what the server has told of its memory. -/
theorem max_of_run (hrun : lts.RunIf C (.new setup graphs monitorInterval) s) :
    s.client.max_memory_usage = memorySizeMax := by
  refine hrun.invariant (I := fun s => s.client.max_memory_usage = memorySizeMax) ?_ rfl
  intro l s s' hmax _ hstep
  rcases step_cases hstep with hserver | ⟨-, hmain⟩ | ⟨-, r, t, -, hwaiter⟩
  · rw [hserver.client_eq, hmax]
  · refine Eq.trans ?_ hmax
    cases hmain with
    | @answered r n b => cases b <;> rfl
    | _ => rfl
  · refine Eq.trans ?_ hmax
    cases hwaiter <;> rfl

theorem Wire.asking_of_request (h : s.Wire) {n : UInt64}
    (hmem : .runTestHarness n ∈ s.toServer) : ∃ r k, s.client.main = .asking r k := by
  have hdue : .trans_accepted ∈ s.client.due := by
    rw [← h.dual, due]
    exact List.mem_append_right _ (List.mem_flatMap.mpr ⟨_, hmem, List.mem_singleton_self _⟩)
  unfold MgrClient.due at hdue
  split at hdue
  · cases hdue
  · cases hmain : s.client.main with
    | asking r k => exact ⟨r, k, rfl⟩
    | exchanging q k =>
        rw [hmain] at hdue
        cases q <;> simp [MainPc.due, OtherRequest.kinds] at hdue
    | _ =>
        rw [hmain] at hdue
        cases hdue
  · rename_i r _
    cases hpc : s.client.pc r <;> rw [hpc] at hdue <;> simp [WaiterPc.due] at hdue

/-- What the server holds is among what the client has added up. -/
theorem memory_le (hs : s.Served) (hlink : s.Link) (hidle : s.server.session = .idle)
    {k : Nat} (hmain : s.client.main = .asking r k) (hcounted : s.Counted r [] k) :
    s.server.memorySize + s.client.usage r ≤ k := by
  obtain ⟨gone, old, rest, hqueue⟩ := hlink.queue
  have hcarried : s.carried = [] := carried_eq_nil (hs.wire.free (by rw [hidle]; exact id)).2
  obtain ⟨hkeys, -⟩ := hqueue.ids hs.client (by rw [hmain]; exact id) hcarried
    (hand_of_not_sent (by simp [hmain]))
  rw [MgrServer.unserved_of_ne (by simp [hidle])] at hkeys
  have husage : s.server.pl_threads.map s.server.usage = rest.map s.client.usage := by
    have husages := congrArg (List.map keyUsage) hkeys
    rw [List.map_map, List.map_map] at husages
    calc s.server.pl_threads.map s.server.usage
        = s.server.pl_threads.map (keyUsage ∘ s.server.key) :=
          List.map_congr_left fun a _ => (s.server.keyUsage_eq a).symm
      _ = rest.map (keyUsage ∘ s.client.key) := husages.symm
      _ = rest.map s.client.usage :=
          List.map_congr_left fun ρ _ => (s.client.usage_eq ρ).symm
  have hnodup := hs.client.book.nodup
  rw [hqueue.pending_eq] at hnodup
  have hle := hcounted rest (List.nodup_append.mp hnodup).2.1 fun ρ hρ => by
    refine ⟨?_, fun hret => hqueue.rest_open ρ hρ (Or.inl (by rw [hret]; trivial)),
      List.not_mem_nil⟩
    rw [hqueue.pending_eq]
    exact List.mem_append_right _ hρ
  rw [hs.server.book.memory_eq, husage]
  omega

/-- When the server takes up a call of `runTestHarness`, its memory is at most what the client has
added up over the pending transactions, so it accepts what the client has found to fit. -/
theorem admits_of_total (hrun : lts.Run (.new setup graphs monitorInterval) s) {n : UInt64}
    {requests : List Request} (hidle : s.server.session = .idle)
    (hserver : s.toServer = .runTestHarness n :: requests) :
    ∃ r memorySize, s.client.main = .asking r memorySize ∧ n.toNat = s.client.usage r
      ∧ s.server.memorySize + s.client.usage r ≤ memorySize
      ∧ (memorySize ≤ s.client.max_memory_usage →
        s.server.runTestHarness n = { s.server with session := .admitted n }) := by
  have hsession : s.server.session ≠ .ended := by simp [hidle]
  have hs := served_of_run hrun hsession
  have hmem : .runTestHarness n ∈ s.toServer := by
    rw [hserver]
    exact List.mem_cons_self
  obtain ⟨r, k, hmain⟩ := hs.wire.asking_of_request hmem
  have hover : ¬ s.client.main.Over := by rw [hmain]; exact id
  have husage := hs.offer.asked n r k hmem hmain
  have hle := memory_le hs (link_of_run hrun hsession hover) hidle hmain
    ((summed_of_run hrun hsession hover).asking r k hmain)
  refine ⟨r, k, hmain, husage, hle, fun hmax => ?_⟩
  rw [max_of_run hrun] at hmax
  have hwrap : u64 (s.server.memorySize + n.toNat) ≤ memorySizeMax :=
    Nat.le_trans (u64_le _) (by omega)
  rw [MgrServer.runTestHarness, if_neg (Nat.not_lt.mpr hwrap)]

theorem runTestHarness_of_kinds {m : Request} (h : m.kinds = [.trans_accepted]) :
    ∃ n, m = .runTestHarness n := by
  cases m with
  | runTestHarness n => exact ⟨n, rfl⟩
  | other q => cases q <;> cases h
  | _ => cases h

/-- A second transaction, while the first is on the server. -/
theorem admits_of_total_second : ∃ s n requests r memorySize,
    lts.exec (startOne ++ [.runTestHarness 0 [soleOutput 1 word_lt] 5, .size, .ask])
        (new ⟨1, 4, 16, 4⟩ 0 0) = some s
      ∧ s.toServer = .runTestHarness n :: requests ∧ s.server.memorySize = 108
      ∧ s.client.main = .asking r memorySize ∧ n.toNat = s.client.usage r
      ∧ s.server.memorySize + s.client.usage r ≤ memorySize
      ∧ (memorySize ≤ s.client.max_memory_usage →
        s.server.runTestHarness n = { s.server with session := .admitted n }) := by
  have hasked :
    ∃ s ∈ lts.exec (startOne ++ [.runTestHarness 0 [soleOutput 1 word_lt] 5, .size, .ask])
      (new ⟨1, 4, 16, 4⟩ 0 0), s.server.session = .idle ∧ s.server.memorySize = 108
        ∧ s.toServer.map Request.kinds = [[.trans_accepted]] := by
    decide +kernel
  obtain ⟨s, hexec, hidle, hmemory, hkinds⟩ := hasked
  obtain ⟨m, hserver, hm⟩ := List.map_eq_singleton_iff.mp hkinds
  obtain ⟨n, rfl⟩ := runTestHarness_of_kinds hm
  obtain ⟨r, memorySize, hmain, husage, hle, hadmits⟩ :=
    admits_of_total (Lts.run_of_exec (Option.mem_def.mp hexec)) hidle hserver
  exact ⟨s, n, [], r, memorySize, Option.mem_def.mp hexec, hserver, hmemory, hmain, husage, hle,
    hadmits⟩

end System

end AieTestHarness
