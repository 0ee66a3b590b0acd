import AieTestHarness.Client.Manager
import AieTestHarness.Proof.Inputs

/-!
# What a call leaves behind

Most calls of the manager only move the main thread to its next exchange. `runTestHarness` adds a
transaction whose buffers have the sizes that go with the setup.
-/

namespace AieTestHarness

/-- The main thread has no transaction in hand, and no timeout of 0 to send. -/
def MainPc.Calm : MainPc → Prop
  | .idle | .loop _ => True
  | .exchange q _ => q ≠ .setTimeOut 0
  | _ => False

namespace MgrClient

theorem setServerTimeOut_calm (c : MgrClient) (t : UInt64) (k : After) :
    ∃ main : MainPc, main.Calm ∧ c.setServerTimeOut t k = c.goto main := by
  unfold setServerTimeOut
  split
  · exact ⟨.idle, trivial, rfl⟩
  · rename_i hne
    exact ⟨.exchange _ _, fun h => hne (OtherRequest.setTimeOut.inj h), rfl⟩

theorem leaveLoop_calm (c : MgrClient) (w : WaitForRes) :
    ∃ main : MainPc, main.Calm ∧ c.leaveLoop w = c.goto main := by
  unfold leaveLoop
  split
  · exact ⟨.exchange _ _, OtherRequest.noConfusion, rfl⟩
  · exact c.setServerTimeOut_calm w.server_timeout .done

theorem resume_calm (c : MgrClient) (t : UInt64) (k : After) :
    ∃ main : MainPc, main.Calm ∧ c.resume t k = c.goto main := by
  cases k with
  | done => exact ⟨.idle, trivial, rfl⟩
  | asked timeout_millisec num_trans =>
      simp only [resume, enter]
      split
      · exact c.setServerTimeOut_calm _ _
      · exact ⟨.loop _, trivial, rfl⟩
  | raised w => exact ⟨.loop w, trivial, rfl⟩
  | graphs w => exact c.setServerTimeOut_calm w.server_timeout .done

theorem runAIEGraph_calm (c : MgrClient) (hmain : c.main = .idle) (g_idx iters : UInt32) :
    ∃ main : MainPc, main.Calm ∧ c.runAIEGraph g_idx iters = c.goto main := by
  unfold runAIEGraph
  split
  · exact ⟨.exchange _ _, OtherRequest.noConfusion, rfl⟩
  · exact ⟨.idle, trivial, by rw [goto, ← hmain]⟩

def pop (c : MgrClient) (r : Ref) (main : MainPc) : MgrClient :=
  { c with
    pending_transactions := c.pending_transactions.tail
    transaction_threads := c.transaction_threads.erase r
    main }

theorem join_calm (c : MgrClient) (w : WaitForRes) (r : Ref) :
    ∃ main : MainPc, main.Calm ∧ c.join w r = c.pop r main := by
  unfold join
  dsimp only
  split
  · exact leaveLoop_calm _ _
  · exact ⟨.loop _, trivial, rfl⟩

end MgrClient

/-! ### `runTestHarness` -/

section Shape

open Slices Loops Transaction

structure SameShape (t t' : Transaction) : Prop where
  trans_id_eq : t'.trans_id = t.trans_id
  mTimeOut_eq : t'.mTimeOut = t.mTimeOut
  perf_length : t'.perf_ptr.length = t.perf_ptr.length
  cfg_length : t'.cfg_ptr.length = t.cfg_ptr.length
  to_aie_length : t'.to_aie_ptr.length = t.to_aie_ptr.length
  from_aie_length : t'.from_aie_ptr.length = t.from_aie_ptr.length

theorem SameShape.refl (t : Transaction) : SameShape t t := ⟨rfl, rfl, rfl, rfl, rfl, rfl⟩

theorem SameShape.trans {t t' t'' : Transaction} (h : SameShape t t') (h' : SameShape t' t'') :
    SameShape t t'' :=
  ⟨h'.1.trans h.1, h'.2.trans h.2, h'.3.trans h.3, h'.4.trans h.4, h'.5.trans h.5, h'.6.trans h.6⟩

theorem setAt_length {α : Type} {v w : List α} {i : Nat} {x : α} (h : setAt v i x = .ok w) :
    w.length = v.length := by
  rw [(setAt_eq_ok.mp h).2, List.length_set]

theorem writeCfg_length {p : Setup} {cfg cfg' : List Nat} {bias chn offset : Nat}
    {a : TestHarnessArgs} (h : writeCfg p cfg bias chn a offset = .ok cfg') :
    cfg'.length = cfg.length := by
  simp only [writeCfg, bind_eq_ok] at h
  obtain ⟨cfg₁, h₁, cfg₂, h₂, cfg₃, h₃, h₄⟩ := h
  rw [setAt_length h₄, setAt_length h₃, setAt_length h₂, setAt_length h₁]

theorem memcpy_length {dst dst' src : List UInt8} {off pos n : Nat}
    (h : memcpy dst off src pos n = .ok dst') : dst'.length = dst.length := by
  obtain ⟨hsrc, hdst, rfl⟩ := memcpy_eq_ok.mp h
  exact length_overwrite (by rw [length_slice hsrc]; exact hdst)

theorem funcArgument_shape {p : Setup} {s s' : FuncLoop} {a : TestHarnessArgs}
    (h : funcArgument p s a = .ok s') : SameShape s.trans s'.trans := by
  unfold funcArgument at h
  split at h
  · simp only [bind_eq_ok, pure, Except.pure, Except.ok.injEq] at h
    obtain ⟨cfg, hcfg, to_aie, hto, rfl⟩ := h
    exact ⟨rfl, rfl, rfl, writeCfg_length hcfg, memcpy_length hto, rfl⟩
  · split at h
    · simp only [bind_eq_ok, pure, Except.pure, Except.ok.injEq] at h
      obtain ⟨cfg, hcfg, offsets, -, rfl⟩ := h
      exact ⟨rfl, rfl, rfl, writeCfg_length hcfg, rfl, rfl⟩
    · cases h
      exact .refl s.trans

theorem perfArgument_shape {p : Setup} {t t' : Transaction} {a : TestHarnessArgs}
    (h : perfArgument p t a = .ok t') : SameShape t t' := by
  unfold perfArgument at h
  split at h
  · simp only [bind_eq_ok, pure, Except.pure, Except.ok.injEq] at h
    obtain ⟨to_aie, hto, cfg, hcfg, rfl⟩ := h
    exact ⟨rfl, rfl, rfl, writeCfg_length hcfg, memcpy_length hto, rfl⟩
  · split at h
    · simp only [bind_eq_ok, pure, Except.pure, Except.ok.injEq] at h
      obtain ⟨cfg, hcfg, offsets, -, rfl⟩ := h
      exact ⟨rfl, rfl, rfl, writeCfg_length hcfg, rfl, rfl⟩
    · cases h
      exact .refl t

theorem handleModeInputs_shape {t t' : Transaction} (h : t.handleModeInputs = .ok t') :
    ∃ to_aie_ptr from_aie_ptr, to_aie_ptr.length < 2 ^ 62 ∧ from_aie_ptr.length < 2 ^ 62
      ∧ SameShape { t with to_aie_ptr, from_aie_ptr } t' := by
  unfold handleModeInputs at h
  split at h
  · simp only [handleFuncInputs, bind_eq_ok, pure, Except.pure, Except.ok.injEq] at h
    obtain ⟨totals, -, to_aie, hto, from_aie, hfrom, s, hloop, rfl⟩ := h
    obtain ⟨hto, rfl⟩ := resize_eq_ok.mp hto
    obtain ⟨hfrom, rfl⟩ := resize_eq_ok.mp hfrom
    refine ⟨List.replicate totals.1 0, List.replicate totals.2 0, ?_, ?_, ?_⟩
    · rwa [List.length_replicate]
    · rwa [List.length_replicate]
    · refine foldlM_invariant (fun _ s => SameShape { t with
          to_aie_ptr := List.replicate totals.1 0
          from_aie_ptr := List.replicate totals.2 0 } s.trans)
            ⟨rfl, rfl, rfl, rfl, rfl, rfl⟩ ?_ hloop
      intro done a rest s s' _ hI hpass
      exact hI.trans (funcArgument_shape hpass)
  · simp only [handlePerfInputs] at h
    split at h
    · cases h
    · split at h
      · cases h
      · simp only [bind_eq_ok] at h
        obtain ⟨to_aie, hto, from_aie, hfrom, hloop⟩ := h
        obtain ⟨hto, rfl⟩ := resize_eq_ok.mp hto
        obtain ⟨hfrom, rfl⟩ := resize_eq_ok.mp hfrom
        refine ⟨_, _, ?_, ?_, foldlM_invariant (fun _ t' => SameShape _ t') (.refl _) ?_ hloop⟩
        · rwa [List.length_replicate]
        · rwa [List.length_replicate]
        · intro done a rest s s' _ hI hpass
          exact hI.trans (perfArgument_shape hpass)

end Shape

namespace MgrClient

variable {c : MgrClient}

structure Made (r : Ref) (setup : Setup) (t : Transaction) : Prop where
  trans_id_eq : t.trans_id = (transId r).toNat
  mTimeOut_eq : t.mTimeOut = 0
  status_ne : t.status ≠ .TRANSACTION_DONE
  perf_length : t.perf_ptr.length = u32 (setup.num_channels * 4)
  cfg_length : t.cfg_ptr.length < 2 ^ 32
  to_aie_lt : t.to_aie_ptr.length < 2 ^ 62
  from_aie_lt : t.from_aie_ptr.length < 2 ^ 62

theorem made_new (c : MgrClient) (mode : TestMode) (timeout : UInt32) :
    Made c.created c.setup (.new (transId c.created).toNat mode c.setup.num_channels
      c.setup.word_size c.setup.depth c.setup.memWidth timeout.toNat) where
  trans_id_eq := rfl
  mTimeOut_eq := rfl
  status_ne := TransactionStatus.noConfusion
  perf_length := List.length_replicate
  cfg_length := by
    rw [show (Transaction.new _ _ _ _ _ _ _).cfg_ptr = List.replicate _ 0 from rfl,
      List.length_replicate]
    exact u32_lt _
  to_aie_lt := Nat.two_pow_pos 62
  from_aie_lt := Nat.two_pow_pos 62

theorem made_of_handleInputs {mode : TestMode} {timeout : UInt32} {args : List TestHarnessArgs}
    {t : Transaction}
    (h : (Transaction.new (transId c.created).toNat mode c.setup.num_channels c.setup.word_size
      c.setup.depth c.setup.memWidth timeout.toNat).handleInputs args = .ok t) :
    Made c.created c.setup t := by
  obtain ⟨-, t₁, hmode, rfl⟩ := handleInputs_eq_ok h
  obtain ⟨to_aie_ptr, from_aie_ptr, hto, hfrom, hshape⟩ := handleModeInputs_shape hmode
  refine ⟨hshape.trans_id_eq, hshape.mTimeOut_eq, TransactionStatus.noConfusion,
    hshape.perf_length.trans List.length_replicate, ?_, ?_, ?_⟩
  · refine lt_of_eq_of_lt hshape.cfg_length ?_
    simp only [Transaction.prepared, Transaction.reset, List.length_set, List.length_replicate]
    exact u32_lt _
  · exact lt_of_eq_of_lt hshape.to_aie_length hto
  · exact lt_of_eq_of_lt hshape.from_aie_length hfrom

theorem create_setTrans (c : MgrClient) (mode : TestMode) (timeout : UInt32) :
    (c.create mode timeout).setTrans c.created (.new (transId c.created).toNat mode
      c.setup.num_channels c.setup.word_size c.setup.depth c.setup.memWidth timeout.toNat)
        = c.create mode timeout := by
  simp only [create, setTrans, Function.update_idem]

/-- A call whose arguments are rejected has used up a transaction all the same. -/
theorem runTestHarness_error {c : MgrClient} {umode : UInt8} {mode : TestMode}
    {args : List TestHarnessArgs} {timeout : UInt32} {e : Exn}
    (hmode : TestMode.ofNat? umode.toNat = some mode)
    (h : (Transaction.new (transId c.created).toNat mode c.setup.num_channels c.setup.word_size
      c.setup.depth c.setup.memWidth timeout.toNat).handleInputs args = .error e) :
    c.runTestHarness umode args timeout = c.create mode timeout := by
  simp only [runTestHarness, hmode]
  split
  · rfl
  · rename_i t ht
    cases h.symm.trans ht

/-- A call whose transaction fits and whose arguments are taken up is sized up. -/
theorem runTestHarness_ok {c : MgrClient} {umode : UInt8} {mode : TestMode}
    {args : List TestHarnessArgs} {timeout : UInt32} {t : Transaction}
    (hmode : TestMode.ofNat? umode.toNat = some mode)
    (h : (Transaction.new (transId c.created).toNat mode c.setup.num_channels c.setup.word_size
      c.setup.depth c.setup.memWidth timeout.toNat).handleInputs args = .ok t)
    (htotal : ((c.create mode timeout).setTrans c.created t).total < 2 ^ 64)
    (hlimit : t.getMemoryUsage ≤ c.max_memory_usage) :
    c.runTestHarness umode args timeout = ((c.create mode timeout).setTrans c.created t).goto
      (.sizing c.created c.pending_transactions t.getMemoryUsage) := by
  have hlimit' : ¬ t.getMemoryUsage > (c.create mode timeout).max_memory_usage :=
    Nat.not_lt.mpr hlimit
  simp only [runTestHarness, hmode]
  split
  · rename_i e he
    cases h.symm.trans he
  · rename_i t' ht
    cases h.symm.trans ht
    rw [if_neg (Nat.not_le.mpr htotal), if_neg hlimit']
    rfl

/-- The call either changes nothing or adds a transaction, which is then sized up unless an
exception was thrown. -/
theorem runTestHarness_cases (c : MgrClient) (umode : UInt8) (args : List TestHarnessArgs)
    (timeout : UInt32) :
    c.runTestHarness umode args timeout = c
      ∨ ∃ mode t main, Made c.created c.setup t
        ∧ c.runTestHarness umode args timeout
          = ((c.create mode timeout).setTrans c.created t).goto main
        ∧ (main = c.main ∨ main = .sizing c.created c.pending_transactions t.getMemoryUsage
          ∧ t.getMemoryUsage ≤ c.max_memory_usage
          ∧ ((c.create mode timeout).setTrans c.created t).total < 2 ^ 64) := by
  unfold runTestHarness
  split
  · exact Or.inl rfl
  · rename_i mode _
    refine Or.inr ⟨mode, ?_⟩
    dsimp only
    have hthrows : ∃ t main, Made c.created c.setup t
        ∧ c.create mode timeout = ((c.create mode timeout).setTrans c.created t).goto main
        ∧ (main = c.main ∨ main = .sizing c.created c.pending_transactions t.getMemoryUsage
          ∧ t.getMemoryUsage ≤ c.max_memory_usage
          ∧ ((c.create mode timeout).setTrans c.created t).total < 2 ^ 64) :=
      ⟨_, c.main, c.made_new mode timeout, (c.create_setTrans mode timeout).symm, Or.inl rfl⟩
    split
    · exact hthrows
    · rename_i t ht
      have hmade : Made c.created c.setup t := made_of_handleInputs ht
      split
      · exact hthrows
      · rename_i htotal
        split
        · exact ⟨t, c.main, hmade, rfl, Or.inl rfl⟩
        · rename_i hle
          exact ⟨t, _, hmade, rfl, Or.inr ⟨rfl, Nat.le_of_not_gt hle, Nat.lt_of_not_le htotal⟩⟩

end MgrClient

end AieTestHarness
