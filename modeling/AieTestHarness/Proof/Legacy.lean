import Mathlib.Data.List.Nodup
import AieTestHarness.Legacy
import AieTestHarness.Proof.Calls

/-!
# Whose buffers are registered

`runPL` registers the buffers of the transaction it is given, and `fetchRes` empties the registry
again. A wait that times out does not, and the next transaction finds it filled.
-/

namespace AieTestHarness

/-- Every run has buffers: the configuration is never empty. -/
theorem nonempty_ne_nil_of_handleInputs {mode : TestMode} {p : Setup} {args : List TestHarnessArgs}
    {t : Transaction}
    (h : (Transaction.new 0 mode p.num_channels p.word_size p.depth p.memWidth 0).handleInputs args
      = .ok t) : t.buffers.nonempty ≠ [] := by
  obtain ⟨-, t₁, hmode, rfl⟩ := handleInputs_eq_ok h
  obtain ⟨to_aie_ptr, from_aie_ptr, -, -, hshape⟩ := handleModeInputs_shape hmode
  have hlength : t₁.cfg_ptr.length = u32 (p.num_channels * 2 * 4 + 1) := by
    calc
      t₁.cfg_ptr.length = _ := hshape.cfg_length
      _ = _ := by
        simp only [Transaction.prepared, Transaction.reset, Transaction.new, List.length_set,
          List.length_replicate]
        rfl
  have hne : t₁.cfg_ptr ≠ [] := by
    intro hnil
    rw [hnil, List.length_nil] at hlength
    unfold u32 at hlength
    omega
  simp [Transaction.buffers, PlBuffers.nonempty, hne]

theorem PlBuffers.nodup_nonempty (b : PlBuffers) : b.nonempty.Nodup := by
  unfold PlBuffers.nonempty
  split <;> split <;> split <;> split <;> decide

namespace HarnessMgr

variable {m m' : HarnessMgr}

structure Owned (m : HarnessMgr) : Prop where
  src : ∀ p ∈ m.fastObj.bo_src_ptr, ∃ t, m.trans = some (p.1, t)
  src_nodup : m.fastObj.bo_src_ptr.Nodup
  bo_nodup : m.fastObj.bo_hdl.Nodup

/-- `runTestHarness` replaces a transaction whose wait has timed out. -/
structure Replaces (m m' : HarnessMgr) : Prop where
  timed_out : ∃ p ∈ m.trans, p.2.status = .TRANSACTION_TIMEOUT
  created_lt : m.created < m'.created

structure Registered (f : FastXM) (a : Addr) : Prop where
  nonempty : f.bo_src_ptr ≠ []
  filled : ∃ (b : PlBuffers) (r : Nat), f.bo_src_ptr = b.nonempty.map (a, ·)
    ∧ f.bo_hdl = b.nonempty.map (r, ·)

/-- The registry holds the buffers of the transaction that has been started and not been fetched. -/
structure Tidy (m : HarnessMgr) : Prop where
  created : ∀ a t, m.trans = some (a, t) → a < m.created
  open_run : ∀ a t, m.trans = some (a, t) →
    t.status = .TRANSACTION_RUNNING ∨ t.status = .TRANSACTION_TIMEOUT → Registered m.fastObj a
  empty : (∀ a t, m.trans = some (a, t) →
    t.status ≠ .TRANSACTION_RUNNING ∧ t.status ≠ .TRANSACTION_TIMEOUT) →
    m.fastObj.bo_src_ptr = [] ∧ m.fastObj.bo_hdl = []

theorem Registered.owned {a : Addr} {t : Transaction} (h : Registered m.fastObj a)
    (htrans : m.trans = some (a, t)) : m.Owned := by
  obtain ⟨-, b, r, hsrc, hbo⟩ := h
  refine ⟨fun p hp => ?_, ?_, ?_⟩
  · rw [hsrc, List.mem_map] at hp
    obtain ⟨x, -, rfl⟩ := hp
    exact ⟨t, htrans⟩
  · rw [hsrc]
    exact b.nodup_nonempty.map (Prod.mk_right_injective a)
  · rw [hbo]
    exact b.nodup_nonempty.map (Prod.mk_right_injective r)

theorem Tidy.owned (h : m.Tidy) : m.Owned := by
  by_cases hopen : ∃ a t, m.trans = some (a, t)
      ∧ (t.status = .TRANSACTION_RUNNING ∨ t.status = .TRANSACTION_TIMEOUT)
  · obtain ⟨a, t, htrans, hstatus⟩ := hopen
    exact (h.open_run a t htrans hstatus).owned htrans
  · obtain ⟨hsrc, hbo⟩ := h.empty fun a t htrans => by
      rw [← not_or]
      exact fun hstatus => hopen ⟨a, t, htrans, hstatus⟩
    refine ⟨?_, by rw [hsrc]; exact List.nodup_nil, by rw [hbo]; exact List.nodup_nil⟩
    rw [hsrc]
    simp

theorem tidy_new (setup : Setup) : (new setup).Tidy where
  created := by rintro a t ⟨⟩
  open_run := by rintro a t ⟨⟩
  empty _ := ⟨rfl, rfl⟩

theorem Tidy.keep (h : m.Tidy) (htrans : m'.trans = m.trans) (hcreated : m'.created = m.created)
    (hsrc : m'.fastObj.bo_src_ptr = m.fastObj.bo_src_ptr)
    (hbo : m'.fastObj.bo_hdl = m.fastObj.bo_hdl) : m'.Tidy where
  created := by
    rw [htrans, hcreated]
    exact h.created
  open_run a t ht hstatus := by
    rw [htrans] at ht
    obtain ⟨hne, hfilled⟩ := h.open_run a t ht hstatus
    refine ⟨by rwa [hsrc], ?_⟩
    rwa [hsrc, hbo]
  empty := by
    rw [htrans, hsrc, hbo]
    exact h.empty

/-! ### Steps -/

theorem Tidy.decides (h : m'.Tidy) (hcreated : m'.created = m.created) :
    (m'.Owned ↔ ¬ m.Replaces m') ∧ (m'.Owned → m'.Tidy) := by
  refine ⟨iff_of_true h.owned fun hreplaces => ?_, fun _ => h⟩
  have hlt := hreplaces.created_lt
  rw [hcreated] at hlt
  exact Nat.lt_irrefl _ hlt

theorem Tidy.waitForRes {res : Bool} (h : m.Tidy) (hstep : m.waitForRes res = some m') :
    m'.Tidy ∧ m'.created = m.created := by
  unfold HarnessMgr.waitForRes at hstep
  split at hstep
  · cases hstep
    exact ⟨h, rfl⟩
  · rename_i a t htrans
    have hlt := h.created a t htrans
    split at hstep
    · rename_i hrunning
      cases res with
      | true =>
          dsimp only at hstep
          rw [Option.ite_none_right_eq_some] at hstep
          obtain ⟨-, hstep⟩ := hstep
          split at hstep
          · cases hstep
            refine ⟨⟨?_, ?_, fun _ => ⟨rfl, rfl⟩⟩, rfl⟩
            · rintro _ _ ⟨⟩
              exact hlt
            · rintro _ _ ⟨⟩ (hstatus | hstatus)
              · cases hstatus
              · cases hstatus
          · cases hstep
      | false =>
          cases hstep
          refine ⟨⟨?_, ?_, fun hclosed => ?_⟩, rfl⟩
          · rintro _ _ ⟨⟩
            exact hlt
          · rintro _ _ ⟨⟩ -
            exact h.open_run a t htrans (Or.inl hrunning)
          · exact absurd rfl (hclosed _ _ rfl).2
    · cases hstep
      exact ⟨h, rfl⟩

/-- A new transaction in place of one that is not done with. -/
theorem not_owned_of_replaced {a : Addr} {t t' : Transaction} (h : m.Tidy)
    (htrans : m.trans = some (a, t)) (hstatus : t.status = .TRANSACTION_TIMEOUT)
    (htrans' : m'.trans = some (m.created, t')) {added : List (Addr × PlArg)}
    (hsrc : m'.fastObj.bo_src_ptr = m.fastObj.bo_src_ptr ++ added) : ¬ m'.Owned := by
  intro howned
  obtain ⟨hne, b, r, hfilled, -⟩ := h.open_run a t htrans (Or.inr hstatus)
  obtain ⟨p, hp⟩ := List.exists_mem_of_ne_nil _ hne
  obtain ⟨t'', ht''⟩ := howned.src p (by rw [hsrc]; exact List.mem_append_left added hp)
  rw [hfilled, List.mem_map] at hp
  obtain ⟨x, -, rfl⟩ := hp
  cases htrans'.symm.trans ht''
  exact Nat.lt_irrefl _ (h.created _ _ htrans)

def replaced (m : HarnessMgr) (t : Transaction) (fastObj : FastXM) : HarnessMgr :=
  { m with trans := some (m.created, t), created := m.created + 1, fastObj }

theorem Tidy.replaced {t : Transaction} {f : FastXM} {added : List (Addr × PlArg)} (h : m.Tidy)
    (hrunning : ¬ m.Running) (hsrc : f.bo_src_ptr = m.fastObj.bo_src_ptr ++ added)
    (htidy : m.fastObj.bo_src_ptr = [] → m.fastObj.bo_hdl = [] → (m.replaced t f).Tidy) :
    ((m.replaced t f).Owned ↔ ¬ m.Replaces (m.replaced t f))
      ∧ ((m.replaced t f).Owned → (m.replaced t f).Tidy) := by
  by_cases htimeout : ∃ p ∈ m.trans, p.2.status = .TRANSACTION_TIMEOUT
  · have hreplaces : m.Replaces (m.replaced t f) := ⟨htimeout, Nat.lt_succ_self _⟩
    obtain ⟨⟨a, t'⟩, htrans, hstatus⟩ := htimeout
    have hnot : ¬ (m.replaced t f).Owned := not_owned_of_replaced h htrans hstatus rfl hsrc
    exact ⟨iff_of_false hnot (not_not.mpr hreplaces), fun howned => absurd howned hnot⟩
  · obtain ⟨hsrc, hbo⟩ := h.empty fun a t htrans =>
      ⟨fun hstatus => hrunning ⟨(a, t), htrans, hstatus⟩,
        fun hstatus => htimeout ⟨(a, t), htrans, hstatus⟩⟩
    have htidy := htidy hsrc hbo
    exact ⟨iff_of_true htidy.owned fun hreplaces => htimeout hreplaces.timed_out, fun _ => htidy⟩

theorem Tidy.runTestHarness (h : m.Tidy) (umode : UInt8) (args : List TestHarnessArgs) :
    ((m.runTestHarness umode args).Owned ↔ ¬ m.Replaces (m.runTestHarness umode args))
      ∧ ((m.runTestHarness umode args).Owned → (m.runTestHarness umode args).Tidy) := by
  unfold HarnessMgr.runTestHarness
  split
  · exact h.decides rfl
  · split
    · exact h.decides rfl
    · rename_i hrunning
      dsimp only
      split
      · refine h.replaced hrunning (List.append_nil _).symm fun hsrc hbo => ?_
        refine ⟨?_, ?_, fun _ => ⟨hsrc, hbo⟩⟩
        · rintro _ _ ⟨⟩
          exact Nat.lt_succ_self _
        · rintro _ _ ⟨⟩ (hstatus | hstatus)
          · cases hstatus
          · cases hstatus
      · rename_i t ht
        refine h.replaced (f := m.fastObj.runPL m.created t) hrunning rfl fun hsrc hbo => ?_
        have hne := nonempty_ne_nil_of_handleInputs ht
        refine ⟨?_, ?_, fun hclosed => absurd rfl (hclosed _ _ rfl).1⟩
        · rintro _ _ ⟨⟩
          exact Nat.lt_succ_self _
        · rintro _ _ ⟨⟩ -
          have hsrc' : (m.fastObj.runPL m.created t).bo_src_ptr
              = t.buffers.nonempty.map (m.created, ·) := by
            rw [FastXM.runPL, hsrc, List.nil_append]
          refine ⟨?_, t.buffers, m.fastObj.started, hsrc', ?_⟩
          · change (m.fastObj.runPL m.created t).bo_src_ptr ≠ []
            rw [hsrc']
            exact fun hnil => hne (List.map_eq_nil_iff.mp hnil)
          · change (m.fastObj.runPL m.created t).bo_hdl = _
            rw [FastXM.runPL, hbo, List.nil_append]

theorem decides_of_step {l : HarnessLabel} (h : m.Tidy) (hstep : lts.step l m = some m') :
    (m'.Owned ↔ ¬ m.Replaces m') ∧ (m'.Owned → m'.Tidy) := by
  cases l <;> simp only [lts, Option.some.injEq] at hstep
  case runTestHarness umode args =>
    rw [← hstep]
    exact h.runTestHarness umode args
  case runAIEGraph =>
    have htidy : m.runAIEGraph.Tidy := h.keep rfl rfl rfl rfl
    rw [← hstep]
    exact htidy.decides rfl
  case waitForRes res =>
    obtain ⟨htidy, hcreated⟩ := h.waitForRes hstep
    exact htidy.decides hcreated
  case complete r =>
    have htidy : Tidy { m with fastObj := m.fastObj.complete r } := h.keep rfl rfl rfl rfl
    rw [Option.ite_none_right_eq_some, Option.some.injEq] at hstep
    rw [← hstep.2]
    exact htidy.decides rfl
  case write r perf from_aie =>
    have htidy : Tidy { m with fastObj := m.fastObj.write r perf from_aie } :=
      h.keep rfl rfl rfl rfl
    rw [Option.ite_none_right_eq_some, Option.some.injEq] at hstep
    rw [← hstep.2]
    exact htidy.decides rfl

/-- The registry holds buffers of the current transaction all along, if and only if no transaction
is replaced whose wait has timed out. -/
theorem owned_iff (setup : Setup) (ls : List HarnessLabel) :
    lts.Along (fun _ m' => m'.Owned) ls (new setup)
      ↔ lts.Along (fun m m' => ¬ m.Replaces m') ls (new setup) :=
  Lts.along_congr_of (fun _ _ _ => decides_of_step) ls (tidy_new setup)

/-- One channel: a run, a wait that times out, and the next run. -/
theorem not_owned : ¬ ∀ setup ls, lts.Along (fun _ m' => m'.Owned) ls (new setup) := by
  intro hall
  let args : List TestHarnessArgs := [soleOutput 1 (by decide)]
  let setup : Setup := ⟨1, 4, 16, 4⟩
  have hexec : ∃ m ∈ lts.exec [.runTestHarness 0 args, .waitForRes false] (new setup),
      (∃ m' ∈ lts.step (.runTestHarness 0 args) m, (0, .cfg) ∈ m'.fastObj.bo_src_ptr
        ∧ m'.trans.map Prod.fst = some 1) := by
    decide +kernel
  obtain ⟨m, hexec, m', hstep, hmem, htrans⟩ := hexec
  have halong :=
    hall setup ([.runTestHarness 0 args, .waitForRes false] ++ [.runTestHarness 0 args])
  obtain ⟨t, ht⟩ := (halong.last (Option.mem_def.mp hexec) (Option.mem_def.mp hstep)).src _ hmem
  rw [ht] at htrans
  cases htrans

end HarnessMgr

end AieTestHarness
