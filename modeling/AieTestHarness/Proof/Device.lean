import AieTestHarness.Kernel.Card
import AieTestHarness.Proof.Session

/-!
# The server on a card

The device of the server is a card: a run that has come to its end has left in its buffers what a
run of the kernel leaves there. What the server sends for a transaction that is done is then what a
run of the kernel makes of the buffers it was sent.
-/

namespace AieTestHarness

variable (d : Card) (given : Nat → PlBuffers)

theorem PlBuffers.fresh_eq {b b' : PlBuffers} (hcfg : b.cfg = b'.cfg) (hto : b.to_aie = b'.to_aie)
    (hsizes : b.sizes = b'.sizes) (hfresh : b'.fresh = b') : b.fresh = b' := by
  obtain ⟨cfg, perf, to_aie, from_aie⟩ := b
  obtain ⟨cfg', perf', to_aie', from_aie'⟩ := b'
  simp only [PlBuffers.sizes, PlBuffers.fresh, Prod.mk.injEq, PlBuffers.mk.injEq]
    at hcfg hto hsizes hfresh ⊢
  obtain ⟨-, hperf, -, hfrom⟩ := hsizes
  rw [hperf, hfrom]
  exact ⟨hcfg, hfresh.2.1, hto, hfresh.2.2.2⟩

namespace FastXM

/-- The runs are runs of the kernel; `given r` is what run `r` found in its buffers. -/
structure OfCard (f : FastXM) : Prop where
  known : ∀ r < f.started, r ∈ f.pl_k_r_hdl ∧ f.runs r ≠ .aborted
  inputs : ∀ r < f.started, (f.mem r).cfg = (given r).cfg ∧ (f.mem r).to_aie = (given r).to_aie
  results : ∀ r < f.started, f.runs r = .completed → d.Runs (given r) (f.mem r)

variable {d given} {f : FastXM} {r : Nat}

/-- When the device is waited for and nothing runs, the run has come to its end. -/
theorem OfCard.completed (h : f.OfCard d given) (hdone : f.AllDone) (hr : r < f.started) :
    f.runs r = .completed := by
  have hlive := hdone r (h.known r hr).1
  have haborted := (h.known r hr).2
  cases hrun : f.runs r with
  | live => exact absurd hrun hlive
  | completed => rfl
  | aborted => exact absurd hrun haborted

theorem OfCard.runPL (h : f.OfCard d given) {a : Addr} {t : Transaction}
    (hgiven : given f.started = t.buffers) : (f.runPL a t).OfCard d given where
  known r hr := by
    rcases Nat.lt_succ_iff_lt_or_eq.mp hr with hlt | rfl
    · refine ⟨List.mem_append_left _ (h.known r hlt).1, ?_⟩
      change Function.update f.runs f.started .live r ≠ _
      rw [Function.update_of_ne (Nat.ne_of_lt hlt)]
      exact (h.known r hlt).2
    · refine ⟨List.mem_append_right _ (List.mem_singleton_self _), ?_⟩
      change Function.update f.runs f.started .live f.started ≠ _
      rw [Function.update_self]
      exact RunState.noConfusion
  inputs r hr := by
    change (Function.update f.mem f.started t.buffers r).cfg = _
      ∧ (Function.update f.mem f.started t.buffers r).to_aie = _
    rcases Nat.lt_succ_iff_lt_or_eq.mp hr with hlt | rfl
    · rw [Function.update_of_ne (Nat.ne_of_lt hlt)]
      exact h.inputs r hlt
    · rw [Function.update_self, hgiven]
      exact ⟨rfl, rfl⟩
  results r hr hrun := by
    change Function.update f.runs f.started .live r = _ at hrun
    change d.Runs (given r) (Function.update f.mem f.started t.buffers r)
    rcases Nat.lt_succ_iff_lt_or_eq.mp hr with hlt | rfl
    · rw [Function.update_of_ne (Nat.ne_of_lt hlt)] at hrun ⊢
      exact h.results r hlt hrun
    · rw [Function.update_self] at hrun
      cases hrun

theorem OfCard.complete (h : f.OfCard d given) (hruns : d.Runs (given r) (f.mem r)) :
    (f.complete r).OfCard d given where
  known r' hr' := by
    refine ⟨(h.known r' hr').1, ?_⟩
    change Function.update f.runs r .completed r' ≠ _
    by_cases heq : r' = r
    · rw [heq, Function.update_self]
      exact RunState.noConfusion
    · rw [Function.update_of_ne heq]
      exact (h.known r' hr').2
  inputs := h.inputs
  results r' hr' hrun := by
    change Function.update f.runs r .completed r' = _ at hrun
    by_cases heq : r' = r
    · rw [heq]
      exact hruns
    · rw [Function.update_of_ne heq] at hrun
      exact h.results r' hr' hrun

theorem OfCard.write (h : f.OfCard d given) (hlive : f.runs r = .live) (perf : List Nat)
    (from_aie : List UInt8) : (f.write r perf from_aie).OfCard d given where
  known := h.known
  inputs r' hr' := by
    change (Function.update f.mem r _ r').cfg = _ ∧ (Function.update f.mem r _ r').to_aie = _
    by_cases heq : r' = r
    · rw [heq, Function.update_self]
      exact h.inputs r (heq ▸ hr')
    · rw [Function.update_of_ne heq]
      exact h.inputs r' hr'
  results r' hr' hrun := by
    have hne : r' ≠ r := by
      rintro rfl
      cases hlive.symm.trans hrun
    change d.Runs (given r') (Function.update f.mem r _ r')
    rw [Function.update_of_ne hne]
    exact h.results r' hr' hrun

end FastXM

namespace MgrServer

structure OnCard (l : ServerLabel) (m : MgrServer) : Prop where
  started : ∀ a t, l = .pl a → m.pc a = .locked → m.heap a = some t →
    given m.fastObj.started = t.buffers
  completed : ∀ r, l = .complete r → d.Runs (given r) (m.fastObj.mem r)

structure Given (f : FastXM) (t : Transaction) (r : Nat) : Prop where
  lt : r < f.started
  eq : given r = t.buffers
  fresh : t.buffers.fresh = t.buffers

/-- What is in the buffers of a transaction whose thread stands at `pc`. -/
def Work (f : FastXM) (t : Transaction) : PlPc → Prop
  | .waiting | .passed | .locked => t.buffers.fresh = t.buffers
  | .started r | .loop r | .polling r | .bounded r => Given given f t r
  | .polled r => Given given f t r ∧ f.runs r = .completed
  | .decided r => Given given f t r ∧ (t.status = .TRANSACTION_DONE → f.runs r = .completed)
  | .fetched _ => d.Runs t.buffers.fresh t.buffers
  | .returned => t.status = .TRANSACTION_DONE → d.Runs t.buffers.fresh t.buffers

structure Worked (m : MgrServer) : Prop where
  device : m.fastObj.OfCard d given
  threads : ∀ a ∈ m.pl_threads, ∀ t, m.heap a = some t → Work d given m.fastObj t (m.pc a)
  pending : ∀ a n t, m.session = .created a n → m.heap a = some t →
    t.perf_ptr = List.replicate t.perf_ptr.length 0

variable {d given} {m m' : MgrServer} {f f' : FastXM} {a : Addr} {t t' : Transaction} {pc : PlPc}

theorem Work.mono (h : Work d given f t pc) (hstarted : f.started ≤ f'.started)
    (hruns : ∀ r < f.started, f.runs r = .completed → f'.runs r = .completed) :
    Work d given f' t pc := by
  have hgiven : ∀ {r}, Given given f t r → Given given f' t r := fun h =>
    ⟨Nat.lt_of_lt_of_le h.lt hstarted, h.eq, h.fresh⟩
  cases pc with
  | waiting | passed | locked | fetched | returned => exact h
  | started | loop | polling | bounded => exact hgiven h
  | polled r => exact ⟨hgiven h.1, hruns r h.1.lt h.2⟩
  | decided r => exact ⟨hgiven h.1, fun hdone => hruns r h.1.lt (h.2 hdone)⟩

theorem Work.congr (h : Work d given f t pc) (hbuffers : t'.buffers = t.buffers)
    (hstatus : t'.status = t.status) : Work d given f t' pc := by
  have hgiven : ∀ {r}, Given given f t r → Given given f t' r := fun h =>
    ⟨h.lt, h.eq.trans hbuffers.symm, by rw [hbuffers, h.fresh]⟩
  cases pc with
  | waiting | passed | locked =>
      change t'.buffers.fresh = t'.buffers
      rw [hbuffers]
      exact h
  | started | loop | polling | bounded => exact hgiven h
  | polled r => exact ⟨hgiven h.1, h.2⟩
  | decided r => exact ⟨hgiven h.1, fun hdone => h.2 (hstatus ▸ hdone)⟩
  | fetched =>
      change d.Runs t'.buffers.fresh t'.buffers
      rw [hbuffers]
      exact h
  | returned =>
      intro hdone
      rw [hbuffers]
      exact h (hstatus ▸ hdone)

/-! ### Steps of the first thread -/

theorem Worked.move (h : m.Worked d given) (hm : m.Inv) (hhead : m.pl_threads.head? = some a)
    (hf : f.OfCard d given) (hstarted : m.fastObj.started ≤ f.started)
    (hruns : ∀ r < m.fastObj.started, m.fastObj.runs r = .completed → f.runs r = .completed)
    (mtx : Option Addr) (es : List Event) (hwork : Work d given f t' pc) :
    (m.move a t' pc f mtx es).Worked d given where
  device := hf
  threads b hb u hu := by
    change Function.update m.heap a (some t') b = some u at hu
    change Work d given f u (Function.update m.pc a pc b)
    by_cases hba : b = a
    · rw [hba, Function.update_self] at hu ⊢
      obtain rfl := Option.some.inj hu
      exact hwork
    · rw [Function.update_of_ne hba] at hu ⊢
      exact (h.threads b hb u hu).mono hstarted hruns
  pending b n u hsession hu := by
    have hnot := (hm.book.transactions_of_created hsession).2
    have hba : b ≠ a := by
      rintro rfl
      exact hnot (List.mem_of_mem_head? hhead)
    change Function.update m.heap a (some t') b = some u at hu
    rw [Function.update_of_ne hba] at hu
    exact h.pending b n u hsession hu

theorem Worked.pass (h : m.Worked d given) (hm : m.Inv) (hhead : m.pl_threads.head? = some a)
    (mtx : Option Addr) (es : List Event) (hwork : Work d given m.fastObj t' pc) :
    (m.move a t' pc m.fastObj mtx es).Worked d given :=
  h.move hm hhead h.device (Nat.le_refl _) (fun _ _ => id) mtx es hwork

/-- What is fetched is what a run of the kernel makes of the buffers as they were sent. -/
theorem runs_of_given {r : Nat} (hf : f.OfCard d given) (hgiven : Given given f t r)
    (hsizes : (f.mem r).sizes = t.buffers.sizes) (hrun : f.runs r = .completed) :
    d.Runs (f.mem r).fresh (f.mem r) := by
  obtain ⟨hcfg, hto⟩ := hf.inputs r hgiven.lt
  have hfresh : (f.mem r).fresh = given r := by
    rw [hgiven.eq] at hcfg hto ⊢
    exact PlBuffers.fresh_eq hcfg hto hsizes hgiven.fresh
  rw [hfresh]
  exact hf.results r hgiven.lt hrun

theorem Worked.fetch {r : Nat} (h : m.Worked d given) (hm : m.Inv)
    (hhead : m.pl_threads.head? = some a) (mtx : Option Addr) (es : List Event)
    (hwork : Work d given m.fastObj.clear (t.withBuffers (m.fastObj.mem r)) pc) :
    (m.move a (t.withBuffers (m.fastObj.mem r)) pc m.fastObj.clear mtx es).Worked d given :=
  h.move (f := m.fastObj.clear) hm hhead ⟨h.device.known, h.device.inputs, h.device.results⟩
    (Nat.le_refl _) (fun _ _ => id) mtx es hwork

theorem Worked.plStep (h : m.Worked d given) (hm : m.Inv) (ha : a ∈ m.pl_threads)
    (ht : m.heap a = some t)
    (hgiven : m.pc a = .locked → given m.fastObj.started = t.buffers)
    (hstep : m.plStep a t = some m') : m'.Worked d given := by
  have hwork := h.threads a ha t ht
  have hhead : m.pl_threads.head? = some a := by
    by_cases hpc : m.pc a = .waiting
    · simp only [MgrServer.plStep, hpc, Option.ite_none_right_eq_some] at hstep
      exact hm.head_of_transactions ha hstep.1
    · exact hm.head_of_pc ha hpc
  have hok := hm.threads.head a t hhead ht
  cases hpc : m.pc a with
  | waiting =>
      rw [hpc] at hwork
      simp only [MgrServer.plStep, hpc, Option.ite_none_right_eq_some, Option.some.injEq] at hstep
      rw [← hstep.2, goto_eq ht]
      exact h.pass hm hhead m.pl_mtx [] hwork
  | passed =>
      rw [hpc] at hwork
      simp only [MgrServer.plStep, hpc, Option.ite_none_right_eq_some, Option.some.injEq] at hstep
      rw [← hstep.2, move_of_update ht]
      exact h.pass hm hhead (some a) [] hwork
  | locked =>
      rw [hpc] at hwork
      simp only [MgrServer.plStep, hpc, Option.some.injEq] at hstep
      have hmove : m.start a t = m.move a t (.started m.fastObj.started)
        (m.fastObj.runPL a t) m.pl_mtx
          [.started t.trans_id m.fastObj.started] := by
        rw [MgrServer.move, ← ht, Function.update_eq_self]
        rfl
      rw [← hstep, hmove]
      refine h.move hm hhead (h.device.runPL (hgiven hpc)) (Nat.le_succ _) (fun r hr hrun => ?_) _ _
        ⟨Nat.lt_succ_self _, hgiven hpc, hwork⟩
      exact (Function.update_of_ne (Nat.ne_of_lt hr) ..).trans hrun
  | started r =>
      rw [hpc] at hwork
      simp only [MgrServer.plStep, hpc, Option.some.injEq] at hstep
      rw [← hstep, setTrans_goto_eq]
      exact h.pass hm hhead m.pl_mtx [] ⟨hwork.lt, hwork.eq, hwork.fresh⟩
  | loop r =>
      rw [hpc] at hwork
      simp only [MgrServer.plStep, hpc, Option.some.injEq] at hstep
      rw [← hstep, goto_eq ht]
      refine h.pass hm hhead m.pl_mtx [] ?_
      split
      · exact hwork
      · exact hwork
  | polling r => simp [MgrServer.plStep, hpc] at hstep
  | polled r =>
      rw [hpc] at hwork hok
      simp only [MgrServer.plStep, hpc, Option.some.injEq] at hstep
      rw [← hstep, fetch_goto_eq hok.holds ht]
      exact h.fetch hm hhead _ _ (runs_of_given h.device hwork.1 hok.holds.sizes_eq hwork.2)
  | fetched r =>
      rw [hpc] at hwork
      simp only [MgrServer.plStep, hpc, Option.some.injEq] at hstep
      rw [← hstep, decide_finish_eq]
      exact h.pass hm hhead none _ fun _ => hwork
  | bounded r => simp [MgrServer.plStep, hpc] at hstep
  | decided r =>
      rw [hpc] at hwork hok
      simp only [MgrServer.plStep, hpc, Option.some.injEq] at hstep
      rw [← hstep, fetch_finish_eq hok.1.holds ht]
      exact h.fetch hm hhead _ _ fun hdone =>
        runs_of_given h.device hwork.1 hok.1.holds.sizes_eq (hwork.2 hdone)
  | returned => simp [MgrServer.plStep, hpc] at hstep

theorem Worked.waitStep (h : m.Worked d given) (hm : m.Inv) (ha : a ∈ m.pl_threads)
    (ht : m.heap a = some t) {done : Bool} (hstep : m.waitStep a t done = some m') :
    m'.Worked d given := by
  rw [MgrServer.waitStep, Option.ite_none_right_eq_some] at hstep
  obtain ⟨hdone, hstep⟩ := hstep
  have hwork := h.threads a ha t ht
  have hhead : m.pc a ≠ .waiting → m.pl_threads.head? = some a := hm.head_of_pc ha
  split at hstep
  · next r hpc =>
    rw [hpc] at hwork
    rw [← Option.some.inj hstep, goto_eq ht]
    refine h.pass hm (hhead (by simp [hpc])) m.pl_mtx [] ?_
    cases done with
    | true => exact ⟨hwork, h.device.completed (hdone.mp rfl) hwork.lt⟩
    | false => exact hwork
  · next r hpc =>
    rw [hpc] at hwork
    rw [← Option.some.inj hstep, decide_goto_eq]
    refine h.pass hm (hhead (by simp [hpc])) m.pl_mtx _
      ⟨⟨hwork.lt, hwork.eq, hwork.fresh⟩, fun hstatus => ?_⟩
    cases done with
    | true => exact h.device.completed (hdone.mp rfl) hwork.lt
    | false => cases hstatus
  · cases hstep

/-! ### Steps of the server -/

theorem Worked.device_step (h : m.Worked d given) (hf : f.OfCard d given)
    (hstarted : f.started = m.fastObj.started)
    (hruns : ∀ r < m.fastObj.started, m.fastObj.runs r = .completed → f.runs r = .completed) :
    ({ m with fastObj := f } : MgrServer).Worked d given where
  device := hf
  threads a ha t ht := (h.threads a ha t ht).mono (Nat.le_of_eq hstarted.symm) hruns
  pending := h.pending

theorem Worked.thread (h : m.Worked d given) (hm : m.Inv) {l : ServerLabel}
    (hl : (∃ a, l = .pl a) ∨ (∃ a done, l = .wait a done) ∨ (∃ r, l = .complete r)
      ∨ ∃ r perf from_aie, l = .write r perf from_aie)
    (hcard : OnCard d given l m) (hstep : lts.step l m = some m') : m'.Worked d given := by
  simp only [lts, Option.ite_none_left_eq_some] at hstep
  replace hstep := hstep.2
  rcases hl with ⟨a, rfl⟩ | ⟨a, done, rfl⟩ | ⟨r, rfl⟩ | ⟨r, perf, from_aie, rfl⟩
  · rw [Option.ite_none_right_eq_some, Option.bind_eq_some_iff] at hstep
    obtain ⟨ha, t, ht, hstep⟩ := hstep
    exact h.plStep hm ha ht (fun hpc => hcard.started a t rfl hpc ht) hstep
  · rw [Option.ite_none_right_eq_some, Option.bind_eq_some_iff] at hstep
    obtain ⟨ha, t, ht, hstep⟩ := hstep
    exact h.waitStep hm ha ht hstep
  · rw [Option.ite_none_right_eq_some, Option.some.injEq] at hstep
    obtain ⟨-, rfl⟩ := hstep
    refine h.device_step (h.device.complete (hcard.completed r rfl)) rfl fun r' _ hrun => ?_
    change Function.update m.fastObj.runs r .completed r' = _
    by_cases heq : r' = r
    · rw [heq, Function.update_self]
    · rw [Function.update_of_ne heq]
      exact hrun
  · rw [Option.ite_none_right_eq_some, Option.some.injEq] at hstep
    obtain ⟨⟨hlive, -, -⟩, rfl⟩ := hstep
    exact h.device_step (h.device.write hlive perf from_aie) rfl fun _ _ => id

theorem Worked.session (h : m.Worked d given) (hm : m.Inv) {l : ServerLabel}
    (hmoves : m.SessionMoves l m') (hsession' : m'.session ≠ .ended) : m'.Worked d given := by
  cases hmoves with
  | failed => exact absurd rfl hsession'
  | refused | queried | other => exact h
  | admitted => exact ⟨h.device, h.threads, fun _ _ _ hsession => SessionPc.noConfusion hsession⟩
  | @created n umode id timeout a mode hsession ha hid =>
      refine ⟨h.device, fun b hb u hu => ?_, fun b k u hb hu => ?_⟩
      · change Function.update m.heap a _ b = some u at hu
        rw [Function.update_of_ne (hm.book.ne_of_heap_none ha (hm.book.mem_transactions hb))] at hu
        exact h.threads b hb u hu
      · obtain ⟨rfl, -⟩ := SessionPc.created.inj hb
        change Function.update m.heap a (some _) a = some u at hu
        rw [Function.update_self, Option.some.injEq] at hu
        rw [← hu]
        exact congrArg (List.replicate · 0) (List.length_replicate ..).symm
  | @received a n q t hsession ht hq hsize =>
      obtain ⟨-, hnot⟩ := hm.book.transactions_of_created hsession
      refine ⟨h.device, fun b hb u hu => ?_, fun _ _ _ hsession => SessionPc.noConfusion hsession⟩
      change Function.update m.heap a (some (q.fill t)) b = some u at hu
      change Work d given m.fastObj u (Function.update m.pc a .waiting b)
      by_cases hba : b = a
      · rw [hba, Function.update_self] at hu ⊢
        obtain rfl := Option.some.inj hu
        have hperf := h.pending a n t hsession ht
        simp only [Work, PlBuffers.fresh, Transaction.buffers, Payload.fill, List.length_replicate,
          ← hperf]
      · rw [Function.update_of_ne hba] at hu ⊢
        rcases List.mem_append.mp hb with hold | hnew
        · exact h.threads b hold u hu
        · exact absurd (List.mem_singleton.mp hnew) hba
  | @waits id timeout a t hsession ha ht hid =>
      refine ⟨h.device, fun b hb u hu => ?_, fun _ _ _ hsession => SessionPc.noConfusion hsession⟩
      change Function.update m.heap a (some { t with mTimeOut := timeout.toNat }) b = some u at hu
      by_cases hba : b = a
      · rw [hba, Function.update_self] at hu
        obtain rfl := Option.some.inj hu
        rw [hba] at hb ⊢
        exact (h.threads a hb t ht).congr rfl rfl
      · rw [Function.update_of_ne hba] at hu
        exact h.threads b hb u hu
  | joined => exact ⟨h.device, h.threads, fun _ _ _ hsession => SessionPc.noConfusion hsession⟩
  | @retired a t hsession ht =>
      refine ⟨h.device, fun b hb u hu => ?_, fun _ _ _ hsession => SessionPc.noConfusion hsession⟩
      change Function.update m.heap a none b = some u at hu
      have hne : b ≠ a := by
        rintro rfl
        rw [Function.update_self] at hu
        cases hu
      rw [Function.update_of_ne hne] at hu
      exact h.threads b (List.mem_of_mem_erase hb) u hu

theorem worked_new (d : Card) (given : Nat → PlBuffers) (setup : Setup) :
    (new setup).Worked d given where
  device := ⟨nofun, nofun, nofun⟩
  threads := nofun
  pending := nofun

end MgrServer

end AieTestHarness
