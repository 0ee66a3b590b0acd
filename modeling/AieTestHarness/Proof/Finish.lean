import AieTestHarness.Proof.Pipeline

/-!
# The first thread can finish

Wherever the thread of the first transaction stands, the statements of that thread and the
completion of the runs on the device lead to its end. Nothing waits for the session thread.
-/

namespace AieTestHarness

def PlPc.left : PlPc → Nat
  | .waiting => 8
  | .passed => 7
  | .locked => 6
  | .started _ => 5
  | .loop _ => 4
  | .polling _ | .bounded _ => 3
  | .polled _ => 2
  | .fetched _ | .decided _ => 1
  | .returned => 0

namespace MgrServer

variable {m m' : MgrServer} {a : Addr} {t : Transaction} {r : Nat}

def OfThread (l : ServerLabel) (_ : MgrServer) : Prop :=
  (∃ a, l = .pl a) ∨ (∃ a done, l = .wait a done) ∨ (∃ r, l = .complete r)
    ∨ ∃ r perf from_aie, l = .write r perf from_aie

theorem ofThread_pl (a : Addr) (m : MgrServer) : OfThread (.pl a) m := Or.inl ⟨a, rfl⟩

theorem ofThread_wait (a : Addr) (done : Bool) (m : MgrServer) : OfThread (.wait a done) m :=
  Or.inr (Or.inl ⟨a, done, rfl⟩)

theorem ofThread_complete (r : Nat) (m : MgrServer) : OfThread (.complete r) m :=
  Or.inr (Or.inr (Or.inl ⟨r, rfl⟩))

/-! ### The runs on the device -/

theorem exists_completed (hsession : m.session ≠ .ended) (rs : List Nat) :
    ∃ f, lts.RunIf OfThread m { m with fastObj := f } ∧ f.pl_k_r_hdl = m.fastObj.pl_k_r_hdl
      ∧ ∀ r ∈ rs, f.runs r ≠ .live := by
  induction rs with
  | nil => exact ⟨m.fastObj, .refl, rfl, by simp⟩
  | cons r rs ih =>
      obtain ⟨f, hrun, hhdl, hdone⟩ := ih
      by_cases hlive : f.runs r = .live
      · have hstep : lts.step (.complete r) { m with fastObj := f }
            = some { m with fastObj := f.complete r } := by
          simp [lts, hsession, hlive]
        refine ⟨f.complete r, .tail _ hrun (ofThread_complete r _) hstep, hhdl, fun r' hr' => ?_⟩
        change Function.update f.runs r .completed r' ≠ .live
        by_cases heq : r' = r
        · rw [heq, Function.update_self]
          exact RunState.noConfusion
        · rw [Function.update_of_ne heq]
          exact hdone r' ((List.mem_cons.mp hr').resolve_left heq)
      · refine ⟨f, hrun, hhdl, fun r' hr' => ?_⟩
        rcases List.mem_cons.mp hr' with rfl | hmem
        · exact hlive
        · exact hdone r' hmem

theorem exists_allDone (hsession : m.session ≠ .ended) :
    ∃ f, lts.RunIf OfThread m { m with fastObj := f } ∧ f.AllDone := by
  obtain ⟨f, hrun, hhdl, hdone⟩ := exists_completed hsession m.fastObj.pl_k_r_hdl
  refine ⟨f, hrun, fun r hr => hdone r ?_⟩
  rwa [← hhdl]

/-! ### The thread -/

/-- The thread of `a` is the first one of a session that goes on. -/
structure Driven (m₀ : MgrServer) (a : Addr) (m : MgrServer) : Prop where
  inv : m.Inv
  session : m.session ≠ .ended
  head : m.pl_threads.head? = some a
  frame : Frame m₀ m

theorem Frame.refl (m : MgrServer) : Frame m m :=
  ⟨rfl, rfl, rfl, rfl, rfl, fun _ => rfl, fun _ => id⟩

theorem Frame.trans {m'' : MgrServer} (h : Frame m m') (h' : Frame m' m'') : Frame m m'' where
  transactions_eq := h'.transactions_eq.trans h.transactions_eq
  pl_threads_eq := h'.pl_threads_eq.trans h.pl_threads_eq
  id2trans_eq := h'.id2trans_eq.trans h.id2trans_eq
  memorySize_eq := h'.memorySize_eq.trans h.memorySize_eq
  session_eq := h'.session_eq.trans h.session_eq
  key_eq a := (h'.key_eq a).trans (h.key_eq a)
  returned a hpc := h'.returned a (h.returned a hpc)

variable {m₀ : MgrServer}

theorem Driven.mem (h : Driven m₀ a m) : a ∈ m.pl_threads := List.mem_of_mem_head? h.head

theorem Driven.heap (h : Driven m₀ a m) : ∃ t, m.heap a = some t := by
  obtain ⟨t, ht, -⟩ := h.inv.book.live a (h.inv.book.mem_transactions h.mem)
  exact ⟨t, ht⟩

theorem Driven.step (h : Driven m₀ a m) {l : ServerLabel} (hl : OfThread l m)
    (hstep : lts.step l m = some m') : Driven m₀ a m' := by
  have hframe := (threadMoves_of_step h.inv hl hstep).frame
  have hsession : m'.session ≠ .ended := by
    rw [hframe.session_eq]
    exact h.session
  refine ⟨(h.inv.step hstep).resolve_right fun hfail => hsession (by rw [hfail]; rfl), hsession, ?_,
    h.frame.trans hframe⟩
  rw [hframe.pl_threads_eq]
  exact h.head

theorem Driven.run (h : Driven m₀ a m) (hrun : lts.RunIf OfThread m m') : Driven m₀ a m' := by
  induction hrun with
  | refl => exact h
  | tail l _ hl hstep ih => exact ih.step hl hstep

theorem Driven.pl (h : Driven m₀ a m) (ht : m.heap a = some t) (hstep : m.plStep a t = some m') :
    lts.RunIf OfThread m m' := by
  refine .single (ofThread_pl a m) ?_
  simp only [lts, if_neg h.session, if_pos h.mem, ht, Option.bind_some, hstep]

theorem Driven.wait (h : Driven m₀ a m) (ht : m.heap a = some t) {done : Bool}
    (hstep : m.waitStep a t done = some m') : lts.RunIf OfThread m m' := by
  refine .single (ofThread_wait a done m) ?_
  simp only [lts, if_neg h.session, if_pos h.mem, ht, Option.bind_some, hstep]

/-- Each statement of the thread brings it closer to its end. -/
theorem Driven.closer (h : Driven m₀ a m) (hpc : m.pc a ≠ .returned) :
    ∃ m', lts.RunIf OfThread m m' ∧ Driven m₀ a m' ∧ PlPc.left (m'.pc a) < PlPc.left (m.pc a) := by
  obtain ⟨t, ht⟩ := h.heap
  have hok := h.inv.threads.head a t h.head ht
  have hpl : ∀ m', m.plStep a t = some m' → PlPc.left (m'.pc a) < PlPc.left (m.pc a) →
      ∃ m', lts.RunIf OfThread m m' ∧ Driven m₀ a m'
        ∧ PlPc.left (m'.pc a) < PlPc.left (m.pc a) := by
    intro m' hstep hlt
    have hrun := h.pl ht hstep
    exact ⟨m', hrun, h.run hrun, hlt⟩
  have hwait : ∀ f m', lts.RunIf OfThread m { m with fastObj := f } →
      ({ m with fastObj := f } : MgrServer).waitStep a t true = some m' →
      PlPc.left (m'.pc a) < PlPc.left (m.pc a) →
      ∃ m', lts.RunIf OfThread m m' ∧ Driven m₀ a m'
        ∧ PlPc.left (m'.pc a) < PlPc.left (m.pc a) := by
    intro f m' hdone hstep hlt
    have hrun := (h.run hdone).wait ht hstep
    exact ⟨m', hdone.trans hrun, (h.run hdone).run hrun, hlt⟩
  have hleft : ∀ (m' : MgrServer) (pc : PlPc), m'.pc = Function.update m.pc a pc →
      pc.left < PlPc.left (m.pc a) → PlPc.left (m'.pc a) < PlPc.left (m.pc a) := by
    intro m' pc hpc' hlt
    rwa [hpc', Function.update_self]
  cases hstand : m.pc a with
  | waiting =>
      rw [← hstand]
      refine hpl (m.goto a .passed) ?_ (hleft _ .passed rfl (by rw [hstand]; decide))
      simp only [plStep, hstand, if_pos (h.inv.book.transactions_head h.head)]
  | passed =>
      rw [hstand] at hok
      rw [← hstand]
      refine hpl { m.goto a .locked with pl_mtx := some a } ?_
        (hleft _ .locked rfl (by rw [hstand]; decide))
      simp only [plStep, hstand, if_pos hok.2]
  | locked =>
      rw [← hstand]
      refine hpl (m.start a t) ?_ (hleft _ (.started _) rfl (by rw [hstand]; simp [PlPc.left]))
      simp only [plStep, hstand]
  | started r =>
      rw [← hstand]
      refine hpl ((m.setTrans a { t with status := .TRANSACTION_RUNNING }).goto a (.loop r)) ?_
        (hleft _ (.loop r) rfl (by rw [hstand]; simp [PlPc.left]))
      simp only [plStep, hstand]
  | loop r =>
      rw [← hstand]
      refine hpl (m.goto a (if t.mTimeOut = 0 then .polling r else .bounded r)) ?_
        (hleft _ _ rfl ?_)
      · simp only [plStep, hstand]
      · rw [hstand]
        split <;> simp [PlPc.left]
  | polling r =>
      obtain ⟨f, hrun, hdone⟩ := exists_allDone h.session
      rw [← hstand]
      refine hwait f (({ m with fastObj := f } : MgrServer).goto a (.polled r)) hrun ?_
        (hleft _ (.polled r) rfl (by rw [hstand]; simp [PlPc.left]))
      simp [waitStep, hdone, hstand]
  | bounded r =>
      obtain ⟨f, hrun, hdone⟩ := exists_allDone h.session
      rw [← hstand]
      refine hwait f ((({ m with fastObj := f } : MgrServer).decide a t .TRANSACTION_DONE).goto a
        (.decided r)) hrun ?_ (hleft _ (.decided r) rfl (by rw [hstand]; simp [PlPc.left]))
      simp [waitStep, hdone, hstand]
  | polled r =>
      rw [← hstand]
      refine hpl ((m.fetch t r).goto a (.fetched r)) ?_
        (hleft _ (.fetched r) rfl (by rw [hstand]; simp [PlPc.left]))
      simp only [plStep, hstand]
  | fetched r =>
      rw [← hstand]
      refine hpl ((m.decide a t .TRANSACTION_DONE).finish a) ?_
        (hleft _ .returned rfl (by rw [hstand]; simp [PlPc.left]))
      simp only [plStep, hstand]
  | decided r =>
      rw [← hstand]
      refine hpl ((m.fetch t r).finish a) ?_
        (hleft _ .returned rfl (by rw [hstand]; simp [PlPc.left]))
      simp only [plStep, hstand]
  | returned => exact absurd hstand hpc

/-- The first thread can always finish, and its transaction has a final status then. -/
theorem Inv.exists_returned (h : m.Inv) (hsession : m.session ≠ .ended)
    (hhead : m.pl_threads.head? = some a) :
    ∃ m', lts.RunIf OfThread m m' ∧ Driven m a m' ∧ m'.pc a = .returned :=
  Lts.RunIf.exists_of_measure (fun m => PlPc.left (m.pc a)) (fun _ hI hpc => hI.closer hpc)
    ⟨h, hsession, hhead, .refl m⟩

theorem Driven.decided (h : Driven m₀ a m) (hpc : m.pc a = .returned) :
    ∃ t, m.heap a = some t ∧ (t.status = .TRANSACTION_DONE ∨ t.status = .TRANSACTION_TIMEOUT) := by
  obtain ⟨t, ht⟩ := h.heap
  have hok := h.inv.threads.head a t h.head ht
  rw [hpc] at hok
  exact ⟨t, ht, hok.2.2.2.1⟩

end MgrServer

end AieTestHarness
