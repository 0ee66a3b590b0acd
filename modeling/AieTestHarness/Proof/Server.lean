import AieTestHarness.Server.Manager
import Mathlib.Data.List.Nodup

/-!
# The server manager: its invariant

The queue holds the transactions that have a thread, in the order in which they were accepted, and
at most one more that is still being received. Only the thread of the first one is past its wait, so
the buffers of the device manager belong to that thread from the start of its run to its `fetchRes`
and to nobody otherwise.
-/

namespace AieTestHarness

/-! ### What a step of another thread cannot change -/

def PlBuffers.sizes (b : PlBuffers) : Nat × Nat × Nat × Nat :=
  (b.cfg.length, b.perf.length, b.to_aie.length, b.from_aie.length)

/-- What no thread changes about a transaction once it is in the queue. -/
def Transaction.key (t : Transaction) : Nat × Nat × Nat × Nat × Nat :=
  (t.trans_id, t.buffers.sizes)

theorem Transaction.trans_id_of_key {t t' : Transaction} (h : t.key = t'.key) :
    t.trans_id = t'.trans_id := congrArg Prod.fst h

theorem Transaction.perf_length_of_key {t t' : Transaction} (h : t.key = t'.key) :
    t.perf_ptr.length = t'.perf_ptr.length := congrArg (fun key => key.2.2.1) h

theorem Transaction.usage_of_key {t t' : Transaction} (h : t.key = t'.key) :
    t.getMemoryUsage = t'.getMemoryUsage := by
  simp only [Transaction.key, PlBuffers.sizes, Transaction.buffers, Prod.mk.injEq] at h
  obtain ⟨-, hcfg, hperf, hto, hfrom⟩ := h
  simp only [Transaction.getMemoryUsage, hcfg, hperf, hto, hfrom]

theorem PlBuffers.nonempty_of_sizes {b b' : PlBuffers} (h : b.sizes = b'.sizes) :
    b.nonempty = b'.nonempty := by
  simp only [PlBuffers.sizes, Prod.mk.injEq] at h
  obtain ⟨hcfg, hperf, hto, hfrom⟩ := h
  simp only [PlBuffers.nonempty, ← List.length_eq_zero_iff, hcfg, hperf, hto, hfrom]

def Transaction.withBuffers (t : Transaction) (b : PlBuffers) : Transaction :=
  { t with
    cfg_ptr := b.cfg
    perf_ptr := b.perf
    to_aie_ptr := b.to_aie
    from_aie_ptr := b.from_aie }

theorem Transaction.foldl_ite_readBack {t : Transaction} {b : PlBuffers} {c : Prop} [Decidable c]
    {p : PlArg} (h : c → t.readBack b p = t) :
    (if c then [] else [p]).foldl (fun t => t.readBack b) t = t.readBack b p := by
  split <;> rename_i hc
  · exact (h hc).symm
  · rfl

/-- A buffer that was not allocated is empty on both sides. -/
theorem Transaction.foldl_readBack {t : Transaction} {b : PlBuffers}
    (h : b.sizes = t.buffers.sizes) :
    b.nonempty.foldl (fun t => t.readBack b) t = t.withBuffers b := by
  simp only [PlBuffers.sizes, Transaction.buffers, Prod.mk.injEq] at h
  obtain ⟨hcfg, hperf, hto, hfrom⟩ := h
  have hnil : ∀ {α : Type} {l l' : List α}, l.length = l'.length → l = [] → l = l' := by
    intro α l l' hlen hl
    rw [hl, List.length_nil] at hlen
    rw [hl, List.length_eq_zero_iff.mp hlen.symm]
  simp only [PlBuffers.nonempty, List.foldl_append]
  rw [foldl_ite_readBack (p := .cfg) fun hb => by simp only [readBack, hnil hcfg hb],
    foldl_ite_readBack (p := .perf) fun hb => by simp only [readBack, hnil hperf hb],
    foldl_ite_readBack (p := .toAie) fun hb => by simp only [readBack, hnil hto hb],
    foldl_ite_readBack (p := .fromAie) fun hb => by simp only [readBack, hnil hfrom hb]]
  rfl

@[simp]
theorem Transaction.withBuffers_trans_id (t : Transaction) (b : PlBuffers) :
    (t.withBuffers b).trans_id = t.trans_id := rfl

theorem Transaction.withBuffers_key {t : Transaction} {b : PlBuffers}
    (h : b.sizes = t.buffers.sizes) : (t.withBuffers b).key = t.key := by
  rw [Transaction.key, Transaction.key, ← h]
  rfl

namespace FastXM

/-- The buffers the tables hold are those of run `r`, whose data is that of the transaction at
`a`. -/
structure Holds (f : FastXM) (a : Addr) (t : Transaction) (r : Nat) : Prop where
  bo_hdl_eq : f.bo_hdl = t.buffers.nonempty.map (r, ·)
  bo_src_ptr_eq : f.bo_src_ptr = t.buffers.nonempty.map (a, ·)
  sizes_eq : (f.mem r).sizes = t.buffers.sizes

def Empty (f : FastXM) : Prop := f.bo_hdl = [] ∧ f.bo_src_ptr = []

theorem foldl_update {heap : Addr → Option Transaction} {a : Addr} {t : Transaction} (b : PlBuffers)
    (args : List PlArg) (ha : heap a = some t) :
    args.foldl (fun heap p => Function.update heap a ((heap a).map fun t => t.readBack b p)) heap
      = Function.update heap a (some (args.foldl (fun t => t.readBack b) t)) := by
  induction args generalizing heap t with
  | nil => rw [List.foldl_nil, List.foldl_nil, ← ha, Function.update_eq_self]
  | cons p args ih =>
      rw [List.foldl_cons, List.foldl_cons, ha, Option.map_some, ih (Function.update_self ..),
        Function.update_idem]

/-- `fetchRes` copies all buffers of the run back, and nothing else. -/
theorem Holds.readAll {f : FastXM} {a : Addr} {t : Transaction} {r : Nat} (h : f.Holds a t r)
    {heap : Addr → Option Transaction} (ha : heap a = some t) :
    f.readAll heap = Function.update heap a (some (t.withBuffers (f.mem r))) := by
  rw [FastXM.readAll, h.bo_hdl_eq, h.bo_src_ptr_eq, List.zip_map', List.foldl_map,
    ← Transaction.foldl_readBack h.sizes_eq, PlBuffers.nonempty_of_sizes h.sizes_eq]
  exact foldl_update (f.mem r) t.buffers.nonempty ha

theorem runPL_holds {f : FastXM} (h : f.Empty) (a : Addr) (t : Transaction) :
    (f.runPL a t).Holds a t f.started where
  bo_hdl_eq := by rw [runPL, h.1, List.nil_append]
  bo_src_ptr_eq := by rw [runPL, h.2, List.nil_append]
  sizes_eq := congrArg PlBuffers.sizes (Function.update_self ..)

end FastXM

/-! ### The record -/

namespace Event

def acceptedId : Event → Option Nat
  | .accepted trans_id => some trans_id
  | _ => none

def startedId : Event → Option Nat
  | .started trans_id _ => some trans_id
  | _ => none

def startedRun : Event → Option Nat
  | .started _ r => some r
  | _ => none

def answeredId : Event → Option Nat
  | .answered trans_id _ _ _ => some trans_id
  | _ => none

/-- The event is one between the start of a run and the answer. -/
def Inner (e : Event) : Prop :=
  e.acceptedId = none ∧ e.startedId = none ∧ e.startedRun = none ∧ e.answeredId = none

end Event

def acceptedIds (log : List Event) : List Nat := log.filterMap Event.acceptedId

def startedIds (log : List Event) : List Nat := log.filterMap Event.startedId

def startedRuns (log : List Event) : List Nat := log.filterMap Event.startedRun

def answeredIds (log : List Event) : List Nat := log.filterMap Event.answeredId

/-- What was sent for a transaction is what its own thread decided and fetched from its own run. -/
def AnswerOk (log : List Event) (trans_id : Nat) (status : TransactionStatus)
    (perf_ptr : List Nat) (from_aie_ptr : List UInt8) : Prop :=
  (status = .TRANSACTION_DONE ∨ status = .TRANSACTION_TIMEOUT)
    ∧ .decided trans_id status ∈ log
    ∧ ∃ r, .started trans_id r ∈ log ∧ .fetched trans_id r perf_ptr from_aie_ptr ∈ log

theorem AnswerOk.append {log : List Event} {trans_id : Nat} {status : TransactionStatus}
    {perf_ptr : List Nat} {from_aie_ptr : List UInt8}
    (h : AnswerOk log trans_id status perf_ptr from_aie_ptr) (es : List Event) :
    AnswerOk (log ++ es) trans_id status perf_ptr from_aie_ptr := by
  obtain ⟨hstatus, hdecided, r, hstarted, hfetched⟩ := h
  exact ⟨hstatus, List.mem_append_left _ hdecided, r, List.mem_append_left _ hstarted,
    List.mem_append_left _ hfetched⟩

theorem filterMap_append_none {f : Event → Option Nat} {es : List Event} (log : List Event)
    (h : ∀ e ∈ es, f e = none) : (log ++ es).filterMap f = log.filterMap f := by
  rw [List.filterMap_append, List.filterMap_eq_nil_iff.mpr h, List.append_nil]

/-! ### The invariant -/

def PlPc.BeforeRun (pc : PlPc) : Prop := pc = .waiting ∨ pc = .passed ∨ pc = .locked

instance : DecidablePred PlPc.BeforeRun := fun _ => inferInstanceAs (Decidable (_ ∨ _ ∨ _))

namespace MgrServer

variable {m m' : MgrServer} {a : Addr} {t : Transaction} {r : Nat}

def pending (m : MgrServer) : List Addr :=
  match m.session with
  | .created a _ => [a]
  | _ => []

def usage (m : MgrServer) (a : Addr) : Nat := ((m.heap a).map Transaction.getMemoryUsage).getD 0

def idOf (m : MgrServer) (a : Addr) : Nat := ((m.heap a).map Transaction.trans_id).getD 0

def SessionOk (m : MgrServer) : SessionPc → Prop
  | .admitted trans_size => u64 (m.memorySize + trans_size.toNat) ≤ memorySizeMax
  | .created a trans_size =>
    u64 (m.memorySize + trans_size.toNat) ≤ memorySizeMax
      ∧ ∀ t, m.heap a = some t → t.perf_ptr.length < 2 ^ 32
  | .joining a => m.pl_threads.head? = some a
  | .answered a => m.pl_threads.head? = some a ∧ m.pc a = .returned
  | _ => True

structure Book (m : MgrServer) : Prop where
  queue_eq : m.transactions = m.pl_threads ++ m.pending
  nodup : m.transactions.Nodup
  live : ∀ a ∈ m.transactions, ∃ t, m.heap a = some t ∧ m.id2trans t.trans_id = some a
  memory_eq : m.memorySize = (m.pl_threads.map m.usage).sum
  memory_le : m.memorySize ≤ memorySizeMax
  session_ok : m.SessionOk m.session

structure Running (m : MgrServer) (a : Addr) (t : Transaction) (r : Nat) : Prop where
  holds : m.fastObj.Holds a t r
  locked : m.pl_mtx = some a
  started : .started t.trans_id r ∈ m.log

def Fetched (m : MgrServer) (t : Transaction) : Prop :=
  ∃ r, .started t.trans_id r ∈ m.log ∧ .fetched t.trans_id r t.perf_ptr t.from_aie_ptr ∈ m.log

def Decided (m : MgrServer) (t : Transaction) : Prop :=
  (t.status = .TRANSACTION_DONE ∨ t.status = .TRANSACTION_TIMEOUT)
    ∧ .decided t.trans_id t.status ∈ m.log

def ThreadOk (m : MgrServer) (a : Addr) (t : Transaction) : PlPc → Prop
  | .waiting => m.fastObj.Empty ∧ m.pl_mtx = none
  | .passed => m.fastObj.Empty ∧ m.pl_mtx = none
  | .locked => m.fastObj.Empty ∧ m.pl_mtx = some a
  | .started r => m.Running a t r
  | .loop r => m.Running a t r
  | .polling r => m.Running a t r
  | .polled r => m.Running a t r
  | .fetched _ => m.fastObj.Empty ∧ m.pl_mtx = some a ∧ m.Fetched t
  | .bounded r => m.Running a t r
  | .decided r => m.Running a t r ∧ m.Decided t
  | .returned => m.fastObj.Empty ∧ m.pl_mtx = none ∧ m.Fetched t ∧ m.Decided t

/-- Only the first thread is past its wait. -/
structure Threads (m : MgrServer) : Prop where
  idle : m.pl_threads = [] → m.fastObj.Empty ∧ m.pl_mtx = none
  head : ∀ a t, m.pl_threads.head? = some a → m.heap a = some t → m.ThreadOk a t (m.pc a)
  rest : ∀ a ∈ m.pl_threads.tail, m.pc a = .waiting

def unanswered (m : MgrServer) : List Addr :=
  match m.session with
  | .answered _ => m.transactions.tail
  | _ => m.transactions

def waitingThreads (m : MgrServer) : List Addr :=
  match m.pl_threads with
  | [] => []
  | a :: rest => if (m.pc a).BeforeRun then a :: rest else rest

def unstarted (m : MgrServer) : List Addr := m.waitingThreads ++ m.pending

structure Record (m : MgrServer) : Prop where
  known : ∀ k ∈ acceptedIds m.log, (m.id2trans k).isSome
  nodup : (acceptedIds m.log).Nodup
  answered_eq : acceptedIds m.log = answeredIds m.log ++ m.unanswered.map m.idOf
  started_eq : acceptedIds m.log = startedIds m.log ++ m.unstarted.map m.idOf
  runs_eq : startedRuns m.log = List.range m.fastObj.started
  answer_ok : ∀ k status perf_ptr from_aie_ptr, .answered k status perf_ptr from_aie_ptr ∈ m.log →
    AnswerOk m.log k status perf_ptr from_aie_ptr

structure Inv (m : MgrServer) : Prop where
  book : m.Book
  threads : m.Threads
  record : m.Record

/-! ### Steps of the other threads and of the device -/

structure Frame (m m' : MgrServer) : Prop where
  transactions_eq : m'.transactions = m.transactions
  pl_threads_eq : m'.pl_threads = m.pl_threads
  id2trans_eq : m'.id2trans = m.id2trans
  memorySize_eq : m'.memorySize = m.memorySize
  session_eq : m'.session = m.session
  key_eq : ∀ a, (m'.heap a).map Transaction.key = (m.heap a).map Transaction.key
  returned : ∀ a, m.pc a = .returned → m'.pc a = .returned

namespace Frame

theorem pending_eq (h : Frame m m') : m'.pending = m.pending := by
  rw [pending, pending, h.session_eq]

theorem unanswered_eq (h : Frame m m') : m'.unanswered = m.unanswered := by
  rw [unanswered, unanswered, h.session_eq, h.transactions_eq]

theorem unstarted_eq (h : Frame m m')
    (hpc : ∀ a, m.pl_threads.head? = some a → ((m'.pc a).BeforeRun ↔ (m.pc a).BeforeRun)) :
    m'.unstarted = m.unstarted := by
  rw [unstarted, unstarted, waitingThreads, waitingThreads, h.pl_threads_eq, h.pending_eq]
  cases hpl : m.pl_threads with
  | nil => rfl
  | cons a rest => simp only [hpc a (by rw [hpl]; rfl)]

theorem heap_eq (h : Frame m m') (ht : m.heap a = some t) :
    ∃ t', m'.heap a = some t' ∧ t'.key = t.key := by
  have hkey := h.key_eq a
  rw [ht, Option.map_some, Option.map_eq_some_iff] at hkey
  exact hkey

theorem heap_eq' (h : Frame m m') (ht : m'.heap a = some t) :
    ∃ t', m.heap a = some t' ∧ t'.key = t.key := by
  have hkey := (h.key_eq a).symm
  rw [ht, Option.map_some, Option.map_eq_some_iff] at hkey
  exact hkey

theorem usage_eq (h : Frame m m') : m'.usage = m.usage := by
  funext a
  unfold usage
  cases ht : m.heap a with
  | none =>
      have hkey := h.key_eq a
      rw [ht, Option.map_none, Option.map_eq_none_iff] at hkey
      rw [hkey]
  | some t =>
      obtain ⟨t', ht', hkey⟩ := h.heap_eq ht
      rw [ht', Option.map_some, Option.map_some, Transaction.usage_of_key hkey]

theorem idOf_eq (h : Frame m m') : m'.idOf = m.idOf := by
  funext a
  unfold idOf
  cases ht : m.heap a with
  | none =>
      have hkey := h.key_eq a
      rw [ht, Option.map_none, Option.map_eq_none_iff] at hkey
      rw [hkey]
  | some t =>
      obtain ⟨t', ht', hkey⟩ := h.heap_eq ht
      rw [ht', Option.map_some, Option.map_some, Transaction.trans_id_of_key hkey]

end Frame

theorem SessionOk.frame (h : Frame m m') {pc : SessionPc} (hok : m.SessionOk pc) :
    m'.SessionOk pc := by
  cases pc with
  | idle => trivial
  | admitted trans_size =>
      simp only [SessionOk] at hok ⊢
      rwa [h.memorySize_eq]
  | created a trans_size =>
      simp only [SessionOk] at hok ⊢
      refine ⟨by rw [h.memorySize_eq]; exact hok.1, fun t ht => ?_⟩
      obtain ⟨t', ht', hkey⟩ := h.heap_eq' ht
      have hlen := hok.2 t' ht'
      rwa [Transaction.perf_length_of_key hkey] at hlen
  | joining a =>
      simp only [SessionOk] at hok ⊢
      rwa [h.pl_threads_eq]
  | answered a =>
      simp only [SessionOk] at hok ⊢
      exact ⟨by rw [h.pl_threads_eq]; exact hok.1, h.returned a hok.2⟩
  | ended => trivial

theorem Book.frame (hbook : m.Book) (h : Frame m m') : m'.Book where
  queue_eq := by rw [h.transactions_eq, h.pl_threads_eq, h.pending_eq, hbook.queue_eq]
  nodup := by rw [h.transactions_eq]; exact hbook.nodup
  live a ha := by
    rw [h.transactions_eq] at ha
    obtain ⟨t, ht, hid⟩ := hbook.live a ha
    obtain ⟨t', ht', hkey⟩ := h.heap_eq ht
    refine ⟨t', ht', ?_⟩
    rw [h.id2trans_eq, Transaction.trans_id_of_key hkey, hid]
  memory_eq := by rw [h.memorySize_eq, h.pl_threads_eq, h.usage_eq, hbook.memory_eq]
  memory_le := by rw [h.memorySize_eq]; exact hbook.memory_le
  session_ok := by rw [h.session_eq]; exact hbook.session_ok.frame h

theorem Record.frame (hrecord : m.Record) (h : Frame m m') {es : List Event}
    (hlog : m'.log = m.log ++ es) (hes : ∀ e ∈ es, e.acceptedId = none ∧ e.answeredId = none)
    (hstarted : startedIds m'.log ++ m'.unstarted.map m.idOf
      = startedIds m.log ++ m.unstarted.map m.idOf)
    (hruns : startedRuns m'.log = List.range m'.fastObj.started) : m'.Record := by
  have hacc : acceptedIds m'.log = acceptedIds m.log := by
    rw [hlog]
    exact filterMap_append_none _ fun e he => (hes e he).1
  have hans : answeredIds m'.log = answeredIds m.log := by
    rw [hlog]
    exact filterMap_append_none _ fun e he => (hes e he).2
  refine ⟨?_, ?_, ?_, ?_, hruns, ?_⟩
  · rw [hacc, h.id2trans_eq]
    exact hrecord.known
  · rw [hacc]
    exact hrecord.nodup
  · rw [hacc, hans, h.unanswered_eq, h.idOf_eq]
    exact hrecord.answered_eq
  · rw [hacc, h.idOf_eq, hstarted]
    exact hrecord.started_eq
  · intro k status perf_ptr from_aie_ptr hmem
    rw [hlog] at hmem ⊢
    rcases List.mem_append.mp hmem with hold | hnew
    · exact (hrecord.answer_ok k status perf_ptr from_aie_ptr hold).append es
    · exact absurd (hes _ hnew).2 (by simp [Event.answeredId])

theorem Record.inner (hrecord : m.Record) (h : Frame m m') {es : List Event}
    (hlog : m'.log = m.log ++ es) (hes : ∀ e ∈ es, e.Inner)
    (hpc : ∀ a, m.pl_threads.head? = some a → ((m'.pc a).BeforeRun ↔ (m.pc a).BeforeRun))
    (hstarted : m'.fastObj.started = m.fastObj.started) : m'.Record := by
  refine hrecord.frame h hlog (fun e he => ⟨(hes e he).1, (hes e he).2.2.2⟩) ?_ ?_
  · rw [h.unstarted_eq hpc, hlog, startedIds,
      filterMap_append_none _ fun e he => (hes e he).2.1]
    rfl
  · rw [hstarted, hlog, startedRuns, filterMap_append_none _ fun e he => (hes e he).2.2.1]
    exact hrecord.runs_eq

theorem mem_threads_of_waiting (ha : a ∈ m.waitingThreads) : a ∈ m.pl_threads := by
  unfold waitingThreads at ha
  cases hpl : m.pl_threads with
  | nil => simp [hpl] at ha
  | cons b rest =>
      rw [hpl] at ha
      dsimp only at ha
      split at ha
      · exact ha
      · exact List.mem_cons_of_mem b ha

theorem Book.threads_nodup (hbook : m.Book) : m.pl_threads.Nodup := by
  have hnodup := hbook.nodup
  rw [hbook.queue_eq] at hnodup
  exact hnodup.of_append_left

theorem Book.mem_transactions (hbook : m.Book) (ha : a ∈ m.pl_threads) : a ∈ m.transactions := by
  rw [hbook.queue_eq]
  exact List.mem_append_left _ ha

theorem Book.transactions_head (hbook : m.Book) {a : Addr} (ha : m.pl_threads.head? = some a) :
    m.transactions.head? = some a := by
  rw [hbook.queue_eq, List.head?_append, ha, Option.some_or]

/-- A thread that is past its wait is the first one. -/
theorem Inv.head_of_pc (h : m.Inv) (ha : a ∈ m.pl_threads) (hpc : m.pc a ≠ .waiting) :
    m.pl_threads.head? = some a := by
  have hrest := h.threads.rest a
  cases hpl : m.pl_threads with
  | nil => exact absurd ha (by rw [hpl]; exact List.not_mem_nil)
  | cons b rest =>
      rw [hpl] at ha hrest
      rcases List.mem_cons.mp ha with rfl | hmem
      · rfl
      · exact absurd (hrest hmem) hpc

theorem Inv.head_of_transactions (h : m.Inv) (ha : a ∈ m.pl_threads)
    (hfront : m.transactions.head? = some a) : m.pl_threads.head? = some a := by
  cases hpl : m.pl_threads with
  | nil => exact absurd ha (by rw [hpl]; exact List.not_mem_nil)
  | cons b rest =>
      have hb := h.book.transactions_head (a := b) (by rw [hpl]; rfl)
      rw [hfront] at hb
      exact hb.symm

def move (m : MgrServer) (a : Addr) (t : Transaction) (pc : PlPc) (f : FastXM) (mtx : Option Addr)
    (es : List Event) : MgrServer :=
  { m with
    heap := Function.update m.heap a (some t)
    pc := Function.update m.pc a pc
    fastObj := f
    pl_mtx := mtx
    log := m.log ++ es }

theorem Frame.move {t' : Transaction} (ht : m.heap a = some t) (hpc : m.pc a ≠ .returned)
    (hkey : t'.key = t.key) (pc : PlPc) (f : FastXM) (mtx : Option Addr) (es : List Event) :
    Frame m (m.move a t' pc f mtx es) where
  transactions_eq := rfl
  pl_threads_eq := rfl
  id2trans_eq := rfl
  memorySize_eq := rfl
  session_eq := rfl
  key_eq b := by
    by_cases hb : b = a
    · subst hb
      simp only [MgrServer.move, Function.update_self, ht, Option.map_some, hkey]
    · simp only [MgrServer.move, Function.update_of_ne hb]
  returned b hb := by
    have hne : b ≠ a := by
      rintro rfl
      exact hpc hb
    simp only [MgrServer.move, Function.update_of_ne hne, hb]

theorem Threads.move {t' : Transaction} (hthreads : m.Threads) (hnodup : m.pl_threads.Nodup)
    (hhead : m.pl_threads.head? = some a) {pc : PlPc} {f : FastXM} {mtx : Option Addr}
    {es : List Event} (hok : (m.move a t' pc f mtx es).ThreadOk a t' pc) :
    (m.move a t' pc f mtx es).Threads where
  idle hnil := by
    rw [show m.pl_threads = [] from hnil] at hhead
    exact absurd hhead (by simp)
  head b u hb hu := by
    obtain rfl : a = b := Option.some.inj (hhead.symm.trans hb)
    have ht' : (m.move a t' pc f mtx es).heap a = some t' := Function.update_self ..
    obtain rfl : t' = u := Option.some.inj (ht'.symm.trans hu)
    rwa [show (m.move a t' pc f mtx es).pc a = pc from Function.update_self ..]
  rest b hb := by
    have hne : b ≠ a := by
      rintro rfl
      obtain ⟨rest, hrest⟩ := List.head?_eq_some_iff.mp hhead
      have hb' : b ∈ m.pl_threads.tail := hb
      rw [hrest] at hb' hnodup
      exact (List.nodup_cons.mp hnodup).1 hb'
    exact (Function.update_of_ne hne ..).trans (hthreads.rest b hb)

theorem Inv.move (h : m.Inv) (t' : Transaction) (hhead : m.pl_threads.head? = some a)
    (ht : m.heap a = some t) (hret : m.pc a ≠ .returned) (hkey : t'.key = t.key) (pc : PlPc)
    (f : FastXM) (mtx : Option Addr) {es : List Event}
    (hpc : pc.BeforeRun ↔ (m.pc a).BeforeRun) (hes : ∀ e ∈ es, e.Inner)
    (hstarted : f.started = m.fastObj.started)
    (hok : (m.move a t' pc f mtx es).ThreadOk a t' pc) : (m.move a t' pc f mtx es).Inv where
  book := h.book.frame (.move ht hret hkey pc f mtx es)
  threads := h.threads.move h.book.threads_nodup hhead hok
  record := by
    refine h.record.inner (.move ht hret hkey pc f mtx es) rfl hes (fun b hb => ?_) hstarted
    obtain rfl : a = b := Option.some.inj (hhead.symm.trans hb)
    rw [show (m.move a t' pc f mtx es).pc a = pc from Function.update_self ..]
    exact hpc

theorem move_of_update (ht : m.heap a = some t) (pc : PlPc) (mtx : Option Addr) :
    ({ m.goto a pc with pl_mtx := mtx } : MgrServer) = m.move a t pc m.fastObj mtx [] := by
  rw [move, ← ht, Function.update_eq_self, List.append_nil]
  rfl

theorem goto_eq (ht : m.heap a = some t) (pc : PlPc) :
    m.goto a pc = m.move a t pc m.fastObj m.pl_mtx [] := move_of_update ht pc m.pl_mtx

theorem fetch_goto_eq (hholds : m.fastObj.Holds a t r) (ht : m.heap a = some t) (pc : PlPc) :
    (m.fetch t r).goto a pc = m.move a (t.withBuffers (m.fastObj.mem r)) pc m.fastObj.clear m.pl_mtx
      [.fetched t.trans_id r (m.fastObj.mem r).perf (m.fastObj.mem r).from_aie] := by
  rw [fetch, hholds.readAll ht]
  rfl

theorem fetch_finish_eq (hholds : m.fastObj.Holds a t r) (ht : m.heap a = some t) :
    (m.fetch t r).finish a
      = m.move a (t.withBuffers (m.fastObj.mem r)) .returned m.fastObj.clear none
          [.fetched t.trans_id r (m.fastObj.mem r).perf (m.fastObj.mem r).from_aie] := by
  rw [finish, fetch_goto_eq hholds ht]
  rfl

theorem setTrans_goto_eq (t : Transaction) (pc : PlPc) :
    (m.setTrans a t).goto a pc = m.move a t pc m.fastObj m.pl_mtx [] := by
  rw [move, List.append_nil]
  rfl

theorem decide_finish_eq (t : Transaction) (status : TransactionStatus) :
    (m.decide a t status).finish a
      = m.move a { t with status } .returned m.fastObj none [.decided t.trans_id status] := rfl

theorem decide_goto_eq (t : Transaction) (status : TransactionStatus) (pc : PlPc) :
    (m.decide a t status).goto a pc
      = m.move a { t with status } pc m.fastObj m.pl_mtx [.decided t.trans_id status] := rfl

theorem clear_empty (f : FastXM) : f.clear.Empty := ⟨rfl, rfl⟩

/-- What `fetchRes` leaves in the transaction comes from its run. -/
theorem Running.fetched (h : m.Running a t r) (pc : PlPc) (f : FastXM) (mtx : Option Addr) :
    (m.move a (t.withBuffers (m.fastObj.mem r)) pc f mtx
      [.fetched t.trans_id r (m.fastObj.mem r).perf (m.fastObj.mem r).from_aie]).Fetched
        (t.withBuffers (m.fastObj.mem r)) :=
  ⟨r, List.mem_append_left _ h.started, List.mem_append_right _ (List.mem_singleton_self _)⟩

theorem Decided.append (h : m.Decided t) {t' : Transaction} (hid : t'.trans_id = t.trans_id)
    (hstatus : t'.status = t.status) {es : List Event} (hlog : m'.log = m.log ++ es) :
    m'.Decided t' := by
  rw [Decided, hid, hstatus, hlog]
  exact ⟨h.1, List.mem_append_left _ h.2⟩

theorem inner_fetched (trans_id r : Nat) (perf_ptr : List Nat) (from_aie_ptr : List UInt8) :
    ∀ e ∈ [Event.fetched trans_id r perf_ptr from_aie_ptr], e.Inner := by
  intro e he
  rw [List.mem_singleton.mp he]
  exact ⟨rfl, rfl, rfl, rfl⟩

theorem inner_decided (trans_id : Nat) (status : TransactionStatus) :
    ∀ e ∈ [Event.decided trans_id status], e.Inner := by
  intro e he
  rw [List.mem_singleton.mp he]
  exact ⟨rfl, rfl, rfl, rfl⟩

theorem Inv.start (h : m.Inv) (hhead : m.pl_threads.head? = some a) (ht : m.heap a = some t)
    (hpc : m.pc a = .locked) : (m.start a t).Inv := by
  have hok := h.threads.head a t hhead ht
  rw [hpc] at hok
  have hret : m.pc a ≠ .returned := by simp [hpc]
  have hmove : m.start a t = m.move a t (.started m.fastObj.started) (m.fastObj.runPL a t) m.pl_mtx
      [.started t.trans_id m.fastObj.started] := by
    rw [MgrServer.move, ← ht, Function.update_eq_self]
    rfl
  obtain ⟨rest, hpl⟩ := List.head?_eq_some_iff.mp hhead
  rw [hmove]
  have hframe := Frame.move ht hret rfl (.started m.fastObj.started) (m.fastObj.runPL a t) m.pl_mtx
    [.started t.trans_id m.fastObj.started]
  refine ⟨h.book.frame hframe, h.threads.move h.book.threads_nodup hhead
    ⟨FastXM.runPL_holds hok.1 a t, hok.2, List.mem_append_right _ (List.mem_singleton_self _)⟩,
    h.record.frame hframe rfl (by simp [Event.acceptedId, Event.answeredId]) ?_ ?_⟩
  · have hbefore : m.waitingThreads = a :: rest := by
      rw [waitingThreads, hpl]
      exact if_pos (by simp [PlPc.BeforeRun, hpc])
    have hafter : (m.move a t (.started m.fastObj.started) (m.fastObj.runPL a t) m.pl_mtx
        [.started t.trans_id m.fastObj.started]).waitingThreads = rest := by
      rw [waitingThreads, hframe.pl_threads_eq, hpl]
      exact if_neg (by simp [PlPc.BeforeRun, MgrServer.move])
    have hid : m.idOf a = t.trans_id := by rw [idOf, ht, Option.map_some, Option.getD_some]
    rw [unstarted, unstarted, hframe.pending_eq, hbefore, hafter, List.cons_append, List.map_cons,
      hid]
    simp [startedIds, MgrServer.move, Event.startedId]
  · have hruns := h.record.runs_eq
    rw [startedRuns] at hruns
    simp only [startedRuns, MgrServer.move, FastXM.runPL, List.filterMap_append, hruns,
      List.range_succ]
    rfl

theorem Inv.plStep (h : m.Inv) (ha : a ∈ m.pl_threads) (ht : m.heap a = some t)
    (hstep : m.plStep a t = some m') : m'.Inv := by
  cases hpc : m.pc a with
  | waiting =>
      simp only [MgrServer.plStep, hpc, Option.ite_none_right_eq_some, Option.some.injEq] at hstep
      obtain ⟨hfront, rfl⟩ := hstep
      have hhead := h.head_of_transactions ha hfront
      have hok := h.threads.head a t hhead ht
      rw [hpc] at hok
      rw [goto_eq ht]
      exact h.move _ hhead ht (by simp [hpc]) rfl .passed m.fastObj m.pl_mtx
        (by simp [PlPc.BeforeRun, hpc]) (by simp) rfl hok
  | passed =>
      simp only [MgrServer.plStep, hpc, Option.ite_none_right_eq_some, Option.some.injEq] at hstep
      obtain ⟨-, rfl⟩ := hstep
      have hhead := h.head_of_pc ha (by simp [hpc])
      have hok := h.threads.head a t hhead ht
      rw [hpc] at hok
      rw [move_of_update ht]
      exact h.move _ hhead ht (by simp [hpc]) rfl .locked m.fastObj (some a)
        (by simp [PlPc.BeforeRun, hpc]) (by simp) rfl ⟨hok.1, rfl⟩
  | locked =>
      simp only [MgrServer.plStep, hpc, Option.some.injEq] at hstep
      rw [← hstep]
      exact h.start (h.head_of_pc ha (by simp [hpc])) ht hpc
  | started r =>
      simp only [MgrServer.plStep, hpc, Option.some.injEq] at hstep
      have hhead := h.head_of_pc ha (by simp [hpc])
      have hok := h.threads.head a t hhead ht
      rw [hpc] at hok
      rw [← hstep, setTrans_goto_eq]
      exact h.move { t with status := .TRANSACTION_RUNNING } hhead ht (by simp [hpc]) rfl
        (.loop r) m.fastObj m.pl_mtx (by simp [PlPc.BeforeRun, hpc]) (by simp) rfl
        ⟨⟨hok.holds.1, hok.holds.2, hok.holds.3⟩, hok.locked, List.mem_append_left _ hok.started⟩
  | loop r =>
      simp only [MgrServer.plStep, hpc, Option.some.injEq] at hstep
      have hhead := h.head_of_pc ha (by simp [hpc])
      have hok := h.threads.head a t hhead ht
      rw [hpc] at hok
      rw [← hstep, goto_eq ht]
      refine h.move _ hhead ht (by simp [hpc]) rfl _ m.fastObj m.pl_mtx ?_ (by simp) rfl ?_
      · split <;> simp [PlPc.BeforeRun, hpc]
      · have hrun : (m.move a t (if t.mTimeOut = 0 then .polling r else .bounded r) m.fastObj
            m.pl_mtx []).Running a t r :=
          ⟨hok.holds, hok.locked, List.mem_append_left _ hok.started⟩
        split <;> rename_i hc
        · rwa [if_pos hc] at hrun
        · rwa [if_neg hc] at hrun
  | polling r => simp [MgrServer.plStep, hpc] at hstep
  | polled r =>
      simp only [MgrServer.plStep, hpc, Option.some.injEq] at hstep
      have hhead := h.head_of_pc ha (by simp [hpc])
      have hok := h.threads.head a t hhead ht
      rw [hpc] at hok
      rw [← hstep, fetch_goto_eq hok.holds ht]
      exact h.move _ hhead ht (by simp [hpc]) (Transaction.withBuffers_key hok.holds.sizes_eq)
        (.fetched r) m.fastObj.clear m.pl_mtx (by simp [PlPc.BeforeRun, hpc])
        (inner_fetched _ _ _ _) rfl ⟨clear_empty m.fastObj, hok.locked, hok.fetched ..⟩
  | fetched r =>
      simp only [MgrServer.plStep, hpc, Option.some.injEq] at hstep
      have hhead := h.head_of_pc ha (by simp [hpc])
      have hok := h.threads.head a t hhead ht
      rw [hpc] at hok
      obtain ⟨hempty, -, r', hstarted, hfetched⟩ := hok
      rw [← hstep]
      rw [decide_finish_eq]
      exact h.move { t with status := .TRANSACTION_DONE } hhead ht
        (by simp [hpc]) rfl .returned m.fastObj none
        (by simp [PlPc.BeforeRun, hpc]) (inner_decided _ _) rfl
        ⟨hempty, rfl, ⟨r', List.mem_append_left _ hstarted, List.mem_append_left _ hfetched⟩,
          Or.inl rfl, List.mem_append_right _ (List.mem_singleton_self _)⟩
  | bounded r => simp [MgrServer.plStep, hpc] at hstep
  | decided r =>
      simp only [MgrServer.plStep, hpc, Option.some.injEq] at hstep
      have hhead := h.head_of_pc ha (by simp [hpc])
      have hok := h.threads.head a t hhead ht
      rw [hpc] at hok
      obtain ⟨hrun, hdecided⟩ := hok
      rw [← hstep, fetch_finish_eq hrun.holds ht]
      exact h.move _ hhead ht (by simp [hpc]) (Transaction.withBuffers_key hrun.holds.sizes_eq)
        .returned m.fastObj.clear none (by simp [PlPc.BeforeRun, hpc]) (inner_fetched _ _ _ _) rfl
        ⟨clear_empty m.fastObj, rfl, hrun.fetched .., hdecided.append rfl rfl rfl⟩
  | returned => simp [MgrServer.plStep, hpc] at hstep

theorem Inv.waitStep (h : m.Inv) (ha : a ∈ m.pl_threads) (ht : m.heap a = some t) {done : Bool}
    (hstep : m.waitStep a t done = some m') : m'.Inv := by
  rw [MgrServer.waitStep, Option.ite_none_right_eq_some] at hstep
  replace hstep := hstep.2
  have hhead : m.pc a ≠ .waiting → m.pl_threads.head? = some a := h.head_of_pc ha
  split at hstep
  · rename_i r hpc
    replace hhead := hhead (by simp [hpc])
    have hok := h.threads.head a t hhead ht
    rw [hpc] at hok
    rw [← Option.some.inj hstep, goto_eq ht]
    refine h.move _ hhead ht (by simp [hpc]) rfl _ m.fastObj m.pl_mtx ?_ (by simp) rfl ?_
    · cases done <;> simp [PlPc.BeforeRun, hpc]
    · cases done <;> exact ⟨hok.holds, hok.locked, List.mem_append_left _ hok.started⟩
  · rename_i r hpc
    replace hhead := hhead (by simp [hpc])
    have hok := h.threads.head a t hhead ht
    rw [hpc] at hok
    rw [← Option.some.inj hstep, decide_goto_eq]
    refine h.move
      { t with status := if done then .TRANSACTION_DONE else .TRANSACTION_TIMEOUT } hhead ht
      (by simp [hpc]) rfl (.decided r) m.fastObj m.pl_mtx
      (by simp [PlPc.BeforeRun, hpc]) (inner_decided _ _) rfl
      ⟨⟨⟨hok.holds.1, hok.holds.2, hok.holds.3⟩, hok.locked, List.mem_append_left _ hok.started⟩,
        ?_, List.mem_append_right _ (List.mem_singleton_self _)⟩
    cases done
    · exact Or.inr rfl
    · exact Or.inl rfl
  · exact absurd hstep (by simp)

/-! ### The device -/

theorem ThreadOk.device {f : FastXM} {pc : PlPc} (hok : m.ThreadOk a t pc)
    (hbo : f.bo_hdl = m.fastObj.bo_hdl) (hsrc : f.bo_src_ptr = m.fastObj.bo_src_ptr)
    (hmem : ∀ r, (f.mem r).sizes = (m.fastObj.mem r).sizes) :
    ({ m with fastObj := f } : MgrServer).ThreadOk a t pc := by
  have hempty : m.fastObj.Empty → f.Empty := fun h => ⟨hbo.trans h.1, hsrc.trans h.2⟩
  have hrunning : ∀ {r}, m.Running a t r → ({ m with fastObj := f } : MgrServer).Running a t r :=
    fun {r} h => ⟨⟨hbo.trans h.holds.1, hsrc.trans h.holds.2, (hmem r).trans h.holds.3⟩, h.locked,
      h.started⟩
  cases pc with
  | waiting => exact ⟨hempty hok.1, hok.2⟩
  | passed => exact ⟨hempty hok.1, hok.2⟩
  | locked => exact ⟨hempty hok.1, hok.2⟩
  | started r => exact hrunning hok
  | loop r => exact hrunning hok
  | polling r => exact hrunning hok
  | polled r => exact hrunning hok
  | fetched r => exact ⟨hempty hok.1, hok.2⟩
  | bounded r => exact hrunning hok
  | decided r => exact ⟨hrunning hok.1, hok.2⟩
  | returned => exact ⟨hempty hok.1, hok.2⟩

theorem Inv.device (h : m.Inv) {f : FastXM} (hbo : f.bo_hdl = m.fastObj.bo_hdl)
    (hsrc : f.bo_src_ptr = m.fastObj.bo_src_ptr)
    (hmem : ∀ r, (f.mem r).sizes = (m.fastObj.mem r).sizes)
    (hstarted : f.started = m.fastObj.started) : ({ m with fastObj := f } : MgrServer).Inv := by
  have hframe : Frame m { m with fastObj := f } :=
    ⟨rfl, rfl, rfl, rfl, rfl, fun _ => rfl, fun _ => id⟩
  refine ⟨h.book.frame hframe, ⟨fun hnil => ?_, fun a t ha ht => ?_, h.threads.rest⟩,
    h.record.inner hframe (List.append_nil _).symm (by simp) (fun _ _ => Iff.rfl) hstarted⟩
  · obtain ⟨hempty, hmtx⟩ := h.threads.idle hnil
    exact ⟨⟨hbo.trans hempty.1, hsrc.trans hempty.2⟩, hmtx⟩
  · exact (h.threads.head a t ha ht).device hbo hsrc hmem

theorem sizes_write {f : FastXM} {r : Nat} {perf : List Nat} {from_aie : List UInt8}
    (hperf : perf.length = (f.mem r).perf.length)
    (hfrom : from_aie.length = (f.mem r).from_aie.length) (r' : Nat) :
    ((f.write r perf from_aie).mem r').sizes = (f.mem r').sizes := by
  by_cases hr : r' = r
  · subst hr
    simp only [FastXM.write, Function.update_self, PlBuffers.sizes, hperf, hfrom]
  · simp only [FastXM.write, Function.update_of_ne hr]

end MgrServer

end AieTestHarness
