import AieTestHarness.Proof.Server

/-!
# The session thread keeps the invariant

One lemma for each statement of the session thread. A request that fails ends the session, so what
holds of the server then is what held before.
-/

namespace AieTestHarness

namespace MgrServer

variable {m m' : MgrServer} {a : Addr} {t : Transaction}

/-- What is said about the first thread stays true while the device, the lock and what the thread
works with stay the same. -/
theorem ThreadOk.mono {t' : Transaction} {pc : PlPc} (hok : m.ThreadOk a t pc)
    (hf : m'.fastObj = m.fastObj) (hmtx : m'.pl_mtx = m.pl_mtx) {es : List Event}
    (hlog : m'.log = m.log ++ es) (hbuf : t'.buffers = t.buffers) (hid : t'.trans_id = t.trans_id)
    (hstatus : t'.status = t.status) : m'.ThreadOk a t' pc := by
  have hmem : ∀ {e}, e ∈ m.log → e ∈ m'.log := fun h => by
    rw [hlog]
    exact List.mem_append_left _ h
  have hperf : t'.perf_ptr = t.perf_ptr := congrArg PlBuffers.perf hbuf
  have hfrom : t'.from_aie_ptr = t.from_aie_ptr := congrArg PlBuffers.from_aie hbuf
  have hempty : m.fastObj.Empty → m'.fastObj.Empty := fun h => by rwa [hf]
  have hrunning : ∀ {r}, m.Running a t r → m'.Running a t' r := fun h =>
    ⟨by rw [hf]; exact ⟨by rw [hbuf]; exact h.holds.1, by rw [hbuf]; exact h.holds.2,
      by rw [hbuf]; exact h.holds.3⟩, hmtx.trans h.locked, by rw [hid]; exact hmem h.started⟩
  have hfetched : m.Fetched t → m'.Fetched t' := fun ⟨r, hs, hr⟩ =>
    ⟨r, by rw [hid]; exact hmem hs, by rw [hid, hperf, hfrom]; exact hmem hr⟩
  have hdecided : m.Decided t → m'.Decided t' := fun h => h.append hid hstatus hlog
  cases pc with
  | waiting => exact ⟨hempty hok.1, hmtx.trans hok.2⟩
  | passed => exact ⟨hempty hok.1, hmtx.trans hok.2⟩
  | locked => exact ⟨hempty hok.1, hmtx.trans hok.2⟩
  | started r => exact hrunning hok
  | loop r => exact hrunning hok
  | polling r => exact hrunning hok
  | polled r => exact hrunning hok
  | fetched r => exact ⟨hempty hok.1, hmtx.trans hok.2.1, hfetched hok.2.2⟩
  | bounded r => exact hrunning hok
  | decided r => exact ⟨hrunning hok.1, hdecided hok.2⟩
  | returned => exact ⟨hempty hok.1, hmtx.trans hok.2.1, hfetched hok.2.2.1, hdecided hok.2.2.2⟩

theorem pending_of_ne (h : ∀ a trans_size, m.session ≠ .created a trans_size) : m.pending = [] := by
  unfold pending
  split
  · rename_i a trans_size hsession
    exact absurd hsession (h a trans_size)
  · rfl

theorem unanswered_of_ne (h : ∀ a, m.session ≠ .answered a) : m.unanswered = m.transactions := by
  unfold unanswered
  split
  · rename_i a hsession
    exact absurd hsession (h a)
  · rfl

theorem Inv.setSession (h : m.Inv) (s : SessionPc) (hok : m.SessionOk s)
    (hpending : ({ m with session := s } : MgrServer).pending = m.pending)
    (hunanswered : ({ m with session := s } : MgrServer).unanswered = m.unanswered) :
    ({ m with session := s } : MgrServer).Inv where
  book := by
    refine ⟨?_, h.book.nodup, h.book.live, h.book.memory_eq, h.book.memory_le, ?_⟩
    · rw [hpending]
      exact h.book.queue_eq
    · cases s <;> exact hok
  threads := ⟨h.threads.idle, fun a t ha ht =>
    (h.threads.head a t ha ht).mono rfl rfl (List.append_nil _).symm rfl rfl rfl, h.threads.rest⟩
  record := by
    have hunstarted : ({ m with session := s } : MgrServer).unstarted = m.unstarted := by
      rw [unstarted, hpending]
      rfl
    refine ⟨h.record.known, h.record.nodup, ?_, ?_, h.record.runs_eq, h.record.answer_ok⟩
    · rw [hunanswered]
      exact h.record.answered_eq
    · rw [hunstarted]
      exact h.record.started_eq

theorem Inv.runTestHarness (h : m.Inv) (hidle : m.session = .idle) (trans_size : UInt64) :
    (m.runTestHarness trans_size).Inv := by
  unfold MgrServer.runTestHarness
  split
  · exact h
  · rename_i hle
    refine h.setSession _ (Nat.le_of_not_gt hle) ?_ ?_
    · rw [pending_of_ne (by simp), pending_of_ne (by simp [hidle])]
    · rw [unanswered_of_ne (by simp), unanswered_of_ne (by simp [hidle])]

/-! ### A transaction is accepted -/

theorem Book.ne_of_heap_none (hbook : m.Book) (ha : m.heap a = none) {b : Addr}
    (hb : b ∈ m.transactions) : b ≠ a := by
  rintro rfl
  obtain ⟨t, ht, -⟩ := hbook.live b hb
  rw [ha] at ht
  exact absurd ht (by simp)

theorem usage_of_some (ht : m.heap a = some t) : m.usage a = t.getMemoryUsage := by
  rw [usage, ht, Option.map_some, Option.getD_some]

theorem idOf_of_some (ht : m.heap a = some t) : m.idOf a = t.trans_id := by
  rw [idOf, ht, Option.map_some, Option.getD_some]

theorem map_usage_congr {l : List Addr} (h : ∀ b ∈ l, m'.heap b = m.heap b) :
    l.map m'.usage = l.map m.usage :=
  List.map_congr_left fun b hb => by rw [usage, usage, h b hb]

theorem map_idOf_congr {l : List Addr} (h : ∀ b ∈ l, m'.heap b = m.heap b) :
    l.map m'.idOf = l.map m.idOf :=
  List.map_congr_left fun b hb => by rw [idOf, idOf, h b hb]

def accept (m : MgrServer) (a : Addr) (t : Transaction) (trans_size : UInt64) : MgrServer :=
  { m.setTrans a t with
    transactions := m.transactions ++ [a]
    id2trans := Function.update m.id2trans t.trans_id (some a)
    session := .created a trans_size
    log := m.log ++ [.accepted t.trans_id] }

theorem Book.accept (hbook : m.Book) {trans_size : UInt64}
    (hsession : m.session = .admitted trans_size) (ha : m.heap a = none)
    (hfresh : m.id2trans t.trans_id = none) (hperf : t.perf_ptr.length < 2 ^ 32) :
    (m.accept a t trans_size).Book := by
  have hne : ∀ b ∈ m.transactions, b ≠ a := fun b hb => hbook.ne_of_heap_none ha hb
  have hheap : ∀ b ∈ m.transactions, (m.accept a t trans_size).heap b = m.heap b :=
    fun b hb => Function.update_of_ne (hne b hb) ..
  have hself : (m.accept a t trans_size).heap a = some t := Function.update_self ..
  have hqueue : m.transactions = m.pl_threads := by
    rw [hbook.queue_eq, pending_of_ne (by simp [hsession]), List.append_nil]
  have hadm := hbook.session_ok
  rw [hsession] at hadm
  refine ⟨?_, ?_, fun b hb => ?_, ?_, hbook.memory_le, hadm, fun u hu => ?_⟩
  · exact congrArg (· ++ [a]) hqueue
  · exact List.nodup_append.mpr ⟨hbook.nodup, List.nodup_singleton a, fun b hb c hc => by
      rw [List.mem_singleton.mp hc]
      exact hne b hb⟩
  · rcases List.mem_append.mp hb with hold | hnew
    · obtain ⟨u, hu, hid⟩ := hbook.live b hold
      refine ⟨u, (hheap b hold).trans hu, (Function.update_of_ne ?_ ..).trans hid⟩
      intro hk
      rw [hk, hfresh] at hid
      exact absurd hid (by simp)
    · rw [List.mem_singleton.mp hnew]
      exact ⟨t, hself, Function.update_self ..⟩
  · rw [show (m.accept a t trans_size).pl_threads = m.pl_threads from rfl,
      map_usage_congr fun b hb => hheap b (hqueue ▸ hb)]
    exact hbook.memory_eq
  · rw [← Option.some.inj (hself.symm.trans hu)]
    exact hperf

theorem Record.accept (h : m.Inv) {trans_size : UInt64}
    (hsession : m.session = .admitted trans_size) (ha : m.heap a = none)
    (hfresh : m.id2trans t.trans_id = none) : (m.accept a t trans_size).Record := by
  have hheap : ∀ b ∈ m.transactions, (m.accept a t trans_size).heap b = m.heap b :=
    fun b hb => Function.update_of_ne (h.book.ne_of_heap_none ha hb) ..
  have hid : (m.accept a t trans_size).idOf a = t.trans_id := idOf_of_some (Function.update_self ..)
  have hqueue : m.transactions = m.pl_threads := by
    rw [h.book.queue_eq, pending_of_ne (by simp [hsession]), List.append_nil]
  have hacc : acceptedIds (m.accept a t trans_size).log = acceptedIds m.log ++ [t.trans_id] := by
    rw [acceptedIds, MgrServer.accept, List.filterMap_append]
    rfl
  have hold : t.trans_id ∉ acceptedIds m.log := by
    intro hk
    have hsome := h.record.known _ hk
    rw [hfresh] at hsome
    exact absurd hsome (by simp)
  refine ⟨fun k hk => ?_, ?_, ?_, ?_, ?_, fun k status perf_ptr from_aie_ptr hmem => ?_⟩
  · rw [hacc] at hk
    by_cases heq : k = t.trans_id
    · rw [heq, show (m.accept a t trans_size).id2trans t.trans_id = some a from
        Function.update_self ..]
      rfl
    · rw [show (m.accept a t trans_size).id2trans k
        = m.id2trans k from Function.update_of_ne heq ..]
      exact h.record.known k ((List.mem_append.mp hk).resolve_right (by simpa using heq))
  · rw [hacc]
    exact List.nodup_append.mpr ⟨h.record.nodup, List.nodup_singleton _, fun b hb c hc => by
      rw [List.mem_singleton.mp hc]
      rintro rfl
      exact hold hb⟩
  · have hans : answeredIds (m.accept a t trans_size).log = answeredIds m.log :=
      filterMap_append_none _ (by simp [Event.answeredId])
    have hold := h.record.answered_eq
    rw [unanswered_of_ne (by simp [hsession])] at hold
    rw [hacc, hans, unanswered_of_ne (by simp [MgrServer.accept]),
      show (m.accept a t trans_size).transactions = m.transactions ++ [a] from rfl,
      List.map_append, map_idOf_congr hheap, ← List.append_assoc, ← hold, List.map_singleton, hid]
  · have hsta : startedIds (m.accept a t trans_size).log = startedIds m.log :=
      filterMap_append_none _ (by simp [Event.startedId])
    have hold := h.record.started_eq
    rw [unstarted, pending_of_ne (by simp [hsession]), List.append_nil] at hold
    have hun : (m.accept a t trans_size).unstarted = m.waitingThreads ++ [a] := rfl
    have hsub : ∀ b ∈ m.waitingThreads, b ∈ m.transactions := fun b hb =>
      h.book.mem_transactions (mem_threads_of_waiting hb)
    rw [hacc, hsta, hun, List.map_append, map_idOf_congr fun b hb => hheap b (hsub b hb),
      ← List.append_assoc, ← hold, List.map_singleton, hid]
  · have hruns := h.record.runs_eq
    exact (filterMap_append_none _ (by simp [Event.startedRun])).trans hruns
  · rcases List.mem_append.mp hmem with hm | hm
    · exact (h.record.answer_ok k status perf_ptr from_aie_ptr hm).append _
    · exact absurd hm (by simp)

theorem Inv.accept (h : m.Inv) {trans_size : UInt64} (hsession : m.session = .admitted trans_size)
    (ha : m.heap a = none) (hfresh : m.id2trans t.trans_id = none)
    (hperf : t.perf_ptr.length < 2 ^ 32) : (m.accept a t trans_size).Inv := by
  refine ⟨h.book.accept hsession ha hfresh hperf, ⟨h.threads.idle, fun b u hb hu => ?_,
    h.threads.rest⟩, .accept h hsession ha hfresh⟩
  have hmem : b ∈ m.transactions :=
    h.book.mem_transactions (List.mem_of_mem_head? (Option.mem_def.mpr hb))
  have hheap : (m.accept a t trans_size).heap b = m.heap b :=
    Function.update_of_ne (h.book.ne_of_heap_none ha hmem) ..
  exact (h.threads.head b u hb (hheap.symm.trans hu)).mono rfl rfl rfl rfl rfl rfl

theorem Inv.create (h : m.Inv) {trans_size : UInt64} (hsession : m.session = .admitted trans_size)
    (ha : m.heap a = none) (umode : UInt8) (trans_id timeout : UInt32) :
    (m.create trans_size umode trans_id timeout a).Inv
      ∨ m.create trans_size umode trans_id timeout a = m.fail := by
  unfold MgrServer.create
  split
  · exact Or.inr rfl
  · split
    · exact Or.inr rfl
    · rename_i mode _ hfresh
      refine Or.inl (h.accept (t := .new trans_id.toNat mode m.setup.num_channels m.setup.word_size
        m.setup.depth timeout.toNat 0) hsession ha (Option.not_isSome_iff_eq_none.mp hfresh) ?_)
      simp only [Transaction.new, Transaction.reset, List.length_replicate]
      exact u32_lt _

/-! ### Its thread is started -/

def spawn (m : MgrServer) (a : Addr) (t : Transaction) : MgrServer :=
  { m.setTrans a t with
    memorySize := u64 (m.memorySize + t.getMemoryUsage)
    pl_threads := m.pl_threads ++ [a]
    pc := Function.update m.pc a .waiting
    session := .idle }

theorem Book.transactions_of_created (hbook : m.Book) {trans_size : UInt64}
    (hsession : m.session = .created a trans_size) :
    m.transactions = m.pl_threads ++ [a] ∧ a ∉ m.pl_threads := by
  have hqueue : m.transactions = m.pl_threads ++ [a] := by
    rw [hbook.queue_eq, pending, hsession]
  have hnodup := hbook.nodup
  rw [hqueue, List.nodup_append] at hnodup
  exact ⟨hqueue, fun ha => hnodup.2.2 a ha a (List.mem_singleton_self a) rfl⟩

theorem Book.spawn (hbook : m.Book) {trans_size : UInt64}
    (hsession : m.session = .created a trans_size) {u : Transaction} (ht : m.heap a = some t)
    (hid : u.trans_id = t.trans_id) (hsize : u.getMemoryUsage = trans_size.toNat)
    (hlt : m.memorySize + u.getMemoryUsage < 2 ^ 64) : (m.spawn a u).Book := by
  obtain ⟨hqueue, hnot⟩ := hbook.transactions_of_created hsession
  have hheap : ∀ b ∈ m.pl_threads, (m.spawn a u).heap b = m.heap b := fun b hb =>
    Function.update_of_ne (by rintro rfl; exact hnot hb) ..
  have hself : (m.spawn a u).heap a = some u := Function.update_self ..
  have hmemory : (m.spawn a u).memorySize = m.memorySize + u.getMemoryUsage := u64_of_lt hlt
  have hadm := hbook.session_ok
  rw [hsession] at hadm
  refine ⟨?_, hbook.nodup, fun b hb => ?_, ?_, ?_, trivial⟩
  · rw [pending_of_ne (by simp [MgrServer.spawn]), List.append_nil]
    exact hqueue
  · obtain ⟨v, hv, hvid⟩ := hbook.live b hb
    by_cases hba : b = a
    · subst hba
      obtain rfl : t = v := Option.some.inj (ht.symm.trans hv)
      exact ⟨u, hself, (congrArg m.id2trans hid).trans hvid⟩
    · exact ⟨v, (Function.update_of_ne hba ..).trans hv, hvid⟩
  · rw [hmemory, show (m.spawn a u).pl_threads = m.pl_threads ++ [a] from rfl, List.map_append,
      List.sum_append, map_usage_congr hheap, List.map_singleton, List.sum_singleton,
      usage_of_some hself, ← hbook.memory_eq]
  · have hle := hadm.1
    rw [← hsize, u64_of_lt hlt] at hle
    rw [hmemory]
    exact hle

theorem Record.spawn (h : m.Inv) {trans_size : UInt64}
    (hsession : m.session = .created a trans_size)
    {u : Transaction} (ht : m.heap a = some t) (hid : u.trans_id = t.trans_id) :
    (m.spawn a u).Record := by
  obtain ⟨-, hnot⟩ := h.book.transactions_of_created hsession
  have hidOf : (m.spawn a u).idOf = m.idOf := by
    funext b
    by_cases hba : b = a
    · subst hba
      rw [idOf_of_some ht, ← hid]
      exact idOf_of_some (Function.update_self ..)
    · rw [idOf, idOf, show (m.spawn a u).heap b = m.heap b from Function.update_of_ne hba ..]
  have hunanswered : (m.spawn a u).unanswered = m.unanswered := by
    rw [unanswered_of_ne (m := m) (by simp [hsession]),
      unanswered_of_ne (by simp [MgrServer.spawn])]
    rfl
  have hunstarted : (m.spawn a u).unstarted = m.unstarted := by
    have hpending : m.pending = [a] := by rw [pending, hsession]
    rw [unstarted, unstarted, hpending, pending_of_ne (by simp [MgrServer.spawn]), List.append_nil,
      waitingThreads, waitingThreads, show (m.spawn a u).pl_threads = m.pl_threads ++ [a] from rfl]
    cases hpl : m.pl_threads with
    | nil =>
        exact if_pos (by simp [PlPc.BeforeRun, MgrServer.spawn])
    | cons b rest =>
        have hpc : (m.spawn a u).pc b = m.pc b := Function.update_of_ne (by
          rintro rfl
          exact hnot (by rw [hpl]; exact List.mem_cons_self)) ..
        simp only [List.cons_append, hpc]
        split <;> rfl
  refine ⟨h.record.known, h.record.nodup, ?_, ?_, h.record.runs_eq, h.record.answer_ok⟩
  · rw [hunanswered, hidOf]
    exact h.record.answered_eq
  · rw [hunstarted, hidOf]
    exact h.record.started_eq

theorem Threads.spawn (hthreads : m.Threads) (hnot : a ∉ m.pl_threads) (u : Transaction) :
    (m.spawn a u).Threads := by
  have hheap : ∀ b ∈ m.pl_threads, (m.spawn a u).heap b = m.heap b ∧ (m.spawn a u).pc b = m.pc b :=
    fun b hb =>
      have hne : b ≠ a := by rintro rfl; exact hnot hb
      ⟨Function.update_of_ne hne .., Function.update_of_ne hne ..⟩
  have hpc : (m.spawn a u).pc a = .waiting := Function.update_self ..
  cases hpl : m.pl_threads with
  | nil =>
      have hpl' : (m.spawn a u).pl_threads = [a] := congrArg (· ++ [a]) hpl
      refine ⟨fun hnil => ?_, fun b v hb _ => ?_, fun b hb => ?_⟩
      · rw [hpl'] at hnil
        exact absurd hnil (by simp)
      · rw [hpl'] at hb
        rw [← Option.some.inj hb, hpc]
        exact hthreads.idle hpl
      · rw [hpl'] at hb
        exact absurd hb List.not_mem_nil
  | cons c rest =>
      have hpl' : (m.spawn a u).pl_threads = c :: (rest ++ [a]) := congrArg (· ++ [a]) hpl
      have hc := hheap c (by rw [hpl]; exact List.mem_cons_self)
      refine ⟨fun hnil => ?_, fun b v hb hv => ?_, fun b hb => ?_⟩
      · rw [hpl'] at hnil
        exact absurd hnil (by simp)
      · rw [hpl'] at hb
        obtain rfl : c = b := Option.some.inj hb
        rw [hc.2]
        exact (hthreads.head c v (by rw [hpl]; rfl) (hc.1.symm.trans hv)).mono rfl rfl
          (List.append_nil _).symm rfl rfl rfl
      · rw [hpl'] at hb
        rcases List.mem_append.mp hb with hold | hnew
        · rw [(hheap b (by rw [hpl]; exact List.mem_cons_of_mem c hold)).2]
          exact hthreads.rest b (by rw [hpl]; exact hold)
        · rw [List.mem_singleton.mp hnew]
          exact hpc

/-- The four buffers of a transaction that was received fit the counter. -/
theorem Payload.usage_fill_lt {q : Payload} (hq : ¬ q.Large) (ht : t.perf_ptr.length < 2 ^ 32) :
    (q.fill t).getMemoryUsage < 2 ^ 64 - 2 ^ 31 := by
  simp only [Payload.Large, not_or, Nat.not_le] at hq
  obtain ⟨hcfg, hto, hfrom⟩ := hq
  simp only [Transaction.getMemoryUsage, Payload.fill, List.length_replicate]
  exact Nat.lt_of_le_of_lt (u64_le _) (by omega)

theorem Inv.receive (h : m.Inv) {trans_size : UInt64} (hsession : m.session = .created a trans_size)
    (ht : m.heap a = some t) (q : Payload) :
    (m.receive a t trans_size q).Inv ∨ m.receive a t trans_size q = m.fail := by
  unfold MgrServer.receive
  split
  · exact Or.inr rfl
  · rename_i hq
    rw [not_or, not_not] at hq
    have hok := h.book.session_ok
    rw [hsession] at hok
    have hlt := Payload.usage_fill_lt hq.1 (hok.2 t ht)
    have hle := h.book.memory_le
    rw [memorySizeMax] at hle
    exact Or.inl ⟨h.book.spawn hsession ht rfl hq.2 (by omega),
      h.threads.spawn (h.book.transactions_of_created hsession).2 _, .spawn h hsession ht rfl⟩

/-! ### Its results are sent and it leaves the queue -/

theorem Inv.setTimeOut (h : m.Inv) (ht : m.heap a = some t) (timeout : Nat) :
    (m.setTrans a { t with mTimeOut := timeout }).Inv := by
  have hframe : Frame m (m.setTrans a { t with mTimeOut := timeout }) := by
    refine ⟨rfl, rfl, rfl, rfl, rfl, fun b => ?_, fun _ => id⟩
    by_cases hba : b = a
    · subst hba
      simp only [setTrans, Function.update_self, ht, Option.map_some]
      rfl
    · simp only [setTrans, Function.update_of_ne hba]
  refine ⟨h.book.frame hframe, ⟨h.threads.idle, fun b v hb hv => ?_, h.threads.rest⟩,
    h.record.inner hframe (List.append_nil _).symm (by simp) (fun _ _ => Iff.rfl) rfl⟩
  by_cases hba : b = a
  · subst hba
    have hself : (m.setTrans b { t with mTimeOut := timeout }).heap b
      = some { t with mTimeOut := timeout } := Function.update_self ..
    rw [← Option.some.inj (hself.symm.trans hv)]
    exact (h.threads.head b t hb ht).mono rfl rfl (List.append_nil _).symm rfl rfl rfl
  · have hheap : (m.setTrans a { t with mTimeOut := timeout }).heap b = m.heap b :=
      Function.update_of_ne hba ..
    exact (h.threads.head b v hb (hheap.symm.trans hv)).mono rfl rfl (List.append_nil _).symm rfl
      rfl rfl

theorem Inv.waitForTestHarness (h : m.Inv) (hidle : m.session = .idle)
    (tran_id timeout_millisec : UInt32) :
    (m.waitForTestHarness tran_id timeout_millisec).Inv
      ∨ m.waitForTestHarness tran_id timeout_millisec = m.fail := by
  unfold MgrServer.waitForTestHarness
  split
  · exact Or.inr rfl
  · exact Or.inr rfl
  · rename_i a rest hqueue _
    split
    · exact Or.inr rfl
    · split
      · exact Or.inr rfl
      · rename_i t ht
        split
        · exact Or.inr rfl
        · have hpl : m.transactions = m.pl_threads := by
            rw [h.book.queue_eq, pending_of_ne (by simp [hidle]), List.append_nil]
          refine Or.inl ((h.setTimeOut ht timeout_millisec.toNat).setSession (.joining a) ?_ ?_ ?_)
          · show m.pl_threads.head? = some a
            rw [← hpl, hqueue]
            rfl
          · rw [pending_of_ne (by simp), pending_of_ne (by simp [setTrans, hidle])]
          · rw [unanswered_of_ne (by simp), unanswered_of_ne (by simp [setTrans, hidle])]

theorem Inv.answer (h : m.Inv) (hsession : m.session = .joining a) (hpc : m.pc a = .returned)
    (ht : m.heap a = some t) : (m.answer a t).Inv := by
  have hhead := h.book.session_ok
  rw [hsession] at hhead
  have hok := h.threads.head a t hhead ht
  rw [hpc] at hok
  obtain ⟨-, -, ⟨r, hstarted, hfetched⟩, hstatus, hdecided⟩ := hok
  have hlog : (m.answer a t).log
    = m.log ++ [.answered t.trans_id t.status t.perf_ptr t.from_aie_ptr] := rfl
  have hqueue : m.transactions = a :: m.transactions.tail :=
    (List.cons_head?_tail (Option.mem_def.mpr (h.book.transactions_head hhead))).symm
  refine ⟨⟨?_, h.book.nodup, h.book.live, h.book.memory_eq, h.book.memory_le, hhead, hpc⟩,
    ⟨h.threads.idle, fun b v hb hv => (h.threads.head b v hb hv).mono rfl rfl hlog rfl rfl rfl,
      h.threads.rest⟩, ?_⟩
  · rw [pending_of_ne (by simp [MgrServer.answer]),
      ← pending_of_ne (m := m) (by simp [hsession])]
    exact h.book.queue_eq
  · have hacc : acceptedIds (m.answer a t).log = acceptedIds m.log :=
      filterMap_append_none _ (by simp [Event.acceptedId])
    refine ⟨?_, ?_, ?_, ?_, ?_, fun k status perf_ptr from_aie_ptr hmem => ?_⟩
    · rw [hacc]
      exact h.record.known
    · rw [hacc]
      exact h.record.nodup
    · have hold := h.record.answered_eq
      rw [unanswered_of_ne (by simp [hsession]), hqueue, List.map_cons, idOf_of_some ht] at hold
      have hans : answeredIds (m.answer a t).log = answeredIds m.log ++ [t.trans_id] := by
        rw [hlog, answeredIds, List.filterMap_append]
        rfl
      rw [hacc, hans, List.append_assoc]
      exact hold
    · have hsta : startedIds (m.answer a t).log = startedIds m.log :=
        filterMap_append_none _ (by simp [Event.startedId])
      have hun : (m.answer a t).unstarted = m.unstarted := by
        rw [unstarted, unstarted, pending_of_ne (m := m) (by simp [hsession]),
          pending_of_ne (by simp [MgrServer.answer])]
        rfl
      rw [hacc, hsta, hun]
      exact h.record.started_eq
    · exact (filterMap_append_none _ (by simp [Event.startedRun])).trans h.record.runs_eq
    · rw [hlog] at hmem ⊢
      rcases List.mem_append.mp hmem with hold | hnew
      · exact (h.record.answer_ok k status perf_ptr from_aie_ptr hold).append _
      · obtain ⟨rfl, rfl, rfl, rfl⟩ := Event.answered.inj (List.mem_singleton.mp hnew)
        exact AnswerOk.append ⟨hstatus, hdecided, r, hstarted, hfetched⟩ _

theorem Inv.retire (h : m.Inv) (hsession : m.session = .answered a) (ht : m.heap a = some t) :
    (m.retire a t).Inv := by
  obtain ⟨hhead, hpc⟩ : m.pl_threads.head? = some a ∧ m.pc a = .returned := by
    have hok := h.book.session_ok
    rwa [hsession] at hok
  have hok := h.threads.head a t hhead ht
  rw [hpc] at hok
  obtain ⟨rest, hpl⟩ := List.head?_eq_some_iff.mp hhead
  have hqueue : m.transactions = a :: rest := by
    rw [h.book.queue_eq, pending_of_ne (by simp [hsession]), List.append_nil, hpl]
  have hnodup := h.book.nodup
  rw [hqueue, List.nodup_cons] at hnodup
  have hpl' : (m.retire a t).pl_threads = rest := by
    rw [MgrServer.retire, hpl, List.erase_cons_head]
  have hqueue' : (m.retire a t).transactions = rest := congrArg List.tail hqueue
  have hheap : ∀ b ∈ rest, (m.retire a t).heap b = m.heap b := fun b hb =>
    Function.update_of_ne (by rintro rfl; exact hnodup.1 hb) ..
  have hrest : ∀ b ∈ rest, m.pc b = .waiting := fun b hb =>
    h.threads.rest b (by rw [hpl]; exact hb)
  have hpending : (m.retire a t).pending = [] := pending_of_ne (by simp [MgrServer.retire])
  have hsum : m.memorySize = t.getMemoryUsage + (rest.map m.usage).sum := by
    rw [h.book.memory_eq, hpl, List.map_cons, List.sum_cons, usage_of_some ht]
  have hmemory : (m.retire a t).memorySize = (rest.map m.usage).sum := by
    have hle := h.book.memory_le
    rw [memorySizeMax] at hle
    simp only [MgrServer.retire, u64]
    omega
  refine ⟨⟨?_, ?_, fun b hb => ?_, ?_, ?_, trivial⟩, ⟨fun _ => ⟨hok.1, hok.2.1⟩,
    fun b v hb _ => ?_, fun b hb => ?_⟩, ⟨h.record.known, h.record.nodup, ?_, ?_, h.record.runs_eq,
      h.record.answer_ok⟩⟩
  · rw [hpending, hqueue', hpl', List.append_nil]
  · rw [hqueue']
    exact hnodup.2
  · rw [hqueue'] at hb
    rw [hheap b hb]
    exact h.book.live b (by rw [hqueue]; exact List.mem_cons_of_mem a hb)
  · rw [hmemory, hpl', map_usage_congr hheap]
  · rw [hmemory]
    have hle := h.book.memory_le
    omega
  · rw [hpl'] at hb
    have hb' := List.mem_of_mem_head? (Option.mem_def.mpr hb)
    rw [show (m.retire a t).pc b = .waiting from hrest b hb']
    exact ⟨hok.1, hok.2.1⟩
  · rw [hpl'] at hb
    exact hrest b (List.mem_of_mem_tail hb)
  · have hold := h.record.answered_eq
    rw [unanswered, hsession, hqueue] at hold
    rw [unanswered_of_ne (by simp [MgrServer.retire]), hqueue', map_idOf_congr hheap]
    exact hold
  · have hold := h.record.started_eq
    rw [unstarted, waitingThreads, hpl, pending_of_ne (by simp [hsession]), List.append_nil] at hold
    have hun : (m.retire a t).unstarted = rest := by
      rw [unstarted, waitingThreads, hpending, hpl', List.append_nil]
      cases hr : rest with
      | nil => rfl
      | cons b rest' =>
          exact if_pos (Or.inl (hrest b (by rw [hr]; exact List.mem_cons_self)))
    have hnot : ¬ (m.pc a).BeforeRun := by simp [PlPc.BeforeRun, hpc]
    rw [hun, map_idOf_congr hheap]
    simp only [if_neg hnot] at hold
    exact hold

/-! ### What the session thread can do -/

/-- A statement of the session thread with its guard and the state it leads to. -/
inductive SessionMoves (m : MgrServer) : ServerLabel → MgrServer → Prop where
  | failed {l : ServerLabel} (hanswered : ∀ a, m.session ≠ .answered a)
      (hjoining : ∀ a, m.session ≠ .joining a) : SessionMoves m l m.fail
  | refused {trans_size : UInt64} (hsession : m.session = .idle)
      (hgt : memorySizeMax < u64 (m.memorySize + trans_size.toNat)) :
      SessionMoves m (.runTestHarness trans_size) m
  | admitted {trans_size : UInt64} (hsession : m.session = .idle)
      (hle : u64 (m.memorySize + trans_size.toNat) ≤ memorySizeMax) :
      SessionMoves m (.runTestHarness trans_size) { m with session := .admitted trans_size }
  | queried {trans_id : UInt32} (hsession : m.session = .idle)
      (hid : (m.id2trans trans_id.toNat).isSome) :
      SessionMoves m (.queryTransactionStatus trans_id) m
  | other {fails : Bool} (hsession : m.session = .idle) (hfails : fails = false) :
      SessionMoves m (.other fails) m
  | created {trans_size : UInt64} {umode : UInt8} {trans_id timeout : UInt32} {a : Addr}
      {mode : TestMode} (hsession : m.session = .admitted trans_size) (ha : m.heap a = none)
      (hid : m.id2trans trans_id.toNat = none) :
      SessionMoves m (.create umode trans_id timeout a)
        (m.accept a (.new trans_id.toNat mode m.setup.num_channels m.setup.word_size m.setup.depth
          timeout.toNat 0) trans_size)
  | received {a : Addr} {trans_size : UInt64} {q : Payload} {t : Transaction}
      (hsession : m.session = .created a trans_size) (ht : m.heap a = some t) (hq : ¬ q.Large)
      (hsize : (q.fill t).getMemoryUsage = trans_size.toNat) :
      SessionMoves m (.receive q) (m.spawn a (q.fill t))
  | waits {tran_id timeout_millisec : UInt32} {a : Addr} {t : Transaction}
      (hsession : m.session = .idle) (ha : m.transactions.head? = some a) (ht : m.heap a = some t)
      (hid : tran_id.toNat = t.trans_id) :
      SessionMoves m (.waitForTestHarness tran_id timeout_millisec)
        { m.setTrans a { t with mTimeOut := timeout_millisec.toNat } with session := .joining a }
  | joined {a : Addr} {t : Transaction} (hsession : m.session = .joining a)
      (hpc : m.pc a = .returned) (ht : m.heap a = some t) : SessionMoves m .join (m.answer a t)
  | retired {a : Addr} {t : Transaction} (hsession : m.session = .answered a)
      (ht : m.heap a = some t) : SessionMoves m .retire (m.retire a t)

theorem SessionMoves.failed_of_idle (hidle : m.session = .idle) {l : ServerLabel} :
    m.SessionMoves l m.fail :=
  .failed (by simp [hidle]) (by simp [hidle])

theorem SessionMoves.waitForTestHarness (hidle : m.session = .idle)
    (tran_id timeout_millisec : UInt32) :
    m.SessionMoves (.waitForTestHarness tran_id timeout_millisec)
      (m.waitForTestHarness tran_id timeout_millisec) := by
  unfold MgrServer.waitForTestHarness
  split
  · exact .failed_of_idle hidle
  · exact .failed_of_idle hidle
  · rename_i a rest hqueue _
    split
    · exact .failed_of_idle hidle
    · split
      · exact .failed_of_idle hidle
      · rename_i t ht
        split
        · exact .failed_of_idle hidle
        · rename_i hid
          exact .waits hidle (by rw [hqueue]; rfl) ht (Decidable.not_not.mp hid)

theorem SessionMoves.create {trans_size : UInt64} (hsession : m.session = .admitted trans_size)
    (ha : m.heap a = none) (umode : UInt8) (trans_id timeout : UInt32) :
    m.SessionMoves (.create umode trans_id timeout a)
      (m.create trans_size umode trans_id timeout a) := by
  unfold MgrServer.create
  split
  · exact .failed (by simp [hsession]) (by simp [hsession])
  · split
    · exact .failed (by simp [hsession]) (by simp [hsession])
    · rename_i hid
      exact .created hsession ha (Option.not_isSome_iff_eq_none.mp hid)

theorem SessionMoves.receive {trans_size : UInt64} (hsession : m.session = .created a trans_size)
    (ht : m.heap a = some t) (q : Payload) :
    m.SessionMoves (.receive q) (m.receive a t trans_size q) := by
  unfold MgrServer.receive
  split
  · exact .failed (by simp [hsession]) (by simp [hsession])
  · rename_i hq
    rw [not_or, Decidable.not_not] at hq
    exact .received hsession ht hq.1 hq.2

theorem sessionMoves_of_sessionStep {l : ServerLabel} (hstep : m.sessionStep l = some m') :
    m.SessionMoves l m' := by
  cases l <;> simp only [MgrServer.sessionStep, reduceCtorEq] at hstep
  case runTestHarness trans_size =>
    rw [Option.ite_none_right_eq_some, Option.some.injEq] at hstep
    obtain ⟨hidle, rfl⟩ := hstep
    unfold MgrServer.runTestHarness
    split
    · rename_i hgt
      exact .refused hidle hgt
    · rename_i hle
      exact .admitted hidle (Nat.le_of_not_gt hle)
  case create umode trans_id timeout a =>
    split at hstep
    · rename_i hsession ha
      cases hstep
      exact .create hsession ha umode trans_id timeout
    · cases hstep
  case receive q =>
    split at hstep
    · rename_i hsession
      obtain ⟨t, ht, rfl⟩ := Option.map_eq_some_iff.mp hstep
      exact .receive hsession ht q
    · cases hstep
  case waitForTestHarness tran_id timeout_millisec =>
    rw [Option.ite_none_right_eq_some, Option.some.injEq] at hstep
    obtain ⟨hidle, rfl⟩ := hstep
    exact .waitForTestHarness hidle tran_id timeout_millisec
  case join =>
    split at hstep
    · rename_i hsession
      rw [Option.ite_none_right_eq_some] at hstep
      obtain ⟨hpc, hstep⟩ := hstep
      obtain ⟨t, ht, rfl⟩ := Option.map_eq_some_iff.mp hstep
      exact .joined hsession hpc ht
    · cases hstep
  case retire =>
    split at hstep
    · rename_i hsession
      obtain ⟨t, ht, rfl⟩ := Option.map_eq_some_iff.mp hstep
      exact .retired hsession ht
    · cases hstep
  case queryTransactionStatus trans_id =>
    rw [Option.ite_none_right_eq_some, Option.some.injEq] at hstep
    obtain ⟨hidle, rfl⟩ := hstep
    split
    · rename_i hid
      exact .queried hidle hid
    · exact .failed_of_idle hidle
  case other fails =>
    rw [Option.ite_none_right_eq_some, Option.some.injEq] at hstep
    obtain ⟨hidle, rfl⟩ := hstep
    cases fails
    · exact .other hidle rfl
    · exact .failed_of_idle hidle
  case destroy =>
    rw [Option.ite_none_right_eq_some, Option.some.injEq] at hstep
    obtain ⟨hidle, rfl⟩ := hstep
    exact .failed_of_idle hidle

/-! ### What the other threads and the device can do -/

inductive ThreadMoves (m : MgrServer) : MgrServer → Prop where
  | move {a : Addr} {t t' : Transaction} {pc : PlPc} {f : FastXM} {mtx : Option Addr}
      {es : List Event} (hhead : m.pl_threads.head? = some a) (ht : m.heap a = some t)
      (hpc : m.pc a ≠ .returned) (hkey : t'.key = t.key) (htimeout : t'.mTimeOut = t.mTimeOut)
      (hes : ∀ e ∈ es, e.acceptedId = none ∧ e.answeredId = none) :
      ThreadMoves m (m.move a t' pc f mtx es)
  | device {f : FastXM} : ThreadMoves m { m with fastObj := f }

theorem ThreadMoves.frame (h : m.ThreadMoves m') : Frame m m' := by
  cases h with
  | move hhead ht hpc hkey htimeout hes => exact .move ht hpc hkey _ _ _ _
  | device => exact ⟨rfl, rfl, rfl, rfl, rfl, fun _ => rfl, fun _ => id⟩

theorem ThreadMoves.ids (h : m.ThreadMoves m') :
    acceptedIds m'.log = acceptedIds m.log ∧ answeredIds m'.log = answeredIds m.log := by
  cases h with
  | move hhead ht hpc hkey htimeout hes =>
      exact ⟨filterMap_append_none _ fun e he => (hes e he).1,
        filterMap_append_none _ fun e he => (hes e he).2⟩
  | device => exact ⟨rfl, rfl⟩

theorem ThreadMoves.plStep (h : m.Inv) (ha : a ∈ m.pl_threads) (ht : m.heap a = some t)
    (hstep : m.plStep a t = some m') : m.ThreadMoves m' := by
  have hhead : m.pl_threads.head? = some a := by
    by_cases hpc : m.pc a = .waiting
    · simp only [MgrServer.plStep, hpc, Option.ite_none_right_eq_some] at hstep
      exact h.head_of_transactions ha hstep.1
    · exact h.head_of_pc ha hpc
  have hok := h.threads.head a t hhead ht
  cases hpc : m.pc a <;> rw [hpc] at hok <;>
    simp only [MgrServer.plStep, hpc, reduceCtorEq, Option.ite_none_right_eq_some,
      Option.some.injEq] at hstep
  case waiting =>
    rw [← hstep.2, goto_eq ht]
    exact .move hhead ht (by simp [hpc]) rfl rfl (by simp)
  case passed =>
    rw [← hstep.2, move_of_update ht]
    exact .move hhead ht (by simp [hpc]) rfl rfl (by simp)
  case locked =>
    have hmove : m.start a t = m.move a t (.started m.fastObj.started) (m.fastObj.runPL a t)
        m.pl_mtx [.started t.trans_id m.fastObj.started] := by
      rw [MgrServer.move, ← ht, Function.update_eq_self]
      rfl
    rw [← hstep, hmove]
    exact .move hhead ht (by simp [hpc]) rfl rfl (by simp [Event.acceptedId, Event.answeredId])
  case started r =>
    rw [← hstep, setTrans_goto_eq]
    exact .move hhead ht (by simp [hpc]) rfl rfl (by simp)
  case loop r =>
    rw [← hstep, goto_eq ht]
    exact .move hhead ht (by simp [hpc]) rfl rfl (by simp)
  case polled r =>
    rw [← hstep, fetch_goto_eq hok.holds ht]
    exact .move hhead ht (by simp [hpc]) (Transaction.withBuffers_key hok.holds.sizes_eq) rfl
      (by simp [Event.acceptedId, Event.answeredId])
  case fetched r =>
    rw [← hstep, decide_finish_eq]
    exact .move hhead ht (by simp [hpc]) rfl rfl (by simp [Event.acceptedId, Event.answeredId])
  case decided r =>
    rw [← hstep, fetch_finish_eq hok.1.holds ht]
    exact .move hhead ht (by simp [hpc]) (Transaction.withBuffers_key hok.1.holds.sizes_eq) rfl
      (by simp [Event.acceptedId, Event.answeredId])

theorem ThreadMoves.waitStep (h : m.Inv) (ha : a ∈ m.pl_threads) (ht : m.heap a = some t)
    {done : Bool} (hstep : m.waitStep a t done = some m') : m.ThreadMoves m' := by
  rw [MgrServer.waitStep, Option.ite_none_right_eq_some] at hstep
  replace hstep := hstep.2
  split at hstep
  · rename_i r hpc
    rw [← Option.some.inj hstep, goto_eq ht]
    exact .move (h.head_of_pc ha (by simp [hpc])) ht (by simp [hpc]) rfl rfl (by simp)
  · rename_i r hpc
    rw [← Option.some.inj hstep, decide_goto_eq]
    exact .move (h.head_of_pc ha (by simp [hpc])) ht (by simp [hpc]) rfl rfl
      (by simp [Event.acceptedId, Event.answeredId])
  · cases hstep

theorem threadMoves_of_step (h : m.Inv) {l : ServerLabel}
    (hl : (∃ a, l = .pl a) ∨ (∃ a done, l = .wait a done) ∨ (∃ r, l = .complete r)
      ∨ ∃ r perf from_aie, l = .write r perf from_aie)
    (hstep : lts.step l m = some m') : m.ThreadMoves m' := by
  simp only [lts, Option.ite_none_left_eq_some] at hstep
  obtain ⟨-, hstep⟩ := hstep
  rcases hl with ⟨a, rfl⟩ | ⟨a, done, rfl⟩ | ⟨r, rfl⟩ | ⟨r, perf, from_aie, rfl⟩
  · rw [Option.ite_none_right_eq_some, Option.bind_eq_some_iff] at hstep
    obtain ⟨ha, t, ht, hstep⟩ := hstep
    exact .plStep h ha ht hstep
  · rw [Option.ite_none_right_eq_some, Option.bind_eq_some_iff] at hstep
    obtain ⟨ha, t, ht, hstep⟩ := hstep
    exact .waitStep h ha ht hstep
  · rw [Option.ite_none_right_eq_some, Option.some.injEq] at hstep
    rw [← hstep.2]
    exact .device
  · rw [Option.ite_none_right_eq_some, Option.some.injEq] at hstep
    rw [← hstep.2]
    exact .device

end MgrServer

end AieTestHarness
