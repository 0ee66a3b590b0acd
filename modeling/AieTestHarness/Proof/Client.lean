import AieTestHarness.Proof.Moves

/-!
# The client manager: its invariant

The main thread keeps the queue of pending transactions, and each of them has a waiter. A thread
that holds a lock stands at one of a few statements, so two threads are never at these statements
together.
-/

namespace AieTestHarness

def MainPc.Holds : MainPc → Prop
  | .asking _ _ | .accepted _ | .sent _ | .exchanging _ _ | .deleted | .destroyed => True
  | _ => False

/-- The transactions are deleted, or the process has ended. -/
def MainPc.Over : MainPc → Prop
  | .deleted | .destroyed | .terminated => True
  | _ => False

/-- The transaction `runTestHarness` has created and not started yet. -/
def MainPc.fresh : MainPc → Option Ref
  | .sizing r _ _ | .asking r _ | .accepted r | .sent r => some r
  | _ => none

def WaiterPc.Holds : WaiterPc → Prop
  | .querying | .locked | .ask | .asking | .received _ | .fromAie | .perf | .unlock => True
  | _ => False

def WaiterPc.HoldsQuery : WaiterPc → Prop
  | .test | .query | .querying | .leave | .locked => True
  | _ => False

namespace MainPc.Calm

variable {main : MainPc}

theorem fresh_eq (h : main.Calm) : main.fresh = none := by
  cases main <;> first | rfl | cases h

theorem ne_joining (h : main.Calm) (r : Ref) (w : WaitForRes) : main ≠ .joining r w := by
  rintro rfl
  exact h

theorem not_holds (h : main.Calm) : ¬ main.Holds := by
  cases main <;> first | exact id | cases h

theorem not_over (h : main.Calm) : ¬ main.Over := by
  cases main <;> first | exact id | cases h

end MainPc.Calm

namespace MgrClient

variable {c c' : MgrClient} {r : Ref}

structure Book (c : MgrClient) : Prop where
  threads_eq : c.transaction_threads = c.pending_transactions
  nodup : c.pending_transactions.Nodup
  known : ∀ r ∈ c.pending_transactions, r < c.created
  running : ∀ r, c.pc r ≠ .returned → r ∈ c.pending_transactions
  fresh : ∀ r, c.main.fresh = some r → r < c.created ∧ r ∉ c.pending_transactions
  joining : ∀ r w, c.main = .joining r w → c.pending_transactions.head? = some r

structure Locks (c : MgrClient) : Prop where
  main : c.main ≠ .terminated → (c.req_mtx = some .main ↔ c.main.Holds)
  waiter : ∀ r, c.req_mtx = some (.waiter r) ↔ (c.pc r).Holds
  query : ∀ r, c.query_mtx = some r ↔ (c.pc r).HoldsQuery

structure Owns (c : MgrClient) : Prop where
  live : ¬ c.main.Over → c.transactions = List.range c.created
  heap : ¬ c.main.Over → ∀ r, r < c.created → ∃ t, c.heap r = some t
  known : ∀ r t, c.heap r = some t → r < c.created ∧ t.trans_id = (transId r).toNat
  timeout : c.main ≠ .terminated → ∀ r t, c.heap r = some t → t.mTimeOut ≠ 0 →
    r ∈ c.pending_transactions ∨ c.main.fresh = some r → ∃ w, c.main = .joining r w

structure Inv (c : MgrClient) : Prop where
  book : c.Book
  locks : c.Locks
  owns : c.Owns

/-! ### The containers -/

/-- A step that adds no pending transaction and takes none. -/
theorem Book.mono (h : c.Book) (hthreads : c'.transaction_threads = c.transaction_threads)
    (hpending : c'.pending_transactions = c.pending_transactions)
    (hcreated : c.created ≤ c'.created)
    (hpc : ∀ r, c'.pc r ≠ .returned → r ∈ c.pending_transactions)
    (hfresh : ∀ r, c'.main.fresh = some r →
      c.main.fresh = some r ∨ r = c.created ∧ c.created < c'.created)
    (hjoining : ∀ r w, c'.main = .joining r w → c.pending_transactions.head? = some r) :
    c'.Book where
  threads_eq := by rw [hthreads, hpending, h.threads_eq]
  nodup := by rw [hpending]; exact h.nodup
  known r hr := by
    rw [hpending] at hr
    exact Nat.lt_of_lt_of_le (h.known r hr) hcreated
  running r hr := by rw [hpending]; exact hpc r hr
  fresh r hr := by
    rw [hpending]
    rcases hfresh r hr with hold | ⟨rfl, hlt⟩
    · exact ⟨Nat.lt_of_lt_of_le (h.fresh r hold).1 hcreated, (h.fresh r hold).2⟩
    · exact ⟨hlt, fun hmem => Nat.lt_irrefl _ (h.known _ hmem)⟩
  joining r w hr := by rw [hpending]; exact hjoining r w hr

theorem Book.calm (h : c.Book) (hthreads : c'.transaction_threads = c.transaction_threads)
    (hpending : c'.pending_transactions = c.pending_transactions)
    (hcreated : c'.created = c.created) (hpc : c'.pc = c.pc) (hmain : c'.main.Calm) : c'.Book := by
  refine h.mono hthreads hpending (Nat.le_of_eq hcreated.symm) (by rw [hpc]; exact h.running)
    (fun r hr => ?_) fun r w hr => absurd hr (hmain.ne_joining r w)
  rw [hmain.fresh_eq] at hr
  cases hr

theorem Book.step (h : c.Book) (hthreads : c'.transaction_threads = c.transaction_threads)
    (hpending : c'.pending_transactions = c.pending_transactions)
    (hcreated : c'.created = c.created)
    (hpc : c'.pc = c.pc) (hfresh : ∀ r, c'.main.fresh = some r → c.main.fresh = some r)
    (hjoining : ∀ r w, c'.main ≠ .joining r w) : c'.Book :=
  h.mono hthreads hpending (Nat.le_of_eq hcreated.symm) (by rw [hpc]; exact h.running)
    (fun r hr => Or.inl (hfresh r hr)) fun r w hr => absurd hr (hjoining r w)

theorem Book.spawn (h : c.Book) (hmain : c.main = .sent r) (t : Transaction) :
    (c.spawn r t).Book := by
  obtain ⟨hlt, hnot⟩ := h.fresh r (by rw [hmain]; rfl)
  refine ⟨?_, ?_, ?_, ?_, fun _ h => ?_, fun _ _ h => ?_⟩
  · simp only [MgrClient.spawn, h.threads_eq]
  · exact List.nodup_append.mpr ⟨h.nodup, List.nodup_singleton r, fun b hb c hc => by
      rw [List.mem_singleton.mp hc]
      rintro rfl
      exact hnot hb⟩
  · intro ρ hρ
    rcases List.mem_append.mp hρ with hold | hnew
    · exact h.known ρ hold
    · rwa [List.mem_singleton.mp hnew]
  · intro ρ hρ
    by_cases hr : ρ = r
    · exact List.mem_append_right _ (List.mem_singleton.mpr hr)
    · refine List.mem_append_left _ (h.running ρ fun hret => hρ ?_)
      exact (Function.update_of_ne hr ..).trans hret
  · cases h
  · cases h

theorem Book.pop (h : c.Book) {w : WaitForRes} (hmain : c.main = .joining r w)
    (hpc : c.pc r = .returned) {main : MainPc} (hcalm : main.Calm) : (c.pop r main).Book := by
  obtain ⟨rest, hpending⟩ := List.head?_eq_some_iff.mp (h.joining r w hmain)
  have hnodup := h.nodup
  rw [hpending, List.nodup_cons] at hnodup
  refine ⟨?_, ?_, fun ρ hρ => ?_, fun ρ hρ => ?_, fun ρ hρ => ?_, fun ρ w hρ => ?_⟩
  · show c.transaction_threads.erase r = c.pending_transactions.tail
    rw [h.threads_eq, hpending, List.erase_cons_head, List.tail_cons]
  · show c.pending_transactions.tail.Nodup
    rw [hpending]
    exact hnodup.2
  · exact h.known ρ (List.mem_of_mem_tail hρ)
  · have hmem := h.running ρ hρ
    rw [hpending] at hmem
    show ρ ∈ c.pending_transactions.tail
    rw [hpending]
    refine (List.mem_cons.mp hmem).resolve_left ?_
    rintro rfl
    exact hρ hpc
  · rw [MgrClient.pop, hcalm.fresh_eq] at hρ
    cases hρ
  · exact absurd hρ (hcalm.ne_joining ρ w)

theorem Book.waiter (h : c.Book) (hpending : c'.pending_transactions = c.pending_transactions)
    (hthreads : c'.transaction_threads = c.transaction_threads) (hcreated : c'.created = c.created)
    (hmain : c'.main = c.main) {pc : WaiterPc} (hpc : c'.pc = Function.update c.pc r pc)
    (hret : c.pc r ≠ .returned) : c'.Book := by
  refine h.mono hthreads hpending (Nat.le_of_eq hcreated.symm) (fun ρ hρ => ?_)
    (fun ρ hρ => Or.inl (by rwa [hmain] at hρ)) fun ρ w hρ => h.joining ρ w (by rwa [hmain] at hρ)
  by_cases hr : ρ = r
  · rw [hr]
    exact h.running r hret
  · rw [hpc, Function.update_of_ne hr] at hρ
    exact h.running ρ hρ

section Moves

variable {s s' : System}

theorem Book.mainMoves (h : s.client.Book) (hmoves : s.MainMoves s') : s'.client.Book := by
  cases hmoves with
  | created hmain hmade hmain' =>
      refine h.mono rfl rfl (Nat.le_succ _) h.running (fun r hr => ?_) fun r w hr => ?_
      · rcases hmain' with rfl | ⟨rfl, -⟩
        · cases hr
        · cases hr
          exact Or.inr ⟨rfl, Nat.lt_succ_self _⟩
      · rcases hmain' with rfl | ⟨rfl, -⟩ <;> cases hr
  | goto hmain hcalm => exact h.calm rfl rfl rfl rfl hcalm
  | size hmain => exact h.step rfl rfl rfl rfl (fun r hr => by rwa [hmain]) nofun
  | ask hmain hreq => exact h.step rfl rfl rfl rfl (fun r hr => by rwa [hmain]) nofun
  | @answered r memorySize b answers hmain hanswers =>
      cases b
      · exact h.calm rfl rfl rfl rfl trivial
      · exact h.step rfl rfl rfl rfl (fun r hr => by rwa [hmain]) nofun
  | send hmain ht => exact h.step rfl rfl rfl rfl (fun r hr => by rwa [hmain]) nofun
  | spawn hmain ht => exact h.spawn hmain _
  | request hmain hreq => exact h.step rfl rfl rfl rfl nofun nofun
  | unanswered hmain hcalm => exact h.calm rfl rfl rfl rfl hcalm
  | exchanged hmain hanswers hq hcalm => exact h.calm rfl rfl rfl rfl hcalm
  | fails hmain hgone => exact h.calm rfl rfl rfl rfl trivial
  | setTimeOut hmain hpending ht =>
      refine h.mono rfl rfl (Nat.le_refl _) h.running nofun fun ρ w hρ => ?_
      cases hρ
      rw [hpending]
      rfl
  | join hmain hpc hcalm => exact h.pop hmain hpc hcalm
  | destroy hmain hreq => exact h.step rfl rfl rfl rfl nofun nofun
  | release hmain =>
      refine h.step rfl rfl rfl rfl (fun r hr => ?_) fun r w hr => ?_
      · simp only [release, goto, System.withClient] at hr
        split at hr <;> cases hr
      · simp only [release, goto, System.withClient] at hr
        split at hr <;> cases hr

theorem Book.waiterMoves {r : Ref} {t : Transaction} (h : s.client.Book)
    (hmoves : s.WaiterMoves r t s') : s'.client.Book := by
  cases hmoves with
  | lockQuery hpc hquery => exact h.waiter rfl rfl rfl rfl rfl (by simp [hpc])
  | test hpc => exact h.waiter rfl rfl rfl rfl rfl (by simp [hpc])
  | query hpc hreq => exact h.waiter rfl rfl rfl rfl rfl (by simp [hpc])
  | queried hpc hanswers hpc' => exact h.waiter rfl rfl rfl rfl rfl (by simp [hpc])
  | lockReq hpc hreq => exact h.waiter rfl rfl rfl rfl rfl (by simp [hpc])
  | unlockQuery hpc => exact h.waiter rfl rfl rfl rfl rfl (by simp [hpc])
  | wait hpc => exact h.waiter rfl rfl rfl rfl rfl (by simp [hpc])
  | recvStatus hpc hanswers => exact h.waiter rfl rfl rfl rfl rfl (by simp [hpc])
  | setStatus hpc => exact h.waiter rfl rfl rfl rfl rfl (by simp [hpc])
  | recvFromAie hpc hanswers => exact h.waiter rfl rfl rfl rfl rfl (by simp [hpc])
  | recvPerf hpc hanswers => exact h.waiter rfl rfl rfl rfl rfl (by simp [hpc])
  | unlockReq hpc => exact h.waiter rfl rfl rfl rfl rfl (by simp [hpc])
  | handleOutputs hpc ht' => exact h.waiter rfl rfl rfl rfl rfl (by simp [hpc])
  | throws hpc hgone => exact h.step rfl rfl rfl rfl nofun nofun

end Moves

/-! ### The locks -/

theorem Locks.mono (h : c.Locks) (hreq : c'.req_mtx = c.req_mtx)
    (hquery : c'.query_mtx = c.query_mtx) (hpc : c'.pc = c.pc) (hmain : c'.main ≠ .terminated →
      c.main ≠ .terminated ∧ (c'.main.Holds ↔ c.main.Holds)) : c'.Locks where
  main hne := by rw [hreq, (hmain hne).2, h.main (hmain hne).1]
  waiter r := by rw [hreq, hpc, h.waiter]
  query r := by rw [hquery, hpc, h.query]

theorem Locks.lockMain (h : c.Locks) (hreq : c.req_mtx = none) (hreq' : c'.req_mtx = some .main)
    (hquery : c'.query_mtx = c.query_mtx) (hpc : c'.pc = c.pc) (hmain : c'.main.Holds) :
    c'.Locks where
  main _ := by simp [hreq', hmain]
  waiter r := by
    rw [hreq', hpc, ← h.waiter, hreq]
    simp
  query r := by rw [hquery, hpc, h.query]

theorem Locks.unlockMain (h : c.Locks) (hholds : c.main.Holds) (hreq' : c'.req_mtx = none)
    (hquery : c'.query_mtx = c.query_mtx) (hpc : c'.pc = c.pc) (hmain : ¬ c'.main.Holds) :
    c'.Locks where
  main _ := by simp [hreq', hmain]
  waiter r := by
    have hne : c.main ≠ .terminated := by
      intro h
      rw [h] at hholds
      exact hholds
    rw [hreq', hpc, ← h.waiter, (h.main hne).mpr hholds]
    simp
  query r := by rw [hquery, hpc, h.query]

theorem Locks.spawn (h : c.Locks) (hbook : c.Book) (hmain : c.main = .sent r) (t : Transaction) :
    (c.spawn r t).Locks := by
  have hholds : c.main.Holds := by rw [hmain]; trivial
  have hreq : c.req_mtx = some .main := (h.main (by simp [hmain])).mpr hholds
  have hret : c.pc r = .returned := by
    by_contra hret
    exact (hbook.fresh r (by rw [hmain]; rfl)).2 (hbook.running r hret)
  refine ⟨fun _ => by simp [MgrClient.spawn, unlockReq, MainPc.Holds], fun ρ => ?_, fun ρ => ?_⟩
  · by_cases hr : ρ = r
    · rw [hr, show (c.spawn r t).pc r = .start from Function.update_self ..]
      simp [MgrClient.spawn, unlockReq, WaiterPc.Holds]
    · rw [show (c.spawn r t).pc ρ = c.pc ρ from Function.update_of_ne hr .., ← h.waiter, hreq]
      simp [MgrClient.spawn, unlockReq]
  · rw [show (c.spawn r t).query_mtx = c.query_mtx from rfl, h.query]
    by_cases hr : ρ = r
    · rw [hr, show (c.spawn r t).pc r = .start from Function.update_self .., hret]
      exact Iff.rfl
    · rw [show (c.spawn r t).pc ρ = c.pc ρ from Function.update_of_ne hr ..]

/-- What a waiter does with a lock in a step: it keeps it or stays without it, takes it, or releases
it. -/
def Turns {α : Type} (lock lock' : Option α) (owner : α) (holds holds' : Prop) : Prop :=
  (lock' = lock ∧ (holds' ↔ holds)) ∨ (lock = none ∧ lock' = some owner ∧ holds')
    ∨ (holds ∧ lock' = none ∧ ¬ holds')

theorem Turns.keep {α : Type} {lock : Option α} {owner : α} {holds holds' : Prop}
    (h : holds' ↔ holds) : Turns lock lock owner holds holds' := Or.inl ⟨rfl, h⟩

theorem Turns.take {α : Type} {lock : Option α} {owner : α} {holds holds' : Prop} (h : lock = none)
    (hholds : holds') : Turns lock (some owner) owner holds holds' :=
    Or.inr (Or.inl ⟨h, rfl, hholds⟩)

theorem Turns.release {α : Type} {lock : Option α} {owner : α} {holds holds' : Prop} (h : holds)
    (hnot : ¬ holds') : Turns lock none owner holds holds' := Or.inr (Or.inr ⟨h, rfl, hnot⟩)

theorem Turns.self {α : Type} {lock lock' : Option α} {owner : α} {holds holds' : Prop}
    (h : Turns lock lock' owner holds holds') (hlock : lock = some owner ↔ holds) :
    lock' = some owner ↔ holds' := by
  rcases h with ⟨rfl, hiff⟩ | ⟨-, rfl, hholds⟩ | ⟨-, rfl, hnot⟩
  · rw [hiff, hlock]
  · simp [hholds]
  · simp [hnot]

theorem Turns.other {α : Type} {lock lock' : Option α} {owner other : α} {holds holds' : Prop}
    (h : Turns lock lock' owner holds holds') (hlock : lock = some owner ↔ holds)
    (hne : other ≠ owner) : lock' = some other ↔ lock = some other := by
  rcases h with ⟨rfl, -⟩ | ⟨rfl, rfl, -⟩ | ⟨hholds, rfl, -⟩
  · rfl
  · simp [hne.symm]
  · rw [hlock.mpr hholds]
    simp [hne.symm]

theorem Locks.turn (h : c.Locks) {pc : WaiterPc} (hmain : c'.main = c.main)
    (hpc : c'.pc = Function.update c.pc r pc)
    (hreq : Turns c.req_mtx c'.req_mtx (.waiter r) (c.pc r).Holds pc.Holds)
    (hquery : Turns c.query_mtx c'.query_mtx r (c.pc r).HoldsQuery pc.HoldsQuery) : c'.Locks where
  main hne := by
    rw [hreq.other (h.waiter r) (by simp), hmain, h.main (by rwa [← hmain])]
  waiter ρ := by
    by_cases hr : ρ = r
    · rw [hr, hpc, Function.update_self]
      exact hreq.self (h.waiter r)
    · rw [hpc, Function.update_of_ne hr, ← h.waiter]
      exact hreq.other (h.waiter r) (by simpa using hr)
  query ρ := by
    by_cases hr : ρ = r
    · rw [hr, hpc, Function.update_self]
      exact hquery.self (h.query r)
    · rw [hpc, Function.update_of_ne hr, ← h.query]
      exact hquery.other (h.query r) hr

section Moves

variable {s s' : System}

theorem Locks.mainMoves (h : s.client.Locks) (hbook : s.client.Book) (hmoves : s.MainMoves s') :
    s'.client.Locks := by
  cases hmoves with
  | created hmain hmade hmain' =>
      refine h.mono rfl rfl rfl fun _ =>
        ⟨by simp [hmain], iff_of_false ?_ (by rw [hmain]; exact id)⟩
      rcases hmain' with rfl | ⟨rfl, -⟩ <;> exact id
  | goto hmain hcalm =>
      rcases hmain with hmain | ⟨w, hmain⟩
      all_goals exact h.mono rfl rfl rfl fun _ =>
        ⟨by simp [hmain], iff_of_false hcalm.not_holds (by rw [hmain]; exact id)⟩
  | size hmain =>
      exact h.mono rfl rfl rfl fun _ =>
        ⟨by simp [hmain], iff_of_false id (by rw [hmain]; exact id)⟩
  | ask hmain hreq => exact h.lockMain hreq rfl rfl rfl trivial
  | @answered r memorySize b answers hmain hanswers =>
      cases b
      · exact h.unlockMain (by rw [hmain]; trivial) rfl rfl rfl id
      · exact h.mono rfl rfl rfl fun _ =>
          ⟨by simp [hmain], iff_of_true trivial (by rw [hmain]; trivial)⟩
  | send hmain ht =>
      exact h.mono rfl rfl rfl fun _ =>
        ⟨by simp [hmain], iff_of_true trivial (by rw [hmain]; trivial)⟩
  | @spawn r t hmain ht => exact h.spawn hbook hmain t
  | request hmain hreq => exact h.lockMain hreq rfl rfl rfl trivial
  | unanswered hmain hcalm =>
      exact h.unlockMain (by rw [hmain]; trivial) rfl rfl rfl hcalm.not_holds
  | exchanged hmain hanswers hq hcalm =>
      exact h.unlockMain (by rw [hmain]; trivial) rfl rfl rfl hcalm.not_holds
  | fails hmain hgone =>
      refine h.unlockMain ?_ rfl rfl rfl id
      rcases hmain with ⟨r, n, hmain⟩ | ⟨r, hmain⟩ | ⟨q, k, hmain⟩ <;> rw [hmain] <;> trivial
  | setTimeOut hmain hpending ht =>
      exact h.mono rfl rfl rfl fun _ =>
        ⟨by simp [hmain], iff_of_false id (by rw [hmain]; exact id)⟩
  | join hmain hpc hcalm =>
      exact h.mono rfl rfl rfl fun _ =>
        ⟨by simp [hmain], iff_of_false hcalm.not_holds (by rw [hmain]; exact id)⟩
  | destroy hmain hreq => exact h.lockMain hreq rfl rfl rfl trivial
  | release hmain =>
      refine h.mono rfl rfl rfl fun hne => ⟨by simp [hmain], ?_⟩
      simp only [release, goto, System.withClient] at hne ⊢
      split
      · exact iff_of_true trivial (by rw [hmain]; trivial)
      · rename_i hthreads
        rw [if_neg hthreads] at hne
        exact absurd rfl hne

theorem Locks.waiterMoves {r : Ref} {t : Transaction} (h : s.client.Locks)
    (hmoves : s.WaiterMoves r t s') : s'.client.Locks := by
  cases hmoves with
  | lockQuery hpc hquery =>
      exact h.turn rfl rfl (.keep (by rw [hpc]; exact Iff.rfl)) (.take hquery trivial)
  | test hpc =>
      refine h.turn rfl rfl (.keep ?_) (.keep ?_)
      · rw [hpc]
        split <;> exact Iff.rfl
      · rw [hpc]
        split <;> exact Iff.rfl
  | query hpc hreq =>
      exact h.turn rfl rfl (.take hreq trivial) (.keep (by rw [hpc]; exact Iff.rfl))
  | queried hpc hanswers hpc' =>
      refine h.turn rfl rfl (.release (by rw [hpc]; trivial) ?_) (.keep ?_)
      · rw [hpc']
        split <;> exact id
      · rw [hpc, hpc']
        split <;> exact Iff.rfl
  | lockReq hpc hreq =>
      exact h.turn rfl rfl (.take hreq trivial) (.keep (by rw [hpc]; exact Iff.rfl))
  | unlockQuery hpc =>
      exact h.turn (r := r) rfl rfl (.keep (by rw [hpc]; exact Iff.rfl))
        (.release (by rw [hpc]; trivial) id)
  | wait hpc =>
      exact h.turn rfl rfl (.keep (by rw [hpc]; exact Iff.rfl)) (.keep (by rw [hpc]; exact Iff.rfl))
  | recvStatus hpc hanswers =>
      exact h.turn rfl rfl (.keep (by rw [hpc]; exact Iff.rfl)) (.keep (by rw [hpc]; exact Iff.rfl))
  | setStatus hpc =>
      exact h.turn rfl rfl (.keep (by rw [hpc]; exact Iff.rfl)) (.keep (by rw [hpc]; exact Iff.rfl))
  | recvFromAie hpc hanswers =>
      exact h.turn rfl rfl (.keep (by rw [hpc]; exact Iff.rfl)) (.keep (by rw [hpc]; exact Iff.rfl))
  | recvPerf hpc hanswers =>
      exact h.turn rfl rfl (.keep (by rw [hpc]; exact Iff.rfl)) (.keep (by rw [hpc]; exact Iff.rfl))
  | unlockReq hpc =>
      exact h.turn (r := r) rfl rfl (.release (by rw [hpc]; trivial) id)
        (.keep (by rw [hpc]; exact Iff.rfl))
  | handleOutputs hpc ht' =>
      exact h.turn rfl rfl (.keep (by rw [hpc]; exact Iff.rfl)) (.keep (by rw [hpc]; exact Iff.rfl))
  | throws hpc hgone => exact h.mono rfl rfl rfl fun hne => absurd rfl hne

end Moves

/-! ### The transactions -/

theorem Owns.mono (h : c.Owns) (hheap : c'.heap = c.heap)
    (htrans : c'.transactions = c.transactions)
    (hcreated : c'.created = c.created)
    (hpending : c'.pending_transactions = c.pending_transactions)
    (hover : ¬ c'.main.Over → ¬ c.main.Over) (hne : c'.main ≠ .terminated → c.main ≠ .terminated)
    (hfresh : ∀ r, c'.main.fresh = some r → c.main.fresh = some r)
    (hjoining : ∀ r w, c.main = .joining r w → c'.main = .joining r w) : c'.Owns where
  live hn := by rw [htrans, hcreated, h.live (hover hn)]
  heap hn := by
    rw [hheap, hcreated]
    exact h.heap (hover hn)
  known := by
    rw [hheap, hcreated]
    exact h.known
  timeout hn r t ht hne' hr := by
    rw [hheap] at ht
    rw [hpending] at hr
    obtain ⟨w, hw⟩ := h.timeout (hne hn) r t ht hne' (hr.imp id (hfresh r))
    exact ⟨w, hjoining r w hw⟩

theorem Owns.step (h : c.Owns) (hheap : c'.heap = c.heap)
    (htrans : c'.transactions = c.transactions)
    (hcreated : c'.created = c.created)
    (hpending : c'.pending_transactions = c.pending_transactions)
    (hmain : ¬ c.main.Over) (hjoining : ∀ r w, c.main ≠ .joining r w)
    (hfresh : ∀ r, c'.main.fresh = some r → c.main.fresh = some r) : c'.Owns :=
  h.mono hheap htrans hcreated hpending (fun _ => hmain)
    (fun _ heq => hmain (by rw [heq]; trivial)) hfresh fun r w hw => absurd hw (hjoining r w)

theorem Owns.calm (h : c.Owns) (hheap : c'.heap = c.heap)
    (htrans : c'.transactions = c.transactions)
    (hcreated : c'.created = c.created)
    (hpending : c'.pending_transactions = c.pending_transactions)
    (hmain : ¬ c.main.Over) (hjoining : ∀ r w, c.main ≠ .joining r w) (hcalm : c'.main.Calm) :
    c'.Owns :=
  h.step hheap htrans hcreated hpending hmain hjoining fun r hr => by
    rw [hcalm.fresh_eq] at hr
    cases hr

theorem Owns.setTrans (h : c.Owns) {t t' : Transaction} (ht : c.heap r = some t)
    (hid : t'.trans_id = t.trans_id) (htimeout : t'.mTimeOut = t.mTimeOut) :
    (c.setTrans r t').Owns := by
  obtain ⟨hlt, htid⟩ := h.known r t ht
  refine ⟨h.live, fun hn ρ hρ => ?_, fun ρ u hu => ?_, fun hn ρ u hu hne hρ => ?_⟩
  · by_cases hr : ρ = r
    · exact ⟨t', by rw [hr]; exact Function.update_self ..⟩
    · exact (h.heap hn ρ hρ).imp fun u hu => (Function.update_of_ne hr ..).trans hu
  · by_cases hr : ρ = r
    · subst hr
      cases (Function.update_self ..).symm.trans hu
      exact ⟨hlt, hid.trans htid⟩
    · exact h.known ρ u ((Function.update_of_ne hr ..).symm.trans hu)
  · by_cases hr : ρ = r
    · subst hr
      cases (Function.update_self ..).symm.trans hu
      exact h.timeout hn ρ t ht (by rwa [← htimeout]) hρ
    · exact h.timeout hn ρ u ((Function.update_of_ne hr ..).symm.trans hu) hne hρ

theorem Owns.create (h : c.Owns) (hmain : c.main = .idle) (mode : TestMode)
    (timeout : UInt32) {t : Transaction} (ht : Made c.created c.setup t) (main : MainPc)
    (hmain' : main = c.main ∨ ∃ rest n, main = .sizing c.created rest n) :
    (((c.create mode timeout).setTrans c.created t).goto main).Owns := by
  have hover : ¬ c.main.Over := by rw [hmain]; exact id
  have hself : (((c.create mode timeout).setTrans c.created t).goto main).heap c.created = some t :=
    Function.update_self ..
  have hold : ∀ ρ, ρ ≠ c.created →
      (((c.create mode timeout).setTrans c.created t).goto main).heap ρ = c.heap ρ := by
    intro ρ hρ
    exact (Function.update_of_ne hρ ..).trans (Function.update_of_ne hρ ..)
  refine ⟨fun _ => ?_, fun _ ρ hρ => ?_, fun ρ u hu => ?_, fun _ ρ u hu hne hρ => ?_⟩
  · show c.transactions ++ [c.created] = List.range (c.created + 1)
    rw [h.live hover, List.range_succ]
  · rcases Nat.lt_succ_iff_lt_or_eq.mp hρ with hlt | rfl
    · rw [hold ρ (Nat.ne_of_lt hlt)]
      exact h.heap hover ρ hlt
    · exact ⟨t, hself⟩
  · by_cases hr : ρ = c.created
    · subst hr
      cases hself.symm.trans hu
      exact ⟨Nat.lt_succ_self _, ht.trans_id_eq⟩
    · rw [hold ρ hr] at hu
      exact ⟨Nat.lt_succ_of_lt (h.known ρ u hu).1, (h.known ρ u hu).2⟩
  · by_cases hr : ρ = c.created
    · subst hr
      cases hself.symm.trans hu
      exact absurd ht.mTimeOut_eq hne
    · rw [hold ρ hr] at hu
      have hpending : ρ ∈ c.pending_transactions := by
        refine hρ.resolve_right fun hfresh => ?_
        rcases hmain' with rfl | ⟨rest, n, rfl⟩
        · rw [goto, hmain] at hfresh
          cases hfresh
        · cases hfresh
          exact hr rfl
      obtain ⟨w, hw⟩ := h.timeout (by simp [hmain]) ρ u hu hne (Or.inl hpending)
      rw [hmain] at hw
      cases hw

theorem Owns.spawn (h : c.Owns) (hmain : c.main = .sent r) {t : Transaction}
    (ht : c.heap r = some t) : (c.spawn r t).Owns := by
  have hset : (c.setTrans r { t with status := .TRANSACTION_RUNNING }).Owns :=
    h.setTrans ht rfl rfl
  have hover : ¬ c.main.Over := by rw [hmain]; exact id
  refine ⟨fun _ => h.live hover, fun _ => hset.heap hover, hset.known, fun _ ρ u hu hne hρ => ?_⟩
  have hρ' : ρ ∈ c.pending_transactions ∨ c.main.fresh = some ρ := by
    rcases hρ with hmem | hfresh
    · refine (List.mem_append.mp hmem).imp id fun hnew => ?_
      rw [List.mem_singleton.mp hnew, hmain]
      rfl
    · cases hfresh
  have hne' : c.main ≠ .terminated := by simp [hmain]
  obtain ⟨w, hw⟩ := hset.timeout hne' ρ u hu hne hρ'
  cases hmain.symm.trans hw

theorem Owns.setTimeOut (h : c.Owns) {w : WaitForRes} (hmain : c.main = .loop w) {t : Transaction}
    (ht : c.heap r = some t) : (c.setTimeOut w r t).Owns := by
  have hover : ¬ c.main.Over := by rw [hmain]; exact id
  obtain ⟨hlt, htid⟩ := h.known r t ht
  refine ⟨fun _ => h.live hover, fun _ ρ hρ => ?_, fun ρ u hu => ?_, fun _ ρ u hu hne hρ => ?_⟩
  · by_cases hr : ρ = r
    · exact ⟨_, by rw [hr]; exact Function.update_self ..⟩
    · exact (h.heap hover ρ hρ).imp fun u hu => (Function.update_of_ne hr ..).trans hu
  · by_cases hr : ρ = r
    · subst hr
      cases (Function.update_self ..).symm.trans hu
      exact ⟨hlt, htid⟩
    · exact h.known ρ u ((Function.update_of_ne hr ..).symm.trans hu)
  · by_cases hr : ρ = r
    · exact ⟨w, by rw [hr]; rfl⟩
    · obtain ⟨w', hw'⟩ := h.timeout (by simp [hmain]) ρ u
        ((Function.update_of_ne hr ..).symm.trans hu) hne (Or.inl (hρ.resolve_right nofun))
      rw [hmain] at hw'
      cases hw'

theorem Owns.pop (h : c.Owns) (hbook : c.Book) {w : WaitForRes} (hmain : c.main = .joining r w)
    {main : MainPc} (hcalm : main.Calm) : (c.pop r main).Owns := by
  obtain ⟨rest, hpending⟩ := List.head?_eq_some_iff.mp (hbook.joining r w hmain)
  have hover : ¬ c.main.Over := by rw [hmain]; exact id
  have hnodup := hbook.nodup
  rw [hpending, List.nodup_cons] at hnodup
  refine ⟨fun _ => h.live hover, fun _ => h.heap hover, h.known, fun _ ρ u hu hne hρ => ?_⟩
  have hmem : ρ ∈ c.pending_transactions.tail := by
    refine hρ.resolve_right fun hfresh => ?_
    rw [MgrClient.pop, hcalm.fresh_eq] at hfresh
    cases hfresh
  obtain ⟨w', hw'⟩ := h.timeout (by simp [hmain]) ρ u hu hne (Or.inl (List.mem_of_mem_tail hmem))
  rw [hmain] at hw'
  cases hw'
  rw [hpending] at hmem
  exact absurd hmem hnodup.1

theorem Owns.destroy (h : c.Owns) (hmain : c.main = .idle) :
    (c.destroy.lockReq .main).Owns := by
  have hnone : ∀ ρ, (c.destroy.lockReq .main).heap ρ = none := by
    intro ρ
    have hover : ¬ c.main.Over := by rw [hmain]; exact id
    simp only [MgrClient.destroy, lockReq, h.live hover, List.mem_range]
    split
    · rfl
    · rename_i hρ
      cases hu : c.heap ρ with
      | none => rfl
      | some u => exact absurd (h.known ρ u hu).1 hρ
  refine ⟨fun hn => absurd trivial hn, fun hn => absurd trivial hn, fun ρ u hu => ?_,
    fun _ ρ u hu _ _ => ?_⟩
  · rw [hnone] at hu
    cases hu
  · rw [hnone] at hu
    cases hu

section Moves

variable {s s' : System}

theorem Owns.mainMoves (h : s.client.Owns) (hbook : s.client.Book) (hmoves : s.MainMoves s') :
    s'.client.Owns := by
  cases hmoves with
  | @created mode timeout t main hmain hmade hmain' =>
      exact h.create hmain mode timeout hmade main
        (hmain'.imp (fun h => h.trans hmain.symm) fun hsizing => ⟨_, _, hsizing.1⟩)
  | goto hmain hcalm =>
      rcases hmain with hmain | ⟨w, hmain⟩
      all_goals exact h.calm rfl rfl rfl rfl (by rw [hmain]; exact id) (by simp [hmain]) hcalm
  | size hmain =>
      exact h.step rfl rfl rfl rfl (by rw [hmain]; exact id) (by simp [hmain])
        fun r hr => by rwa [hmain]
  | ask hmain hreq =>
      exact h.step rfl rfl rfl rfl (by rw [hmain]; exact id) (by simp [hmain])
        fun r hr => by rwa [hmain]
  | @answered r memorySize b answers hmain hanswers =>
      cases b
      · exact h.calm rfl rfl rfl rfl (by rw [hmain]; exact id) (by simp [hmain]) trivial
      · exact h.step rfl rfl rfl rfl (by rw [hmain]; exact id) (by simp [hmain])
          fun r hr => by rwa [hmain]
  | send hmain ht =>
      exact h.step rfl rfl rfl rfl (by rw [hmain]; exact id) (by simp [hmain])
        fun r hr => by rwa [hmain]
  | spawn hmain ht => exact h.spawn hmain ht
  | request hmain hreq =>
      exact h.step rfl rfl rfl rfl (by rw [hmain]; exact id) (by simp [hmain]) nofun
  | unanswered hmain hcalm =>
      exact h.calm rfl rfl rfl rfl (by rw [hmain]; exact id) (by simp [hmain]) hcalm
  | exchanged hmain hanswers hq hcalm =>
      exact h.calm rfl rfl rfl rfl (by rw [hmain]; exact id) (by simp [hmain]) hcalm
  | fails hmain hgone =>
      rcases hmain with ⟨r, n, hmain⟩ | ⟨r, hmain⟩ | ⟨q, k, hmain⟩
      all_goals exact h.calm rfl rfl rfl rfl (by rw [hmain]; exact id) (by simp [hmain]) trivial
  | setTimeOut hmain hpending ht => exact h.setTimeOut hmain ht
  | join hmain hpc hcalm => exact h.pop hbook hmain hcalm
  | destroy hmain hreq => exact h.destroy hmain
  | release hmain =>
      refine h.mono rfl rfl rfl rfl (fun hn => ?_) (fun _ => by simp [hmain]) (fun r hr => ?_)
        fun r w hw => by simp [hmain] at hw
      · simp only [release, goto, System.withClient] at hn
        split at hn <;> exact absurd trivial hn
      · simp only [release, goto, System.withClient] at hr
        split at hr <;> cases hr

theorem handleOutputs_kept {t t' : Transaction} (h : t.handleOutputs = .ok t') :
    t'.trans_id = t.trans_id ∧ t'.mTimeOut = t.mTimeOut := by
  simp only [Transaction.handleOutputs, Loops.bind_eq_ok, pure, Except.pure, Except.ok.injEq] at h
  obtain ⟨out, -, rfl⟩ := h
  exact ⟨rfl, rfl⟩

theorem Owns.waiterMoves {t : Transaction} (h : s.client.Owns) (ht : s.client.heap r = some t)
    (hmoves : s.WaiterMoves r t s') : s'.client.Owns := by
  have hgoto : ∀ {c c' : MgrClient}, c.Owns → c'.heap = c.heap → c'.transactions = c.transactions →
      c'.created = c.created → c'.pending_transactions = c.pending_transactions →
      c'.main = c.main → c'.Owns := by
    intro c c' h hheap htrans hcreated hpending hmain
    exact h.mono hheap htrans hcreated hpending (by rw [hmain]; exact id) (by rw [hmain]; exact id)
      (by rw [hmain]; exact fun _ => id) (by rw [hmain]; exact fun _ _ => id)
  cases hmoves with
  | lockQuery hpc hquery => exact hgoto h rfl rfl rfl rfl rfl
  | test hpc => exact hgoto h rfl rfl rfl rfl rfl
  | query hpc hreq => exact hgoto h rfl rfl rfl rfl rfl
  | queried hpc hanswers hpc' => exact hgoto h rfl rfl rfl rfl rfl
  | lockReq hpc hreq => exact hgoto h rfl rfl rfl rfl rfl
  | unlockQuery hpc => exact hgoto h rfl rfl rfl rfl rfl
  | wait hpc => exact hgoto h rfl rfl rfl rfl rfl
  | recvStatus hpc hanswers => exact hgoto h rfl rfl rfl rfl rfl
  | setStatus hpc =>
      refine hgoto (h.setTrans ht ?_ ?_) rfl rfl rfl rfl rfl
      · rfl
      · rfl
  | recvFromAie hpc hanswers =>
      refine hgoto (h.setTrans ht ?_ ?_) rfl rfl rfl rfl rfl
      · rfl
      · rfl
  | recvPerf hpc hanswers =>
      refine hgoto (h.setTrans ht ?_ ?_) rfl rfl rfl rfl rfl
      · rfl
      · rfl
  | unlockReq hpc => exact hgoto h rfl rfl rfl rfl rfl
  | handleOutputs hpc ht' =>
      obtain ⟨hid, htimeout⟩ := handleOutputs_kept ht'
      exact hgoto (h.setTrans ht hid htimeout) rfl rfl rfl rfl rfl
  | throws hpc hgone =>
      exact ⟨fun hn => absurd trivial hn, fun hn => absurd trivial hn, h.known,
        fun hn => absurd rfl hn⟩

/-! ### The invariant -/

theorem inv_new (setup : Setup) (graphs : Nat) : (new setup graphs).Inv where
  book := ⟨rfl, List.nodup_nil, nofun, fun _ hr => absurd rfl hr, nofun, nofun⟩
  locks := ⟨fun _ => iff_of_false nofun id, fun _ => iff_of_false nofun id,
    fun _ => iff_of_false nofun id⟩
  owns := ⟨fun _ => rfl, fun _ r hr => absurd hr (Nat.not_lt_zero r), nofun, nofun⟩

theorem Inv.step (h : s.client.Inv) {l : SystemLabel} (hstep : System.lts.step l s = some s') :
    s'.client.Inv := by
  rcases System.step_cases hstep with hserver | ⟨-, hmain⟩ | ⟨-, r, t, ht, hwaiter⟩
  · rw [hserver.client_eq]
    exact h
  · exact ⟨h.book.mainMoves hmain, h.locks.mainMoves h.book hmain, h.owns.mainMoves h.book hmain⟩
  · exact ⟨h.book.waiterMoves hwaiter, h.locks.waiterMoves hwaiter, h.owns.waiterMoves ht hwaiter⟩

theorem inv_of_run {setup : Setup} {graphs : Nat} {monitorInterval : UInt64}
    {C : SystemLabel → System → Prop}
    (hrun : System.lts.RunIf C (.new setup graphs monitorInterval) s) : s.client.Inv :=
  hrun.invariant (I := fun s => s.client.Inv) (fun _ _ _ h _ hstep => h.step hstep)
    (inv_new setup graphs)

end Moves

end MgrClient

end AieTestHarness
