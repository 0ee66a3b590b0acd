import AieTestHarness.Proof.Delivery
import AieTestHarness.Proof.Link

/-!
# Waiters that go in turn

Nothing makes the waiters lock `query_mtx` in the order in which their transactions were started. As
long as they do, the transactions whose results have been asked for are the oldest ones, and the
waiter that holds `query_mtx` is that of the oldest of the others.
-/

namespace AieTestHarness

def WaiterPc.early : WaiterPc → Bool
  | .start | .test | .query | .querying | .leave | .locked => true
  | _ => false

namespace MgrClient

def oldest (c : MgrClient) : Option Ref :=
  c.pending_transactions.find? fun r => (c.pc r).early

structure Turn (c : MgrClient) : Prop where
  /-- Behind a transaction whose results have still to be asked for there are only such. -/
  ordered : c.pending_transactions.Pairwise fun ρ r => (c.pc ρ).early = true → (c.pc r).early = true
  holder : ∀ r, c.query_mtx = some r → c.oldest = some r

variable {c c' : MgrClient} {r : Ref}

theorem turn_new (setup : Setup) (graphs : Nat) : (new setup graphs).Turn :=
  ⟨.nil, fun _ hr => by cases hr⟩

theorem oldest_congr (hpending : c'.pending_transactions = c.pending_transactions)
    (hearly : ∀ r, (c'.pc r).early = (c.pc r).early) : c'.oldest = c.oldest := by
  simp only [oldest, hpending, hearly]

theorem Turn.congr (h : c.Turn) (hpending : c'.pending_transactions = c.pending_transactions)
    (hearly : ∀ r, (c'.pc r).early = (c.pc r).early) (hquery : c'.query_mtx = c.query_mtx) :
    c'.Turn where
  ordered := by
    simp only [hpending, hearly]
    exact h.ordered
  holder r hr := by
    rw [oldest_congr hpending hearly]
    exact h.holder r (hquery ▸ hr)

theorem early_update {f : Ref → WaiterPc} {pc : WaiterPc} (h : pc.early = (f r).early) (ρ : Ref) :
    (Function.update f r pc ρ).early = (f ρ).early := by
  by_cases hr : ρ = r
  · rw [hr, Function.update_self, h]
  · rw [Function.update_of_ne hr]

theorem Turn.waiter (h : c.Turn) (hpending : c'.pending_transactions = c.pending_transactions)
    {pc : WaiterPc} (hpc : c'.pc = Function.update c.pc r pc) (hearly : pc.early = (c.pc r).early)
    (hquery : c'.query_mtx = c.query_mtx) : c'.Turn :=
  h.congr hpending (fun ρ => by rw [hpc, early_update hearly]) hquery

theorem oldest_eq_some : c.oldest = some r ↔ (c.pc r).early = true ∧ ∃ asked rest,
    c.pending_transactions = asked ++ r :: rest ∧ ∀ ρ ∈ asked, (c.pc ρ).early = false := by
  rw [oldest, List.find?_eq_some_iff_append]
  simp only [Bool.not_eq_true']

theorem Turn.lockQuery (h : c.Turn) (hpc : c.pc r = .start) (holdest : c.oldest = some r) :
    ({ c.waiterGoto r .test with query_mtx := some r } : MgrClient).Turn := by
  have hearly : ∀ ρ, (({ c.waiterGoto r .test with query_mtx := some r } : MgrClient).pc ρ).early
      = (c.pc ρ).early := early_update (by rw [hpc]; rfl)
  have hturn : (c.waiterGoto r .test).Turn := h.congr rfl hearly rfl
  refine ⟨hturn.ordered, fun ρ hρ => ?_⟩
  obtain rfl : r = ρ := Option.some.inj hρ
  rw [← holdest]
  exact oldest_congr rfl hearly

theorem Turn.unlockQuery (h : c.Turn) (hpc : c.pc r = .locked) (hholder : c.query_mtx = some r)
    (hnodup : c.pending_transactions.Nodup) :
    ({ c.waiterGoto r .ask with query_mtx := none } : MgrClient).Turn := by
  obtain ⟨-, asked, rest, hpending, hasked⟩ := oldest_eq_some.mp (h.holder r hholder)
  have hordered := h.ordered
  rw [hpending] at hordered hnodup
  have hr : r ∉ rest := (List.nodup_cons.mp (List.nodup_append.mp hnodup).2.1).1
  have hsame : ∀ ρ, ρ ≠ r → (c.waiterGoto r .ask).pc ρ = c.pc ρ :=
    fun ρ hρ => Function.update_of_ne hρ ..
  have hself : (c.waiterGoto r .ask).pc r = .ask := Function.update_self ..
  refine ⟨?_, fun ρ hρ => by cases hρ⟩
  show c.pending_transactions.Pairwise fun ρ r' => ((c.waiterGoto r .ask).pc ρ).early = true →
    ((c.waiterGoto r .ask).pc r').early = true
  rw [hpending]
  obtain ⟨hfront, hback, hcross⟩ := List.pairwise_append.mp hordered
  have hnot : ∀ ρ ∈ asked, ((c.waiterGoto r .ask).pc ρ).early = false := by
    intro ρ hρ
    by_cases heq : ρ = r
    · rw [heq, hself]
      rfl
    · rw [hsame ρ heq]
      exact hasked ρ hρ
  refine List.pairwise_append.mpr ⟨?_, List.pairwise_cons.mpr ⟨?_, ?_⟩, ?_⟩
  · refine hfront.imp_of_mem fun {ρ ρ'} hρ _ _ he => ?_
    rw [hnot ρ hρ] at he
    cases he
  · intro ρ _ he
    rw [hself] at he
    cases he
  · refine (List.pairwise_cons.mp hback).2.imp_of_mem fun {ρ ρ'} hρ hρ' himp he => ?_
    rw [hsame ρ (by rintro rfl; exact hr hρ)] at he
    rw [hsame ρ' (by rintro rfl; exact hr hρ')]
    exact himp he
  · intro ρ hρ ρ' _ he
    rw [hnot ρ hρ] at he
    cases he

theorem Turn.spawn (h : c.Turn) (hbook : c.Book) (hmain : c.main = .sent r) (t : Transaction) :
    (c.spawn r t).Turn := by
  have hfresh : r ∉ c.pending_transactions := (hbook.fresh r (by rw [hmain]; rfl)).2
  have hsame : ∀ ρ ∈ c.pending_transactions, (c.spawn r t).pc ρ = c.pc ρ := fun ρ hρ =>
    Function.update_of_ne (by rintro rfl; exact hfresh hρ) ..
  have hself : (c.spawn r t).pc r = .start := Function.update_self ..
  refine ⟨?_, fun ρ hρ => ?_⟩
  · show (c.pending_transactions ++ [r]).Pairwise _
    refine List.pairwise_append.mpr ⟨?_, List.pairwise_singleton _ _, ?_⟩
    · refine h.ordered.imp_of_mem fun {ρ ρ'} hρ hρ' himp => ?_
      rw [hsame ρ hρ, hsame ρ' hρ']
      exact himp
    · intro ρ _ ρ' hρ' _
      rw [List.mem_singleton.mp hρ', hself]
      rfl
  · obtain ⟨he, asked, rest, hpending, hasked⟩ := oldest_eq_some.mp (h.holder ρ hρ)
    have hmem : ∀ x ∈ asked ++ ρ :: rest, x ∈ c.pending_transactions := by simp [hpending]
    refine oldest_eq_some.mpr ⟨?_, asked, rest ++ [r], ?_, fun x hx => ?_⟩
    · rw [hsame ρ (hmem ρ (by simp))]
      exact he
    · show c.pending_transactions ++ [r] = _
      rw [hpending, List.append_assoc, List.cons_append]
    · rw [hsame x (hmem x (by simp [hx]))]
      exact hasked x hx

theorem Turn.pop (h : c.Turn) (hbook : c.Book) {w : WaitForRes} (hmain : c.main = .joining r w)
    (hpc : c.pc r = .returned) (main : MainPc) : (c.pop r main).Turn := by
  obtain ⟨rest, hpending⟩ := List.head?_eq_some_iff.mp (hbook.joining r w hmain)
  refine ⟨?_, fun ρ hρ => ?_⟩
  · exact h.ordered.tail
  · rw [← h.holder ρ hρ]
    show c.pending_transactions.tail.find? _ = c.pending_transactions.find? _
    rw [hpending, List.tail_cons, List.find?_cons, hpc]
    rfl

end MgrClient

namespace System

open MgrClient

variable {s s' : System} {r : Ref} {l : SystemLabel}

/-- No transaction on its way to the server has this id, and none the server has ever had. -/
def Unknown (s : System) (trans_id : UInt32) : Prop :=
  s.server.id2trans trans_id.toNat = none
    ∧ ∀ umode id timeout q, .transaction umode id timeout q ∈ s.toServer → id ≠ trans_id

/-- A waiter locks `query_mtx` for the oldest transaction whose results have still to be asked for,
and a transaction is offered under an id that has not been used. -/
def InTurn : SystemLabel → System → Prop
  | .lockQuery r, s => s.client.oldest = some r
  | .ask, s => ∀ r memorySize, s.client.main = .sizing r [] memorySize → s.Unknown (transId r)
  | _, _ => True

def testInTurn : SystemLabel → System → Bool
  | .lockQuery r, s => s.client.oldest = some r
  | .ask, s =>
    match s.client.main with
    | .sizing r [] _ => (s.server.id2trans (transId r).toNat).isNone && s.toServer.isEmpty
    | _ => true
  | _, _ => true

theorem inTurn_of_test (h : testInTurn l s = true) : InTurn l s := by
  cases l with
  | lockQuery r => exact (of_decide_eq_true h : s.client.oldest = some r)
  | ask =>
      intro r memorySize hmain
      simp only [testInTurn, hmain, Bool.and_eq_true, Option.isNone_iff_eq_none,
        List.isEmpty_iff] at h
      refine ⟨h.1, fun umode id timeout q hmem => ?_⟩
      rw [h.2] at hmem
      cases hmem
  | _ => trivial

/-- A statement in turn that is no call of the main thread. -/
def Onward (l : SystemLabel) (s : System) : Prop := InTurn l s ∧ l.isCall = false

theorem lockQuery_of_step (hstep : lts.step l s = some s') (hpc : s.client.pc r = .start)
    (hpc' : s'.client.pc r = .test) : l = .lockQuery r := by
  obtain ⟨hl, hstep⟩ := waiterStep_of_step (r := r) hstep (by rw [hpc, hpc']; decide)
    (by rw [hpc']; decide)
  obtain ⟨t, ht, -⟩ := waiterMoves_of_waiterStep hstep
  rw [waiterStep, ht] at hstep
  cases l <;> simp only [waiterOf, reduceCtorEq, Option.some.injEq] at hl <;> subst hl
  all_goals simp only [queryStep, resultStep, hpc, reduceCtorEq, false_and, if_false] at hstep
  rfl

theorem Turn.mainMoves (h : s.client.Turn) (hbook : s.client.Book) (hmoves : s.MainMoves s') :
    s'.client.Turn := by
  cases hmoves with
  | @answered r memorySize b answers hmain hanswers =>
      cases b <;> exact h.congr rfl (fun _ => rfl) rfl
  | spawn hmain ht => exact h.spawn hbook hmain _
  | join hmain hpc hcalm => exact h.pop hbook hmain hpc _
  | _ => exact h.congr rfl (fun _ => rfl) rfl

theorem Turn.waiterMoves {t : Transaction} (h : s.client.Turn) (hc : s.client.Inv)
    (hstep : lts.step l s = some s') (hl : InTurn l s) (hmoves : s.WaiterMoves r t s') :
    s'.client.Turn := by
  cases hmoves with
  | lockQuery hpc hquery =>
      have hlabel : l = .lockQuery r := lockQuery_of_step hstep hpc (Function.update_self ..)
      subst hlabel
      exact h.lockQuery hpc hl
  | test hpc =>
      refine h.waiter rfl rfl ?_ rfl
      rw [hpc]
      split <;> rfl
  | queried hpc hanswers hpc' =>
      refine h.waiter rfl rfl ?_ rfl
      rw [hpc, hpc']
      split <;> rfl
  | unlockQuery hpc =>
      exact h.unlockQuery hpc ((hc.locks.query r).mpr (by rw [hpc]; trivial)) hc.book.nodup
  | throws => exact h.congr rfl (fun _ => rfl) rfl
  | query hpc | lockReq hpc | wait hpc | recvStatus hpc | setStatus hpc | recvFromAie hpc
  | recvPerf hpc | unlockReq hpc | handleOutputs hpc =>
      exact h.waiter rfl rfl (by rw [hpc]; rfl) rfl

theorem Turn.step (h : s.client.Turn) (hc : s.client.Inv) (hl : InTurn l s)
    (hstep : lts.step l s = some s') : s'.client.Turn := by
  rcases step_cases hstep with hmoves | ⟨-, hmoves⟩ | ⟨-, r, t, -, hmoves⟩
  · rw [hmoves.client_eq]
    exact h
  · exact Turn.mainMoves h hc.book hmoves
  · exact Turn.waiterMoves h hc hstep hl hmoves

variable {setup : Setup} {graphs : Nat} {monitorInterval : UInt64}

theorem turn_of_run (hrun : lts.RunIf InTurn (.new setup graphs monitorInterval) s) :
    s.client.Turn :=
  hrun.invariant_of (I := fun s => s.client.Turn) (J := fun s => s.client.Inv)
    (fun _ hrun => MgrClient.inv_of_run hrun)
    (fun _ _ _ hc h hl hstep => Turn.step h hc hl hstep) (turn_new setup graphs)

end System

end AieTestHarness
