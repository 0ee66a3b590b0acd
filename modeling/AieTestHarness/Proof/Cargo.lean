import AieTestHarness.Proof.Device
import AieTestHarness.Proof.Link

/-!
# What the server runs is what the client sent

The two queues hold the same transactions, in sizes and in contents: the configuration and the data
to the AIE reach the thread that is joined for the waiter that waits for it.
-/

namespace AieTestHarness

abbrev Cargo := List Nat × List UInt8

def Transaction.cargo (t : Transaction) : Cargo := (t.cfg_ptr, t.to_aie_ptr)

def MgrClient.cargo (c : MgrClient) (r : Ref) : Option Cargo := (c.heap r).map Transaction.cargo

def MgrServer.cargo (m : MgrServer) (a : Addr) : Option Cargo := (m.heap a).map Transaction.cargo

def Request.cargo : Request → List (Option Cargo)
  | .transaction _ _ _ q => [some (q.cfg_ptr, q.to_aie_ptr)]
  | _ => []

theorem cargo_eq_nil {m : Request} (h : ¬ m.IsTransaction) : m.cargo = [] := by
  cases m with
  | transaction => exact absurd trivial h
  | _ => rfl

theorem length_cargo (perf : Nat) (m : Request) : m.cargo.length = (m.keys perf).length := by
  cases m with
  | transaction => rfl
  | _ => rfl

theorem cargo_of_update {c c' : MgrClient} {r : Ref} {t t' : Transaction}
    (hheap : c'.heap = Function.update c.heap r (some t')) (ht : c.heap r = some t)
    (hcargo : t'.cargo = t.cargo) (ρ : Ref) : c'.cargo ρ = c.cargo ρ := by
  rw [MgrClient.cargo, MgrClient.cargo, hheap]
  by_cases hρ : ρ = r
  · rw [hρ, Function.update_self, ht, Option.map_some, Option.map_some, hcargo]
  · rw [Function.update_of_ne hρ]

theorem cargo_of_ne {c c' : MgrClient} {r ρ : Ref} {t' : Transaction}
    (hheap : c'.heap = Function.update c.heap r (some t')) (hρ : ρ ≠ r) :
    c'.cargo ρ = c.cargo ρ := by
  rw [MgrClient.cargo, MgrClient.cargo, hheap, Function.update_of_ne hρ]

namespace MgrServer

variable {m m' : MgrServer} {a : Addr} {t t' : Transaction} {d : Card} {given : Nat → PlBuffers}

theorem map_cargo_congr {l : List Addr} (h : ∀ b ∈ l, m'.heap b = m.heap b) :
    l.map m'.cargo = l.map m.cargo :=
  List.map_congr_left fun b hb => congrArg (Option.map Transaction.cargo) (h b hb)

theorem cargo_setTrans (ht : m.heap a = some t) (hcargo : t'.cargo = t.cargo) :
    (m.setTrans a t').cargo = m.cargo := by
  funext b
  change (Function.update m.heap a (some t') b).map Transaction.cargo = _
  by_cases hb : b = a
  · rw [hb, Function.update_self, cargo, ht, Option.map_some, Option.map_some, hcargo]
  · rw [Function.update_of_ne hb]
    rfl

theorem cargo_move (ht : m.heap a = some t) (hcargo : t'.cargo = t.cargo) (pc : PlPc) (f : FastXM)
    (mtx : Option Addr) (es : List Event) : (m.move a t' pc f mtx es).cargo = m.cargo :=
  cargo_setTrans ht hcargo

/-- What is read back into a transaction is what the run was given. -/
theorem cargo_withBuffers {f : FastXM} {r : Nat} (hf : f.OfCard d given)
    (hgiven : Given given f t r) :
    (t.withBuffers (f.mem r)).cargo = t.cargo := by
  obtain ⟨hcfg, hto⟩ := hf.inputs r hgiven.lt
  rw [hgiven.eq] at hcfg hto
  exact Prod.ext hcfg hto

theorem Worked.cargo_plStep (h : m.Worked d given) (hm : m.Inv) (ha : a ∈ m.pl_threads)
    (ht : m.heap a = some t) (hstep : m.plStep a t = some m') : m'.cargo = m.cargo := by
  have hwork := h.threads a ha t ht
  cases hpc : m.pc a with
  | waiting | passed =>
      simp only [MgrServer.plStep, hpc, Option.ite_none_right_eq_some, Option.some.injEq] at hstep
      rw [← hstep.2]
      rfl
  | locked | loop =>
      simp only [MgrServer.plStep, hpc, Option.some.injEq] at hstep
      rw [← hstep]
      rfl
  | started | fetched =>
      simp only [MgrServer.plStep, hpc, Option.some.injEq] at hstep
      rw [← hstep]
      exact cargo_setTrans ht rfl
  | polled r =>
      have hok := hm.threads.head a t (hm.head_of_pc ha (by simp [hpc])) ht
      rw [hpc] at hwork hok
      simp only [MgrServer.plStep, hpc, Option.some.injEq] at hstep
      rw [← hstep, fetch_goto_eq hok.holds ht]
      exact cargo_move ht (cargo_withBuffers h.device hwork.1) ..
  | decided r =>
      have hok := hm.threads.head a t (hm.head_of_pc ha (by simp [hpc])) ht
      rw [hpc] at hwork hok
      simp only [MgrServer.plStep, hpc, Option.some.injEq] at hstep
      rw [← hstep, fetch_finish_eq hok.1.holds ht]
      exact cargo_move ht (cargo_withBuffers h.device hwork.1) ..
  | polling | bounded | returned => simp [MgrServer.plStep, hpc] at hstep

theorem cargo_waitStep (ht : m.heap a = some t) {done : Bool}
    (hstep : m.waitStep a t done = some m') : m'.cargo = m.cargo := by
  rw [MgrServer.waitStep, Option.ite_none_right_eq_some] at hstep
  replace hstep := hstep.2
  split at hstep
  · rw [← Option.some.inj hstep]
    rfl
  · rw [← Option.some.inj hstep]
    exact cargo_setTrans ht rfl
  · cases hstep

theorem Worked.cargo_thread (h : m.Worked d given) (hm : m.Inv) {l : ServerLabel}
    (hl : (∃ a, l = .pl a) ∨ (∃ a done, l = .wait a done) ∨ (∃ r, l = .complete r)
      ∨ ∃ r perf from_aie, l = .write r perf from_aie)
    (hstep : lts.step l m = some m') : m'.cargo = m.cargo := by
  simp only [lts, Option.ite_none_left_eq_some] at hstep
  replace hstep := hstep.2
  rcases hl with ⟨a, rfl⟩ | ⟨a, done, rfl⟩ | ⟨r, rfl⟩ | ⟨r, perf, from_aie, rfl⟩
  · rw [Option.ite_none_right_eq_some, Option.bind_eq_some_iff] at hstep
    obtain ⟨ha, t, ht, hstep⟩ := hstep
    exact h.cargo_plStep hm ha ht hstep
  · rw [Option.ite_none_right_eq_some, Option.bind_eq_some_iff] at hstep
    obtain ⟨ha, t, ht, hstep⟩ := hstep
    exact cargo_waitStep ht hstep
  · rw [Option.ite_none_right_eq_some, Option.some.injEq] at hstep
    rw [← hstep.2]
    rfl
  · rw [Option.ite_none_right_eq_some, Option.some.injEq] at hstep
    rw [← hstep.2]
    rfl

end MgrServer

namespace System

variable {s s' : System} {r : Ref} {gone old rest : List Ref}

/-- What the server has been sent and not answered for. -/
def held (s : System) : List (Option Cargo) :=
  s.server.unserved.map s.server.cargo ++ s.toServer.flatMap Request.cargo

def Carries (s : System) : Prop :=
  s.held <:+ (s.client.pending_transactions ++ s.client.hand).map s.client.cargo

theorem length_held (s : System) : s.held.length = s.outstanding.length := by
  have hto : (s.toServer.flatMap Request.cargo).length
      = (s.toServer.flatMap (Request.keys s.perfWords)).length := by
    rw [List.length_flatMap, List.length_flatMap]
    exact congrArg List.sum (List.map_congr_left fun m _ => length_cargo s.perfWords m)
  rw [held, outstanding, carried, List.length_append, List.length_append, hto, List.length_map,
    List.length_map]

theorem Queue.length_held (h : s.Queue gone old rest) :
    s.held.length = (rest ++ s.client.hand).length := by
  rw [System.length_held, ← h.outstanding_eq, List.length_map]

theorem Queue.map_cargo (h : s.Queue gone old rest) :
    (rest ++ s.client.hand).map s.client.cargo
      <:+ (s.client.pending_transactions ++ s.client.hand).map s.client.cargo := by
  rw [h.pending_eq, List.append_assoc]
  exact (List.suffix_append old _).map _

theorem Carries.eq (h : s.Carries) (hqueue : s.Queue gone old rest) :
    s.held = (rest ++ s.client.hand).map s.client.cargo := by
  refine (List.suffix_of_suffix_length_le h hqueue.map_cargo ?_).eq_of_length ?_
  all_goals
    rw [List.length_map, hqueue.length_held]

/-! ### Steps of the client -/

theorem Carries.client (h : s.Carries) (hqueue : s.Queue gone old rest)
    (hserver : s'.server = s.server)
    (hto : s'.toServer.flatMap Request.cargo = s.toServer.flatMap Request.cargo)
    (hpending : s'.client.pending_transactions = s.client.pending_transactions)
    (hhand : s'.client.hand = s.client.hand)
    (hcargo : ∀ r ∈ rest ++ s.client.hand, s'.client.cargo r = s.client.cargo r) : s'.Carries := by
  have hheld : s'.held = s.held := by rw [held, held, hserver, hto]
  have hmap : s'.held = (rest ++ s.client.hand).map s'.client.cargo := by
    rw [hheld, h.eq hqueue]
    exact (List.map_congr_left hcargo).symm
  unfold Carries
  rw [hmap, hpending, hhand, hqueue.pending_eq, List.append_assoc]
  exact (List.suffix_append old _).map _

theorem flatMap_send {m : Request} (hm : ¬ m.IsTransaction) :
    (s.toServer ++ [m]).flatMap Request.cargo = s.toServer.flatMap Request.cargo := by
  rw [List.flatMap_append, List.flatMap_singleton, cargo_eq_nil hm, List.append_nil]

theorem Carries.send (h : s.Carries) {t : Transaction} (hmain : s.client.main = .accepted r)
    (ht : s.client.heap r = some t) :
    ((s.withClient (s.client.goto (.sent r))).send (MgrClient.payload t)).Carries := by
  have hhand : s.client.hand = [] := hand_of_not_sent (by simp [hmain])
  have hcargo : (MgrClient.payload t).cargo = [s.client.cargo r] := by
    rw [MgrClient.cargo, ht]
    rfl
  unfold Carries at h ⊢
  rw [hhand, List.append_nil] at h
  change s.server.unserved.map s.server.cargo ++ (s.toServer ++ [MgrClient.payload t]).flatMap _
    <:+ (s.client.pending_transactions ++ [r]).map s.client.cargo
  rw [List.flatMap_append, List.flatMap_singleton, hcargo, List.map_append, List.map_singleton,
    ← List.append_assoc]
  exact List.suffix_append_inj_of_length_eq rfl |>.mpr ⟨h, rfl⟩

theorem Carries.spawn (h : s.Carries) {t : Transaction} (hmain : s.client.main = .sent r)
    (ht : s.client.heap r = some t) : (s.withClient (s.client.spawn r t)).Carries := by
  have hhand : s.client.hand = [r] := by rw [MgrClient.hand, hmain]
  unfold Carries at h ⊢
  rw [hhand] at h
  have hcargo : (s.client.spawn r t).cargo = s.client.cargo := funext (cargo_of_update rfl ht rfl)
  change s.held <:+ _
  rw [withClient, hcargo]
  change s.held <:+ (s.client.pending_transactions ++ [r] ++ []).map s.client.cargo
  rw [List.append_nil]
  exact h

theorem Carries.join (h : s.Carries) {w : WaitForRes} {main : MainPc}
    (hmain : s.client.main = .joining r w) (hcalm : main.Calm)
    (hqueue' : (s.withClient (s.client.pop r main)).Queue gone old rest) :
    (s.withClient (s.client.pop r main)).Carries := by
  have hhand : s.client.hand = [] := hand_of_not_sent (by simp [hmain])
  have hhand' : (s.client.pop r main).hand = [] := hand_of_not_holds hcalm.not_holds
  unfold Carries at h ⊢
  rw [hhand, List.append_nil] at h
  change s.held <:+ (s.client.pending_transactions.tail ++ (s.client.pop r main).hand).map
    s.client.cargo
  rw [hhand', List.append_nil, List.map_tail]
  have hlen := hqueue'.length_held
  have htail : rest.length ≤ s.client.pending_transactions.tail.length := by
    have hpending := congrArg List.length hqueue'.pending_eq
    rw [List.length_append] at hpending
    change s.client.pending_transactions.tail.length = _ at hpending
    omega
  refine List.suffix_of_suffix_length_le h (List.tail_suffix _) ?_
  change s.held.length = (rest ++ (s.client.pop r main).hand).length at hlen
  rw [hlen, hhand', List.append_nil, ← List.map_tail, List.length_map]
  exact htail

theorem Carries.main (h : s.Carries) (hqueue : s.Queue gone old rest)
    (hserver : s'.server = s.server)
    (hto : s'.toServer.flatMap Request.cargo = s.toServer.flatMap Request.cargo)
    (hpending : s'.client.pending_transactions = s.client.pending_transactions)
    (hhand : s.client.hand = []) (hhand' : s'.client.hand = [])
    (hcargo : ∀ r ∈ s.client.pending_transactions, s'.client.cargo r = s.client.cargo r) :
    s'.Carries := by
  refine h.client hqueue hserver hto hpending (hhand'.trans hhand.symm) fun r hr => hcargo r ?_
  rw [hhand, List.append_nil] at hr
  rw [hqueue.pending_eq]
  exact List.mem_append_right old hr

theorem Carries.mainMoves (h : s.Carries) (hqueue : s.Queue gone old rest) (hc : s.client.Inv)
    (hsession : s.server.session ≠ .ended) (hover : ¬ s'.client.main.Over)
    (hqueue' : ∃ gone old rest, s'.Queue gone old rest) (hmoves : s.MainMoves s') : s'.Carries := by
  have hcalm : ∀ {c : MgrClient}, c.main.Calm → c.hand = [] := fun h =>
    hand_of_not_holds h.not_holds
  cases hmoves with
  | @created mode timeout t main hmain hmade hmain' =>
      refine h.main hqueue rfl rfl rfl (hand_of_not_sent (by simp [hmain])) (hand_of_not_sent ?_)
        fun r hr => ?_
      · rcases hmain' with rfl | ⟨rfl, -⟩ <;> exact nofun
      · have hne : r ≠ s.client.created := Nat.ne_of_lt (hc.book.known r hr)
        exact (cargo_of_ne (c := s.client.create mode timeout) rfl hne).trans (cargo_of_ne rfl hne)
  | goto hmain hcalm' =>
      refine h.main hqueue rfl rfl rfl ?_ (hcalm hcalm') fun _ _ => rfl
      rcases hmain with hmain | ⟨w, hmain⟩ <;> exact hand_of_not_sent (by simp [hmain])
  | size hmain =>
      exact h.main hqueue rfl rfl rfl (hand_of_not_sent (by simp [hmain])) rfl fun _ _ => rfl
  | ask hmain hreq =>
      exact h.main hqueue rfl (flatMap_send id) rfl (hand_of_not_sent (by simp [hmain])) rfl
        fun _ _ => rfl
  | @answered r memorySize b answers hmain hanswers =>
      cases b with
      | true =>
          exact h.main hqueue rfl rfl rfl (hand_of_not_sent (by simp [hmain])) rfl fun _ _ => rfl
      | false =>
          exact h.main hqueue rfl rfl rfl (hand_of_not_sent (by simp [hmain])) rfl fun _ _ => rfl
  | send hmain ht => exact h.send hmain ht
  | spawn hmain ht => exact h.spawn hmain ht
  | request hmain hreq =>
      exact h.main hqueue rfl (flatMap_send id) rfl (hand_of_not_sent (by simp [hmain])) rfl
        fun _ _ => rfl
  | unanswered hmain hcalm' =>
      exact h.main hqueue rfl rfl rfl (hand_of_not_sent (by simp [hmain])) (hcalm hcalm') fun _ _ =>
        rfl
  | exchanged hmain hanswers hq hcalm' =>
      exact h.main hqueue rfl rfl rfl (hand_of_not_sent (by simp [hmain])) (hcalm hcalm') fun _ _ =>
        rfl
  | fails hmain hgone => exact absurd hgone.1 hsession
  | setTimeOut hmain hpending ht =>
      exact h.main hqueue rfl rfl rfl (hand_of_not_sent (by simp [hmain])) rfl
        fun ρ _ => cargo_of_update rfl ht (by rfl) ρ
  | join hmain hpc hcalm' =>
      obtain ⟨gone', old', rest', hqueue'⟩ := hqueue'
      exact h.join hmain hcalm' hqueue'
  | destroy hmain hreq => exact absurd trivial hover
  | release hmain =>
      refine absurd ?_ hover
      change (s.client.release).main.Over
      unfold MgrClient.release MgrClient.goto
      split <;> trivial

theorem Carries.waiterMoves {t : Transaction} (h : s.Carries) (hqueue : s.Queue gone old rest)
    (hc : s.client.Inv) (ht : s.client.heap r = some t) (hsession : s.server.session ≠ .ended)
    (hmoves : s.WaiterMoves r t s') : s'.Carries := by
  have hpass : ∀ {s' : System}, s'.server = s.server →
      s'.toServer.flatMap Request.cargo = s.toServer.flatMap Request.cargo →
      s'.client.pending_transactions = s.client.pending_transactions →
      s'.client.main = s.client.main → s'.client.heap = s.client.heap → s'.Carries :=
    fun hserver hto hpending hmain hheap => h.client hqueue hserver hto hpending
      (by rw [MgrClient.hand, MgrClient.hand, hmain])
      fun ρ _ => congrArg (Option.map Transaction.cargo) (congrFun hheap ρ)
  cases hmoves with
  | lockQuery | test | queried | lockReq | unlockQuery | recvStatus | unlockReq =>
      exact hpass rfl rfl rfl rfl rfl
  | query | wait => exact hpass rfl (flatMap_send id) rfl rfl rfl
  | setStatus | recvFromAie | recvPerf =>
      exact h.client hqueue rfl rfl rfl rfl fun ρ _ => cargo_of_update rfl ht (by rfl) ρ
  | handleOutputs hpc ht' =>
      -- its buffers are emptied, but the server has answered for it
      have hans : s.Answered r := Or.inl (by rw [hpc]; trivial)
      refine h.client hqueue rfl rfl rfl rfl fun ρ hρ => cargo_of_ne rfl ?_
      rintro rfl
      exact hqueue.not_open hc.book (by simp [hpc]) hans hρ
  | throws hpc hgone => exact absurd hgone.1 hsession

/-! ### Steps of the server -/

theorem Carries.server (h : s.Carries) (hclient : s'.client = s.client) (hheld : s'.held = s.held) :
    s'.Carries := by
  unfold Carries
  rw [hclient, hheld]
  exact h

theorem Carries.serve (h : s.Carries) {m : Request} {requests : List Request}
    (hclient : s'.client = s.client) (hmap : s'.server.unserved.map s'.server.cargo
      = s.server.unserved.map s.server.cargo) (hto : s.toServer = m :: requests)
    (hto' : s'.toServer = requests) (hm : ¬ m.IsTransaction) : s'.Carries := by
  refine h.server hclient ?_
  rw [held, held, hmap, hto, hto', List.flatMap_cons, cargo_eq_nil hm, List.nil_append]

theorem Carries.received (h : s.Carries) (hm : s.server.Inv) {a : Addr} {n : UInt64} {umode : UInt8}
    {id timeout : UInt32} {q : MgrServer.Payload} {requests : List Request} {t : Transaction}
    (hsession : s.server.session = .created a n)
    (hto : s.toServer = .transaction umode id timeout q :: requests) :
    ({ s with server := s.server.spawn a (q.fill t), toServer := requests } : System).Carries := by
  obtain ⟨-, hnot⟩ := hm.book.transactions_of_created hsession
  have hself : (s.server.spawn a (q.fill t)).cargo a = some (q.cfg_ptr, q.to_aie_ptr) := by
    change (Function.update s.server.heap a (some (q.fill t)) a).map Transaction.cargo = _
    rw [Function.update_self]
    rfl
  refine h.server rfl ?_
  rw [held, held, MgrServer.unserved_of_ne (by simp [MgrServer.spawn]),
    MgrServer.unserved_of_ne (by simp [hsession]), hto, List.flatMap_cons]
  change (s.server.pl_threads ++ [a]).map (s.server.spawn a (q.fill t)).cargo ++ _ = _
  rw [List.map_append, List.map_singleton, hself, List.append_assoc]
  refine congrArg₂ (· ++ ·) (MgrServer.map_cargo_congr fun b hb => Function.update_of_ne ?_ ..) rfl
  rintro rfl
  exact hnot hb

theorem Carries.retired (h : s.Carries) (hm : s.server.Inv) {a : Addr} {t : Transaction}
    (hsession : s.server.session = .answered a) :
    ({ s with server := s.server.retire a t } : System).Carries := by
  have hok := hm.book.session_ok
  rw [hsession] at hok
  obtain ⟨threads, hthreads⟩ := List.head?_eq_some_iff.mp hok.1
  have hnodup := hm.book.threads_nodup
  rw [hthreads, List.nodup_cons] at hnodup
  have hunserved' : (s.server.retire a t).unserved = threads := by
    rw [MgrServer.unserved_of_ne (by simp [MgrServer.retire]), MgrServer.retire, hthreads,
      List.erase_cons_head]
  have hunserved : s.server.unserved = threads := by
    rw [MgrServer.unserved, hsession]
    exact congrArg List.tail hthreads
  refine h.server rfl ?_
  rw [held, held, hunserved, hunserved']
  refine congrArg₂ (· ++ ·) (MgrServer.map_cargo_congr fun b hb => Function.update_of_ne ?_ ..) rfl
  rintro rfl
  exact hnodup.1 hb

theorem Carries.joined (h : s.Carries) {a : Addr} {t : Transaction}
    (hsession : s.server.session = .joining a) {toClient : List Answer} :
    ({ s with server := s.server.answer a t, toClient } : System).Carries := by
  refine List.IsSuffix.trans ?_ h
  change s.server.pl_threads.tail.map s.server.cargo ++ s.toServer.flatMap Request.cargo <:+ s.held
  rw [held, MgrServer.unserved_of_ne (by simp [hsession])]
  exact List.suffix_append_inj_of_length_eq rfl |>.mpr ⟨(List.tail_suffix _).map _, rfl⟩

theorem Carries.serverMoves {d : Card} {given : Nat → PlBuffers} (h : s.Carries) (hm : s.server.Inv)
    (hworked : s.server.Worked d given) (hsession' : s'.server.session ≠ .ended)
    (hmoves : s.ServerMoves s') : s'.Carries := by
  cases hmoves with
  | ended hclient hserver => exact absurd (by rw [hserver]; rfl) hsession'
  | refused hsession hserver | queried hsession hserver => exact h.serve rfl rfl hserver rfl id
  | admitted hsession hserver =>
      refine h.serve rfl ?_ hserver rfl id
      rw [MgrServer.unserved_of_ne (by simp), MgrServer.unserved_of_ne (by simp [hsession])]
      rfl
  | @waits trans_id timeout requests a t hsession hserver ha ht hid =>
      refine h.serve rfl ?_ hserver rfl id
      rw [MgrServer.unserved_of_ne (by simp), MgrServer.unserved_of_ne (by simp [hsession])]
      exact congrArg (List.map · _) (MgrServer.cargo_setTrans ht rfl)
  | @other q requests hsession hserver =>
      cases q with
      | _ => exact h.serve rfl rfl hserver rfl id
  | @created a n umode id timeout q requests mode hsession hserver ha hid =>
      refine h.server rfl ?_
      rw [held, held, MgrServer.unserved_of_ne (by simp [MgrServer.accept]),
        MgrServer.unserved_of_ne (by simp [hsession])]
      refine congrArg₂ (· ++ ·) (MgrServer.map_cargo_congr fun b hb => ?_) rfl
      exact Function.update_of_ne (hm.book.ne_of_heap_none ha (hm.book.mem_transactions hb)) ..
  | received hsession hserver => exact h.received hm hsession hserver
  | joined hsession => exact h.joined hsession
  | retired hsession => exact h.retired hm hsession
  | thread hsession hstep hl =>
      have hframe := (MgrServer.threadMoves_of_step hm hl hstep).frame
      refine h.server rfl ?_
      rw [held, held, hworked.cargo_thread hm hl hstep, MgrServer.unserved, MgrServer.unserved,
        hframe.session_eq, hframe.pl_threads_eq]

end System

end AieTestHarness
