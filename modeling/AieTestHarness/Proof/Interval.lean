import AieTestHarness.Proof.Rejection

/-!
# The interval of the watchdog during `waitForRes`

The call reads the interval, raises it and sets it again when it has waited. A request to set it has
no answer, so the client is ahead of the server: the last request on its way says what the interval
will be. Each statement of the call brings it nearer to its end.
-/

namespace AieTestHarness

def Request.interval (monitorInterval : UInt64) : Request → UInt64
  | .other (.setTimeOut t) => t
  | _ => monitorInterval

/-- Behind its exchanges about the interval, `waitForRes` waits until it sets the interval again. -/
def MainPc.Waits : MainPc → Prop
  | .loop _ | .joining _ _ | .exchange (.waitForGraph _) (.graphs _)
  | .exchanging (.waitForGraph _) (.graphs _) | .exchange (.setTimeOut _) .done => True
  | _ => False

/-- The interval that should be in force meanwhile: `S + ⌈timeout_millisec / 1000⌉`, or `S` where
one of them is zero. -/
def waitInterval (S : UInt64) (timeout_millisec : UInt32) : Nat :=
  if S ≠ 0 ∧ timeout_millisec ≠ 0 then S.toNat + (timeout_millisec.toNat + 999) / 1000 else S.toNat

/-- How many statements are left of the call, but for those of the loop. -/
def MainPc.left : MainPc → Nat
  | .exchange _ (.asked _ _) => 10
  | .exchanging _ (.asked _ _) => 9
  | .exchange _ (.raised _) => 8
  | .exchanging _ (.raised _) => 7
  | .loop _ => 6
  | .joining _ _ => 5
  | .exchange _ (.graphs _) => 4
  | .exchanging _ (.graphs _) => 3
  | .exchange _ .done => 2
  | .exchanging _ .done => 1
  | _ => 0

/-- How many statements are left of the call at most: two for each transaction it may join. -/
def MgrClient.left (c : MgrClient) : Nat := c.main.left + 2 * c.pending_transactions.length

namespace System

variable {s s' : System} {S : UInt64} {timeout num_trans : UInt32}

/-- The server's interval is `n`, or the last request on its way that sets it makes it `n`. -/
def HasInterval (s : System) (n : Nat) : Prop :=
  (∀ t, .other (.setTimeOut t) ∉ s.toServer) ∧ s.monitorInterval.toNat = n
    ∨ ∃ front t back, s.toServer = front ++ .other (.setTimeOut t) :: back
      ∧ (∀ t', .other (.setTimeOut t') ∉ back) ∧ t.toNat = n

/-- What is asked of a step of the call. It returns behind its last exchange and nowhere else. -/
structure Watched (S : UInt64) (timeout : UInt32) (s s' : System) : Prop where
  waits : s'.client.main.Waits → s'.HasInterval (waitInterval S timeout)
  returns : s.client.main ≠ .idle → s'.client.main = .idle →
    (∃ t, s.client.main = .exchanging (.setTimeOut t) .done) ∧ s'.HasInterval S.toNat

/-! ### What is sent -/

def interval (s : System) : UInt64 := s.toServer.foldl Request.interval s.monitorInterval

theorem interval_send (s : System) (m : Request) : (s.send m).interval = m.interval s.interval := by
  unfold interval send
  rw [List.foldl_append]
  rfl

def Told (s : System) : Prop := ∀ t, .timeout_seconds t ∈ s.toClient → t = s.interval

structure Unset (s s' : System) : Prop where
  main_eq : s'.client.main = s.client.main
  pending_eq : s'.client.pending_transactions = s.client.pending_transactions
  interval_eq : s'.interval = s.interval
  told : ∀ t, .timeout_seconds t ∈ s'.toClient → .timeout_seconds t ∈ s.toClient ∨ t = s.interval

theorem unset_of_waiterMoves {r : Ref} {t : Transaction} (h : s.WaiterMoves r t s')
    (halive : s.server.session ≠ .ended) : s.Unset s' := by
  have htail : ∀ {m : Answer} {answers : List Answer}, s.toClient = m :: answers →
      ∀ t, Answer.timeout_seconds t ∈ s.toClient.tail →
        .timeout_seconds t ∈ s.toClient ∨ t = s.interval :=
    fun _ _ ht => Or.inl (List.mem_of_mem_tail ht)
  cases h with
  | query hpc hreq => exact ⟨rfl, rfl, interval_send _ _, fun _ => Or.inl⟩
  | wait hpc => exact ⟨rfl, rfl, interval_send _ _, fun _ => Or.inl⟩
  | queried hpc hanswers => exact ⟨rfl, rfl, rfl, htail hanswers⟩
  | recvStatus hpc hanswers => exact ⟨rfl, rfl, rfl, htail hanswers⟩
  | recvFromAie hpc hanswers => exact ⟨rfl, rfl, rfl, htail hanswers⟩
  | recvPerf hpc hanswers => exact ⟨rfl, rfl, rfl, htail hanswers⟩
  | throws hpc hgone => exact absurd hgone.1 halive
  | _ => exact ⟨rfl, rfl, rfl, fun _ => Or.inl⟩

theorem unset_of_served {m : Request} {rest : List Request} {answers : List Answer}
    (hserver : s.toServer = m :: rest) (hm : m.interval s.monitorInterval = s.monitorInterval)
    (hmain : s'.client = s.client) (hto : s'.toServer = rest)
    (hinterval : s'.monitorInterval = s.monitorInterval) (hcl : s'.toClient = s.toClient ++ answers)
    (hnot : ∀ t, .timeout_seconds t ∈ answers → t = s.interval) : s.Unset s' where
  main_eq := by rw [hmain]
  pending_eq := by rw [hmain]
  interval_eq := by rw [interval, interval, hto, hinterval, hserver, List.foldl_cons, hm]
  told t ht := by
    rw [hcl, List.mem_append] at ht
    exact ht.imp id (hnot t)

theorem unset_of_serverMoves (h : s.ServerMoves s') (hwire : s.Wire)
    (halive : s'.server.session ≠ .ended) : s.Unset s' := by
  have hkeep : ∀ {answers : List Answer}, (∀ t, .timeout_seconds t ∉ answers) →
      ∀ t, Answer.timeout_seconds t ∈ s.toClient ++ answers →
        .timeout_seconds t ∈ s.toClient ∨ t = s.interval := by
    intro answers hnot t ht
    exact (List.mem_append.mp ht).imp id fun hmem => absurd hmem (hnot t)
  cases h with
  | ended hclient hserver => exact absurd (by rw [hserver]; rfl) halive
  | refused hsession hserver hgt =>
      exact unset_of_served hserver rfl rfl rfl rfl rfl (by simp)
  | admitted hsession hserver hle =>
      exact unset_of_served hserver rfl rfl rfl rfl rfl (by simp)
  | queried hsession hserver ha ht =>
      exact unset_of_served hserver rfl rfl rfl rfl rfl (by simp)
  | waits hsession hserver ha ht hid =>
      exact unset_of_served hserver rfl rfl rfl rfl (List.append_nil _).symm (by simp)
  | @other q rest hsession hserver =>
      cases q with
      | runAIEGraph g_idx iters =>
          exact unset_of_served hserver rfl rfl rfl rfl rfl (by simp)
      | waitForGraph t => exact unset_of_served hserver rfl rfl rfl rfl rfl (by simp)
      | getTimeOut =>
          have hnil : rest = [] := hwire.rest_eq_nil hserver (List.cons_ne_nil _ _)
          refine unset_of_served hserver rfl rfl rfl rfl rfl fun t ht => ?_
          cases List.mem_singleton.mp ht
          rw [interval, hserver, hnil]
          rfl
      | setTimeOut t =>
          refine ⟨rfl, rfl, ?_, fun _ => Or.inl⟩
          unfold interval
          rw [hserver]
          rfl
  | created hsession hserver ha hid => exact ⟨rfl, rfl, rfl, fun _ => Or.inl⟩
  | received hsession hserver ht hq hsize =>
      exact unset_of_served hserver rfl rfl rfl rfl (List.append_nil _).symm (by simp)
  | joined hsession hpc ht => exact ⟨rfl, rfl, rfl, hkeep (by simp)⟩
  | retired hsession ht => exact ⟨rfl, rfl, rfl, fun _ => Or.inl⟩
  | thread hsession hstep hl => exact ⟨rfl, rfl, rfl, fun _ => Or.inl⟩

theorem Told.unset (h : s.Told) (hunset : s.Unset s') : s'.Told := by
  intro t ht
  rw [hunset.interval_eq]
  exact (hunset.told t ht).elim (h t) id

theorem told_of_mainMoves (h : s.Told) (hmoves : s.MainMoves s') (hwire : s.Wire) : s'.Told := by
  cases hmoves with
  | ask hmain hreq =>
      intro t ht
      rw [interval_send]
      exact h t ht
  | send hmain ht =>
      intro t ht
      rw [interval_send]
      exact h t ht
  | destroy hmain hreq =>
      intro t ht
      rw [interval_send]
      exact h t ht
  | @request q k hmain hreq =>
      intro t ht
      replace ht : .timeout_seconds t ∈ s.toClient := ht
      rw [(hwire.silent (due_of_none hreq)).1] at ht
      cases ht
  | answered hmain hanswers => exact fun t ht => h t (List.mem_of_mem_tail ht)
  | exchanged hmain hanswers => exact fun t ht => h t (List.mem_of_mem_tail ht)
  | _ => exact h

theorem told_of_run {setup : Setup} {graphs : Nat} {monitorInterval : UInt64}
    (hrun : lts.Run (new setup graphs monitorInterval) s) (halive : s.server.session ≠ .ended) :
    s.Told := by
  refine hrun.invariant_of (I := fun s => s.server.session ≠ .ended → s.Told)
    (J := fun s => s.server.session ≠ .ended → s.Wire) (fun s hs => wire_of_run hs) ?_ ?_ halive
  · intro l s s' hwire htold _ hstep halive'
    have halive := session_ne_of_step hstep halive'
    rcases step_cases hstep with hserver | ⟨-, hmain⟩ | ⟨-, r, t, -, hwaiter⟩
    · exact (htold halive).unset (unset_of_serverMoves hserver (hwire halive) halive')
    · exact told_of_mainMoves (htold halive) hmain (hwire halive)
    · exact (htold halive).unset (unset_of_waiterMoves hwaiter halive)
  · rintro _ t ⟨⟩

/-! ### The statements of the call -/

def raised (S : UInt64) (timeout : UInt32) : UInt64 :=
  if MgrClient.seconds timeout ≠ 0 ∧ S ≠ 0 then MgrClient.seconds timeout + S else S

/-- Where a call of `waitForRes` can stand, the interval having been `S` when it began. -/
def InCall (S : UInt64) (timeout : UInt32) (interval : UInt64) : MainPc → Prop
  | .exchange .getTimeOut (.asked t _) | .exchanging .getTimeOut (.asked t _) =>
    t = timeout ∧ interval = S
  | .exchange (.setTimeOut t) (.raised w) => t = raised S timeout ∧ w.server_timeout = S
  | .exchanging (.setTimeOut _) (.raised w) | .loop w | .joining _ w
  | .exchange (.waitForGraph _) (.graphs w) | .exchanging (.waitForGraph _) (.graphs w) =>
    interval = raised S timeout ∧ w.server_timeout = S
  | .exchange (.setTimeOut t) .done => interval = raised S timeout ∧ t = S ∧ S ≠ 0
  | .exchanging (.setTimeOut t) .done => interval = S ∧ t = S ∧ S ≠ 0
  | .idle => True
  | _ => False

/-- The call is left behind the last exchange, or `setServerTimeOut` refuses a zero. -/
def Leaves (S : UInt64) (timeout : UInt32) (s s' : System) : Prop :=
  s.client.main ≠ .idle → s'.client.main = .idle →
    ((∃ t, s.client.main = .exchanging (.setTimeOut t) .done) ∧ s'.interval = S) ∨ S = 0
      ∨ raised S timeout = 0

structure Proceeds (S : UInt64) (timeout : UInt32) (s s' : System) : Prop where
  inCall : InCall S timeout s'.interval s'.client.main
  leaves : s.Leaves S timeout s'
  left_lt : s'.client.left < s.client.left

structure Goes (S : UInt64) (timeout : UInt32) (i : UInt64) (refused : Prop) (left : Nat)
    (c c' : MgrClient) : Prop where
  inCall : InCall S timeout i c'.main
  refuses : c'.main = .idle → refused
  left_le : c'.main.left ≤ left
  pending_eq : c'.pending_transactions = c.pending_transactions

theorem goes_restore {c : MgrClient} {w : WaitForRes} {i : UInt64} (hi : i = raised S timeout)
    (hw : w.server_timeout = S) :
    Goes S timeout i (S = 0) 2 c (c.setServerTimeOut w.server_timeout .done) := by
  unfold MgrClient.setServerTimeOut
  split
  · rename_i hzero
    exact ⟨trivial, fun _ => hw.symm.trans hzero, Nat.zero_le _, rfl⟩
  · rename_i hne
    exact ⟨⟨hi, hw, hw ▸ hne⟩, (by rintro ⟨⟩), Nat.le_refl _, rfl⟩

theorem goes_leaveLoop {c : MgrClient} {w : WaitForRes} {i : UInt64} (hi : i = raised S timeout)
    (hw : w.server_timeout = S) : Goes S timeout i (S = 0) 4 c (c.leaveLoop w) := by
  unfold MgrClient.leaveLoop
  split
  · exact ⟨⟨hi, hw⟩, (by rintro ⟨⟩), Nat.le_refl _, rfl⟩
  · have hgoes := goes_restore (c := c) hi hw
    exact ⟨hgoes.inCall, hgoes.refuses, hgoes.left_le.trans (by decide), hgoes.pending_eq⟩

theorem goes_enter (c : MgrClient) (num_trans : UInt32) {i : UInt64} (hi : i = S) :
    Goes S timeout i (raised S timeout = 0) 8 c (c.enter timeout num_trans S) := by
  unfold MgrClient.enter
  dsimp only
  split
  · rename_i hraises
    have hraised : raised S timeout = MgrClient.seconds timeout + S := if_pos hraises
    unfold MgrClient.setServerTimeOut
    split
    · rename_i hzero
      exact ⟨trivial, fun _ => hraised.trans hzero, Nat.zero_le _, rfl⟩
    · exact ⟨⟨hraised.symm, rfl⟩, (by rintro ⟨⟩), Nat.le_refl _, rfl⟩
  · rename_i hnot
    have hraised : raised S timeout = S := if_neg hnot
    exact ⟨⟨hi.trans hraised.symm, rfl⟩, (by rintro ⟨⟩), (by decide : 6 ≤ 8), rfl⟩

theorem Goes.left_le' {i : UInt64} {refused : Prop} {left : Nat} {c c' : MgrClient}
    (h : Goes S timeout i refused left c c') :
    c'.left ≤ left + 2 * c.pending_transactions.length := by
  rw [MgrClient.left, h.pending_eq]
  exact Nat.add_le_add_right h.left_le _

theorem Goes.proceeds {refused : Prop} {left : Nat} {c : MgrClient}
    (h : Goes S timeout s'.interval refused left c s'.client)
    (hrefused : refused → S = 0 ∨ raised S timeout = 0)
    (hlt : left + 2 * c.pending_transactions.length < s.client.left) : s.Proceeds S timeout s' :=
  ⟨h.inCall, fun _ hidle => Or.inr (hrefused (h.refuses hidle)), h.left_le'.trans_lt hlt⟩

theorem proceeds_of_request {q : OtherRequest} {k : After}
    (h : InCall S timeout s.interval (.exchange q k)) (hmain : s.client.main = .exchange q k) :
    s.Proceeds S timeout
      ((s.withClient ((s.client.lockReq .main).goto (.exchanging q k))).send (.other q)) := by
  have hleft : (MainPc.exchanging q k).left < (MainPc.exchange q k).left := by
    cases k <;> simp only [MainPc.left] <;> decide
  refine ⟨?_, (by rintro _ ⟨⟩), ?_⟩
  · rw [interval_send]
    cases q <;> cases k <;> first
      | exact h
      | exact ⟨h.2.1, h.2⟩
  · rw [MgrClient.left, MgrClient.left, hmain]
    exact Nat.add_lt_add_right hleft _

theorem proceeds_of_sent {t : UInt64} {k : After} {c : MgrClient}
    (h : InCall S timeout s.interval (.exchanging (.setTimeOut t) k))
    (hmain : s.client.main = .exchanging (.setTimeOut t) k)
    (hc : s.client.exchanged (.setTimeOut t) k none = some c) :
    s.Proceeds S timeout (s.withClient c) := by
  cases hc
  cases k with
  | done =>
      refine ⟨trivial, fun _ _ => Or.inl ⟨⟨t, hmain⟩, h.1⟩, ?_⟩
      rw [MgrClient.left, MgrClient.left, hmain]
      exact Nat.add_lt_add_right Nat.one_pos _
  | raised w =>
      refine ⟨h, (by rintro _ ⟨⟩), ?_⟩
      rw [MgrClient.left, MgrClient.left, hmain]
      exact Nat.add_lt_add_right (by decide : 6 < 7) _
  | asked t' n => exact absurd h id
  | graphs w => exact absurd h id

theorem proceeds_of_answered {q : OtherRequest} {k : After} {answer : Answer} {c : MgrClient}
    (h : InCall S timeout s.interval (.exchanging q k)) (hmain : s.client.main = .exchanging q k)
    (htold : ∀ t, answer = .timeout_seconds t → t = s.interval)
    (hc : s.client.exchanged q k (some answer) = some c) :
    s.Proceeds S timeout (s.withClient c).taken := by
  cases q <;> cases k <;> first
    | exact absurd h id
    | cases answer <;> simp only [MgrClient.exchanged, Option.some.injEq, reduceCtorEq] at hc
  case getTimeOut.asked.timeout_seconds t' n t =>
    obtain rfl : t = S := (htold t rfl).trans h.2
    obtain rfl := h.1
    subst hc
    refine Goes.proceeds (goes_enter s.client.unlockReq n h.2) Or.inr ?_
    rw [MgrClient.left, hmain]
    exact Nat.add_lt_add_right (by decide : 8 < 9) _
  case waitForGraph.graphs.graph_started v =>
    subst hc
    refine Goes.proceeds
      (goes_restore (c := { s.client.unlockReq with graph_started := v }) h.1 h.2) Or.inl ?_
    rw [MgrClient.left, hmain]
    exact Nat.add_lt_add_right (by decide : 2 < 3) _

theorem proceeds_of_loop {w : WaitForRes} (h : InCall S timeout s.interval (.loop w))
    (hmain : s.client.main = .loop w) :
    s.Proceeds S timeout (s.withClient (s.client.leaveLoop w)) := by
  refine Goes.proceeds (goes_leaveLoop (c := s.client) h.1 h.2) Or.inl ?_
  rw [MgrClient.left, hmain]
  exact Nat.add_lt_add_right (by decide : 4 < 6) _

theorem proceeds_of_join {r : Ref} {w : WaitForRes} (h : InCall S timeout s.interval (.joining r w))
    (hbook : s.client.Book) (hmain : s.client.main = .joining r w) :
    s.Proceeds S timeout (s.withClient (s.client.join w r)) := by
  let c : MgrClient := { s.client with
    pending_transactions := s.client.pending_transactions.tail
    transaction_threads := s.client.transaction_threads.erase r }
  have hpopped : c.pending_transactions.length + 1 = s.client.pending_transactions.length := by
    obtain ⟨rest, hpending⟩ := List.head?_eq_some_iff.mp (hbook.joining r w hmain)
    simp only [c, hpending, List.tail_cons, List.length_cons]
  have hleft : s.client.left = 5 + 2 * s.client.pending_transactions.length := by
    rw [MgrClient.left, hmain]
    rfl
  unfold MgrClient.join
  dsimp only
  split
  · exact Goes.proceeds (goes_leaveLoop (c := c) (w := { w with all := w.all - 1 }) h.1 h.2) Or.inl
      (by omega)
  · refine ⟨h, (by rintro _ ⟨⟩), ?_⟩
    have hloop : (c.goto (.loop { w with all := w.all - 1 })).left
        = 6 + 2 * c.pending_transactions.length := rfl
    exact hloop.trans_lt (by omega)

theorem proceeds_of_mainStep {l : SystemLabel} (h : InCall S timeout s.interval s.client.main)
    (hbook : s.client.Book) (htold : s.Told) (halive : s.server.session ≠ .ended)
    (hl : l.isCall = false) (hstep : s.mainStep l = some s') : s.Proceeds S timeout s' := by
  cases l
  all_goals first
    | exact Bool.noConfusion hl
    | simp only [mainStep, runStep, exchangeStep, waitStep, reduceCtorEq] at hstep
  case size | ask | send | spawn =>
    split at hstep
    · rename_i hmain
      rw [hmain] at h
      exact absurd h id
    · cases hstep
  case answered =>
    split at hstep
    · rename_i hmain _
      rw [hmain] at h
      exact absurd h id
    · cases hstep
  case release =>
    rw [Option.ite_none_right_eq_some] at hstep
    rw [hstep.1] at h
    exact absurd h id
  case request =>
    split at hstep
    · rename_i q k hmain
      rw [Option.ite_none_right_eq_some] at hstep
      obtain ⟨-, hstep⟩ := hstep
      cases hstep
      exact proceeds_of_request (hmain ▸ h) hmain
    · cases hstep
  case exchanged =>
    split at hstep
    · rename_i t k hmain
      obtain ⟨c, hc, rfl⟩ := Option.map_eq_some_iff.mp hstep
      exact proceeds_of_sent (hmain ▸ h) hmain hc
    · rename_i q k _ hmain
      split at hstep
      · rename_i answer answers hanswers
        obtain ⟨c, hc, rfl⟩ := Option.map_eq_some_iff.mp hstep
        refine proceeds_of_answered (hmain ▸ h) hmain (fun t ht => htold t ?_) hc
        rw [hanswers, ht]
        exact List.mem_cons_self
      · cases hstep
    · cases hstep
  case fails =>
    have hgone : ¬ s.Gone := fun hgone => halive hgone.1
    simp only [hgone, if_false] at hstep
    split at hstep <;> cases hstep
  case loop =>
    split at hstep
    · rename_i w hmain
      rw [hmain] at h
      split at hstep
      · cases hstep
        exact proceeds_of_loop h hmain
      · obtain ⟨t, ht, rfl⟩ := Option.map_eq_some_iff.mp hstep
        refine ⟨h, (by rintro _ ⟨⟩), ?_⟩
        rw [MgrClient.left, MgrClient.left, hmain]
        exact Nat.add_lt_add_right (by decide : 5 < 6) _
    · cases hstep
  case join =>
    split at hstep
    · rename_i r w hmain
      rw [Option.ite_none_right_eq_some] at hstep
      obtain ⟨-, hstep⟩ := hstep
      cases hstep
      exact proceeds_of_join (hmain ▸ h) hbook hmain
    · cases hstep

theorem Unset.inCall (h : InCall S timeout s.interval s.client.main) (hunset : s.Unset s') :
    InCall S timeout s'.interval s'.client.main := by
  rw [hunset.interval_eq, hunset.main_eq]
  exact h

theorem proceeds_or_unset {l : SystemLabel} (h : InCall S timeout s.interval s.client.main)
    (hbook : s.client.Book) (hwire : s.Wire) (htold : s.Told) (hl : l.isCall = false)
    (hstep : lts.step l s = some s') (halive' : s'.server.session ≠ .ended) :
    (s.client.main ≠ .idle ∧ s.Proceeds S timeout s') ∨ s.Unset s' := by
  have halive := session_ne_of_step hstep halive'
  simp only [lts] at hstep
  split at hstep
  · exact Or.inr (unset_of_serverMoves (serverMoves_of_sessionStep hstep) hwire halive')
  · exact Or.inr (unset_of_serverMoves (serverMoves_of_lostStep hstep) hwire halive')
  · exact Or.inr (unset_of_serverMoves (serverMoves_of_serverStep hstep) hwire halive')
  · rw [Option.ite_none_left_eq_some] at hstep
    obtain ⟨-, hstep⟩ := hstep
    split at hstep
    · obtain ⟨t, -, hwaiter⟩ := waiterMoves_of_waiterStep hstep
      exact Or.inr (unset_of_waiterMoves hwaiter halive)
    · refine Or.inl ⟨fun hidle => ?_, proceeds_of_mainStep h hbook htold halive hl hstep⟩
      rw [mainStep_idle hidle (ne_true_of_eq_false hl)] at hstep
      cases hstep

end System

end AieTestHarness
