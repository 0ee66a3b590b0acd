import Mathlib.Algebra.Order.BigOperators.Group.List
import AieTestHarness.Proof.Graphs
import AieTestHarness.Proof.Identifiers

/-!
# Client and server agree

Over every conversation the scripts are dual, both sides know the same graphs to be started, and a
transaction the server has accepted is of the size it has been told. Its identifier is new as long
as the counter of the client has not come back to one the session has seen: a transaction that has
been waited for leaves its identifier behind.
-/

namespace AieTestHarness

open Sockets Chunks Scripts Value

namespace System

variable {s s' : System} {l : SystemLabel}

/-! ### Between two exchanges, and after the last one -/

/-- Between two exchanges the server is in the middle of nothing but the requests it has not
read. -/
theorem Wire.rest (h : s.Wire) (hc : s.client.Inv) (hreq : s.client.req_mtx = none) :
    s.toClient = [] ∧ s.server.session.kinds = []
      ∧ (s.toServer = [] → ¬ s.server.session.Needs) := by
  obtain ⟨hempty, hkinds, -⟩ := h.silent (due_of_none hreq)
  have hmain : ¬ s.client.main.Holds := by
    intro hholds
    have hlocked := (hc.locks.main (by rintro heq; rw [heq] at hholds; exact hholds)).mpr hholds
    rw [hreq] at hlocked
    cases hlocked
  refine ⟨hempty, hkinds, fun hnil hneeds => ?_⟩
  rcases h.needs hneeds with ⟨howes, -⟩ | ⟨-, m, rest, hserver, -⟩
  · rcases howes with ⟨r, hr⟩ | hmem
    · rw [hr] at hmain
      exact hmain trivial
    · rw [hempty] at hmem
      cases hmem
  · rw [hnil] at hserver
    cases hserver

/-- After `destroy` the client only leaves its destructor, and nothing is sent. -/
theorem over_of_destroyed (hsession : s.server.session = .ended) (hto : s.toServer = [])
    (hcl : s.toClient = []) (hover : s.client.main.Over) (hc : s.client.Inv)
    (hstep : lts.step l s = some s') :
    s'.server = s.server ∧ s'.toServer = [] ∧ s'.toClient = [] ∧ s'.client.main.Over
      ∧ s'.client.graph_started = s.client.graph_started ∧ s'.graph_started = s.graph_started := by
  have hover' := over_of_step hover hstep
  have hquiet : ∀ {s' : System}, s.ClientTalk s' → s'.toServer = [] ∧ s'.toClient = [] := by
    intro s' htalk
    cases htalk with
    | quiet hto' hcl' => exact ⟨hto'.trans hto, hcl'.trans hcl⟩
    | sends _ _ _ hnot => exact absurd hover hnot
    | takes _ hcons =>
        rw [hcl] at hcons
        cases hcons
  rcases step_cases hstep with hserver | ⟨-, hmain⟩ | ⟨hne, r, t, -, hwaiter⟩
  · exact absurd hsession hserver.session_ne
  · obtain ⟨hto', hcl'⟩ := hquiet (hmain.talk hc)
    refine ⟨hmain.server_eq, hto', hcl', hover', ?_, ?_⟩
    · cases hmain with
      | exchanged hmain hanswers =>
          rw [hcl] at hanswers
          cases hanswers
      | @answered r memorySize b answers hmain hanswers =>
          rw [hcl] at hanswers
          cases hanswers
      | _ => rfl
    · cases hmain <;> rfl
  · obtain ⟨hto', hcl'⟩ := hquiet (hwaiter.talk hc hne)
    refine ⟨hwaiter.server_eq, hto', hcl', hover', ?_, ?_⟩
    · cases hwaiter <;> rfl
    · cases hwaiter <;> rfl

/-- The answer to the transaction that is admitted is on its way alone. -/
theorem answered_of_admitted {r : Ref} {memorySize : Nat} {n : UInt64} (hwire : s.Wire)
    (hd : s.Duplex) (hc : s.client.Inv) (hmain : s.client.main = .asking r memorySize)
    (hsession : s.server.session = .admitted n) (hstep : lts.step .answered s = some s') :
    s.toServer = [] ∧ s' = { s with client := s.client.goto (.accepted r), toClient := [] } := by
  have hmine : s.client.req_mtx = some .main :=
    (hc.locks.main (by rw [hmain]; nofun)).mpr (by rw [hmain]; trivial)
  have hdue := hwire.dual
  rw [due_of_main hmine, hmain] at hdue
  simp only [lts, hmain, waiterOf, mainStep, runStep, reduceCtorEq, if_false] at hstep
  split at hstep
  · rename_i r' _ b answers hr hanswers
    cases hr
    cases hstep
    have hnil : answers = [] := by
      have hlength := congrArg List.length hdue
      simp only [due, hanswers, MainPc.due, List.map_cons, List.length_append, List.length_cons,
        List.length_map, List.length_nil] at hlength
      exact List.length_eq_zero_iff.mp (by omega)
    subst hnil
    have hto : s.toServer = [] := by
      by_contra hne
      rw [(hd.oneWay hne).1] at hanswers
      cases hanswers
    have hb : b = true := by
      rcases hwire.needs (by rw [hsession]; trivial)
        with ⟨⟨ρ, hρ⟩ | hmem, -⟩ | ⟨-, m, rest, hserver, -⟩
      · rw [hmain] at hρ
        cases hρ
      · rw [hanswers, List.mem_singleton] at hmem
        cases hmem
        rfl
      · rw [hto] at hserver
        cases hserver
    rw [hb, taken, withClient, hanswers]
    exact ⟨hto, rfl⟩
  · cases hstep

end System

/-! ### A counter that comes back -/

def strayArgument : TestHarnessArgs := { soleOutput 1 word_lt with idx := 99 }

namespace MgrClient

variable {c : MgrClient} {n : Nat}

/-- `n` transactions have been created for one channel, of which the first is pending. -/
structure Between (c : MgrClient) (n : Nat) : Prop where
  setup : c.setup = ⟨1, 4, 16, 4⟩
  main : c.main = .idle
  req_mtx : c.req_mtx = none
  pending : c.pending_transactions = [0]
  limit : c.max_memory_usage = memorySizeMax
  created : c.created = n
  length : c.transactions.length = n
  light : ∀ r ∈ c.transactions, c.usage r ≤ 1024

theorem Between.stray (h : c.Between n) :
    c.runTestHarness 0 [strayArgument] 5 = c.create .FUNC_MODE 5 := by
  refine runTestHarness_error rfl (e := ?_) ?_
  · exact .testHarness .INVALID_ARGUMENTS "Wrong channel index is used in the test harness."
  · rw [h.setup]
    rfl

/-- What has been created before is as large as it was. -/
theorem Between.light_concat (h : c.Between n) {d : MgrClient}
    (htransactions : d.transactions = c.transactions ++ [n])
    (hheap : ∀ r, r ≠ n → d.heap r = c.heap r)
    (hn : d.usage n ≤ 1024) : ∀ r ∈ d.transactions, d.usage r ≤ 1024 := by
  intro r hr
  by_cases heq : r = n
  · rwa [heq]
  · rw [htransactions, List.mem_append, List.mem_singleton] at hr
    rw [usage_congr (hheap r heq)]
    exact h.light r (hr.resolve_right heq)

theorem Between.create_heap (h : c.Between n) {r : Ref} (hr : r ≠ n) :
    (c.create .FUNC_MODE 5).heap r = c.heap r :=
  Function.update_of_ne (by rwa [h.created]) ..

theorem Between.create (h : c.Between n) : (c.create .FUNC_MODE 5).Between (n + 1) where
  setup := h.setup
  main := h.main
  req_mtx := h.req_mtx
  pending := h.pending
  limit := h.limit
  created := congrArg (· + 1) h.created
  length := by
    simp only [MgrClient.create, List.length_append, List.length_singleton, h.length]
  light := by
    refine h.light_concat (by rw [← h.created]; rfl) (fun r hr => h.create_heap hr) ?_
    have hnew : (c.create .FUNC_MODE 5).heap n
        = some (.new (transId n).toNat .FUNC_MODE 1 4 16 4 (UInt32.toNat 5)) := by
      simp only [MgrClient.create, MgrClient.setTrans, h.setup, h.created, Function.update_self]
    have husage :
      (Transaction.new (transId n).toNat .FUNC_MODE 1 4 16 4 (UInt32.toNat 5)).getMemoryUsage
        = 104 := rfl
    rw [usage_of_some hnew, husage]
    decide

theorem Between.total_lt (h : c.Between n) (hn : n ≤ 2 ^ 32) {t : Transaction}
    (ht : t.getMemoryUsage ≤ 1024) :
    ((c.create .FUNC_MODE 5).setTrans c.created t).total < 2 ^ 64 := by
  have hlight : ∀ r ∈ (c.create .FUNC_MODE 5).transactions,
      ((c.create .FUNC_MODE 5).setTrans n t).usage r ≤ 1024 := by
    refine h.light_concat (d := (c.create .FUNC_MODE 5).setTrans n t) (by rw [← h.created]; rfl)
      (fun r hr => (Function.update_of_ne hr ..).trans (h.create_heap hr)) ?_
    rwa [usage_of_some (Function.update_self ..)]
  have hsum := List.sum_le_card_nsmul
    ((c.create .FUNC_MODE 5).transactions.map ((c.create .FUNC_MODE 5).setTrans n t).usage) 1024
    (by simpa using hlight)
  rw [List.length_map, h.create.length] at hsum
  change _ ≤ (n + 1) * 1024 at hsum
  rw [h.created]
  change ((c.create .FUNC_MODE 5).transactions.map ((c.create .FUNC_MODE 5).setTrans n t).usage).sum
    < _
  omega

/-- A call that is not rejected, when the counter has come back to 0. -/
theorem Between.runTestHarness (h : c.Between n) (hn : n ≤ 2 ^ 32) (hzero : (transId n).toNat = 0) :
    ∃ t : Transaction, t.trans_id = 0 ∧ t.getMemoryUsage = 108
      ∧ c.runTestHarness 0 [soleOutput 1 word_lt] 5
        = ((c.create .FUNC_MODE 5).setTrans n t).goto (.sizing n [0] 108) := by
  obtain ⟨t, ht, hid, husage⟩ : ∃ t, (Transaction.new 0 .FUNC_MODE 1 4 16 4 5).handleInputs
      [soleOutput 1 word_lt] = .ok t ∧ t.trans_id = 0 ∧ t.getMemoryUsage = 108 :=
    ⟨_, rfl, by decide, by decide⟩
  have hmode : TestMode.ofNat? (UInt8.toNat 0) = some .FUNC_MODE := rfl
  refine ⟨t, hid, husage, ?_⟩
  rw [runTestHarness_ok hmode ?_ (h.total_lt hn (by rw [husage]; decide)), h.created, h.pending,
    husage]
  · rw [husage, h.limit]
    decide
  · rw [h.setup, h.created, hzero]
    exact ht

end MgrClient

namespace System

variable {s : System}

theorem exists_rejected {n : Nat} (h : s.client.Between n) (m : Nat) :
    ∃ c, lts.RunIf (fun l _ => l ≠ .release) s (s.withClient c) ∧ c.Between (n + m) := by
  induction m with
  | zero => exact ⟨s.client, .refl, h⟩
  | succ m ih =>
      obtain ⟨c, hrun, hc⟩ := ih
      refine ⟨c.create .FUNC_MODE 5, hrun.tail (.runTestHarness 0 [strayArgument] 5) nofun ?_,
        hc.create⟩
      have hmain : (s.withClient c).client.main = .idle := hc.main
      simp only [lts, hmain, waiterOf, mainStep, call, reduceCtorEq, if_false, if_true,
        Option.map_some]
      rw [show (s.withClient c).client = c from rfl, hc.stray]
      rfl

/-- A transaction is offered and accepted, when the counter of the client has come back to 0. -/
theorem exists_reoffered {n : Nat} (h : s.client.Between n) (hn : n ≤ 2 ^ 32)
    (hzero : (transId n).toNat = 0) (hsession : s.server.session = .idle) (hto : s.toServer = [])
    (hcl : s.toClient = []) (hmemory : s.server.memorySize = 0) :
    ∃ s' m umode timeout q, lts.RunIf (fun l _ => l ≠ .release) s s'
      ∧ s'.server.session = .admitted m ∧ s'.server.id2trans = s.server.id2trans
      ∧ s'.toServer = [.transaction umode 0 timeout q] := by
  obtain ⟨t, hid, husage, hcall⟩ := h.runTestHarness hn hzero
  let c := (s.client.create .FUNC_MODE 5).setTrans n t
  have hheap : c.heap n = some t := Function.update_self ..
  have hreq : c.req_mtx = none := h.req_mtx
  have hstart : lts.step (.runTestHarness 0 [soleOutput 1 word_lt] 5) s
      = some (s.withClient (c.goto (.sizing n [0] 108))) := by
    simp only [lts, h.main, waiterOf, mainStep, call, reduceCtorEq, if_false, if_true,
      Option.map_some, hcall]
    rfl
  let m := u64 (108 + (c.goto (.sizing n [0] 108)).usage 0)
  have hsize : lts.step .size (s.withClient (c.goto (.sizing n [0] 108)))
      = some (s.withClient (c.goto (.sizing n [] m))) := rfl
  have hask : lts.step .ask (s.withClient (c.goto (.sizing n [] m)))
      = some ((s.withClient ((c.lockReq .main).goto (.asking n m))).send
        (.runTestHarness 108)) := by
    have hstep : lts.step .ask (s.withClient (c.goto (.sizing n [] m)))
        = if c.req_mtx = none then
            some ((s.withClient ((c.lockReq .main).goto (.asking n m))).send
              (.runTestHarness (UInt64.ofNat (c.usage n))))
          else none := rfl
    rw [hstep, if_pos hreq, MgrClient.usage_of_some hheap, husage]
    rfl
  let s₁ : System :=
    { s with
      client := (c.lockReq .main).goto (.asking n m)
      server := { s.server with session := .admitted 108 }
      toServer := []
      toClient := [.trans_accepted true] }
  have hserve : lts.step (.session 0 false)
      ((s.withClient ((c.lockReq .main).goto (.asking n m))).send (.runTestHarness 108))
        = some s₁ := by
    have hle : ¬ memorySizeMax < u64 108 := by decide
    simp [lts, sessionStep, sessionLabel, send, withClient, hto, hcl, hsession, hmemory,
      MgrServer.lts, MgrServer.sessionStep, MgrServer.runTestHarness, replies, otherRequest, s₁,
        hle]
  let s₂ : System := { s₁ with client := (c.lockReq .main).goto (.accepted n), toClient := [] }
  have hanswered : lts.step .answered s₁ = some s₂ := rfl
  have hsend : lts.step .send s₂
      = some ((s₂.withClient (s₂.client.goto (.sent n))).send (MgrClient.payload t)) := by
    have hstep : lts.step .send s₂ = (c.heap n).map fun t =>
      (s₂.withClient (s₂.client.goto (.sent n))).send (MgrClient.payload t) := rfl
    rw [hstep, hheap]
    rfl
  have hexec : lts.exec [.runTestHarness 0 [soleOutput 1 word_lt] 5, .size, .ask, .session 0 false,
      .answered, .send] s
        = some ((s₂.withClient (s₂.client.goto (.sent n))).send (MgrClient.payload t)) := by
    simp only [Lts.exec_cons, hstart, hsize, hask, hserve, hanswered, hsend, Option.bind_some,
      Lts.exec_nil]
  refine ⟨_, 108, UInt8.ofNat t.mode.toNat, UInt32.ofNat t.mTimeOut,
    ⟨t.cfg_ptr, t.to_aie_ptr, UInt64.ofNat t.from_aie_ptr.length⟩, Lts.runIf_of_exec
      (by simp) hexec,
    rfl, rfl, ?_⟩
  change [MgrClient.payload t] = _
  rw [MgrClient.payload, hid]
  rfl

end System

/-! ### The constructors -/

/-- The scripts of the constructors are dual. A server for a device it does not know leaves without
receiving the device of the client. -/
theorem Creation.agree (k : Creation) :
    Agree Call.Takes k.client k.server (if k.Supported then [] else [.str k.device]) [] := by
  by_cases hsupported : k.Supported
  · rw [if_pos hsupported]
    refine .of_dual ?_
    by_cases haccepted : k.Accepted
    · rw [client, server, if_pos haccepted, if_pos haccepted]
      cases k.xclbin_exists <;> cases k.opens <;> simp
    · rw [client, server, if_neg haccepted, if_neg haccepted, if_pos hsupported, if_pos hsupported]
      simp
  · have haccepted : ¬ k.Accepted := fun h => hsupported h.1
    rw [client, server, if_neg haccepted, if_neg haccepted, if_neg hsupported, if_neg hsupported,
      if_neg hsupported]
    have hdual : Agree Call.Takes
        [.recv (.pod 1), .send (bool true), .send (.files k.config_files),
          .send (sendReq "test_harness_mgr")]
        [.send (bool true), .recv (.pod 1), .recv .files, .recv .str] [] [] := .of_dual (by simp)
    exact hdual.send [.str k.device]

/-! ### Conversations -/

def LogFiles.values : LogFiles → List Value
  | .sent paths => [.files paths]
  | _ => []

namespace Conversation

variable {c c' : Conversation} {k : Creation} {l : ConversationLabel}

def Open (c : Conversation) : Prop := c.system.server.session = .ended → c.destroyed = true

def toServer (c : Conversation) : List Value :=
  match c.phase with
  | .connected => []
  | .refused => if c.creation.Supported then [] else [.str c.creation.device]
  | .created => c.system.incoming

def toClient (c : Conversation) : List Value :=
  match c.phase with
  | .created => c.system.outgoing ++ c.log_files.values
  | _ => []

def NewIds : ConversationLabel → Conversation → Prop
  | .system l, c => System.NewIds l c.system
  | _, _ => True

theorem follow_eq_some {l : SystemLabel} (h : c.follow l = some c') :
    c.phase = .created ∧ ∃ system, System.lts.step l c.system = some system
      ∧ c' = { c with
          system
          client := c.client ++ c.system.clientOps system
          server := c.server ++ c.system.serverOps system
          destroyed := c.destroyed || c.system.destroys system } := by
  rw [follow, Option.ite_none_right_eq_some] at h
  obtain ⟨hphase, h⟩ := h
  obtain ⟨system, hstep, rfl⟩ := Option.map_eq_some_iff.mp h
  exact ⟨hphase, system, hstep, rfl⟩

theorem follow_of_step {l : SystemLabel} (h : lts.step (.system l) c = some c') :
    c.follow l = some c' := by
  cases l with
  | release =>
      simp only [lts, systemStep, Option.ite_none_left_eq_some] at h
      exact h.2
  | _ => exact h

structure Tied (c : Conversation) : Prop where
  unused : c.phase ≠ .created → c.system =
    .new c.creation.setup c.creation.graph_name.length c.creation.monitorInterval
  connected : c.phase = .connected → c.client = [] ∧ c.server = []
  running : c.system.server.session ≠ .ended → c.destroyed = false ∧ c.log_files = .none
  destroyed : c.destroyed = true → c.system.server.session = .ended ∧ c.system.toServer = []
    ∧ c.system.toClient = [] ∧ c.system.client.main.Over
    ∧ c.system.client.graph_started = c.system.graph_started
  agree : c.Open → Agree Call.Takes c.client c.server c.toServer c.toClient

theorem tied_start (k : Creation) : (start k).Tied where
  unused _ := rfl
  connected _ := ⟨rfl, rfl⟩
  running _ := ⟨rfl, rfl⟩
  destroyed := nofun
  agree _ := .of_dual .nil

theorem Tied.construct (h : c.Tied) (hphase : c.phase = .connected) : c.construct.Tied := by
  have hsystem := h.unused (by rw [hphase]; nofun)
  have hended : c.system.server.session ≠ .ended := by
    rw [hsystem]
    nofun
  obtain ⟨hclient, hserver⟩ := h.connected hphase
  refine ⟨fun _ => hsystem, fun hconnected => ?_, h.running, h.destroyed, fun _ => ?_⟩
  · simp only [Conversation.construct] at hconnected
    split at hconnected <;> cases hconnected
  · have hagree := c.creation.agree
    have hlog := (h.running hended).2
    by_cases hsucceeds : c.creation.Succeeds
    · rw [if_pos hsucceeds.1.1] at hagree
      simpa [Conversation.construct, toServer, toClient, hsucceeds, hclient, hserver, hlog, hsystem,
        LogFiles.values, System.new, System.incoming, System.outgoing] using hagree
    · simpa [Conversation.construct, toServer, toClient, hsucceeds, hclient, hserver] using hagree

theorem Tied.over (h : c.Tied) {l : SystemLabel} (hc : c.system.client.Inv)
    (hdestroyed : c.destroyed = true) (hfollow : c.follow l = some c') : c'.Tied := by
  obtain ⟨hphase, system, hstep, rfl⟩ := follow_eq_some hfollow
  obtain ⟨hsession, hto, hcl, hover, hgraphs⟩ := h.destroyed hdestroyed
  obtain ⟨hserver', hto', hcl', hover', hgraphs', hgraphs''⟩ :=
    System.over_of_destroyed hsession hto hcl hover hc hstep
  have hsession' : system.server.session = .ended := by rw [hserver', hsession]
  refine ⟨fun hne => absurd hphase hne, fun hne => absurd (hphase.symm.trans hne) Phase.noConfusion,
    fun hne => absurd hsession' hne, fun _ => ⟨hsession', hto', hcl', hover', ?_⟩, fun _ => ?_⟩
  · rw [hgraphs', hgraphs, hgraphs'']
  · have hagree := h.agree fun _ => hdestroyed
    simp only [toServer, toClient, hphase, System.incoming_eq_nil hto, System.incoming_eq_nil hto',
      System.outgoing, hcl, hcl'] at hagree ⊢
    rwa [System.clientOps_of_server (by rw [hto, hto']) (by rw [hcl, hcl']),
      System.serverOps_of_client hserver' (by rw [hto, hto']) (by rw [hcl, hcl']), List.append_nil,
      List.append_nil]

theorem Tied.scripted (h : c.Tied) (hphase : c.phase = .created)
    (hsession : c.system.server.session ≠ .ended) :
    c.log_files = .none ∧ c.system.Scripted c.client c.server := by
  have hnone := (h.running hsession).2
  have hagree := h.agree fun hended => absurd hended hsession
  simp only [toServer, toClient, hphase, hnone, LogFiles.values, List.append_nil] at hagree
  exact ⟨hnone, hagree⟩

theorem Tied.destroy (h : c.Tied) {l : SystemLabel} (hc : c.system.client.Inv)
    (hd : c.system.Duplex) (hg : c.system.Graphs) (hdestroys : c.system.destroys c'.system = true)
    (hfollow : c.follow l = some c') : c'.Tied := by
  obtain ⟨hphase, system, hstep, rfl⟩ := follow_eq_some hfollow
  have hidle : c.system.server.session ≠ .ended := by
    rw [(System.destroys_eq_true hdestroys).1]
    exact SessionPc.noConfusion
  obtain ⟨hnone, hscripted⟩ := h.scripted hphase hidle
  have hagree := hscripted.destroy hd hc hstep hdestroys
  obtain ⟨-, hto, hcl, rfl⟩ := System.destroy_of_step hd hc hstep hdestroys
  refine ⟨fun hne => absurd hphase hne, fun hne => absurd (hphase.symm.trans hne) Phase.noConfusion,
    fun hne => absurd rfl hne, fun _ => ⟨rfl, rfl, hcl, hd.destroy ?_, hg.same ?_⟩, fun _ => ?_⟩
  · rw [hto]
    exact List.mem_cons_self
  · rw [hcl]
    exact fun _ => List.not_mem_nil
  · simpa [toServer, toClient, hphase, hnone, LogFiles.values, System.incoming_eq_nil,
      System.outgoing, hcl] using hagree

theorem Tied.follow (h : c.Tied) {l : SystemLabel} (hc : c.system.client.Inv)
    (hs : c.system.server.session ≠ .ended → c.system.Served ∧ c.system.Duplex)
    (hdestroyed : c.destroyed = false) (hdestroys : c.system.destroys c'.system = false)
    (hfollow : c.follow l = some c') : c'.Tied := by
  obtain ⟨hphase, system, hstep, rfl⟩ := follow_eq_some hfollow
  have hdestroyed' : (c.destroyed || c.system.destroys system) = false := by
    rw [hdestroyed, Bool.false_or]
    exact hdestroys
  refine ⟨fun hne => absurd hphase hne, fun hne => absurd (hphase.symm.trans hne) Phase.noConfusion,
    fun hsession' => ?_, fun htrue => ?_, fun hopen => ?_⟩
  · exact ⟨hdestroyed', (h.scripted hphase (System.session_ne_of_step hstep hsession')).1⟩
  · exact absurd (hdestroyed'.symm.trans htrue) Bool.noConfusion
  · have hsession' : system.server.session ≠ .ended := by
      intro hended
      exact absurd (hdestroyed'.symm.trans (hopen hended)) Bool.noConfusion
    have hsession := System.session_ne_of_step hstep hsession'
    obtain ⟨hserved, hd⟩ := hs hsession
    obtain ⟨hnone, hscripted⟩ := h.scripted hphase hsession
    have hagree := hscripted.step hserved.wire hd hc hserved.server hstep hsession'
    simpa only [toServer, toClient, hphase, hnone, LogFiles.values, List.append_nil,
      System.Scripted] using hagree

theorem Tied.system (h : c.Tied) {l : SystemLabel} (hc : c.system.client.Inv)
    (hs : c.system.server.session ≠ .ended → c.system.Served ∧ c.system.Duplex ∧ c.system.Graphs)
    (hfollow : c.follow l = some c') : c'.Tied := by
  cases hdestroyed : c.destroyed with
  | true => exact h.over hc hdestroyed hfollow
  | false =>
      cases hdestroys : c.system.destroys c'.system with
      | true =>
          obtain ⟨-, hd, hg⟩ := hs (by
            rw [(System.destroys_eq_true hdestroys).1]
            exact SessionPc.noConfusion)
          exact h.destroy hc hd hg hdestroys hfollow
      | false =>
          exact h.follow hc (fun hsession => ⟨(hs hsession).1, (hs hsession).2.1⟩) hdestroyed
            hdestroys hfollow

theorem Tied.syncWorkDir (h : c.Tied) {paths : List Path} (hstep : c.syncWorkDir paths = some c') :
    c'.Tied := by
  rw [Conversation.syncWorkDir, Option.ite_none_right_eq_some] at hstep
  obtain ⟨⟨hphase, hsession, -, hnone⟩, hstep⟩ := hstep
  cases hstep
  refine ⟨h.unused, fun hconnected => ?_, fun hne => absurd hsession hne, h.destroyed,
    fun hopen => ?_⟩
  · replace hconnected : c.phase = .connected := hconnected
    rw [hphase] at hconnected
    cases hconnected
  · have hagree := h.agree hopen
    simp only [toServer, toClient, hphase, hnone, LogFiles.values, List.append_nil] at hagree ⊢
    exact (hagree.symm.send [.files paths]).symm

theorem Tied.getLogFiles (h : c.Tied) (hstep : c.getLogFiles = some c') : c'.Tied := by
  unfold Conversation.getLogFiles at hstep
  split at hstep
  · rename_i paths hsent
    rw [Option.ite_none_right_eq_some] at hstep
    obtain ⟨-, hstep⟩ := hstep
    cases hstep
    have hsession : c.system.server.session = .ended := by
      by_contra hne
      rw [(h.running hne).2] at hsent
      cases hsent
    have hphase : c.phase = .created := by
      by_contra hne
      rw [h.unused hne] at hsession
      cases hsession
    refine ⟨h.unused, fun hconnected => ?_, fun hne => absurd hsession hne, h.destroyed,
      fun hopen => ?_⟩
    · replace hconnected : c.phase = .connected := hconnected
      rw [hphase] at hconnected
      cases hconnected
    · obtain ⟨-, hto, hcl, -⟩ := h.destroyed (hopen hsession)
      have hagree := h.agree hopen
      simp only [toServer, toClient, hphase, hsent, LogFiles.values, System.incoming_eq_nil hto,
        System.outgoing, hcl, List.map_nil, List.nil_append] at hagree ⊢
      have htakes : List.Forall₂ Call.Takes [Call.files] [Value.files paths] := by simp
      exact (hagree.symm.recv htakes).symm
  · cases hstep

/-! ### All conversations -/

theorem system_of_step (hstep : lts.step l c = some c') : c'.system = c.system
    ∨ ∃ l', l = .system l' ∧ System.lts.step l' c.system = some c'.system := by
  cases l with
  | construct =>
      simp only [lts, Option.ite_none_right_eq_some] at hstep
      cases hstep.2
      exact Or.inl rfl
  | system l' =>
      obtain ⟨-, system, hsystem, rfl⟩ := follow_eq_some (follow_of_step hstep)
      exact Or.inr ⟨l', rfl, hsystem⟩
  | syncWorkDir paths =>
      simp only [lts, Conversation.syncWorkDir, Option.ite_none_right_eq_some] at hstep
      cases hstep.2
      exact Or.inl rfl
  | getLogFiles =>
      simp only [lts, Conversation.getLogFiles] at hstep
      split at hstep
      · rw [Option.ite_none_right_eq_some] at hstep
        cases hstep.2
        exact Or.inl rfl
      · cases hstep

theorem exists_step {l : SystemLabel} {s : System} (hphase : c.phase = .created) (hl : l ≠ .release)
    (hstep : System.lts.step l c.system = some s) :
    ∃ c', lts.step (.system l) c = some c' ∧ c'.phase = .created ∧ c'.system = s := by
  have hfollow : c.systemStep l = c.follow l := by
    cases l with
    | release => exact absurd rfl hl
    | _ => rfl
  obtain ⟨c', hnext, hc'⟩ : ∃ c', c.follow l = some c' ∧ c'.phase = .created ∧ c'.system = s := by
    rw [follow, if_pos hphase, hstep]
    exact ⟨_, rfl, hphase, rfl⟩
  exact ⟨c', hfollow.trans hnext, hc'⟩

variable {C : ConversationLabel → Conversation → Prop} {D : SystemLabel → System → Prop}

theorem system_run (hC : ∀ l c, C (.system l) c → D l c.system) (hrun : lts.RunIf C (start k) c) :
    System.lts.RunIf D (.new k.setup k.graph_name.length k.monitorInterval) c.system := by
  induction hrun with
  | refl => exact .refl
  | tail l _ hl hstep ih =>
      rcases system_of_step hstep with heq | ⟨l', rfl, hstep'⟩
      · rwa [heq]
      · exact .tail l' ih (hC _ _ hl) hstep'

/-- What client and server do before the destructor waits for the log files is part of a
conversation. -/
theorem exists_conversation {s : System} (hsucceeds : k.Succeeds)
    (hrun : System.lts.RunIf (fun l _ => l ≠ .release)
      (.new k.setup k.graph_name.length k.monitorInterval) s) :
    ∃ c, lts.Run (start k) c ∧ c.phase = .created ∧ c.system = s := by
  induction hrun with
  | refl =>
      refine ⟨(start k).construct, .single (l := .construct) trivial rfl, ?_, rfl⟩
      exact if_pos hsucceeds
  | tail l _ hrelease hstep ih =>
      obtain ⟨c, hprev, hphase, rfl⟩ := ih
      obtain ⟨c', hnext, hc'⟩ := exists_step hphase hrelease hstep
      exact ⟨c', .tail (.system l) hprev trivial hnext, hc'⟩

theorem tied_of_run (hrun : lts.RunIf C (start k) c) : c.Tied := by
  refine hrun.invariant_of
    (J := fun c => System.lts.Run (.new k.setup k.graph_name.length k.monitorInterval) c.system)
    (fun c hc => system_run (fun _ _ _ => trivial) hc) ?_ (tied_start k)
  intro l c c' hJ h _ hstep
  cases l with
  | construct =>
      simp only [lts, Option.ite_none_right_eq_some] at hstep
      obtain ⟨hphase, hstep⟩ := hstep
      cases hstep
      exact h.construct hphase
  | system l =>
      exact h.system (MgrClient.inv_of_run hJ) (fun hsession => ⟨System.served_of_run hJ hsession,
        System.duplex_of_run hJ hsession, System.graphs_of_run hJ hsession⟩) (follow_of_step hstep)
  | syncWorkDir paths => exact h.syncWorkDir hstep
  | getLogFiles => exact h.getLogFiles hstep

structure Agreement (c : Conversation) : Prop where
  /-- Each send is matched by a receive of its type and length, or is on its way. -/
  scripts : Agree Call.Takes c.client c.server c.toServer c.toClient
  oneWay : c.toServer = [] ∨ c.toClient = []
  /-- The session loop knows the requests it will read. -/
  known : c.system.server.session = .idle → ∀ m ∈ c.system.toServer, m.Known
  /-- Between two exchanges no answer is due, and when the session thread has read what there is, it
  is in the middle of no request and the scripts are dual. -/
  rest : c.phase = .created → c.system.server.session ≠ .ended → c.system.client.req_mtx = none →
    c.toClient = [] ∧ c.system.server.session.kinds = []
      ∧ (c.system.toServer = [] → ¬ c.system.server.session.Needs
        ∧ List.Forall₂ (Op.Dual Call.Takes) c.client c.server)
  graphs : c.system.client.req_mtx = none → c.system.client.graph_started = c.system.graph_started
  size : ∀ a n umode id timeout q requests t, c.system.server.session = .created a n →
    c.system.toServer = .transaction umode id timeout q :: requests →
    c.system.server.heap a = some t → (q.fill t).getMemoryUsage = n.toNat
  ids : ∀ n umode id timeout q requests, c.system.server.session = .admitted n →
    c.system.toServer = .transaction umode id timeout q :: requests →
    c.system.server.id2trans id.toNat = none

theorem Tied.oneWay (h : c.Tied) (hopen : c.Open)
    (hd : c.system.server.session ≠ .ended → c.system.Duplex) :
    c.toServer = [] ∨ c.toClient = [] := by
  cases hphase : c.phase with
  | connected => exact Or.inr (by rw [toClient, hphase])
  | refused => exact Or.inr (by rw [toClient, hphase])
  | created =>
      simp only [toServer, toClient, hphase]
      by_cases hto : c.system.toServer = []
      · exact Or.inl (System.incoming_eq_nil hto)
      · have hsession : c.system.server.session ≠ .ended := fun hended =>
          hto (h.destroyed (hopen hended)).2.1
        rw [System.outgoing, ((hd hsession).oneWay hto).1, (h.running hsession).2]
        exact Or.inr rfl

theorem Tied.rest (h : c.Tied) (hphase : c.phase = .created) (hc : c.system.client.Inv)
    (hwire : c.system.Wire) (hsession : c.system.server.session ≠ .ended)
    (hreq : c.system.client.req_mtx = none) :
    c.toClient = [] ∧ c.system.server.session.kinds = []
      ∧ (c.system.toServer = [] → ¬ c.system.server.session.Needs
        ∧ List.Forall₂ (Op.Dual Call.Takes) c.client c.server) := by
  obtain ⟨hempty, hkinds, hneeds⟩ := hwire.rest hc hreq
  have hcl : c.toClient = [] := by
    simp only [toClient, hphase, System.outgoing, hempty, (h.running hsession).2]
    rfl
  refine ⟨hcl, hkinds, fun hto => ⟨hneeds hto, ?_⟩⟩
  have hagree := h.agree fun hended => absurd hended hsession
  have hto' : c.toServer = [] := by
    simp only [toServer, hphase]
    exact System.incoming_eq_nil hto
  rw [hto', hcl] at hagree
  exact hagree.dual

/-- Whatever the chunks the bytes come in, an idle session receives the next request as it is. -/
theorem received_of_run (hrun : lts.Run (start k) c) (hidle : c.system.server.session = .idle)
    {m : Request} {rest : List Request} (hto : c.system.toServer = m :: rest) (src d : Disk)
    (e : Fault)
    {cs : List (List UInt8)} (hcs : Proper cs)
    (hflat : cs.flatten = c.toServer.flatMap (wire src)) :
    ∃ received d' cs', recvAll e (requestCalls m.values) (d, cs) = (received, .ok (d', cs'))
      ∧ Proper cs' ∧ cs'.flatten = (rest.flatMap Request.values).flatMap (wire src)
      ∧ List.Forall₂ (Delivered src) m.values received := by
  have hsystem : System.lts.Run (.new k.setup k.graph_name.length k.monitorInterval) c.system :=
    system_run (fun _ _ _ => trivial) hrun
  have hphase : c.phase = .created := by
    by_contra hne
    rw [(tied_of_run hrun).unused hne] at hto
    cases hto
  have hm : ¬ m.IsTransaction := by
    have hwire := System.wire_of_run hsystem (by rw [hidle]; nofun)
    refine (hwire.free (by rw [hidle]; exact id)).2 m ?_
    rw [hto]
    exact List.mem_cons_self
  refine Request.received hm src d e hcs ?_
  rw [hflat]
  simp only [toServer, hphase]
  rw [System.incoming_of_ne (by rw [hidle]; nofun), hto, List.flatMap_cons, List.flatMap_append]

/-- In a conversation in which no transaction is accepted that has the identifier of an earlier one,
client and server agree up to the first exception. -/
theorem agreement_of_run (hrun : lts.RunIf NewIds (start k) c) (hopen : c.Open) : c.Agreement := by
  have htied := tied_of_run hrun
  have hsystem : System.lts.RunIf System.NewIds
    (.new k.setup k.graph_name.length k.monitorInterval) c.system :=
    system_run (fun _ _ h => h) hrun
  have hc := MgrClient.inv_of_run hsystem
  have hwire : c.system.server.session ≠ .ended → c.system.Wire := System.wire_of_run hsystem
  refine ⟨htied.agree hopen, htied.oneWay hopen (System.duplex_of_run hsystem),
    fun hidle m hm => ?_,
    fun hphase hsession hreq => htied.rest hphase hc (hwire hsession) hsession hreq, fun hreq => ?_,
    ?_, ?_⟩
  · exact Request.known (((hwire (by rw [hidle]; nofun)).free (by rw [hidle]; exact id)).2 m hm)
  · by_cases hsession : c.system.server.session = .ended
    · exact (htied.destroyed (hopen hsession)).2.2.2.2
    · refine (System.graphs_of_run hsystem hsession).same fun v hv => ?_
      rw [((hwire hsession).rest hc hreq).1] at hv
      cases hv
  · intro a n umode id timeout q requests t hsession hserver ht
    exact (System.offer_of_run hsystem (by rw [hsession]; nofun)).size_eq hsession hserver ht
  · intro n umode id timeout q requests hsession hserver
    refine (System.ids_of_run hsystem (by rw [hsession]; nofun)).admitted n hsession umode id
      timeout q ?_
    rw [hserver]
    exact List.mem_cons_self

/-- The first `2 ^ 32` transactions of a client have new identifiers. -/
theorem newIds_of_created
    (hrun : lts.RunIf (fun _ c => c.system.client.created ≤ 2 ^ 32) (start k) c) :
    lts.RunIf NewIds (start k) c := by
  induction hrun with
  | refl => exact .refl
  | @tail c c' l hprev hcreated hstep ih =>
      refine .tail l ih ?_ hstep
      cases l with
      | system l =>
          have hsystem : System.lts.Run (.new k.setup k.graph_name.length k.monitorInterval)
            c.system :=
            system_run (fun _ _ _ => trivial) hprev
          by_cases hsession : c.system.server.session = .ended
          · cases l with
            | answered =>
                intro r memorySize n _ hadmitted
                rw [hsession] at hadmitted
                cases hadmitted
            | _ => trivial
          · exact (System.numbered_of_run hsystem hsession).newIds (MgrClient.inv_of_run hsystem)
              (System.server_inv_of_run hsystem hsession) hcreated l
      | _ => trivial

/-- The condition is exact: behind a step that does not meet it the session looks for an identifier
it has. -/
theorem exists_disagreement (hrun : lts.Run (start k) c) (hstep : lts.step l c = some c')
    (hl : ¬ NewIds l c) : ∃ d, lts.Run c d ∧ d.Open ∧ ¬ d.Agreement := by
  have hsystem : System.lts.Run (.new k.setup k.graph_name.length k.monitorInterval) c.system :=
    system_run (fun _ _ _ => trivial) hrun
  have hc := MgrClient.inv_of_run hsystem
  obtain ⟨r, memorySize, n, rfl, hmain, hsession, hseen⟩ : ∃ r memorySize n, l = .system .answered
      ∧ c.system.client.main = .asking r memorySize ∧ c.system.server.session = .admitted n
      ∧ (transId r).toNat ∈ acceptedIds c.system.server.log := by
    cases l with
    | system l =>
        cases l with
        | answered =>
            simpa only [NewIds, System.NewIds, not_forall, not_not, exists_prop, true_and] using hl
        | _ => exact absurd trivial hl
    | _ => exact absurd trivial hl
  have hlive : c.system.server.session ≠ .ended := by rw [hsession]; exact SessionPc.noConfusion
  obtain ⟨hphase, system, hanswered, hc'⟩ := follow_eq_some (follow_of_step hstep)
  obtain ⟨hto, hsystem'⟩ := System.answered_of_admitted (System.wire_of_run hsystem hlive)
    (System.duplex_of_run hsystem hlive) hc hmain hsession hanswered
  obtain ⟨t, ht⟩ :=
    hc.owns.heap (by rw [hmain]; exact id) r (hc.book.fresh r (by rw [hmain]; rfl)).1
  have hphase' : c'.phase = .created := by rw [hc']; exact hphase
  have hnext : System.lts.step .send c'.system = some { c.system with
      client := c.system.client.goto (.sent r)
      toServer := [MgrClient.payload t]
      toClient := [] } := by
    have hstep : System.lts.step .send system = (c.system.client.heap r).map fun t =>
        (system.withClient (c.system.client.goto (.sent r))).send (MgrClient.payload t) := by
      rw [hsystem']
      rfl
    rw [show c'.system = system from by rw [hc'], hstep, ht, hsystem', Option.map_some, System.send,
      System.withClient, hto]
    rfl
  obtain ⟨d, hsend, -, hd⟩ := exists_step (l := .send) hphase' SystemLabel.noConfusion hnext
  refine ⟨d, .tail (.system .send) (.single trivial hstep) trivial hsend, fun hended => ?_,
    fun h => ?_⟩
  · rw [hd] at hended
    exact absurd hended hlive
  · have hnew :=
      h.ids n (UInt8.ofNat t.mode.toNat) (UInt32.ofNat t.trans_id) (UInt32.ofNat t.mTimeOut)
      ⟨t.cfg_ptr, t.to_aie_ptr, UInt64.ofNat t.from_aie_ptr.length⟩ [] (by rw [hd]; exact hsession)
      (by rw [hd]; rfl)
    rw [hd, System.payload_id hc.owns ht] at hnew
    have hknown := (System.server_inv_of_run hsystem hlive).record.known _ hseen
    rw [hnew] at hknown
    cases hknown

/-- One channel, no graph and no `xrt.ini`. -/
def soleCreation : Creation where
  xrt_config := false
  device := name "vek280"
  device_index := 0
  graph_name := []
  xclbin_file_path := [name "aie.xclbin"]
  xclbin_exists := true
  server_device := name "vek280"
  setup := ⟨1, 4, 16, 4⟩
  opens := true
  monitorInterval := 0

/-- A first transaction is started. -/
theorem agreement_of_run_startOne : ∃ c : Conversation, c.client.length = 25 ∧ c.server.length = 25
    ∧ c.system.client.transactions = [0] ∧ c.Agreement := by
  have hstarted : ∃ u ∈ lts.exec (.construct :: [SystemLabel.runTestHarness 0
        [soleOutput 1 word_lt] 5, .ask, .session 0 false].map .system) (start soleCreation),
      acceptedIds u.system.server.log = []
        ∧ ∃ v ∈ lts.step (.system .answered) u, ∃ c ∈ lts.exec ([SystemLabel.send, .session 7 false,
          .session 0 false, .spawn].map .system) v, c.client.length = 25 ∧ c.server.length = 25
            ∧ c.system.client.transactions = [0] ∧ c.system.server.session = .idle := by
    decide +kernel
  obtain ⟨u, hu, hnone, v, hv, c, hc, hclient, hserver, htransactions, hsession⟩ := hstarted
  have hnew : NewIds (.system .answered) u := by
    intro _ _ _ _ _
    rw [hnone]
    exact List.not_mem_nil
  have hrun : lts.RunIf NewIds (start soleCreation) c :=
    (Lts.RunIf.tail (.system .answered) (Lts.runIf_of_exec (by simp [NewIds, System.NewIds]) hu)
      hnew hv).trans (Lts.runIf_of_exec (by simp [NewIds, System.NewIds]) hc)
  refine ⟨c, hclient, hserver, htransactions, agreement_of_run hrun fun hended => ?_⟩
  rw [hsession] at hended
  cases hended

/-- A transaction is run and waited for, and the next `2 ^ 32 - 1` calls are rejected: what is
accepted then has the identifier of the first, which the session still knows. -/
theorem not_agreement : ¬ ∀ k c, lts.Run (start k) c → c.Open → c.Agreement := by
  intro hall
  have hwaited : ∃ s ∈ System.lts.exec (System.startOne ++ Application.finishOne
        ++ [.session 7 false, .recvFromAie 0, .recvPerf 0, .unlockReq 0, .handleOutputs 0])
        (.new ⟨1, 4, 16, 4⟩ 0 0), s.client.setup = ⟨1, 4, 16, 4⟩ ∧ s.client.main = .idle
      ∧ s.client.req_mtx = none ∧ s.client.pending_transactions = [0]
      ∧ s.client.max_memory_usage = memorySizeMax ∧ s.client.created = 1
      ∧ s.client.transactions = [0] ∧ s.client.usage 0 ≤ 1024 ∧ s.server.session = .idle
      ∧ s.toServer.length = 0 ∧ s.toClient = [] ∧ s.server.memorySize = 0
      ∧ s.server.id2trans 0 = some 7 := by
    decide +kernel
  obtain ⟨s, hexec, hsetup, hmain, hreq, hpending, hlimit, hcreated, htransactions, husage,
    hsession, hto, hcl, hmemory, hseen⟩ := hwaited
  have hbetween : s.client.Between 1 :=
    ⟨hsetup, hmain, hreq, hpending, hlimit, hcreated, by rw [htransactions, List.length_singleton],
      by simpa [htransactions] using husage⟩
  obtain ⟨c, hrejected, hc⟩ := System.exists_rejected hbetween (2 ^ 32 - 1)
  obtain ⟨s', m, umode, timeout, q, hreoffered, hadmitted, hid2trans, hserver⟩ :=
    System.exists_reoffered (s := s.withClient c) hc (by norm_num) (by decide) hsession
      (List.length_eq_zero_iff.mp hto) hcl hmemory
  have hrun : System.lts.RunIf (fun l _ => l ≠ .release) (.new ⟨1, 4, 16, 4⟩ 0 0) s' :=
    ((Lts.runIf_of_exec (by simp [System.startOne, Application.finishOne])
      (Option.mem_def.mp hexec)).trans hrejected).trans hreoffered
  obtain ⟨c', hconversation, -, rfl⟩ :=
    exists_conversation (k := soleCreation) ⟨⟨Or.inl rfl, rfl⟩, rfl, rfl⟩ hrun
  have hagreement := hall soleCreation c' hconversation fun hended => by
    rw [hadmitted] at hended
    cases hended
  have hnew := hagreement.ids m umode 0 timeout q [] hadmitted hserver
  rw [hid2trans] at hnew
  exact absurd (hseen.symm.trans hnew) nofun

end Conversation

end AieTestHarness
