import AieTestHarness.Proof.Agreement
import AieTestHarness.Proof.Blocked
import AieTestHarness.Proof.Received

/-!
# Conversations as streams of bytes

Client and server know nothing of messages: each writes the bytes of its values to the connection
and cuts what arrives into the values it expects next. In every conversation that works, whatever
the chunks the bytes arrive in.
-/

namespace AieTestHarness

open Sockets Chunks Scripts Value

namespace MgrServer

variable {m m' : MgrServer} {l : ServerLabel} {setup : Setup}

def Light (m : MgrServer) : Prop :=
  ∀ a ∈ m.pl_threads, ∀ t, m.heap a = some t →
    t.perf_ptr.length < 2 ^ 32 ∧ t.from_aie_ptr.length ≤ 2 ^ 30

theorem Light.mono (h : m.Light) (hthreads : ∀ a ∈ m'.pl_threads, a ∈ m.pl_threads)
    (hheap : ∀ a ∈ m'.pl_threads, ∀ t', m'.heap a = some t' →
      ∃ t, m.heap a = some t ∧ t'.key = t.key) : m'.Light := by
  intro a ha t' ht'
  obtain ⟨t, ht, hkey⟩ := hheap a ha t' ht'
  have hsizes := congrArg Prod.snd hkey
  have hperf : t'.perf_ptr.length = t.perf_ptr.length := congrArg (fun n => n.2.1) hsizes
  have hfrom : t'.from_aie_ptr.length = t.from_aie_ptr.length := congrArg (fun n => n.2.2.2) hsizes
  rw [hperf, hfrom]
  exact h a (hthreads a ha) t ht

theorem Light.thread (h : m.Light) (hframe : Frame m m') : m'.Light := by
  refine h.mono (fun a ha => by rwa [hframe.pl_threads_eq] at ha) fun a _ t' ht' => ?_
  have hkey := hframe.key_eq a
  rw [ht', Option.map_some, eq_comm, Option.map_eq_some_iff] at hkey
  obtain ⟨t, ht, hkey⟩ := hkey
  exact ⟨t, ht, hkey.symm⟩

theorem light_of_fill {q : Payload} {t : Transaction} (hq : ¬ q.Large)
    (hperf : t.perf_ptr.length < 2 ^ 32) (husage : (q.fill t).getMemoryUsage ≤ 2 ^ 30) :
    (q.fill t).from_aie_ptr.length ≤ 2 ^ 30 := by
  simp only [Payload.Large, not_or, Nat.not_le] at hq
  simp only [Transaction.getMemoryUsage, Payload.fill, List.length_replicate] at husage ⊢
  rw [u64_of_lt (by omega)] at husage
  omega

theorem Light.session (h : m.Light) (hm : m.Inv) (hmoves : m.SessionMoves l m') : m'.Light := by
  cases hmoves with
  | failed | refused | admitted | queried | other | joined => exact h
  | @created n umode trans_id timeout a mode hsession ha hid =>
      refine h.mono (fun _ => id) fun b hb u hu => ⟨u, ?_, rfl⟩
      have hmem : b ∈ m.transactions := hm.book.mem_transactions hb
      exact (Function.update_of_ne (hm.book.ne_of_heap_none ha hmem) ..).symm.trans hu
  | @received a n q t hsession ht hq hsize =>
      intro b hb u hu
      by_cases hba : b = a
      · subst hba
        cases (Function.update_self ..).symm.trans hu
        have hok := hm.book.session_ok
        rw [hsession] at hok
        refine ⟨hok.2 t ht, light_of_fill hq (hok.2 t ht) ?_⟩
        have hlt := Payload.usage_fill_lt hq (hok.2 t ht)
        have hle := hok.1
        have hmemory := hm.book.memory_le
        rw [hsize] at hlt ⊢
        rw [memorySizeMax] at hle hmemory
        rw [u64_of_lt (by omega)] at hle
        omega
      · refine h b ?_ u ((Function.update_of_ne hba ..).symm.trans hu)
        exact (List.mem_append.mp hb).resolve_right fun hmem => hba (List.mem_singleton.mp hmem)
  | @waits trans_id timeout a t hsession ha ht hid =>
      refine h.mono (fun _ => id) fun b hb u hu => ?_
      by_cases hba : b = a
      · subst hba
        cases (Function.update_self ..).symm.trans hu
        exact ⟨t, ht, rfl⟩
      · exact ⟨u, (Function.update_of_ne hba ..).symm.trans hu, rfl⟩
  | @retired a t hsession ht =>
      refine h.mono (fun b hb => List.mem_of_mem_erase hb) fun b hb u hu => ⟨u, ?_, rfl⟩
      have hne : b ≠ a := by
        rintro rfl
        cases (Function.update_self ..).symm.trans hu
      exact (Function.update_of_ne hne ..).symm.trans hu

theorem Light.step (h : m.Light) (hm : m.Inv) (hstep : lts.step l m = some m') : m'.Light := by
  by_cases hl : OfThread l m
  · exact h.thread (threadMoves_of_step hm hl hstep).frame
  · refine h.session hm (l := l) (sessionMoves_of_sessionStep ?_)
    simp only [lts, Option.ite_none_left_eq_some] at hstep
    cases l <;> first | exact hstep.2 | exact absurd (by simp [OfThread]) hl

theorem light_of_run (hrun : lts.Run (new setup) m) : m.Light :=
  hrun.invariant_of (I := Light) (J := fun m => m.session ≠ .ended → m.Inv)
    (fun _ hrun => inv_of_not_ended hrun)
    (fun _ _ _ hJ h _ hstep => h.step (hJ (System.session_of_step hstep)) hstep) nofun

end MgrServer

/-! ### Values that can be sent -/

theorem Sockets.Value.Sized.sends {v : Value} (h : v.Sized) (src : Disk) :
    Sends (send src v) (wire src v) (wire src v).length := by
  cases v with
  | pod data => exact sendBytes_sends data
  | str v => exact sendString_sends v
  | vec sizeof buffer => exact sendVec_sends buffer
  | bools buffer => exact sendBools_sends buffer
  | strs buffer => exact sendStrings_sends buffer
  | file p => exact h.elim
  | files ps => exact h.elim

theorem sized_chars {v : List UInt8} (h : v.length ≤ 2 ^ 30) : (chars v).Sized := by
  refine ⟨Nat.one_pos, ?_⟩
  rw [List.length_map, Nat.mul_one]
  exact Nat.lt_of_le_of_lt h (by decide)

theorem sized_words {v : List Nat} (h : v.length < 2 ^ 32) : (words v).Sized := by
  refine ⟨by decide, ?_⟩
  rw [List.length_map]
  omega

namespace MgrClient

variable {r : Ref} {setup : Setup} {t : Transaction}

theorem Made.usage_eq (h : Made r setup t) : t.getMemoryUsage
    = t.cfg_ptr.length * 8 + t.perf_ptr.length * 8 + t.to_aie_ptr.length
      + t.from_aie_ptr.length := by
  have hcfg := h.cfg_length
  have hperf := h.perf_length ▸ u32_lt (setup.num_channels * 4)
  have hto := h.to_aie_lt
  have hfrom := h.from_aie_lt
  exact u64_of_lt (by omega)

theorem Made.payload_sized (h : Made r setup t) (husage : t.getMemoryUsage ≤ 2 ^ 30) :
    ∀ v ∈ (payload t).values, v.Sized := by
  have hto : t.to_aie_ptr.length ≤ 2 ^ 30 := by
    rw [h.usage_eq] at husage
    omega
  simp only [payload, Request.values, List.forall_mem_cons, List.not_mem_nil, false_implies,
    implies_true, and_true]
  exact ⟨trivial, trivial, trivial, sized_words h.cfg_length, sized_chars hto, trivial⟩

end MgrClient

namespace System

variable {s s' : System} {r : Ref} {t : Transaction} {l : SystemLabel}

/-- A transaction that is accepted fits into the memory of the server. -/
theorem usage_of_accepted (hs : s.Served) (hmain : s.client.main = .accepted r)
    (ht : s.client.heap r = some t) :
    MgrClient.Made r s.client.setup t ∧ t.getMemoryUsage ≤ 2 ^ 30 := by
  have hmade := hs.offer.fresh r t (by rw [hmain]; rfl) ht
  refine ⟨hmade, ?_⟩
  have howes : s.Owes := Or.inl ⟨r, hmain⟩
  have hneeds : s.server.session.Needs := by
    by_contra hnot
    exact (hs.wire.free hnot).1 howes
  obtain ⟨n, htold, hle⟩ : ∃ n, s.server.session.told = some n
      ∧ u64 (s.server.memorySize + n.toNat) ≤ memorySizeMax := by
    have hok := hs.server.book.session_ok
    cases hsession : s.server.session with
    | admitted n =>
        rw [hsession] at hok
        exact ⟨n, rfl, hok⟩
    | created a n =>
        rw [hsession] at hok
        exact ⟨n, rfl, hok.1⟩
    | _ =>
        rw [hsession] at hneeds
        exact hneeds.elim
  have husage := (hs.offer.told n htold).1 howes r (by rw [hmain]; rfl)
  rw [MgrClient.usage_of_some ht] at husage
  have hmemory := hs.server.book.memory_le
  have hcfg := hmade.cfg_length
  have hperf := hmade.perf_length ▸ u32_lt (s.client.setup.num_channels * 4)
  have hto := hmade.to_aie_lt
  have hfrom := hmade.from_aie_lt
  have heq := hmade.usage_eq
  rw [memorySizeMax] at hle hmemory
  rw [u64_of_lt (by omega)] at hle
  omega

theorem sent_clientOps :
    sent (s.clientOps s') = (s'.toServer.drop s.toServer.length).flatMap Request.values := by
  unfold clientOps
  rw [sent_append, sent_map_send]
  split
  · rw [sent_map_recv, List.append_nil]
  · exact List.append_nil _

theorem sent_serverOps :
    sent (s.serverOps s') = (s'.toClient.drop s.toClient.length).map Answer.value := by
  rw [serverOps, sent_append, sent_map_recv, sent_map_send, List.nil_append]

theorem clientOps_sized_of_sends {m : Request} (hto : s'.toServer = s.toServer ++ [m])
    (hm : ∀ v ∈ m.values, v.Sized) : ∀ v ∈ sent (s.clientOps s'), v.Sized := by
  rw [sent_clientOps, hto, List.drop_left, List.flatMap_singleton]
  exact hm

theorem clientOps_sized_of_quiet (hto : s'.toServer.length ≤ s.toServer.length) :
    ∀ v ∈ sent (s.clientOps s'), v.Sized := by
  rw [sent_clientOps, List.drop_of_length_le hto]
  exact List.forall_mem_nil _

theorem MainMoves.sized (hmoves : s.MainMoves s') (hs : s.Served) :
    ∀ v ∈ sent (s.clientOps s'), v.Sized := by
  cases hmoves with
  | ask => exact clientOps_sized_of_sends rfl (Request.sized id)
  | @send r t hmain ht =>
      obtain ⟨hmade, husage⟩ := usage_of_accepted hs hmain ht
      exact clientOps_sized_of_sends rfl (hmade.payload_sized husage)
  | request => exact clientOps_sized_of_sends rfl (Request.sized id)
  | destroy => exact clientOps_sized_of_sends rfl (Request.sized id)
  | _ => exact clientOps_sized_of_quiet (Nat.le_refl _)

theorem WaiterMoves.sized (hmoves : s.WaiterMoves r t s') :
    ∀ v ∈ sent (s.clientOps s'), v.Sized := by
  cases hmoves with
  | query => exact clientOps_sized_of_sends rfl (Request.sized id)
  | wait => exact clientOps_sized_of_sends rfl (Request.sized id)
  | _ => exact clientOps_sized_of_quiet (Nat.le_refl _)

theorem ServerMoves.sized (hmoves : s.ServerMoves s') (hm : s.server.Inv) (hlight : s.server.Light)
    (hgraphs : s.graph_started.length < 2 ^ 60) (hsession' : s'.server.session ≠ .ended) :
    ∃ answers, s'.toClient = s.toClient ++ answers ∧ ∀ v ∈ answers.map Answer.value, v.Sized := by
  have hnone : ∀ v ∈ ([] : List Answer).map Answer.value, v.Sized := List.forall_mem_nil _
  have hone : ∀ {answer : Answer}, answer.value.Sized → ∀ v ∈ [answer].map Answer.value, v.Sized :=
    List.forall_mem_singleton.mpr
  cases hmoves with
  | ended _ hserver => exact absurd (by rw [hserver]; rfl) hsession'
  | refused | admitted => exact ⟨_, rfl, hone trivial⟩
  | queried => exact ⟨_, rfl, hone trivial⟩
  | @other q rest hsession hserver =>
      cases q with
      | setTimeOut t => exact ⟨[], (List.append_nil _).symm, hnone⟩
      | getTimeOut => exact ⟨_, rfl, hone trivial⟩
      | runAIEGraph g_idx iters =>
          refine ⟨_, rfl, hone ?_⟩
          change (s.graph_started.set g_idx.toNat true).length < 2 ^ 60
          rwa [List.length_set]
      | waitForGraph timeout =>
          refine ⟨_, rfl, hone ?_⟩
          change (s.graph_started.map fun _ => false).length < 2 ^ 60
          rwa [List.length_map]
  | @joined a t hsession hpc ht =>
      have hok := hm.book.session_ok
      rw [hsession] at hok
      obtain ⟨hperf, hfrom⟩ := hlight a (List.mem_of_mem_head? hok) t ht
      refine ⟨_, rfl, ?_⟩
      simp only [List.map_cons, List.map_nil, List.forall_mem_cons, List.not_mem_nil, false_implies,
        implies_true, and_true]
      exact ⟨trivial, sized_chars hfrom, sized_words hperf⟩
  | _ => exact ⟨[], (List.append_nil _).symm, hnone⟩

theorem sized_of_step (hs : s.Served) (hd : s.Duplex) (hlight : s.server.Light)
    (hgraphs : s.graph_started.length < 2 ^ 60) (hstep : lts.step l s = some s')
    (hsession' : s'.server.session ≠ .ended) :
    (∀ v ∈ sent (s.clientOps s'), v.Sized) ∧ ∀ v ∈ sent (s.serverOps s'), v.Sized := by
  have hclient : s.ClientTalk s' → s'.server = s.server → ∀ v ∈ sent (s.serverOps s'), v.Sized := by
    intro htalk hserver v hv
    have hnil : s.serverOps s' = [] := by
      refine serverOps_of_client hserver htalk.length_le ?_
      cases htalk with
      | quiet _ hcl => rw [hcl]
      | sends _ hcl => rw [hcl]
      | takes _ hcl hcl' =>
          rw [hcl, hcl']
          exact Nat.le_succ _
    rw [hnil] at hv
    cases hv
  rcases step_cases hstep with hserver | ⟨-, hmain⟩ | ⟨hne, r, t, -, hwaiter⟩
  · obtain ⟨vs, answers, htalk⟩ := hserver.talk hs.wire hd hs.server hsession'
    obtain ⟨answers', hcl, hanswers⟩ := hserver.sized hs.server hlight hgraphs hsession'
    refine ⟨clientOps_sized_of_quiet htalk.suffix.length_le, ?_⟩
    rwa [sent_serverOps, hcl, List.drop_left]
  · exact ⟨hmain.sized hs, hclient (hmain.talk hs.client) hmain.server_eq⟩
  · exact ⟨hwaiter.sized, hclient (hwaiter.talk hs.client hne) hwaiter.server_eq⟩

variable {setup : Setup} {graphs : Nat} {monitorInterval : UInt64} {C : SystemLabel → System → Prop}

theorem light_of_run (hrun : lts.RunIf C (.new setup graphs monitorInterval) s)
    (hsession : s.server.session ≠ .ended) : s.server.Light :=
  MgrServer.light_of_run (server_run hrun hsession)

theorem length_graph_started (hstep : lts.step l s = some s')
    (hsession' : s'.server.session ≠ .ended) :
    s'.graph_started.length = s.graph_started.length := by
  rcases step_cases hstep with hserver | ⟨-, hmain⟩ | ⟨-, r, t, -, hwaiter⟩
  · cases hserver with
    | ended _ hserver => exact absurd (by rw [hserver]; rfl) hsession'
    | @other q =>
        cases q with
        | runAIEGraph => exact List.length_set
        | waitForGraph => exact List.length_map _
        | _ => rfl
    | _ => rfl
  · cases hmain <;> rfl
  · cases hwaiter <;> rfl

theorem graph_started_of_run (hrun : lts.RunIf C (.new setup graphs monitorInterval) s)
    (hsession : s.server.session ≠ .ended) : s.graph_started.length = graphs := by
  induction hrun with
  | refl => exact List.length_replicate
  | tail l _ _ hstep ih =>
      exact (length_graph_started hstep hsession).trans (ih (session_ne_of_step hstep hsession))

end System

/-! ### The constructors -/

section Matched

variable {src d : Disk} {vs vs' : List Value} {cs cs' : List Call}

theorem Sockets.Matched.append (h : Matched src d vs cs) (h' : ∀ d, Matched src d vs' cs') :
    Matched src d (vs ++ vs') (cs ++ cs') := by
  induction h with
  | nil => exact h' _
  | cons hfirst _ ih => exact .cons hfirst ih

/-- What has been received goes with what has been sent, first the one part, then the other. -/
theorem exists_of_forall₂_append {V C : Type} {Takes : C → V → Prop} {cs cs' : List C} {vs : List V}
    (h : List.Forall₂ Takes (cs ++ cs') vs) :
    ∃ vs₁ vs₂, vs = vs₁ ++ vs₂ ∧ List.Forall₂ Takes cs vs₁ ∧ List.Forall₂ Takes cs' vs₂ := by
  induction cs generalizing vs with
  | nil => exact ⟨[], vs, rfl, .nil, h⟩
  | cons c cs ih =>
      cases h with
      | cons hfirst hrest =>
          obtain ⟨vs₁, vs₂, rfl, h₁, h₂⟩ := ih hrest
          exact ⟨_ :: vs₁, vs₂, rfl, .cons hfirst h₁, h₂⟩

end Matched

namespace Creation

variable {k : Creation} {src d : Disk}

/-- The names fit into memory, the client can read its files and the server can write them. -/
structure Carried (k : Creation) (src d : Disk) : Prop where
  device_lt : k.device.length < 2 ^ 56
  server_device_lt : k.server_device.length < 2 ^ 57
  graphs_lt : k.graph_name.length * sizeofString < 2 ^ 57
  graph_lt : ∀ n ∈ k.graph_name, n.length < 2 ^ 57
  config_files : ∀ p ∈ k.config_files,
    (∃ content, Sendable src p content) ∧ ∃ r, destination d [] p.filename = .ok r
  xclbin : k.xclbin_exists = true → (∃ content, Sendable src k.xclbin_file_path content)
    ∧ ∃ r, destination (storeAll src d k.config_files d)
    [name "xclbins"] k.xclbin_file_path.filename
      = .ok r

theorem length_name (s : String) : (name s).length = s.length := by
  rw [name, List.length_map, String.length_toList]

def program (k : Creation) : List Value :=
    if k.xclbin_exists then [.file k.xclbin_file_path] else []

theorem sent_client (k : Creation) : sent k.client
    = bool true :: .files k.config_files :: sendReq "test_harness_mgr" :: .str k.device
      :: if k.Accepted then uint32 k.device_index :: .strs k.graph_name
        :: .bools (List.replicate k.graph_name.length false)
        :: .strs [k.device ++ name "_test_harness"] :: k.program else [] := by
  unfold client program
  by_cases haccepted : k.Accepted
  · rw [if_pos haccepted, if_pos haccepted]
    cases k.xclbin_exists <;> cases k.opens <;> rfl
  · rw [if_neg haccepted, if_neg haccepted]
    split <;> rfl

theorem calls_server (k : Creation) : calls k.server
    = .pod 1 :: .files :: .str :: if k.Accepted then .str :: .pod 4 :: .strs :: .bools :: .strs
        :: (if k.xclbin_exists then [.file [name "xclbins"]] else [])
      else if k.Supported then [.str] else [] := by
  unfold server
  by_cases haccepted : k.Accepted
  · rw [if_pos haccepted, if_pos haccepted]
    cases k.xclbin_exists <;> cases k.opens <;> rfl
  · rw [if_neg haccepted, if_neg haccepted]
    split <;> rfl

theorem Carried.greeting (h : k.Carried src d) {vs : List Value} {cs : List Call}
    (hrest : Matched src (storeAll src d k.config_files d) vs cs) :
    Matched src d (bool true :: .files k.config_files :: sendReq "test_harness_mgr" :: vs)
      (.pod 1 :: .files :: .str :: cs) := by
  have hfiles : Matching src d (.files k.config_files) .files
    (storeAll src d k.config_files d) := by
    refine .files (fun p hp => (h.config_files p hp).1) ?_ ?_ fun p hp => (h.config_files p hp).2
    · unfold Creation.config_files
      split <;> simp
    · unfold Creation.config_files
      split <;> decide
  have hreq : (sendReq "test_harness_mgr").Sized := by
    change (name "test_harness_mgr").length < 2 ^ 57
    rw [length_name]
    decide
  have hstr : Call.str.Takes (sendReq "test_harness_mgr") := trivial
  exact .cons .pod (.cons hfiles (.cons (hstr.matching hreq src _) hrest))

theorem Carried.setup (h : k.Carried src d) {d' : Disk} {vs : List Value} {cs : List Call}
    (hrest : Matched src d' vs cs) :
    Matched src d' (uint32 k.device_index :: .strs k.graph_name
        :: .bools (List.replicate k.graph_name.length false)
        :: .strs [k.device ++ name "_test_harness"] :: vs)
      (.pod 4 :: .strs :: .bools :: .strs :: cs) := by
  have hdevice := h.device_lt
  have hgraphs := h.graphs_lt
  rw [sizeofString] at hgraphs
  have hindex := (Call.takes_uint32 k.device_index).matching trivial src d'
  have hbools : (List.replicate k.graph_name.length false).length < 2 ^ 60 := by
    rw [List.length_replicate]
    omega
  have hkernel : (k.device ++ name "_test_harness").length < 2 ^ 57 := by
    rw [List.length_append, length_name]
    change k.device.length + 13 < 2 ^ 57
    omega
  refine .cons hindex (.cons (.strs h.graphs_lt h.graph_lt) (.cons (.bools hbools)
    (.cons (.strs ?_ fun v hv => ?_) hrest)))
  · change 1 * sizeofString < 2 ^ 57
    decide
  · rwa [List.mem_singleton.mp hv]

/-- The server receives what the constructor of the client sends. -/
theorem Carried.matched (h : k.Carried src d) : ∃ vs,
    sent k.client = vs ++ (if k.Supported then [] else [.str k.device])
      ∧ Matched src d vs (calls k.server) := by
  have hdevice : ∀ d', Matching src d' (.str k.device) .str d' := fun _ =>
    .str (Nat.lt_trans h.device_lt (by decide))
  rw [sent_client, calls_server]
  by_cases haccepted : k.Accepted
  · rw [if_pos haccepted, if_pos haccepted, if_pos haccepted.1]
    refine ⟨_, (List.append_nil _).symm, h.greeting (.cons (hdevice _) (h.setup ?_))⟩
    unfold program
    by_cases hexists : k.xclbin_exists = true
    · obtain ⟨⟨content, hsend⟩, ⟨q, d'⟩, hdest⟩ := h.xclbin hexists
      rw [if_pos hexists, if_pos hexists]
      exact .cons (.file hsend hdest) .nil
    · rw [if_neg hexists, if_neg hexists]
      exact .nil
  · rw [if_neg haccepted, if_neg haccepted]
    by_cases hsupported : k.Supported
    · rw [if_pos hsupported, if_pos hsupported]
      exact ⟨_, (List.append_nil _).symm, h.greeting (.cons (hdevice _) .nil)⟩
    · rw [if_neg hsupported, if_neg hsupported]
      exact ⟨_, rfl, h.greeting .nil⟩

theorem sent_server (k : Creation) : sent k.server
    = bool true :: if k.Accepted then bool true :: uint32 (UInt32.ofNat k.setup.num_channels)
        :: uint32 (UInt32.ofNat k.setup.word_size) :: uint32 (UInt32.ofNat k.setup.depth)
        :: uint32 (UInt32.ofNat k.setup.memWidth)
        :: (if k.xclbin_exists ∧ k.opens then [uint64 (UInt64.ofNat memorySizeMax)] else [])
      else if k.Supported then [bool false, .str k.server_device] else [] := by
  unfold server
  by_cases haccepted : k.Accepted
  · rw [if_pos haccepted, if_pos haccepted]
    cases k.xclbin_exists <;> cases k.opens <;> rfl
  · rw [if_neg haccepted, if_neg haccepted]
    split <;> rfl

theorem Carried.server_sized (h : k.Carried src d) : ∀ v ∈ sent k.server, v.Sized := by
  rw [sent_server]
  refine List.forall_mem_cons.mpr ⟨trivial, ?_⟩
  split
  · iterate 5 refine List.forall_mem_cons.mpr ⟨trivial, ?_⟩
    split
    · exact List.forall_mem_singleton.mpr trivial
    · exact List.forall_mem_nil _
  · split
    · exact List.forall_mem_cons.mpr ⟨trivial, List.forall_mem_singleton.mpr h.server_device_lt⟩
    · exact List.forall_mem_nil _

end Creation

/-! ### Streams -/

section Streamed

variable {src d : Disk} {vs way : List Value} {takes : List Call} {files : List Path}

theorem Sockets.Matched.length_eq (h : Matched src d vs takes) : vs.length = takes.length := by
  induction h with
  | nil => rfl
  | cons _ _ ih => exact congrArg (· + 1) ih

theorem Sockets.Matched.forall_sends (h : Matched src d vs takes) :
    ∀ v ∈ vs, Sends (send src v) (wire src v) (wire src v).length := by
  induction h with
  | nil => exact List.forall_mem_nil _
  | cons hfirst _ ih => exact List.forall_mem_cons.mpr ⟨hfirst.sends, ih⟩

theorem sendAll_sends (h : ∀ v ∈ vs, Sends (send src v) (wire src v) (wire src v).length) :
    Sends (sendAll src vs) (vs.flatMap (wire src)) (vs.map fun v => (wire src v).length) := by
  induction vs with
  | nil => exact .pure []
  | cons v vs ih =>
      rw [List.forall_mem_cons] at h
      exact h.1.bind ((ih h.2).bind_pure _)

/-- One side has sent the bytes of `vs`, which the calls of the other side receive, and those of
`way`. -/
structure Streamed (src d : Disk) (vs way : List Value) (takes : List Call) : Prop where
  sends : Sends (sendAll src (vs ++ way)) ((vs ++ way).flatMap (wire src))
    ((vs ++ way).map fun v => (wire src v).length)
  /-- Whatever the chunks the bytes come in. -/
  receives : ∀ e cs, Proper cs → cs.flatten = (vs ++ way).flatMap (wire src) →
    ∃ received d' cs', recvAll e takes (d, cs) = (received, .ok (d', cs')) ∧ Proper cs'
      ∧ cs'.flatten = way.flatMap (wire src) ∧ List.Forall₂ (Delivered src) vs received
  /-- Wherever the connection is cut. -/
  short : ∀ e cs, Proper cs → cs.flatten <+: vs.flatMap (wire src) →
    cs.flatten ≠ vs.flatMap (wire src) → ∃ received, recvAll e takes (d, cs) = (received, .error e)
      ∧ ∃ before v after part, vs = before ++ v :: after
        ∧ List.Forall₂ (Delivered src) before received
        ∧ cs.flatten = before.flatMap (wire src) ++ part ∧ part <+: wire src v ∧ part ≠ wire src v

theorem streamed_of_matched (h : Matched src d vs takes)
    (hway : ∀ v ∈ way, Sends (send src v) (wire src v) (wire src v).length) :
    Streamed src d vs way takes where
  sends := sendAll_sends fun v hv => (List.mem_append.mp hv).elim (h.forall_sends v) (hway v)
  receives e cs hcs hflat := by
    rw [List.flatMap_append] at hflat
    exact h.complete e hcs hflat
  short e _ := h.short e

structure Fetchable (src d : Disk) (files : List Path) : Prop where
  sendable : ∀ p ∈ files, ∃ content, Sendable src p content
  nodup : (files.map Path.filename).Nodup
  room : files.length * sizeofPath < 2 ^ 57
  opens : ∀ p ∈ files, ∃ r, destination d [] p.filename = .ok r
  /-- None of the names is a symbolic link there. -/
  unlinked : ∀ p ∈ files, d.locate false (arrival d p.filename).1
    = d.locate true (arrival d p.filename).1

theorem Fetchable.matching (h : Fetchable src d files) :
    Matching src d (.files files) .files (storeAll src d files d) :=
  .files h.sendable (arrival_nodup (fun p hp => (h.sendable p hp).elim fun _ hsend => hsend.plain)
    h.opens h.unlinked h.nodup) h.room h.opens

/-- What the server has sent: the log files at the end, when they have been sent. -/
inductive SentByServer (src d : Disk) : LogFiles → List Value → Prop where
  | none {vs : List Value} (h : ∀ v ∈ vs, v.Sized) : SentByServer src d .none vs
  | sent {vs : List Value} {files : List Path} (h : ∀ v ∈ vs, v.Sized)
      (hfiles : Fetchable src d files) :
      SentByServer src d (.sent files) (vs ++ [.files files])
  | received {vs : List Value} {files : List Path} (h : ∀ v ∈ vs, v.Sized)
      (hfiles : Fetchable src d files) : SentByServer src d .received (vs ++ [.files files])

theorem Fetchable.matched (h : Fetchable src d files) (hvs : ∀ v ∈ vs, v.Sized)
    (htakes : List.Forall₂ Call.Takes takes (vs ++ [.files files])) :
    Matched src d (vs ++ [.files files]) takes := by
  induction vs generalizing takes with
  | nil =>
      cases htakes with
      | @cons call _ _ _ hlast hrest =>
          cases hrest
          cases call <;> first | exact .cons h.matching .nil | exact hlast.elim
  | cons v vs ih =>
      rw [List.forall_mem_cons] at hvs
      cases htakes with
      | cons hfirst hrest => exact .cons (hfirst.matching hvs.1 src d) (ih hvs.2 hrest)

end Streamed

namespace Conversation

variable {k : Creation} {c c' : Conversation} {src d src' d' : Disk}

/-- Behind the constructors everything that is sent fits into memory. -/
structure Slim (k : Creation) (src d : Disk) (c : Conversation) : Prop where
  creation_eq : c.creation = k
  supported : c.phase = .created → k.Supported
  refused : c.phase = .refused → c.client = k.client ∧ c.server = k.server
  created : c.phase = .created → c.Open → ∃ l₁ l₂, c.client = k.client ++ l₁
    ∧ c.server = k.server ++ l₂ ∧ ∀ v ∈ sent l₁, v.Sized
  answers : c.Open → SentByServer src d c.log_files (sent c.server)

theorem slim_start (k : Creation) : (start k).Slim k src d :=
  ⟨rfl, nofun, nofun, nofun, fun _ => .none nofun⟩

theorem Slim.construct (h : c.Slim k src' d') (ht : c.Tied) (hk : k.Carried src d)
    (hphase : c.phase = .connected) : c.construct.Slim k src' d' := by
  obtain ⟨hclient, hserver⟩ := ht.connected hphase
  have hnone : c.log_files = .none := by
    refine (ht.running ?_).2
    rw [ht.unused (by rw [hphase]; exact Phase.noConfusion)]
    exact SessionPc.noConfusion
  have hclient' : c.construct.client = k.client := by
    simp only [Conversation.construct, hclient, h.creation_eq, List.nil_append]
  have hserver' : c.construct.server = k.server := by
    simp only [Conversation.construct, hserver, h.creation_eq, List.nil_append]
  refine ⟨h.creation_eq, fun hcreated => ?_, fun _ => ⟨hclient', hserver'⟩, fun _ _ =>
    ⟨[], [], ?_, ?_, ?_⟩, fun _ => ?_⟩
  · by_contra hnot
    have hfails : ¬ c.creation.Succeeds := fun hsucceeds => hnot (h.creation_eq ▸ hsucceeds.1.1)
    simp only [Conversation.construct, if_neg hfails] at hcreated
    cases hcreated
  · rw [hclient', List.append_nil]
  · rw [hserver', List.append_nil]
  · exact List.forall_mem_nil _
  · rw [hserver', show c.construct.log_files = .none from hnone]
    exact .none hk.server_sized

theorem sized_of_follow (ht : c.Tied) {l : SystemLabel} (hc : c.system.client.Inv)
    (hs : c.system.server.session ≠ .ended → c.system.Served ∧ c.system.Duplex
      ∧ c.system.server.Light ∧ c.system.graph_started.length < 2 ^ 60)
    (hfollow : c.follow l = some c') (hopen' : c'.Open) :
    c.Open ∧ (∀ v ∈ sent (c.system.clientOps c'.system), v.Sized)
      ∧ (sent (c.system.serverOps c'.system) = []
        ∨ c.log_files = .none ∧ ∀ v ∈ sent (c.system.serverOps c'.system), v.Sized) := by
  obtain ⟨-, system, hstep, rfl⟩ := follow_eq_some hfollow
  cases hdestroyed : c.destroyed with
  | true =>
      obtain ⟨hsession, hto, hcl, hover, -⟩ := ht.destroyed hdestroyed
      obtain ⟨hserver', hto', hcl', -⟩ := System.over_of_destroyed hsession hto hcl hover hc hstep
      refine ⟨fun _ => hdestroyed, System.clientOps_sized_of_quiet (by rw [hto, hto']), Or.inl ?_⟩
      rw [System.sent_serverOps, hcl, hcl']
      rfl
  | false =>
      have hsession : c.system.server.session ≠ .ended := by
        intro hended
        have hended' : system.server.session = .ended := by
          by_contra hne
          exact System.session_ne_of_step hstep hne hended
        have hdestroys := hopen' hended'
        simp only [hdestroyed, Bool.false_or] at hdestroys
        rw [(System.destroys_eq_true hdestroys).1] at hended
        cases hended
      obtain ⟨hserved, hd, hlight, hgraphs⟩ := hs hsession
      refine ⟨fun hended => absurd hended hsession, ?_⟩
      cases hdestroys : c.system.destroys system with
      | true =>
          obtain ⟨-, -, -, rfl⟩ := System.destroy_of_step hd hc hstep hdestroys
          refine ⟨System.clientOps_sized_of_quiet (Nat.zero_le _), Or.inl ?_⟩
          rw [System.sent_serverOps, List.drop_length, List.map_nil]
      | false =>
          have hsession' : system.server.session ≠ .ended := by
            intro hended'
            have htrue := hopen' hended'
            simp only [hdestroyed, hdestroys, Bool.or_false] at htrue
            cases htrue
          obtain ⟨hclient, hserver⟩ :=
            System.sized_of_step hserved hd hlight hgraphs hstep hsession'
          exact ⟨hclient, Or.inr ⟨(ht.running hsession).2, hserver⟩⟩

theorem Slim.extend (h : c.Slim k src d) (hphase : c.phase = .created) {l₁ l₂ : List Operation}
    (hcreation : c'.creation = c.creation) (hphase' : c'.phase = c.phase)
    (hclient : c'.client = c.client ++ l₁) (hserver : c'.server = c.server ++ l₂)
    (hnext : c'.Open → c.Open ∧ (∀ v ∈ sent l₁, v.Sized)
      ∧ (SentByServer src d c.log_files (sent c.server) →
        SentByServer src d c'.log_files (sent c.server ++ sent l₂))) : c'.Slim k src d where
  creation_eq := hcreation.trans h.creation_eq
  supported _ := h.supported hphase
  refused hrefused := by
    rw [hphase', hphase] at hrefused
    cases hrefused
  created _ hopen' := by
    obtain ⟨hopen, hsized, -⟩ := hnext hopen'
    obtain ⟨m₁, m₂, hm₁, hm₂, hold⟩ := h.created hphase hopen
    refine ⟨m₁ ++ l₁, m₂ ++ l₂, ?_, ?_, ?_⟩
    · rw [hclient, hm₁, List.append_assoc]
    · rw [hserver, hm₂, List.append_assoc]
    · rw [sent_append]
      exact List.forall_mem_append.mpr ⟨hold, hsized⟩
  answers hopen' := by
    obtain ⟨hopen, -, hanswers⟩ := hnext hopen'
    rw [hserver, sent_append]
    exact hanswers (h.answers hopen)

theorem Slim.follow (h : c.Slim k src d) (ht : c.Tied) {l : SystemLabel} (hc : c.system.client.Inv)
    (hs : c.system.server.session ≠ .ended → c.system.Served ∧ c.system.Duplex
      ∧ c.system.server.Light ∧ c.system.graph_started.length < 2 ^ 60)
    (hfollow : c.follow l = some c') : c'.Slim k src d := by
  have hsized := sized_of_follow ht hc hs hfollow
  obtain ⟨hphase, system, hstep, rfl⟩ := follow_eq_some hfollow
  refine h.extend hphase rfl rfl rfl rfl fun hopen' => ?_
  obtain ⟨hopen, hclient, hserver⟩ := hsized hopen'
  refine ⟨hopen, hclient, fun hanswers => ?_⟩
  rcases hserver with hnil | ⟨hnone, hserver⟩
  · rw [hnil, List.append_nil]
    exact hanswers
  · change SentByServer src d c.log_files _
    rw [hnone] at hanswers ⊢
    cases hanswers with
    | none hold => exact .none (List.forall_mem_append.mpr ⟨hold, hserver⟩)

def Logged (src d : Disk) : ConversationLabel → Conversation → Prop
  | .syncWorkDir paths, _ => Fetchable src d paths
  | _, _ => True

theorem Slim.syncWorkDir (h : c.Slim k src d) {files : List Path} (hfiles : Fetchable src d files)
    (hstep : c.syncWorkDir files = some c') : c'.Slim k src d := by
  rw [Conversation.syncWorkDir, Option.ite_none_right_eq_some] at hstep
  obtain ⟨⟨hphase, -, -, hnone⟩, hstep⟩ := hstep
  cases hstep
  refine h.extend hphase rfl rfl (List.append_nil c.client).symm rfl fun hopen => ?_
  refine ⟨hopen, List.forall_mem_nil _, fun hanswers => ?_⟩
  rw [hnone] at hanswers
  cases hanswers with
  | none hold => exact .sent hold hfiles

/-- The log files are those of a session that has ended. -/
theorem Tied.ended_of_logged (h : c.Tied) (hlog : c.log_files ≠ .none) :
    c.phase = .created ∧ c.system.server.session = .ended := by
  have hsession : c.system.server.session = .ended := by
    by_contra hne
    exact hlog (h.running hne).2
  refine ⟨?_, hsession⟩
  by_contra hne
  rw [h.unused hne] at hsession
  cases hsession

theorem Slim.getLogFiles (h : c.Slim k src d) (ht : c.Tied) (hstep : c.getLogFiles = some c') :
    c'.Slim k src d := by
  unfold Conversation.getLogFiles at hstep
  split at hstep
  · rename_i files hsent
    rw [Option.ite_none_right_eq_some] at hstep
    obtain ⟨-, hstep⟩ := hstep
    cases hstep
    have hphase := (ht.ended_of_logged (by rw [hsent]; exact LogFiles.noConfusion)).1
    refine h.extend hphase rfl rfl rfl (List.append_nil c.server).symm fun hopen => ?_
    refine ⟨hopen, List.forall_mem_nil _, fun hanswers => ?_⟩
    rw [hsent] at hanswers
    generalize sent c.server = values at hanswers ⊢
    cases hanswers with
    | sent hold hfiles =>
        change SentByServer src d .received (_ ++ [])
        rw [List.append_nil]
        exact .received hold hfiles
  · cases hstep

theorem slim_of_run (hk : k.Carried src d) (hrun : lts.RunIf (Logged src' d') (start k) c) :
    c.Slim k src' d' := by
  refine hrun.invariant_of
    (J := fun c => c.Tied
    ∧ System.lts.Run (.new k.setup k.graph_name.length k.monitorInterval) c.system)
    (fun c hc => ⟨tied_of_run hc, system_run (fun _ _ _ => trivial) hc⟩) ?_ (slim_start k)
  rintro l c c' ⟨ht, hsystem⟩ h hl hstep
  cases l with
  | construct =>
      simp only [lts, Option.ite_none_right_eq_some] at hstep
      obtain ⟨hphase, hstep⟩ := hstep
      cases hstep
      exact h.construct ht hk hphase
  | system l =>
      refine h.follow ht (MgrClient.inv_of_run hsystem) (fun hsession => ?_) (follow_of_step hstep)
      refine ⟨System.served_of_run hsystem hsession, System.duplex_of_run hsystem hsession,
        System.light_of_run hsystem hsession, ?_⟩
      have hgraphs := hk.graphs_lt
      rw [sizeofString] at hgraphs
      rw [System.graph_started_of_run hsystem hsession]
      omega
  | syncWorkDir files => exact h.syncWorkDir hl hstep
  | getLogFiles => exact h.getLogFiles ht hstep

theorem Slim.toServer (h : c.Slim k src' d') (ht : c.Tied) (hk : k.Carried src d) (hopen : c.Open) :
    ∃ vs, sent c.client = vs ++ c.toServer ∧ Streamed src d vs c.toServer (calls c.server) := by
  obtain ⟨vs₀, hsent, hmatched⟩ := hk.matched
  cases hphase : c.phase with
  | connected =>
      obtain ⟨hclient, hserver⟩ := ht.connected hphase
      refine ⟨[], ?_, ?_⟩
      · simp only [hclient, Conversation.toServer, hphase]
        rfl
      · simp only [hserver, Conversation.toServer, hphase]
        exact streamed_of_matched .nil (List.forall_mem_nil _)
  | refused =>
      obtain ⟨hclient, hserver⟩ := h.refused hphase
      have hway : c.toServer = if k.Supported then [] else [.str k.device] := by
        simp only [Conversation.toServer, hphase, h.creation_eq]
      rw [hclient, hserver, hway]
      refine ⟨vs₀, hsent, streamed_of_matched hmatched fun v hv => ?_⟩
      split at hv
      · cases hv
      · rw [List.mem_singleton.mp hv]
        exact sendString_sends k.device
  | created =>
      rw [if_pos (h.supported hphase), List.append_nil] at hsent
      obtain ⟨l₁, l₂, hclient, hserver, hsized⟩ := h.created hphase hopen
      obtain ⟨vs, hvs, htakes⟩ := (ht.agree hopen).received
      rw [hserver, calls_append] at htakes
      obtain ⟨vs₁, vs₂, rfl, hfirst, hrest⟩ := exists_of_forall₂_append htakes
      have hlength : vs₀.length = vs₁.length := hmatched.length_eq.trans hfirst.length_eq
      have happend : vs₀ ++ sent l₁ = vs₁ ++ (vs₂ ++ c.toServer) := by
        rw [← List.append_assoc, ← hvs, hclient, sent_append, hsent]
      obtain ⟨rfl, hl₁⟩ := List.append_inj happend hlength
      rw [hl₁] at hsized
      refine ⟨vs₀ ++ vs₂, hvs, ?_⟩
      rw [hserver, calls_append]
      refine streamed_of_matched (hmatched.append fun d => ?_) fun v hv => ?_
      · exact matched_of_takes hrest (fun v hv => hsized v (List.mem_append_left _ hv)) src d
      · exact (hsized v (List.mem_append_right _ hv)).sends src

/-- Once the log files have been sent nothing else is on its way to the client. -/
theorem Tied.toClient_eq (h : c.Tied) (hopen : c.Open) (hlog : c.log_files ≠ .none) :
    c.toClient = c.log_files.values := by
  obtain ⟨hphase, hsession⟩ := h.ended_of_logged hlog
  obtain ⟨-, -, hcl, -⟩ := h.destroyed (hopen hsession)
  simp only [Conversation.toClient, hphase, System.outgoing, hcl]
  rfl

theorem Slim.toClient (h : c.Slim k src d) (ht : c.Tied) (hopen : c.Open) :
    ∃ vs, sent c.server = vs ++ c.toClient ∧ Streamed src d vs c.toClient (calls c.client) := by
  obtain ⟨vs, hvs, htakes⟩ := (ht.agree hopen).symm.received
  refine ⟨vs, hvs, ?_⟩
  have hanswers := h.answers hopen
  rw [hvs] at hanswers
  have hplain : (∀ v ∈ vs ++ c.toClient, v.Sized)
    → Streamed src d vs c.toClient (calls c.client) := by
    intro hsized
    refine streamed_of_matched (matched_of_takes htakes (fun v hv => ?_) src d) fun v hv => ?_
    · exact hsized v (List.mem_append_left _ hv)
    · exact (hsized v (List.mem_append_right _ hv)).sends src
  generalize hlog : c.log_files = log_files at hanswers
  generalize hvalues : vs ++ c.toClient = values at hanswers
  cases hanswers with
  | none hsized => exact hplain (by rwa [hvalues])
  | sent hsized hfiles =>
      have hway := ht.toClient_eq hopen (by rw [hlog]; exact LogFiles.noConfusion)
      rw [hlog] at hway
      rw [hway] at hvalues ⊢
      obtain rfl := List.append_cancel_right hvalues
      refine streamed_of_matched (matched_of_takes htakes hsized src d) fun v hv => ?_
      rw [List.mem_singleton.mp hv]
      exact hfiles.matching.sends
  | received hsized hfiles =>
      have hway := ht.toClient_eq hopen (by rw [hlog]; exact LogFiles.noConfusion)
      rw [hlog] at hway
      rw [hway] at hvalues ⊢
      obtain rfl := (List.append_nil vs).symm.trans hvalues
      exact streamed_of_matched (hfiles.matched hsized htakes) (List.forall_mem_nil _)

/-- Client and server never lose the thread: in every conversation that no exception has ended, the
values one side has sent go out as their bytes, and the other side receives them as they are,
whatever the chunks the bytes come in and up to the byte where the connection is cut. -/
theorem streams_of_run (hrun : lts.RunIf (Logged src' d') (start k) c) (hopen : c.Open)
    (hk : k.Carried src d) :
    (∃ vs, sent c.client = vs ++ c.toServer ∧ Streamed src d vs c.toServer (calls c.server))
      ∧ ∃ vs, sent c.server = vs ++ c.toClient ∧ Streamed src' d' vs c.toClient (calls c.client) :=
  have hslim := slim_of_run hk hrun
  have htied := tied_of_run hrun
  ⟨hslim.toServer htied hk hopen, hslim.toClient htied hopen⟩

def clientDisk : Disk where
  cur := []
  entry q := if q = [] then some .directory
    else if q = [name "aie.xclbin"] then some (.file [7]) else none
  denied _ _ := false

theorem carried_soleCreation : soleCreation.Carried clientDisk workDisk where
  device_lt := by decide
  server_device_lt := by decide
  graphs_lt := by decide
  graph_lt := nofun
  config_files := nofun
  xclbin _ := ⟨⟨[7], by decide, by decide, by decide, by decide, by decide⟩, ⟨_, rfl⟩⟩

/-- A first transaction is started. -/
theorem streams_of_run_startOne : ∃ c : Conversation, c.client.length = 25 ∧ c.server.length = 25
    ∧ (∃ vs, sent c.client = vs ++ c.toServer
      ∧ Streamed clientDisk workDisk vs c.toServer (calls c.server))
    ∧ ∃ vs, sent c.server = vs ++ c.toClient
      ∧ Streamed workDisk clientDisk vs c.toClient (calls c.client) := by
  have hstarted : ∃ c ∈ lts.exec (.construct :: [SystemLabel.runTestHarness 0
        [soleOutput 1 word_lt] 5, .ask, .session 0 false, .answered, .send, .session 7 false,
        .session 0 false, .spawn].map .system) (start soleCreation),
      c.client.length = 25 ∧ c.server.length = 25 ∧ c.system.server.session = .idle := by
    decide +kernel
  obtain ⟨c, hc, hclient, hserver, hsession⟩ := hstarted
  have hrun : lts.RunIf (Logged workDisk clientDisk) (start soleCreation) c :=
    Lts.runIf_of_exec (by simp [Logged]) hc
  refine ⟨c, hclient, hserver, streams_of_run hrun (fun hended => ?_) carried_soleCreation⟩
  rw [hsession] at hended
  cases hended

end Conversation

end AieTestHarness
