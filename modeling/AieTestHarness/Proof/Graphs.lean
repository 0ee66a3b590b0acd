import AieTestHarness.Proof.Conversation
import AieTestHarness.Proof.Inflight

/-!
# The graphs that are started

Only the server changes what is known of the graphs, and it sends it with each change. No other
answer is on its way then, so that the client knows the same once the answer has arrived.
-/

namespace AieTestHarness

namespace System

variable {s s' : System} {r : Ref} {l : SystemLabel}

structure Graphs (s : System) : Prop where
  sent : ∀ v, .graph_started v ∈ s.toClient → v = s.graph_started
  same : (∀ v, .graph_started v ∉ s.toClient) → s.client.graph_started = s.graph_started

theorem Graphs.keep (h : s.Graphs) (hclient : s'.client.graph_started = s.client.graph_started)
    (hgraphs : s'.graph_started = s.graph_started)
    (hcl : ∀ v, .graph_started v ∈ s'.toClient ↔ .graph_started v ∈ s.toClient) : s'.Graphs where
  sent v hv := by
    rw [hgraphs]
    exact h.sent v ((hcl v).mp hv)
  same hnone := by
    rw [hclient, hgraphs]
    exact h.same fun v hv => hnone v ((hcl v).mpr hv)

theorem Graphs.take (h : s.Graphs) {answer : Answer} {answers : List Answer}
    (hcl : s.toClient = answer :: answers) (hcl' : s'.toClient = s.toClient.tail)
    (hclient : s'.client.graph_started = s.client.graph_started)
    (hgraphs : s'.graph_started = s.graph_started) (hanswer : ∀ v, answer ≠ .graph_started v) :
    s'.Graphs := by
  refine h.keep hclient hgraphs fun v => ?_
  rw [hcl', hcl, List.tail_cons, List.mem_cons]
  exact ⟨Or.inr, fun hv => hv.resolve_left (hanswer v).symm⟩

theorem exchanged_of_step {q : OtherRequest} {k : After} (hstep : lts.step l s = some s')
    (hsession : s.server.session ≠ .ended) (hmain : s.client.main = .exchanging q k)
    (hne : s'.client.main ≠ s.client.main) (hlive : s'.client.main ≠ .terminated) :
    s.exchangeStep .exchanged = some s' := by
  have h := mainStep_of_step hstep hne hlive
  cases l <;> simp [mainStep, runStep, exchangeStep, waitStep, hmain] at h
  case exchanged => simpa [exchangeStep, hmain] using h
  case fails => exact absurd h.1.1 hsession

/-- What the client knows of the graphs when it has taken the answer to an exchange. -/
theorem graph_started_of_exchanged {q : OtherRequest} {k : After} {answer : Answer}
    {answers : List Answer} (hstep : s.exchangeStep .exchanged = some s')
    (hmain : s.client.main = .exchanging q k) (hcl : s.toClient = answer :: answers)
    (hq : (q = .getTimeOut ∧ ∃ t, answer = .timeout_seconds t)
      ∨ ((∃ g_idx iters, q = .runAIEGraph g_idx iters) ∨ ∃ t, q = .waitForGraph t)
        ∧ ∃ v, answer = .graph_started v) :
    answer = .graph_started s'.client.graph_started ∨ (∀ v, answer ≠ .graph_started v)
      ∧ s'.client.graph_started = s.client.graph_started := by
  have hresume : ∀ (c : MgrClient) (t : UInt64),
    (c.resume t k).graph_started = c.graph_started := by
    intro c t
    obtain ⟨main, -, heq⟩ := c.resume_calm t k
    rw [heq]
    rfl
  rcases hq with ⟨rfl, t, rfl⟩ | ⟨⟨g_idx, iters, rfl⟩ | ⟨t, rfl⟩, v, rfl⟩ <;>
    simp only [exchangeStep, hmain, hcl, MgrClient.exchanged, Option.map_some, Option.some.injEq]
      at hstep <;> subst hstep
  · exact Or.inr ⟨by rintro _ ⟨⟩, hresume s.client.unlockReq t⟩
  · have hnew := hresume { s.client.unlockReq with graph_started := v } 0
    exact Or.inl (congrArg Answer.graph_started hnew.symm)
  · have hnew := hresume { s.client.unlockReq with graph_started := v } 0
    exact Or.inl (congrArg Answer.graph_started hnew.symm)

theorem Graphs.mainMoves (h : s.Graphs) (hsession : s.server.session ≠ .ended)
    (hstep : lts.step l s = some s') (hmoves : s.MainMoves s') : s'.Graphs := by
  cases hmoves with
  | @answered r memorySize b answers hmain hanswers =>
      refine h.take hanswers rfl ?_ rfl nofun
      cases b <;> rfl
  | @exchanged q k answer answers main v hmain hanswers hq hcalm =>
      have hne : main ≠ .exchanging q k := by
        rintro rfl
        exact hcalm
      have hlive : main ≠ .terminated := by
        rintro rfl
        exact hcalm
      have hexchanged := exchanged_of_step hstep hsession hmain (by rwa [hmain]) hlive
      rcases graph_started_of_exchanged hexchanged hmain hanswers hq with hv | ⟨hv, hclient⟩
      · have hnew := h.sent _ (by rw [hanswers, ← hv]; exact List.mem_cons_self)
        refine ⟨fun w hw => h.sent w (List.mem_of_mem_tail hw), fun _ => hnew⟩
      · exact h.take hanswers rfl hclient rfl hv
  | _ => exact h.keep rfl rfl fun _ => Iff.rfl

theorem Graphs.waiterMoves {t : Transaction} (h : s.Graphs) (hmoves : s.WaiterMoves r t s') :
    s'.Graphs := by
  cases hmoves with
  | queried hpc hanswers => exact h.take hanswers rfl rfl rfl nofun
  | recvStatus hpc hanswers => exact h.take hanswers rfl rfl rfl nofun
  | recvFromAie hpc hanswers => exact h.take hanswers rfl rfl rfl nofun
  | recvPerf hpc hanswers => exact h.take hanswers rfl rfl rfl nofun
  | _ => exact h.keep rfl rfl fun _ => Iff.rfl

theorem Graphs.answer (h : s.Graphs) {answers : List Answer} (hclient : s'.client = s.client)
    (hgraphs : s'.graph_started = s.graph_started) (hcl : s'.toClient = s.toClient ++ answers)
    (hanswers : ∀ v, .graph_started v ∉ answers) : s'.Graphs := by
  refine h.keep (by rw [hclient]) hgraphs fun v => ?_
  rw [hcl, List.mem_append]
  exact ⟨fun hv => hv.resolve_right (hanswers v), Or.inl⟩

theorem Graphs.serve (h : s'.toClient = [.graph_started s'.graph_started]) : s'.Graphs where
  sent v hv := by
    rw [h, List.mem_singleton] at hv
    exact Answer.graph_started.inj hv
  same hnone := by
    refine absurd ?_ (hnone s'.graph_started)
    rw [h]
    exact List.mem_cons_self

theorem Graphs.serverMoves (h : s.Graphs) (hd : s.Duplex) (hsession' : s'.server.session ≠ .ended)
    (hmoves : s.ServerMoves s') : s'.Graphs := by
  cases hmoves with
  | ended _ hserver => exact absurd (by rw [hserver]; rfl) hsession'
  | refused => exact h.answer rfl rfl rfl (by simp)
  | admitted => exact h.answer rfl rfl rfl (by simp)
  | queried => exact h.answer rfl rfl rfl (by simp)
  | joined => exact h.answer rfl rfl rfl (by simp)
  | @other q rest hsession hserver =>
      have hempty := (hd.oneWay (by rw [hserver]; exact List.cons_ne_nil _ _)).1
      cases q with
      | runAIEGraph g_idx iters => exact .serve (by simp [serveOther, hempty])
      | waitForGraph t => exact .serve (by simp [serveOther, hempty])
      | getTimeOut => exact h.answer rfl rfl rfl (by simp)
      | setTimeOut t => exact h.keep rfl rfl fun _ => Iff.rfl
  | _ => exact h.keep rfl rfl fun _ => Iff.rfl

/-! ### All runs -/

variable {setup : Setup} {graphs : Nat} {monitorInterval : UInt64} {C : SystemLabel → System → Prop}

theorem graphs_of_run (hrun : lts.RunIf C (.new setup graphs monitorInterval) s)
    (hsession : s.server.session ≠ .ended) : s.Graphs := by
  refine hrun.invariant_of (I := fun s => s.server.session ≠ .ended → s.Graphs)
    (J := fun s => s.server.session ≠ .ended → s.Duplex)
    (fun s hs h => duplex_of_run hs h) ?_ (fun _ => ⟨nofun, fun _ => rfl⟩) hsession
  intro l s s' hJ hI _ hstep hsession'
  have hsession := session_ne_of_step hstep hsession'
  rcases step_cases hstep with hserver | ⟨-, hmain⟩ | ⟨-, r, t, -, hwaiter⟩
  · exact (hI hsession).serverMoves (hJ hsession) hsession' hserver
  · exact (hI hsession).mainMoves hsession hstep hmain
  · exact (hI hsession).waiterMoves hwaiter

end System

end AieTestHarness
