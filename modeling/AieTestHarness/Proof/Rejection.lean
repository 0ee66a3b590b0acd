import AieTestHarness.Proof.Wire

/-!
# Rejected runs

`runTestHarness` registers its transaction before most of its tests, and an exception leaves it
there. The calls that name a transaction by its index count it in.
-/

namespace AieTestHarness

namespace MgrClient

variable (c : MgrClient)

def isDone (r : Ref) : Bool := (c.heap r).any fun t => t.status = .TRANSACTION_DONE

/-- `sanctifyTransIdx`, nothing where it throws. -/
def sanctifyTransIdx (idx : Int32) : Option Int32 :=
  if c.transactions = [] then none
  else if idx = -1 then
    (c.transactions.reverse.findIdx? c.isDone).map fun i =>
      Int32.ofNat (c.transactions.length - 1 - i)
  else if idx < 0 ∨ c.transactions.length ≤ idx.toNatClampNeg then none
  else some idx

/-- The transaction that `isResultValid`, `printPerf` and `getDelayBetween` are asked about. -/
def named (idx : Int32) : Option Ref :=
  (c.sanctifyTransIdx idx).bind fun idx => c.transactions[idx.toNatClampNeg]?

theorem named_eq {idx : Int32} (hidx : 0 ≤ idx) :
    c.named idx = c.transactions[idx.toNatClampNeg]? := by
  have hpos : ¬ idx < 0 := Int32.not_lt.mpr hidx
  have hne : idx ≠ -1 := by
    rintro rfl
    exact absurd hidx (by decide)
  unfold named sanctifyTransIdx
  split
  · rename_i hnil
    rw [hnil]
    rfl
  · split
    · rename_i hle
      rw [List.getElem?_eq_none (hle.resolve_left hpos)]
      rfl
    · rfl

structure Unchanged (c c' : MgrClient) : Prop where
  transactions_eq : c'.transactions = c.transactions
  pending_eq : c'.pending_transactions = c.pending_transactions
  threads_eq : c'.transaction_threads = c.transaction_threads

theorem Unchanged.trans {c c' c'' : MgrClient} (h : c.Unchanged c') (h' : c'.Unchanged c'') :
    c.Unchanged c'' :=
  ⟨h'.1.trans h.1, h'.2.trans h.2, h'.3.trans h.3⟩

end MgrClient

namespace System

variable {s s' : System} {l : SystemLabel} {ls : List SystemLabel}

def startedBy (s s' : System) : List Ref :=
  match s.client.main, s'.client.main with
  | .sent r, .idle => [r]
  | _, _ => []

def started : List SystemLabel → System → List Ref
  | [], _ => []
  | l :: ls, s =>
    match lts.step l s with
    | some s' => s.startedBy s' ++ started ls s'
    | none => []

structure Rejected (umode : UInt8) (args : List TestHarnessArgs) (timeout : UInt32)
    (ls : List SystemLabel) (s s' : System) : Prop where
  exec_eq : lts.exec (.runTestHarness umode args timeout :: ls) s = some s'
  inner : ∀ l ∈ ls, ¬ l.isCall
  idle : s'.client.main = .idle
  started_eq : started (.runTestHarness umode args timeout :: ls) s = []

/-- A step at which `runTestHarness` throws, its transaction being created. -/
structure Drops (s s' : System) : Prop where
  idle : s'.client.main = .idle
  dropped : s.client.main = .idle ∧ s.client.created < s'.client.created
    ∨ ∃ r, s.client.main.fresh = some r ∧ r ∉ s'.client.pending_transactions

theorem drops_iff {s s' : System} : Drops s s' ↔ s'.client.main = .idle
    ∧ ((s.client.main = .idle ∧ s.client.created < s'.client.created)
      ∨ ∃ r ∈ s.client.main.fresh, r ∉ s'.client.pending_transactions) :=
  ⟨fun h => ⟨h.idle, h.dropped⟩, fun h => ⟨h.1, h.2⟩⟩

instance (s s' : System) : Decidable (Drops s s') := decidable_of_iff' _ drops_iff

/-! ### Steps inside a call -/

theorem mainStep_idle (hmain : s.client.main = .idle) (hl : ¬ l.isCall) : s.mainStep l = none := by
  cases l <;> first
    | exact absurd rfl hl
    | simp only [mainStep, runStep, exchangeStep, waitStep, hmain, reduceCtorEq, if_false]

theorem inner_cases (hl : ¬ l.isCall) (hstep : lts.step l s = some s') :
    s.ServerMoves s' ∨ (s.client.main ≠ .terminated ∧ s.client.main ≠ .idle ∧ s.MainMoves s')
      ∨ ∃ r t, s.WaiterMoves r t s' := by
  simp only [lts] at hstep
  split at hstep
  · exact Or.inl (serverMoves_of_sessionStep hstep)
  · exact Or.inl (serverMoves_of_lostStep hstep)
  · exact Or.inl (serverMoves_of_serverStep hstep)
  · rw [Option.ite_none_left_eq_some] at hstep
    obtain ⟨hmain, hstep⟩ := hstep
    split at hstep
    · rename_i r _
      obtain ⟨t, -, hwaiter⟩ := waiterMoves_of_waiterStep hstep
      exact Or.inr (Or.inr ⟨r, t, hwaiter⟩)
    · refine Or.inr (Or.inl ⟨hmain, fun hidle => ?_, mainMoves_of_mainStep hstep⟩)
      rw [mainStep_idle hidle hl] at hstep
      cases hstep

theorem WaiterMoves.unchanged {r : Ref} {t : Transaction} (h : s.WaiterMoves r t s') :
    s.client.Unchanged s'.client := by
  cases h <;> exact ⟨rfl, rfl, rfl⟩

theorem transactions_of_step (hl : ¬ l.isCall) (hstep : lts.step l s = some s') :
    s'.client.transactions = s.client.transactions := by
  rcases inner_cases hl hstep with hserver | ⟨-, hmain, hmoves⟩ | ⟨r, t, hwaiter⟩
  · rw [hserver.client_eq]
  · cases hmoves with
    | created hidle => exact absurd hidle hmain
    | destroy hidle => exact absurd hidle hmain
    | @answered r memorySize b =>
        cases b <;> rfl
    | _ => rfl
  · exact hwaiter.unchanged.transactions_eq

theorem unchanged_of_step (hl : ¬ l.isCall) (hstep : lts.step l s = some s')
    (hmain : s.client.main = .idle ∨ s.client.main = .terminated) :
    s.client.Unchanged s'.client
      ∧ (s'.client.main = .idle ∨ s'.client.main = .terminated) := by
  rcases inner_cases hl hstep with hserver | ⟨hne, hidle, -⟩ | ⟨r, t, hwaiter⟩
  · rw [hserver.client_eq]
    exact ⟨⟨rfl, rfl, rfl⟩, hmain⟩
  · exact absurd hmain (not_or.mpr ⟨hidle, hne⟩)
  · refine ⟨hwaiter.unchanged, ?_⟩
    rcases hwaiter.main_eq with heq | hterminated
    · rwa [heq]
    · exact Or.inr hterminated

theorem transactions_of_exec (hls : ∀ l ∈ ls, ¬ l.isCall) (hexec : lts.exec ls s = some s') :
    s'.client.transactions = s.client.transactions := by
  induction ls generalizing s with
  | nil =>
      cases hexec
      rfl
  | cons l ls ih =>
      rw [Lts.exec_cons, Option.bind_eq_some_iff] at hexec
      obtain ⟨u, hstep, hexec⟩ := hexec
      rw [ih (fun l' hl' => hls l' (List.mem_cons_of_mem l hl')) hexec,
        transactions_of_step (hls l List.mem_cons_self) hstep]

theorem unchanged_of_exec (hls : ∀ l ∈ ls, ¬ l.isCall) (hexec : lts.exec ls s = some s')
    (hmain : s.client.main = .idle ∨ s.client.main = .terminated) :
    s.client.Unchanged s'.client := by
  induction ls generalizing s with
  | nil =>
      cases hexec
      exact ⟨rfl, rfl, rfl⟩
  | cons l ls ih =>
      rw [Lts.exec_cons, Option.bind_eq_some_iff] at hexec
      obtain ⟨u, hstep, hexec⟩ := hexec
      obtain ⟨hunchanged, hmain'⟩ := unchanged_of_step (hls l List.mem_cons_self) hstep hmain
      exact hunchanged.trans
        (ih (fun l' hl' => hls l' (List.mem_cons_of_mem l hl')) hexec hmain')

/-! ### One rejected call -/

theorem transactions_of_runTestHarness (c : MgrClient) {umode : UInt8} (args : List TestHarnessArgs)
    (timeout : UInt32) {mode : TestMode} (hmode : TestMode.ofNat? umode.toNat = some mode) :
    (c.runTestHarness umode args timeout).transactions = c.transactions ++ [c.created] := by
  unfold MgrClient.runTestHarness
  rw [hmode]
  dsimp only
  split
  · rfl
  · split
    · rfl
    · split
      · rfl
      · rfl

theorem unchanged_iff_mode {umode : UInt8} {args : List TestHarnessArgs} {timeout : UInt32}
    (h : Rejected umode args timeout ls s s') :
    s.client.Unchanged s'.client ↔ TestMode.ofNat? umode.toNat = none := by
  have hexec := h.exec_eq
  rw [Lts.exec_cons, Option.bind_eq_some_iff] at hexec
  obtain ⟨u, hstep, hexec⟩ := hexec
  simp only [lts, waiterOf, mainStep, call, Option.map_some] at hstep
  rw [Option.ite_none_left_eq_some, Option.ite_none_right_eq_some] at hstep
  obtain ⟨-, hmain, hcalled⟩ := hstep
  have hu : u.client = s.client.runTestHarness umode args timeout := by
    rw [← Option.some.inj hcalled]
    rfl
  cases hmode : TestMode.ofNat? umode.toNat with
  | none =>
      have hsame : u.client = s.client := by
        rw [hu, MgrClient.runTestHarness, hmode]
      refine iff_of_true ?_ rfl
      rw [← hsame]
      exact unchanged_of_exec h.inner hexec (Or.inl (by rw [hsame, hmain]))
  | some mode =>
      refine iff_of_false (fun hunchanged => ?_) (by rintro ⟨⟩)
      have hlen := congrArg List.length hunchanged.transactions_eq
      rw [transactions_of_exec h.inner hexec, hu,
        transactions_of_runTestHarness s.client args timeout hmode] at hlen
      simp at hlen

/-! ### Every run -/

/-- What is registered has been started, the transaction in hand apart. -/
def Backed (started : List Ref) (s : System) : Prop :=
  s.client.transactions = started ++ s.client.main.fresh.toList

theorem startedBy_of_not_sent (h : ∀ r, s.client.main ≠ .sent r) (s' : System) :
    s.startedBy s' = [] := by
  unfold startedBy
  split
  · rename_i r hmain _
    exact absurd hmain (h r)
  · rfl

theorem startedBy_of_not_idle (s : System) (h : s'.client.main ≠ .idle) : s.startedBy s' = [] := by
  unfold startedBy
  split
  · rename_i hmain
    exact absurd hmain h
  · rfl

theorem startedBy_self (s : System) (h : s'.client.main = s.client.main) : s.startedBy s' = [] := by
  unfold startedBy
  split
  · rename_i hmain hidle
    rw [h, hmain] at hidle
    cases hidle
  · rfl

theorem Backed.keep {L : List Ref} (h : s.Backed L)
    (htransactions : s'.client.transactions = s.client.transactions)
    (hfresh : s'.client.main.fresh = s.client.main.fresh) (hstarted : s.startedBy s' = []) :
    s'.Backed (L ++ s.startedBy s') := by
  rw [Backed, htransactions, hfresh, hstarted, List.append_nil]
  exact h

theorem Backed.mainMoves {L : List Ref} (h : s.Backed L) (hbook : s.client.Book)
    (hdrops : ¬ Drops s s')
    (hover : ¬ s'.client.main.Over) (hmoves : s.MainMoves s') :
    s'.Backed (L ++ s.startedBy s') := by
  have hcalm : ∀ {s' : System}, s'.client.transactions = s.client.transactions →
      s.client.main.fresh = none → s'.client.main.fresh = none
        → s'.Backed (L ++ s.startedBy s') := by
    intro s' htransactions hnone hnone'
    refine h.keep htransactions (hnone'.trans hnone.symm) (startedBy_of_not_sent ?_ s')
    intro r hr
    rw [hr] at hnone
    cases hnone
  have hdropped : ∀ {r : Ref}, s.client.main.fresh = some r → s'.client.main = .idle →
      s'.client.pending_transactions ≠ s.client.pending_transactions := by
    intro r hr hidle hpending
    refine hdrops ⟨hidle, Or.inr ⟨r, hr, ?_⟩⟩
    rw [hpending]
    exact (hbook.fresh r hr).2
  cases hmoves with
  | @created mode timeout t main hmain hmade hcase =>
      have hnot : ∀ r, s.client.main ≠ .sent r := by
        rw [hmain]
        rintro _ ⟨⟩
      have hfresh : main.fresh = some s.client.created := by
        rcases hcase with hidle | ⟨hsizing, -⟩
        · exact absurd ⟨hidle, Or.inl ⟨hmain, Nat.lt_succ_self _⟩⟩ hdrops
        · rw [hsizing]
          rfl
      rw [startedBy_of_not_sent hnot, List.append_nil]
      rw [Backed, hmain] at h
      change s.client.transactions ++ [s.client.created] = L ++ main.fresh.toList
      rw [h, hfresh]
      exact congrArg (· ++ [s.client.created]) (List.append_nil L)
  | @goto main hmain hc =>
      have hnone : s.client.main.fresh = none := by
        rcases hmain with hidle | ⟨w, hloop⟩
        · rw [hidle]
          rfl
        · rw [hloop]
          rfl
      exact hcalm rfl hnone hc.fresh_eq
  | size hmain => exact h.keep rfl (by rw [hmain]; rfl) (startedBy_of_not_idle s (by rintro ⟨⟩))
  | ask hmain hreq => exact h.keep rfl (by rw [hmain]; rfl) (startedBy_of_not_idle s (by rintro ⟨⟩))
  | @answered r memorySize b answers hmain hanswers =>
      cases b with
      | true => exact h.keep rfl (by rw [hmain]; rfl) (startedBy_of_not_idle s (by rintro ⟨⟩))
      | false => exact absurd rfl (hdropped (by rw [hmain]; rfl) rfl)
  | send hmain ht => exact h.keep rfl (by rw [hmain]; rfl) (startedBy_of_not_idle s (by rintro ⟨⟩))
  | @spawn r t hmain ht =>
      have hstarted : s.startedBy (s.withClient (s.client.spawn r t)) = [r] := by
        rw [startedBy, hmain]
        rfl
      rw [Backed, hmain] at h
      rw [Backed, hstarted]
      change s.client.transactions = L ++ [r] ++ []
      rw [h, List.append_nil]
      rfl
  | request hmain hreq => exact hcalm rfl (by rw [hmain]; rfl) rfl
  | unanswered hmain hc => exact hcalm rfl (by rw [hmain]; rfl) hc.fresh_eq
  | exchanged hmain hanswers hq hc => exact hcalm rfl (by rw [hmain]; rfl) hc.fresh_eq
  | fails hmain hgone =>
      rcases hmain with ⟨r, n, hasking⟩ | ⟨r, haccepted⟩ | ⟨q, k, hexchanging⟩
      · exact absurd rfl (hdropped (by rw [hasking]; rfl) rfl)
      · exact absurd rfl (hdropped (by rw [haccepted]; rfl) rfl)
      · exact hcalm rfl (by rw [hexchanging]; rfl) rfl
  | setTimeOut hmain hpending ht => exact hcalm rfl (by rw [hmain]; rfl) rfl
  | join hmain hpc hc => exact hcalm rfl (by rw [hmain]; rfl) hc.fresh_eq
  | destroy hmain hreq => exact absurd trivial hover
  | release hmain =>
      refine absurd ?_ hover
      simp only [withClient, MgrClient.release, MgrClient.goto]
      split <;> trivial

theorem Backed.step {L : List Ref} (h : s.Backed L) (hbook : s.client.Book) (hdrops : ¬ Drops s s')
    (hover : ¬ s'.client.main.Over) (hstep : lts.step l s = some s') :
    s'.Backed (L ++ s.startedBy s') := by
  rcases step_cases hstep with hserver | ⟨-, hmain⟩ | ⟨-, r, t, -, hwaiter⟩
  · have hclient := hserver.client_eq
    exact h.keep (by rw [hclient]) (by rw [hclient]) (startedBy_self s (by rw [hclient]))
  · exact h.mainMoves hbook hdrops hover hmain
  · rcases hwaiter.main_eq with heq | hterminated
    · exact h.keep hwaiter.unchanged.transactions_eq (by rw [heq]) (startedBy_self s heq)
    · exact absurd (by rw [hterminated]; trivial) hover

theorem not_over_of_exec (hexec : lts.exec ls s = some s') (hover : ¬ s'.client.main.Over) :
    ¬ s.client.main.Over := by
  induction ls generalizing s with
  | nil =>
      cases hexec
      exact hover
  | cons l ls ih =>
      rw [Lts.exec_cons, Option.bind_eq_some_iff] at hexec
      obtain ⟨u, hstep, hexec⟩ := hexec
      exact fun h => ih hexec (over_of_step h hstep)

variable {setup : Setup} {graphs : Nat} {monitorInterval : UInt64}

theorem backed_of_exec {L : List Ref} (hrun : lts.Run (new setup graphs monitorInterval) s)
    (hbacked : s.Backed L) (hexec : lts.exec ls s = some s') (hover : ¬ s'.client.main.Over)
    (halong : lts.Along (fun s s' => ¬ Drops s s') ls s) : s'.Backed (L ++ started ls s) := by
  induction ls generalizing s L with
  | nil =>
      cases hexec
      rwa [started, List.append_nil]
  | cons l ls ih =>
      rw [Lts.exec_cons, Option.bind_eq_some_iff] at hexec
      obtain ⟨u, hstep, hexec⟩ := hexec
      obtain ⟨hdrops, halong⟩ := halong u hstep
      have hbacked' := hbacked.step (MgrClient.inv_of_run hrun).book hdrops
        (not_over_of_exec hexec hover) hstep
      have hrest := ih (.tail l hrun trivial hstep) hbacked' hexec halong
      have hstarted : started (l :: ls) s = s.startedBy u ++ started ls u := by
        rw [started, hstep]
      rwa [List.append_assoc, ← hstarted] at hrest

/-- A rejected call changes nothing if and only if it is rejected for its mode, before it has
created a transaction. Where all rejected calls of a run are, indices name what the run has
started. -/
theorem rejected_iff (setup : Setup) (graphs : Nat) (monitorInterval : UInt64) :
    (∀ umode args timeout ls s s', lts.Run (new setup graphs monitorInterval) s →
      Rejected umode args timeout ls s s' →
      (s.client.Unchanged s'.client ↔ TestMode.ofNat? umode.toNat = none))
    ∧ ∀ ls s, lts.exec ls (new setup graphs monitorInterval) = some s → s.client.main = .idle →
      lts.Along (fun s s' => ¬ Drops s s') ls (new setup graphs monitorInterval) →
      ∀ idx : Int32, 0 ≤ idx → s.client.named idx
        = (started ls (new setup graphs monitorInterval))[idx.toNatClampNeg]? := by
  refine ⟨fun umode args timeout ls s s' _ h => unchanged_iff_mode h, ?_⟩
  intro ls s hexec hidle halong idx hidx
  have hover : ¬ s.client.main.Over := by
    rw [hidle]
    exact id
  have hbacked := backed_of_exec (L := []) .refl rfl hexec hover halong
  rw [Backed, hidle] at hbacked
  rw [s.client.named_eq hidx, hbacked, List.nil_append]
  exact congrArg (·[idx.toNatClampNeg]?) (List.append_nil _)

/-- A call is rejected for its mode, and the next one starts a transaction. -/
def corrected : List SystemLabel :=
  [.runTestHarness 7 [soleOutput 1 word_lt] 5, .runTestHarness 0 [soleOutput 1 word_lt] 5, .ask,
    .session 0 false, .answered, .send, .session 7 false, .session 0 false, .spawn]

theorem rejected_iff_corrected :
    (∃ s', Rejected 7 [soleOutput 1 word_lt] 5 [] (new ⟨1, 4, 16, 4⟩ 0 0) s'
      ∧ (new ⟨1, 4, 16, 4⟩ 0 0).client.Unchanged s'.client)
    ∧ ∃ s ∈ lts.exec corrected (new ⟨1, 4, 16, 4⟩ 0 0), s.client.named 0 = some 0 := by
  obtain ⟨hcall, hindices⟩ := rejected_iff ⟨1, 4, 16, 4⟩ 0 0
  constructor
  · have hexec : ∃ s' ∈ lts.exec (corrected.take 1) (new ⟨1, 4, 16, 4⟩ 0 0),
        s'.client.main = .idle := by decide +kernel
    obtain ⟨s', hexec, hidle⟩ := hexec
    have hstarted : started (corrected.take 1) (new ⟨1, 4, 16, 4⟩ 0 0) = [] := by decide +kernel
    have hrejected : Rejected 7 [soleOutput 1 word_lt] 5 [] (new ⟨1, 4, 16, 4⟩ 0 0) s' :=
      ⟨hexec, List.forall_mem_nil _, hidle, hstarted⟩
    exact ⟨s', hrejected, (hcall _ _ _ _ _ _ .refl hrejected).mpr rfl⟩
  · have hexec : ∃ s ∈ lts.exec corrected (new ⟨1, 4, 16, 4⟩ 0 0), s.client.main = .idle := by
      decide +kernel
    obtain ⟨s, hexec, hidle⟩ := hexec
    have halong : lts.Along (fun s s' => ¬ Drops s s') corrected (new ⟨1, 4, 16, 4⟩ 0 0) := by
      decide +kernel
    have hstarted : started corrected (new ⟨1, 4, 16, 4⟩ 0 0) = [0] := by decide +kernel
    refine ⟨s, hexec, ?_⟩
    rw [hindices corrected s hexec hidle halong 0 (by decide), hstarted]
    rfl

/-- A call is rejected for the index of a channel. -/
theorem not_unchanged : ¬ ∀ setup graphs monitorInterval umode args timeout ls s s',
    lts.Run (new setup graphs monitorInterval) s → Rejected umode args timeout ls s s' →
    s.client.Unchanged s'.client := by
  intro hall
  let wrong : TestHarnessArgs := { soleOutput 1 (by decide) with idx := 72 }
  let s : System := new ⟨1, 4, 16, 4⟩ 0 0
  have hexec : ∃ s' ∈ lts.exec [.runTestHarness 0 [wrong] 0] s,
      s'.client.main = .idle ∧ s'.client.transactions = [0] := by
    decide +kernel
  obtain ⟨s', hexec, hidle, htransactions⟩ := hexec
  have hstarted : started [.runTestHarness 0 [wrong] 0] s = [] := by
    decide +kernel
  have hunchanged := hall ⟨1, 4, 16, 4⟩ 0 0 0 [wrong] 0 [] s s' .refl
    ⟨Option.mem_def.mp hexec, by simp, hidle, hstarted⟩
  have hcontains := hunchanged.transactions_eq.symm.trans htransactions
  cases hcontains

end System

end AieTestHarness
