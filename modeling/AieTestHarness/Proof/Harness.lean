import AieTestHarness.Kernel.Harness
import AieTestHarness.Lib.Simulation
import AieTestHarness.Proof.Counter
import AieTestHarness.Proof.Receive

/-!
# The dataflow region

What each step of the region does, and the two views every later proof takes of it: one channel with
its counter, whose runs are those of `load_stream` and `store_stream` on their own, and the stream
words in order, first those the graph has taken and then those still on the stream.
-/

namespace AieTestHarness

open Slices

/-! ### Stream words -/

theorem Adds.exists_new {acts acts' : List Act} {trig : Bool} (h : Adds acts trig acts') :
    ∃ new, acts' = acts ++ new := by
  cases h with
  | beats bs => exact ⟨bs.map .beat, rfl⟩
  | trigger => exact ⟨[.trigger], rfl⟩

theorem Adds.beatsOf_eq {acts acts' : List Act} {trig : Bool} (h : Adds acts trig acts') :
    beatsOf acts' = beatsOf acts ++ beatsOf (acts'.drop acts.length) := by
  obtain ⟨new, rfl⟩ := h.exists_new
  rw [beatsOf_append, List.drop_left]

/-- A memory loop does nothing to what it shares, or moves a word. -/
theorem MemLoop.step_eq_or_move {σ : Type} {L : MemLoop σ} {m m' : MemProc} {x x' : σ}
    (h : L.step m x = some (m', x')) : x' = x ∨ ∃ c k, x' = L.move x c k := by
  obtain ⟨sched, pc⟩ := m
  cases pc with
  | start =>
      obtain ⟨-, rfl⟩ := Prod.mk.inj (Option.some.inj h)
      exact Or.inl rfl
  | head =>
      simp only [MemLoop.step] at h
      split at h
      · obtain ⟨-, rfl⟩ := Prod.mk.inj (Option.some.inj h)
        exact Or.inl rfl
      · split at h <;>
        · obtain ⟨-, rfl⟩ := Prod.mk.inj (Option.some.inj h)
          exact Or.inl rfl
  | burstTest ch_id numData =>
      simp only [MemLoop.step] at h
      split at h <;>
      · obtain ⟨-, rfl⟩ := Prod.mk.inj (Option.some.inj h)
        exact Or.inl rfl
  | resTest ch_id numData =>
      simp only [MemLoop.step] at h
      split at h <;>
      · obtain ⟨-, rfl⟩ := Prod.mk.inj (Option.some.inj h)
        exact Or.inl rfl
  | burst ch_id j =>
      simp only [MemLoop.step] at h
      split at h <;> obtain ⟨-, rfl⟩ := Prod.mk.inj (Option.some.inj h)
      · exact Or.inr ⟨_, _, rfl⟩
      · exact Or.inl rfl
  | residual ch_id numData j =>
      simp only [MemLoop.step] at h
      split at h <;> obtain ⟨-, rfl⟩ := Prod.mk.inj (Option.some.inj h)
      · exact Or.inr ⟨_, _, rfl⟩
      · exact Or.inl rfl
  | done => cases h

theorem Transmit.writeNb_memStr {T : Transmit} (x : TxIO) (ch_id c : Nat) (tmp : MemWord) :
    (T.writeNb x ch_id tmp).to_aie_strm c = x.to_aie_strm c
      ∨ (T.writeNb x ch_id tmp).to_aie_strm c = x.to_aie_strm c ++ [tmp] := by
  unfold writeNb
  split
  · by_cases hc : c = ch_id
    · subst hc
      exact Or.inr (Function.update_self ..)
    · exact Or.inl (Function.update_of_ne hc ..)
  · exact Or.inl rfl

theorem GetState.received_of_next {p : Platform} {ch : Channel} {room trig : Bool} {x y : GetState}
    (h : next p ch room x = some (y, trig)) :
    beatsOf y.acts ++ y.strm = beatsOf x.acts ++ x.strm := by
  have htrigger : beatsOf (x.acts ++ [.trigger]) = beatsOf x.acts := by
    rw [beatsOf_append, beatsOf_trigger, List.append_nil]
  unfold next at h
  split at h
  case h_4 pc firstData hpc =>
    obtain ⟨⟨pc', strm', out⟩, hstep, heq⟩ := Option.map_eq_some_iff.mp h
    cases heq
    rw [beatsOf_append, beatsOf_map_beat, List.append_assoc]
    rcases getStep_strm hstep with rfl | ⟨tmp, hread⟩
    · simp
    · simp [hread]
  case h_8 j i firstData hpc =>
    split at h
    · cases h
    · next tmp strm hstrm =>
      cases h
      rw [beatsOf_append, List.append_assoc, hstrm]
      rfl
  case h_10 hpc =>
    cases h
    exact congrArg (· ++ x.strm) htrigger
  case h_5 pc hpc =>
    cases h
    exact congrArg (· ++ x.strm) htrigger
  case h_9 j i hpc =>
    cases h
    exact congrArg (· ++ x.strm) htrigger
  case h_12 hpc =>
    cases h
    exact congrArg (· ++ x.strm) htrigger
  all_goals
    cases h
    try rfl

namespace Harness

variable {H : Harness} {s s' : HarnessState} {c : Nat}

/-! ### What each step does -/

theorem load_eq_some (h : H.lts.step .load s = some s') :
    ∃ load io, H.loadMemories.step s.load (txView s) = some (load, io)
      ∧ s' = { s with
          load
          reads := io.reads
          lost := io.lost
          to_aie_ch := fun c => withMemStr (s.to_aie_ch c) (io.to_aie_strm c) } := by
  obtain ⟨⟨load, io⟩, hstep, heq⟩ := Option.map_eq_some_iff.mp h
  exact ⟨load, io, hstep, heq.symm⟩

theorem store_eq_some (h : H.lts.step .store s = some s') :
    ∃ store io, H.storeMemories.step s.store s.io = some (store, io)
      ∧ s' = { s with store, io } := by
  obtain ⟨⟨store, io⟩, hstep, heq⟩ := Option.map_eq_some_iff.mp h
  exact ⟨store, io, hstep, heq.symm⟩

theorem guard_eq_some {σ : Type} {P : Prop} [Decidable P] {x : Option σ} {y : σ}
    (h : (if P then x else none) = some y) : P ∧ x = some y := by
  split at h
  · exact ⟨‹_›, h⟩
  · cases h

theorem feed_eq_some (h : H.lts.step (.feed c) s = some s') :
    c < H.p.num_channels ∧ ∃ ch, (H.loadStream c).step
        (some (.step ((s.to_aie_strm c).length < H.to_depth c))) (s.to_aie_ch c) = some ch
      ∧ s' = { s with
          to_aie_ch := Function.update s.to_aie_ch c ch
          to_aie_strm := Function.update s.to_aie_strm c (s.to_aie_strm c
            ++ beatsOf (ch.proc.acts.drop (s.to_aie_ch c).proc.acts.length)) } := by
  obtain ⟨hc, h⟩ := guard_eq_some h
  obtain ⟨ch, hstep, heq⟩ := Option.map_eq_some_iff.mp h
  exact ⟨hc, ch, hstep, heq.symm⟩

theorem countTo_eq_some (h : H.lts.step (.countTo c) s = some s') :
    c < H.p.num_channels ∧ ∃ ch, (H.loadStream c).step none (s.to_aie_ch c) = some ch
      ∧ s' = { s with to_aie_ch := Function.update s.to_aie_ch c ch } := by
  obtain ⟨hc, h⟩ := guard_eq_some h
  obtain ⟨ch, hstep, heq⟩ := Option.map_eq_some_iff.mp h
  exact ⟨hc, ch, hstep, heq.symm⟩

theorem take_eq_some (h : H.lts.step (.take c) s = some s') :
    c < H.p.num_channels ∧ ∃ b rest, s.to_aie_strm c = b :: rest
      ∧ s' = { s with
          to_aie_strm := Function.update s.to_aie_strm c rest
          taken := Function.update s.taken c (s.taken c ++ [b]) } := by
  obtain ⟨hc, h⟩ := guard_eq_some h
  unfold takeStep at h
  split at h
  · cases h
  · next b rest heq => exact ⟨hc, b, rest, heq, (Option.some.inj h).symm⟩

theorem give_eq_some (h : H.lts.step (.give c) s = some s') :
    c < H.p.num_channels ∧ ∃ b, (H.graph.out s.taken c)[s.given c]? = some b
      ∧ (s.from_aie_ch c).proc.strm.length < H.from_depth c
      ∧ s' = { s with
          from_aie_ch := Function.update s.from_aie_ch c { s.from_aie_ch c with
            proc := { (s.from_aie_ch c).proc with strm := (s.from_aie_ch c).proc.strm ++ [b] } }
          given := Function.update s.given c (s.given c + 1) } := by
  obtain ⟨hc, h⟩ := guard_eq_some h
  unfold giveStep at h
  split at h
  · cases h
  · next b hb =>
    obtain ⟨hroom, h⟩ := guard_eq_some h
    exact ⟨hc, b, hb, hroom, (Option.some.inj h).symm⟩

theorem get_eq_some (h : H.lts.step (.get c) s = some s') :
    c < H.p.num_channels
      ∧ ∃ ch room, room = decide ((s.io.from_aie_strm c).length < H.burst_len * 2)
      ∧ (H.storeStream c).step (some (.step room)) (s.from_aie_ch c) = some ch
      ∧ s' = { s with
          from_aie_ch := Function.update s.from_aie_ch c ch
          io := { s.io with
            from_aie_strm := Function.update s.io.from_aie_strm c (s.io.from_aie_strm c
              ++ GetState.put H.p (H.chs.from_aie_ch c) room (s.from_aie_ch c).proc) } } := by
  obtain ⟨hc, h⟩ := guard_eq_some h
  obtain ⟨ch, hstep, heq⟩ := Option.map_eq_some_iff.mp h
  exact ⟨hc, ch, _, rfl, hstep, heq.symm⟩

theorem countFrom_eq_some (h : H.lts.step (.countFrom c) s = some s') :
    c < H.p.num_channels ∧ ∃ ch, (H.storeStream c).step none (s.from_aie_ch c) = some ch
      ∧ s' = { s with from_aie_ch := Function.update s.from_aie_ch c ch } := by
  obtain ⟨hc, h⟩ := guard_eq_some h
  obtain ⟨ch, hstep, heq⟩ := Option.map_eq_some_iff.mp h
  exact ⟨hc, ch, hstep, heq.symm⟩

/-! ### One channel with its counter -/

theorem memStr_of_load {load : MemProc} {io : TxIO}
    (h : H.loadMemories.step s.load (txView s) = some (load, io)) (c : Nat) :
    io.to_aie_strm c = (s.to_aie_ch c).proc.memStr
      ∨ ∃ data, io.to_aie_strm c = (s.to_aie_ch c).proc.memStr ++ [data] := by
  rcases MemLoop.step_eq_or_move h with rfl | ⟨ch_id, k, rfl⟩
  · exact Or.inl rfl
  · exact (Transmit.writeNb_memStr _ ch_id c _).imp_right fun h => ⟨_, h⟩

theorem simulates_loadStream (c : Nat) :
    Lts.Simulates H.lts (H.loadStream c) (fun s => s.to_aie_ch c) (fun _ => True) (fun _ _ => True)
      (fun _ _ => True) := by
  -- a step that replaces one channel by what a step of it leads to
  have hchannel : ∀ {l : Option FeedLabel} {s : HarnessState} {c' : Nat} {ch : Counted FeedState},
      (H.loadStream c').step l (s.to_aie_ch c') = some ch →
        Function.update s.to_aie_ch c' ch c = s.to_aie_ch c
          ∨ ∃ k, True ∧ (H.loadStream c).step k (s.to_aie_ch c)
              = some (Function.update s.to_aie_ch c' ch c) := by
    intro l s c' ch hstep
    by_cases hc : c = c'
    · subst hc
      exact Or.inr ⟨l, trivial, by rwa [Function.update_self]⟩
    · exact Or.inl (Function.update_of_ne hc ..)
  intro l s s' _ _ hstep
  cases l with
  | load =>
      obtain ⟨load, io, hload, rfl⟩ := load_eq_some hstep
      change withMemStr (s.to_aie_ch c) (io.to_aie_strm c) = s.to_aie_ch c ∨ _
      rcases memStr_of_load hload c with heq | ⟨data, heq⟩
      · exact Or.inl (by rw [heq]; rfl)
      · exact Or.inr ⟨some (.mem data), trivial, by simp only [heq]; rfl⟩
  | feed c' =>
      obtain ⟨-, ch, hch, rfl⟩ := feed_eq_some hstep
      exact hchannel hch
  | countTo c' =>
      obtain ⟨-, ch, hch, rfl⟩ := countTo_eq_some hstep
      exact hchannel hch
  | take c' =>
      obtain ⟨-, b, rest, -, rfl⟩ := take_eq_some hstep
      exact Or.inl rfl
  | give c' =>
      obtain ⟨-, b, -, -, rfl⟩ := give_eq_some hstep
      exact Or.inl rfl
  | get c' =>
      obtain ⟨-, ch, room, -, -, rfl⟩ := get_eq_some hstep
      exact Or.inl rfl
  | countFrom c' =>
      obtain ⟨-, ch, -, rfl⟩ := countFrom_eq_some hstep
      exact Or.inl rfl
  | store =>
      obtain ⟨store, io, -, rfl⟩ := store_eq_some hstep
      exact Or.inl rfl

theorem simulates_storeStream (c : Nat) :
    Lts.Simulates H.lts (H.storeStream c) (fun s => s.from_aie_ch c) (fun _ => True)
      (fun _ _ => True) (fun _ _ => True) := by
  have hchannel : ∀ {l : Option GetLabel} {s : HarnessState} {c' : Nat} {ch : Counted GetState},
      (H.storeStream c').step l (s.from_aie_ch c') = some ch →
        Function.update s.from_aie_ch c' ch c = s.from_aie_ch c
          ∨ ∃ k, True ∧ (H.storeStream c).step k (s.from_aie_ch c)
              = some (Function.update s.from_aie_ch c' ch c) := by
    intro l s c' ch hstep
    by_cases hc : c = c'
    · subst hc
      exact Or.inr ⟨l, trivial, by rwa [Function.update_self]⟩
    · exact Or.inl (Function.update_of_ne hc ..)
  intro l s s' _ _ hstep
  cases l with
  | load =>
      obtain ⟨load, io, -, rfl⟩ := load_eq_some hstep
      exact Or.inl rfl
  | feed c' =>
      obtain ⟨-, ch, -, rfl⟩ := feed_eq_some hstep
      exact Or.inl rfl
  | countTo c' =>
      obtain ⟨-, ch, -, rfl⟩ := countTo_eq_some hstep
      exact Or.inl rfl
  | take c' =>
      obtain ⟨-, b, rest, -, rfl⟩ := take_eq_some hstep
      exact Or.inl rfl
  | give c' =>
      obtain ⟨-, b, -, -, rfl⟩ := give_eq_some hstep
      exact hchannel (l := some (.aie b)) rfl
  | get c' =>
      obtain ⟨-, ch, room, -, hch, rfl⟩ := get_eq_some hstep
      exact hchannel hch
  | countFrom c' =>
      obtain ⟨-, ch, hch, rfl⟩ := countFrom_eq_some hstep
      exact hchannel hch
  | store =>
      obtain ⟨store, io, -, rfl⟩ := store_eq_some hstep
      exact Or.inl rfl

theorem loadStream_run (hrun : H.lts.Run s s') (c : Nat) :
    (H.loadStream c).Run (s.to_aie_ch c) (s'.to_aie_ch c) :=
  (simulates_loadStream c).run (fun _ _ _ _ _ _ => trivial) trivial hrun

theorem storeStream_run (hrun : H.lts.Run s s') (c : Nat) :
    (H.storeStream c).Run (s.from_aie_ch c) (s'.from_aie_ch c) :=
  (simulates_storeStream c).run (fun _ _ _ _ _ _ => trivial) trivial hrun

/-! ### What the graph takes -/

/-- What has been sent is what the graph has taken and what is still on the stream. -/
def Sent (s : HarnessState) : Prop :=
  ∀ c, beatsOf (s.to_aie_ch c).proc.acts = s.taken c ++ s.to_aie_strm c

theorem proc_of_count {σ ι : Type} {P : Source σ ι} {ch ch' : Counted σ}
    (h : P.counted.step none ch = some ch') : ch'.proc = ch.proc := by
  rcases (counted_step_none h).2 with ⟨-, rfl⟩ | ⟨-, -, rfl⟩ | ⟨-, -, rfl⟩ | ⟨-, -, rfl⟩ <;> rfl

theorem Sent.step (h : Sent s) {l : HarnessEvent} (hstep : H.lts.step l s = some s') : Sent s' := by
  intro c
  cases l with
  | load =>
      obtain ⟨load, io, -, rfl⟩ := load_eq_some hstep
      exact h c
  | feed c' =>
      obtain ⟨-, ch, hch, rfl⟩ := feed_eq_some hstep
      by_cases hc : c = c'
      · subst hc
        simp only [Function.update_self]
        obtain ⟨proc, trig, hfeed, rfl⟩ := counted_step_some hch
        rw [(FeedState.step_adds hfeed).beatsOf_eq, h c, List.append_assoc]
      · simp only [Function.update_of_ne hc]
        exact h c
  | countTo c' =>
      obtain ⟨-, ch, hch, rfl⟩ := countTo_eq_some hstep
      by_cases hc : c = c'
      · subst hc
        simp only [Function.update_self]
        rw [proc_of_count hch]
        exact h c
      · simp only [Function.update_of_ne hc]
        exact h c
  | take c' =>
      obtain ⟨-, b, rest, hstrm, rfl⟩ := take_eq_some hstep
      by_cases hc : c = c'
      · subst hc
        simp only [Function.update_self]
        rw [h c, hstrm, List.append_assoc, List.singleton_append]
      · simp only [Function.update_of_ne hc]
        exact h c
  | give c' =>
      obtain ⟨-, b, -, -, rfl⟩ := give_eq_some hstep
      exact h c
  | get c' =>
      obtain ⟨-, ch, room, -, -, rfl⟩ := get_eq_some hstep
      exact h c
  | countFrom c' =>
      obtain ⟨-, ch, -, rfl⟩ := countFrom_eq_some hstep
      exact h c
  | store =>
      obtain ⟨store, io, -, rfl⟩ := store_eq_some hstep
      exact h c

theorem sent_of_run (hrun : H.lts.Run H.init s) : Sent s :=
  hrun.invariant (fun _ _ _ h _ hstep => h.step hstep) fun _ => rfl

theorem graph_of_step {l : HarnessEvent} (hstep : H.lts.step l s = some s') :
    (∃ c, l = .take c ∨ l = .give c) ∨ (s'.taken = s.taken ∧ s'.given = s.given) := by
  cases l with
  | take c => exact Or.inl ⟨c, Or.inl rfl⟩
  | give c => exact Or.inl ⟨c, Or.inr rfl⟩
  | load =>
      obtain ⟨load, io, -, rfl⟩ := load_eq_some hstep
      exact Or.inr ⟨rfl, rfl⟩
  | feed c =>
      obtain ⟨-, ch, -, rfl⟩ := feed_eq_some hstep
      exact Or.inr ⟨rfl, rfl⟩
  | countTo c =>
      obtain ⟨-, ch, -, rfl⟩ := countTo_eq_some hstep
      exact Or.inr ⟨rfl, rfl⟩
  | get c =>
      obtain ⟨-, ch, room, -, -, rfl⟩ := get_eq_some hstep
      exact Or.inr ⟨rfl, rfl⟩
  | countFrom c =>
      obtain ⟨-, ch, -, rfl⟩ := countFrom_eq_some hstep
      exact Or.inr ⟨rfl, rfl⟩
  | store =>
      obtain ⟨store, io, -, rfl⟩ := store_eq_some hstep
      exact Or.inr ⟨rfl, rfl⟩

theorem taken_of_step {l : HarnessEvent} (hstep : H.lts.step l s = some s') (c : Nat) :
    s.taken c <+: s'.taken c := by
  rcases graph_of_step hstep with ⟨c', rfl | rfl⟩ | ⟨heq, -⟩
  · obtain ⟨-, b, rest, -, rfl⟩ := take_eq_some hstep
    by_cases hc : c = c'
    · subst hc
      simp only [Function.update_self]
      exact List.prefix_append ..
    · simp only [Function.update_of_ne hc]
      exact List.prefix_refl _
  · obtain ⟨-, b, -, -, rfl⟩ := give_eq_some hstep
    exact List.prefix_refl _
  · exact heq.symm ▸ List.prefix_refl _

theorem taken_of_ge (hrun : H.lts.Run H.init s) (hc : H.p.num_channels ≤ c) : s.taken c = [] := by
  refine hrun.invariant (I := fun s => s.taken c = []) (fun l s s' hI _ hstep => ?_) rfl
  rcases graph_of_step hstep with ⟨c', rfl | rfl⟩ | ⟨heq, -⟩
  · obtain ⟨hc', b, rest, -, rfl⟩ := take_eq_some hstep
    exact (Function.update_of_ne (by omega) ..).trans hI
  · obtain ⟨-, b, -, -, rfl⟩ := give_eq_some hstep
    exact hI
  · rw [heq]
    exact hI

/-- The graph has delivered no more than it has put out. -/
theorem given_le_of_run (hrun : H.lts.Run H.init s) (c : Nat) :
    s.given c ≤ (H.graph.out s.taken c).length := by
  refine hrun.invariant (I := fun s => s.given c ≤ (H.graph.out s.taken c).length)
    (fun l s s' hI _ hstep => ?_) (Nat.zero_le _)
  have hgrows := (H.graph.mono (taken_of_step hstep) c).length_le
  rcases graph_of_step hstep with ⟨c', rfl | rfl⟩ | ⟨htaken, hgiven⟩
  · obtain ⟨-, b, rest, -, rfl⟩ := take_eq_some hstep
    exact hI.trans hgrows
  · obtain ⟨-, b, hb, -, rfl⟩ := give_eq_some hstep
    by_cases hc : c = c'
    · subst hc
      simp only [Function.update_self]
      exact (List.getElem?_eq_some_iff.mp hb).1
    · simp only [Function.update_of_ne hc]
      exact hI
  · rw [htaken, hgiven]
    exact hI

def received (s : HarnessState) (c : Nat) : List Beat :=
  beatsOf (s.from_aie_ch c).proc.acts ++ (s.from_aie_ch c).proc.strm

theorem received_of_step {l : HarnessEvent} (hstep : H.lts.step l s = some s') (c : Nat) :
    (received s' c = received s c ∧ s'.given c = s.given c)
      ∨ ∃ b, (H.graph.out s.taken c)[s.given c]? = some b ∧ received s' c = received s c ++ [b]
        ∧ s'.given c = s.given c + 1 ∧ s'.taken = s.taken := by
  have hchannel : ∀ {s' : HarnessState} {c' : Nat} {ch : Counted GetState},
      s'.from_aie_ch = Function.update s.from_aie_ch c' ch →
        (c ≠ c' ∧ received s' c = received s c)
          ∨ c = c' ∧ received s' c = beatsOf ch.proc.acts ++ ch.proc.strm := by
    intro s' c' ch hmap
    unfold received
    by_cases hc : c = c'
    · subst hc
      exact Or.inr ⟨rfl, by rw [hmap, Function.update_self]⟩
    · exact Or.inl ⟨hc, by rw [hmap, Function.update_of_ne hc]⟩
  cases l with
  | load =>
      obtain ⟨load, io, -, rfl⟩ := load_eq_some hstep
      exact Or.inl ⟨rfl, rfl⟩
  | feed c' =>
      obtain ⟨-, ch, -, rfl⟩ := feed_eq_some hstep
      exact Or.inl ⟨rfl, rfl⟩
  | countTo c' =>
      obtain ⟨-, ch, -, rfl⟩ := countTo_eq_some hstep
      exact Or.inl ⟨rfl, rfl⟩
  | take c' =>
      obtain ⟨-, b, rest, -, rfl⟩ := take_eq_some hstep
      exact Or.inl ⟨rfl, rfl⟩
  | give c' =>
      obtain ⟨-, b, hb, -, hs'⟩ := give_eq_some hstep
      have hcount : s'.given = Function.update s.given c' _ := congrArg HarnessState.given hs'
      have htaken : s'.taken = s.taken := by rw [hs']
      rcases hchannel (congrArg HarnessState.from_aie_ch hs') with ⟨hc, hsame⟩ | ⟨rfl, hmine⟩
      · exact Or.inl ⟨hsame, by rw [hcount, Function.update_of_ne hc]⟩
      · refine Or.inr ⟨b, hb, ?_, by rw [hcount, Function.update_self], htaken⟩
        rw [hmine, received, List.append_assoc]
  | get c' =>
      obtain ⟨-, ch, room, -, hch, hs'⟩ := get_eq_some hstep
      obtain ⟨proc, trig, hnext, rfl⟩ := counted_step_some hch
      have hgiven : s'.given = s.given := by rw [hs']
      refine Or.inl ⟨?_, congrFun hgiven c⟩
      rcases hchannel (congrArg HarnessState.from_aie_ch hs') with ⟨-, hsame⟩ | ⟨rfl, hmine⟩
      · exact hsame
      · rw [hmine]
        exact GetState.received_of_next hnext
  | countFrom c' =>
      obtain ⟨-, ch, hch, hs'⟩ := countFrom_eq_some hstep
      have hgiven : s'.given = s.given := by rw [hs']
      refine Or.inl ⟨?_, congrFun hgiven c⟩
      rcases hchannel (congrArg HarnessState.from_aie_ch hs') with ⟨-, hsame⟩ | ⟨rfl, hmine⟩
      · exact hsame
      · rw [hmine, proc_of_count hch]
        rfl
  | store =>
      obtain ⟨store, io, -, rfl⟩ := store_eq_some hstep
      exact Or.inl ⟨rfl, rfl⟩

/-- What `get` has read are the first words the graph has put out. -/
theorem received_eq_of_run (hrun : H.lts.Run H.init s) (c : Nat) :
    received s c = (H.graph.out s.taken c).take (s.given c) := by
  refine hrun.invariant_of (I := fun s => received s c = (H.graph.out s.taken c).take (s.given c))
    (J := fun s => s.given c ≤ (H.graph.out s.taken c).length)
    (fun t ht => given_le_of_run ht c) (fun l s s' hle hI _ hstep => ?_) rfl
  rcases received_of_step hstep c with ⟨hsame, hgiven⟩ | ⟨b, hb, hnew, hgiven, htaken⟩
  · -- the words put out before stay the first ones
    obtain ⟨more, hmore⟩ := H.graph.mono (taken_of_step hstep) c
    rw [hsame, hI, hgiven, ← hmore, List.take_append_of_le_length hle]
  · rw [hnew, hI, hgiven, htaken, List.take_add_one, hb]
    rfl

end Harness

end AieTestHarness
