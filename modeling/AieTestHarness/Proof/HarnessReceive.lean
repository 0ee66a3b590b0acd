import AieTestHarness.Proof.FuncReceive
import AieTestHarness.Proof.HarnessTransmit

/-!
# The region in functional mode, from the AIE

As long as the graph has taken nothing but the first part of `inputs`, the region is seen from
`store_memories` as the functional mode from the AIE, and what the AIE delivers are the first
`numFrames` words the graph puts out on `inputs`. What the graph delivers beyond them stays on the
stream.
-/

namespace AieTestHarness

open Slices

/-- Where `get` stands in functional mode, its triggers left out. -/
def GetProc.funcPc : GetProc → GetPc
  | .wait count => .wait count
  | .func pc _ | .funcMark pc => pc
  | .perf _ _ _ | .perfMark _ _ | .after _ | .last | .returned => .done

def GetProc.Func : GetProc → Prop
  | .perf _ _ _ | .perfMark _ _ => False
  | _ => True

section Get

variable {p : Kernel} {ch : Channel} {bs : List Beat} {room trig : Bool} {x y : GetState}

/-- A statement of `get` in functional mode is one of the model without triggers, or a stutter. -/
theorem GetState.func_of_next (hmode : ch.mode = .FUNC_MODE) (hfunc : x.pc.Func)
    (h : next p ch room x = some (y, trig)) :
    y.pc.Func ∧ ((y.pc.funcPc = x.pc.funcPc ∧ y.strm = x.strm ∧ x.put p ch room = [])
      ∨ getStep p ch room x.strm x.pc.funcPc = some (y.pc.funcPc, y.strm, x.put p ch room)) := by
  obtain ⟨pc, strm, buff, acts⟩ := x
  cases pc with
  | wait count =>
      cases count with
      | zero =>
          obtain ⟨rfl, -⟩ := Prod.mk.inj (Option.some.inj h)
          have hbranch : branch ch = .func (.head 0) true := by rw [branch, hmode]
          refine ⟨?_, Or.inr ?_⟩
          · change (branch ch).Func
            rw [hbranch]
            trivial
          · change some (GetPc.head 0, strm, []) = some ((branch ch).funcPc, strm, [])
            rw [hbranch]
            rfl
      | succ count =>
          obtain ⟨rfl, -⟩ := Prod.mk.inj (Option.some.inj h)
          exact ⟨trivial, Or.inr rfl⟩
  | func pc firstData =>
      by_cases hpc : pc = .done
      · subst hpc
        obtain ⟨rfl, -⟩ := Prod.mk.inj (Option.some.inj h)
        exact ⟨trivial, Or.inl ⟨rfl, rfl, rfl⟩⟩
      · rw [next_func hpc, Option.map_eq_some_iff] at h
        obtain ⟨⟨pc', strm', out⟩, hstep, heq⟩ := h
        obtain ⟨rfl, -⟩ := Prod.mk.inj heq
        have hput : GetState.put p ch room ⟨.func pc firstData, strm, buff, acts⟩ = out := by
          simp only [GetState.put, hstep, Option.map_some, Option.getD_some]
        have hafter : (afterRead firstData strm strm' pc').Func
            ∧ (afterRead firstData strm strm' pc').funcPc = pc' := by
          unfold afterRead
          split
          · exact ⟨trivial, rfl⟩
          · exact ⟨trivial, rfl⟩
        refine ⟨hafter.1, Or.inr ?_⟩
        rw [hput, hafter.2]
        exact hstep
  | funcMark pc =>
      obtain ⟨rfl, -⟩ := Prod.mk.inj (Option.some.inj h)
      exact ⟨trivial, Or.inl ⟨rfl, rfl, rfl⟩⟩
  | perf j i firstData => exact hfunc.elim
  | perfMark j i => exact hfunc.elim
  | after firstData =>
      cases firstData with
      | true =>
          obtain ⟨rfl, -⟩ := Prod.mk.inj (Option.some.inj h)
          exact ⟨trivial, Or.inl ⟨rfl, rfl, rfl⟩⟩
      | false =>
          obtain ⟨rfl, -⟩ := Prod.mk.inj (Option.some.inj h)
          exact ⟨trivial, Or.inl ⟨rfl, rfl, rfl⟩⟩
  | last =>
      obtain ⟨rfl, -⟩ := Prod.mk.inj (Option.some.inj h)
      exact ⟨trivial, Or.inl ⟨rfl, rfl, rfl⟩⟩
  | returned => cases h

/-- `get` does not see the stream words beyond those it is to read. -/
theorem getStep_take {pc pc' : GetPc} {strm strm' : List Beat} {out : List MemWord}
    (hok : pc.Ok p ch bs) (h : getStep p ch room strm pc = some (pc', strm', out)) :
    getStep p ch room (strm.take (ch.numFrames - pc.reads p ch)) pc
      = some (pc', strm'.take (ch.numFrames - pc'.reads p ch), out) := by
  rcases (reads_of_getStep hok.inRange h).2 with ⟨rfl, hreads, hall⟩ | ⟨tmp, rfl, hreads, hlt, hall⟩
  · rw [hreads]
    exact hall _
  · rw [show ch.numFrames - pc.reads p ch = ch.numFrames - pc'.reads p ch + 1 by omega,
      List.take_succ_cons]
    exact hall _

end Get

namespace Harness

variable {H : Harness} {s s' : HarnessState} {inputs : Nat → List Beat} {c : Nat}

/-- What `get` of a channel is to read of what the graph puts out. -/
def delivered (H : Harness) (inputs : Nat → List Beat) (c : Nat) : List Beat :=
  (H.graph.out inputs c).take (H.chs.from_aie_ch c).numFrames

theorem sized_delivered (H : Harness) (inputs : Nat → List Beat) (c : Nat) :
    Sized H.p (H.delivered inputs c) :=
  fun b hb => H.graph.sized inputs c b (List.mem_of_mem_take hb)

def readsAt (H : Harness) (s : HarnessState) (c : Nat) : Nat :=
  (s.from_aie_ch c).proc.pc.funcPc.reads H.p (H.chs.from_aie_ch c)

/-- The region from the side of `store_memories`. -/
def toRx (H : Harness) (inputs : Nat → List Beat) (s : HarnessState) : RxState where
  store := s.store
  io := s.io
  get c := (s.from_aie_ch c).proc.pc.funcPc
  axi c := (s.from_aie_ch c).proc.strm.take ((H.chs.from_aie_ch c).numFrames - H.readsAt s c)
  todo c := (H.delivered inputs c).drop (s.given c)

def rxLabel : HarnessEvent → RxLabel
  | .get c => .get c
  | .give c => .aie c
  | _ => .store

structure RxView (H : Harness) (inputs : Nat → List Beat) (s : HarnessState) (c : Nat) : Prop where
  func : (s.from_aie_ch c).proc.pc.Func
  given_eq : s.given c = H.readsAt s c + (s.from_aie_ch c).proc.strm.length
  flow : ∃ fifo, RxFlow H.p (H.chs.from_aie_ch c) (H.delivered inputs c) ((H.toRx inputs s).get c)
    ((H.toRx inputs s).axi c) ((H.toRx inputs s).todo c) fifo 0

theorem RxView.congr (h : H.RxView inputs s c)
    (hproc : (s'.from_aie_ch c).proc = (s.from_aie_ch c).proc)
    (hgiven : s'.given c = s.given c) : H.RxView inputs s' c := by
  obtain ⟨hfunc, heq, hflow⟩ := h
  unfold readsAt at heq
  unfold toRx readsAt at hflow
  refine ⟨by rwa [hproc], ?_, ?_⟩
  · unfold readsAt
    rwa [hproc, hgiven]
  · unfold toRx readsAt
    simpa only [hproc, hgiven] using hflow

theorem toRx_eq {t : RxState} (hstore : s.store = t.store) (hio : s.io = t.io)
    (hch : ∀ c, (H.toRx inputs s).get c = t.get c ∧ (H.toRx inputs s).axi c = t.axi c
      ∧ (H.toRx inputs s).todo c = t.todo c) : H.toRx inputs s = t := by
  obtain ⟨store, io, get, axi, todo⟩ := t
  obtain rfl : (H.toRx inputs s).get = get := funext fun c => (hch c).1
  obtain rfl : (H.toRx inputs s).axi = axi := funext fun c => (hch c).2.1
  obtain rfl : (H.toRx inputs s).todo = todo := funext fun c => (hch c).2.2
  subst hstore hio
  rfl

/-- The next word of a graph that has taken the first part of `inputs`. -/
theorem delivered_of_out {b : Beat} (htaken : ∀ c, s.taken c <+: inputs c)
    (hb : (H.graph.out s.taken c)[s.given c]? = some b)
    (hlt : s.given c < (H.chs.from_aie_ch c).numFrames) :
    (H.delivered inputs c).drop (s.given c) = b :: (H.delivered inputs c).drop (s.given c + 1) := by
  have hout : (H.graph.out inputs c)[s.given c]? = some b := by
    obtain ⟨rest, hrest⟩ := H.graph.mono htaken c
    rw [← hrest, List.getElem?_append_left (List.getElem?_eq_some_iff.mp hb).1]
    exact hb
  have hget : (H.delivered inputs c)[s.given c]? = some b := by
    rw [delivered, List.getElem?_take_of_lt hlt]
    exact hout
  obtain ⟨hlen, rfl⟩ := List.getElem?_eq_some_iff.mp hget
  exact List.drop_eq_getElem_cons hlen

theorem rx_of_give (htaken : ∀ c, s.taken c <+: inputs c) (hview : ∀ c, H.RxView inputs s c)
    (hstep : H.lts.step (.give c) s = some s') :
    (∀ c', H.RxView inputs s' c') ∧ (H.toRx inputs s' = H.toRx inputs s
      ∨ (H.receive (H.delivered inputs)).lts.step (.aie c) (H.toRx inputs s)
          = some (H.toRx inputs s')) := by
  obtain ⟨hc, b, hb, hroom, hs'⟩ := give_eq_some hstep
  obtain ⟨hfunc, hgiven, fifo, hflow⟩ := hview c
  have hle : H.readsAt s c ≤ (H.chs.from_aie_ch c).numFrames := reads_le_numFrames hflow.ok.inRange
  have hmap : s'.from_aie_ch = Function.update s.from_aie_ch c _ :=
    congrArg HarnessState.from_aie_ch hs'
  have hcount : s'.given = Function.update s.given c _ := congrArg HarnessState.given hs'
  have hpc : (s'.from_aie_ch c).proc.pc = (s.from_aie_ch c).proc.pc := by
    rw [hmap, Function.update_self]
  have hstrm : (s'.from_aie_ch c).proc.strm = (s.from_aie_ch c).proc.strm ++ [b] := by
    rw [hmap, Function.update_self]
  have hnext : s'.given c = s.given c + 1 := by rw [hcount, Function.update_self]
  have hreads : H.readsAt s' c = H.readsAt s c := by rw [readsAt, readsAt, hpc]
  have hother : ∀ c', c' ≠ c → (s'.from_aie_ch c').proc = (s.from_aie_ch c').proc
      ∧ s'.given c' = s.given c' := by
    intro c' hc'
    rw [hmap, hcount, Function.update_of_ne hc', Function.update_of_ne hc']
    exact ⟨rfl, rfl⟩
  have hgiven' : s'.given c = H.readsAt s' c + (s'.from_aie_ch c).proc.strm.length := by
    rw [hnext, hreads, hstrm, hgiven, List.length_append, List.length_singleton, Nat.add_assoc]
  have hget : (H.toRx inputs s').get c = (H.toRx inputs s).get c := congrArg GetProc.funcPc hpc
  -- what the other channels look like has not changed
  have hsame : ∀ c', c' ≠ c → (H.toRx inputs s').get c' = (H.toRx inputs s).get c'
      ∧ (H.toRx inputs s').axi c' = (H.toRx inputs s).axi c'
      ∧ (H.toRx inputs s').todo c' = (H.toRx inputs s).todo c' := by
    intro c' hc'
    obtain ⟨hproc, heq⟩ := hother c' hc'
    unfold toRx readsAt
    simp only [hproc, heq, and_self]
  have hviews : H.RxView inputs s' c → ∀ c', H.RxView inputs s' c' := by
    intro hmine c'
    by_cases hc' : c' = c
    · rw [hc']
      exact hmine
    · exact (hview c').congr (hother c' hc').1 (hother c' hc').2
  by_cases hlt : s.given c < (H.chs.from_aie_ch c).numFrames
  · -- `get` is to read the word
    have htodo : (H.toRx inputs s).todo c = b :: (H.toRx inputs s').todo c := by
      change (H.delivered inputs c).drop (s.given c) = b :: (H.delivered inputs c).drop (s'.given c)
      rw [hnext]
      exact delivered_of_out htaken hb hlt
    have haxi : (H.toRx inputs s).axi c = (s.from_aie_ch c).proc.strm :=
      List.take_of_length_le (by omega)
    have haxi' : (H.toRx inputs s').axi c = (H.toRx inputs s).axi c ++ [b] := by
      rw [haxi, ← hstrm]
      exact List.take_of_length_le (by omega)
    refine ⟨hviews ⟨by rwa [hpc], hgiven', fifo, ?_⟩, Or.inr ?_⟩
    · rw [hget, haxi']
      rw [htodo] at hflow
      exact hflow.deliver
    · change (if c < H.p.num_channels then (H.receive (H.delivered inputs)).deliver _ c else none)
        = _
      rw [if_pos hc, Receive.deliver, htodo]
      have hfits : ((H.toRx inputs s).axi c).length < H.from_depth c := by rwa [haxi]
      refine (if_pos hfits).trans (congrArg some (toRx_eq ?_ ?_ fun c' => ?_).symm)
      · rw [hs']
        rfl
      · rw [hs']
        rfl
      · by_cases hc' : c' = c
        · subst hc'
          refine ⟨hget, ?_, ?_⟩
          · simp only [Function.update_self]
            exact haxi'
          · simp only [Function.update_self]
        · simp only [Function.update_of_ne hc']
          exact hsame c' hc'
  · -- it is beyond them
    have htodo : (H.toRx inputs s').todo c = (H.toRx inputs s).todo c := by
      have hshort : (H.delivered inputs c).length ≤ s.given c :=
        (List.length_take_le ..).trans (Nat.le_of_not_lt hlt)
      change (H.delivered inputs c).drop (s'.given c) = (H.delivered inputs c).drop (s.given c)
      rw [List.drop_of_length_le hshort, List.drop_of_length_le (by omega)]
    have haxi : (H.toRx inputs s').axi c = (H.toRx inputs s).axi c := by
      change (s'.from_aie_ch c).proc.strm.take _ = (s.from_aie_ch c).proc.strm.take _
      rw [hstrm, hreads, List.take_append_of_le_length (by omega)]
    refine ⟨hviews ⟨by rwa [hpc], hgiven', fifo, ?_⟩, Or.inl (toRx_eq ?_ ?_ fun c' => ?_)⟩
    · rwa [hget, haxi, htodo]
    · rw [hs']
      rfl
    · rw [hs']
      rfl
    · by_cases hc' : c' = c
      · subst hc'
        exact ⟨hget, haxi, htodo⟩
      · exact hsame c' hc'

theorem rx_of_get (hfunc : H.Func) (hview : ∀ c, H.RxView inputs s c)
    (hstep : H.lts.step (.get c) s = some s') :
    (∀ c', H.RxView inputs s' c') ∧ (H.toRx inputs s' = H.toRx inputs s
      ∨ (H.receive (H.delivered inputs)).lts.step (.get c) (H.toRx inputs s)
          = some (H.toRx inputs s')) := by
  obtain ⟨hc, ch, room, hroom, hch, hs'⟩ := get_eq_some hstep
  obtain ⟨proc, trig, hnext, hch⟩ := counted_step_some hch
  obtain ⟨hproc, hgiven, fifo, hflow⟩ := hview c
  obtain ⟨hproc', hcases⟩ := GetState.func_of_next (hfunc.from_mode c) hproc hnext
  have hmap : s'.from_aie_ch = Function.update s.from_aie_ch c ch :=
    congrArg HarnessState.from_aie_ch hs'
  have hmine : (s'.from_aie_ch c).proc = proc := by rw [hmap, Function.update_self, hch]
  have hgiven' : s'.given = s.given := by rw [hs']
  have hother : ∀ c', c' ≠ c → (s'.from_aie_ch c').proc = (s.from_aie_ch c').proc := by
    intro c' hc'
    rw [hmap, Function.update_of_ne hc']
  have hviews : H.RxView inputs s' c → ∀ c', H.RxView inputs s' c' := by
    intro hmine c'
    by_cases hc' : c' = c
    · rw [hc']
      exact hmine
    · exact (hview c').congr (hother c' hc') (congrFun hgiven' c')
  rcases hcases with ⟨hpc, hstrm, hput⟩ | hget
  · -- a trigger, or the end of the branch
    have hsame : (H.toRx inputs s').get c = (H.toRx inputs s).get c
        ∧ (H.toRx inputs s').axi c = (H.toRx inputs s).axi c
        ∧ (H.toRx inputs s').todo c = (H.toRx inputs s).todo c := by
      unfold toRx readsAt
      simp only [hmine, hpc, hstrm, hgiven', and_self]
    refine ⟨hviews ⟨by rwa [hmine], ?_, fifo, ?_⟩, Or.inl (toRx_eq ?_ ?_ fun c' => ?_)⟩
    · rw [hgiven', hgiven, readsAt, readsAt, hmine, hpc, hstrm]
    · rwa [hsame.1, hsame.2.1, hsame.2.2]
    · rw [hs']
      rfl
    · rw [hs', hput]
      simp only [List.append_nil, Function.update_eq_self]
      rfl
    · by_cases hc' : c' = c
      · rw [hc']
        exact hsame
      · unfold toRx readsAt
        simp only [hother c' hc', hgiven', and_self]
  · have hok : ((s.from_aie_ch c).proc.pc.funcPc).Ok H.p (H.chs.from_aie_ch c)
        (H.delivered inputs c) := hflow.ok
    have htake := getStep_take hok hget
    have hflow' := rxFlow_getStep (H.sized_delivered inputs c) hflow htake
    have hget' : (H.toRx inputs s').get c = proc.pc.funcPc :=
      congrArg GetProc.funcPc (congrArg GetState.pc hmine)
    have haxi' : (H.toRx inputs s').axi c
        = proc.strm.take ((H.chs.from_aie_ch c).numFrames
          - proc.pc.funcPc.reads H.p (H.chs.from_aie_ch c)) := by
      unfold toRx readsAt
      simp only [hmine]
    have htodo' : ∀ c', (H.toRx inputs s').todo c' = (H.toRx inputs s).todo c' := by
      intro c'
      unfold toRx
      simp only [hgiven']
    have hcount : s'.given c = H.readsAt s' c + (s'.from_aie_ch c).proc.strm.length := by
      rw [hgiven', hgiven, readsAt, readsAt, hmine]
      rcases (reads_of_getStep hok.inRange hget).2 with ⟨hstrm, hreads, -⟩ | ⟨tmp, hstrm, hreads, -⟩
      · rw [hstrm, hreads]
      · rw [hstrm, hreads, List.length_cons]
        omega
    refine ⟨hviews ⟨by rwa [hmine], hcount, ?_⟩, Or.inr ?_⟩
    · rw [hget', haxi', htodo' c]
      exact ⟨_, hflow'⟩
    · change (if c < H.p.num_channels then (H.receive (H.delivered inputs)).getChannel _ c else
        none) = _
      have htake' : AieTestHarness.getStep (H.receive (H.delivered inputs)).p
          ((H.receive (H.delivered inputs)).chs.from_aie_ch c)
          (((H.toRx inputs s).io.from_aie_strm c).length
            < (H.receive (H.delivered inputs)).capacity)
          ((H.toRx inputs s).axi c) ((H.toRx inputs s).get c)
          = some (proc.pc.funcPc, (H.toRx inputs s').axi c,
            GetState.put H.p (H.chs.from_aie_ch c) room (s.from_aie_ch c).proc) := by
        rw [haxi']
        rw [hroom] at htake ⊢
        exact htake
      rw [if_pos hc, Receive.getChannel, htake', Option.map_some]
      refine congrArg some (toRx_eq ?_ ?_ fun c' => ?_).symm
      · rw [hs']
        rfl
      · rw [hs']
        rfl
      · by_cases hc' : c' = c
        · subst hc'
          simp only [Function.update_self]
          exact ⟨hget', trivial, htodo' c'⟩
        · simp only [Function.update_of_ne hc']
          unfold toRx readsAt
          simp only [hother c' hc', hgiven', and_self]

theorem rx_of_step (hfunc : H.Func) (htaken : ∀ c, s.taken c <+: inputs c)
    (hview : ∀ c, H.RxView inputs s c) {l : HarnessEvent} (hstep : H.lts.step l s = some s') :
    (∀ c, H.RxView inputs s' c) ∧ (H.toRx inputs s' = H.toRx inputs s
      ∨ (H.receive (H.delivered inputs)).lts.step (rxLabel l) (H.toRx inputs s)
          = some (H.toRx inputs s')) := by
  cases l with
  | load =>
      obtain ⟨load, io, -, rfl⟩ := load_eq_some hstep
      exact ⟨fun c => (hview c).congr rfl rfl, Or.inl rfl⟩
  | feed c =>
      obtain ⟨-, ch, -, rfl⟩ := feed_eq_some hstep
      exact ⟨fun c => (hview c).congr rfl rfl, Or.inl rfl⟩
  | countTo c =>
      obtain ⟨-, ch, -, rfl⟩ := countTo_eq_some hstep
      exact ⟨fun c => (hview c).congr rfl rfl, Or.inl rfl⟩
  | take c =>
      obtain ⟨-, b, rest, -, rfl⟩ := take_eq_some hstep
      exact ⟨fun c => (hview c).congr rfl rfl, Or.inl rfl⟩
  | give c => exact rx_of_give htaken hview hstep
  | get c => exact rx_of_get hfunc hview hstep
  | countFrom c =>
      obtain ⟨-, ch, hch, rfl⟩ := countFrom_eq_some hstep
      have hproc : ∀ c', (Function.update s.from_aie_ch c ch c').proc
        = (s.from_aie_ch c').proc := by
        intro c'
        by_cases hc' : c' = c
        · subst hc'
          rw [Function.update_self]
          exact proc_of_count hch
        · rw [Function.update_of_ne hc']
      refine ⟨fun c' => (hview c').congr (hproc c') rfl, Or.inl ?_⟩
      refine toRx_eq rfl rfl fun c' => ?_
      unfold toRx readsAt
      simp only [hproc, and_self]
  | store =>
      obtain ⟨store, io, hstore, rfl⟩ := store_eq_some hstep
      refine ⟨fun c => (hview c).congr rfl rfl, Or.inr ?_⟩
      change (H.storeMemories.step s.store s.io).map _ = _
      rw [hstore]
      rfl

end Harness

end AieTestHarness
