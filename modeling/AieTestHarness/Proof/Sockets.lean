import Mathlib.Data.List.Forall2
import Mathlib.Data.List.Nodup
import Mathlib.Data.List.TakeWhile
import AieTestHarness.Sockets
import AieTestHarness.Proof.Files

/-!
# What is received is what was sent

Each overload sends a value as fixed bytes (`wire`), and the matching overload of the receiver reads
these bytes back from any chunks, or fails where the stream ends before the last of them. A sequence
of values follows call by call.
-/

namespace AieTestHarness

open Slices Chunks

namespace Sockets

/-! ### Sending -/

/-- With `send` transmitting the whole buffer each time, `d` puts `bytes` on the way. -/
def Sends {α : Type} (d : Writer α) (bytes : List UInt8) (a : α) : Prop :=
  ∀ out, d ⟨[], out⟩ = .ok (a, ⟨[], out ++ bytes⟩)

section Sends

variable {α β : Type} {d : Writer α} {f : α → Writer β} {bytes bytes' : List UInt8} {a : α} {b : β}

theorem Sends.pure (a : α) : Sends (Pure.pure a) [] a := fun out => by
  rw [List.append_nil]
  rfl

theorem Sends.bind (hd : Sends d bytes a) (hf : Sends (f a) bytes' b) :
    Sends (d >>= f) (bytes ++ bytes') b := fun out => by
  change (d ⟨[], out⟩ >>= fun r => f r.1 r.2) = _
  rw [hd out, ← List.append_assoc]
  exact hf (out ++ bytes)

theorem Sends.bind_pure (hd : Sends d bytes a) (g : α → β) :
    Sends (d >>= fun x => Pure.pure (g x)) bytes (g a) := by
  have hboth := hd.bind (f := fun x => Pure.pure (g x)) (Sends.pure (g a))
  rwa [List.append_nil] at hboth

theorem sendBytes_sends (buffer : List UInt8) : Sends (sendBytes buffer) buffer buffer.length :=
  fun _ => rfl

theorem sendSize_sends (n : Nat) : Sends (sendSize n) (leBytes 8 n) 8 := by
  have h := sendBytes_sends (leBytes 8 n)
  rwa [length_leBytes] at h

/-- A loop sends what its passes send, and adds up what they report. -/
theorem sendEach_sends {send : α → Writer Nat} (w : α → List UInt8) {xs : List α}
    (hsend : ∀ x ∈ xs, Sends (send x) (w x) (w x).length) (total : Nat) :
    Sends (sendEach send xs total) (xs.flatMap w) (total + (xs.flatMap w).length) := by
  induction xs generalizing total with
  | nil => exact .pure total
  | cons x xs ih =>
      have hrest := ih (fun y hy => hsend y (List.mem_cons_of_mem x hy)) (total + (w x).length)
      have hboth :=
        (hsend x List.mem_cons_self).bind (f := fun size => sendEach send xs (total + size)) hrest
      rwa [Nat.add_assoc, ← List.length_append, ← List.flatMap_cons] at hboth

end Sends

def counted (n : Nat) (bytes : List UInt8) : List UInt8 := leBytes 8 n ++ bytes

theorem length_counted (n : Nat) (bytes : List UInt8) :
    (counted n bytes).length = 8 + bytes.length := by
  rw [counted, List.length_append, length_leBytes]

def wireString (str : List UInt8) : List UInt8 := counted str.length str

def wireVec (buffer : List (List UInt8)) : List UInt8 := counted buffer.length buffer.flatten

def wireBools (buffer : List Bool) : List UInt8 :=
  counted buffer.length (buffer.flatMap fun val => [if val then 1 else 0])

def wireStrings (buffer : List (List UInt8)) : List UInt8 :=
  counted buffer.length (buffer.flatMap wireString)

def wireFile (src : Disk) (filepath : Path) : List UInt8 :=
  wireString filepath.filename ++ wireVec (((src.content filepath).getD []).map fun b => [b])

theorem wireFile_eq {src : Disk} {p : Path} {content : List UInt8}
    (h : src.content p = some content) :
    wireFile src p = wireString p.filename ++ wireVec (content.map fun b => [b]) := by
  rw [wireFile, h, Option.getD_some]

def wireFiles (src : Disk) (files : List Path) : List UInt8 :=
  counted files.length (files.flatMap (wireFile src))

def wire (src : Disk) : Value → List UInt8
  | .pod data => data
  | .str str => wireString str
  | .vec _ buffer => wireVec buffer
  | .bools buffer => wireBools buffer
  | .strs buffer => wireStrings buffer
  | .file filepath => wireFile src filepath
  | .files files => wireFiles src files

theorem counted_sends (n : Nat) {d : Nat → Writer Nat} {bytes : List UInt8}
    (hd : Sends (d 8) bytes (8 + bytes.length)) :
    Sends (sendSize n >>= d) (counted n bytes) (counted n bytes).length := by
  rw [length_counted]
  exact (sendSize_sends n).bind hd

theorem sendString_sends (str : List UInt8) :
    Sends (sendString str) (wireString str) (wireString str).length :=
  counted_sends str.length ((sendBytes_sends str).bind_pure _)

theorem sendVec_sends (buffer : List (List UInt8)) :
    Sends (sendVec buffer) (wireVec buffer) (wireVec buffer).length :=
  counted_sends buffer.length ((sendBytes_sends buffer.flatten).bind_pure _)

theorem sendBools_sends (buffer : List Bool) :
    Sends (sendBools buffer) (wireBools buffer) (wireBools buffer).length :=
  counted_sends buffer.length (sendEach_sends _ (fun _ _ => sendBytes_sends _) 8)

theorem sendStrings_sends (buffer : List (List UInt8)) :
    Sends (sendStrings buffer) (wireStrings buffer) (wireStrings buffer).length :=
  counted_sends buffer.length (sendEach_sends _ (fun str _ => sendString_sends str) 8)

theorem status_of_content {d : Disk} {p : Path} {content : List UInt8}
    (h : d.content p = some content) : d.status p = .ok (some (.file content)) := by
  unfold Disk.content at h
  split at h
  · rename_i hstatus
    rw [hstatus, Option.some.inj h]
  · cases h

theorem sendFile_sends {src : Disk} {filepath : Path} {content : List UInt8}
    (h : src.content filepath = some content) (hread : src.readable filepath = true) :
    Sends (sendFile src filepath) (wireFile src filepath) (wireFile src filepath).length := by
  rw [sendFile, status_of_content h, wireFile_eq h, List.length_append]
  dsimp only
  rw [if_pos hread]
  exact (sendString_sends _).bind ((sendVec_sends _).bind_pure _)

theorem sendFiles_sends {src : Disk} {files : List Path}
    (h : ∀ p ∈ files, (∃ content, src.content p = some content) ∧ src.readable p = true) :
    Sends (sendFiles src files) (wireFiles src files) (wireFiles src files).length := by
  refine counted_sends files.length (sendEach_sends _ (fun p hp => ?_) 8)
  obtain ⟨⟨content, hcontent⟩, hread⟩ := h p hp
  exact sendFile_sends hcontent hread

/-! ### Receiving -/

section Receives

variable {e : Fault} {d : Disk}

theorem recvBytes_receives {n : Nat} {bytes : List UInt8} (h : bytes.length = n) :
    Receives e (recvBytes e n) d bytes (bytes, n) d := by
  subst h
  exact (Receives.take bytes).bind_free fun _ => rfl

theorem recvSize_receives {n : Nat} (h : n < 2 ^ 64) :
    Receives e (recvSize e) d (leBytes 8 n) (n, 8) d := by
  refine (recvBytes_receives (length_leBytes 8 n)).bind_free fun cs => ?_
  have hn : leNat (leBytes 8 n) = n := leNat_leBytes (Nat.lt_of_lt_of_eq h (by decide))
  dsimp only
  rw [hn]
  rfl

theorem allocate_eq {n : Nat} (h : n < 2 ^ 62) (s : Disk × List (List UInt8)) :
    allocate n s = .ok ((), s) := by
  have hresize : resize n = .ok (List.replicate n 0) := if_pos h
  unfold allocate
  rw [hresize]

/-- A number is read, room is made, and the rest follows. -/
theorem counted_receives {α : Type} {n room : Nat} (read : Nat × Nat → Reader (α × Nat))
    {bytes : List UInt8} {a : α} {total : Nat} {d' : Disk} (hn : n < 2 ^ 64) (hroom : room < 2 ^ 62)
    (hread : Receives e (read (n, 8)) d bytes (a, total) d')
    {body : Nat × Nat → Reader (α × Nat)}
    (hbody : body (n, 8) = allocate room >>= fun _ => read (n, 8)) :
    Receives e (recvSize e >>= body) d (counted n bytes) (a, total) d' := by
  refine (recvSize_receives hn).bind ?_
  rw [hbody]
  exact Receives.free_bind (fun cs => allocate_eq hroom (d, cs)) hread

theorem recvString_receives {str : List UInt8} (h : str.length < 2 ^ 62) :
    Receives e (recvString e) d (wireString str) (str, (wireString str).length) d := by
  rw [wireString, length_counted]
  exact counted_receives (fun r => do
      let str ← recvBytes e r.1
      return (str.1, r.2 + str.2))
    (by omega) h ((recvBytes_receives rfl).bind_free fun _ => rfl) rfl

theorem recvVec_receives {sizeof : Nat} {buffer : List (List UInt8)}
    (hwidth : ∀ b ∈ buffer, b.length = sizeof) (hcount : buffer.length < 2 ^ 64)
    (hroom : buffer.length * sizeof < 2 ^ 62) :
    Receives e (recvVec e sizeof) d (wireVec buffer) (buffer, (wireVec buffer).length) d := by
  rw [wireVec, length_counted]
  have hlen : buffer.flatten.length = buffer.length * sizeof := length_flatten_of_width hwidth
  refine counted_receives (fun r => do
      let bytes ← recvBytes e (r.1 * sizeof)
      return (pieces sizeof r.1 bytes.1, r.2 + bytes.2))
    hcount hroom ((recvBytes_receives hlen).bind_free fun cs => ?_) rfl
  dsimp only
  rw [pieces_flatten hwidth, ← hlen]
  rfl

/-- The passes of a loop: each reports the length of what it takes. -/
theorem recvEach_receives {α β ι : Type} (recv : α → Reader (β × Nat)) (I : Disk → Prop)
    (arg : ι → α) (bytes : ι → List UInt8) (res : ι → β) (next : ι → Disk → Disk) (items : List ι)
    (hrecv : ∀ i ∈ items, ∀ d, I d →
      Receives e (recv (arg i)) d (bytes i) (res i, (bytes i).length) (next i d) ∧ I (next i d))
    (hd : I d) (total : Nat) :
    Receives e (recvEach recv (items.map arg) total) d (items.flatMap bytes)
      (items.map res, total + (items.flatMap bytes).length)
      (items.foldl (fun d i => next i d) d) := by
  have hsum : ∀ (items : List ι) (total : Nat),
      (items.map fun i => (res i, (bytes i).length)).foldl (fun total r => total + r.2) total
        = total + (items.flatMap bytes).length := by
    intro items
    induction items with
    | nil => exact fun total => rfl
    | cons i items ih =>
        intro total
        rw [List.map_cons, List.foldl_cons, ih, List.flatMap_cons, List.length_append,
          Nat.add_assoc]
  have hloop := Receives.readEach I arg bytes (fun i => (res i, (bytes i).length)) next hrecv hd
  refine hloop.bind_free fun cs => ?_
  rw [hsum, List.map_map]
  rfl

theorem foldl_keep {ι : Type} (items : List ι) (d : Disk) : items.foldl (fun d _ => d) d = d := by
  induction items with
  | nil => rfl
  | cons _ items ih => exact ih

theorem recvBools_receives {buffer : List Bool} (h : buffer.length < 2 ^ 62) :
    Receives e (recvBools e) d (wireBools buffer) (buffer, (wireBools buffer).length) d := by
  rw [wireBools, length_counted]
  refine counted_receives (fun r => recvEach (fun _ => do
      let val ← recvBytes e 1
      return (val.1 != [0], val.2)) (List.replicate r.1 ()) r.2) (by omega) h ?_ rfl
  have hloop := recvEach_receives (e := e) (d := d) (fun _ : Unit => do
      let val ← recvBytes e 1
      return (val.1 != [0], val.2)) (fun _ => True) (fun _ : Bool => ())
    (fun val => [if val then 1 else 0]) id (fun _ d => d) buffer (fun val _ d _ => ⟨?_, trivial⟩)
    trivial 8
  · rwa [foldl_keep, List.map_id, List.map_const'] at hloop
  · refine (recvBytes_receives (by cases val <;> rfl)).bind_free fun cs => ?_
    cases val <;> rfl

theorem recvStrings_receives {buffer : List (List UInt8)}
    (h : buffer.length * sizeofString < 2 ^ 62) (hstr : ∀ str ∈ buffer, str.length < 2 ^ 62) :
    Receives e (recvStrings e) d (wireStrings buffer) (buffer, (wireStrings buffer).length) d := by
  have hcount : buffer.length < 2 ^ 64 := by
    rw [sizeofString] at h
    omega
  rw [wireStrings, length_counted]
  refine counted_receives (fun r => recvEach (fun _ => recvString e) (List.replicate r.1 ()) r.2)
    hcount h ?_ rfl
  have hloop := recvEach_receives (e := e) (d := d) (fun _ : Unit => recvString e) (fun _ => True)
    (fun _ => ()) wireString id (fun _ d => d) buffer
    (fun str hmem d _ => ⟨recvString_receives (hstr str hmem), trivial⟩) trivial 8
  rwa [foldl_keep, List.map_id, List.map_const'] at hloop

end Receives

/-! ### Files -/

section Files

theorem Plain.ofString {n : Name} (h : n.Plain) : Path.ofString n = [n] := by
  obtain ⟨hne, hsep, _, _, hnull⟩ := h
  have hhead : n.head? ≠ some separator := fun heq => hsep (List.mem_of_mem_head? heq)
  have hcut : Path.cString n = n :=
    List.takeWhile_eq_self_iff.mpr fun b hb => decide_eq_true fun heq => hnull (heq ▸ hb)
  rw [Path.ofString, if_neg hne, if_neg hhead, hcut, List.splitOn_eq_singleton hsep]

theorem Plain.ne_root {n : Name} (h : n.Plain) : n ≠ Path.root := by
  rintro rfl
  exact h.2.1 List.mem_cons_self

theorem Plain.filename_append {n : Name} (h : n.Plain) (p : Path) :
    (p.append (.ofString n)).filename = n := by
  have hne : ¬ [n].head? = some Path.root := fun heq => Plain.ne_root h (Option.some.inj heq)
  rw [Plain.ofString h, Path.append, if_neg hne]
  split
  · exact Path.filename_append p.dropLast n
  · exact Path.filename_append p n

/-- A file that is received lands under its own name. -/
theorem filename_of_target {d : Disk} {filepath q : Path} {n : Name} (hn : n.Plain)
    (h : target d filepath n = .ok q) : q.filename = n := by
  obtain ⟨isdir, -, h⟩ := Loops.bind_eq_ok.mp h
  cases isdir with
  | false =>
      cases h
      exact Plain.filename_append hn _
  | true =>
      cases h
      exact Plain.filename_append hn _

theorem openFile_eq_ok {d d' : Disk} {p : Path} {place : List Name} :
    openFile d p = .ok (place, d') ↔ d.opened p = some place ∧ d' = d.write place [] := by
  unfold openFile
  cases d.opened p with
  | none => simp
  | some place' =>
      constructor
      · intro h
        cases h
        exact ⟨rfl, rfl⟩
      · rintro ⟨h, rfl⟩
        cases h
        rfl

theorem destination_eq_ok {d d' : Disk} {filepath q : Path} {n : Name} {place : List Name} :
    destination d filepath n = .ok (q, place, d') ↔
      ∃ given d₁, givenPath d filepath = .ok (given, d₁) ∧ target d₁ given n = .ok q
        ∧ d₁.opened q = some place ∧ d' = d₁.write place [] := by
  constructor
  · intro h
    obtain ⟨⟨given, d₁⟩, hgiven, h⟩ := Loops.bind_eq_ok.mp h
    obtain ⟨q', htarget, h⟩ := Loops.bind_eq_ok.mp h
    obtain ⟨⟨place', d₂⟩, hopen, h⟩ := Loops.bind_eq_ok.mp h
    cases h
    obtain ⟨hopened, rfl⟩ := openFile_eq_ok.mp hopen
    exact ⟨given, d₁, hgiven, htarget, hopened, rfl⟩
  · rintro ⟨given, d₁, hgiven, htarget, hopened, rfl⟩
    have hopen := openFile_eq_ok.mpr ⟨hopened, rfl⟩
    rw [destination, hgiven, Loops.bind_ok]
    dsimp only
    rw [htarget, Loops.bind_ok, hopen]
    rfl

/-- The bytes a file is sent as are received as that file. -/
theorem recvFile_receives {e : Fault} {d d' : Disk} {dest q : Path} {n : Name} {place : List Name}
    {content : List UInt8} (hne : n ≠ []) (hname : n.length < 2 ^ 62)
    (hlen : content.length < 2 ^ 62) (hdest : destination d dest n = .ok (q, place, d')) :
    Receives e (recvFile e dest) d (wireString n ++ wireVec (content.map fun b => [b]))
      (q, (wireString n ++ wireVec (content.map fun b => [b])).length)
        (d'.write place content) := by
  rw [List.length_append]
  refine (recvString_receives hname).bind ?_
  dsimp only
  rw [if_neg hne]
  have hgiven : ∀ cs, (liftM (destination d dest n) : Reader (Path × List Name × Disk)) (d, cs)
      = .ok ((q, place, d'), d, cs) := by
    intro cs
    change (destination d dest n >>= fun r => pure (r, d, cs)) = _
    rw [hdest]
    rfl
  refine Receives.free_bind (fun cs => (rfl : getDisk (d, cs) = .ok (d, d, cs))) ?_
  refine Receives.free_bind hgiven ?_
  refine Receives.free_bind (fun cs => (rfl : setDisk d' (d, cs) = .ok ((), d', cs))) ?_
  have hwidth : ∀ b ∈ content.map (fun b => [b]), b.length = 1 := by simp
  refine (recvVec_receives hwidth (by rw [List.length_map]; omega)
    (by rw [List.length_map]; omega)).bind_free fun cs => ?_
  have hflat : (content.map fun b => [b]).flatten = content := by
    rw [← List.flatMap_def, List.flatMap_singleton']
  dsimp only
  rw [hflat]
  rfl

theorem givenPath_nil (d : Disk) :
    givenPath d [] = d.current_path >>= fun p => .ok (p, d) :=
  rfl

/-- Where a file of this name is received without a path: its path and its place. -/
def arrival (d : Disk) (n : Name) : Path × List Name :=
  match destination d [] n with
  | .ok (q, place, _) => (q, place)
  | .error _ => ([], [])

/-- Files that have been received in the meantime do not matter. -/
theorem destination_nil {d d' : Disk} {n : Name} (h : d.SameWays d')
    (hopen : ∃ r, destination d [] n = .ok r) :
    destination d' [] n = .ok ((arrival d n).1, (arrival d n).2, d'.write (arrival d n).2 [])
      ∧ d.opened (arrival d n).1 = some (arrival d n).2 := by
  obtain ⟨⟨q, place, d₂⟩, hdest⟩ := hopen
  obtain ⟨given, d₁, hgiven, htarget, hopened, -⟩ := destination_eq_ok.mp hdest
  rw [givenPath_nil] at hgiven
  obtain ⟨cur, hcur, hgiven⟩ := Loops.bind_eq_ok.mp hgiven
  cases hgiven
  rw [arrival, hdest]
  refine ⟨destination_eq_ok.mpr ⟨given, d', ?_, ?_, ?_, rfl⟩, hopened⟩
  · rw [givenPath_nil, h.current_path, hcur]
    rfl
  · rw [target, h.is_directory]
    exact htarget
  · rw [h.opened]
    exact hopened

theorem arrival_spec {d : Disk} {n : Name} (hn : n.Plain)
    (hopen : ∃ r, destination d [] n = .ok r) :
    d.opened (arrival d n).1 = some (arrival d n).2 ∧ (arrival d n).1.filename = n := by
  obtain ⟨⟨q, place, d₂⟩, hdest⟩ := hopen
  obtain ⟨given, d₁, hgiven, htarget, hopened, -⟩ := destination_eq_ok.mp hdest
  have hd₁ : d₁ = d := by
    rw [givenPath_nil] at hgiven
    obtain ⟨cur, -, hgiven⟩ := Loops.bind_eq_ok.mp hgiven
    cases hgiven
    rfl
  subst hd₁
  rw [arrival, hdest]
  exact ⟨hopened, filename_of_target hn htarget⟩

/-- Files of different names go to different places, where none of the names is a link. -/
theorem arrival_nodup {d : Disk} {files : List Path} (hplain : ∀ p ∈ files, p.filename.Plain)
    (hopen : ∀ p ∈ files, ∃ r, destination d [] p.filename = .ok r)
    (hlink : ∀ p ∈ files, d.locate false (arrival d p.filename).1
      = d.locate true (arrival d p.filename).1)
    (hnodup : (files.map Path.filename).Nodup) :
    (files.map fun p => (arrival d p.filename).2).Nodup := by
  have hlast : ∀ p ∈ files, (arrival d p.filename).2.getLastD [] = p.filename := by
    intro p hp
    obtain ⟨hopened, hname⟩ := arrival_spec (hplain p hp) (hopen p hp)
    obtain ⟨A, -, hplace, -⟩ := Disk.base_of_opened hopened
    rw [hlink p hp, (Disk.opened_eq_some.mp hopened).1] at hplace
    rw [Except.ok.inj hplace, hname]
    exact Path.filename_append A p.filename
  refine List.Nodup.of_map (fun place => place.getLastD []) ?_
  rw [List.map_map]
  exact (List.map_congr_left hlast) ▸ hnodup

def storeAll (src d : Disk) (files : List Path) (d' : Disk) : Disk :=
  files.foldl (fun d' p => d'.write (arrival d p.filename).2 ((src.content p).getD [])) d'

theorem storeAll_sameWays (src : Disk) {d : Disk} {files : List Path}
    (hopen : ∀ p ∈ files, ∃ r, destination d [] p.filename = .ok r) {d' : Disk}
    (h : d.SameWays d') : d.SameWays (storeAll src d files d') := by
  induction files generalizing d' with
  | nil => exact h
  | cons p files ih =>
      obtain ⟨-, hopened⟩ := destination_nil h (hopen p List.mem_cons_self)
      exact ih (fun q hq => hopen q (List.mem_cons_of_mem p hq))
        (h.write (Disk.node_of_opened hopened) _)

theorem storeAll_entry_of_ne {src d : Disk} {files : List Path} {place : List Name}
    (hne : ∀ p ∈ files, (arrival d p.filename).2 ≠ place) (d' : Disk) :
    (storeAll src d files d').entry place = d'.entry place := by
  induction files generalizing d' with
  | nil => rfl
  | cons p files ih =>
      rw [storeAll, List.foldl_cons, ← storeAll, ih fun q hq => hne q (List.mem_cons_of_mem p hq)]
      exact Disk.entry_write_of_ne d' _ (hne p List.mem_cons_self).symm

/-- Files that go to different places do not overwrite each other. -/
theorem storeAll_entry {src d : Disk} {files : List Path}
    (hnodup : (files.map fun p => (arrival d p.filename).2).Nodup) (d' : Disk) {p : Path}
    (hp : p ∈ files) :
    (storeAll src d files d').entry (arrival d p.filename).2
      = some (.file ((src.content p).getD [])) := by
  induction files generalizing d' with
  | nil => cases hp
  | cons q files ih =>
      rw [List.map_cons, List.nodup_cons] at hnodup
      rw [storeAll, List.foldl_cons, ← storeAll]
      rcases List.mem_cons.mp hp with rfl | hp
      · rw [storeAll_entry_of_ne fun r hr heq => hnodup.1 (List.mem_map.mpr ⟨r, hr, heq⟩)]
        exact Disk.entry_write_self ..
      · exact ih hnodup.2 _ hp

/-- A file that can be sent: it is there under a name of its own, can be read, and fits in
memory. -/
structure Sendable (src : Disk) (p : Path) (content : List UInt8) : Prop where
  content_eq : src.content p = some content
  readable : src.readable p = true
  plain : p.filename.Plain
  name_lt : p.filename.length < 2 ^ 57
  content_lt : content.length < 2 ^ 57

theorem recvFiles_receives {e : Fault} {src d : Disk} {files : List Path}
    (hfiles : ∀ p ∈ files, ∃ content, Sendable src p content)
    (hroom : files.length * sizeofPath < 2 ^ 57)
    (hopen : ∀ p ∈ files, ∃ r, destination d [] p.filename = .ok r) :
    Receives e (recvFiles e) d (wireFiles src files)
      (files.map fun p => (arrival d p.filename).1, (wireFiles src files).length)
      (storeAll src d files d) := by
  have hcount : files.length < 2 ^ 64 := by
    rw [sizeofPath] at hroom
    omega
  rw [wireFiles, length_counted]
  refine counted_receives (fun r => recvEach (recvFile e) (List.replicate r.1 []) r.2) hcount
    (Nat.lt_trans hroom (by decide)) ?_ rfl
  have hloop := recvEach_receives (e := e) (recvFile e) d.SameWays (fun _ => []) (wireFile src)
    (fun p => (arrival d p.filename).1)
    (fun p d' => d'.write (arrival d p.filename).2 ((src.content p).getD [])) files
    (fun p hp d' hd' => ?_) (d := d) (.refl d) 8
  · rwa [List.map_const'] at hloop
  · obtain ⟨content, hsend⟩ := hfiles p hp
    obtain ⟨hdest, hopened⟩ := destination_nil hd' (hopen p hp)
    rw [hsend.content_eq, Option.getD_some, wireFile_eq hsend.content_eq]
    refine ⟨?_, hd'.write (Disk.node_of_opened hopened) content⟩
    have hrecv := recvFile_receives (e := e) hsend.plain.1
      (Nat.lt_trans hsend.name_lt (by decide)) (Nat.lt_trans hsend.content_lt (by decide)) hdest
    rwa [Disk.write_write] at hrecv

end Files

/-! ### Sequences of values -/

/-- The calls `send v` on one end and `recv c` on the other match, for a value that a program can
hold: what the receiver's disk is when the call returns. -/
inductive Matching (src : Disk) : Disk → Value → Call → Disk → Prop where
  | pod {d : Disk} {data : List UInt8} : Matching src d (.pod data) (.pod data.length) d
  | str {d : Disk} {str : List UInt8} (hlen : str.length < 2 ^ 57) :
      Matching src d (.str str) .str d
  | vec {d : Disk} {sizeof : Nat} {buffer : List (List UInt8)} (hpos : 0 < sizeof)
      (hwidth : ∀ b ∈ buffer, b.length = sizeof) (hroom : buffer.length * sizeof < 2 ^ 57) :
      Matching src d (.vec sizeof buffer) (.vec sizeof) d
  | bools {d : Disk} {buffer : List Bool} (hlen : buffer.length < 2 ^ 60) :
      Matching src d (.bools buffer) .bools d
  | strs {d : Disk} {buffer : List (List UInt8)} (hroom : buffer.length * sizeofString < 2 ^ 57)
      (hstr : ∀ str ∈ buffer, str.length < 2 ^ 57) : Matching src d (.strs buffer) .strs d
  | file {d d' : Disk} {filepath dest q : Path} {place : List Name} {content : List UInt8}
      (hsend : Sendable src filepath content)
      (hdest : destination d dest filepath.filename = .ok (q, place, d')) :
      Matching src d (.file filepath) (.file dest) (d'.write place content)
  | files {d : Disk} {files : List Path} (hsend : ∀ p ∈ files, ∃ content, Sendable src p content)
      (hnodup : (files.map fun p => (arrival d p.filename).2).Nodup)
      (hroom : files.length * sizeofPath < 2 ^ 57)
      (hdest : ∀ p ∈ files, ∃ r, destination d [] p.filename = .ok r) :
      Matching src d (.files files) .files (storeAll src d files d)

/-- The file at `q` on `dst` is the file at `p` on `src`: it has its base name and its bytes. -/
def SameFile (src : Disk) (p : Path) (dst : Disk) (q : Path) : Prop :=
  q.filename = p.filename ∧ dst.content q = src.content p

/-- `w` is the value `v`; files are compared as they stand when the call returns. -/
def Same (src : Disk) (dst : Disk) : Value → Value → Prop
  | .file p, .file q => SameFile src p dst q
  | .files ps, .files qs => List.Forall₂ (fun p q => SameFile src p dst q) ps qs
  | v, w => v = w

/-- The call has received `v`, and reports the size its sender reports. -/
def Delivered (src : Disk) (v : Value) (r : Received) : Prop :=
  Same src r.disk v r.value ∧ r.totalSize = (wire src v).length

variable {src d d' : Disk} {v : Value} {c : Call}

theorem Matching.sends (h : Matching src d v c d') :
    Sends (send src v) (wire src v) (wire src v).length := by
  cases h with
  | pod => exact sendBytes_sends _
  | str => exact sendString_sends _
  | vec => exact sendVec_sends _
  | bools => exact sendBools_sends _
  | strs => exact sendStrings_sends _
  | file hsend => exact sendFile_sends hsend.content_eq hsend.readable
  | files hsend =>
      refine sendFiles_sends fun p hp => ?_
      obtain ⟨content, hp'⟩ := hsend p hp
      exact ⟨⟨content, hp'.content_eq⟩, hp'.readable⟩

theorem Matching.receives (h : Matching src d v c d') (e : Fault) :
    ∃ w, Receives e (recv e c) d (wire src v) (w, (wire src v).length) d' ∧ Same src d' v w := by
  cases h with
  | @pod data =>
      exact ⟨.pod data, (recvBytes_receives rfl).bind_free fun _ => rfl, rfl⟩
  | @str str hlen =>
      have hlt : str.length < 2 ^ 62 := Nat.lt_trans hlen (by decide)
      exact ⟨.str str, (recvString_receives hlt).bind_free fun _ => rfl, rfl⟩
  | @vec sizeof buffer hpos hwidth hroom =>
      have hle : buffer.length ≤ buffer.length * sizeof := Nat.le_mul_of_pos_right _ hpos
      have hrecv := recvVec_receives (e := e) (d := d) hwidth (by omega) (by omega)
      exact ⟨.vec sizeof buffer, hrecv.bind_free fun _ => rfl, rfl⟩
  | @bools buffer hlen =>
      have hlt : buffer.length < 2 ^ 62 := Nat.lt_trans hlen (by decide)
      exact ⟨.bools buffer, (recvBools_receives hlt).bind_free fun _ => rfl, rfl⟩
  | @strs buffer hroom hstr =>
      have hrecv := recvStrings_receives (e := e) (d := d) (Nat.lt_trans hroom (by decide))
        fun str hmem => Nat.lt_trans (hstr str hmem) (by decide)
      exact ⟨.strs buffer, hrecv.bind_free fun _ => rfl, rfl⟩
  | @file d₁ filepath dest q place content hsend hdest =>
      have hrecv := recvFile_receives (e := e) hsend.plain.1
        (Nat.lt_trans hsend.name_lt (by decide)) (Nat.lt_trans hsend.content_lt (by decide)) hdest
      rw [← wireFile_eq hsend.content_eq] at hrecv
      refine ⟨.file q, hrecv.bind_free fun _ => rfl, ?_⟩
      obtain ⟨given, d₂, -, htarget, hopened, rfl⟩ := destination_eq_ok.mp hdest
      refine ⟨filename_of_target hsend.plain htarget, ?_⟩
      rw [Disk.write_write, hsend.content_eq,
        Disk.content_write (Disk.opened_eq_some.mp hopened).1 (Disk.node_of_opened hopened)]
  | @files files hsend hnodup hroom hdest =>
      have hrecv := recvFiles_receives (e := e) hsend hroom hdest
      generalize hpaths : files.map (fun p => (arrival d p.filename).1) = paths at hrecv
      generalize hlast : storeAll src d files d = d' at hrecv ⊢
      refine ⟨.files paths, hrecv.bind_free fun _ => rfl, ?_⟩
      rw [← hpaths, ← hlast]
      refine List.forall₂_map_right_iff.mpr (List.forall₂_same.mpr fun p hp => ?_)
      obtain ⟨content, hp'⟩ := hsend p hp
      obtain ⟨hopened, hname⟩ := arrival_spec hp'.plain (hdest p hp)
      have hways := storeAll_sameWays src hdest (Disk.SameWays.refl d)
      refine ⟨hname, ?_⟩
      rw [Disk.content_of_locate ((hways.locate _).trans (Disk.opened_eq_some.mp hopened).1),
        storeAll_entry hnodup d hp, hp'.content_eq, Option.getD_some]

inductive Matched (src : Disk) : Disk → List Value → List Call → Prop where
  | nil {d : Disk} : Matched src d [] []
  | cons {d d' : Disk} {v : Value} {c : Call} {vs : List Value} {calls : List Call}
      (hfirst : Matching src d v c d') (hrest : Matched src d' vs calls) :
      Matched src d (v :: vs) (c :: calls)

variable {vs : List Value} {calls : List Call}

theorem Matched.sends (h : Matched src d vs calls) :
    Sends (sendAll src vs) (vs.flatMap (wire src)) (vs.map fun v => (wire src v).length) := by
  induction h with
  | nil => exact .pure []
  | cons hfirst _ ih => exact hfirst.sends.bind (ih.bind_pure _)

theorem Matched.complete (h : Matched src d vs calls) (e : Fault) {cs : List (List UInt8)}
    {tail : List UInt8} (hcs : Proper cs) (hflat : cs.flatten = vs.flatMap (wire src) ++ tail) :
    ∃ received d' cs', recvAll e calls (d, cs) = (received, .ok (d', cs')) ∧ Proper cs'
      ∧ cs'.flatten = tail ∧ List.Forall₂ (Delivered src) vs received := by
  induction h generalizing cs with
  | nil => exact ⟨[], _, cs, rfl, hcs, hflat, .nil⟩
  | @cons d d' v c vs calls hfirst _ ih =>
      obtain ⟨w, hrecv, hsame⟩ := hfirst.receives e
      rw [List.flatMap_cons, List.append_assoc] at hflat
      obtain ⟨cs₁, hcall, hcs₁, hflat₁⟩ := hrecv.complete cs _ hcs hflat
      obtain ⟨received, d₂, cs₂, hall, hcs₂, hflat₂, hreceived⟩ := ih hcs₁ hflat₁
      refine ⟨⟨w, (wire src v).length, d'⟩ :: received, d₂, cs₂, ?_, hcs₂, hflat₂,
        .cons ⟨hsame, rfl⟩ hreceived⟩
      rw [recvAll, hcall]
      dsimp only
      rw [hall]

/-- A sequence that is cut off: what has arrived whole is received, and the next call fails. -/
theorem Matched.short (h : Matched src d vs calls) (e : Fault) {cs : List (List UInt8)}
    (hcs : Proper cs) (hpref : cs.flatten <+: vs.flatMap (wire src))
    (hne : cs.flatten ≠ vs.flatMap (wire src)) :
    ∃ received, recvAll e calls (d, cs) = (received, .error e)
      ∧ ∃ before v after part, vs = before ++ v :: after
        ∧ List.Forall₂ (Delivered src) before received
        ∧ cs.flatten = before.flatMap (wire src) ++ part ∧ part <+: wire src v
        ∧ part ≠ wire src v := by
  induction h generalizing cs with
  | nil => exact absurd (List.prefix_nil.mp hpref) hne
  | @cons d d' v c vs calls hfirst _ ih =>
      obtain ⟨w, hrecv, hsame⟩ := hfirst.receives e
      rw [List.flatMap_cons] at hpref hne
      by_cases hdone : wire src v <+: cs.flatten
      · obtain ⟨rest, hrest⟩ := hdone
        obtain ⟨cs₁, hcall, hcs₁, hflat₁⟩ := hrecv.complete cs rest hcs hrest.symm
        rw [← hrest] at hpref hne
        rw [← hflat₁] at hpref hne
        obtain ⟨received, hall, before, v', after, part, rfl, hreceived, hpart, hcut⟩ :=
          ih hcs₁ ((List.prefix_append_right_inj _).mp hpref)
            fun heq => hne (by rw [heq])
        refine ⟨⟨w, (wire src v).length, d'⟩ :: received, ?_, v :: before, v', after, part, rfl,
          .cons ⟨hsame, rfl⟩ hreceived, ?_, hcut⟩
        · rw [recvAll, hcall]
          dsimp only
          rw [hall]
        · rw [← hrest, ← hflat₁, hpart, List.flatMap_cons, List.append_assoc]
      · -- the stream ends in the first value
        have hfirst' : cs.flatten <+: wire src v :=
          (List.prefix_or_prefix_of_prefix hpref (List.prefix_append _ _)).resolve_right hdone
        have hneq : cs.flatten ≠ wire src v := fun heq => hdone (heq ▸ List.prefix_rfl)
        refine ⟨[], ?_, [], v, vs, cs.flatten, rfl, .nil, rfl, hfirst', hneq⟩
        rw [recvAll, hrecv.short cs hcs hfirst' hneq]

end Sockets

end AieTestHarness
