import AieTestHarness.Ports
import AieTestHarness.Proof.Sockets

/-!
# No port is reached

The names the client sends for its two requests are none of those the session thread compares with,
so each call is an unknown request, and its arguments are read as the requests that follow.
-/

namespace AieTestHarness

open Chunks Sockets

namespace Ports

variable {env : Env} {s s' : Server} {d d' : Disk} {cs cs' : List (List UInt8)}

/-- What is asked of a call: the server makes it, and is then at the next request. -/
def Reaches (env : Env) (s : Server) (d : Disk) (cs : List (List UInt8)) (call : PortCall)
    (tail : List UInt8) (P : List UInt8 → Prop) : Prop :=
  ∃ n s' d' cs' answer, run env n s (d, cs) = .ok (s', d', cs') ∧ s'.calls = s.calls ++ [call]
    ∧ s'.sent = s.sent ++ answer ∧ cs'.flatten = tail ∧ P answer

/-- A client's `writeGraphPort` writes the value to the port on the server. -/
def WritesRemotely (env : Env) (s : Server) (d : Disk) (g_idx : UInt32)
    (port_name value object : List UInt8) : Prop :=
  ∀ bytes tail cs, Sends (clientWrite g_idx port_name value object) bytes () → Proper cs →
    cs.flatten = bytes ++ tail →
    Reaches env s d cs (.write g_idx.toNat port_name value) tail fun answer => answer = []

/-- A client's `readGraphPort` returns what the port on the server holds. -/
def ReadsRemotely (env : Env) (s : Server) (d : Disk) (g_idx : UInt32) (port_name : List UInt8)
    (d_size : Nat) : Prop :=
  ∀ bytes tail cs, Sends (clientRead g_idx port_name d_size) bytes () → Proper cs →
    cs.flatten = bytes ++ tail →
    Reaches env s d cs (.read g_idx.toNat port_name d_size) tail fun answer =>
      ∃ d' cs', clientAnswer env.atEnd (d, [answer])
        = .ok (env.port g_idx.toNat port_name d_size, d', cs')

/-! ### The client -/

theorem IsSize.passes {n : Nat} (h : IsSize n) : ¬ (n < 1 ∨ n > 8) := by
  unfold IsSize at h
  omega

theorem clientWrite_sends {g_idx : UInt32} {port_name value object : List UInt8}
    (h : IsSize value.length) :
    Sends (clientWrite g_idx port_name value object)
      (wireString (ascii "update port")
      ++ (leBytes 4 g_idx.toNat ++ (wireString port_name ++ object))) () := by
  refine (sendString_sends _).bind ((sendBytes_sends _).bind ((sendString_sends _).bind ?_))
  rw [if_neg h.passes]
  exact (sendBytes_sends object).bind_pure fun _ => ()

theorem clientRead_sends {g_idx : UInt32} {port_name : List UInt8} {d_size : Nat}
    (h : IsSize d_size) :
    Sends (clientRead g_idx port_name d_size)
      (wireString (ascii "read port") ++ (leBytes 4 g_idx.toNat ++ (wireString port_name
        ++ leBytes 4 d_size))) () := by
  refine (sendString_sends _).bind ((sendBytes_sends _).bind ((sendString_sends _).bind ?_))
  rw [if_neg h.passes]
  exact (sendBytes_sends _).bind_pure fun _ => ()

/-! ### The server -/

theorem ne_port_of_dispatch (request : List UInt8) :
    dispatch request ≠ some .readGraphPort ∧ dispatch request ≠ some .writeGraphPort := by
  have hrequests : ∀ entry ∈ requests, entry.2 ≠ .readGraphPort ∧ entry.2 ≠ .writeGraphPort := by
    decide
  have hnot : ∀ q, dispatch request = some q → q ≠ .readGraphPort ∧ q ≠ .writeGraphPort := by
    intro q h
    obtain ⟨entry, hentry, rfl⟩ := Option.map_eq_some_iff.mp h
    exact hrequests entry (List.mem_of_find?_eq_some hentry)
  exact ⟨fun h => (hnot _ h).1 rfl, fun h => (hnot _ h).2 rfl⟩

theorem bind_eq_ok {α β : Type} {x : Sockets.Reader α} {f : α → Sockets.Reader β}
    {t t' : Disk × List (List UInt8)} {b : β} :
    (x >>= f) t = .ok (b, t') ↔ ∃ a t₁, x t = .ok (a, t₁) ∧ f a t₁ = .ok (b, t') := by
  change (x t >>= fun r => f r.1 r.2) = _ ↔ _
  rw [Loops.bind_eq_ok]
  exact ⟨fun ⟨r, hx, hf⟩ => ⟨r.1, r.2, hx, hf⟩, fun ⟨a, t₁, hx, hf⟩ => ⟨(a, t₁), hx, hf⟩⟩

theorem calls_of_serve {q : Option Served} {more : Bool} {t t' : Disk × List (List UInt8)}
    (hq : q ≠ some .readGraphPort ∧ q ≠ some .writeGraphPort)
    (h : serve env s q t = .ok ((s', more), t')) : s'.calls = s.calls := by
  unfold serve at h
  split at h
  · exact absurd rfl hq.1
  · exact absurd rfl hq.2
  · cases h
    rfl
  · obtain ⟨sent, t₂, -, h⟩ := bind_eq_ok.mp h
    cases h
    rfl
  · split at h
    · cases h
    · cases h
      rfl

theorem calls_of_pass {more : Bool} {t t' : Disk × List (List UInt8)}
    (h : pass env s t = .ok ((s', more), t')) : s'.calls = s.calls := by
  obtain ⟨⟨request, size⟩, t₁, -, h⟩ := bind_eq_ok.mp h
  exact calls_of_serve (ne_port_of_dispatch request) h

theorem calls_of_run {n : Nat} {t t' : Disk × List (List UInt8)}
    (h : run env n s t = .ok (s', t')) :
    s'.calls = s.calls := by
  induction n generalizing s t with
  | zero =>
      cases h
      rfl
  | succ n ih =>
      obtain ⟨⟨s₁, more⟩, t₁, hpass, h⟩ := bind_eq_ok.mp h
      have hcalls := calls_of_pass hpass
      dsimp only at h
      split at h
      · rw [ih h, hcalls]
      · cases h
        exact hcalls

theorem not_reaches {call : PortCall} {tail : List UInt8} {P : List UInt8 → Prop} :
    ¬ Reaches env s d cs call tail P := by
  rintro ⟨n, s', d', cs', answer, hrun, hcalls, -⟩
  rw [calls_of_run hrun] at hcalls
  have hlen := congrArg List.length hcalls
  simp at hlen

theorem delivered (str rest : List UInt8) :
    Proper [wireString str ++ rest] ∧
      [wireString str ++ rest].flatten = wireString str ++ rest ++ [] := by
  refine ⟨fun c hc => ?_, by simp⟩
  rw [List.mem_singleton.mp hc]
  simp [wireString, counted, leBytes]

theorem not_writesRemotely {g_idx : UInt32} {port_name value object : List UInt8}
    (hsize : IsSize value.length) : ¬ WritesRemotely env s d g_idx port_name value object := by
  intro h
  obtain ⟨hproper, hflat⟩ := delivered (ascii "update port")
    (leBytes 4 g_idx.toNat ++ (wireString port_name ++ object))
  exact not_reaches (h _ [] _ (clientWrite_sends hsize) hproper hflat)

theorem not_readsRemotely {g_idx : UInt32} {port_name : List UInt8} {d_size : Nat}
    (hsize : IsSize d_size) : ¬ ReadsRemotely env s d g_idx port_name d_size := by
  intro h
  obtain ⟨hproper, hflat⟩ := delivered (ascii "read port")
    (leBytes 4 g_idx.toNat ++ (wireString port_name ++ leBytes 4 d_size))
  exact not_reaches (h _ [] _ (clientRead_sends hsize) hproper hflat)

/-- Ports are out of the client's reach: neither call gets through, whatever the port and the
value. -/
theorem not_remote (env : Env) (s : Server) (d : Disk) (g_idx : UInt32)
    (port_name value object : List UInt8) (hsize : IsSize value.length) :
    ¬ WritesRemotely env s d g_idx port_name value object
      ∧ ¬ ReadsRemotely env s d g_idx port_name value.length :=
  ⟨not_writesRemotely hsize, not_readsRemotely hsize⟩

def quiet : Env where
  atEnd := connectionClosed
  other _ := return []
  port _ _ d_size := List.replicate d_size 0
  d_size := 1

def emptyDisk : Disk := ⟨[], fun _ => none, fun _ _ => false⟩

/-- A byte for the port `p` of the first graph. -/
theorem not_remote_byte :
    ¬ WritesRemotely quiet ⟨0, [], []⟩ emptyDisk 0 (ascii "p") [1] (List.replicate 24 0)
      ∧ ¬ ReadsRemotely quiet ⟨0, [], []⟩ emptyDisk 0 (ascii "p") [(1 : UInt8)].length :=
  not_remote quiet ⟨0, [], []⟩ emptyDisk 0 (ascii "p") [1] (List.replicate 24 0) (Or.inl rfl)

theorem not_acts_as_local : ¬ ∀ env s d g_idx port_name value object, IsSize value.length →
    WritesRemotely env s d g_idx port_name value object
      ∧ ReadsRemotely env s d g_idx port_name value.length := by
  intro hall
  have hsize : IsSize [(1 : UInt8)].length := Or.inl rfl
  exact not_writesRemotely hsize
    (hall quiet ⟨0, [], []⟩ emptyDisk 0 (ascii "p") [1] (List.replicate 24 0) hsize).1

end Ports

end AieTestHarness
