import AieTestHarness.Lib.Loops
import AieTestHarness.Lib.Slices
import Mathlib.Algebra.Ring.Nat

/-!
# Integers, exceptions and memory accesses

The sources compute in `unsigned int`, `uint32_t`, `size_t` and `uint64_t`; the model computes in
`Nat` and reduces where the C++ type does. An access outside an object is undefined behaviour in the
sources and the exception `undefined` here, so a computation that ends in `.ok` made none.
-/

namespace AieTestHarness

open Slices

/-- Reduction to `unsigned int` and `uint32_t`. -/
def u32 (n : Nat) : Nat := n % 2 ^ 32

def u64 (n : Nat) : Nat := n % 2 ^ 64

theorem u32_of_lt {n : Nat} (h : n < 2 ^ 32) : u32 n = n := Nat.mod_eq_of_lt h

theorem u64_of_lt {n : Nat} (h : n < 2 ^ 64) : u64 n = n := Nat.mod_eq_of_lt h

theorem u32_lt (n : Nat) : u32 n < 2 ^ 32 := Nat.mod_lt _ (by decide)

theorem u64_lt (n : Nat) : u64 n < 2 ^ 64 := Nat.mod_lt _ (by decide)

theorem u32_le (n : Nat) : u32 n ≤ n := Nat.mod_le _ _

theorem u64_le (n : Nat) : u64 n ≤ n := Nat.mod_le _ _

inductive SocketStatus where
  | SOCKET_CREATE_FAILURE
  | SOCKET_BIND_FAILURE
  | SOCKET_LISTEN_FAILURE
  | SOCKET_ACCEPT_FAILURE
  | SOCKET_CONNECT_FAILURE
  | SOCKET_SEND_FAILURE
  | SOCKET_RECEIVE_FAILURE
  | SOCKET_CLOSE_FAILURE
  | FILE_OPEN_FAILURE
  | INVALID_IP_ADDRESS
  | INVALID_PORT_NUMBER
  deriving DecidableEq, Repr

inductive TestHarnessStatus where
  | TEST_HARNESS_CREATION_FAILURE
  | TEST_HARNESS_INTERNAL_FAILURE
  | TEST_HARNESS_NOT_CREATED_FAILURE
  | TEST_HARNESS_RUN_GRAPH_FAILURE
  | TEST_HARNESS_RUN_FAILURE
  | TEST_HARNESS_WAIT_FOR_RES_FAILURE
  | TEST_HARNESS_GET_LOG_FILES_FAILURE
  | UNKNOWN_REQUEST
  | INVALID_OPERATIONS
  | INVALID_ARGUMENTS
  deriving DecidableEq, Repr

/-- How a computation can end other than by returning. -/
inductive Exn where
  | testHarness (status : TestHarnessStatus) (message : String)
  | socket (status : SocketStatus) (message : String)
  /-- A failed `assert`, which aborts the process. -/
  | assertion
  /-- `std::bad_alloc` or `std::length_error`. -/
  | alloc
  | undefined
  deriving DecidableEq, Repr

variable {α : Type}

def getAt (v : List α) (i : Nat) : Except Exn α :=
  match v[i]? with
  | some x => .ok x
  | none => .error .undefined

def setAt (v : List α) (i : Nat) (x : α) : Except Exn (List α) :=
  if i < v.length then .ok (v.set i x) else .error .undefined

/-- `memcpy(dst + off, src + from, n)`. -/
def memcpy (dst : List UInt8) (off : Nat) (src : List UInt8) (pos n : Nat) :
    Except Exn (List UInt8) :=
  if pos + n ≤ src.length ∧ off + n ≤ dst.length then .ok (overwrite dst off (slice pos n src))
  else .error .undefined

/-- `resize(n)` of an empty `std::vector<char>`. No allocation of `2 ^ 62` bytes succeeds. -/
def resize (n : Nat) : Except Exn (List UInt8) :=
  if n < 2 ^ 62 then .ok (List.replicate n 0) else .error .alloc

theorem getAt_eq_ok {v : List α} {i : Nat} {x : α} : getAt v i = .ok x ↔ v[i]? = some x := by
  unfold getAt
  cases v[i]? <;> simp

theorem setAt_eq_ok {v w : List α} {i : Nat} {x : α} :
    setAt v i x = .ok w ↔ i < v.length ∧ w = v.set i x := by
  unfold setAt
  split <;> rename_i h <;> simp [h, eq_comm]

theorem resize_eq_ok {n : Nat} {v : List UInt8} :
    resize n = .ok v ↔ n < 2 ^ 62 ∧ v = List.replicate n 0 := by
  rw [resize]
  split <;> rename_i h
  · exact ⟨fun hv => ⟨h, (Except.ok.inj hv).symm⟩, fun hv => congrArg Except.ok hv.2.symm⟩
  · exact ⟨fun hv => absurd hv (by simp), fun hv => absurd hv.1 h⟩

theorem memcpy_eq_ok {dst dst' src : List UInt8} {off pos n : Nat} :
    memcpy dst off src pos n = .ok dst'
      ↔ pos + n ≤ src.length ∧ off + n ≤ dst.length
        ∧ dst' = overwrite dst off (slice pos n src) := by
  unfold memcpy
  split <;> rename_i h
  · simp [h, eq_comm]
  · simp only [reduceCtorEq, false_iff]
    tauto

end AieTestHarness
