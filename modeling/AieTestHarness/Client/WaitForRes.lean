import AieTestHarness.Client.Manager

/-!
# The loop of `waitForRes`

`for(auto& t: pending_transactions)` takes the elements of a deque one by one, and its body pops
them from that deque. A popped slot keeps what was in it here; whether a use of the loop variable or
of the iterator hits a slot that still belongs to the deque is noted.
-/

namespace AieTestHarness

/-- A `std::deque` that has only been popped since the loop began. -/
structure PoppedDeque where
  slots : List Ref
  popped : Nat

namespace PoppedDeque

def toList (d : PoppedDeque) : List Ref := d.slots.drop d.popped

/-- An iterator at slot `it` can be used, and so can a reference to what is in it. -/
def Valid (d : PoppedDeque) (it : Nat) : Prop := d.popped ≤ it ∧ it < d.slots.length

instance (d : PoppedDeque) (it : Nat) : Decidable (d.Valid it) :=
    inferInstanceAs (Decidable (_ ∧ _))

def pop_front (d : PoppedDeque) : PoppedDeque := { d with popped := d.popped + 1 }

end PoppedDeque

structure WaitLoop where
  pending_transactions : PoppedDeque
  transaction_threads : List Ref
  all : UInt32
  timed : List (Ref × UInt32)
  joined : List Ref
  /-- Whether each use of `t` and each `++` of the iterator was allowed. -/
  uses : List Bool
  graphs : Bool

namespace WaitLoop

variable (s : WaitLoop)

def use (it : Nat) : WaitLoop :=
  { s with uses := s.uses ++ [decide (s.pending_transactions.Valid it)] }

def slot (it : Nat) : Ref := s.pending_transactions.slots.getD it 0

def setTimeOut (it : Nat) (timeout_millisec : UInt32) : WaitLoop :=
  { s.use it with timed := s.timed ++ [(s.slot it, timeout_millisec)] }

/-- `transaction_threads[t].join()`. -/
def join (it : Nat) : WaitLoop := { s.use it with joined := s.joined ++ [s.slot it] }

def pop_front : WaitLoop := { s with pending_transactions := s.pending_transactions.pop_front }

/-- `transaction_threads.erase(t)`. -/
def erase (it : Nat) : WaitLoop :=
  { s.use it with transaction_threads := s.transaction_threads.erase (s.slot it) }

/-- One pass, up to its test for `break`. -/
def pass (timeout_millisec : UInt32) (it : Nat) : WaitLoop :=
  let s := ((((s.setTimeOut it timeout_millisec).join it).pop_front).erase it)
  { s with all := s.all - 1 }

/-- The loop, `left` slots before the end it began with. -/
def loop (timeout_millisec : UInt32) : Nat → Nat → WaitLoop → WaitLoop
  | 0, _, s => s
  | left + 1, it, s =>
    let s := s.pass timeout_millisec it
    if s.all = 0 then s else loop timeout_millisec left (it + 1) (s.use it)

def start (pending transaction_threads : List Ref) (num_trans : UInt32) : WaitLoop where
  pending_transactions := ⟨pending, 0⟩
  transaction_threads := transaction_threads
  all := num_trans
  timed := []
  joined := []
  uses := []
  graphs := false

/-- `waitForRes` from its loop to `waitForGraph`. -/
def waitForRes (pending transaction_threads : List Ref) (timeout_millisec num_trans : UInt32) :
    WaitLoop :=
  let s := loop timeout_millisec pending.length 0 (start pending transaction_threads num_trans)
  if num_trans = 0 then { s with graphs := true } else s

end WaitLoop

end AieTestHarness
