import AieTestHarness.Lib.Lts
import Mathlib.Data.UInt

/-!
# The watchdog of a session

`test_harness_session::monitor` wakes up once a second. It counts down from a copy of
`monitorInterval`, which it takes anew whenever it finds the session active, and ends the session at
zero. The session thread marks the session active and changes the interval at any time in between.
-/

namespace AieTestHarness

/-- The next statement of `monitor`. -/
inductive MonitorPc where
  /-- `if (monitorInterval != 0)`. -/
  | start
  /-- The first `count = monitorInterval`. -/
  | load
  | sleep
  /-- `if (mDone)`. -/
  | done
  /-- `if(isActive())`. -/
  | active
  | reload
  | clear
  | decrement
  /-- `if(count == 0)`. -/
  | test
  | ended
  | returned
  deriving DecidableEq

structure Watchdog where
  monitorInterval : UInt64
  mActive : Bool
  mDone : Bool
  count : UInt64
  pc : MonitorPc
  /-- The ticks since the last one that saw the session active, for the record. -/
  idle : Nat
  /-- The interval `count` was last loaded with, for the record. -/
  loaded : Nat

inductive WatchdogLabel where
  | monitor
  | setActive
  | setTimeOut (timeout : UInt64)
  /-- The session thread leaves its loop. -/
  | leave

namespace Watchdog

def new (monitorInterval : UInt64) : Watchdog where
  monitorInterval
  mActive := false
  mDone := false
  count := 0
  pc := .start
  idle := 0
  loaded := 0

variable (s : Watchdog)

def goto (pc : MonitorPc) : Watchdog := { s with pc }

def load (pc : MonitorPc) : Watchdog :=
  { s with count := s.monitorInterval, loaded := s.monitorInterval.toNat, pc }

def monitorStep : Option Watchdog :=
  match s.pc with
  | .start => some (s.goto (if s.monitorInterval ≠ 0 then .load else .returned))
  | .load => some (s.load .sleep)
  | .sleep => some (s.goto .done)
  | .done => some (s.goto (if s.mDone then .returned else .active))
  | .active =>
    some (if s.mActive then { s.goto .reload with idle := 0 }
      else { s.goto .decrement with idle := s.idle + 1 })
  | .reload => some (s.load .clear)
  | .clear => some { s.goto .test with mActive := false }
  | .decrement => some { s.goto .test with count := s.count - 1 }
  | .test => some (s.goto (if s.count = 0 then .ended else .sleep))
  | .ended | .returned => none

/-- `setTimeOut`, which refuses 0 by an exception that ends the session. -/
def setTimeOut (timeout : UInt64) : Watchdog :=
  if timeout = 0 then { s with mDone := true } else { s with monitorInterval := timeout }

def lts : Lts Watchdog WatchdogLabel where
  step l s :=
    match l with
    | .monitor => s.monitorStep
    | .setActive => if s.mDone then none else some { s with mActive := true }
    | .setTimeOut timeout => if s.mDone then none else some (s.setTimeOut timeout)
    | .leave => if s.mDone then none else some { s with mDone := true }

end Watchdog

end AieTestHarness
