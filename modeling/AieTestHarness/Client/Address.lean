import Mathlib.Algebra.Ring.Int.Defs
import AieTestHarness.Sockets

/-!
# The address of a server

`test_harness_client(ip_port_str)` up to its call of `connect`. Numbers are read by `std::stoi`,
which skips blanks, takes a sign and stops at the first byte that is no digit.
-/

namespace AieTestHarness

/-- How the constructor can end before it connects. -/
inductive AddressFault where
  | exn (e : Exn)
  | invalid_argument
  | out_of_range
  deriving DecidableEq

namespace Address

def colon : UInt8 := 58

def period : UInt8 := 46

def isSpace (b : UInt8) : Bool := b = 32 ∨ 9 ≤ b ∧ b ≤ 13

def isDigit (b : UInt8) : Bool := 48 ≤ b ∧ b ≤ 57

def value (digits : List UInt8) : Nat := digits.foldl (fun n b => 10 * n + (b.toNat - 48)) 0

def sign : List UInt8 → Bool × List UInt8
  | 43 :: s => (false, s)
  | 45 :: s => (true, s)
  | s => (false, s)

def toInt (n : Int) : Except AddressFault Int :=
  if -2 ^ 31 ≤ n ∧ n < 2 ^ 31 then .ok n else .error .out_of_range

def stoi (s : List UInt8) : Except AddressFault Int :=
  let (negative, s) := sign (s.dropWhile isSpace)
  let digits := s.takeWhile isDigit
  if digits = [] then .error .invalid_argument
  else toInt (if negative then -value digits else value digits)

/-- The loop of `isValidIpV4`, on the pieces that `find(".")` cuts off and the one that is left. -/
def isValidParts : List (List UInt8) → Nat → Except AddressFault Bool
  | [], _ => return false
  | [ip_copy], count =>
    if count ≠ 3 then return false
    else if ip_copy = [] then return false
    else do
      let num ← stoi ip_copy
      return !decide (num < 0 ∨ num > 255)
  | token :: rest, count =>
    if token = [] then return false
    else do
      let num ← stoi token
      if num < 0 ∨ num > 255 then return false
      else isValidParts rest (count + 1)

def isValidIpV4 (ip : List UInt8) : Except AddressFault Bool := isValidParts (ip.splitOn period) 0

/-- `ip_port_str.substr(0, pos)`. -/
def ipPart (ip_port_str : List UInt8) : List UInt8 := ip_port_str.takeWhile (· ≠ colon)

/-- `ip_port_str.substr(pos + 1)`, the whole string where there is no colon. -/
def portPart (ip_port_str : List UInt8) : List UInt8 :=
  match ip_port_str.dropWhile (· ≠ colon) with
  | [] => ip_port_str
  | _ :: port => port

/-- `mPort = std::stoi(..)` in a `uint16_t`. -/
def narrow (n : Int) : UInt16 := UInt16.ofNat (n % 2 ^ 16).toNat

/-- `test_harness_client(ip_port_str)`: `mIp` and `mPort` where it connects. -/
def testHarnessClient (ip_port_str : List UInt8) :
    Except AddressFault (List UInt8 × UInt16) := do
  let mIp := ipPart ip_port_str
  if !(← isValidIpV4 mIp) then
    throw (.exn (.socket .INVALID_IP_ADDRESS ("[ERROR]: Invalid IP address: " ++ text mIp)))
  else
    match stoi (portPart ip_port_str) with
    | .ok n => return (mIp, narrow n)
    | .error _ =>
      throw (.exn (.socket .INVALID_PORT_NUMBER
        ("[ERROR]: Invalid port number " ++ text (portPart ip_port_str))))

end Address

end AieTestHarness
