import AieTestHarness.Sockets

/-!
# The server

`test_harness_server` accepts one client after the other. It confirms the connection, receives the
files of the client into a directory of the session, runs the session in a process of its own, sends
the files the session leaves, and waits for the next client. The server makes the directory of a
session, changes to it and starts its processes without fail; all else can go wrong.
-/

namespace AieTestHarness

open Slices Chunks Sockets

/-- What `recv` does when the bytes of a client are used up. -/
inductive StreamEnd where
  | closed
  | failed
  | silent
  deriving DecidableEq, Repr

def StreamEnd.fault : StreamEnd → Fault
  | .closed => connectionClosed
  | .failed => .exn (.socket .SOCKET_RECEIVE_FAILURE "[ERROR]: Failed to receive data")
  | .silent => .silent

structure Session where
  /-- What `system` returns. -/
  ret : Int
  entry : List Name → Option Entry
  denied : Access → List Name → Bool
  /-- The names in its directory, in the order of a `fs::directory_iterator`. -/
  names : List Name

structure Connection where
  /-- The bytes it sends, as `recv` returns them up to the start of the session. -/
  chunks : List (List UInt8)
  chunks_proper : Proper chunks
  atEnd : StreamEnd
  sends : List SendResult
  /-- `none` where the session process waits for the client for ever. -/
  session : Option Session

/-- `catch (const std::exception& e)`. -/
def Fault.caught : Fault → Bool
  | .exn .assertion => false
  | .exn .undefined => false
  | .exn _ => true
  | .filesystem => true
  | .silent => false
  | .sigpipe => false

/-- The test harness session `n` works in this directory. -/
def sessionName (n : Nat) : Name :=
  ("session_" ++ toString n).toList.map fun c => UInt8.ofNat c.toNat

namespace Disk

/-- `fs::create_directories` where nothing stands in the way. -/
def makeDirectories (d : Disk) (place : List Name) : Disk :=
  { d with entry := fun q => if q <+: place then some .directory else d.entry q }

/-- `fs::current_path(place)`, of a directory that has just been made. -/
def changeTo (d : Disk) (place : List Name) : Disk := { d with cur := place }

/-- The directory `p` is opened to be listed. -/
def directory_iterator (d : Disk) (p : Path) : Except Fault Unit :=
  match d.locate true p with
  | .ok place =>
    if d.node place = some .directory ∧ d.denied .read place = false then .ok ()
    else .error .filesystem
  | .error _ => .error .filesystem

end Disk

structure TestHarnessMain where
  disk : Disk
  mSessionId : Nat
  connected : Bool

namespace TestHarnessMain

def createSessionPath (s : TestHarnessMain) : List Name × TestHarnessMain :=
  let sessPath := s.disk.cur ++ [sessionName s.mSessionId]
  (sessPath, { s with
    disk := (s.disk.removeTree sessPath).makeDirectories sessPath
    mSessionId := s.mSessionId + 1 })

def getXrtConfigs (c : Connection) : Reader (List Path) := do
  let (files, _) ← recvFiles c.atEnd.fault
  return files

/-- The entries of a directory whose `status()` is that of a regular file. -/
def regularFiles (d : Disk) (sessPath : Path) : List Name → Except Fault (List Path)
  | [] => return []
  | n :: names => do
    let status ← d.status (sessPath.append [n])
    let files ← regularFiles d sessPath names
    match status with
    | some (.file _) => return sessPath.append [n] :: files
    | _ => return files

def logFiles (d : Disk) (sessPath : Path) (names : List Name) : Except Fault (List Path) := do
  d.directory_iterator sessPath
  regularFiles d sessPath names

def syncWorkDir (d : Disk) (sessPath : Path) (names : List Name) : Writer Nat := do
  let files ← logFiles d sessPath names
  sendFiles d files

/-- What the session leaves, without the files of the client. -/
def withoutConfigs (d : Disk) (config : List Path) : Except Fault Disk :=
  config.foldlM Disk.remove_all d

/-- `runSession`, after what has been received and sent to confirm the connection. -/
def runSession (c : Connection) (chunks : List (List UInt8)) (out : Outgoing)
    (s : TestHarnessMain) :
    Except Fault TestHarnessMain := do
  let curWorkDir := Path.root :: s.disk.cur
  let (sessPath, s) := s.createSessionPath
  let (config, disk, _) ← getXrtConfigs c (s.disk.changeTo sessPath, chunks)
  match c.session with
  | none => throw .silent
  | some session =>
    let disk ← withoutConfigs { disk with entry := session.entry, denied := session.denied } config
    if config.length > 0 ∧ session.ret = 0 then
      let _ ← syncWorkDir disk (Path.root :: sessPath) session.names out
    let disk ← disk.chdir curWorkDir
    let disk ← disk.remove_all (Path.root :: sessPath)
    return { s with disk := disk }

/-- `sendData(true)` and `recvData(resp)`. -/
def confirm (c : Connection) (s : TestHarnessMain) :
    Except Fault (List (List UInt8) × Outgoing) := do
  let (_, out) ← sendPod [1] ⟨c.sends, []⟩
  let (_, _, chunks) ← recvPod c.atEnd.fault 1 (s.disk, c.chunks)
  return (chunks, out)

def closeConnection (s : TestHarnessMain) : TestHarnessMain := { s with connected := false }

/-- The body of the loop of `run`, once a client has been accepted. -/
def serve (c : Connection) (s : TestHarnessMain) : Except Fault TestHarnessMain :=
  let s := { s with connected := true }
  match confirm c s with
  | .error e => if e.caught then .ok s.closeConnection else .error e
  | .ok (chunks, out) => do
    let s ← runSession c chunks out s
    return s.closeConnection

def run (max_num_sessions : Nat) : List Connection → TestHarnessMain → Except Fault TestHarnessMain
  | [], s => return s
  | c :: clients, s =>
    if max_num_sessions = 0 ∨ s.mSessionId < max_num_sessions then do
      let s ← serve c s
      run max_num_sessions clients s
    else return s

end TestHarnessMain

end AieTestHarness
