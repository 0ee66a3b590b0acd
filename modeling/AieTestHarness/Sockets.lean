import AieTestHarness.Files
import AieTestHarness.Lib.Chunks

/-!
# Sockets

`test_harness_sockets` writes values to a connection and reads them back, each kind of value with an
overload of its own. `recv` returns the bytes of the stream in chunks of any size, `send` transmits
the whole buffer, part of it, or ends the process. Files are read from the sender's disk and written
to the receiver's.
-/

namespace AieTestHarness

open Slices Chunks

namespace Sockets

/-! ### Sending -/

inductive SendResult where
  | whole
  | part
  | sigpipe
  deriving DecidableEq, Repr

/-- The calls of `send` to come, each transmitting the whole buffer where the list has ended, and
the bytes on the way. -/
structure Outgoing where
  sends : List SendResult
  sent : List UInt8

abbrev Writer (α : Type) := StateT Outgoing (Except Fault) α

def sendFailure : Fault :=
  .exn (.socket .SOCKET_SEND_FAILURE "[ERROR]: Failed to send all data")

/-- `sendData(const char*, size_t)`. -/
def sendBytes (buffer : List UInt8) : Writer Nat := fun o =>
  match o.sends with
  | [] => .ok (buffer.length, { o with sent := o.sent ++ buffer })
  | .whole :: sends => .ok (buffer.length, ⟨sends, o.sent ++ buffer⟩)
  | .part :: _ => .error sendFailure
  | .sigpipe :: _ => .error .sigpipe

def sendSize (size : Nat) : Writer Nat := sendBytes (leBytes 8 size)

/-- `sendData(const T&)`. -/
def sendPod (data : List UInt8) : Writer Nat := sendBytes data

def sendString (str : List UInt8) : Writer Nat := do
  let prefixSize ← sendSize str.length
  let size ← sendBytes str
  return prefixSize + size

def sendVec (buffer : List (List UInt8)) : Writer Nat := do
  let prefixSize ← sendSize buffer.length
  let size ← sendBytes buffer.flatten
  return prefixSize + size

/-- The passes of a loop, each adding to `totalSize`. -/
def sendEach {α : Type} (send : α → Writer Nat) : List α → Nat → Writer Nat
  | [], totalSize => return totalSize
  | x :: xs, totalSize => do
    let size ← send x
    sendEach send xs (totalSize + size)

/-- `sendVec(const std::vector<bool>&)`. -/
def sendBools (buffer : List Bool) : Writer Nat := do
  let totalSize ← sendSize buffer.length
  sendEach (fun val => sendBytes [if val then 1 else 0]) buffer totalSize

def sendStrings (buffer : List (List UInt8)) : Writer Nat := do
  let totalSize ← sendSize buffer.length
  sendEach sendString buffer totalSize

def sendFile (d : Disk) (filepath : Path) : Writer Nat :=
  match d.status filepath with
  | .error e => throw e
  | .ok none => throw <| .exn <| .socket .FILE_OPEN_FAILURE <|
      "[ERROR]: File " ++ text filepath.string ++ " does not exist"
  | .ok (some (.file content)) =>
    if d.readable filepath then do
      let nameSize ← sendString filepath.filename
      let size ← sendVec (content.map fun b => [b])
      return nameSize + size
    else throw <| .exn <| .socket .FILE_OPEN_FAILURE <|
      "[ERROR]: Unable to open file " ++ text filepath.string
  | .ok (some _) => throw <| .exn <| .socket .FILE_OPEN_FAILURE <|
      "[ERROR]: " ++ text filepath.string ++ " is not a regular file"

def sendFiles (d : Disk) (files : List Path) : Writer Nat := do
  let totalSize ← sendSize files.length
  sendEach (sendFile d) files totalSize

/-! ### Receiving -/

def connectionClosed : Fault :=
  .exn (.socket .SOCKET_CLOSE_FAILURE "[ERROR]: Connection closed")

abbrev Reader (α : Type) := Chunks.Reader Disk UInt8 Fault α

def getDisk : Reader Disk := fun (d, cs) => .ok (d, d, cs)

def setDisk (d : Disk) : Reader Unit := fun (_, cs) => .ok ((), d, cs)

def allocate (n : Nat) : Reader Unit := fun s =>
  match resize n with
  | .ok _ => .ok ((), s)
  | .error e => .error (.exn e)

/-- `sizeof` of a `std::string` and of a `fs::path`. -/
def sizeofString : Nat := 32

def sizeofPath : Nat := 40

-- what `recvData` does at the end of the stream
variable (atEnd : Fault)

/-- `recvData(char*, ssize_t)`. -/
def recvBytes (d_size : Nat) : Reader (List UInt8 × Nat) := do
  let buffer ← take atEnd d_size
  return (buffer, d_size)

def recvSize : Reader (Nat × Nat) := do
  let (buffer, rsize) ← recvBytes atEnd 8
  return (leNat buffer, rsize)

/-- `recvData(T&)`. -/
def recvPod (sizeof : Nat) : Reader (List UInt8 × Nat) := recvBytes atEnd sizeof

def recvString : Reader (List UInt8 × Nat) := do
  let (size, rsize) ← recvSize atEnd
  if rsize < 8 then return ([], rsize)
  else
    allocate size
    let (str, n) ← recvBytes atEnd size
    return (str, rsize + n)

def recvVec (sizeof : Nat) : Reader (List (List UInt8) × Nat) := do
  let (size, prefixSize) ← recvSize atEnd
  allocate (size * sizeof)
  let (buffer, n) ← recvBytes atEnd (size * sizeof)
  return (pieces sizeof size buffer, prefixSize + n)

def recvEach {α β : Type} (recv : α → Reader (β × Nat)) (buffer : List α) (totalSize : Nat) :
    Reader (List β × Nat) := do
  let received ← readEach recv buffer
  return (received.map (·.1), received.foldl (fun total r => total + r.2) totalSize)

def recvBools : Reader (List Bool × Nat) := do
  let (size, totalSize) ← recvSize atEnd
  allocate size
  recvEach (fun _ => do
    let (val, n) ← recvBytes atEnd 1
    return (val != [0], n)) (List.replicate size ()) totalSize

def recvStrings : Reader (List (List UInt8) × Nat) := do
  let (size, totalSize) ← recvSize atEnd
  allocate (size * sizeofString)
  recvEach (fun _ => recvString atEnd) (List.replicate size ()) totalSize

/-- The path `recvData(fs::path&)` is given: the current directory where it is empty, created where
it does not exist. -/
def givenPath (d : Disk) (filepath : Path) : Except Fault (Path × Disk) := do
  if filepath.string = [] then return (← d.current_path, d)
  else if ← d.exists' filepath then return (filepath, d)
  else return (filepath, ← d.create_directories filepath)

/-- Where a file of this name goes: into the directory, or beside the file. -/
def target (d : Disk) (filepath : Path) (filename : Name) : Except Fault Path := do
  if ← d.is_directory filepath then return filepath.append (.ofString filename)
  else return filepath.parent_path.append (.ofString filename)

def openFile (d : Disk) (filepath : Path) : Except Fault (List Name × Disk) :=
  match d.opened filepath with
  | some place => .ok (place, d.write place [])
  | none => .error <| .exn <| .socket .FILE_OPEN_FAILURE <|
    "[ERROR]: Unable to open file " ++ text filepath.string

/-- The path `recvData(fs::path&)` writes to, its place, and the disk once the file is open. -/
def destination (d : Disk) (filepath : Path) (filename : Name) :
    Except Fault (Path × List Name × Disk) := do
  let (filepath, d) ← givenPath d filepath
  let filepath ← target d filepath filename
  let (place, d) ← openFile d filepath
  return (filepath, place, d)

def recvFile (filepath : Path) : Reader (Path × Nat) := do
  let (filename, nameSize) ← recvString atEnd
  if filename = [] then
    throw (.exn (.socket .FILE_OPEN_FAILURE "[ERROR]: Invalid filename"))
  else
    let (filepath, place, d) ← destination (← getDisk) filepath filename
    setDisk d
    let (filecontent, n) ← recvVec atEnd 1
    setDisk ((← getDisk).write place filecontent.flatten)
    return (filepath, nameSize + n)

def recvFiles : Reader (List Path × Nat) := do
  let (size, totalSize) ← recvSize atEnd
  allocate (size * sizeofPath)
  recvEach (recvFile atEnd) (List.replicate size []) totalSize

/-! ### Sequences of values -/

inductive Value where
  | pod (data : List UInt8)
  | str (str : List UInt8)
  | vec (sizeof : Nat) (buffer : List (List UInt8))
  | bools (buffer : List Bool)
  | strs (buffer : List (List UInt8))
  | file (filepath : Path)
  | files (files : List Path)
  deriving DecidableEq

/-- The call that sends a value; the sender's files are on `d`. -/
def send (d : Disk) : Value → Writer Nat
  | .pod data => sendPod data
  | .str str => sendString str
  | .vec _ buffer => sendVec buffer
  | .bools buffer => sendBools buffer
  | .strs buffer => sendStrings buffer
  | .file filepath => sendFile d filepath
  | .files files => sendFiles d files

/-- The calls that receive, with the path a file is to be written to. -/
inductive Call where
  | pod (sizeof : Nat)
  | str
  | vec (sizeof : Nat)
  | bools
  | strs
  | file (filepath : Path)
  | files
  deriving DecidableEq

def recv : Call → Reader (Value × Nat)
  | .pod sizeof => do
    let (buffer, n) ← recvPod atEnd sizeof
    return (.pod buffer, n)
  | .str => do
    let (str, n) ← recvString atEnd
    return (.str str, n)
  | .vec sizeof => do
    let (buffer, n) ← recvVec atEnd sizeof
    return (.vec sizeof buffer, n)
  | .bools => do
    let (buffer, n) ← recvBools atEnd
    return (.bools buffer, n)
  | .strs => do
    let (buffer, n) ← recvStrings atEnd
    return (.strs buffer, n)
  | .file filepath => do
    let (filepath, n) ← recvFile atEnd filepath
    return (.file filepath, n)
  | .files => do
    let (files, n) ← recvFiles atEnd
    return (.files files, n)

def sendAll (d : Disk) : List Value → Writer (List Nat)
  | [] => return []
  | v :: vs => do
    let size ← send d v
    let sizes ← sendAll d vs
    return size :: sizes

/-- What a call has received: the value, the size it reports, and the disk when it returns. -/
structure Received where
  value : Value
  totalSize : Nat
  disk : Disk

def recvAll : List Call → Disk × List (List UInt8) →
    List Received × Except Fault (Disk × List (List UInt8))
  | [], s => ([], .ok s)
  | c :: calls, s =>
    match recv atEnd c s with
    | .error e => ([], .error e)
    | .ok ((value, totalSize), s) =>
      let (received, result) := recvAll calls s
      (⟨value, totalSize, s.1⟩ :: received, result)

end Sockets

end AieTestHarness
