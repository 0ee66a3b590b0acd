import Mathlib.Data.List.DropRight
import Mathlib.Logic.Function.Basic
import AieTestHarness.Machine

/-!
# Files

What the repository uses of `std::filesystem`, on a system that looks a path up component by
component: `..` goes up from where the way has led so far, symbolic links are followed, and a
component can be missing, too long, or no directory.
-/

namespace AieTestHarness

/-- How an operation on a connection or a disk can end other than by returning. -/
inductive Fault where
  | exn (e : Exn)
  | filesystem
  /-- `recv` never returns. -/
  | silent
  /-- `send` on a connection that is gone raises `SIGPIPE`, which nothing handles. -/
  | sigpipe
  deriving DecidableEq, Repr

/-! ### Paths -/

abbrev Name := List UInt8

/-- `fs::path`: the names between its separators; an absolute one starts with the root. -/
abbrev Path := List Name

def separator : UInt8 := 47

def text (s : Name) : String := String.ofList (s.map fun b => Char.ofNat b.toNat)

namespace Path

def root : Name := [separator]

def dot : Name := [46]

def dotdot : Name := [46, 46]

/-- What the system reads of a string it is given: all before a null character. -/
def cString (s : Name) : Name := s.takeWhile (· ≠ 0)

/-- `fs::path(s)`, as the system takes it. -/
def ofString (s : Name) : Path :=
  if s = [] then []
  else if s.head? = some separator then root :: (cString (s.drop 1)).splitOn separator
  else (cString s).splitOn separator

/-- `p / q`. No second separator is put behind a path that ends in one. -/
def append (p q : Path) : Path :=
  if q.head? = some root then q
  else if p.getLast? = some [] then p.dropLast ++ q
  else p ++ q

def filename (p : Path) : Name := p.getLastD []

def parent_path (p : Path) : Path := if p = [root] then p else p.dropLast.rdropWhile (· = [])

def join : List Name → Name
  | [] => []
  | [n] => n
  | n :: m :: ns => n ++ separator :: join (m :: ns)

def string (p : Path) : Name :=
  match p with
  | [] => []
  | n :: ns => if n = root then separator :: join ns else join (n :: ns)

/-- The directory from which the system looks for a path. -/
def origin (p : Path) (cur : List Name) : List Name := if p.head? = some root then [] else cur

def names (p : Path) : Path := if p.head? = some root then p.tail else p

end Path

/-- The name is one of a file: it has no separator and no null, and is no name of a directory. -/
def Name.Plain (n : Name) : Prop :=
  n ≠ [] ∧ separator ∉ n ∧ n ≠ Path.dot ∧ n ≠ Path.dotdot ∧ 0 ∉ n

instance (n : Name) : Decidable n.Plain := inferInstanceAs (Decidable (_ ∧ _ ∧ _ ∧ _ ∧ _))

/-! ### The system -/

inductive Entry where
  | directory
  | file (content : List UInt8)
  | symlink (target : Path)
  deriving DecidableEq

inductive Access where
  | search
  | read
  | write
  | remove
  deriving DecidableEq

inductive PathError where
  /-- `ENOENT`, `ENOTDIR`. -/
  | absent
  /-- `ELOOP`, `ENAMETOOLONG`, `EACCES`. -/
  | invalid
  deriving DecidableEq

/-- A place is the list of the names from the root to it. -/
structure Disk where
  cur : List Name
  entry : List Name → Option Entry
  denied : Access → List Name → Bool

namespace Disk

/-- What leads on from a place: a directory or a symbolic link. -/
def node (d : Disk) (place : List Name) : Option Entry :=
  match d.entry place with
  | some (.file _) => none
  | e => e

/-- `NAME_MAX`, `PATH_MAX` and the number of symbolic links on one way. -/
def nameMax : Nat := 255

def pathMax : Nat := 4096

def linksMax : Nat := 40

/-- What a component of a path is found to be, with the place it stands for. -/
inductive Found where
  | directory (place : List Name)
  | symlink (place : List Name) (target : Path)
  | other (place : List Name)
  | error (e : PathError)

def find (d : Disk) (place : List Name) (n : Name) : Found :=
  if n = [] then .directory place
  else if d.denied .search place then .error .invalid
  else if n = Path.dot then .directory place
  else if n = Path.dotdot then .directory place.dropLast
  else if nameMax < n.length then .error .invalid
  else match d.node (place ++ [n]) with
    | some .directory => .directory (place ++ [n])
    | some (.symlink target) => .symlink (place ++ [n]) target
    | _ => .other (place ++ [n])

/-- The way from `place` up to the next symbolic link, where it goes on with `again`. The last
component may be missing, and as a link it is only followed where `follow` says so. -/
def advance (d : Disk) (follow : Bool)
    (again : List Name → Path → Except PathError (List Name × Nat)) (links : Nat) :
    List Name → Path → Except PathError (List Name × Nat)
  | place, [] => if d.node place = some .directory then .ok (place, links) else .error .absent
  | place, n :: ns =>
    if d.node place = some .directory then
      match d.find place n with
      | .directory next => advance d follow again links next ns
      | .symlink next target =>
        if ns = [] ∧ follow = false then .ok (next, links)
        else again (target.origin place) (target.names ++ ns)
      | .other next => if ns = [] then .ok (next, links) else .error .absent
      | .error e => .error e
    else .error .absent

/-- Where the names lead from `place`, and how many links may still be followed then. -/
def walk (d : Disk) (follow : Bool) : Nat → List Name → Path → Except PathError (List Name × Nat)
  | 0 => d.advance follow (fun _ _ => .error .invalid) 0
  | links + 1 => d.advance follow (walk d follow links) (links + 1)

/-- The place of a path: something is there, or the last component of the path is missing. -/
def locate (d : Disk) (follow : Bool) (p : Path) : Except PathError (List Name) :=
  if p.string = [] then .error .absent
  else if pathMax ≤ p.string.length then .error .invalid
  else (d.walk follow linksMax (p.origin d.cur) p.names).map (·.1)

/-- The place a file is opened at for output, created where it is missing. -/
def opened (d : Disk) (p : Path) : Option (List Name) :=
  match d.locate true p with
  | .ok place =>
    if d.node place = some .directory ∨ d.denied .write place then none else some place
  | .error _ => none

def readable (d : Disk) (p : Path) : Bool :=
  match d.locate true p with
  | .ok place => !d.denied .read place
  | .error _ => false

def put (d : Disk) (place : List Name) (e : Entry) : Disk :=
  { d with entry := Function.update d.entry place (some e) }

def write (d : Disk) (place : List Name) (content : List UInt8) : Disk :=
  d.put place (.file content)

/-! ### `std::filesystem` -/

def status (d : Disk) (p : Path) : Except Fault (Option Entry) :=
  match d.locate true p with
  | .ok place => .ok (d.entry place)
  | .error .absent => .ok none
  | .error .invalid => .error .filesystem

def exists' (d : Disk) (p : Path) : Except Fault Bool := return (← d.status p).isSome

def is_directory (d : Disk) (p : Path) : Except Fault Bool :=
  return (← d.status p) = some .directory

def current_path (d : Disk) : Except Fault Path :=
  if d.node d.cur = some .directory then .ok (Path.root :: d.cur) else .error .filesystem

/-- `fs::create_directory`, of a path that does not exist. -/
def create_directory (d : Disk) (p : Path) : Except Fault Disk :=
  match d.locate false p with
  | .ok place =>
    if d.entry place = none ∧ d.denied .write place = false then .ok (d.put place .directory)
    else .error .filesystem
  | .error _ => .error .filesystem

/-- `fs::create_directories`: what is missing on the way, from the front. -/
def create_directories (d : Disk) (p : Path) : Except Fault Disk :=
  p.inits.tail.foldlM (fun d q => do
    match ← d.status q with
    | some .directory => return d
    | some _ => throw .filesystem
    | none => d.create_directory q) d

/-- What is at the place is gone, with all below it. -/
def removeTree (d : Disk) (place : List Name) : Disk :=
  { d with entry := fun q => if place <+: q then none else d.entry q }

/-- `fs::remove_all`, which follows no link at the end of the path. -/
def remove_all (d : Disk) (p : Path) : Except Fault Disk :=
  match d.locate false p with
  | .ok place =>
    if d.entry place = none then .ok d
    else if d.denied .remove place then .error .filesystem
    else .ok (d.removeTree place)
  | .error .absent => .ok d
  | .error .invalid => .error .filesystem

def chdir (d : Disk) (p : Path) : Except Fault Disk :=
  match d.locate true p with
  | .ok place =>
    if d.node place = some .directory ∧ d.denied .search place = false then
      .ok { d with cur := place }
    else .error .filesystem
  | .error _ => .error .filesystem

end Disk

end AieTestHarness
