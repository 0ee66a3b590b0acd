import Mathlib.Tactic.SplitIfs
import AieTestHarness.Files
import AieTestHarness.Lib.Loops

/-!
# Where a path leads

A way is the way to one of its places and the way from there. A file opened for output is the last
component of its path in the directory the other components lead to, unless a symbolic link stands
there; and as long as only files are written, all ways stay as they are.
-/

namespace AieTestHarness

@[simp]
theorem Path.filename_append (p : Path) (n : Name) : Path.filename (p ++ [n]) = n := by
  simp [Path.filename]

namespace Disk

variable {d d' : Disk} {follow : Bool} {links : Nat} {place : List Name} {p : Path}

/-! ### Ways -/

section Ways

variable {again again' : List Name → Path → Except PathError (List Name × Nat)} {pre ns : Path}

theorem walk_eq (d : Disk) (follow : Bool) (links : Nat) :
    ∃ again, d.walk follow links = d.advance follow again links := by
  cases links with
  | zero => exact ⟨_, rfl⟩
  | succ links => exact ⟨_, rfl⟩

theorem advance_of_ne (h : d.node place ≠ some .directory) (ns : Path) :
    d.advance follow again links place ns = .error .absent := by
  cases ns with
  | nil => exact if_neg h
  | cons n ns =>
      unfold advance
      exact if_neg h

theorem find_eq_symlink {n : Name} {next : List Name} {target : Path}
    (h : d.find place n = .symlink next target) :
    next = place ++ [n] ∧ d.node next = some (.symlink target) := by
  unfold find at h
  split_ifs at h
  split at h
  · cases h
  · rename_i hnode
    cases h
    exact ⟨rfl, hnode⟩
  · cases h

theorem find_eq_other {n : Name} {next : List Name} (h : d.find place n = .other next) :
    next = place ++ [n] ∧ d.node next = none := by
  unfold find at h
  split_ifs at h
  split at h
  · cases h
  · cases h
  · rename_i hdir hlink
    cases h
    refine ⟨rfl, ?_⟩
    unfold node at hdir hlink ⊢
    generalize d.entry (place ++ [n]) = entry at hdir hlink ⊢
    rcases entry with _ | _ | content | target
    · rfl
    · exact (hdir rfl).elim
    · rfl
    · exact (hlink target rfl).elim

theorem advance_append (hns : ns ≠ []) (hwalk : d.walk follow links = d.advance follow again links)
    (hagain : ∀ place pre, again place (pre ++ ns)
      = again' place pre >>= fun r => d.walk follow r.2 r.1 ns) :
    d.advance follow again links place (pre ++ ns)
      = d.advance true again' links place pre >>= fun r => d.walk follow r.2 r.1 ns := by
  induction pre generalizing place with
  | nil =>
      rw [List.nil_append, advance]
      split
      · rw [Loops.bind_ok, hwalk]
      · rename_i h
        exact advance_of_ne h ns
  | cons n pre ih =>
      have hmore : pre ++ ns ≠ [] := List.append_ne_nil_of_right_ne_nil pre hns
      rw [List.cons_append, advance, advance]
      split
      · cases hfind : d.find place n with
        | directory next => exact ih
        | symlink next target =>
            dsimp only
            rw [if_neg fun h => hmore h.1, if_neg (by simp), ← List.append_assoc]
            exact hagain _ _
        | other next =>
            dsimp only
            split
            · rw [Loops.bind_ok, hwalk, advance_of_ne]
              rw [(find_eq_other hfind).2]
              exact nofun
            · rfl
        | error e => rfl
      · rfl

/-- The links of the first part are all followed, and count for the second. -/
theorem walk_append (hns : ns ≠ []) : d.walk follow links place (pre ++ ns)
    = d.walk true links place pre >>= fun r => d.walk follow r.2 r.1 ns := by
  induction links generalizing place pre with
  | zero => exact advance_append hns rfl fun _ _ => rfl
  | succ links ih => exact advance_append hns rfl fun _ _ => ih

/-- Where a link at the end is followed, the way ends at none. -/
theorem node_ne_symlink {r : List Name × Nat} (h : d.walk true links place ns = .ok r)
    (target : Path) : d.node r.1 ≠ some (.symlink target) := by
  have hadvance : ∀ again links place ns,
      (∀ place ns, again place ns = .ok r → d.node r.1 ≠ some (.symlink target)) →
      d.advance true again links place ns = .ok r → d.node r.1 ≠ some (.symlink target) := by
    intro again links place ns hagain h
    induction ns generalizing place with
    | nil =>
        rw [advance] at h
        split at h
        · rename_i hdir
          cases h
          rw [hdir]
          exact nofun
        · cases h
    | cons n ns ih =>
        rw [advance] at h
        split at h
        · cases hfind : d.find place n with
          | directory next =>
              rw [hfind] at h
              exact ih next h
          | symlink next goal =>
              rw [hfind] at h
              dsimp only at h
              rw [if_neg (by simp)] at h
              exact hagain _ _ h
          | other next =>
              rw [hfind] at h
              dsimp only at h
              split at h
              · cases h
                rw [(find_eq_other hfind).2]
                exact nofun
              · cases h
          | error e =>
              rw [hfind] at h
              cases h
        · cases h
  induction links generalizing place ns with
  | zero => exact hadvance _ _ place ns (fun _ _ herror => by cases herror) h
  | succ links ih => exact hadvance _ _ place ns (fun _ _ => ih) h

theorem walk_last {n : Name} {A : List Name} {links' : Nat}
    (h : d.walk true links A [n] = .ok (place, links')) (hfile : d.node place ≠ some .directory) :
    d.walk false links A [n] = .ok (A ++ [n], links)
      ∧ (place = A ++ [n] ∨ ∃ target, d.node (A ++ [n]) = some (.symlink target)) := by
  obtain ⟨again, hwalk⟩ := walk_eq d true links
  obtain ⟨again', hwalk'⟩ := walk_eq d false links
  rw [hwalk, advance] at h
  rw [hwalk', advance]
  split at h
  · rename_i hdir
    rw [if_pos hdir]
    cases hfind : d.find A n with
    | directory next =>
        rw [hfind] at h
        dsimp only at h
        rw [advance] at h
        split at h
        · rename_i hnext
          cases h
          exact absurd hnext hfile
        · cases h
    | symlink next target =>
        obtain ⟨rfl, hlink⟩ := find_eq_symlink hfind
        exact ⟨rfl, Or.inr ⟨target, hlink⟩⟩
    | other next =>
        rw [hfind] at h
        dsimp only at h
        rw [if_pos rfl] at h
        cases h
        obtain ⟨rfl, -⟩ := find_eq_other hfind
        exact ⟨rfl, Or.inl rfl⟩
    | error e =>
        rw [hfind] at h
        cases h
  · cases h

theorem walk_nil {r : List Name × Nat} (h : d.walk follow links place [] = .ok r) :
    d.node r.1 = some .directory := by
  obtain ⟨again, hwalk⟩ := walk_eq d follow links
  rw [hwalk, advance] at h
  split at h
  · rename_i hdir
    cases h
    exact hdir
  · cases h

end Ways

/-! ### Files that are opened -/

section Opened

theorem locate_eq_ok : d.locate follow p = .ok place ↔ p.string ≠ [] ∧ p.string.length < pathMax
    ∧ ∃ links, d.walk follow linksMax (p.origin d.cur) p.names = .ok (place, links) := by
  unfold locate
  split
  · rename_i hnil
    exact ⟨nofun, fun h => absurd hnil h.1⟩
  · rename_i hne
    split
    · rename_i hlong
      exact ⟨nofun, fun h => absurd h.2.1 (Nat.not_lt.mpr hlong)⟩
    · rename_i hshort
      cases d.walk follow linksMax (p.origin d.cur) p.names with
      | error e => exact ⟨nofun, fun h => by obtain ⟨_, _, _, h⟩ := h; cases h⟩
      | ok r =>
          constructor
          · intro h
            cases h
            exact ⟨hne, Nat.lt_of_not_le hshort, r.2, rfl⟩
          · rintro ⟨-, -, links, h⟩
            cases h
            rfl

theorem opened_eq_some : d.opened p = some place ↔
    d.locate true p = .ok place ∧ d.node place ≠ some .directory
      ∧ d.denied .write place = false := by
  unfold opened
  cases d.locate true p with
  | error e => simp
  | ok place' =>
      dsimp only
      split
      · rename_i h
        refine ⟨nofun, ?_⟩
        rintro ⟨heq, hdir, hdenied⟩
        cases heq
        rcases h with h | h
        · exact absurd h hdir
        · exact absurd hdenied (by rw [h]; decide)
      · rename_i h
        rw [not_or] at h
        constructor
        · intro heq
          cases heq
          exact ⟨rfl, h.1, Bool.eq_false_iff.mpr h.2⟩
        · rintro ⟨heq, -⟩
          cases heq
          rfl

theorem node_of_opened (h : d.opened p = some place) : d.node place = none := by
  obtain ⟨hlocate, hdir, -⟩ := opened_eq_some.mp h
  obtain ⟨-, -, links, hwalk⟩ := locate_eq_ok.mp hlocate
  have hlink : ∀ target, d.node place ≠ some (.symlink target) := node_ne_symlink hwalk
  unfold node at hdir hlink ⊢
  generalize d.entry place = entry at hdir hlink ⊢
  rcases entry with _ | _ | content | target
  · rfl
  · exact absurd rfl hdir
  · rfl
  · exact absurd rfl (hlink target)

/-- The directory in which the last component of a path is looked up. -/
def base (d : Disk) (p : Path) : Except PathError (List Name) :=
  (d.walk true linksMax (p.origin d.cur) p.names.dropLast).map (·.1)

theorem filename_eq {init : Path} {n : Name} (h : p.names = init ++ [n]) : p.filename = n := by
  unfold Path.names at h
  split at h
  · cases p with
    | nil => simp at h
    | cons m p =>
        rw [List.tail_cons] at h
        rw [h]
        exact Path.filename_append (m :: init) n
  · rw [h, Path.filename_append]

/-- A file that is opened is the last component of the path, unless a link stands there. -/
theorem base_of_opened (h : d.opened p = some place) : ∃ A, d.base p = .ok A
    ∧ d.locate false p = .ok (A ++ [p.filename])
    ∧ (place = A ++ [p.filename] ∨ ∃ target, d.node (A ++ [p.filename])
      = some (.symlink target)) := by
  obtain ⟨hlocate, hfile, -⟩ := opened_eq_some.mp h
  obtain ⟨hne, hlt, links, hwalk⟩ := locate_eq_ok.mp hlocate
  rcases List.eq_nil_or_concat p.names with hnil | ⟨init, n, hnames⟩
  · rw [hnil] at hwalk
    exact absurd (walk_nil hwalk) hfile
  · rw [List.concat_eq_append] at hnames
    rw [hnames, walk_append (List.cons_ne_nil n [])] at hwalk
    obtain ⟨⟨A, links₁⟩, hfirst, hlast⟩ := Loops.bind_eq_ok.mp hwalk
    obtain ⟨hnofollow, hplace⟩ := walk_last hlast hfile
    rw [filename_eq hnames]
    refine ⟨A, ?_, locate_eq_ok.mpr ⟨hne, hlt, links₁, ?_⟩, hplace⟩
    · rw [base, hnames, List.dropLast_concat, hfirst]
      rfl
    · rw [hnames, walk_append (List.cons_ne_nil n []), hfirst]
      exact hnofollow

end Opened

/-! ### Disks that differ in their files -/

/-- What leads on is the same on both disks. -/
structure SameWays (d d' : Disk) : Prop where
  cur : d'.cur = d.cur
  denied : d'.denied = d.denied
  node : d'.node = d.node

theorem node_eq_directory : d.node place = some .directory ↔ d.entry place = some .directory := by
  unfold node
  rcases d.entry place with _ | _ | content | target
  · exact Iff.rfl
  · exact Iff.rfl
  · exact ⟨nofun, nofun⟩
  · exact Iff.rfl

@[simp]
theorem entry_write_self (d : Disk) (place : List Name) (content : List UInt8) :
    (d.write place content).entry place = some (.file content) :=
  Function.update_self ..

theorem entry_write_of_ne {q : List Name} (d : Disk) (content : List UInt8) (h : q ≠ place) :
    (d.write place content).entry q = d.entry q :=
  Function.update_of_ne h ..

theorem node_write (d : Disk) (content : List UInt8) (h : d.node place = none) :
    (d.write place content).node = d.node := by
  funext q
  by_cases hq : q = place
  · subst hq
    rw [h, node, entry_write_self]
  · rw [node, entry_write_of_ne d content hq, node]

namespace SameWays

theorem refl (d : Disk) : SameWays d d := ⟨rfl, rfl, rfl⟩

theorem write (h : SameWays d d') (hplace : d.node place = none) (content : List UInt8) :
    SameWays d (d'.write place content) :=
  ⟨h.cur, h.denied, (node_write d' content (h.node ▸ hplace)).trans h.node⟩

theorem advance (h : SameWays d d')
    (again : List Name → Path → Except PathError (List Name × Nat)) (ns : Path) :
    d'.advance follow again links place ns = d.advance follow again links place ns := by
  have hfind : ∀ place n, d'.find place n = d.find place n := fun place n => by
    unfold find
    rw [h.node, h.denied]
  induction ns generalizing place with
  | nil =>
      unfold Disk.advance
      rw [h.node]
  | cons n ns ih =>
      unfold Disk.advance
      rw [h.node, hfind]
      simp only [ih]

theorem walk (h : SameWays d d') (ns : Path) :
    d'.walk follow links place ns = d.walk follow links place ns := by
  induction links generalizing place ns with
  | zero => exact h.advance _ ns
  | succ links ih =>
      have hagain : d'.walk follow links = d.walk follow links := funext₂ fun place ns => ih ns
      unfold Disk.walk
      rw [hagain]
      exact h.advance _ ns

theorem locate (h : SameWays d d') (p : Path) : d'.locate follow p = d.locate follow p := by
  unfold Disk.locate
  rw [h.walk, h.cur]

theorem opened (h : SameWays d d') (p : Path) : d'.opened p = d.opened p := by
  unfold Disk.opened
  rw [h.locate, h.denied, h.node]

theorem current_path (h : SameWays d d') : d'.current_path = d.current_path := by
  unfold Disk.current_path
  rw [h.node, h.cur]

theorem is_directory (h : SameWays d d') (p : Path) : d'.is_directory p = d.is_directory p := by
  have hentry : ∀ place, (d'.entry place = some .directory) = (d.entry place = some .directory) :=
    fun place => propext (by rw [← node_eq_directory, h.node, node_eq_directory])
  unfold Disk.is_directory Disk.status
  rw [h.locate]
  cases d.locate true p with
  | ok place =>
      change Except.ok (decide (d'.entry place = _)) = Except.ok (decide (d.entry place = _))
      simp only [hentry]
  | error e => cases e <;> rfl

end SameWays

theorem write_write (d : Disk) (place : List Name) (c c' : List UInt8) :
    (d.write place c).write place c' = d.write place c' := by
  simp [write, put]

/-! ### Contents -/

def content (d : Disk) (p : Path) : Option (List UInt8) :=
  match d.status p with
  | .ok (some (.file content)) => some content
  | _ => none

theorem content_of_locate (h : d.locate true p = .ok place) : d.content p
    = match d.entry place with
      | some (.file content) => some content
      | _ => none := by
  rw [content, status, h]
  dsimp only
  rcases d.entry place with _ | _ | content | target <;> rfl

theorem content_write (h : d.locate true p = .ok place) (hplace : d.node place = none)
    (content : List UInt8) : (d.write place content).content p = some content := by
  have hways := (SameWays.refl d).write hplace content
  rw [content_of_locate ((hways.locate p).trans h), entry_write_self]

end Disk

end AieTestHarness
