import Loon.Fault
import Loon.Path

namespace Loon

inductive Entry
  | folder
  | text (content : String)
  | binary
deriving DecidableEq, Repr, Inhabited

/-- The files that imports can reach: folders and files, without links, and the current folder among
them. -/
structure FileTree where
  current : Location
  entries : List (Location × Entry)
deriving Repr, Inhabited

namespace FileTree

/-- The folders on the way to an entry or to the current folder are there without being listed. -/
def isOnTheWay (t : FileTree) (l : Location) : Bool :=
  l.isPrefixOf t.current || t.entries.any fun entry => l.isPrefixOf entry.1

def entry? (t : FileTree) (l : Location) : Option Entry :=
  match t.entries.lookup l with
  | some entry => some entry
  | none => if t.isOnTheWay l then some .folder else none

def walk (t : FileTree) : (here : Location) → List String → Except ReadFailure Location
  | here, [] => .ok here
  | here, piece :: rest =>
    match t.entry? here with
    | some .folder =>
      if Path.isIdle piece then walk t here rest
      else if piece = ".." then walk t here.dropLast rest
      else if (t.entry? (here ++ [piece])).isSome then walk t (here ++ [piece]) rest
      else .error .notFound
    | some _ => .error .notFolder
    | none => .error .notFound

def start (t : FileTree) (rooted : Bool) : Location := if rooted then [] else t.current

def locate (t : FileTree) (text : String) : Except ReadFailure Location :=
  if text.isEmpty then .error .notFound
  else t.walk (t.start (Path.isRooted text)) (Path.pieces text)

def canonical (t : FileTree) (text : String) : Path :=
  match t.locate text with
  | .ok l => Path.ofLocation l
  | .error _ => Path.ofText text

def read (t : FileTree) (l : Location) : Except ReadFailure String :=
  match t.entry? l with
  | some (.text content) => .ok content
  | some .binary => .error .notText
  | some .folder => .error .isFolder
  | none => .error .notFound

def readText (t : FileTree) (text : String) : Except ReadFailure String :=
  match t.locate text with
  | .ok l => t.read l
  | .error failure => .error failure

/-- The location that a target names in a file. Targets start from the folder of the file that names
them; a path without a last part stands for a file in the current folder. -/
def locateTarget (t : FileTree) (importer : Path) (target : String) :
    Except ReadFailure Location :=
  if Path.isRooted target then t.walk [] (Path.pieces target)
  else
    let rooted := importer.rooted && !importer.parts.isEmpty
    t.walk (t.start rooted) (importer.parts.dropLast ++ Path.pieces target)

def absolute (t : FileTree) (text : String) : String :=
  Path.joinText (Path.ofLocation t.current).text text

theorem mem_of_lookup {entries : List (Location × Entry)} {l : Location} {entry : Entry}
    (h : entries.lookup l = some entry) : (l, entry) ∈ entries := by
  obtain ⟨before, after, rfl, _⟩ := List.lookup_eq_some_iff.1 h
  simp

theorem mem_entries_of_read {t : FileTree} {l : Location} {content : String}
    (h : t.read l = .ok content) : (l, Entry.text content) ∈ t.entries := by
  unfold read entry? at h
  cases hl : t.entries.lookup l with
  | none =>
    rw [hl] at h
    by_cases hw : t.isOnTheWay l <;> simp [hw] at h
  | some entry =>
    rw [hl] at h
    cases entry with
    | folder => simp at h
    | binary => simp at h
    | text s =>
      simp at h
      subst h
      exact mem_of_lookup hl

end FileTree

end Loon
