import Loon.FileTree
import Loon.Reader

/-!
Imports: a line that imports reads another file of the tree. The files being read already form
a chain that no file enters twice, so each import inside another leaves fewer files to read.
-/

namespace Loon.FileTree

def unopened (t : FileTree) (chain : List Path) : Nat :=
  (t.entries.filter fun entry => !chain.any (·.isAt entry.1)).length

theorem unopened_append_lt {t : FileTree} {chain : List Path} {l : Location} {entry : Entry}
    (hmem : (l, entry) ∈ t.entries) (hnew : ¬ chain.any (·.isAt l) = true) :
    t.unopened (chain ++ [Path.ofLocation l]) < t.unopened chain := by
  unfold unopened
  have hsub : (t.entries.filter fun e => !(chain ++ [Path.ofLocation l]).any (·.isAt e.1)) =
      (t.entries.filter fun e => !chain.any (·.isAt e.1)).filter
        fun e => !(Path.ofLocation l).isAt e.1 := by
    rw [List.filter_filter]
    congr 1
    funext e
    simp [Bool.and_comm]
  rw [hsub]
  apply List.length_filter_lt_length_iff_exists.2
  exact ⟨(l, entry), List.mem_filter.2 ⟨hmem, by simpa using hnew⟩, by simp⟩

def findTarget (t : FileTree) (importer : Path) (target : String) : Except Obstacle Location :=
  if !Path.isLoonFile target then .error .extension
  else
    match t.locateTarget importer target with
    | .ok l => .ok l
    | .error _ => .error .missing

def importer (t : FileTree) (chain : List Path) : Importer := fun target place s =>
  match t.findTarget (Path.ofText place.source.name) target with
  | .error obstacle => (.error ⟨.invalidTarget target obstacle, some place⟩, s)
  | .ok l =>
    let path := Path.ofLocation l
    if chain.any (·.isAt l) then
      (.error ⟨.importCycle ((chain ++ [path]).map Path.text), some place⟩, s)
    else
      match _hread : t.read l with
      | .error failure => (.error ⟨.unreadable path.text failure, none⟩, s)
      | .ok content =>
        match (Reader.ofSource ⟨path.text, content⟩).read (importer t (chain ++ [path]))
            (s.note [.importStarted path.text]) with
        | (.ok document, _, s) =>
          (.ok document,
            s.note [.importFinished target document.labels.length document.hidden.length])
        | (.error e, _, s) => (.error e, s)
termination_by t.unopened chain
decreasing_by exact unopened_append_lt (mem_entries_of_read _hread) (by assumption)

def readSource (t : FileTree) (source : Source) (s : Session) : Except Error Document × Session :=
  let (result, _, s) := (Reader.ofSource source).read (t.importer [t.canonical source.name]) s
  (result, s)

end Loon.FileTree
