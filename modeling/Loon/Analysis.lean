import Loon.Import
import Loon.Resolution

namespace Loon

structure Analysis where
  labels : Mapping Value
  spaces : Mapping Value
  unresolved : Document
deriving Repr, Inhabited

/-- Resolves the registry space by space. One that fails is left out and told of: the spaces of
hidden labels may refer to what is not there, as long as no visible label does. -/
def Document.resolveSpaces (d : Document) : Mapping Value → Mapping Value × List Record
  | [] => ([], [])
  | (name, v) :: rest =>
    let (spaces, records) := d.resolveSpaces rest
    match d.resolve v with
    | .ok w => ((name, w) :: spaces, records)
    | .error e => (spaces, .spaceLeftOut name e :: records)

namespace FileTree

def readDocument (t : FileTree) (text fileName : String) : Except Error Document × Session :=
  match t.readSource ⟨t.absolute fileName, text⟩ .empty with
  | (.ok d, s) => (.ok d, s.note [.parsed d.labels.length d.hidden.length])
  | (.error e, s) => (.error e, s)

def labelsOf (t : FileTree) (text fileName : String) : Except Error (Mapping Value) :=
  match (t.readDocument text fileName).1 with
  | .ok d => d.resolvedLabels
  | .error e => .error e

def analysisOf (t : FileTree) (text fileName : String) : Except Error Analysis × List Record :=
  match t.readDocument text fileName with
  | (.error e, s) => (.error e, s.log)
  | (.ok d, s) =>
    let s := s.note [.resolving d.labels.length]
    match d.resolvedLabels with
    | .error e => (.error e, s.log)
    | .ok labels =>
      let (spaces, records) := d.resolveSpaces s.spaces
      (.ok ⟨labels, spaces, d⟩, (s.note records).log)

def analysisOfFile (t : FileTree) (path : String) : Except Error Analysis × List Record :=
  if !Path.isLoonFile path then (.error ⟨.invalidEntryFile path, none⟩, [])
  else
    match t.readText path with
    | .error failure => (.error ⟨.unreadable path failure, none⟩, [])
    | .ok text => t.analysisOf text path

end FileTree

end Loon
