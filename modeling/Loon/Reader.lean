import Loon.Draft
import Loon.Session

namespace Loon

abbrev Importer := String → Place → Session → Except Error Document × Session

namespace Draft

def step (importer : Importer) (source : Source) (d : Draft) (s : Session) (line : Line) :
    Except Error Draft × Session :=
  let site : Site := ⟨⟨source, line.span⟩, line.text⟩
  match line.statement with
  | .openLabel name hidden => (d.beginLabel site name hidden, s)
  | .openSpace name => (d.beginSpace site name, s)
  | .closeSpace =>
    match d.endSpace site with
    | .ok (d, name, v) => (.ok d, s.spaceClosed name v)
    | .error e => (.error e, s)
  | .closeLabel =>
    match d.endLabel site with
    | .ok (d, records) => (.ok d, s.note records)
    | .error e => (.error e, s)
  | .assign key token => (d.setKey site key token, s)
  | .importFile target =>
    match importer target site.place s with
    | (.ok document, s) =>
      let (d, records) := d.takeIn target document
      (.ok d, s.note records)
    | (.error e, s) => (.error e, s)
  | .inject target valueOnly => (d.copyIn site target valueOnly, s)
  | .item token => (d.addItem site token, s)

def run (importer : Importer) (source : Source) :
    List Line → Draft → Session → Option Error × Draft × Session
  | [], d, s => (none, d, s)
  | line :: rest, d, s =>
    match d.step importer source s line with
    | (.ok d, s) => run importer source rest d s
    | (.error e, s) => (some e, d, s)

end Draft

structure Reader where
  source : Source
  pending : List Line
  draft : Draft
deriving Repr, Inhabited

namespace Reader

def ofSource (source : Source) : Reader := ⟨source, source.lines, .empty⟩

def read (importer : Importer) (r : Reader) (s : Session) :
    Except Error Document × Reader × Session :=
  match r.draft.run importer r.source r.pending s with
  | (some e, draft, s) => (.error e, { r with pending := [], draft }, s)
  | (none, draft, s) =>
    match draft.finish with
    | .ok document => (.ok document, { r with pending := [], draft := .empty }, s)
    | .error e => (.error e, { r with pending := [], draft }, s)

end Reader

end Loon
