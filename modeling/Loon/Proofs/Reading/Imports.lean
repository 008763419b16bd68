import Loon.Analysis
import Loon.Proofs.Reading.Steps

namespace Loon.FileTree

variable {t : FileTree} {chain : List Path}

def Reads (t : FileTree) (chain : List Path) (source : Source) (s : Session) (d : Document)
    (s' : Session) : Prop :=
  Draft.run (t.importer chain) source source.lines .empty s = (none, ⟨d, none⟩, s')

def sourceAt (l : Location) (content : String) : Source := ⟨(Path.ofLocation l).text, content⟩

variable (t) in
inductive Includes : Source → Source → Prop
  | self {source} : Includes source source
  | imported {source source' line target l content} : line ∈ source.lines →
      line.statement = .importFile target →
      t.findTarget (Path.ofText source.name) target = .ok l → t.read l = .ok content →
      Includes (sourceAt l content) source' → Includes source source'

theorem reads_of_read {source : Source} {s s' : Session} {d : Document} {r : Reader}
    (h : (Reader.ofSource source).read (t.importer chain) s = (.ok d, r, s')) :
    t.Reads chain source s d s' := by
  rw [Reader.read, Reader.ofSource] at h
  dsimp only at h
  split at h
  · cases h
  next draft s₁ hrun =>
    split at h
    next document hfinish =>
      cases h
      obtain ⟨document, _ | label⟩ := draft
      · cases hfinish
        exact hrun
      · cases hspace : label.space <;> simp [Draft.finish, hspace] at hfinish
    · cases h

theorem reads_of_readSource {source : Source} {s s' : Session} {d : Document}
    (h : t.readSource source s = (.ok d, s')) : t.Reads [t.canonical source.name] source s d s' := by
  rw [readSource] at h
  rcases hread : (Reader.ofSource source).read (t.importer [t.canonical source.name]) s with
    ⟨result, r, s₁⟩
  rw [hread] at h
  cases h
  exact reads_of_read hread

theorem reads_of_readDocument {text fileName : String} {d : Document} {s : Session}
    (h : t.readDocument text fileName = (.ok d, s)) :
    ∃ s₁, t.Reads [t.canonical (t.absolute fileName)] ⟨t.absolute fileName, text⟩ .empty d s₁ ∧
      s₁.note [.parsed d.labels.length d.hidden.length] = s := by
  rw [readDocument] at h
  split at h
  next hread =>
    cases h
    exact ⟨_, reads_of_readSource hread, rfl⟩
  · cases h

theorem readDocument_eq_ok {text fileName : String} {d : Document} :
    (t.readDocument text fileName).1 = .ok d ↔
      ∃ s', t.Reads [t.canonical (t.absolute fileName)] ⟨t.absolute fileName, text⟩ .empty d s' := by
  constructor
  · intro h
    obtain ⟨s', hreads, _⟩ := reads_of_readDocument (Prod.ext h rfl)
    exact ⟨s', hreads⟩
  · intro h
    have hread := Reader.read_eq_ok.2 h
    rw [readDocument, readSource]
    generalize Reader.read _ _ _ = x at hread ⊢
    obtain ⟨result, _, _⟩ := x
    cases hread
    rfl

theorem importer_eq (target : String) (place : Place) (s : Session) :
    t.importer chain target place s =
      match t.findTarget (Path.ofText place.source.name) target with
      | .error obstacle => (.error ⟨.invalidTarget target obstacle, some place⟩, s)
      | .ok l =>
        if chain.any (·.isAt l) then
          (.error ⟨.importCycle ((chain ++ [Path.ofLocation l]).map Path.text), some place⟩, s)
        else
          match t.read l with
          | .error failure => (.error ⟨.unreadable (Path.ofLocation l).text failure, none⟩, s)
          | .ok content =>
            match (Reader.ofSource (sourceAt l content)).read
                (t.importer (chain ++ [Path.ofLocation l]))
                (s.note [.importStarted (Path.ofLocation l).text]) with
            | (.ok document, _, s) =>
              (.ok document,
                s.note [.importFinished target document.labels.length document.hidden.length])
            | (.error e, _, s) => (.error e, s) := by
  rw [importer]
  cases t.findTarget (Path.ofText place.source.name) target with
  | error obstacle => rfl
  | ok l =>
    refine ite_congr rfl (fun _ => rfl) fun _ => ?_
    split
    next hread => rw [hread]
    next hread =>
      rw [hread]
      rfl

theorem reads_of_importer {target : String} {place : Place} {s s' : Session} {d : Document}
    (h : t.importer chain target place s = (.ok d, s')) :
    ∃ l content s₁, t.findTarget (Path.ofText place.source.name) target = .ok l ∧
      chain.any (·.isAt l) = false ∧ t.read l = .ok content ∧
      t.Reads (chain ++ [Path.ofLocation l]) (sourceAt l content)
        (s.note [.importStarted (Path.ofLocation l).text]) d s₁ ∧
      s₁.note [.importFinished target d.labels.length d.hidden.length] = s' := by
  rw [importer_eq] at h
  split at h
  · cases h
  next l hfind =>
    split at h
    · cases h
    next hchain =>
      split at h
      · cases h
      next content hread =>
        split at h
        next hdocument =>
          cases h
          exact ⟨l, content, _, hfind, by simpa using hchain, hread, reads_of_read hdocument, rfl⟩
        · cases h

theorem read_of_reads {source : Source} {s s' : Session} {d : Document}
    (h : t.Reads chain source s d s') :
    ∃ r, (Reader.ofSource source).read (t.importer chain) s = (.ok d, r, s') := by
  rw [Reader.read, Reader.ofSource]
  dsimp only
  rw [h]
  exact ⟨_, rfl⟩

theorem importer_of_reads {target content : String} {l : Location} {place : Place}
    {s s₁ : Session} {d : Document}
    (hfind : t.findTarget (Path.ofText place.source.name) target = .ok l)
    (hnew : chain.any (·.isAt l) = false) (hread : t.read l = .ok content)
    (h : t.Reads (chain ++ [Path.ofLocation l]) (sourceAt l content)
      (s.note [.importStarted (Path.ofLocation l).text]) d s₁) :
    t.importer chain target place s =
      (.ok d, s₁.note [.importFinished target d.labels.length d.hidden.length]) := by
  obtain ⟨r, hr⟩ := read_of_reads h
  rw [importer_eq, hfind]
  dsimp only
  rw [if_neg (by simp [hnew]), hread]
  dsimp only
  rw [hr]

/-- Files that are being read are not read again, so the chain cannot grow for ever. -/
theorem chain_induction {P : List Path → Prop}
    (h : ∀ chain, (∀ l content, t.read l = .ok content → chain.any (·.isAt l) = false →
      P (chain ++ [Path.ofLocation l])) → P chain) (chain : List Path) : P chain :=
  h chain fun l content _hread _hnew =>
    chain_induction h (chain ++ [Path.ofLocation l])
termination_by t.unopened chain
decreasing_by exact unopened_append_lt (mem_entries_of_read _hread) (by simp [_hnew])

end Loon.FileTree
