import Loon.Proofs.Reading.Registry

namespace Loon

def Importer.Steady (importer : Importer) : Prop :=
  ∀ target place s s', (importer target place s).1 = (importer target place s').1

abbrev Closer := String → Place → List (String × Value)

def Importer.Registers (importer : Importer) (closer : Closer) : Prop :=
  ∀ target place s,
    (importer target place s).2.spaces = Mapping.extend s.spaces (closer target place)

namespace Draft

variable (importer : Importer) (closer : Closer) (source : Source)

def closingsAt (d : Draft) (line : Line) : List (String × Value) :=
  match line.statement with
  | .closeSpace =>
    match d.endSpace ⟨⟨source, line.span⟩, line.text⟩ with
    | .ok (_, name, v) => [(name, v)]
    | .error _ => []
  | .importFile target => closer target ⟨source, line.span⟩
  | _ => []

def closings : List Line → Draft → List (String × Value)
  | [], _ => []
  | line :: rest, d =>
    d.closingsAt closer source line ++
      match (d.step importer source .empty line).1 with
      | .ok d => closings rest d
      | .error _ => []

variable {importer closer source}

theorem step_steady (h : importer.Steady) (d : Draft) (s s' : Session) (line : Line) :
    (d.step importer source s line).1 = (d.step importer source s' line).1 := by
  rw [step, step]
  cases line.statement with
  | closeSpace | closeLabel =>
    dsimp only
    split <;> rfl
  | importFile target =>
    have himport := h target ⟨source, line.span⟩ s s'
    dsimp only
    generalize importer target ⟨source, line.span⟩ s = x,
      importer target ⟨source, line.span⟩ s' = y at himport
    obtain ⟨x, _⟩ := x
    obtain ⟨y, _⟩ := y
    cases himport
    cases x <;> rfl
  | _ => rfl

theorem run_steady (h : importer.Steady) (lines : List Line) (d : Draft) (s s' : Session) :
    (d.run importer source lines s).1 = (d.run importer source lines s').1 ∧
      (d.run importer source lines s).2.1 = (d.run importer source lines s').2.1 := by
  induction lines generalizing d s s' with
  | nil => exact ⟨rfl, rfl⟩
  | cons line lines ih =>
    have hstep : (d.step importer source s line).1 = (d.step importer source s' line).1 :=
      step_steady h d s s' line
    rw [run, run]
    generalize d.step importer source s line = x, d.step importer source s' line = y at hstep
    obtain ⟨x, s₁⟩ := x
    obtain ⟨y, s₁'⟩ := y
    cases hstep
    cases x with
    | error e => exact ⟨rfl, rfl⟩
    | ok d₁ => exact ih d₁ s₁ s₁'

theorem spaces_step (h : importer.Registers closer) (d : Draft) (s : Session) (line : Line) :
    (d.step importer source s line).2.spaces =
      Mapping.extend s.spaces (d.closingsAt closer source line) := by
  rw [step, closingsAt]
  cases line.statement with
  | closeSpace =>
    dsimp only
    cases d.endSpace ⟨⟨source, line.span⟩, line.text⟩ <;> rfl
  | closeLabel =>
    dsimp only
    split <;> rfl
  | importFile target =>
    have himport := h target ⟨source, line.span⟩ s
    dsimp only
    generalize importer target ⟨source, line.span⟩ s = x at himport
    obtain ⟨_ | _, _⟩ := x <;> exact himport
  | _ => rfl

theorem spaces_run (hsteady : importer.Steady) (h : importer.Registers closer) (lines : List Line)
    (d : Draft) (s : Session) :
    (d.run importer source lines s).2.2.spaces =
      Mapping.extend s.spaces (closings importer closer source lines d) := by
  induction lines generalizing d s with
  | nil => rfl
  | cons line lines ih =>
    have hspaces : (d.step importer source s line).2.spaces =
        Mapping.extend s.spaces (d.closingsAt closer source line) := spaces_step h d s line
    rw [run, closings, Mapping.extend_append, ← hspaces, step_steady hsteady d .empty s line]
    rcases d.step importer source s line with ⟨_ | d₁, s₁⟩
    · rfl
    · exact ih d₁ s₁

end Draft

section Read

variable {importer : Importer} {closer : Closer}

theorem Reader.read_steady (h : importer.Steady) (r : Reader) (s s' : Session) :
    (r.read importer s).1 = (r.read importer s').1 := by
  obtain ⟨herror, hdraft⟩ := @Draft.run_steady importer r.source h r.pending r.draft s s'
  rw [read, read]
  generalize r.draft.run importer r.source r.pending s = x,
    r.draft.run importer r.source r.pending s' = y at herror hdraft
  obtain ⟨e, draft, s₁⟩ := x
  obtain ⟨e', draft', s₁'⟩ := y
  cases herror
  cases hdraft
  cases e with
  | some e => rfl
  | none =>
    dsimp only
    split <;> rfl

theorem Reader.spaces_read (hsteady : importer.Steady) (h : importer.Registers closer) (r : Reader)
    (s : Session) :
    (r.read importer s).2.2.spaces =
      Mapping.extend s.spaces (Draft.closings importer closer r.source r.pending r.draft) := by
  rw [session_read]
  exact Draft.spaces_run hsteady h r.pending r.draft s

end Read

namespace FileTree

variable (t : FileTree)

theorem importer_steady (chain : List Path) : (t.importer chain).Steady := by
  induction chain using t.chain_induction with
  | h chain ih =>
    intro target place s s'
    rw [importer_eq, importer_eq]
    cases t.findTarget (Path.ofText place.source.name) target with
    | error obstacle => rfl
    | ok l =>
      dsimp only
      split
      · rfl
      next hnew =>
        cases hread : t.read l with
        | error failure => rfl
        | ok content =>
          let started := Record.importStarted (Path.ofLocation l).text
          have hread := Reader.read_steady (ih l content hread (by simpa using hnew))
            (.ofSource (sourceAt l content)) (s.note [started]) (s'.note [started])
          dsimp only
          generalize Reader.read _ _ (s.note _) = x, Reader.read _ _ (s'.note _) = y at hread
          obtain ⟨x, _, _⟩ := x
          obtain ⟨y, _, _⟩ := y
          cases hread
          cases x <;> rfl

def closer (chain : List Path) : Closer := fun target place =>
  match t.findTarget (Path.ofText place.source.name) target with
  | .error _ => []
  | .ok l =>
    if chain.any (·.isAt l) then []
    else
      match _hread : t.read l with
      | .error _ => []
      | .ok content =>
        Draft.closings (t.importer (chain ++ [Path.ofLocation l]))
          (closer (chain ++ [Path.ofLocation l])) (sourceAt l content) (sourceAt l content).lines
          .empty
termination_by t.unopened chain
decreasing_by exact unopened_append_lt (mem_entries_of_read _hread) (by assumption)

def closings (source : Source) : List (String × Value) :=
  Draft.closings (t.importer [t.canonical source.name]) (t.closer [t.canonical source.name]) source
    source.lines .empty

variable {t}

theorem closer_eq (chain : List Path) (target : String) (place : Place) :
    t.closer chain target place =
      match t.findTarget (Path.ofText place.source.name) target with
      | .error _ => []
      | .ok l =>
        if chain.any (·.isAt l) then []
        else
          match t.read l with
          | .error _ => []
          | .ok content =>
            Draft.closings (t.importer (chain ++ [Path.ofLocation l]))
              (t.closer (chain ++ [Path.ofLocation l])) (sourceAt l content)
              (sourceAt l content).lines .empty := by
  rw [closer]
  cases t.findTarget (Path.ofText place.source.name) target with
  | error obstacle => rfl
  | ok l =>
    refine ite_congr rfl (fun _ => rfl) fun _ => ?_
    split
    next hread => rw [hread]
    next hread => rw [hread]

theorem registers_closer (chain : List Path) : (t.importer chain).Registers (t.closer chain) := by
  induction chain using t.chain_induction with
  | h chain ih =>
    intro target place s
    rw [importer_eq, closer_eq]
    cases t.findTarget (Path.ofText place.source.name) target with
    | error obstacle => rfl
    | ok l =>
      dsimp only
      split
      · rfl
      next hnew =>
        cases hread : t.read l with
        | error failure => rfl
        | ok content =>
          have hspaces := Reader.spaces_read (t.importer_steady (chain ++ [Path.ofLocation l]))
            (ih l content hread (by simpa using hnew)) (.ofSource (sourceAt l content))
            (s.note [.importStarted (Path.ofLocation l).text])
          dsimp only [Session.spaces_note, Reader.ofSource] at hspaces ⊢
          generalize Reader.read _ _ _ = x at hspaces ⊢
          obtain ⟨_ | _, _, _⟩ := x <;> exact hspaces

theorem readSource_steady (source : Source) (s s' : Session) :
    (t.readSource source s).1 = (t.readSource source s').1 :=
  Reader.read_steady (t.importer_steady _) (.ofSource source) s s'

theorem spaces_readSource (source : Source) (s : Session) :
    (t.readSource source s).2.spaces = Mapping.extend s.spaces (t.closings source) :=
  Reader.spaces_read (t.importer_steady _) (registers_closer _) (.ofSource source) s

theorem spaces_readDocument (text fileName : String) :
    (t.readDocument text fileName).2.spaces =
      Mapping.ofList (t.closings ⟨t.absolute fileName, text⟩) := by
  have hspaces := spaces_readSource (t := t) ⟨t.absolute fileName, text⟩ .empty
  rw [readDocument]
  generalize t.readSource ⟨t.absolute fileName, text⟩ .empty = x at hspaces
  obtain ⟨_ | _, _⟩ := x <;> exact hspaces

end FileTree

end Loon
