import Loon.Proofs.Reading.Alike

namespace Loon

structure Importer.EndAlike (x y : Except Error Document × Session) : Prop where
  result : Outcome Error.Alike Document.Alike x.1 y.1
  spaces : Mapping.Alike x.2.spaces y.2.spaces

namespace Draft

structure EndAlike (x y : Option Error × Draft × Session) : Prop where
  error : Option.Rel Error.Alike x.1 y.1
  draft : x.2.1.Alike y.2.1
  spaces : Mapping.Alike x.2.2.spaces y.2.2.spaces

variable {d d' : Draft} {importer importer' : Importer} {source source' : Source}
variable {line line' : Line} {lines lines' more more' : List Line} {s s' : Session}

theorem alike_spaces_step
    (himport : ∀ target, line.statement = .importFile target →
      Mapping.Alike (importer target ⟨source, line.span⟩ s).2.spaces
        (importer' target ⟨source', line'.span⟩ s').2.spaces)
    (hd : d.Alike d') (hline : line.Alike line') (hs : Mapping.Alike s.spaces s'.spaces) :
    Mapping.Alike (d.step importer source s line).2.spaces
      (d'.step importer' source' s' line').2.spaces := by
  rw [Draft.step, Draft.step, ← hline.statement]
  cases hstatement : line.statement with
  | closeSpace =>
    have hend : Outcome Error.Alike _ (d.endSpace ⟨⟨source, line.span⟩, line.text⟩)
        (d'.endSpace ⟨⟨source', line'.span⟩, line'.text⟩) := hd.endSpace
    dsimp only
    generalize d.endSpace _ = x, d'.endSpace _ = y at hend ⊢
    cases hend with
    | error _ => exact hs
    | @ok x y h =>
      obtain ⟨_, hname, hv⟩ := h
      dsimp only [Session.spaceClosed, Session.register, Session.spaces_note]
      rw [← hname]
      exact hs.insert x.2.1 hv
  | closeLabel =>
    dsimp only
    split <;> split <;> exact hs
  | importFile target =>
    have hspaces := himport target hstatement
    dsimp only
    generalize importer target ⟨source, line.span⟩ s = x,
      importer' target ⟨source', line'.span⟩ s' = y at hspaces ⊢
    obtain ⟨_ | _, _⟩ := x <;> obtain ⟨_ | _, _⟩ := y <;> exact hspaces
  | _ => exact hs

def ImportsEndAlike (importer importer' : Importer) (source source' : Source) (lines : List Line) :
    Prop :=
  ∀ line ∈ lines, ∀ target, line.statement = .importFile target → ∀ span span' s s',
    Mapping.Alike s.spaces s'.spaces →
    Importer.EndAlike (importer target ⟨source, span⟩ s) (importer' target ⟨source', span'⟩ s')

theorem importsEndAlike_of_noImports
    (hlines : ∀ line ∈ lines, ∀ target, line.statement ≠ .importFile target) :
    ImportsEndAlike importer importer' source source' lines :=
  fun line hline target hstatement => absurd hstatement (hlines line hline target)

theorem Alike.run_endAlike (himports : ImportsEndAlike importer importer' source source' lines)
    (hd : d.Alike d') (hlines : List.Forall₂ Line.Alike lines lines')
    (hs : Mapping.Alike s.spaces s'.spaces) :
    EndAlike (d.run importer source lines s) (d'.run importer' source' lines' s') := by
  induction hlines generalizing d d' s s' with
  | nil => exact ⟨.none, hd, hs⟩
  | @cons line line' lines lines' hline _ ih =>
    rw [ImportsEndAlike, List.forall_mem_cons] at himports
    have hend := fun target (h : line.statement = .importFile target) =>
      himports.1 target h line.span line'.span _ _ hs
    have hstep := hd.step (fun target h => (hend target h).result) hline
    have hspaces := alike_spaces_step (fun target h => (hend target h).spaces) hd hline hs
    rw [Draft.run, Draft.run]
    generalize d.step importer source s line = x, d'.step importer' source' s' line' = y
      at hstep hspaces ⊢
    obtain ⟨x, s₁⟩ := x
    obtain ⟨y, s₁'⟩ := y
    cases hstep with
    | ok hd => exact ih himports.2 hd hspaces
    | error he => exact ⟨.some he, hd, hspaces⟩

theorem run_append (lines more : List Line) (d : Draft) (s : Session) :
    d.run importer source (lines ++ more) s =
      match d.run importer source lines s with
      | (none, d, s) => d.run importer source more s
      | (some e, d, s) => (some e, d, s) := by
  induction lines generalizing d s with
  | nil => rfl
  | cons line lines ih =>
    rw [List.cons_append, run, run]
    split
    · exact ih _ _
    · rfl

theorem EndAlike.append
    (h : EndAlike (d.run importer source lines s) (d'.run importer' source' lines' s'))
    (hmore : ∀ {D s₁ D' s₁'}, d.run importer source lines s = (none, D, s₁) →
      d'.run importer' source' lines' s' = (none, D', s₁') → D.Alike D' →
      Mapping.Alike s₁.spaces s₁'.spaces →
      EndAlike (D.run importer source more s₁) (D'.run importer' source' more' s₁')) :
    EndAlike (d.run importer source (lines ++ more) s)
      (d'.run importer' source' (lines' ++ more') s') := by
  rw [run_append, run_append]
  generalize d.run importer source lines s = x, d'.run importer' source' lines' s' = y at h hmore ⊢
  obtain ⟨e, D, s₁⟩ := x
  obtain ⟨e', D', s₁'⟩ := y
  obtain ⟨he, hD, hs⟩ := h
  cases he with
  | none => exact hmore rfl rfl hD hs
  | some he => exact ⟨.some he, hD, hs⟩

end Draft

variable {importer importer' : Importer} {source source' : Source} {s s' : Session}

theorem Reader.session_read (r : Reader) (s : Session) :
    (r.read importer s).2.2 = (r.draft.run importer r.source r.pending s).2.2 := by
  rw [read]
  split
  next hrun => rw [hrun]
  next hrun =>
    rw [hrun]
    split <;> rfl

theorem Reader.endAlike_read
    (h : Draft.EndAlike (Draft.run importer source source.lines .empty s)
      (Draft.run importer' source' source'.lines .empty s')) :
    Outcome Error.Alike Document.Alike ((ofSource source).read importer s).1
        ((ofSource source').read importer' s').1 ∧
      Mapping.Alike ((ofSource source).read importer s).2.2.spaces
        ((ofSource source').read importer' s').2.2.spaces := by
  rw [session_read, session_read]
  exact ⟨alike_read_of_run ⟨h.error, h.draft⟩, h.spaces⟩

namespace FileTree

variable {t : FileTree}

/-- A file is imported alike from wherever and whenever, and so is told of the spaces in it. -/
theorem endAlike_importer (chain : List Path) {target : String} {place place' : Place}
    (hname : place.source.name = place'.source.name) (hs : Mapping.Alike s.spaces s'.spaces) :
    Importer.EndAlike (t.importer chain target place s) (t.importer chain target place' s') := by
  refine ⟨t.alike_importer chain target place place' s s' hname, ?_⟩
  induction chain using t.chain_induction generalizing target place place' s s' with
  | h chain ih =>
    rw [importer_eq, importer_eq, hname]
    cases t.findTarget (Path.ofText place'.source.name) target with
    | error obstacle => exact hs
    | ok l =>
      dsimp only
      split
      · exact hs
      next hnew =>
        cases hread : t.read l with
        | error failure => exact hs
        | ok content =>
          have himports : Draft.ImportsEndAlike (t.importer (chain ++ [Path.ofLocation l]))
              (t.importer (chain ++ [Path.ofLocation l])) (sourceAt l content) (sourceAt l content)
              (sourceAt l content).lines := fun _ _ target _ span span' s s' hs =>
            ⟨t.alike_importer _ target _ _ s s' rfl,
              ih l content hread (by simpa using hnew) rfl hs⟩
          let started := Record.importStarted (Path.ofLocation l).text
          have hs : Mapping.Alike (s.note [started]).spaces (s'.note [started]).spaces := hs
          have hread := Reader.endAlike_read
            (Draft.alike_empty.run_endAlike himports (Line.forall₂_alike_refl _) hs)
          have hspaces := hread.2
          dsimp only at hspaces ⊢
          generalize Reader.read _ _ (s.note _) = x, Reader.read _ _ (s'.note _) = y at hspaces ⊢
          obtain ⟨_ | _, _, _⟩ := x <;> obtain ⟨_ | _, _, _⟩ := y <;> exact hspaces

theorem importsEndAlike (chain : List Path) (name text text' : String) (lines : List Line) :
    Draft.ImportsEndAlike (t.importer chain) (t.importer chain) ⟨name, text⟩ ⟨name, text'⟩ lines :=
  fun _ _ _ _ _ _ _ _ => endAlike_importer chain rfl

theorem endAlike_readDocument {text text' fileName : String}
    (h : Draft.EndAlike
      (Draft.run (t.importer [t.canonical (t.absolute fileName)]) ⟨t.absolute fileName, text⟩
        (Source.lines ⟨t.absolute fileName, text⟩) .empty .empty)
      (Draft.run (t.importer [t.canonical (t.absolute fileName)]) ⟨t.absolute fileName, text'⟩
        (Source.lines ⟨t.absolute fileName, text'⟩) .empty .empty)) :
    Importer.EndAlike (t.readDocument text fileName) (t.readDocument text' fileName) := by
  have hread := Reader.endAlike_read h
  rw [readDocument, readDocument, readSource, readSource]
  dsimp only
  generalize Reader.read _ (.ofSource ⟨_, text⟩) _ = x,
    Reader.read _ (.ofSource ⟨_, text'⟩) _ = y at hread ⊢
  obtain ⟨x, _, s₁⟩ := x
  obtain ⟨y, _, s₁'⟩ := y
  obtain ⟨hresult, hspaces⟩ := hread
  cases hresult with
  | ok hd => exact ⟨.ok hd, hspaces⟩
  | error he => exact ⟨.error he, hspaces⟩

end FileTree

end Loon
