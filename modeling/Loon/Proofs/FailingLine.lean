import Loon.Proofs.Reading.InPlace

namespace Loon

namespace Reader

variable {importer : Importer} {source : Source} {d : Draft} {s s' : Session} {lines : List Line}

theorem read_of_run {r : Reader} (h : r.draft.run importer r.source r.pending s = (none, d, s')) :
    (r.read importer s).1 = d.finish := by
  rw [read, h]
  dsimp only
  cases d.finish <;> rfl

end Reader

namespace Reading

variable {t : FileTree} {deeper : Importing} {depth : Nat} {source : Source} {line : Line}
variable {desk desk' : Desk} {e : Error}

theorem step_eq_error (hdepth : t.unopened desk.chain < depth) :
    step (t.importing deeper depth) source line desk = .error e desk' ↔
      desk.draft.step (t.importer desk.chain) source desk.session line = (.error e, desk'.session) ∧
        desk'.draft = desk.draft ∧ desk'.chain = desk.chain := by
  rw [step_run desk (FileTree.importing_answers deeper hdepth)]
  obtain ⟨draft', chain', session'⟩ := desk'
  rcases desk.draft.step (t.importer desk.chain) source desk.session line with ⟨e' | d, s⟩
  · constructor
    · rintro ⟨⟩
      exact ⟨rfl, rfl, rfl⟩
    · rintro ⟨⟨⟩, ⟨⟩, ⟨⟩⟩
      rfl
  · constructor
    · exact nofun
    · exact fun h => nomatch h.1

end Reading

namespace FileTree

/-- A line that fails, be it in an import of an import, changes neither the draft nor the chain of
files. So a reader that stopped at a line, told to read again, speaks of what the lines before it left
open, or else gives the document that these lines make by themselves. -/
theorem failing_line_unchanged (t : FileTree) :
    (∀ (deeper : Reading.Importing) (depth : Nat) (source : Source) (line : Line) (desk desk' : Desk)
        (e : Error), t.unopened desk.chain < depth →
      Reading.step (t.importing deeper depth) source line desk = .error e desk' →
      desk'.draft = desk.draft ∧ desk'.chain = desk.chain ∧
        desk.draft.step (t.importer desk.chain) source desk.session line = (.error e, desk'.session)) ∧
    ∀ (chain : List Path) (source : Source) (before : List Line) (line : Line) (after : List Line)
        (d : Draft) (s s₁ s₂ : Session) (e : Error),
      source.lines = before ++ line :: after →
      Draft.empty.run (t.importer chain) source before s = (none, d, s₁) →
      d.step (t.importer chain) source s₁ line = (.error e, s₂) →
      ∃ r, (Reader.ofSource source).read (t.importer chain) s = (.error e, r, s₂) ∧
        ∀ (importer : Importer) (s₃ : Session),
          let again := (r.read importer s₃).1
          (∀ label space, d.current = some label → label.space = some space →
            again = .error ⟨.unclosedSpace space.name, some space.openedAt⟩) ∧
          (∀ label, d.current = some label → label.space = none →
            again = .error ⟨.unclosedLabel label.name, some label.openedAt⟩) ∧
          (d.current = none → again = .ok d.document) ∧
          again = (Reader.read (t.importer chain) ⟨source, before, .empty⟩ s).1 := by
  refine ⟨fun deeper depth source line desk desk' e hdepth h => ?_, ?_⟩
  · obtain ⟨hstep, hdraft, hchain⟩ := (Reading.step_eq_error hdepth).1 h
    exact ⟨hdraft, hchain, hstep⟩
  · intro chain source before line after d s s₁ s₂ e hlines hbefore hline
    have hrun := Draft.run_eq_some.2 ⟨before, line, after, s₁, hlines, hbefore, hline⟩
    refine ⟨⟨source, [], d⟩, ?_, fun importer s₃ => ?_⟩
    · rw [Reader.read, Reader.ofSource, hrun]
    · have hagain : (Reader.read importer ⟨source, [], d⟩ s₃).1 = d.finish := Reader.read_of_run rfl
      have halone : (Reader.read (t.importer chain) ⟨source, before, .empty⟩ s).1 = d.finish :=
        Reader.read_of_run hbefore
      refine ⟨fun label space hlabel hspace => ?_, fun label hlabel hspace => ?_, fun hnone => ?_,
        hagain.trans halone.symm⟩ <;> rw [hagain, Draft.finish]
      · rw [hlabel]
        dsimp only
        rw [hspace]
      · rw [hlabel]
        dsimp only
        rw [hspace]
      · rw [hnone]

theorem failing_line_unchanged_nested :
    let t : FileTree :=
      ⟨[], [(["a.loon"], .text "@b.loon\n"), (["b.loon"], .text "(x)\nend\n@c.loon\n")]⟩
    let source : Source := ⟨"/main.loon", "(l)\nk = v\n:s\ni\n@a.loon\nend:\n"⟩
    let chain := [t.canonical source.name]
    let deeper : Reading.Importing := fun _ _ => pure .empty
    ∃ before line after d s₁ s₂ e r openedAt,
      source.lines = before ++ line :: after ∧ line.statement = .importFile "a.loon" ∧
      Draft.empty.run (t.importer chain) source before .empty = (none, d, s₁) ∧
      d.step (t.importer chain) source s₁ line = (.error e, s₂) ∧
      e.fault = .invalidTarget "c.loon" .missing ∧
      (∃ desk, Reading.step (t.importing deeper 3) source line ⟨d, chain, s₁⟩ = .error e desk ∧
        desk.draft = d ∧ desk.chain = chain) ∧
      (Reader.ofSource source).read (t.importer chain) .empty = (.error e, r, s₂) ∧
      (r.read (t.importer chain) s₂).1 = .error ⟨.unclosedSpace "s", openedAt⟩ := by
  intro t source chain deeper
  let line : Line := ⟨.importFile "a.loon", "@a.loon", 5, 15⟩
  let before := source.lines.take 4
  have hlines : source.lines = before ++ line :: source.lines.drop 5 := by decide +kernel
  obtain ⟨ran, hbefore⟩ : ∃ ran, Draft.empty.run (t.importer chain) source before .empty = ran :=
    ⟨_, rfl⟩
  obtain ⟨failed, hline⟩ : ∃ failed, ran.2.1.step (t.importer chain) source ran.2.2 line = failed :=
    ⟨_, rfl⟩
  have hran : ran.1 = none := by
    rw [← hbefore]
    decide +kernel
  have hspace : (ran.2.1.current.bind OpenLabel.space).map OpenSpace.name = some "s" := by
    rw [← hbefore]
    decide +kernel
  have hfault : (match failed.1 with | .error e => some e.fault | .ok _ => none) =
      some (.invalidTarget "c.loon" .missing) := by
    rw [← hline, ← hbefore]
    decide +kernel
  obtain ⟨_, d, s₁⟩ := ran
  cases hran
  obtain ⟨space, hopen, hname⟩ := Option.map_eq_some_iff.1 hspace
  obtain ⟨label, hlabel, hopen⟩ := Option.bind_eq_some_iff.1 hopen
  rcases failed with ⟨e | d', s₂⟩
  · obtain ⟨r, hread, hagain⟩ := (failing_line_unchanged t).2 chain source before line _ d .empty s₁ s₂
      e hlines hbefore hline
    let desk : Desk := ⟨d, chain, s₁⟩
    have hdepth : t.unopened desk.chain < 3 := by
      change t.unopened chain < 3
      decide +kernel
    have hplace : Reading.step (t.importing deeper 3) source line desk = .error e ⟨d, chain, s₂⟩ :=
      (Reading.step_eq_error hdepth).2 ⟨hline, rfl, rfl⟩
    obtain ⟨hdraft, hchain, _⟩ :=
      (failing_line_unchanged t).1 deeper 3 source line desk _ e hdepth hplace
    refine ⟨before, line, _, d, s₁, s₂, e, r, some space.openedAt, hlines, rfl, hbefore, hline,
      Option.some.inj hfault, ⟨_, hplace, hdraft, hchain⟩, hread, ?_⟩
    rw [(hagain (t.importer chain) s₂).1 label space hlabel hopen, hname]
  · cases hfault

end FileTree

end Loon
