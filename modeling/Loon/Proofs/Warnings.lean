import Loon.Proofs.Reading.Bindings
import Loon.Proofs.Reading.Closings

namespace Loon

def Record.replaced? : Record → Option String
  | .labelRedefined name => some name
  | .labelOverwritten _ name => some name
  | _ => none

def Statement.tell : Statement → String → Record
  | .importFile target => .labelOverwritten target
  | _ => .labelRedefined

@[simp] theorem Statement.replaced?_tell (statement : Statement) (name : String) :
    (statement.tell name).replaced? = some name := by
  cases statement <;> rfl

namespace Session

def warnings (s : Session) : List Record := s.log.filter fun record => record.level = .warn

theorem warnings_note (s : Session) (records : List Record) :
    (s.note records).warnings = s.warnings ++ records.filter fun record => record.level = .warn :=
  List.filter_append ..

theorem warnings_note_debug {s : Session} {r : Record} (h : r.level = .debug) :
    (s.note [r]).warnings = s.warnings := by
  simp [warnings_note, h]

@[simp] theorem warnings_register (s : Session) (name : String) (v : Value) :
    (s.register name v).warnings = s.warnings := rfl

end Session

namespace Binding

def announced : Binding → List String
  | label own _ _ => [own]
  | adopted other => Mapping.keys other.labels
  | enclosed _ => []

/-- The step never tells of the name: an import brings it for a hidden label only, or is inside a label. -/
def Silent : Binding → String → Prop
  | label .., _ => False
  | adopted other, name => name ∉ Mapping.keys other.labels
  | enclosed _, _ => True

instance : (b : Binding) → (name : String) → Decidable (b.Silent name)
  | label .., _ => inferInstanceAs (Decidable False)
  | adopted _, _ => inferInstanceAs (Decidable (¬_))
  | enclosed _, _ => inferInstanceAs (Decidable True)

theorem mem_announced {b : Binding} {name : String} :
    name ∈ b.announced ↔ (b.value? name).isSome = true ∧ ¬b.Silent name := by
  cases b with
  | label own hidden body =>
    rw [announced, value?, List.mem_singleton, eq_comm]
    by_cases hname : own = name <;> simp [Silent, hname]
  | adopted other =>
    rw [announced, value?, Silent, not_not, Document.find?, Mapping.mem_keys_iff]
    cases Mapping.get? other.hidden name <;> simp
  | enclosed other => simp [announced, Silent]

theorem nodup_announced {b : Binding} (h : ∀ other ∈ b.imports, other.Distinct) : b.announced.Nodup := by
  cases b with
  | label own hidden body => exact List.nodup_singleton own
  | adopted other => exact (h other (List.mem_singleton_self _)).labels
  | enclosed other => exact List.nodup_nil

end Binding

structure Change where
  statement : Statement
  before : Document
  binding : Binding

namespace Change

def warnings (c : Change) : List Record :=
  (c.binding.announced.filter c.before.defines).map c.statement.tell

variable {c : Change}

theorem countP_warnings (h : ∀ other ∈ c.binding.imports, other.Distinct) (name : String) :
    c.warnings.countP (fun record => record.replaced? = some name) =
      if (c.binding.value? name).isSome = true ∧ c.before.defines name = true ∧ ¬c.binding.Silent name
      then 1 else 0 := by
  have hnodup : (c.binding.announced.filter c.before.defines).Nodup :=
    (Binding.nodup_announced h).filter _
  have hmem : name ∈ c.binding.announced.filter c.before.defines ↔
      (c.binding.value? name).isSome = true ∧ c.before.defines name = true ∧ ¬c.binding.Silent name := by
    rw [List.mem_filter, Binding.mem_announced]
    tauto
  calc c.warnings.countP (fun record => record.replaced? = some name)
      = (c.binding.announced.filter c.before.defines).count name := by
        simp only [warnings, List.countP_map, Function.comp_def, Statement.replaced?_tell,
          Option.some.injEq, List.count, beq_eq_decide]
    _ = _ := by rw [hnodup.count, if_congr hmem rfl rfl]

theorem warnings_eq_nil
    (h : ∀ name, (c.binding.value? name).isSome = true → c.before.defines name = false) :
    c.warnings = [] := by
  rw [warnings, List.map_eq_nil_iff, List.filter_eq_nil_iff]
  intro name hname
  simp [h name (Binding.mem_announced.1 hname).1]

end Change

namespace Document

variable {d : Document}

theorem defines_adoptLabel {own name : String} (h : own ≠ name) (v : Value) :
    (d.adoptLabel own v).defines name = d.defines name := by
  have hlabels : Mapping.get? (d.adoptLabel own v).labels name = Mapping.get? d.labels name := by
    rw [adoptLabel, Mapping.get?_insert, if_neg h]
  have hhidden : Mapping.get? (d.adoptLabel own v).hidden name = Mapping.get? d.hidden name := by
    rw [adoptLabel]
    split
    · rfl
    · rw [Mapping.get?_erase, if_neg h]
  simp only [defines, Mapping.contains, hlabels, hhidden]

theorem overwritten_eq {labels : Mapping Value} (h : Mapping.Distinct labels) :
    d.overwritten labels = (Mapping.keys labels).filter d.defines := by
  induction labels generalizing d with
  | nil => rfl
  | cons entry labels ih =>
    obtain ⟨own, v⟩ := entry
    obtain ⟨hown, hrest⟩ := h.of_cons
    -- The first label takes no other name, and its own does not come again.
    have hsame : (Mapping.keys labels).filter (d.adoptLabel own v).defines =
        (Mapping.keys labels).filter d.defines := by
      apply List.filter_congr
      intro name hname
      apply defines_adoptLabel
      rintro rfl
      exact hown hname
    rw [overwritten, ih hrest, hsame, Mapping.keys_cons, List.filter_cons]

end Document

abbrev Teller := String → Place → List Change

structure Importer.Warns (importer : Importer) (teller : Teller) : Prop where
  steady : importer.Steady
  distinct : ∀ target place s other, (importer target place s).1 = .ok other → other.Distinct
  imports : ∀ target place, ∀ c ∈ teller target place, ∀ other ∈ c.binding.imports, other.Distinct
  warnings : ∀ target place s, (importer target place s).2.warnings =
    s.warnings ++ (teller target place).flatMap Change.warnings

namespace Draft

variable (importer : Importer) (teller : Teller) (source : Source)

def change? (d : Draft) (line : Line) : Option Change :=
  (d.binding? importer source .empty line).map fun binding => ⟨line.statement, d.document, binding⟩

def changesWithin (line : Line) : List Change :=
  match line.statement with
  | .importFile target => teller target ⟨source, line.span⟩
  | _ => []

def changes : List Line → Draft → List Change
  | [], _ => []
  | line :: rest, d =>
    changesWithin teller source line ++
      match (d.step importer source .empty line).1 with
      | .ok d' => (d.change? importer source line).toList ++ changes rest d'
      | .error _ => []

variable {importer teller source} {d d' : Draft} {s s' : Session} {line : Line} {e : Error}

theorem warnings_step_error (h : importer.Warns teller)
    (hstep : d.step importer source s line = (.error e, s')) :
    s'.warnings = s.warnings ++ (changesWithin teller source line).flatMap Change.warnings := by
  rw [step] at hstep
  rw [changesWithin]
  cases hstatement : line.statement with
  | importFile target =>
    have himport := h.warnings target ⟨source, line.span⟩ s
    simp only [hstatement] at hstep
    split at hstep
    · cases hstep
    next hfail =>
      cases hstep
      rwa [hfail] at himport
  | closeSpace | closeLabel =>
    simp only [hstatement] at hstep
    split at hstep
    · cases hstep
    · cases hstep
      exact (List.append_nil _).symm
  | _ =>
    simp only [hstatement, Prod.mk.injEq] at hstep
    obtain ⟨-, rfl⟩ := hstep
    exact (List.append_nil _).symm

theorem warnings_closingRecords (d : Document) (label : OpenLabel) (body : Mapping Value) :
    (closingRecords d label body).filter (fun record => record.level = .warn) =
      ([label.name].filter d.defines).map .labelRedefined := by
  cases hdefines : d.defines label.name <;> simp [closingRecords, Record.level, hdefines]

theorem warnings_takeIn {other : Document} (h : other.Distinct) (d : Draft) (target : String) :
    (d.takeIn target other).2.filter (fun record => record.level = .warn) =
      ((if d.current.isNone then Binding.adopted other else .enclosed other).announced.filter
        d.document.defines).map (.labelOverwritten target) := by
  rw [takeIn]
  cases d.current with
  | none =>
    dsimp only
    rw [Document.overwritten_eq h.labels]
    apply List.filter_eq_self.2
    intro record hrecord
    obtain ⟨name, -, rfl⟩ := List.mem_map.1 hrecord
    rfl
  | some label => rfl

theorem warnings_step_ok (h : importer.Warns teller)
    (hstep : d.step importer source s line = (.ok d', s')) :
    s'.warnings = s.warnings ++ (changesWithin teller source line).flatMap Change.warnings ++
      (d.change? importer source line).toList.flatMap Change.warnings := by
  cases step_eq_ok.1 hstep with
  | openLabel hstatement | openSpace hstatement =>
    simp [changesWithin, change?, binding?, hstatement]
  | closeSpace hstatement =>
    rw [Session.spaceClosed, Session.warnings_register, Session.warnings_note_debug rfl]
    simp [changesWithin, change?, binding?, hstatement]
  | closeLabel hstatement hlabel =>
    rw [Session.warnings_note, warnings_closingRecords]
    simp [changesWithin, change?, binding?, hstatement, hlabel, Change.warnings, Binding.announced,
      Statement.tell]
  | @imports target other s₁ hstatement himport =>
    have hwithin := h.warnings target ⟨source, line.span⟩ s
    have hother : (importer target ⟨source, line.span⟩ .empty).1 = .ok other := by
      rw [h.steady target _ .empty s, himport]
    rw [himport] at hwithin
    rw [Session.warnings_note, hwithin, warnings_takeIn (h.distinct _ _ _ _ hother)]
    simp [changesWithin, change?, binding?, hstatement, hother, Change.warnings, Statement.tell]
  | writes hwrites =>
    generalize hstatement : line.statement = statement at hwrites
    cases hwrites <;> simp [changesWithin, change?, binding?, hstatement]

theorem warnings_run (h : importer.Warns teller) (lines : List Line) (d : Draft) (s : Session) :
    (d.run importer source lines s).2.2.warnings =
      s.warnings ++ (changes importer teller source lines d).flatMap Change.warnings := by
  induction lines generalizing d s with
  | nil => exact (List.append_nil _).symm
  | cons line lines ih =>
    -- The changes are those of a run in the empty session; a line does the same in every session.
    have hresult : (d.step importer source .empty line).1 = (d.step importer source s line).1 :=
      step_steady h.steady d .empty s line
    rw [run, changes, hresult]
    rcases hstep : d.step importer source s line with ⟨e | d₁, s₁⟩
    · simp [warnings_step_error h hstep]
    · simp [ih, warnings_step_ok h hstep]

theorem distinct_of_mem_changes (h : importer.Warns teller) (lines : List Line) (d : Draft) :
    ∀ c ∈ changes importer teller source lines d, ∀ other ∈ c.binding.imports, other.Distinct := by
  induction lines generalizing d with
  | nil => exact nofun
  | cons line lines ih =>
    intro c hc
    rw [changes, List.mem_append] at hc
    rcases hc with hc | hc
    · rw [changesWithin] at hc
      split at hc
      · exact h.imports _ _ c hc
      · cases hc
    · split at hc
      next d' _ =>
        rcases List.mem_append.1 hc with hc | hc
        · obtain ⟨b, hb, rfl⟩ := Option.map_eq_some_iff.1 (Option.mem_toList.1 hc)
          exact forall_imports_binding? h.distinct d .empty line b hb
        · exact ih d' c hc
      · cases hc

end Draft

namespace FileTree

variable (t : FileTree)

def teller (chain : List Path) : Teller := fun target place =>
  match t.findTarget (Path.ofText place.source.name) target with
  | .error _ => []
  | .ok l =>
    if chain.any (·.isAt l) then []
    else
      match _hread : t.read l with
      | .error _ => []
      | .ok content =>
        Draft.changes (t.importer (chain ++ [Path.ofLocation l]))
          (teller (chain ++ [Path.ofLocation l])) (sourceAt l content) (sourceAt l content).lines
          .empty
termination_by t.unopened chain
decreasing_by exact unopened_append_lt (mem_entries_of_read _hread) (by assumption)

def changes (chain : List Path) (r : Reader) : List Change :=
  Draft.changes (t.importer chain) (t.teller chain) r.source r.pending r.draft

variable {t}

theorem teller_eq (chain : List Path) (target : String) (place : Place) :
    t.teller chain target place =
      match t.findTarget (Path.ofText place.source.name) target with
      | .error _ => []
      | .ok l =>
        if chain.any (·.isAt l) then []
        else
          match t.read l with
          | .error _ => []
          | .ok content =>
            t.changes (chain ++ [Path.ofLocation l]) (.ofSource (sourceAt l content)) := by
  rw [teller]
  cases t.findTarget (Path.ofText place.source.name) target with
  | error obstacle => rfl
  | ok l =>
    refine ite_congr rfl (fun _ => rfl) fun _ => ?_
    split
    next hread => rw [hread]
    next hread =>
      rw [hread]
      rfl

section Warns

variable {chain : List Path}

theorem warnings_read (h : (t.importer chain).Warns (t.teller chain)) (r : Reader) (s : Session) :
    (r.read (t.importer chain) s).2.2.warnings =
      s.warnings ++ (t.changes chain r).flatMap Change.warnings := by
  rw [Reader.session_read]
  exact Draft.warnings_run h r.pending r.draft s

variable (h : ∀ l content, t.read l = .ok content → chain.any (·.isAt l) = false →
  (t.importer (chain ++ [Path.ofLocation l])).Warns (t.teller (chain ++ [Path.ofLocation l])))

include h

theorem warnings_importer (target : String) (place : Place) (s : Session) :
    (t.importer chain target place s).2.warnings =
      s.warnings ++ (t.teller chain target place).flatMap Change.warnings := by
  rw [importer_eq, teller_eq]
  cases t.findTarget (Path.ofText place.source.name) target with
  | error obstacle => exact (List.append_nil _).symm
  | ok l =>
    dsimp only
    split
    · exact (List.append_nil _).symm
    next hnew =>
      cases hread : t.read l with
      | error failure => exact (List.append_nil _).symm
      | ok content =>
        have hwarnings := warnings_read (h l content hread (by simpa using hnew))
          (.ofSource (sourceAt l content)) (s.note [.importStarted (Path.ofLocation l).text])
        rw [Session.warnings_note_debug rfl] at hwarnings
        dsimp only
        generalize Reader.read _ _ _ = x at hwarnings ⊢
        obtain ⟨_ | other, _, s₁⟩ := x
        · exact hwarnings
        · dsimp only
          rw [Session.warnings_note_debug rfl, hwarnings]

theorem distinct_of_mem_teller (target : String) (place : Place) :
    ∀ c ∈ t.teller chain target place, ∀ other ∈ c.binding.imports, other.Distinct := by
  intro c hc
  rw [teller_eq] at hc
  split at hc
  · cases hc
  next l _ =>
    split at hc
    · cases hc
    next hnew =>
      split at hc
      · cases hc
      next content hread =>
        exact Draft.distinct_of_mem_changes (h l content hread (by simpa using hnew)) _ _ c hc

end Warns

theorem warns_teller (chain : List Path) : (t.importer chain).Warns (t.teller chain) := by
  induction chain using t.chain_induction with
  | h chain ih =>
    exact ⟨t.importer_steady chain, fun _ _ _ _ => t.importer_distinct chain,
      distinct_of_mem_teller ih, warnings_importer ih⟩

/-- All that a reading warns of, whether it goes well or not. A change warns once of each taken name that
it binds, by closing a label or by taking in a visible label outside labels. It never warns of a name that
an import binds to a hidden label only or inside a label, nor of any name if all that it binds are new. -/
theorem warnings_of_changes (t : FileTree) (chain : List Path) (r : Reader) (s : Session) :
    (r.read (t.importer chain) s).2.2.warnings =
        s.warnings ++ (t.changes chain r).flatMap Change.warnings ∧
      ∀ c ∈ t.changes chain r,
        (∀ name, c.warnings.countP (fun record => record.replaced? = some name) =
          if (c.binding.value? name).isSome = true ∧ c.before.defines name = true ∧ ¬c.binding.Silent name
          then 1 else 0) ∧
        ((∀ name, (c.binding.value? name).isSome = true → c.before.defines name = false) →
          c.warnings = []) := by
  refine ⟨warnings_read (warns_teller chain) r s, fun c hc => ⟨?_, Change.warnings_eq_nil⟩⟩
  apply Change.countP_warnings
  exact Draft.distinct_of_mem_changes (warns_teller chain) _ _ c hc

theorem warnings_of_changes_redefined :
    let t : FileTree := ⟨[], [(["v.loon"], .text "(n)\nend\n(m)\nend\n")]⟩
    let r := Reader.ofSource ⟨"/main.loon", "(n)\nend\n%(n)\nend\n@v.loon\n"⟩
    (r.read (t.importer []) .empty).2.2.warnings =
        [.labelRedefined "n", .labelOverwritten "v.loon" "n"] ∧
      (∃ c ∈ t.changes [] r, c.warnings.countP (fun record => record.replaced? = some "n") = 1) ∧
      ∃ c ∈ t.changes [] r,
        (∀ name, (c.binding.value? name).isSome = true → c.before.defines name = false) ∧
          c.warnings = [] := by
  intro t r
  obtain ⟨hlog, hchanges⟩ := warnings_of_changes t [] r .empty
  have hwarnings : (t.changes [] r).flatMap Change.warnings =
      [.labelRedefined "n", .labelOverwritten "v.loon" "n"] := by decide +kernel
  have htaken : ∃ c ∈ t.changes [] r, (c.binding.value? "n").isSome = true ∧
      c.before.defines "n" = true ∧ ¬c.binding.Silent "n" := by decide +kernel
  have hfirst : ∃ c ∈ t.changes [] r,
      c.before.labels.isEmpty = true ∧ c.before.hidden.isEmpty = true := by decide +kernel
  refine ⟨by rw [hlog, hwarnings]; rfl, ?_, ?_⟩
  · obtain ⟨c, hc, hname⟩ := htaken
    exact ⟨c, hc, by rw [(hchanges c hc).1, if_pos hname]⟩
  · obtain ⟨c, hc, hlabels, hhidden⟩ := hfirst
    have hnew : ∀ name, (c.binding.value? name).isSome = true → c.before.defines name = false := by
      intro name _
      rw [Document.defines, List.isEmpty_iff.1 hlabels, List.isEmpty_iff.1 hhidden]
      rfl
    exact ⟨c, hc, hnew, (hchanges c hc).2 hnew⟩

/-- An import takes over a name from a hidden label of the document and brings a hidden label for it, and
another one takes over a name inside a label. Neither is told of. -/
theorem replaced_in_silence :
    let t : FileTree := ⟨[], [(["h.loon"], .text "%(n)\nk = b\nend\n")]⟩
    let takesOver (r : Reader) := ∃ c ∈ t.changes [] r,
      (c.binding.value? "n").isSome = true ∧ c.before.defines "n" = true
    let outside := Reader.ofSource ⟨"/main.loon", "%(n)\nk = a\nend\n@h.loon\n"⟩
    let inside := Reader.ofSource ⟨"/main.loon", "%(n)\nk = a\nend\n(app)\n@h.loon\nend\n"⟩
    ∀ r ∈ [outside, inside], takesOver r ∧ (r.read (t.importer []) .empty).2.2.warnings = [] := by
  dsimp only
  decide +kernel

end FileTree

end Loon
