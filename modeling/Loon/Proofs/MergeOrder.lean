import Loon.Analysis
import Loon.Proofs.Reading.Bindings
import Loon.Proofs.Reading.Body
import Loon.Proofs.Resolution.Collapse
import Loon.Proofs.Resolution.CycleGuard
import Loon.Proofs.Resolution.Transparency

namespace Loon

namespace Document

theorem get?_labels_apply {d : Document} {b : Binding} {name : String}
    (h : b.value? name = none) :
    Mapping.get? (b.apply d).labels name = Mapping.get? d.labels name := by
  cases b with
  | label own hidden body =>
    have hne : own ≠ name := fun heq => by simp [Binding.value?, heq] at h
    cases hidden with
    | false => exact (Mapping.get?_insert ..).trans (if_neg hne)
    | true => exact (Mapping.get?_erase ..).trans (if_neg hne)
  | adopted other =>
    have hnone : Mapping.get? other.labels name = none := by
      rw [Binding.value?, find?] at h
      cases hhidden : Mapping.get? other.hidden name <;> simp_all
    rw [Binding.apply, labels_adopt,
      Mapping.get?_extend_of_notMem (Mapping.get?_eq_none_iff.1 hnone)]
  | enclosed other => rfl

theorem get?_labels_applyAll {d : Document} {bs : List Binding} {name : String}
    (h : ∀ b ∈ bs, b.value? name = none) :
    Mapping.get? (bs.foldl Binding.apply d).labels name = Mapping.get? d.labels name := by
  induction bs generalizing d with
  | nil => rfl
  | cons b bs ih =>
    rw [List.forall_mem_cons] at h
    rw [List.foldl_cons, ih h.2, get?_labels_apply h.1]

end Document

namespace FileTree

/-- Of what a source says of a visible label, the last is what some lines write in its body, there or
in a file imported outside its labels. -/
inductive Writes (t : FileTree) : List Path → Source → Session → String → List BodyLine → Prop
  | block {chain source s name before opening body closing after d₁ s₁ d₂ s₂}
      (hlines : source.lines = before ++ opening :: (body ++ closing :: after))
      (hopening : opening.statement = .openLabel name false) (hbody : PlainBody body)
      (hclosing : closing.statement = .closeLabel)
      (hstart : Draft.run (t.importer chain) source (before ++ [opening]) .empty s = (none, d₁, s₁))
      (hend : d₁.run (t.importer chain) source (body ++ [closing]) s₁ = (none, d₂, s₂))
      (hafter : ∀ b ∈ d₂.bindings (t.importer chain) source after s₂, b.value? name = none) :
      Writes t chain source s name (d₁.bodyLines source (t.importer chain) body s₁)
  | imported {chain source s name before line after target l content lines d₁ s₁ d₂ s₂}
      (hlines : source.lines = before ++ line :: after)
      (hline : line.statement = .importFile target)
      (hstart : Draft.run (t.importer chain) source before .empty s = (none, ⟨d₁, none⟩, s₁))
      (hend : Draft.step (t.importer chain) source ⟨d₁, none⟩ s₁ line = (.ok d₂, s₂))
      (hafter : ∀ b ∈ d₂.bindings (t.importer chain) source after s₂, b.value? name = none)
      (htarget : t.findTarget (Path.ofText source.name) target = .ok l)
      (hcontent : t.read l = .ok content)
      (hwrites : Writes t (chain ++ [Path.ofLocation l]) ⟨(Path.ofLocation l).text, content⟩
        (s₁.note [.importStarted (Path.ofLocation l).text]) name lines) :
      Writes t chain source s name lines

variable {t : FileTree} {chain : List Path} {source : Source} {s : Session} {name : String}
variable {lines : List BodyLine}

theorem read_of_importer {target : String} {place : Place} {l : Location} {content : String}
    {other : Document} (h : (t.importer chain target place s).1 = .ok other)
    (htarget : t.findTarget (Path.ofText place.source.name) target = .ok l)
    (hcontent : t.read l = .ok content) :
    ((Reader.ofSource ⟨(Path.ofLocation l).text, content⟩).read
      (t.importer (chain ++ [Path.ofLocation l]))
      (s.note [.importStarted (Path.ofLocation l).text])).1 = .ok other := by
  rw [importer] at h
  split at h
  · cases h
  next l' htarget' =>
    cases htarget.symm.trans htarget'
    dsimp only at h
    split at h
    · cases h
    · split at h
      · cases h
      next content' hcontent' =>
        cases hcontent.symm.trans hcontent'
        split at h
        next hread =>
          cases h
          exact (Prod.ext_iff.1 hread).1
        · cases h

theorem body_of_block {before body : List Line} {opening closing : Line} {d₁ d₂ : Draft}
    {s₁ s₂ : Session} (hopening : opening.statement = .openLabel name false) (hbody : PlainBody body)
    (hclosing : closing.statement = .closeLabel)
    (hstart : Draft.run (t.importer chain) source (before ++ [opening]) .empty s = (none, d₁, s₁))
    (hend : d₁.run (t.importer chain) source (body ++ [closing]) s₁ = (none, d₂, s₂)) :
    Mapping.get? d₂.document.labels name = some (.mapping (Mapping.ofList
      ((d₁.bodyLines source (t.importer chain) body s₁).map BodyLine.entry))) := by
  obtain ⟨d₀, s₀, _, hopen⟩ := Draft.run_append_eq_none.1 hstart
  obtain ⟨_, _, hopen, hnil⟩ := Draft.run_cons_eq_none.1 hopen
  cases hnil
  obtain ⟨d₃, s₃, hrun, hclose⟩ := Draft.run_append_eq_none.1 hend
  obtain ⟨_, _, hclose, hnil⟩ := Draft.run_cons_eq_none.1 hclose
  cases hnil
  simp only [Draft.step, hopening] at hopen
  obtain ⟨_, _, hlabel⟩ := Draft.beginLabel_eq_ok.1 (Prod.ext_iff.1 hopen).1
  have hcurrent := congrArg Draft.current hlabel.symm
  obtain ⟨items, hitems, hfold⟩ := Draft.run_plainBody hbody hcurrent rfl hrun
  obtain ⟨label, hlabel, _, rfl⟩ := Draft.step_closeLabel hclosing hclose
  cases hitems.symm.trans hlabel
  rw [Mapping.ofList, ← hfold]
  exact Mapping.get?_insert_self _ _ _

theorem get?_labels_of_run {after : List Line} {d₂ : Draft} {s₂ s' : Session} {d : Document}
    (hafter : ∀ b ∈ d₂.bindings (t.importer chain) source after s₂, b.value? name = none)
    (h : d₂.run (t.importer chain) source after s₂ = (none, ⟨d, none⟩, s')) :
    Mapping.get? d.labels name = Mapping.get? d₂.document.labels name := by
  have hdocument := Draft.run_document (t.importer chain) source after d₂ s₂
  rw [h] at hdocument
  dsimp only at hdocument
  rw [hdocument, Document.get?_labels_applyAll hafter]

theorem get?_labels_of_lines {first second after : List Line} {d₁ d₂ : Draft} {s₁ s₂ : Session}
    {d : Document} (hlines : source.lines = first ++ (second ++ after))
    (hstart : Draft.run (t.importer chain) source first .empty s = (none, d₁, s₁))
    (hend : d₁.run (t.importer chain) source second s₁ = (none, d₂, s₂))
    (hafter : ∀ b ∈ d₂.bindings (t.importer chain) source after s₂, b.value? name = none)
    (hread : ((Reader.ofSource source).read (t.importer chain) s).1 = .ok d) :
    Mapping.get? d.labels name = Mapping.get? d₂.document.labels name := by
  obtain ⟨s', hrun⟩ := Reader.read_eq_ok.1 hread
  rw [hlines, Draft.run_append_eq_none] at hrun
  obtain ⟨_, _, hfirst, hrun⟩ := hrun
  cases hstart.symm.trans hfirst
  obtain ⟨_, _, hsecond, hrun⟩ := Draft.run_append_eq_none.1 hrun
  cases hend.symm.trans hsecond
  exact get?_labels_of_run hafter hrun

theorem get?_labels_of_import {before after : List Line} {line : Line} {target content : String}
    {l : Location} {d₁ d : Document} {d₂ : Draft} {s₁ s₂ : Session} {v : Value}
    (hlines : source.lines = before ++ line :: after) (hline : line.statement = .importFile target)
    (hstart : Draft.run (t.importer chain) source before .empty s = (none, ⟨d₁, none⟩, s₁))
    (hend : Draft.step (t.importer chain) source ⟨d₁, none⟩ s₁ line = (.ok d₂, s₂))
    (hafter : ∀ b ∈ d₂.bindings (t.importer chain) source after s₂, b.value? name = none)
    (htarget : t.findTarget (Path.ofText source.name) target = .ok l)
    (hcontent : t.read l = .ok content)
    (hread : ((Reader.ofSource source).read (t.importer chain) s).1 = .ok d)
    (hother : ∀ other, ((Reader.ofSource ⟨(Path.ofLocation l).text, content⟩).read
        (t.importer (chain ++ [Path.ofLocation l]))
        (s₁.note [.importStarted (Path.ofLocation l).text])).1 = .ok other →
      Mapping.get? other.labels name = some v) :
    Mapping.get? d.labels name = some v := by
  have hrun : Draft.run (t.importer chain) source [line] ⟨d₁, none⟩ s₁ = (none, d₂, s₂) :=
    Draft.run_cons_eq_none.2 ⟨d₂, s₂, hend, rfl⟩
  rw [get?_labels_of_lines hlines hstart hrun hafter hread]
  obtain ⟨other, himport, rfl⟩ := Draft.step_importFile hline hend
  have hlabel := hother other (read_of_importer himport htarget hcontent)
  have hdistinct := t.importer_distinct chain himport
  change Mapping.get? (d₁.adopt other).labels name = some v
  rw [Document.labels_adopt, Mapping.get?_extend hdistinct.labels, hlabel]
  rfl

theorem Writes.get?_labels (h : t.Writes chain source s name lines) {d : Document}
    (hread : ((Reader.ofSource source).read (t.importer chain) s).1 = .ok d) :
    Mapping.get? d.labels name =
      some (.mapping (Mapping.ofList (lines.map BodyLine.entry))) := by
  induction h generalizing d with
  | @block chain source s name before opening body closing after d₁ s₁ d₂ s₂ hlines hopening hbody
      hclosing hstart hend hafter =>
    have hsplit : source.lines = (before ++ [opening]) ++ ((body ++ [closing]) ++ after) := by
      simp [hlines]
    rw [get?_labels_of_lines hsplit hstart hend hafter hread]
    exact body_of_block hopening hbody hclosing hstart hend
  | imported hlines hline hstart hend hafter htarget hcontent _ ih =>
    exact get?_labels_of_import hlines hline hstart hend hafter htarget hcontent hread fun _ => ih

end FileTree

structure BodyLine.Resolves (d : Document) (line : BodyLine) (w : Write) : Prop where
  key : w.key = line.key
  merges : w.merges = line.isReference
  value : ∀ v, d.resolve line.value = .ok v → w.value = v

def BodyLine.shape (line : BodyLine) : String × Bool := (line.key, line.isReference)

namespace Document

variable {d : Document} {lines : List BodyLine} {ws : List Write}

def Awaits (d : Document) (v : Value) (w : Write) : Prop :=
  w.merges = v.merges ∧ ∀ x, d.resolve v = .ok x → w.value = x

theorem awaits_keyed (hmerges : ∀ line ∈ lines, line.value.merges = line.isReference)
    (hws : List.Forall₂ (BodyLine.Resolves d) lines ws) :
    Mapping.Related d.Awaits (lines.map BodyLine.entry) (Write.keyed ws) := by
  induction hws with
  | nil => exact .nil
  | @cons line w lines ws hw _ ih =>
    rw [List.forall_mem_cons] at hmerges
    have hkeyed : Write.keyed (w :: ws) = (line.key, w) :: Write.keyed ws := by
      rw [← hw.key]
      rfl
    rw [hkeyed]
    exact .cons line.key ⟨hw.merges.trans hmerges.1.symm, hw.value⟩ (ih hmerges.2)

theorem resolveEntries_of_awaits {entries : Mapping Value} {m : Mapping Write}
    (h : Mapping.Related d.Awaits entries m) (hm : ∀ entry ∈ m, entry.2.key = entry.1)
    {vs : List Write} (hvs : Value.resolveEntries d.dereference entries = .ok vs) :
    vs = m.map Prod.snd := by
  induction h generalizing vs with
  | nil =>
    cases hvs
    rfl
  | @cons key v w entries m hw _ ih =>
    rw [List.forall_mem_cons] at hm
    obtain ⟨x, hx, hrest⟩ := bind_eq_ok.1 hvs
    obtain ⟨us, hus, hvs⟩ := bind_eq_ok.1 hrest
    cases hvs
    have hkey : w.key = key := hm.1
    have hwrite : (⟨key, v.merges, x⟩ : Write) = w := by
      rw [← hkey, ← hw.1, ← hw.2 x hx]
    rw [hwrite, ih hm.2 hus]
    rfl

theorem resolve_body (hmerges : ∀ line ∈ lines, line.value.merges = line.isReference)
    (hws : List.Forall₂ (BodyLine.Resolves d) lines ws) {v : Value}
    (h : d.resolve (.mapping (Mapping.ofList (lines.map BodyLine.entry))) = .ok v) :
    v = .mapping (Write.applyAll (Write.collapse ws)) := by
  obtain ⟨vs, hvs, hv⟩ := bind_eq_ok.1 h
  cases hv
  have hrelated := Mapping.Related.nil.extend (awaits_keyed hmerges hws)
  have hkeys : ∀ entry ∈ Mapping.ofList (Write.keyed ws), entry.2.key = entry.1 := by
    intro entry hmem
    obtain ⟨w, _, rfl⟩ := List.mem_map.1 ((Mapping.mem_of_mem_extend hmem).resolve_left nofun)
    rfl
  rw [resolveEntries_of_awaits hrelated hkeys hvs]
  rfl

theorem exists_resolves (d : Document) (lines : List BodyLine) :
    ∃ ws, List.Forall₂ (BodyLine.Resolves d) lines ws := by
  induction lines with
  | nil => exact ⟨[], .nil⟩
  | cons line lines ih =>
    obtain ⟨ws, hws⟩ := ih
    let w : Write := ⟨line.key, line.isReference, (d.resolve line.value).toOption.getD .null⟩
    refine ⟨w :: ws, .cons ⟨rfl, rfl, fun v hv => ?_⟩ hws⟩
    simp [w, hv, Except.toOption]

theorem shape_of_resolves (hws : List.Forall₂ (BodyLine.Resolves d) lines ws) :
    ws.map Write.shape = lines.map BodyLine.shape := by
  induction hws with
  | nil => rfl
  | cons hw _ ih => rw [List.map_cons, List.map_cons, ih, Write.shape, hw.key, hw.merges, BodyLine.shape]

end Document

namespace FileTree

variable {t : FileTree} {chain : List Path} {source : Source} {s : Session} {name : String}
variable {lines : List BodyLine}

theorem Writes.merges (h : t.Writes chain source s name lines) :
    ∀ line ∈ lines, line.value.merges = line.isReference := by
  induction h with
  | block => exact Draft.merges_bodyLines _ _ _
  | imported _ _ _ _ _ _ _ _ ih => exact ih

theorem read_of_readDocument {text fileName : String} {d : Document}
    (h : (t.readDocument text fileName).1 = .ok d) :
    ((Reader.ofSource ⟨t.absolute fileName, text⟩).read
      (t.importer [t.canonical (t.absolute fileName)]) .empty).1 = .ok d := by
  unfold readDocument at h
  split at h
  next hread =>
    cases h
    exact (Prod.ext_iff.1 hread).1
  · cases h

/-- What comes out of a label: its lines in the order they are written, less those that a later
line of their key replaces before references are followed. Where the references standing alone
stand apart it is what all the lines write, and any other arrangement of keys and references
differs from that for some values. -/
theorem labelsOf_body {text fileName : String} {R : Mapping Value}
    (hR : t.labelsOf text fileName = .ok R)
    (hlines : t.Writes [t.canonical (t.absolute fileName)] ⟨t.absolute fileName, text⟩ .empty name
      lines) :
    ∃ d, (t.readDocument text fileName).1 = .ok d ∧
      (∀ ws, List.Forall₂ (BodyLine.Resolves d) lines ws →
        Mapping.get? R name = some (.mapping (Write.applyAll (Write.collapse ws)))) ∧
      (Write.Apart (lines.map BodyLine.shape) →
        ∀ ws, List.Forall₂ (BodyLine.Resolves d) lines ws →
          Mapping.get? R name = some (.mapping (Write.applyAll ws))) ∧
      (¬ Write.Apart (lines.map BodyLine.shape) →
        ∃ ws, ws.map Write.shape = lines.map BodyLine.shape ∧
          Write.applyAll (Write.collapse ws) ≠ Write.applyAll ws) := by
  cases hd : (t.readDocument text fileName).1 with
  | error e =>
    rw [labelsOf, hd] at hR
    cases hR
  | ok d =>
    rw [labelsOf, hd] at hR
    have hbody := hlines.get?_labels (read_of_readDocument hd)
    obtain ⟨w, hw, hresolve⟩ := Document.resolve_of_resolvedLabels hR hbody
    have hcollapse : ∀ ws, List.Forall₂ (BodyLine.Resolves d) lines ws →
        Mapping.get? R name = some (.mapping (Write.applyAll (Write.collapse ws))) := by
      intro ws hws
      rw [hw, Document.resolve_body hlines.merges hws hresolve]
    refine ⟨d, rfl, hcollapse, fun hapart ws hws => ?_, fun hapart => ?_⟩
    · rw [← Document.shape_of_resolves hws] at hapart
      rw [hcollapse ws hws, Write.apart_iff.1 hapart ws rfl]
    · simpa only [Write.apart_iff, not_forall, exists_prop] using hapart

theorem labelsOf_body_apart :
    ∃ R ws, labelsOf ⟨[], []⟩ "(base)\nport = p\nend\n(copy)\nx = v\n[base]\nend\n" "main.loon" =
        .ok R ∧
      ws.map Write.shape = [("x", false), ("base", true)] ∧
      Mapping.get? R "copy" = some (.mapping (Write.applyAll ws)) := by
  let text := "(base)\nport = p\nend\n(copy)\nx = v\n[base]\nend\n"
  let source : Source := ⟨"/main.loon", text⟩
  let importer := FileTree.importer ⟨[], []⟩ [FileTree.canonical ⟨[], []⟩ "/main.loon"]
  let before : List Line := [⟨.openLabel "base" false, "(base)", 1, 0⟩,
    ⟨.assign "port" "p", "port = p", 2, 7⟩, ⟨.closeLabel, "end", 3, 16⟩]
  let opening : Line := ⟨.openLabel "copy" false, "(copy)", 4, 20⟩
  let body : List Line := [⟨.assign "x" "v", "x = v", 5, 27⟩, ⟨.item "[base]", "[base]", 6, 33⟩]
  let closing : Line := ⟨.closeLabel, "end", 7, 40⟩
  have hlines : source.lines = before ++ opening :: (body ++ closing :: []) := by
    decide +kernel
  let started := Draft.run importer source (before ++ [opening]) .empty .empty
  let ended := started.2.1.run importer source (body ++ [closing]) started.2.2
  have hstart : started.1 = none := by decide +kernel
  have hend : ended.1 = none := by decide +kernel
  let lines := started.2.1.bodyLines source importer body started.2.2
  have hshape : lines.map BodyLine.shape = [("x", false), ("base", true)] := by decide +kernel
  have hok : (labelsOf ⟨[], []⟩ text "main.loon").toOption.isSome := by decide +kernel
  cases hR : labelsOf ⟨[], []⟩ text "main.loon" with
  | error e =>
    rw [hR] at hok
    cases hok
  | ok R =>
    have hbody : PlainBody body := .assign rfl (.item rfl .nil)
    have hwrites : Writes ⟨[], []⟩ [canonical ⟨[], []⟩ "/main.loon"] source .empty "copy" lines :=
      .block hlines rfl hbody rfl (Prod.ext hstart rfl) (Prod.ext hend rfl) fun b hb => nomatch hb
    obtain ⟨d, _, _, hapart, _⟩ := labelsOf_body hR hwrites
    obtain ⟨ws, hws⟩ := d.exists_resolves lines
    refine ⟨R, ws, rfl, (Document.shape_of_resolves hws).trans hshape, hapart ?_ ws hws⟩
    rw [hshape]
    exact Write.apart_of_nodup (by decide)

/-- Of two references with one last part only the later one is left, and what the other one merges
is missing from the label. -/
theorem labelsOf_collision :
    ∃ R a b c, labelsOf ⟨[], []⟩
        "(a)\n:k\nx = p\nend:\nend\n(b)\n:k\ny = q\nend:\nend\n(c)\n[a:k]\n[b:k]\nend\n"
        "main.loon" = .ok R ∧
      ((Mapping.get? R "a").bind fun v => v.get? "k") = some a ∧
      ((Mapping.get? R "b").bind fun v => v.get? "k") = some b ∧
      Mapping.get? R "c" = some c ∧
      c ≠ .mapping (Write.applyAll [⟨"k", true, a⟩, ⟨"k", true, b⟩]) := by
  have read_off : ∀ result : Except Error (Mapping Value),
      ((result.toOption.bind fun R => (Mapping.get? R "a").bind fun v => (v.get? "k").bind fun a =>
        (Mapping.get? R "b").bind fun v => (v.get? "k").bind fun b =>
          (Mapping.get? R "c").map fun c => (c.get? "x").isNone &&
            ((Value.mapping (Write.applyAll [⟨"k", true, a⟩, ⟨"k", true, b⟩])).get? "x").isSome) =
        some true) →
      ∃ R a b c, result = .ok R ∧ ((Mapping.get? R "a").bind fun v => v.get? "k") = some a ∧
        ((Mapping.get? R "b").bind fun v => v.get? "k") = some b ∧ Mapping.get? R "c" = some c ∧
        c ≠ .mapping (Write.applyAll [⟨"k", true, a⟩, ⟨"k", true, b⟩]) := by
    intro result h
    simp only [Option.bind_eq_some_iff, Option.map_eq_some_iff] at h
    obtain ⟨R, hR, va, hva, a, ha, vb, hvb, b, hb, c, hc, h⟩ := h
    cases result with
    | error e => cases hR
    | ok R' =>
      cases hR
      rw [Bool.and_eq_true, Option.isNone_iff_eq_none] at h
      refine ⟨R, a, b, c, rfl, by rw [hva]; exact ha, by rw [hvb]; exact hb, hc, ?_⟩
      rintro rfl
      rw [h.1] at h
      cases h.2
  exact read_off _ (by decide +kernel)

end FileTree

end Loon
