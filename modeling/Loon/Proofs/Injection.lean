import Loon.Proofs.MergeOrder
import Loon.Proofs.Reading.Gathered
import Loon.Proofs.Resolution.Agreement

namespace Loon

namespace Mapping

variable {α : Type} {m later : Mapping α} {key : String} {v : α}

theorem extend_cons_of_notMem {entry : String × α} {new : Mapping α} (h : entry.1 ∉ keys new)
    (m : Mapping α) : extend (entry :: m) new = entry :: extend m new := by
  induction new generalizing m with
  | nil => rfl
  | cons first new ih =>
    rw [keys_cons, List.mem_cons, not_or] at h
    rw [extend_cons, insert, if_neg h.1, ih h.2, extend_cons]

theorem exists_insert (m : Mapping α) (key : String) (v : α) :
    ∃ front behind, insert m key v = front ++ (key, v) :: behind ∧ key ∉ keys front ∧
      ∀ entry ∈ behind, ∃ old u rest, m = old ++ (key, u) :: rest ∧ key ∉ keys old ∧ entry ∈ rest := by
  by_cases hkey : key ∈ keys m
  · obtain ⟨before, after, hm, hnot⟩ := List.eq_append_cons_of_mem hkey
    obtain ⟨old, rest, rfl, rfl, hrest⟩ := List.map_eq_append_iff.1 hm
    obtain ⟨⟨name, u⟩, rest, rfl, hname, _⟩ := List.map_eq_cons_iff.1 hrest
    obtain rfl : name = key := hname
    refine ⟨old, rest, ?_, hnot, fun entry hentry => ⟨old, u, rest, rfl, hnot, hentry⟩⟩
    exact (insert_append ..).trans ((if_neg hnot).trans (by rw [insert, if_pos rfl]))
  · exact ⟨m, [], insert_of_notMem hkey v, hkey, fun _ hentry => absurd hentry List.not_mem_nil⟩

theorem exists_extend_insert (m : Mapping α) (v : α) (h : key ∉ keys later) :
    ∃ front behind, extend (insert m key v) later = front ++ (key, v) :: behind ∧
      key ∉ keys front ∧ ∀ entry ∈ behind, entry ∈ later ∨
        ∃ old u rest, m = old ++ (key, u) :: rest ∧ key ∉ keys old ∧ entry ∈ rest := by
  obtain ⟨front, behind, hinsert, hfront, hbehind⟩ := exists_insert m key v
  let old := later.filter fun entry => entry.1 ∈ keys front
  let new := later.filter fun entry => entry.1 ∉ keys front
  have hold : key ∉ keys old := fun hmem => h ((List.filter_sublist.map Prod.fst).subset hmem)
  have hnew : key ∉ keys new := fun hmem => h ((List.filter_sublist.map Prod.fst).subset hmem)
  refine ⟨extend front old, extend behind new, ?_, ?_, fun entry hentry => ?_⟩
  · rw [hinsert, extend_append_left, extend_cons_of_notMem hnew]
  · rw [mem_keys_extend, not_or]
    exact ⟨hfront, hold⟩
  · rcases mem_of_mem_extend hentry with hentry | hentry
    · exact .inr (hbehind entry hentry)
    · exact .inl (List.mem_filter.1 hentry).1

theorem extend_insert_ne_nil (m : Mapping α) (key : String) (v : α) (later : Mapping α) :
    extend (insert m key v) later ≠ [] := by
  intro h
  have hkey : key ∈ keys (extend (insert m key v) later) := by
    rw [mem_keys_extend, mem_keys_iff, get?_insert_self]
    exact .inl rfl
  rw [h] at hkey
  cases hkey

end Mapping

namespace Document

variable {d : Document} {m before later : Mapping Value} {key : String} {v w : Value}

def supply? (d : Document) (key : String) (entry : String × Value) : Option Value :=
  (d.resolve entry.2).toOption.bind fun w => Write.supply? ⟨entry.1, entry.2.merges, w⟩ key

theorem supply?_of_resolve {name : String} (hv : d.resolve v = .ok w) (key : String) :
    d.supply? key (name, v) = Write.supply? ⟨name, v.merges, w⟩ key := by
  rw [supply?, hv]
  rfl

theorem supplies_of_resolveEntries {ws : List Write}
    (h : Value.resolveEntries d.dereference m = .ok ws) (key : String) :
    (∀ w ∈ ws, w.value.Settled) ∧ ws.map (·.supply? key) = m.map (d.supply? key) := by
  induction m generalizing ws with
  | nil =>
    cases h
    exact ⟨fun _ hw => absurd hw List.not_mem_nil, rfl⟩
  | cons entry m ih =>
    obtain ⟨x, hx, hrest⟩ := bind_eq_ok.1 h
    obtain ⟨ws', hws', hws⟩ := bind_eq_ok.1 hrest
    cases hws
    obtain ⟨hsettled, hsupplies⟩ := ih hws'
    refine ⟨List.forall_mem_cons.2 ⟨settled_of_resolve hx, hsettled⟩, ?_⟩
    rw [List.map_cons, List.map_cons, hsupplies, supply?_of_resolve hx]

theorem get?_of_resolve_mapping (h : d.resolve (.mapping m) = .ok w) (key : String) :
    w.get? key = m.reverse.findSome? (d.supply? key) := by
  obtain ⟨ws, hws, hw⟩ := bind_eq_ok.1 h
  cases hw
  obtain ⟨hsettled, hsupplies⟩ := supplies_of_resolveEntries hws key
  calc Mapping.get? (Write.applyAll ws) key
    _ = ws.reverse.findSome? (·.supply? key) := Write.get?_applyAll hsettled key
    _ = (ws.map (·.supply? key)).reverse.findSome? id := by
      rw [← List.map_reverse, List.findSome?_map, Function.id_comp]
    _ = m.reverse.findSome? (d.supply? key) := by
      rw [hsupplies, ← List.map_reverse, List.findSome?_map, Function.id_comp]

theorem resolves_of_mem (h : d.resolve (.mapping m) = .ok w) {entry : String × Value}
    (hentry : entry ∈ m) : ∃ x, d.resolve entry.2 = .ok x := by
  obtain ⟨ws, hws, -⟩ := bind_eq_ok.1 h
  clear h
  induction m generalizing ws with
  | nil => cases hentry
  | cons first m ih =>
    obtain ⟨x, hx, hrest⟩ := bind_eq_ok.1 hws
    obtain ⟨ws', hws', -⟩ := bind_eq_ok.1 hrest
    rcases List.mem_cons.1 hentry with rfl | hentry
    · exact ⟨x, hx⟩
    · exact ih hentry ws' hws'

/-- Lines leave a key alone: none of them writes it, nothing that they merge has it, and neither has
anything that merges behind the place where the key stood before. -/
structure Spares (d : Document) (key : String) (before later : Mapping Value) : Prop where
  written : key ∉ Mapping.keys later
  merged : ∀ entry ∈ later, d.supply? key entry = none
  earlier : ∀ old u rest, before = old ++ (key, u) :: rest → key ∉ Mapping.keys old →
    ∀ entry ∈ rest, d.supply? key entry = none

/-- Where a line sets a key, the resolved mapping has what the last entry to supply the key gives it. If
it is left alone by the lines that follow, it has what the value is resolved to. But if that is a mapping
and merges, only its entries are there. -/
structure Stores (d : Document) (before : Mapping Value) (key : String) (v : Value)
    (later : Mapping Value) (w : Value) : Prop where
  shown : w.get? key =
    (Mapping.extend (Mapping.insert before key v) later).reverse.findSome? (d.supply? key)
  kept : d.Spares key before later → ∃ x, d.resolve v = .ok x ∧
    ((v.merges = true → ∀ entries, x ≠ .mapping entries) → w.get? key = some x)
  spliced : d.Spares key before later → (∀ entry ∈ before, d.supply? key entry = none) →
    ∀ entries, d.resolve v = .ok (.mapping entries) → v.merges = true →
      w.get? key = Mapping.get? entries key

theorem Spares.exists_front (h : d.Spares key before later) (v : Value) :
    ∃ front behind, Mapping.extend (Mapping.insert before key v) later = front ++ (key, v) :: behind ∧
      key ∉ Mapping.keys front ∧ behind.reverse.findSome? (d.supply? key) = none := by
  obtain ⟨front, behind, heq, hfront, hbehind⟩ := Mapping.exists_extend_insert before v h.written
  refine ⟨front, behind, heq, hfront, ?_⟩
  rw [List.findSome?_eq_none_iff]
  intro entry hentry
  rcases hbehind entry (List.mem_reverse.1 hentry) with hlater | ⟨old, u, rest, hm, hnot, hrest⟩
  · exact h.merged entry hlater
  · exact h.earlier old u rest hm hnot entry hrest

theorem get?_of_front {front behind : Mapping Value} {x : Value}
    (h : d.resolve (.mapping (front ++ (key, v) :: behind)) = .ok w)
    (hbehind : behind.reverse.findSome? (d.supply? key) = none) (hx : d.resolve v = .ok x) :
    w.get? key = (Write.supply? ⟨key, v.merges, x⟩ key <|> front.reverse.findSome? (d.supply? key)) := by
  rw [get?_of_resolve_mapping h, List.reverse_append, List.reverse_cons, List.append_assoc,
    List.findSome?_append, hbehind, List.singleton_append, List.findSome?_cons,
    supply?_of_resolve hx]
  cases Write.supply? ⟨key, v.merges, x⟩ key <;> rfl

theorem stores_of_resolve
    (h : d.resolve (.mapping (Mapping.extend (Mapping.insert before key v) later)) = .ok w) :
    d.Stores before key v later w where
  shown := get?_of_resolve_mapping h key
  kept hspares := by
    obtain ⟨front, behind, heq, _, hbehind⟩ := hspares.exists_front v
    rw [heq] at h
    obtain ⟨x, hx⟩ := resolves_of_mem h (List.mem_append_right front (List.mem_cons_self ..))
    refine ⟨x, hx, fun hplain => ?_⟩
    have hown : Write.supply? ⟨key, v.merges, x⟩ key = some x := by
      cases hmerges : v.merges with
      | false => rw [Write.supply?_plain, if_pos rfl]
      | true =>
        cases x with
        | mapping entries => exact absurd rfl (hplain hmerges entries)
        | _ => exact if_pos rfl
    rw [get?_of_front h hbehind hx, hown]
    rfl
  spliced hspares hbefore entries hx hmerges := by
    obtain ⟨front, behind, heq, hfront, hbehind⟩ := hspares.exists_front v
    have hnone : front.reverse.findSome? (d.supply? key) = none := by
      rw [List.findSome?_eq_none_iff]
      intro entry hentry
      have hentry := List.mem_reverse.1 hentry
      have hmem : entry ∈ Mapping.extend (Mapping.insert before key v) later :=
        heq ▸ List.mem_append_left _ hentry
      rcases Mapping.mem_of_mem_extend hmem with hmem | hmem
      · rcases Mapping.mem_insert hmem with hmem | rfl
        · exact hbefore entry hmem
        · exact absurd (List.mem_map_of_mem hentry) hfront
      · exact hspares.merged entry hmem
    rw [heq] at h
    rw [get?_of_front h hbehind hx, hnone, hmerges]
    simp [Write.supply?]

end Document

namespace Draft

variable {importer : Importer} {source : Source} {d d' : Draft} {s s' : Session} {line : Line}
variable {target : String} {label : OpenLabel}

theorem writes_of_inject (hline : line.statement = .inject target false)
    (h : d.step importer source s line = (.ok d', s')) :
    ∃ a v, Address.parse target = some a ∧ d.document.lookup a = .ok (some v) ∧
      d.Writes ⟨⟨source, line.span⟩, line.text⟩ line.statement (.merge [(a.name, v)]) ∧
      d.put ⟨⟨source, line.span⟩, line.text⟩ (.merge [(a.name, v)]) = .ok d' := by
  simp only [step, hline] at h
  obtain ⟨_, hwrites, hput⟩ := copyIn_iff_writes.1 (Prod.ext_iff.1 h).1
  cases hwrites with
  | copy ha hv => exact ⟨_, _, ha, hv, hline ▸ .copy ha hv, hput⟩

theorem fills_of_put {site : Site} {space : OpenSpace} {key : String} {v : Value}
    (hlabel : d.current = some label) (hspace : label.space = some space)
    (h : d.put site (.merge [(key, v)]) = .ok d') :
    ∃ before, space.content.keyed? = some before ∧
      Fills label space.name (Mapping.insert before key v) d' := by
  obtain ⟨l, label', hl, hput, rfl⟩ := put_eq_ok.1 h
  cases hlabel.symm.trans hl
  rcases OpenLabel.put_eq_ok.1 hput with ⟨hnone, _⟩ | ⟨_, content, hsome, hcontent, rfl⟩
  · cases hspace.symm.trans hnone
  · cases hspace.symm.trans hsome
    rw [Insertion.put, Space.merge_singleton] at hcontent
    split at hcontent
    next hinsert =>
      cases hcontent
      cases hbefore : space.content.keyed? with
      | none => cases hkeyed : space.content <;> simp [hkeyed, Space.keyed?, Space.insert] at hbefore hinsert
      | some before =>
        have hgathered : space.content.Gathered before := .inl hbefore
        exact ⟨before, rfl, _, rfl, rfl, .inl (by rw [hgathered.insert hinsert]; rfl)⟩
    · cases hcontent

end Draft

namespace FileTree

/-- Of what a source says of a visible label, the last is the closing of one that is open in a draft,
there or in a file imported outside its labels. The lines are those up to its closing. -/
inductive Finishes (t : FileTree) : List Path → Source → Session → String →
    Importer → Source → Draft → Session → List Line → Prop
  | block {chain source s name before rest closing after d₁ s₁ d₂ s₂ label}
      (hlines : source.lines = before ++ ((rest ++ [closing]) ++ after))
      (hbefore : Draft.run (t.importer chain) source before .empty s = (none, d₁, s₁))
      (hlabel : d₁.current = some label) (hname : label.name = name)
      (hvisible : label.hidden = false) (hrest : ∀ line ∈ rest, line.statement ≠ .closeLabel)
      (hclosing : closing.statement = .closeLabel)
      (hend : d₁.run (t.importer chain) source (rest ++ [closing]) s₁ = (none, d₂, s₂))
      (hafter : ∀ b ∈ d₂.bindings (t.importer chain) source after s₂, b.value? name = none) :
      Finishes t chain source s name (t.importer chain) source d₁ s₁ rest
  | imported {chain source s name before line after target l content d₁ s₁ d₂ s₂}
      {importer source' d' s' rest}
      (hlines : source.lines = before ++ line :: after)
      (hline : line.statement = .importFile target)
      (hstart : Draft.run (t.importer chain) source before .empty s = (none, ⟨d₁, none⟩, s₁))
      (hend : Draft.step (t.importer chain) source ⟨d₁, none⟩ s₁ line = (.ok d₂, s₂))
      (hafter : ∀ b ∈ d₂.bindings (t.importer chain) source after s₂, b.value? name = none)
      (htarget : t.findTarget (Path.ofText source.name) target = .ok l)
      (hcontent : t.read l = .ok content)
      (hfinishes : Finishes t (chain ++ [Path.ofLocation l]) ⟨(Path.ofLocation l).text, content⟩
        (s₁.note [.importStarted (Path.ofLocation l).text]) name importer source' d' s' rest) :
      Finishes t chain source s name importer source' d' s' rest

variable {t : FileTree} {chain : List Path} {source source' : Source} {s s' : Session} {name : String}
variable {importer : Importer} {d : Draft} {lines : List Line}

theorem Finishes.run (h : t.Finishes chain source s name importer source' d s' lines) :
    ∃ label d₂ s₂ label₂, d.current = some label ∧
      d.run importer source' lines s' = (none, d₂, s₂) ∧ d₂.current = some label₂ ∧
      label₂.space = none := by
  induction h with
  | block hlines hbefore hlabel hname hvisible hrest hclosing hend hafter =>
    obtain ⟨d₂, s₂, hrun, hclose⟩ := Draft.run_append_eq_none.1 hend
    obtain ⟨_, _, hclose, _⟩ := Draft.run_cons_eq_none.1 hclose
    obtain ⟨label₂, hlabel₂, hspace, _⟩ := Draft.step_closeLabel hclosing hclose
    exact ⟨_, d₂, s₂, label₂, hlabel, hrun, hlabel₂, hspace⟩
  | imported _ _ _ _ _ _ _ _ ih => exact ih

theorem Finishes.get?_labels (h : t.Finishes chain source s name importer source' d s' lines)
    {D : Document} (hread : ((Reader.ofSource source).read (t.importer chain) s).1 = .ok D)
    {label : OpenLabel} (hlabel : d.current = some label) :
    Mapping.get? D.labels name = some (.mapping
      (Mapping.extend (BodyItem.fold label.items) (d.ownEntries importer source' lines s'))) := by
  induction h generalizing D with
  | block hlines hbefore hopen hname hvisible hrest hclosing hend hafter =>
    cases hlabel.symm.trans hopen
    rw [get?_labels_of_lines hlines hbefore hend hafter hread]
    obtain ⟨d', _, _, rfl⟩ := Draft.run_closing hrest hclosing hlabel hend
    dsimp only
    rw [hvisible, ← hname]
    exact Mapping.get?_insert_self _ _ _
  | imported hlines hline hstart hend hafter htarget hcontent _ ih =>
    exact get?_labels_of_import hlines hline hstart hend hafter htarget hcontent hread
      fun _ hother => ih hother hlabel

/-- An injection in a label, or in a space of it that is no list yet, sets the last name of its target to
what this has at that point. A space that an item turns into a list afterwards keeps the entry as an item
of its own. -/
theorem labelsOf_injection {text fileName target : String} {R : Mapping Value} {line : Line}
    (hR : t.labelsOf text fileName = .ok R)
    (hfinishes : t.Finishes [t.canonical (t.absolute fileName)] ⟨t.absolute fileName, text⟩ .empty
      name importer source d s (line :: lines))
    (hline : line.statement = .inject target false) :
    ∃ D label a v w, (t.readDocument text fileName).1 = .ok D ∧ d.current = some label ∧
      Address.parse target = some a ∧ d.document.lookup a = .ok (some v) ∧
      Mapping.get? R name = some w ∧
      (label.space = none → ∃ later,
        d.ownEntries importer source (line :: lines) s = (a.name, v) :: later ∧
        D.Stores (BodyItem.fold label.items) a.name v later w) ∧
      ∀ space, label.space = some space → ∃ before later c others,
        space.content.keyed? = some before ∧
        d.ClosesSpace importer source s (line :: lines) space.name ((a.name, v) :: later) c others ∧
        let gathered := Mapping.extend (Mapping.insert before a.name v) later
        ((∃ items, c = .list (gathered.map Space.single ++ items)) ∨
          c = .mapping gathered ∧ (D.Spares space.name (BodyItem.fold label.items) others →
            ∃ u, w.get? space.name = some u ∧ D.Stores before a.name v later u)) := by
  cases hD : (t.readDocument text fileName).1 with
  | error e =>
    rw [labelsOf, hD] at hR
    cases hR
  | ok D =>
    rw [labelsOf, hD] at hR
    obtain ⟨label, d₂, s₂, label₂, hlabel, hrun, hlabel₂, hspace₂⟩ := hfinishes.run
    have hbody := hfinishes.get?_labels (read_of_readDocument hD) hlabel
    obtain ⟨w, hw, hresolve⟩ := Document.resolve_of_resolvedLabels hR hbody
    obtain ⟨d₁, s₁, hstep, hrest⟩ := Draft.run_cons_eq_none.1 hrun
    obtain ⟨a, v, ha, hv, hwrites, hput⟩ := Draft.writes_of_inject hline hstep
    refine ⟨D, label, a, v, w, rfl, hlabel, ha, hv, hw, fun hnone => ?_, fun space hspace => ?_⟩
    · have hentries : d.ownEntries importer source (line :: lines) s = _ :=
        Draft.ownEntries_cons hstep
      rw [Draft.ownEntries?_writes hlabel hnone hwrites] at hentries
      rw [hentries] at hresolve
      exact ⟨_, hentries, Document.stores_of_resolve hresolve⟩
    · have hne : line.statement ≠ .closeSpace := by simp [hline]
      obtain ⟨before, hbefore, hfills⟩ := Draft.fills_of_put hlabel hspace hput
      obtain ⟨content, later, others, hcloses, hgathered⟩ :=
        Draft.run_closesSpace hfills hrest hlabel₂ hspace₂
      have hopen : Draft.Fills label space.name before d :=
        ⟨space, by rw [hlabel, ← hspace], rfl, .inl hbefore⟩
      have hcloses := hcloses.cons hne hopen hstep
      rw [Draft.spaceEntries?, hwrites.insertion?_eq] at hcloses
      have hclosed := hcloses
      obtain ⟨_, _, _, _, _, _, _, hothers⟩ := hclosed
      refine ⟨before, later, content.value, others, hbefore, hcloses, ?_⟩
      have hnonempty := Mapping.extend_insert_ne_nil before a.name v later
      rcases hgathered.value hnonempty with hlist | hmapping
      · exact .inl hlist
      · refine .inr ⟨hmapping, fun hspares => ?_⟩
        rw [hothers] at hresolve
        obtain ⟨u, hu, hkept⟩ := (Document.stores_of_resolve hresolve).kept hspares
        rw [hmapping] at hu hkept
        exact ⟨u, hkept (fun hmerges => by cases hmerges), Document.stores_of_resolve hu⟩

theorem labelsOf_injection_pending :
    let text := "(base)\nlink = [target.v]\nend\n(app)\n-> base.link\nend\n(target)\nv = ok\nend\n"
    ∃ R D v x w, labelsOf ⟨[], []⟩ text "main.loon" = .ok R ∧
      (readDocument ⟨[], []⟩ text "main.loon").1 = .ok D ∧ v.hasPlaceholder = true ∧
      D.resolve v = .ok x ∧ Mapping.get? R "app" = some w ∧ w.get? "link" = some x := by
  intro text
  let source : Source := ⟨"/main.loon", text⟩
  let importer := FileTree.importer ⟨[], []⟩ [FileTree.canonical ⟨[], []⟩ "/main.loon"]
  let before := source.lines.take 4
  let line : Line := ⟨.inject "base.link" false, "-> base.link", 5, 35⟩
  let closing : Line := ⟨.closeLabel, "end", 6, 48⟩
  let after := source.lines.drop 6
  let started := Draft.run importer source before .empty .empty
  let ended := started.2.1.run importer source ([line] ++ [closing]) started.2.2
  obtain ⟨hlines, hstart, hend, hafter, hopened, hentries⟩ :
      source.lines = before ++ (([line] ++ [closing]) ++ after) ∧ started.1 = none ∧ ended.1 = none ∧
      (ended.2.1.bindings importer source after ended.2.2).all (fun b => (b.value? "app").isNone) ∧
      started.2.1.current.map (fun l => (l.name, l.hidden, l.space.isNone, l.items.isEmpty)) =
        some ("app", false, true, true) ∧
      (started.2.1.ownEntries importer source [line] started.2.2).map
        (fun entry => (entry.1, entry.2.merges, entry.2.hasPlaceholder)) = [("link", false, true)] := by
    decide +kernel
  obtain ⟨label, hlabel, hfields⟩ := Option.map_eq_some_iff.1 hopened
  simp only [Prod.mk.injEq, Option.isNone_iff_eq_none, List.isEmpty_iff] at hfields
  obtain ⟨hname, hvisible, hspace, hitems⟩ := hfields
  have hok : (labelsOf ⟨[], []⟩ text "main.loon").toOption.isSome := by decide +kernel
  obtain ⟨R, hR⟩ := Option.isSome_iff_exists.1 hok
  have hfinishes : Finishes ⟨[], []⟩ [canonical ⟨[], []⟩ "/main.loon"] source .empty "app" importer
      source started.2.1 started.2.2 [line] :=
    .block hlines (Prod.ext hstart rfl) hlabel hname hvisible (by simp [line]) rfl (Prod.ext hend rfl)
      fun b hb => Option.isNone_iff_eq_none.1 (List.all_eq_true.1 hafter b hb)
  obtain ⟨D, _, a, v, w, hD, hopen, ha, hv, hw, hown, _⟩ :=
    labelsOf_injection (toOption_eq_some.1 hR) hfinishes rfl
  cases hlabel.symm.trans hopen
  obtain ⟨later, heq, hstores⟩ := hown hspace
  -- There is one entry in the label, and it is the one that was copied.
  rw [heq, List.map_cons, List.cons.injEq, List.map_eq_nil_iff] at hentries
  obtain ⟨hentry, rfl⟩ := hentries
  obtain ⟨hkey, hmerges, hpending⟩ : a.name = "link" ∧ v.merges = false ∧ v.hasPlaceholder = true := by
    simpa using hentry
  obtain ⟨x, hx, hkept⟩ := hstores.kept ⟨nofun, nofun, by simp [hitems]⟩
  rw [hmerges, hkey] at hkept
  exact ⟨R, D, v, x, w, toOption_eq_some.1 hR, hD, hpending, hx, hw, hkept nofun⟩

/-- What is copied of a reference standing alone merges again, so the mapping it refers to does not stand
under the name. -/
theorem labelsOf_injection_spliced :
    let text := "(base)\nport = p\nend\n(a)\n[base]\nend\n(b)\n-> a.base\nend\n"
    ∃ R D v x w, labelsOf ⟨[], []⟩ text "main.loon" = .ok R ∧
      (readDocument ⟨[], []⟩ text "main.loon").1 = .ok D ∧
      D.lookup ⟨"a", none, some "base"⟩ = .ok (some v) ∧ D.resolve v = .ok x ∧
      Mapping.get? R "b" = some w ∧ w.get? "base" ≠ some x := by
  intro text
  have hfound : ((readDocument ⟨[], []⟩ text "main.loon").1.toOption.bind fun D =>
      (D.lookup ⟨"a", none, some "base"⟩).toOption.join.bind fun v => (D.resolve v).toOption.bind
        fun _ => (labelsOf ⟨[], []⟩ text "main.loon").toOption.bind fun R =>
          (Mapping.get? R "b").map fun w => (w.get? "base").isNone) = some true := by
    decide +kernel
  simp only [Option.bind_eq_some_iff, Option.map_eq_some_iff, Option.join_eq_some_iff, toOption_eq_some,
    Option.isNone_iff_eq_none] at hfound
  obtain ⟨D, hD, v, hv, x, hx, R, hR, w, hw, hnone⟩ := hfound
  exact ⟨R, D, v, x, w, hR, hD, hv, hx, hw, by rw [hnone]; exact nofun⟩

end FileTree

end Loon
