import Loon.Proofs.Reading.Closings
import Loon.Proofs.Reading.Gathered
import Loon.Proofs.Reading.Names
import Mathlib.Data.List.Induction

/-!
Imports in labels. Read as the first line of a label, an import binds the names that it binds in front of
the label, and its labels become an entry of that label. Lines that do not look the label up find the same
either way, so the documents they make differ in that label alone, and in where the imported labels are.
-/

namespace Loon

namespace BodyItem

theorem distinct_fold (items : List BodyItem) : Mapping.Distinct (fold items) := by
  induction items using List.reverseRecOn with
  | nil => exact Mapping.distinct_nil
  | append_singleton items item ih =>
    rw [fold_append_one]
    exact ih.extend _

theorem fold_entry_cons (key : String) (v : Value) (items : List BodyItem) :
    fold (.entry key v :: items) = Mapping.extend [(key, v)] (fold items) := by
  induction items using List.reverseRecOn with
  | nil => rfl
  | append_singleton items item ih =>
    rw [← List.cons_append, fold_append_one, fold_append_one, ih,
      Mapping.extend_extend (distinct_fold items)]

end BodyItem

namespace OpenLabel

variable (own : String) (labels : Mapping Value) (l : OpenLabel)

def tuck : OpenLabel :=
  { l with items := (if l.name = own then [.entry own (.mapping labels)] else []) ++ l.items }

theorem tuck_append (item : BodyItem) (space : Option OpenSpace) :
    { l.tuck own labels with items := (l.tuck own labels).items ++ [item], space } =
      tuck own labels { l with items := l.items ++ [item], space } := by
  simp [tuck]

theorem tuck_put {l l' : OpenLabel} {here : Place} {insertion : Insertion}
    (h : l.put here insertion = .ok l') :
    (l.tuck own labels).put here insertion = .ok (l'.tuck own labels) := by
  rw [put_eq_ok] at h ⊢
  rcases h with ⟨hnone, rfl⟩ | ⟨space, content, hspace, hcontent, rfl⟩
  · exact .inl ⟨hnone, tuck_append own labels l _ l.space⟩
  · exact .inr ⟨space, content, hspace, hcontent, rfl⟩

theorem tuck_enclose (more : Mapping Value) :
    (l.tuck own labels).enclose more = (l.enclose more).tuck own labels := by
  obtain ⟨name, hidden, items, _ | space, openedAt⟩ := l
  · exact tuck_append own labels _ _ none
  · rfl

theorem fold_tuck : BodyItem.fold (l.tuck own labels).items =
    if l.name = own then Mapping.extend [(own, .mapping labels)] (BodyItem.fold l.items)
    else BodyItem.fold l.items := by
  rw [tuck]
  split
  · exact BodyItem.fold_entry_cons ..
  · rfl

end OpenLabel

namespace Document

variable (own : String) (labels : Mapping Value)

def tuckEntry : String × Value → String × Value
  | (name, .mapping body) =>
    (name, .mapping (if name = own then Mapping.extend [(own, .mapping labels)] body else body))
  | entry => entry

@[simp] theorem tuckEntry_name (entry : String × Value) :
    (tuckEntry own labels entry).1 = entry.1 := by
  rw [tuckEntry.eq_def]
  split <;> rfl

theorem tuckEntry_of_ne {own : String} {entry : String × Value} (h : entry.1 ≠ own) :
    tuckEntry own labels entry = entry := by
  rw [tuckEntry.eq_def]
  split
  next => rw [if_neg h]
  · rfl

theorem map_tuckEntry_of_notMem {own : String} {m : Mapping Value} (h : own ∉ Mapping.keys m) :
    m.map (tuckEntry own labels) = m := by
  refine (List.map_congr_left fun entry hentry => ?_).trans (List.map_id m)
  exact tuckEntry_of_ne labels fun heq => h (heq ▸ List.mem_map_of_mem hentry)

theorem map_tuckEntry_extend {own : String} {new : Mapping Value} (h : own ∉ Mapping.keys new)
    (m : Mapping Value) : (Mapping.extend m new).map (tuckEntry own labels) =
      Mapping.extend (m.map (tuckEntry own labels)) new := by
  induction new generalizing m with
  | nil => rfl
  | cons entry new ih =>
    rw [Mapping.keys_cons, List.mem_cons, not_or] at h
    rw [Mapping.extend_cons, ih h.2, Mapping.map_insert _ (tuckEntry_name own labels),
      tuckEntry_of_ne labels (Ne.symm h.1), Mapping.extend_cons]

theorem keys_map_tuckEntry (m : Mapping Value) :
    Mapping.keys (m.map (tuckEntry own labels)) = Mapping.keys m := by
  simp [Mapping.keys]

/-- The second document has the visible labels of another one among its hidden labels, and as an entry
of one label. Else it has what the first document has, which has them among its visible labels. -/
structure Tucks (d : Document) (own : String) (other e : Document) : Prop where
  labels : e.labels =
    (Mapping.without (Mapping.keys other.labels) d.labels).map (tuckEntry own other.labels)
  taken : Mapping.within (Mapping.keys other.labels) d.labels = other.labels
  found : ∀ name, name ≠ own → d.find? name = e.find? name
  hidden : ∀ name, name ∉ other.names → (name ∈ Mapping.keys d.hidden ↔ name ∈ Mapping.keys e.hidden)

variable {own labels} {other d e more : Document} {name : String}

theorem Tucks.mem_labels (h : d.Tucks own other e) (hname : name ∉ Mapping.keys other.labels) :
    name ∈ Mapping.keys d.labels ↔ name ∈ Mapping.keys e.labels := by
  rw [h.labels, keys_map_tuckEntry, Mapping.mem_keys_without hname]

theorem Tucks.lookup (h : d.Tucks own other e) {a : Address} (ha : a.label ≠ own) :
    d.lookup a = e.lookup a := by
  rw [Document.lookup, Document.lookup, h.found a.label ha]

theorem tucks_of_apart (hapart : d.Apart other) (hother : other.Distinct) (hd : own ∉ d.names) :
    (d.adopt other).Tucks own other (d.enclose other) := by
  have happend : d.adopt other = d.append other := by
    rw [adopt_of_apart hapart.symm, Mapping.ofList_of_distinct hother.labels,
      Mapping.ofList_of_distinct hother.hidden]
    rfl
  have houtside : ∀ name ∈ Mapping.keys d.labels, name ∉ Mapping.keys other.labels :=
    fun name hname hmem => hapart name (mem_names.2 (.inl hname)) (mem_names.2 (.inl hmem))
  refine ⟨?_, ?_, fun name _ => ?_, fun name hname => ?_⟩
  · rw [happend, append, Mapping.without_append houtside, map_tuckEntry_of_notMem]
    · rfl
    · exact fun hmem => hd (mem_names.2 (.inl hmem))
  · rw [happend]
    exact Mapping.within_append houtside
  · rw [happend, find?_append hapart, find?_enclose d hother]
    by_cases hname : name ∈ d.names
    · rw [find?_eq_none.2 (hapart name hname)]
      cases d.find? name <;> rfl
    · rw [find?_eq_none.2 hname]
      cases other.find? name <;> rfl
  · rw [mem_names, not_or] at hname
    rw [happend, enclose, append, Mapping.keys_append, List.mem_append, Mapping.mem_keys_extend,
      Mapping.mem_keys_extend]
    tauto

theorem Tucks.define (h : d.Tucks own other e) (hname : name ∉ other.names) {hidden : Bool}
    (hvisible : name = own → hidden = false) (body : Mapping Value) :
    (d.define name hidden body).Tucks own other (e.define name hidden
      (if name = own then Mapping.extend [(own, .mapping other.labels)] body else body)) := by
  have hlabels : name ∉ Mapping.keys other.labels := fun hmem => hname (mem_names.2 (.inl hmem))
  refine ⟨?_, ?_, fun n hn => ?_, fun n hn => ?_⟩
  · cases hidden with
    | false =>
      change Mapping.insert e.labels name _ = (Mapping.without _ (Mapping.insert d.labels name _)).map _
      rw [Mapping.without_insert hlabels, Mapping.map_insert _ (tuckEntry_name own _), ← h.labels]
      rfl
    | true =>
      change Mapping.erase e.labels name = (Mapping.without _ (Mapping.erase d.labels name)).map _
      rw [Mapping.without_erase, Mapping.map_erase _ (tuckEntry_name own _), ← h.labels]
  · cases hidden with
    | false => exact (Mapping.within_insert hlabels _ _).trans h.taken
    | true => exact (Mapping.within_erase hlabels _).trans h.taken
  · rw [find?_define, find?_define]
    split
    next heq => rw [if_neg fun hown => hn (heq.symm.trans hown)]
    · exact h.found n hn
  · rw [mem_hidden_define, mem_hidden_define, h.hidden n hn]

theorem Tucks.adopt (h : d.Tucks own other e) (hmore : more.Distinct)
    (hnames : ∀ name ∈ more.names, name ≠ own ∧ name ∉ other.names) :
    (d.adopt more).Tucks own other (e.adopt more) := by
  have houtside : ∀ name ∈ Mapping.keys more.labels, name ∉ Mapping.keys other.labels :=
    fun name hname hmem => (hnames name (mem_names.2 (.inl hname))).2 (mem_names.2 (.inl hmem))
  refine ⟨?_, ?_, fun name hne => ?_, fun name hname => ?_⟩
  · rw [labels_adopt, labels_adopt, Mapping.without_extend houtside, h.labels,
      map_tuckEntry_extend _ fun hmem => (hnames own (mem_names.2 (.inl hmem))).1 rfl]
  · rw [labels_adopt, Mapping.within_extend houtside, h.taken]
  · have hmasked : Binding.Masked d (.adopted more) name ↔ Binding.Masked e (.adopted more) name := by
      refine and_congr_right fun hlabel => and_congr_right fun _ => ?_
      have hname := (hnames name (mem_names.2 (.inl hlabel))).2
      rw [h.mem_labels (houtside name hlabel), h.hidden name hname]
    rw [find?_adopt d hmore, find?_adopt e hmore, h.found name hne, if_congr hmasked rfl rfl]
  · have hlabel : name ∉ Mapping.keys other.labels := fun hmem => hname (mem_names.2 (.inl hmem))
    rw [mem_hidden_adopt hmore.labels, mem_hidden_adopt hmore.labels, h.hidden name hname,
      h.mem_labels hlabel]

theorem Tucks.enclose (h : d.Tucks own other e) (hmore : more.Distinct) :
    (d.enclose more).Tucks own other (e.enclose more) := by
  refine ⟨h.labels, h.taken, fun name hne => ?_, fun name hname => ?_⟩
  · rw [find?_enclose d hmore, find?_enclose e hmore, h.found name hne]
  · rw [Document.enclose, Document.enclose, Mapping.mem_keys_extend, Mapping.mem_keys_extend,
      Mapping.mem_keys_extend, Mapping.mem_keys_extend, h.hidden name hname]

end Document

namespace Draft

structure Tucks (own : String) (other : Document) (d e : Draft) : Prop where
  document : d.document.Tucks own other e.document
  current : e.current = d.current.map (OpenLabel.tuck own other.labels)
  label : ∀ label ∈ d.current, label.name ∉ other.names ∧ (label.name = own → label.hidden = false)
  bound : own ∈ Mapping.keys d.document.labels ∨ d.current.map OpenLabel.name = some own

structure Avoids (own : String) (other : Document) (importer : Importer) (source : Source) (line : Line) :
    Prop where
  opens : ∀ name hidden, line.statement = .openLabel name hidden → name ≠ own ∧ name ∉ other.names
  addresses : ∀ a ∈ line.statement.addresses, a.label ≠ own
  imports : ∀ target more s s', line.statement = .importFile target →
    importer target ⟨source, line.span⟩ s = (.ok more, s') →
      more.Distinct ∧ ∀ name ∈ more.names, name ≠ own ∧ name ∉ other.names

variable {own : String} {other : Document} {importer : Importer} {source : Source} {site : Site}
variable {d d' e : Draft} {line : Line} {lines : List Line} {s s' : Session}

theorem Tucks.writes {statement : Statement} {insertion : Insertion} (h : d.Tucks own other e)
    (haddresses : ∀ a ∈ statement.addresses, a.label ≠ own) (hd : d.Writes site statement insertion) :
    e.Writes site statement insertion := by
  cases hd with
  | @pair key token k v hne hkey hv =>
    refine .pair hne ?_ hv
    rw [readKey] at hkey ⊢
    cases hafter : Text.after ['$'] key.toList with
    | none =>
      rw [hafter] at hkey
      exact hkey
    | some expr =>
      rw [hafter] at hkey
      obtain ⟨a, ha, hlookup⟩ := bind_eq_ok.1 hkey
      have halias : Statement.alias? key = some a := by
        rw [Statement.alias?, hafter, Option.bind_some]
        exact requireAddress_eq_ok.1 ha
      have hne : a.label ≠ own := haddresses a (by simp [Statement.addresses, halias])
      refine bind_eq_ok.2 ⟨a, ha, ?_⟩
      rw [← h.document.lookup hne]
      exact hlookup
  | item hv => exact .item hv
  | @value target a v label ha hv hlabel hfits =>
    have hne : a.label ≠ own := haddresses a (by simp [Statement.addresses, ha])
    refine .value ha (h.document.lookup hne ▸ hv) (h.current.trans (congrArg _ hlabel)) hfits
  | @copy target a v ha hv =>
    have hne : a.label ≠ own := haddresses a (by simp [Statement.addresses, ha])
    exact .copy ha (h.document.lookup hne ▸ hv)

theorem Tucks.within {label label' : OpenLabel} (h : d.Tucks own other e) (hlabel : d.current = some label)
    (hname : label'.name = label.name) (hhidden : label'.hidden = label.hidden) :
    Tucks own other { d with current := some label' }
      { e with current := some (label'.tuck own other.labels) } where
  document := h.document
  current := rfl
  label := by
    rintro _ ⟨⟩
    rw [hname, hhidden]
    exact h.label label hlabel
  bound := by simpa [hlabel, hname] using h.bound

theorem Tucks.takeIn {more : Document} (h : d.Tucks own other e) (hmore : more.Distinct)
    (hnames : ∀ name ∈ more.names, name ≠ own ∧ name ∉ other.names) (target : String) :
    (d.takeIn target more).1.Tucks own other (e.takeIn target more).1 := by
  obtain ⟨D, current⟩ := d
  obtain ⟨E, current'⟩ := e
  obtain rfl : current' = current.map _ := h.current
  cases current with
  | none =>
    have hkey : own ∈ Mapping.keys D.labels := by simpa using h.bound
    exact ⟨h.document.adopt hmore hnames, rfl, nofun, .inl (Document.mem_labels_adopt.2 (.inl hkey))⟩
  | some label =>
    have hlabel := h.within rfl (label.name_enclose more.labels) (label.hidden_enclose more.labels)
    exact ⟨h.document.enclose hmore, congrArg some (OpenLabel.tuck_enclose ..), hlabel.label, hlabel.bound⟩

theorem Tucks.step (hsteady : importer.Steady) (hline : Avoids own other importer source line)
    (h : d.Tucks own other e) (hstep : d.step importer source s line = (.ok d', s')) (s₁ : Session) :
    ∃ e' s₁', e.step importer source s₁ line = (.ok e', s₁') ∧ d'.Tucks own other e' := by
  have hlabel : ∀ label, d.current = some label → e.current = some (label.tuck own other.labels) :=
    fun label hlabel => h.current.trans (congrArg _ hlabel)
  cases step_eq_ok.1 hstep with
  | @openLabel name hidden hstatement hnone hname =>
    obtain ⟨hne, hnames⟩ := hline.opens name hidden hstatement
    refine ⟨_, _, step_eq_ok.2 (.openLabel hstatement (h.current.trans (congrArg _ hnone)) hname),
      h.document, ?_, ?_, ?_⟩
    · simp [OpenLabel.tuck, hne]
    · rintro _ ⟨⟩
      exact ⟨hnames, fun heq => absurd heq hne⟩
    · exact .inl (by simpa [hnone] using h.bound)
  | @openSpace name label hstatement hl hnone hname =>
    exact ⟨_, _, step_eq_ok.2 (.openSpace hstatement (hlabel label hl) hnone hname), h.within hl rfl rfl⟩
  | @closeSpace label space hstatement hl hspace =>
    refine ⟨_, _, step_eq_ok.2 (.closeSpace hstatement (hlabel label hl) hspace), ?_⟩
    rw [OpenLabel.tuck_append]
    exact h.within hl rfl rfl
  | @closeLabel label hstatement hl hnone =>
    obtain ⟨hnames, hvisible⟩ := h.label label hl
    refine ⟨_, _, step_eq_ok.2 (.closeLabel hstatement (hlabel label hl) hnone), ?_, rfl, nofun, .inl ?_⟩
    · rw [OpenLabel.fold_tuck]
      exact h.document.define hnames hvisible _
    · rw [Document.mem_labels_define]
      by_cases heq : label.name = own
      · rw [if_pos heq]
        exact hvisible heq
      · rw [if_neg heq]
        simpa [hl, heq] using h.bound
  | @imports target more s₂ hstatement himport =>
    obtain ⟨hmore, hnames⟩ := hline.imports target more s s₂ hstatement himport
    have hanswer : (importer target ⟨source, line.span⟩ s₁).1 = .ok more := by
      rw [hsteady target _ s₁ s, himport]
    exact ⟨_, _, step_eq_ok.2 (.imports hstatement (Prod.ext hanswer rfl)), h.takeIn hmore hnames target⟩
  | writes hwrites hput =>
    obtain ⟨label, label', hl, rfl, hname, hhidden⟩ := keeps_label_of_put hput
    obtain ⟨_, _, hl', hput', hd⟩ := put_eq_ok.1 hput
    cases hl.symm.trans hl'
    obtain rfl := Option.some.inj (congrArg Draft.current hd)
    exact ⟨_, _, step_eq_ok.2 (.writes (h.writes hline.addresses hwrites)
      (put_eq_ok.2 ⟨_, _, hlabel label hl, OpenLabel.tuck_put _ _ hput', rfl⟩)), h.within hl hname hhidden⟩

theorem Tucks.run (hsteady : importer.Steady)
    (hlines : ∀ line ∈ lines, Avoids own other importer source line) (h : d.Tucks own other e)
    (hrun : d.run importer source lines s = (none, d', s')) (s₁ : Session) :
    ∃ e' s₁', e.run importer source lines s₁ = (none, e', s₁') ∧ d'.Tucks own other e' := by
  induction lines generalizing d e s s₁ with
  | nil =>
    cases hrun
    exact ⟨e, s₁, rfl, h⟩
  | cons line lines ih =>
    rw [List.forall_mem_cons] at hlines
    obtain ⟨d₁, s₂, hstep, hrest⟩ := run_cons_eq_none.1 hrun
    obtain ⟨e₁, s₃, hestep, h₁⟩ := h.step hsteady hlines.1 hstep s₁
    obtain ⟨e₂, s₄, herest, h₂⟩ := ih hlines.2 h₁ hrest s₃
    exact ⟨e₂, s₄, run_cons_eq_none.2 ⟨e₁, s₃, hestep, herest⟩, h₂⟩

theorem tucks_of_swap {target : String} {imports opens : Line}
    (himports : imports.statement = .importFile target)
    (hopens : opens.statement = .openLabel own false) (hown : own ∉ d.document.names)
    (hother : ∀ other, (importer target ⟨source, imports.span⟩ s).1 = .ok other →
      other.Distinct ∧ own ∉ other.names ∧ d.document.Apart other)
    (h : d.run importer source [imports, opens] s = (none, d', s')) :
    ∃ other e s₁, (importer target ⟨source, imports.span⟩ s).1 = .ok other ∧
      d.run importer source [opens, imports] s = (none, e, s₁) ∧ d'.Tucks own other e := by
  obtain ⟨d₁, s₁, himport, hrest⟩ := run_cons_eq_none.1 h
  obtain ⟨d₂, s₂, hopen, hnil⟩ := run_cons_eq_none.1 hrest
  cases hnil
  obtain ⟨other, hanswer, rfl⟩ := step_importFile himports himport
  obtain ⟨hnone, hname, rfl⟩ := step_openLabel hopens hopen
  obtain ⟨hdistinct, hnames, hapart⟩ := hother other hanswer
  obtain ⟨D, _ | label⟩ := d
  · refine ⟨other, _, _, hanswer, run_cons_eq_none.2 ⟨_, _, step_eq_ok.2 (.openLabel hopens rfl hname),
      run_cons_eq_none.2 ⟨_, _, step_eq_ok.2 (.imports himports (Prod.ext hanswer rfl)), rfl⟩⟩, ?_⟩
    refine ⟨Document.tucks_of_apart hapart hdistinct hown, ?_, ?_, .inr rfl⟩
    · simp [takeIn, OpenLabel.enclose, OpenLabel.tuck]
    · rintro _ ⟨⟩
      exact ⟨hnames, fun _ => rfl⟩
  · cases hnone

end Draft

namespace FileTree

variable {t : FileTree} {chain : List Path} {source : Source} {own target : String}

theorem avoids_of_boundNames {lines : List Line} {other : Document}
    (hnames : ∀ name ∈ t.boundNames chain source.name (lines.map Line.statement),
      name ≠ own ∧ name ∉ other.names)
    (haddresses : ∀ line ∈ lines, ∀ a ∈ line.statement.addresses, a.label ≠ own) :
    ∀ line ∈ lines, Draft.Avoids own other (t.importer chain) source line := by
  intro line hline
  have hmem := List.mem_map_of_mem (f := Line.statement) hline
  refine ⟨fun name hidden hopens => ?_, haddresses line hline, fun target more s s' himports h => ?_⟩
  · exact hnames name (mem_boundNames_of_openLabel (hopens ▸ hmem))
  · refine ⟨t.importer_distinct chain (Prod.ext_iff.1 h).1, fun name hname => hnames name ?_⟩
    exact boundNames_subset (himports ▸ hmem) (names_subset_of_importer h hname)

theorem tucks_of_run {first last : List Line} {imports opens : Line} {D : Document} {s s' : Session}
    (himports : imports.statement = .importFile target)
    (hopens : opens.statement = .openLabel own false)
    (hown : own ∉ t.boundNames chain source.name (first.map Line.statement) ∧
      own ∉ t.boundNames chain source.name [.importFile target] ∧
        own ∉ t.boundNames chain source.name (last.map Line.statement))
    (hapart : ∀ name ∈ t.boundNames chain source.name [.importFile target],
      name ∉ t.boundNames chain source.name (first.map Line.statement) ∧
        name ∉ t.boundNames chain source.name (last.map Line.statement))
    (haddresses : ∀ line ∈ last, ∀ a ∈ line.statement.addresses, a.label ≠ own)
    (h : Draft.run (t.importer chain) source (first ++ ([imports, opens] ++ last)) .empty s =
      (none, ⟨D, none⟩, s')) :
    ∃ other E s₁ s₂, (t.importer chain target ⟨source, imports.span⟩ s₁).1 = .ok other ∧
      Draft.run (t.importer chain) source (first ++ ([opens, imports] ++ last)) .empty s =
        (none, ⟨E, none⟩, s₂) ∧ D.Tucks own other E ∧ own ∈ Mapping.keys D.labels ∧
      own ∉ Mapping.keys other.labels := by
  obtain ⟨hownFirst, hownImport, hownLast⟩ := hown
  obtain ⟨d₁, s₁, hfirst, hrest⟩ := Draft.run_append_eq_none.1 h
  obtain ⟨d₂, s₂, htwo, hlast⟩ := Draft.run_append_eq_none.1 hrest
  -- Neither the lines before the import nor those after it bind what it binds.
  have hbound := (bindsOnly_run (List.Subset.refl _) Draft.bindsOnly_empty hfirst).1
  have hnames : ∀ other, (t.importer chain target ⟨source, imports.span⟩ s₁).1 = .ok other →
      other.names ⊆ t.boundNames chain source.name [.importFile target] :=
    fun other hanswer => names_subset_of_importer (Prod.ext hanswer rfl)
  have hother : ∀ other, (t.importer chain target ⟨source, imports.span⟩ s₁).1 = .ok other →
      other.Distinct ∧ own ∉ other.names ∧ d₁.document.Apart other :=
    fun other hanswer => ⟨t.importer_distinct chain hanswer,
      fun hmem => hownImport (hnames other hanswer hmem),
      fun name hname hmem => (hapart name (hnames other hanswer hmem)).1 (hbound hname)⟩
  obtain ⟨other, e₂, s₃, hanswer, hswap, htucks⟩ :=
    Draft.tucks_of_swap himports hopens (fun hmem => hownFirst (hbound hmem)) hother htwo
  have havoids : ∀ line ∈ last, Draft.Avoids own other (t.importer chain) source line :=
    avoids_of_boundNames (fun name hname => ⟨fun heq => hownLast (heq ▸ hname),
      fun hmem => (hapart name (hnames other hanswer hmem)).2 hname⟩) haddresses
  obtain ⟨⟨E, current⟩, s₄, hend, hD⟩ := htucks.run (t.importer_steady chain) havoids hlast s₃
  obtain rfl : current = none := hD.current
  refine ⟨other, E, s₁, s₄, hanswer, ?_, hD.document, by simpa using hD.bound, fun hmem => ?_⟩
  · exact Draft.run_append_eq_none.2 ⟨d₁, s₁, hfirst,
      Draft.run_append_eq_none.2 ⟨e₂, s₃, hswap, hend⟩⟩
  · exact (hother other hanswer).2.1 (Document.mem_names.2 (.inl hmem))

end FileTree

end Loon
