import Loon.Proofs.Reading.Imports
import Loon.Proofs.Resolution.Agreement
import Loon.Proofs.Tree

/-!
Plain value trees are read back as they were written. What a sequence of statements does to a draft
is said by what holds before and after it, so that the statements of a tree are put together as its
lines are.
-/

namespace Loon

namespace Draft

variable {importer : Importer} {source : Source} {P Q R : Draft → Prop}
variable {statements more : List Statement} {statement : Statement}

variable (importer source) in
/-- Lines with these statements are read without error, from any draft of one kind to one of another,
wherever they stand. -/
def Takes (P : Draft → Prop) (statements : List Statement) (Q : Draft → Prop) : Prop :=
  ∀ d s lines, P d → lines.map Line.statement = statements →
    ∃ d' s', d.run importer source lines s = (none, d', s') ∧ Q d'

theorem Takes.nil : Takes importer source P [] P := by
  intro d s lines hd hlines
  rw [List.map_eq_nil_iff.1 hlines]
  exact ⟨d, s, rfl, hd⟩

theorem Takes.append (h : Takes importer source P statements Q)
    (hmore : Takes importer source Q more R) : Takes importer source P (statements ++ more) R := by
  intro d s lines hd hlines
  obtain ⟨first, rest, rfl, hfirst, hrest⟩ := List.map_eq_append_iff.1 hlines
  obtain ⟨d₁, s₁, hrun, hd₁⟩ := h d s first hd hfirst
  obtain ⟨d₂, s₂, hrun', hd₂⟩ := hmore d₁ s₁ rest hd₁ hrest
  exact ⟨d₂, s₂, run_append_eq_none.2 ⟨d₁, s₁, hrun, hrun'⟩, hd₂⟩

theorem Takes.one (h : ∀ d s line, P d → line.statement = statement →
    ∃ d' s', Step importer source d s line d' s' ∧ Q d') : Takes importer source P [statement] Q := by
  intro d s lines hd hlines
  obtain ⟨line, rfl, hline⟩ := List.map_eq_singleton_iff.1 hlines
  obtain ⟨d', s', hstep, hd'⟩ := h d s line hd hline
  exact ⟨d', s', run_cons_eq_none.2 ⟨d', s', step_eq_ok.2 hstep, rfl⟩, hd'⟩

theorem Takes.cons (h : Takes importer source P [statement] Q)
    (hmore : Takes importer source Q more R) : Takes importer source P (statement :: more) R :=
  h.append hmore

def Outside (document : Document) (d : Draft) : Prop := d = ⟨document, none⟩

def InBody (document : Document) (name : String) (items : List BodyItem) (d : Draft) : Prop :=
  ∃ place, d = ⟨document, some ⟨name, false, items, none, place⟩⟩

def Within (document : Document) (name : String) (items : List BodyItem) (own : String)
    (content : Space) (d : Draft) : Prop :=
  ∃ place opened, d = ⟨document, some ⟨name, false, items, some ⟨own, content, opened⟩, place⟩⟩

variable {document : Document} {name own : String} {items : List BodyItem}
variable {content content' : Space}

theorem takes_openLabel (hname : Name.isValid name.toList = true) :
    Takes importer source (Outside document) [.openLabel name false] (InBody document name []) :=
  .one fun d s line hd hline => by
    cases hd
    exact ⟨_, _, .openLabel hline rfl hname, _, rfl⟩

theorem takes_openSpace (hown : Name.isValid own.toList = true) :
    Takes importer source (InBody document name items) [.openSpace own]
      (Within document name items own .empty) :=
  .one fun d s line hd hline => by
    obtain ⟨place, rfl⟩ := hd
    exact ⟨_, _, .openSpace hline rfl rfl hown, _, _, rfl⟩

theorem takes_closeSpace :
    Takes importer source (Within document name items own content) [.closeSpace]
      (InBody document name (items ++ [.entry own content.value])) :=
  .one fun d s line hd hline => by
    obtain ⟨place, opened, rfl⟩ := hd
    exact ⟨_, _, .closeSpace hline rfl rfl, _, rfl⟩

theorem takes_closeLabel :
    Takes importer source (InBody document name items) [.closeLabel]
      (Outside (document.define name false (BodyItem.fold items))) :=
  .one fun d s line hd hline => by
    obtain ⟨place, rfl⟩ := hd
    exact ⟨_, _, .closeLabel hline rfl rfl, rfl⟩

theorem takes_writes {insertion : Insertion}
    (hwrites : ∀ d site, P d → d.Writes site statement insertion)
    (hput : ∀ d site, P d → ∃ d', d.put site insertion = .ok d' ∧ Q d') :
    Takes importer source P [statement] Q :=
  .one fun d s line hd hline => by
    subst hline
    obtain ⟨d', hd', hQ⟩ := hput d ⟨⟨source, line.span⟩, line.text⟩ hd
    exact ⟨d', s, .writes (hwrites d _ hd) hd', hQ⟩

theorem exists_put_inBody {insertion : Insertion} {d : Draft} (site : Site)
    (hd : InBody document name items d) :
    ∃ d', d.put site insertion = .ok d' ∧
      InBody document name (items ++ [insertion.bodyItem]) d' := by
  obtain ⟨place, rfl⟩ := hd
  exact ⟨_, put_eq_ok.2 ⟨_, _, rfl, rfl, rfl⟩, place, rfl⟩

theorem exists_put_within {insertion : Insertion} {d : Draft} (site : Site)
    (hcontent : insertion.put content = .ok content') (hd : Within document name items own content d) :
    ∃ d', d.put site insertion = .ok d' ∧ Within document name items own content' d' := by
  obtain ⟨place, opened, rfl⟩ := hd
  have hput : (⟨name, false, items, some ⟨own, content, opened⟩, place⟩ : OpenLabel).put site.place
      insertion = .ok ⟨name, false, items, some ⟨own, content', opened⟩, place⟩ :=
    OpenLabel.put_eq_ok.2 (.inr ⟨⟨own, content, opened⟩, content', rfl, hcontent, rfl⟩)
  exact ⟨_, put_eq_ok.2 ⟨_, _, rfl, hput, rfl⟩, place, opened, rfl⟩

end Draft

namespace Tree

open Draft

variable {importer : Importer} {source : Source} {document : Document} {name own key : String}
variable {items : List BodyItem} {v : Scalar}

theorem writes_pair (hkey : IsKey key) (v : Scalar) (d : Draft) (site : Site) :
    d.Writes site (.assign key v.written) (.pair key v.value) := by
  have hdirect : d.readKey site key = .ok key := by
    rw [readKey, Text.after_eq_none fun h => (hkey.start '$' h).2 (by decide)]
  refine .pair hkey.nonempty hdirect ?_
  rw [readValue, ofToken_written]
  cases v <;> rfl

theorem writes_item (v : Scalar) (d : Draft) (site : Site) :
    d.Writes site (.item v.written) (.item v.value) := by
  refine .item ?_
  rw [readValue, ofToken_written]
  cases v <;> rfl

theorem takes_pair (hkey : IsKey key) {content' : Space} (v : Scalar)
    (hcontent : content.insert key v.value = some content') :
    Takes importer source (Within document name items own content) [.assign key v.written]
      (Within document name items own content') := by
  have hput : (Insertion.pair key v.value).put content = .ok content' := by
    rw [Insertion.put, hcontent]
  exact takes_writes (fun d site _ => writes_pair hkey v d site)
    fun d site hd => exists_put_within site hput hd

theorem takes_item (v : Scalar) :
    Takes importer source (Within document name items own content) [.item v.written]
      (Within document name items own (content.push v.value)) :=
  takes_writes (fun d site _ => writes_item v d site) fun _ site hd => exists_put_within site rfl hd

theorem takes_pairs {pairs : List (String × Scalar)} (h : ∀ pair ∈ pairs, IsKey pair.1)
    (entries : Mapping Value) :
    Takes importer source (Within document name items own (.mapping entries))
      (pairs.map fun pair => .assign pair.1 pair.2.written)
      (Within document name items own
        (.mapping (Mapping.extend entries (pairs.map fun pair => (pair.1, pair.2.value))))) := by
  induction pairs generalizing entries with
  | nil => exact .nil
  | cons pair pairs ih =>
    rw [List.forall_mem_cons] at h
    exact .cons (takes_pair h.1 pair.2 rfl) (ih h.2 _)

theorem takes_items (vs : List Scalar) (done : List Value) :
    Takes importer source (Within document name items own (.list done))
      (vs.map fun v => .item v.written)
      (Within document name items own (.list (done ++ vs.map Scalar.value))) := by
  induction vs generalizing done with
  | nil => simpa using Takes.nil
  | cons v vs ih =>
    have hrest := ih (done ++ [v.value])
    rw [List.append_assoc] at hrest
    exact .cons (takes_item v) hrest

theorem takes_entry {e : Entry} (h : e.Valid) :
    Takes importer source (InBody document name items) e.statements
      (InBody document name (items ++ [.entry e.key e.value])) := by
  cases e with
  | pair key v =>
    exact takes_writes (fun d site _ => writes_pair h.1 v d site) fun d site hd =>
      exists_put_inBody site hd
  | mapping own pairs =>
    -- The first pair makes a mapping of the space, which the others extend.
    obtain ⟨hown, hne, hdistinct, hpairs⟩ := h
    obtain ⟨first, rest, rfl⟩ := List.exists_cons_of_ne_nil hne
    rw [List.forall_mem_cons] at hpairs
    let entry (pair : String × Scalar) : String × Value := (pair.1, pair.2.value)
    have hentries : Mapping.extend [entry first] (rest.map entry) = (first :: rest).map entry := by
      refine Mapping.ofList_of_distinct (m := (first :: rest).map entry) ?_
      rw [Mapping.Distinct, Mapping.keys, List.map_map]
      exact hdistinct
    have hrest : Takes importer source
        (Within document name items own (.mapping [entry first]))
        (rest.map fun pair => .assign pair.1 pair.2.written)
        (Within document name items own (.mapping ((first :: rest).map entry))) := by
      rw [← hentries]
      exact takes_pairs (fun pair hpair => (hpairs.2 pair hpair).1) _
    exact .cons (takes_openSpace hown)
      (.append (.cons (takes_pair hpairs.1.1 first.2 rfl) hrest) takes_closeSpace)
  | list own vs =>
    obtain ⟨hown, hne, _⟩ := h
    obtain ⟨first, rest, rfl⟩ := List.exists_cons_of_ne_nil hne
    exact .cons (takes_openSpace hown)
      (.append (.cons (takes_item first) (takes_items rest [first.value])) takes_closeSpace)
  | null own => exact .cons (takes_openSpace h) takes_closeSpace

theorem takes_entries {entries : List Entry} (h : ∀ e ∈ entries, e.Valid) (items : List BodyItem) :
    Takes importer source (InBody document name items) (entries.flatMap Entry.statements)
      (InBody document name (items ++ entries.map fun e => .entry e.key e.value)) := by
  induction entries generalizing items with
  | nil => simpa using Takes.nil
  | cons e entries ih =>
    rw [List.forall_mem_cons] at h
    have hrest := ih h.2 (items ++ [.entry e.key e.value])
    rw [List.append_assoc] at hrest
    exact .append (takes_entry h.1) hrest

theorem fold_entries (entries : List Entry) :
    BodyItem.fold (entries.map fun e => .entry e.key e.value) =
      Mapping.ofList (entries.map fun e => (e.key, e.value)) := by
  rw [BodyItem.fold, List.foldl_map, Mapping.ofList, Mapping.extend, List.foldl_map]
  rfl

theorem distinct_entries {l : Label} (h : l.Valid) :
    Mapping.Distinct (l.entries.map fun e => (e.key, e.value)) := by
  rw [Mapping.Distinct, Mapping.keys, List.map_map]
  exact h.keys

theorem takes_label {l : Label} (h : l.Valid) (labels : Mapping Value) :
    Takes importer source (Outside ⟨labels, []⟩) l.statements
      (Outside ⟨Mapping.insert labels l.name l.value, []⟩) := by
  have hvalue : l.value = .mapping (BodyItem.fold (l.entries.map fun e => .entry e.key e.value)) := by
    rw [fold_entries, Mapping.ofList_of_distinct (distinct_entries h), Label.value]
  rw [hvalue]
  exact .cons (takes_openLabel h.name) (.append (takes_entries h.entries []) takes_closeLabel)

theorem takes_labels {ls : List Label} (h : ∀ l ∈ ls, l.Valid) (labels : Mapping Value) :
    Takes importer source (Outside ⟨labels, []⟩) (ls.flatMap Label.statements)
      (Outside ⟨Mapping.extend labels (values ls), []⟩) := by
  induction ls generalizing labels with
  | nil => exact .nil
  | cons l ls ih =>
    rw [List.forall_mem_cons] at h
    exact .append (takes_label h.1 labels) (ih h.2 _)

theorem settled_scalar (v : Scalar) : v.value.Settled := by
  cases v with
  | text s => exact .string s
  | truth b => exact .bool b

theorem settled_entry {e : Entry} (h : e.Valid) : e.value.Settled := by
  cases e with
  | pair key v => exact settled_scalar v
  | mapping name pairs =>
    refine .mapping ?_ (List.forall_mem_map.2 fun pair _ => settled_scalar pair.2)
    rw [Mapping.Distinct, Mapping.keys, List.map_map]
    exact h.2.2.1
  | list name items => exact .list (List.forall_mem_map.2 fun v _ => settled_scalar v)
  | null name => exact .null

theorem settled_label {l : Label} (h : l.Valid) : l.value.Settled :=
  .mapping (distinct_entries h) (List.forall_mem_map.2 fun e he => settled_entry (h.entries e he))

end Tree

namespace Document

theorem resolveEach_of_settled {d : Document} {m : Mapping Value}
    (h : ∀ entry ∈ m, entry.2.Settled) : d.resolveEach m = .ok m := by
  have hresolve : ∀ entry ∈ m, d.resolve entry.2 = .ok entry.2 := fun entry hentry =>
    (h entry hentry).resolve d.dereference
  refine resolveEach_eq_ok.2 ⟨fun entry hentry => ⟨_, hresolve entry hentry⟩, ?_⟩
  rw [List.map_congr_left (g := id) fun entry hentry => ?_, List.map_id]
  rw [shownEntry, hresolve entry hentry]
  rfl

end Document

namespace FileTree

/-- A plain value tree that is written out is evaluated to itself, with its labels, entries and items
in their order. -/
theorem labelsOf_text (t : FileTree) (fileName : String) {labels : List Tree.Label}
    (h : Tree.Valid labels) : t.labelsOf (Tree.text labels) fileName = .ok (Tree.values labels) := by
  have hdistinct : Mapping.Distinct (Tree.values labels) := by
    rw [Mapping.Distinct, Mapping.keys, Tree.values, List.map_map]
    exact h.names
  have htakes : Draft.Takes (t.importer [t.canonical (t.absolute fileName)])
      ⟨t.absolute fileName, Tree.text labels⟩ _ _ _ := Tree.takes_labels h.labels []
  obtain ⟨d, s', hrun, rfl⟩ := htakes .empty .empty _ rfl
    (Tree.statements_text h (t.absolute fileName))
  have hread := readDocument_eq_ok.2 ⟨s', hrun⟩
  have hvalues : Mapping.extend [] (Tree.values labels) = Tree.values labels :=
    Mapping.ofList_of_distinct hdistinct
  rw [labelsOf, hread, hvalues]
  exact Document.resolveEach_of_settled
    (List.forall_mem_map.2 fun l hl => Tree.settled_label (h.labels l hl))

theorem labelsOf_text_hostile :
    let labels : List Tree.Label := [
      ⟨"a", [.pair "@k" (.text "[b.c] $d @e -> f&"), .pair "(x" (.text "\x22 < (y)"),
        .mapping "m" [("end", .truth true), ("-> t", .text "%(z)")],
        .list "l" [.text "42", .text "end:", .text ":m", .truth false], .null "n"]⟩,
      ⟨"b", []⟩]
    Tree.Valid labels ∧
      labelsOf ⟨[], []⟩ (Tree.text labels) "main.loon" = .ok (Tree.values labels) := by
  intro labels
  have hvalid : Tree.Valid labels := by
    refine ⟨by decide, fun l hl => ?_⟩
    rcases List.mem_cons.1 hl with rfl | hl
    · exact ⟨by decide, by decide, by decide⟩
    · rw [List.mem_singleton.1 hl]
      exact ⟨by decide, by decide, by decide⟩
  exact ⟨hvalid, labelsOf_text _ _ hvalid⟩

end FileTree

end Loon
