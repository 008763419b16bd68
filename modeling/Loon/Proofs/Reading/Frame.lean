import Loon.Proofs.Reading.Parts

/-!
What is read does not depend on labels that stand before it under other names. Lines that can be read
by themselves look up no label but their own, so they are read to the same after any document that has
no name in common with what they define.
-/

namespace Loon

namespace Document

variable {d other : Document} {name : String}

theorem names_subset_define (d : Document) (own : String) (hidden : Bool) (body : Mapping Value) :
    d.names ⊆ (d.define own hidden body).names := by
  intro name hname
  by_contra hnone
  rw [← find?_eq_none, find?_define] at hnone
  split at hnone
  · cases hnone
  · exact find?_eq_none.1 hnone hname

theorem mem_names_define (d : Document) (own : String) (hidden : Bool) (body : Mapping Value) :
    own ∈ (d.define own hidden body).names := by
  by_contra hnone
  rw [← find?_eq_none, find?_define, if_pos rfl] at hnone
  cases hnone

theorem find?_append_of_notMem (h : name ∉ d.names) :
    (d.append other).find? name = other.find? name := by
  rw [mem_names, not_or, ← Mapping.get?_eq_none_iff, ← Mapping.get?_eq_none_iff] at h
  rw [find?, append, Mapping.get?_append, Mapping.get?_append, h.1, h.2]
  rfl

theorem defines_append_of_notMem (h : name ∉ d.names) :
    (d.append other).defines name = other.defines name := by
  rw [mem_names, not_or, ← Mapping.get?_eq_none_iff, ← Mapping.get?_eq_none_iff] at h
  rw [defines, append, Mapping.contains, Mapping.contains, Mapping.get?_append, Mapping.get?_append,
    h.1, h.2]
  rfl

theorem append_define (h : name ∉ d.names) (hidden : Bool) (body : Mapping Value) :
    (d.append other).define name hidden body = d.append (other.define name hidden body) := by
  have hinsert : ∀ {m m' : Mapping Value} (v : Value), name ∉ Mapping.keys m →
      Mapping.insert (m ++ m') name v = m ++ Mapping.insert m' name v := fun v hm =>
    (Mapping.insert_append ..).trans (if_neg hm)
  have herase : ∀ {m m' : Mapping Value}, name ∉ Mapping.keys m →
      Mapping.erase (m ++ m') name = m ++ Mapping.erase m' name := fun {m m'} hm =>
    (List.filter_append m m').trans (congrArg (· ++ _) (Mapping.erase_of_notMem hm))
  rw [mem_names, not_or] at h
  cases hidden with
  | false => exact congrArg₂ Document.mk (hinsert _ h.1) (herase h.2)
  | true => exact congrArg₂ Document.mk (herase h.1) (hinsert _ h.2)

theorem Apart.lookup_append {a : Address} {x : Option Value} (h : d.Apart other)
    (hlookup : other.lookup a = .ok x) : (d.append other).lookup a = .ok x := by
  have hname : a.label ∈ other.names := by
    by_contra hnone
    rw [← find?_eq_none] at hnone
    rw [lookup, hnone] at hlookup
    cases hlookup
  rw [lookup, find?_append_of_notMem fun hd => h _ hd hname, ← lookup, hlookup]

end Document

namespace Draft

variable {importer : Importer} {source : Source} {E D : Document} {current : Option OpenLabel}
variable {d' : Draft} {s s' : Session} {line : Line} {lines : List Line} {site : Site}

theorem names_subset_step (hline : ∀ target, line.statement ≠ .importFile target)
    (h : step importer source ⟨D, current⟩ s line = (.ok d', s')) : D.names ⊆ d'.document.names := by
  cases step_eq_ok.1 h with
  | openLabel | openSpace | closeSpace => exact List.Subset.refl _
  | closeLabel => exact D.names_subset_define _ _ _
  | imports hstatement => exact absurd hstatement (hline _)
  | writes _ hput =>
    rw [document_of_put hput]
    exact List.Subset.refl _

theorem names_subset_run (hlines : ∀ line ∈ lines, ∀ target, line.statement ≠ .importFile target)
    (h : run importer source lines ⟨D, current⟩ s = (none, d', s')) : D.names ⊆ d'.document.names := by
  induction lines generalizing D current s with
  | nil =>
    cases h
    exact List.Subset.refl _
  | cons line lines ih =>
    rw [List.forall_mem_cons] at hlines
    obtain ⟨⟨D₁, current₁⟩, s₁, hstep, hrest⟩ := run_cons_eq_none.1 h
    exact List.Subset.trans (names_subset_step hlines.1 hstep) (ih hlines.2 hrest)

theorem Writes.frame {statement : Statement} {insertion : Insertion} (hE : E.Apart D)
    (h : Writes ⟨D, current⟩ site statement insertion) :
    Writes ⟨E.append D, current⟩ site statement insertion := by
  cases h with
  | pair hne hkey hv =>
    refine .pair hne ?_ hv
    rw [readKey] at hkey ⊢
    split
    next hafter =>
      rw [hafter] at hkey
      obtain ⟨a, ha, hlookup⟩ := bind_eq_ok.1 hkey
      refine bind_eq_ok.2 ⟨a, ha, ?_⟩
      split at hlookup
      next v hv =>
        dsimp only at hv ⊢
        rw [hE.lookup_append hv]
        exact hlookup
      · cases hlookup
      · cases hlookup
    next hafter =>
      rw [hafter] at hkey
      exact hkey
  | item hv => exact .item hv
  | value ha hv hlabel hfits => exact .value ha (hE.lookup_append hv) hlabel hfits
  | copy ha hv => exact .copy ha (hE.lookup_append hv)

theorem step_frame (hline : ∀ target, line.statement ≠ .importFile target)
    (h : step importer source ⟨D, current⟩ s line = (.ok d', s')) (hE : E.Apart d'.document) :
    step importer source ⟨E.append D, current⟩ s line =
      (.ok ⟨E.append d'.document, d'.current⟩, s') := by
  have happart : E.Apart D := fun name hname hmem => hE name hname (names_subset_step hline h hmem)
  rw [step_eq_ok] at h ⊢
  cases h with
  | openLabel hstatement hnone hname => exact .openLabel hstatement hnone hname
  | openSpace hstatement hlabel hnone hname => exact .openSpace hstatement hlabel hnone hname
  | closeSpace hstatement hlabel hspace => exact .closeSpace hstatement hlabel hspace
  | imports hstatement => exact absurd hstatement (hline _)
  | writes hwrites hput =>
    obtain ⟨hdocument, hput⟩ := put_replace hput (E.append D)
    rw [hdocument]
    exact .writes (hwrites.frame happart) hput
  | @closeLabel label hstatement hlabel hspace =>
    have hown : label.name ∉ E.names := fun hmem => hE _ hmem (D.mem_names_define _ _ _)
    have hclose : Step importer source ⟨E.append D, current⟩ s line _ _ :=
      .closeLabel hstatement hlabel hspace
    rw [closingRecords, Document.defines_append_of_notMem hown, Document.append_define hown] at hclose
    exact hclose

theorem run_frame (hlines : ∀ line ∈ lines, ∀ target, line.statement ≠ .importFile target)
    (h : run importer source lines ⟨D, current⟩ s = (none, d', s')) (hE : E.Apart d'.document) :
    run importer source lines ⟨E.append D, current⟩ s =
      (none, ⟨E.append d'.document, d'.current⟩, s') := by
  induction lines generalizing D current s with
  | nil =>
    cases h
    rfl
  | cons line lines ih =>
    rw [List.forall_mem_cons] at hlines
    obtain ⟨⟨D₁, current₁⟩, s₁, hstep, hrest⟩ := run_cons_eq_none.1 h
    have happart : E.Apart D₁ := fun name hname hmem =>
      hE name hname (names_subset_run hlines.2 hrest hmem)
    exact run_cons_eq_none.2 ⟨_, s₁, step_frame hlines.1 hstep happart, ih hlines.2 hrest⟩

end Draft

end Loon
