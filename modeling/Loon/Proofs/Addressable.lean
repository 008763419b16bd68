import Loon.Proofs.Address
import Loon.Proofs.Reading.Throughout
import Loon.Proofs.Resolution.CycleGuard
import Loon.Proofs.Resolution.Throughout

namespace Loon

structure Placeholder.Complete (p : Placeholder) : Prop where
  address : (Address.parse p.expr).isSome = true
  origin : p.origin.isSome = true

theorem Placeholder.Complete.merging {p : Placeholder} (h : p.Complete) :
    Complete { p with merge := true } := ⟨h.address, h.origin⟩

theorem Source.tokens_complete (source : Source) :
    source.Tokens (Value.References Placeholder.Complete) :=
  tokens_references fun _ _ _ _ _ _ haddress horigin => ⟨haddress, by rw [horigin]; rfl⟩

namespace Document

variable {d : Document} {v w : Value} {e : Error}

/-- The address leads to the value: its text is read as the address, looking it up finds the value, and
following it never ends with a name of it missing. -/
structure Refers (d : Document) (a : Address) (v : Value) : Prop where
  parse : Address.parse a.text = some a
  lookup : d.lookup a = .ok (some v)
  found : ∀ p e name, p.expr = a.text → d.resolve (.placeholder p) = .error e →
    e.fault ≠ .dangling a.text name

theorem lacks_of_dangling {reference name : String} (h : d.resolve v = .error e)
    (he : e.fault = .dangling reference name) : d.Lacks reference name := by
  have hends := ends_resolve (d := d) (Q := fun _ => True) (v := v)
    ⟨trivial, fun _ => trivial, fun _ => trivial⟩ (fun _ _ _ _ _ => trivial) fun _ _ => trivial
  cases hends.of_eq_error h with
  | dangling _ hlacks =>
    cases he
    exact hlacks
  | cycle => cases he

theorem refers_label {name : String} (hname : Name.isValid name.toList = true)
    (h : d.find? name = some v) : d.Refers ⟨name, none, none⟩ v where
  parse := Address.parse_text ⟨hname, nofun, nofun⟩
  lookup := by
    rw [Document.lookup, h]
    rfl
  found p e missing _ he hfault := by
    have hparse := Address.parse_text (a := ⟨name, none, none⟩) ⟨hname, nofun, nofun⟩
    cases lacks_of_dangling he hfault with
    | address hnone => cases hparse.symm.trans hnone
    | label ha hnone =>
      cases hparse.symm.trans ha
      cases h.symm.trans hnone
    | space ha _ hspace =>
      cases hparse.symm.trans ha
      cases hspace

theorem refers_space {name space : String} (hname : Name.isValid name.toList = true)
    (hspace : Name.isValid space.toList = true) (h : d.find? name = some v)
    (hw : v.get? space = some w) (hmerges : w.merges = false) :
    d.Refers ⟨name, some space, none⟩ w where
  parse := Address.parse_text ⟨hname, by simpa using hspace, nofun⟩
  lookup := by
    rw [Document.lookup, h]
    dsimp only
    rw [hw]
    rfl
  found p e missing _ he hfault := by
    have hparse := Address.parse_text (a := ⟨name, some space, none⟩)
      ⟨hname, by simpa using hspace, nofun⟩
    cases lacks_of_dangling he hfault with
    | address hnone => cases hparse.symm.trans hnone
    | label ha hnone =>
      cases hparse.symm.trans ha
      cases h.symm.trans hnone
    | space ha hlabel hspace hmerging =>
      cases hparse.symm.trans ha
      cases h.symm.trans hlabel
      cases hspace
      rw [hmerging w hw] at hmerges
      cases hmerges

theorem resolve_label {p : Placeholder} {name : String}
    (hp : Address.parse p.expr = some ⟨name, none, none⟩) (h : d.find? name = some v) :
    d.resolve (.placeholder p) = .ok w ↔ d.resolve v = .ok w := by
  have hround : ∀ depth, (Value.placeholder p).resolve (d.followWithin (depth + 1)) =
      v.resolve (d.followWithin depth) := by
    intro depth
    change d.dereferenceOnce (d.followWithin depth) p = _
    rw [dereferenceOnce, hp]
    dsimp only
    rw [h]
    rfl
  rw [(d.resolve_iff_follow _).2.1, (d.resolve_iff_follow _).2.1]
  constructor
  · rintro ⟨_ | depth, hdepth⟩
    · cases hdepth
    · exact ⟨depth, hround depth ▸ hdepth⟩
  · rintro ⟨depth, hdepth⟩
    exact ⟨depth + 1, (hround depth).trans hdepth⟩

theorem valid_of_lacks {reference name : String} (h : d.Lacks reference name)
    (hreference : (Address.parse reference).isSome = true) : Name.isValid name.toList = true := by
  cases h with
  | address hnone =>
    rw [hnone] at hreference
    cases hreference
  | label ha => exact (Address.valid_of_parse ha).label
  | space ha _ hspace => exact (Address.valid_of_parse ha).space _ hspace

theorem address_of_dangling (hd : ∀ p ∈ d.placeholders, (Address.parse p.expr).isSome = true)
    (hv : ∀ p ∈ v.placeholders, (Address.parse p.expr).isSome = true) {reference name : String}
    (h : d.resolve v = .error e) (he : e.fault = .dangling reference name) :
    (Address.parse reference).isSome = true := by
  cases (d.ends_resolve_references hd hv).of_eq_error h with
  | dangling hp =>
    cases he
    exact hp _ rfl
  | cycle => cases he

end Document

namespace FileTree

variable {t : FileTree} {text fileName : String}

/-- What a text is read to is well formed: labels and registered spaces stand under valid names, labels
are mappings, and references are well formed and know their places. So each label that no hidden one
shadows is found under its name, each space of it under both names, and a reference that dangles lacks
a label or a space of some valid name. -/
theorem readDocument_addressable {d : Document} {s : Session}
    (h : t.readDocument text fileName = (.ok d, s)) :
    (∀ entry ∈ d.labels ++ d.hidden,
      Name.isValid entry.1.toList = true ∧ ∃ body, entry.2 = .mapping body) ∧
    (∀ entry ∈ s.spaces, Name.isValid entry.1.toList = true) ∧
    (∀ p ∈ d.placeholders ++ Value.placeholdersOfEntries s.spaces, p.Complete) ∧
    (∀ name v, d.find? name = some v → d.Refers ⟨name, none, none⟩ v ∧
      (∀ p w, Address.parse p.expr = some ⟨name, none, none⟩ →
        (d.resolve (.placeholder p) = .ok w ↔ d.resolve v = .ok w)) ∧
      ∀ space w, space ∈ Mapping.keys s.spaces ∨ Name.isValid space.toList = true →
        v.get? space = some w → w.merges = false → d.Refers ⟨name, some space, none⟩ w) ∧
    ∀ v e reference name, (∀ p ∈ v.placeholders, (Address.parse p.expr).isSome = true) →
      d.resolve v = .error e → e.fault = .dangling reference name →
      d.Lacks reference name ∧ (Address.parse reference).isSome = true ∧
        Name.isValid name.toList = true := by
  obtain ⟨s₁, hreads, rfl⟩ := reads_of_readDocument h
  obtain ⟨hd, hs⟩ := hreads.sound (Value.ofUnmarked_references fun _ hp => hp.merging)
    fun source' _ => source'.tokens_complete
  have hspace : ∀ entry ∈ s₁.spaces, Session.IsSpace (Value.References Placeholder.Complete) entry :=
    fun entry hentry => (hs entry hentry).resolve_left nofun
  have hreferences := hd.references
  refine ⟨?_, fun entry hentry => (hspace entry hentry).name, ?_, ?_, ?_⟩
  · rw [List.forall_mem_append]
    exact ⟨fun entry hentry => ⟨(hd.labels entry hentry).name, (hd.labels entry hentry).mapping⟩,
      fun entry hentry => ⟨(hd.hidden entry hentry).name, (hd.hidden entry hentry).mapping⟩⟩
  · rw [List.forall_mem_append]
    exact ⟨hreferences, Value.throughout_references_entries.1 fun entry hentry =>
      (hspace entry hentry).value⟩
  · intro name v hfind
    have hname := (hd.mem_of_find? hfind).name
    refine ⟨Document.refers_label hname hfind, fun p w hp => Document.resolve_label hp hfind, ?_⟩
    intro space w hspaces hw hmerges
    have hvalid : Name.isValid space.toList = true := by
      refine hspaces.elim (fun hmem => ?_) id
      obtain ⟨entry, hentry, rfl⟩ := List.mem_map.1 hmem
      exact (hspace entry hentry).name
    exact Document.refers_space hname hvalid hfind hw hmerges
  · intro v e reference name hv he hfault
    have haddress := Document.address_of_dangling (fun p hp => (hreferences p hp).address) hv he hfault
    have hlacks := Document.lacks_of_dangling he hfault
    exact ⟨hlacks, haddress, Document.valid_of_lacks hlacks haddress⟩

theorem readDocument_addressable_space :
    let text := "(n)\n:s\nx = [m.y]\nend:\nend\n"
    ∃ d s v w, readDocument ⟨[], []⟩ text "main.loon" = (.ok d, s) ∧
      d.find? "n" = some v ∧ v.get? "s" = some w ∧ w.hasPlaceholder = true ∧
      d.lookup ⟨"n", some "s", none⟩ = .ok (some w) ∧
      (∀ p ∈ d.placeholders, p.Complete) ∧ d.Refers ⟨"n", some "s", none⟩ w := by
  intro text
  let result := readDocument ⟨[], []⟩ text "main.loon"
  let find := fun d : Document => (d.find? "n").bind (·.get? "s")
  have hfound : (result.1.toOption.bind find).map (fun w => (w.merges, w.hasPlaceholder)) =
      some (false, true) := by decide +kernel
  obtain ⟨w, hw, hflags⟩ := Option.map_eq_some_iff.1 hfound
  obtain ⟨d, hd, hfind⟩ := Option.bind_eq_some_iff.1 hw
  obtain ⟨v, hv, hspace⟩ := Option.bind_eq_some_iff.1 hfind
  obtain ⟨hmerges, hpending⟩ := Prod.mk.inj hflags
  have hread : result = (.ok d, result.2) := Prod.ext (toOption_eq_some.1 hd) rfl
  obtain ⟨_, _, hcomplete, hrefers, _⟩ := readDocument_addressable hread
  have hs := (hrefers "n" v hv).2.2 "s" w (.inr (by decide)) hspace hmerges
  exact ⟨d, _, v, w, hread, hv, hspace, hpending, hs.lookup,
    fun p hp => hcomplete p (List.mem_append_left _ hp), hs⟩

/-- A visible label is not the one that its name refers to once a file imported inside a label brings
another one for references only: its space is missed. -/
theorem readDocument_shadowed :
    let t : FileTree := ⟨[], [(["b.loon"], .text "(n)\nend\n")]⟩
    let text := "(n)\n:s\nx = v\nend:\nend\n(m)\n@b.loon\nend\n"
    ∃ d v w e, (t.readDocument text "main.loon").1 = .ok d ∧ Mapping.get? d.labels "n" = some v ∧
      v.get? "s" = some w ∧ w.merges = false ∧
      d.resolve (.placeholder { expr := "n:s" }) = .error e ∧ e.fault = .dangling "n:s" "s" := by
  intro t text
  let result := (t.readDocument text "main.loon").1
  let find := fun d : Document => (Mapping.get? d.labels "n").bind (·.get? "s")
  let fails := fun d : Document =>
    ((d.resolve (.placeholder { expr := "n:s" })).mapError Error.fault).map fun _ => ()
  have hfound : (result.toOption.bind fun d => (find d).map fun w => (w.merges, fails d)) =
      some (false, .error (.dangling "n:s" "s")) := by decide +kernel
  obtain ⟨d, hd, hd'⟩ := Option.bind_eq_some_iff.1 hfound
  obtain ⟨w, hw, hflags⟩ := Option.map_eq_some_iff.1 hd'
  obtain ⟨v, hv, hspace⟩ := Option.bind_eq_some_iff.1 hw
  obtain ⟨hmerges, hfails⟩ := Prod.mk.inj hflags
  cases he : d.resolve (.placeholder { expr := "n:s" }) with
  | ok r => simp [fails, he, Except.mapError, Except.map] at hfails
  | error e =>
    simp only [fails, he, Except.mapError, Except.map, Except.error.injEq] at hfails
    exact ⟨d, v, w, e, toOption_eq_some.1 hd, hv, hspace, hmerges, he, hfails⟩

end FileTree

end Loon
