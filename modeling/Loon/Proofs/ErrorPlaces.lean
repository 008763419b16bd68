import Loon.Proofs.ImportCycles
import Loon.Proofs.Positions
import Loon.Proofs.Reading.Throughout
import Loon.Proofs.Resolution.Throughout

namespace Loon

theorem Fault.isSome_label? {fault : Fault} (hread : ∀ path failure, fault ≠ .unreadable path failure)
    (hentry : ∀ path, fault ≠ .invalidEntryFile path) : fault.label?.isSome = true := by
  cases fault with
  | unreadable path failure => exact absurd rfl (hread path failure)
  | invalidEntryFile path => exact absurd rfl (hentry path)
  | _ => rfl

/-- The reference was written on the line: a token of the line stands for it, and it remembers where. -/
structure Placeholder.WrittenOn (source : Source) (line : Line) (p : Placeholder) : Prop where
  token : ∃ token, line.statement.token? = some token ∧
    Value.ofToken token = .placeholder { expr := p.expr }
  origin : p.origin = some ⟨source, line.span⟩

namespace FileTree

variable {t : FileTree} {chain : List Path} {source : Source} {s s' : Session} {e : Error}

def Points (t : FileTree) (source : Source) (e : Error) : Prop :=
  ∃ source' line, t.Includes source source' ∧ line ∈ source'.lines ∧
    e.place = some ⟨source', line.span⟩

theorem points_of_blamedOn {line : Line} (hline : line ∈ source.lines)
    (h : e.BlamedOn [⟨source, line.span⟩]) : t.Points source e := by
  obtain ⟨_, place, hplace, he⟩ := h
  obtain rfl := List.mem_singleton.1 hplace
  exact ⟨source, line, .self, hline, he⟩

theorem points_of_read {r : Reader}
    (h : (Reader.ofSource source).read (t.importer chain) s = (.error e, r, s'))
    (hread : ∀ path failure, e.fault ≠ .unreadable path failure) :
    t.Points source e ∧ e.fault.isOfReferences = false ∧ ∀ path, e.fault ≠ .invalidEntryFile path := by
  induction chain using t.chain_induction generalizing source s s' r with
  | h chain ih =>
    obtain ⟨line, hmem, hblamed | ⟨target, s₁, hline, himport⟩⟩ := Reader.blamedOn_of_read h
    · refine ⟨points_of_blamedOn hmem hblamed, ?_, ?_⟩
      · have := hblamed.ofLine
        rw [Fault.isOfLine, Bool.and_eq_true, Bool.not_eq_true'] at this
        simpa using this.2
      · intro path he
        have := hblamed.ofLine
        rw [he] at this
        cases this
    · rw [importer_eq] at himport
      split at himport
      · cases himport
        exact ⟨⟨source, line, .self, hmem, rfl⟩, rfl, nofun⟩
      next l hfind =>
        split at himport
        · cases himport
          exact ⟨⟨source, line, .self, hmem, rfl⟩, rfl, nofun⟩
        next hnew =>
          split at himport
          · cases himport
            exact absurd rfl (hread _ _)
          next content hcontent =>
            split at himport
            · cases himport
            next hnested =>
              cases himport
              obtain ⟨⟨source', line', hincludes, hline', he⟩, hrest⟩ :=
                ih l content hcontent (by simpa using hnew) hnested
              exact ⟨⟨source', line', .imported hmem hline hfind hcontent hincludes, hline', he⟩, hrest⟩

end FileTree

namespace Document

theorem exists_of_resolveEach_error {d : Document} {m : Mapping Value} {e : Error}
    (h : d.resolveEach m = .error e) : ∃ entry ∈ m, d.resolve entry.2 = .error e := by
  induction m with
  | nil => cases h
  | cons entry m ih =>
    rw [resolveEach] at h
    cases hw : d.resolve entry.2 with
    | error e' =>
      rw [hw] at h
      cases h
      exact ⟨entry, List.mem_cons_self .., hw⟩
    | ok w =>
      rw [hw] at h
      cases hrest : d.resolveEach m with
      | error e' =>
        rw [hrest] at h
        cases h
        obtain ⟨entry', hentry, he⟩ := ih hrest
        exact ⟨entry', List.mem_cons_of_mem _ hentry, he⟩
      | ok R =>
        rw [hrest] at h
        cases h

theorem exists_of_resolvedLabels_error {d : Document} {e : Error} (h : d.resolvedLabels = .error e) :
    ∃ p ∈ d.placeholders, (∃ name, e = danglingError p name) ∨ ∃ stack, e = cycleError stack p := by
  obtain ⟨entry, hentry, he⟩ := exists_of_resolveEach_error h
  have hends := d.ends_resolve_references (fun _ hp => hp) fun _ hp =>
    List.mem_append_left _ (Value.mem_placeholdersOfEntries hentry hp)
  cases hends.of_eq_error he with
  | dangling hp => exact ⟨_, hp _ rfl, .inl ⟨_, rfl⟩⟩
  | cycle hp => exact ⟨_, hp _ rfl, .inr ⟨_, rfl⟩⟩

end Document

namespace FileTree

variable {t : FileTree} {text fileName : String}

def IsWritten (t : FileTree) (source : Source) (p : Placeholder) : Prop :=
  ∃ source' line, t.Includes source source' ∧ line ∈ source'.lines ∧ p.WrittenOn source' line

theorem IsWritten.merging {source : Source} {p : Placeholder} (h : t.IsWritten source p) :
    t.IsWritten source { p with merge := true } :=
  let ⟨source', line, hincludes, hline, hwritten⟩ := h
  ⟨source', line, hincludes, hline, hwritten.token, hwritten.origin⟩

theorem tokens_isWritten {source source' : Source} (h : t.Includes source source') :
    source'.Tokens (Value.References (t.IsWritten source)) :=
  Source.tokens_references fun line hline token _ htoken hexpr _ horigin =>
    ⟨source', line, h, hline, ⟨token, htoken, hexpr⟩, horigin⟩

theorem isWritten_of_mem_placeholders {d : Document} {p : Placeholder}
    (h : (t.readDocument text fileName).1 = .ok d) (hp : p ∈ d.placeholders) :
    t.IsWritten ⟨t.absolute fileName, text⟩ p := by
  obtain ⟨s', hreads⟩ := readDocument_eq_ok.1 h
  obtain ⟨hd, _⟩ := hreads.sound (Value.ofUnmarked_references fun _ hp => hp.merging)
    fun _ => tokens_isWritten
  exact hd.references p hp

/-- Every error but that of a file which cannot be read has words for one place, a line of the text that
is analysed or of one that it imports. Where a reference dangles or closes a cycle, it is the line on
which this reference was written. -/
theorem analysisOf_error_place {e : Error} (h : (t.analysisOf text fileName).1 = .error e)
    (hread : ∀ path failure, e.fault ≠ .unreadable path failure) :
    ∃ source line, t.Includes ⟨t.absolute fileName, text⟩ source ∧ line ∈ source.lines ∧
      e.place = some ⟨source, line.span⟩ ∧ source.Covers line.span line.text ∧
      (∃ words, e.fault.label? = some words) ∧
      (e.IsDangling ∨ e.IsCycle → ∃ d p, (t.readDocument text fileName).1 = .ok d ∧
        p ∈ d.placeholders ∧ p.WrittenOn source line ∧
        ((∃ name, e = Document.danglingError p name) ∨ ∃ stack, e = Document.cycleError stack p)) := by
  rw [analysisOf] at h
  split at h
  next hdocument =>
    cases h
    obtain ⟨r, s', hfailed⟩ := read_of_readDocument_error (Prod.ext_iff.1 hdocument).1
    obtain ⟨⟨source, line, hincludes, hline, he⟩, hreferences, hentry⟩ := points_of_read hfailed hread
    refine ⟨source, line, hincludes, hline, he, Source.covers_of_mem_lines hline,
      Option.isSome_iff_exists.1 (Fault.isSome_label? hread hentry), ?_⟩
    rintro (⟨reference, name, hfault⟩ | ⟨names, hfault⟩)
    · rw [hfault] at hreferences
      cases hreferences
    · rw [hfault] at hreferences
      cases hreferences
  next d s hdocument =>
    have hdocument := (Prod.ext_iff.1 hdocument).1
    dsimp only at h
    split at h
    next hlabels =>
      cases h
      obtain ⟨p, hp, he⟩ := Document.exists_of_resolvedLabels_error hlabels
      obtain ⟨source, line, hincludes, hline, hwritten⟩ := isWritten_of_mem_placeholders hdocument hp
      refine ⟨source, line, hincludes, hline, ?_, Source.covers_of_mem_lines hline, ?_,
        fun _ => ⟨d, p, hdocument, hp, hwritten, he⟩⟩
      · rw [← hwritten.origin]
        rcases he with ⟨name, rfl⟩ | ⟨stack, rfl⟩ <;> rfl
      · rcases he with ⟨name, rfl⟩ | ⟨stack, rfl⟩ <;> exact ⟨_, rfl⟩
    · cases h

theorem analysisOf_error_place_copied :
    let remote : Source := ⟨"/h.loon", "%(größe)\n  weg = [étoile.x]\nend\n"⟩
    let t : FileTree := ⟨[], [(["h.loon"], .text remote.text)]⟩
    ∃ e line p, (t.analysisOf "@h.loon\n(copy)\n-> größe.weg\nend\n" "main.loon").1 = .error e ∧
      e.fault = .dangling "étoile.x" "étoile" ∧ e.place = some ⟨remote, ⟨13, 17⟩⟩ ∧
      line ∈ remote.lines ∧ remote.Covers ⟨13, 17⟩ line.text ∧ p.WrittenOn remote line ∧
      e = Document.danglingError p "étoile" := by
  intro remote t
  let result := (t.analysisOf "@h.loon\n(copy)\n-> größe.weg\nend\n" "main.loon").1
  have hresult : (match result with | .error e => some e | .ok _ => none) =
      some ⟨.dangling "étoile.x" "étoile", some ⟨remote, ⟨13, 17⟩⟩⟩ := by decide +kernel
  cases he : result with
  | ok a =>
    rw [he] at hresult
    cases hresult
  | error e =>
    rw [he] at hresult
    cases hresult
    obtain ⟨source, line, _, hline, hplace, hcovers, _, hreference⟩ :=
      analysisOf_error_place he fun _ _ => nofun
    obtain ⟨rfl, hspan⟩ := Place.mk.inj (Option.some.inj hplace)
    obtain ⟨d, p, _, _, hwritten, ⟨name, hdangling⟩ | ⟨stack, hcycle⟩⟩ :=
      hreference (.inl ⟨_, _, rfl⟩)
    · obtain rfl : name = "étoile" := (Fault.dangling.inj (congrArg Error.fault hdangling)).2.symm
      exact ⟨_, line, p, he, rfl, rfl, hline, hspan ▸ hcovers, hwritten, hdangling⟩
    · cases congrArg Error.fault hcycle

end FileTree

end Loon
