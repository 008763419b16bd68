import Loon.Proofs.Locations
import Loon.Proofs.Reading.Faults
import Loon.Proofs.Reading.InPlace
import Loon.Proofs.Resolution.CycleGuard
import Mathlib.Data.List.Chain
import Mathlib.Data.List.Nodup

namespace Loon

namespace FileTree

open Relation (ReflTransGen TransGen)

variable {t : FileTree} {chain : List Path} {source : Source} {l l' last : Location}

variable (t) in
def Imports (l l' : Location) : Prop :=
  ∃ content target, t.read l = .ok content ∧
    (∃ line ∈ (sourceAt l content).lines, line.statement = .importFile target) ∧
    t.locateTarget (Path.ofLocation l) target = .ok l'

variable (t) in
structure IsSource (l : Location) (source : Source) : Prop where
  way : t.IsWay l
  read : t.read l = .ok source.text
  targets : ∀ target,
    t.locateTarget (Path.ofText source.name) target = t.locateTarget (Path.ofLocation l) target

theorem isSource_sourceAt (hway : t.IsWay l) {content : String} (hread : t.read l = .ok content) :
    t.IsSource l (sourceAt l content) where
  way := hway
  read := hread
  targets := fun target => by rw [sourceAt, Path.ofText_ofLocation hway.names]

theorem isSource_of_locate (h : t.HasCurrent) {path text : String}
    (hloon : Path.isLoonFile path = true) (hpath : t.locate path = .ok l) (hread : t.read l = .ok text) :
    t.IsSource l ⟨t.absolute path, text⟩ where
  way := isWay_of_locate h hpath
  read := hread
  targets := locateTarget_absolute h hloon hpath

theorem locateTarget_of_findTarget {importer : Path} {target : String}
    (h : t.findTarget importer target = .ok l) : t.locateTarget importer target = .ok l := by
  rw [findTarget] at h
  split at h
  · cases h
  · split at h
    next hlocate =>
      cases h
      exact hlocate
    · cases h

namespace IsSource

theorem imports_of_line (h : t.IsSource l source) {line : Line} {target : String}
    (hmem : line ∈ source.lines) (hline : line.statement = .importFile target)
    (hfind : t.findTarget (Path.ofText source.name) target = .ok l') : t.Imports l l' :=
  ⟨source.text, target, h.read, ⟨line, hmem, hline⟩,
    h.targets target ▸ locateTarget_of_findTarget hfind⟩

theorem exists_line_of_imports (h : t.IsSource l source) (himports : t.Imports l l') :
    ∃ line ∈ source.lines, ∃ target, line.statement = .importFile target ∧
      t.locateTarget (Path.ofText source.name) target = .ok l' := by
  obtain ⟨content, target, hread, ⟨line, hmem, hline⟩, htarget⟩ := himports
  rw [h.read] at hread
  cases hread
  exact ⟨line, hmem, target, hline, (h.targets target).trans htarget⟩

theorem isWay_of_findTarget (h : t.IsSource l source) (hcurrent : t.HasCurrent) {target : String}
    (hfind : t.findTarget (Path.ofText source.name) target = .ok l') : t.IsWay l' :=
  isWay_of_locateTarget hcurrent h.way (h.targets target ▸ locateTarget_of_findTarget hfind)

end IsSource

theorem Reads.imported {d : Document} {s s' : Session} (hreads : t.Reads chain source s d s')
    (hcurrent : t.HasCurrent) (hsource : t.IsSource l source) (himports : t.Imports l l') :
    chain.any (·.isAt l') = false ∧ ∃ source' d' s₁ s₂, t.IsSource l' source' ∧
      t.Reads (chain ++ [Path.ofLocation l']) source' s₁ d' s₂ := by
  obtain ⟨line, hmem, target, hline, htarget⟩ := hsource.exists_line_of_imports himports
  obtain ⟨before, after, hlines⟩ := List.append_of_mem hmem
  rw [Reads, hlines, Draft.run_append_eq_none] at hreads
  obtain ⟨d₁, s₁, _, hafter⟩ := hreads
  obtain ⟨d₂, s₂, hstep, _⟩ := Draft.run_cons_eq_none.1 hafter
  obtain ⟨other, hother, _⟩ := Draft.step_importFile hline hstep
  obtain ⟨found, content, _, hfind, hnew, hread, hnested, _⟩ := reads_of_importer (Prod.ext hother rfl)
  have hfound : found = l' := by
    have := (locateTarget_of_findTarget hfind).symm.trans htarget
    cases this
    rfl
  subst hfound
  have hway := hsource.isWay_of_findTarget hcurrent hfind
  exact ⟨hnew, sourceAt found content, other, _, _, isSource_sourceAt hway hread, hnested⟩

theorem Reads.not_reaches_chain {d : Document} {s s' : Session} (hreads : t.Reads chain source s d s')
    (hcurrent : t.HasCurrent) (hsource : t.IsSource l source) (hpath : TransGen t.Imports l l') :
    chain.any (·.isAt l') = false := by
  -- The chain only grows along the path, so a file that is not on a longer one was not on this one.
  induction hpath using TransGen.head_induction_on generalizing chain source d s s' with
  | single himports => exact (hreads.imported hcurrent hsource himports).1
  | head himports _ ih =>
    obtain ⟨_, _, _, _, _, hnext, hnested⟩ := hreads.imported hcurrent hsource himports
    have hlonger := ih hnested hnext
    rw [List.any_append, Bool.or_eq_false_iff] at hlonger
    exact hlonger.1

theorem Reads.of_reaches {d : Document} {s s' : Session} (hreads : t.Reads chain source s d s')
    (hcurrent : t.HasCurrent) (hsource : t.IsSource l source) (hself : chain.any (·.isAt l) = true)
    (hpath : ReflTransGen t.Imports l l') :
    ∃ chain' source' d' s₁ s₂, chain'.any (·.isAt l') = true ∧ t.IsSource l' source' ∧
      t.Reads chain' source' s₁ d' s₂ := by
  induction hpath using ReflTransGen.head_induction_on generalizing chain source d s s' with
  | refl => exact ⟨chain, source, d, s, s', hself, hsource, hreads⟩
  | head himports _ ih =>
    obtain ⟨_, _, _, _, _, hnext, hnested⟩ := hreads.imported hcurrent hsource himports
    exact ih hnested hnext (by simp)

/-- Where reading succeeds, no file that it came to leads back to itself. -/
theorem Reads.acyclic {d : Document} {s s' : Session} (hreads : t.Reads chain source s d s')
    (hcurrent : t.HasCurrent) (hsource : t.IsSource l source) (hself : chain.any (·.isAt l) = true)
    (hpath : ReflTransGen t.Imports l l') : ¬ TransGen t.Imports l' l' := by
  obtain ⟨chain', source', _, _, _, hon, hsource', hreads'⟩ :=
    hreads.of_reaches hcurrent hsource hself hpath
  intro hcycle
  rw [hreads'.not_reaches_chain hcurrent hsource' hcycle] at hon
  cases hon

variable {files : List Location}

variable (t) in
/-- Each file imports the next one, and the last one is one of those before it, which are all
different. -/
structure Cycle (files : List Location) (last : Location) : Prop where
  linked : (files ++ [last]).IsChain t.Imports
  distinct : files.Nodup
  back : last ∈ files

variable (t) in
structure Trail (files : List Location) (l : Location) : Prop where
  last : files.getLast? = some l
  linked : files.IsChain t.Imports
  distinct : files.Nodup

namespace Trail

theorem one (l : Location) : t.Trail [l] l := ⟨rfl, .singleton l, List.nodup_singleton l⟩

theorem linked_append (h : t.Trail files l) (himports : t.Imports l l') :
    (files ++ [l']).IsChain t.Imports := by
  refine h.linked.append (.singleton _) fun x hx y hy => ?_
  rw [h.last, Option.mem_some_iff] at hx
  rw [List.head?_cons, Option.mem_some_iff] at hy
  subst hx hy
  exact himports

theorem append (h : t.Trail files l) (himports : t.Imports l l') (hnew : l' ∉ files) :
    t.Trail (files ++ [l']) l' where
  last := List.getLast?_concat
  linked := h.linked_append himports
  distinct := by
    rw [← List.concat_eq_append]
    exact List.Nodup.concat hnew h.distinct

theorem cycle (h : t.Trail files l) (himports : t.Imports l l') (hback : l' ∈ files) :
    t.Cycle files l' :=
  ⟨h.linked_append himports, h.distinct, hback⟩

end Trail

theorem reaches_of_linked {first : Location} (h : (first :: (files ++ [last])).IsChain t.Imports) :
    TransGen t.Imports first last := by
  obtain ⟨hfirst, hrest⟩ := List.isChain_cons.1 h
  have hne : files ++ [last] ≠ [] := by simp
  have hpath := List.relationReflTransGen_of_exists_isChain _ hrest hne
  rw [List.getLast_append_singleton] at hpath
  exact .head' (hfirst _ (List.head?_eq_some_head hne)) hpath

theorem Cycle.leads_back (h : t.Cycle files last) : TransGen t.Imports last last := by
  obtain ⟨before, after, rfl⟩ := List.append_of_mem h.back
  have hlinked := h.linked
  rw [List.append_assoc] at hlinked
  exact reaches_of_linked hlinked.right_of_append

theorem Cycle.reaches (h : t.Cycle files last) {entry : Location} (hentry : files.head? = some entry) :
    ReflTransGen t.Imports entry last := by
  obtain ⟨rest, rfl⟩ := List.head?_eq_some_iff.1 hentry
  exact (reaches_of_linked h.linked).to_reflTransGen

theorem any_isAt_map : (files.map Path.ofLocation).any (·.isAt l) = true ↔ l ∈ files := by
  simp [Path.isAt, Path.ofLocation]

theorem cycle_of_importer {target : String} {place : Place} {s s' : Session} {e : Error}
    {names : List String} (h : t.importer chain target place s = (.error e, s'))
    (he : e.fault = .importCycle names) :
    ∃ l', t.findTarget (Path.ofText place.source.name) target = .ok l' ∧
      (chain.any (·.isAt l') = true ∧ (chain ++ [Path.ofLocation l']).map Path.text = names ∨
        chain.any (·.isAt l') = false ∧ ∃ content r s₁, t.read l' = .ok content ∧
          (Reader.ofSource (sourceAt l' content)).read (t.importer (chain ++ [Path.ofLocation l'])) s₁ =
            (.error e, r, s')) := by
  rw [importer_eq] at h
  split at h
  · cases h
    cases he
  next l' hfind =>
    refine ⟨l', hfind, ?_⟩
    split at h
    next hon =>
      cases h
      cases he
      exact .inl ⟨hon, rfl⟩
    next hoff =>
      split at h
      · cases h
        cases he
      next content hread =>
        split at h
        · cases h
        next hnested =>
          cases h
          exact .inr ⟨by simpa using hoff, content, _, _, hread, hnested⟩

theorem exists_cycle_of_read (hcurrent : t.HasCurrent) (hchain : files.map Path.ofLocation = chain)
    (htrail : t.Trail files l) (hsource : t.IsSource l source) {s s' : Session} {r : Reader}
    {e : Error} {names : List String}
    (h : (Reader.ofSource source).read (t.importer chain) s = (.error e, r, s'))
    (he : e.fault = .importCycle names) :
    ∃ more last, t.Cycle (files ++ more) last ∧
      names = (files ++ more ++ [last]).map fun l => (Path.ofLocation l).text := by
  induction chain using t.chain_induction generalizing files l source s s' r with
  | h chain ih =>
    obtain ⟨line, hmem, target, s₁, hline, himport⟩ :=
      Reader.exists_import_of_read h (by rw [he]; rfl)
    obtain ⟨l', hfind, hclosed⟩ := cycle_of_importer himport he
    have himports := hsource.imports_of_line hmem hline hfind
    subst hchain
    rcases hclosed with ⟨hon, hnames⟩ | ⟨hoff, content, _, _, hread, hnested⟩
    · refine ⟨[], l', ?_, ?_⟩
      · rw [List.append_nil]
        exact htrail.cycle himports (any_isAt_map.1 hon)
      · rw [← hnames, List.append_nil, List.map_append, List.map_append, List.map_map]
        rfl
    · have hnew : l' ∉ files := fun hmem => by simp [any_isAt_map.2 hmem] at hoff
      have hsource' := isSource_sourceAt (hsource.isWay_of_findTarget hcurrent hfind) hread
      obtain ⟨more, last, hcycle, hnames⟩ := ih l' content hread hoff (List.map_append ..)
        (htrail.append himports hnew) hsource' hnested
      exact ⟨l' :: more, last, by rwa [List.append_assoc files] at hcycle,
        by rwa [List.append_assoc files [l']] at hnames⟩

end FileTree

theorem Document.internal_resolve (d : Document) (v : Value) : Internal (d.resolve v) := by
  intro e h
  rcases isDangling_or_isCycle h with ⟨reference, name, he⟩ | ⟨chain, he⟩ <;> rw [he] <;> rfl

theorem Document.internal_resolveEach (d : Document) (m : Mapping Value) :
    Internal (d.resolveEach m) := by
  induction m with
  | nil => exact .ok _
  | cons entry m ih => exact (d.internal_resolve entry.2).bind fun _ => ih.bind fun _ => .ok _

namespace FileTree

open Relation (ReflTransGen TransGen)

variable {t : FileTree} {path text : String}

theorem read_of_readDocument_error {fileName : String} {e : Error}
    (h : (t.readDocument text fileName).1 = .error e) :
    ∃ r s', (Reader.ofSource ⟨t.absolute fileName, text⟩).read
      (t.importer [t.canonical (t.absolute fileName)]) .empty = (.error e, r, s') := by
  rw [readDocument, readSource] at h
  rcases hread : (Reader.ofSource ⟨t.absolute fileName, text⟩).read
    (t.importer [t.canonical (t.absolute fileName)]) .empty with ⟨e' | d, r, s'⟩
  · rw [hread] at h
    cases h
    exact ⟨r, s', rfl⟩
  · rw [hread] at h
    cases h

theorem exists_locate_of_readText (h : t.readText path = .ok text) :
    ∃ l, t.locate path = .ok l ∧ t.read l = .ok text := by
  rw [readText] at h
  split at h
  next l hlocate => exact ⟨l, hlocate, h⟩
  · cases h

theorem read_of_analysisOfFile {e : Error} {names : List String}
    (h : (t.analysisOfFile path).1 = .error e) (he : e.fault = .importCycle names) :
    ∃ l text r s', Path.isLoonFile path = true ∧ t.locate path = .ok l ∧ t.read l = .ok text ∧
      (Reader.ofSource ⟨t.absolute path, text⟩).read
        (t.importer [t.canonical (t.absolute path)]) .empty = (.error e, r, s') := by
  rw [analysisOfFile] at h
  split at h
  · cases h
    cases he
  next hloon =>
    split at h
    · cases h
      cases he
    next text hread =>
      rw [analysisOf] at h
      split at h
      next hdocument =>
        cases h
        obtain ⟨r, s', hread'⟩ := read_of_readDocument_error (Prod.ext_iff.1 hdocument).1
        obtain ⟨l, hlocate, hread⟩ := exists_locate_of_readText hread
        exact ⟨l, text, r, s', by simpa using hloon, hlocate, hread, hread'⟩
      next d s hdocument =>
        dsimp only at h
        split at h
        next hlabels =>
          cases h
          exact absurd hlabels ((d.internal_resolveEach d.labels).ne_error (by rw [he]; rfl))
        · cases h

theorem exists_cycle_of_analysisOfFile (hcurrent : t.HasCurrent) {e : Error} {names : List String}
    (h : (t.analysisOfFile path).1 = .error e) (he : e.fault = .importCycle names) :
    ∃ entry files last, t.locate path = .ok entry ∧ files.head? = some entry ∧
      t.Cycle files last ∧ names = (files ++ [last]).map fun l => (Path.ofLocation l).text := by
  obtain ⟨entry, text, r, s', hloon, hlocate, hread, hfailed⟩ := read_of_analysisOfFile h he
  rw [canonical_absolute hcurrent hlocate] at hfailed
  have hchain : [entry].map Path.ofLocation = [Path.ofLocation entry] := rfl
  obtain ⟨more, last, hcycle, hnames⟩ := exists_cycle_of_read hcurrent hchain (.one entry)
    (isSource_of_locate hcurrent hloon hlocate hread) hfailed he
  exact ⟨entry, [entry] ++ more, last, hlocate, rfl, hcycle, hnames⟩

/-- Reading a file ends no deeper in imports than there are files, leaving none on the chain. Where it
succeeds, no file that the imports come to leads back to itself; where it is given up for a cycle, that
cycle is one of import lines, from the file itself; and without a cycle among the files, however often
one of them is imported, it is not given up for one. -/
theorem import_cycles (hcurrent : t.HasCurrent) (path : String) :
    (∀ (deeper : Reading.Importing) (depth : Nat) (text : String), t.entries.length < depth →
      t.reading deeper depth ⟨t.absolute path, text⟩ .clear =
        Desk.clear.answer (t.readSource ⟨t.absolute path, text⟩ .empty)) ∧
    (∀ text d, Path.isLoonFile path = true → t.readText path = .ok text →
      (t.readDocument text path).1 = .ok d →
      ∃ entry, t.locate path = .ok entry ∧
        ∀ l, ReflTransGen t.Imports entry l → ¬ TransGen t.Imports l l) ∧
    (∀ e names, (t.analysisOfFile path).1 = .error e → e.fault = .importCycle names →
      ∃ entry files last, t.locate path = .ok entry ∧ files.head? = some entry ∧
        t.Cycle files last ∧ names = (files ++ [last]).map fun l => (Path.ofLocation l).text) ∧
    (∀ entry, t.locate path = .ok entry →
      (∀ l, ReflTransGen t.Imports entry l → ¬ TransGen t.Imports l l) →
      ∀ e names, (t.analysisOfFile path).1 = .error e → e.fault ≠ .importCycle names) := by
  refine ⟨fun deeper depth text hdepth => reading_run deeper hdepth _ _, ?_,
    fun e names => exists_cycle_of_analysisOfFile hcurrent, ?_⟩
  · intro text d hloon hread hdocument
    obtain ⟨entry, hlocate, hread⟩ := exists_locate_of_readText hread
    obtain ⟨s', hreads⟩ := readDocument_eq_ok.1 hdocument
    rw [canonical_absolute hcurrent hlocate] at hreads
    have hsource := isSource_of_locate hcurrent hloon hlocate hread
    exact ⟨entry, hlocate, fun l => hreads.acyclic hcurrent hsource (by simp)⟩
  · intro entry hlocate hacyclic e names h he
    obtain ⟨entry', files, last, hlocate', hhead, hcycle, _⟩ :=
      exists_cycle_of_analysisOfFile hcurrent h he
    rw [hlocate] at hlocate'
    cases hlocate'
    exact hacyclic last (hcycle.reaches hhead) hcycle.leads_back

theorem import_cycles_diamond :
    let cyclic : FileTree := ⟨["w"], [(["w", "main.loon"], .text "@sub/a.loon\n"),
      (["w", "sub", "a.loon"], .text "@b.loon\n"),
      (["w", "sub", "b.loon"], .text "(x)\nend\n@../sub/a.loon\n")]⟩
    let text := "@left.loon\n@right.loon\n"
    let diamond : FileTree := ⟨[], [(["main.loon"], .text text), (["left.loon"], .text "@base.loon\n"),
      (["right.loon"], .text "@base.loon\n"), (["base.loon"], .text "(base)\nend\n")]⟩
    cyclic.HasCurrent ∧ diamond.HasCurrent ∧
      (∃ e files, (cyclic.analysisOfFile "./main.loon").1 = .error e ∧
        e.fault = .importCycle ["/w/main.loon", "/w/sub/a.loon", "/w/sub/b.loon", "/w/sub/a.loon"] ∧
        files.head? = some ["w", "main.loon"] ∧ ∃ last, cyclic.Cycle files last) ∧
      (∃ d, diamond.readText "main.loon" = .ok text ∧ (diamond.readDocument text "main.loon").1 = .ok d ∧
        ∀ l, ReflTransGen diamond.Imports ["main.loon"] l → ¬ TransGen diamond.Imports l l) ∧
      (∀ e names, (diamond.analysisOfFile "main.loon").1 = .error e → e.fault ≠ .importCycle names) ∧
      cyclic.reading (fun _ _ => pure .empty) 4 ⟨cyclic.absolute "./main.loon", "@sub/a.loon\n"⟩ .clear =
        Desk.clear.answer
          (cyclic.readSource ⟨cyclic.absolute "./main.loon", "@sub/a.loon\n"⟩ .empty) := by
  intro cyclic text diamond
  have htop : cyclic.entry? [] = some .folder := by decide +kernel
  have hname : Path.IsName "w" := ⟨by decide, by decide, by decide⟩
  have hcyclic : cyclic.HasCurrent := ⟨isWay_nil.append htop hname, by decide +kernel⟩
  have hdiamond : diamond.HasCurrent := ⟨isWay_nil, by decide +kernel⟩
  obtain ⟨hends, _, hcycle, _⟩ := import_cycles hcyclic "./main.loon"
  obtain ⟨_, hacyclic, _, hnever⟩ := import_cycles hdiamond "main.loon"
  have hfault : (match (cyclic.analysisOfFile "./main.loon").1 with
      | .error e => some e.fault
      | .ok _ => none) =
        some (.importCycle ["/w/main.loon", "/w/sub/a.loon", "/w/sub/b.loon", "/w/sub/a.loon"]) := by
    decide +kernel
  have hlocate : cyclic.locate "./main.loon" = .ok ["w", "main.loon"] := by decide +kernel
  have hlocate' : diamond.locate "main.loon" = .ok ["main.loon"] := by decide +kernel
  have hread : diamond.readText "main.loon" = .ok text := by decide +kernel
  have hok : (diamond.readDocument text "main.loon").1.toOption.isSome = true := by decide +kernel
  obtain ⟨d, hd⟩ : ∃ d, (diamond.readDocument text "main.loon").1 = .ok d := by
    cases hresult : (diamond.readDocument text "main.loon").1 with
    | error e =>
      rw [hresult] at hok
      cases hok
    | ok d => exact ⟨d, rfl⟩
  obtain ⟨entry', hentry', hnone⟩ := hacyclic text d (by decide) hread hd
  rw [hlocate'] at hentry'
  cases hentry'
  refine ⟨hcyclic, hdiamond, ?_, ⟨d, hread, hd, hnone⟩, hnever _ hlocate' hnone,
    hends _ 4 _ (by decide)⟩
  cases hresult : (cyclic.analysisOfFile "./main.loon").1 with
  | ok a =>
    rw [hresult] at hfault
    cases hfault
  | error e =>
    rw [hresult] at hfault
    have he := Option.some.inj hfault
    obtain ⟨entry, files, last, hentry, hhead, hfiles, _⟩ := hcycle e _ hresult he
    rw [hlocate] at hentry
    cases hentry
    exact ⟨e, files, rfl, he, hhead, last, hfiles⟩

end FileTree

end Loon
