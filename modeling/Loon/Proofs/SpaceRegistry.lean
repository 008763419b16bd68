import Loon.Proofs.Injection
import Loon.Proofs.Reading.Closings
import Loon.Proofs.Reading.Keys

namespace Loon

namespace Document

variable {d : Document} {m : Mapping Value} {v w x : Value} {name : String}

theorem get?_resolveSpaces (h : Mapping.Distinct m) (name : String) :
    Mapping.get? (d.resolveSpaces m).1 name =
      (Mapping.get? m name).bind fun v => (d.resolve v).toOption := by
  induction m with
  | nil => rfl
  | cons entry m ih =>
    obtain ⟨own, v⟩ := entry
    obtain ⟨hown, hrest⟩ := h.of_cons
    have ih := ih hrest
    rw [resolveSpaces]
    generalize d.resolveSpaces m = rest at ih ⊢
    obtain ⟨spaces, records⟩ := rest
    rcases eq_or_ne own name with rfl | hne
    · rw [Mapping.get?_eq_none_iff.2 hown] at ih
      cases hv : d.resolve v with
      | ok w => simp [Mapping.get?, hv, Except.toOption]
      | error e => simpa [Mapping.get?, hv, Except.toOption] using ih
    · cases hv : d.resolve v <;> simpa [Mapping.get?, hne] using ih

theorem resolves_of_mem_items {items ws : List Value}
    (h : Value.resolveItems d.dereference items = .ok ws) (hv : v ∈ items) :
    ∃ x, d.resolve v = .ok x := by
  induction items generalizing ws with
  | nil => cases hv
  | cons first items ih =>
    obtain ⟨x, hx, hrest⟩ := bind_eq_ok.1 h
    obtain ⟨ws', hws', -⟩ := bind_eq_ok.1 hrest
    rcases List.mem_cons.1 hv with rfl | hv
    · exact ⟨x, hx⟩
    · exact ih hws' hv

theorem resolves_of_inside (hinside : v.Inside w) (h : d.resolve w = .ok x) :
    ∃ y, d.resolve v = .ok y := by
  induction hinside generalizing x with
  | here => exact ⟨x, h⟩
  | entry hentry _ ih =>
    obtain ⟨y, hy⟩ := resolves_of_mem h hentry
    exact ih hy
  | item hitem _ ih =>
    obtain ⟨ws, hws, -⟩ := bind_eq_ok.1 h
    obtain ⟨y, hy⟩ := resolves_of_mem_items hws hitem
    exact ih hy

theorem get?_of_unmerging {before after : Mapping Value} (hv : v.merges = false)
    (hname : name ∉ Mapping.keys after) (hafter : ∀ entry ∈ after, entry.2.merges = false)
    (h : d.resolve (.mapping (before ++ (name, v) :: after)) = .ok w) :
    ∃ x, d.resolve v = .ok x ∧ w.get? name = some x := by
  obtain ⟨x, hx⟩ := resolves_of_mem h (List.mem_append_right before (List.mem_cons_self ..))
  have hnone : after.reverse.findSome? (d.supply? name) = none := by
    rw [List.findSome?_eq_none_iff]
    intro entry hentry
    have hentry := List.mem_reverse.1 hentry
    have hne : entry.1 ≠ name := fun heq => hname (heq ▸ List.mem_map_of_mem hentry)
    rw [supply?, hafter entry hentry]
    cases (d.resolve entry.2).toOption with
    | none => rfl
    | some w => rw [Option.bind_some, Write.supply?_plain, if_neg hne]
  refine ⟨x, hx, ?_⟩
  rw [get?_of_front h hnone hx, hv, Write.supply?_plain, if_pos rfl]
  rfl

end Document

namespace FileTree

variable {t : FileTree} {text fileName name : String} {a : Analysis} {v : Value}

def lastClosed? (t : FileTree) (source : Source) (name : String) : Option Value :=
  Mapping.get? (t.closings source).reverse name

theorem get?_spaces_readDocument (text fileName name : String) :
    Mapping.get? (t.readDocument text fileName).2.spaces name =
      t.lastClosed? ⟨t.absolute fileName, text⟩ name := by
  rw [spaces_readDocument, Mapping.ofList, Mapping.get?_extend_reverse, lastClosed?]
  cases Mapping.get? (t.closings _).reverse name <;> rfl

theorem analysisOf_eq_ok (h : (t.analysisOf text fileName).1 = .ok a) :
    (t.readDocument text fileName).1 = .ok a.unresolved ∧ a.unresolved.resolvedLabels = .ok a.labels ∧
      (a.unresolved.resolveSpaces (t.readDocument text fileName).2.spaces).1 = a.spaces := by
  rw [analysisOf] at h
  split at h
  · cases h
  next d s hread =>
    dsimp only at h
    split at h
    · cases h
    next labels hlabels =>
      cases h
      rw [hread]
      exact ⟨rfl, hlabels, rfl⟩

theorem get?_spaces_analysisOf (h : (t.analysisOf text fileName).1 = .ok a) (name : String) :
    Mapping.get? a.spaces name = (t.lastClosed? ⟨t.absolute fileName, text⟩ name).bind
      fun v => (a.unresolved.resolve v).toOption := by
  obtain ⟨_, _, hspaces⟩ := analysisOf_eq_ok h
  have hdistinct : Mapping.Distinct (t.readDocument text fileName).2.spaces := by
    rw [spaces_readDocument]
    exact Mapping.distinct_ofList _
  rw [← hspaces, Document.get?_resolveSpaces hdistinct, get?_spaces_readDocument]

theorem wellKeyed_analysisOf (h : (t.analysisOf text fileName).1 = .ok a) :
    a.unresolved.Sound Value.WellKeyed ∧ (t.readDocument text fileName).2.Unmerging := by
  have hread : t.readDocument text fileName = (.ok a.unresolved, (t.readDocument text fileName).2) :=
    Prod.ext (analysisOf_eq_ok h).1 rfl
  obtain ⟨s, hreads, hs⟩ := reads_of_readDocument hread
  rw [← hs]
  exact hreads.wellKeyed nofun

/-- A label and the registry agree on a space, if the value in the label is the one that was closed last
under the name and no entry behind it merges. -/
theorem analysisOf_space_agrees (h : (t.analysisOf text fileName).1 = .ok a) {own : String}
    {before after : Mapping Value} {last : Value}
    (hlabel : Mapping.get? a.unresolved.labels own = some (.mapping (before ++ (name, v) :: after)))
    (hlast : t.lastClosed? ⟨t.absolute fileName, text⟩ name = some last) (hsame : v.Alike last)
    (hafter : ∀ entry ∈ after, entry.2.merges = false) :
    ∃ body w, Mapping.get? a.labels own = some (.mapping body) ∧ Mapping.get? body name = some w ∧
      Mapping.get? a.spaces name = some w := by
  obtain ⟨hd, hunmerging⟩ := wellKeyed_analysisOf h
  obtain ⟨x, hx, hresolve⟩ := Document.resolve_of_resolvedLabels (analysisOf_eq_ok h).2.1 hlabel
  obtain ⟨ws, _, hbody⟩ := bind_eq_ok.1 hresolve
  have hdistinct := (Value.wellKeyed_mapping.1 (hd.labels _ (Mapping.mem_of_get? hlabel)).value).1
  rw [Mapping.Distinct, Mapping.keys_append, Mapping.keys_cons, List.nodup_append] at hdistinct
  have hmerges : v.merges = false := by
    rw [hsame.merges fun _ _ hpq => hpq.2]
    rw [← get?_spaces_readDocument] at hlast
    exact hunmerging _ (Mapping.mem_of_get? hlast)
  obtain ⟨w, hw, hget⟩ :=
    Document.get?_of_unmerging hmerges (List.nodup_cons.1 hdistinct.2.1).1 hafter hresolve
  have hspace : a.unresolved.resolve last = .ok w := by
    have hagrees : a.unresolved.Agrees a.unresolved := Document.agrees_of_find?_eq fun _ => rfl
    have houtcome := Document.outcome_resolve hagrees hsame
    rw [hw] at houtcome
    generalize a.unresolved.resolve last = y at houtcome ⊢
    cases houtcome with
    | ok heq => rw [heq]
  cases hbody
  refine ⟨_, w, hx, hget, ?_⟩
  rw [get?_spaces_analysisOf h, hlast, Option.bind_some, hspace]
  rfl

theorem analysisOf_space_agrees_list :
    let text := "(base)\nport = p\nend\n(app)\n:s\n[base.port]\nend:\nk = v\nend\n"
    ∃ a v last after, (analysisOf ⟨[], []⟩ text "main.loon").1 = .ok a ∧
      Mapping.get? a.unresolved.labels "app" = some (.mapping ([] ++ ("s", v) :: after)) ∧
      lastClosed? ⟨[], []⟩ ⟨"/main.loon", text⟩ "s" = some last ∧ v.Alike last ∧
      (∀ entry ∈ after, entry.2.merges = false) ∧
      ∃ body w, Mapping.get? a.labels "app" = some (.mapping body) ∧
        Mapping.get? body "s" = some w ∧ Mapping.get? a.spaces "s" = some w := by
  intro text
  let isOnly : Value → Placeholder → Bool := fun v p =>
    v.list?.any fun items => items.map (fun w => (w.kind, w.placeholders)) = [(.reference, [p])]
  have honly : ∀ v p, isOnly v p = true → v = .list [.placeholder p] := by
    intro v p h
    obtain ⟨items, hitems, h⟩ := (Option.any_eq_true _ _).1 h
    cases v <;> cases hitems
    obtain ⟨w, rfl, hw⟩ := List.map_eq_singleton_iff.1 (of_decide_eq_true h)
    cases w <;> simp_all [Value.kind, Value.placeholders]
  have hfound : ((analysisOf ⟨[], []⟩ text "main.loon").1.toOption.bind fun a =>
      (Mapping.get? a.unresolved.labels "app").bind fun label => label.mapping?.bind fun body =>
        (lastClosed? ⟨[], []⟩ ⟨"/main.loon", text⟩ "s").bind fun last =>
          last.placeholders.head?.bind fun p => some (isOnly last p,
            body.map fun entry => (entry.1, entry.2.merges, isOnly entry.2 p))) =
      some (true, [("s", false, true), ("k", false, false)]) := by
    decide +kernel
  simp only [Option.bind_eq_some_iff, Option.some.injEq, toOption_eq_some, Prod.mk.injEq] at hfound
  obtain ⟨a, ha, label, hlabel, body, hbody, last, hlast, p, -, hp, hentries⟩ := hfound
  cases label <;> cases hbody
  obtain ⟨⟨_, v⟩, after, rfl, hfirst, hafter⟩ := List.map_eq_cons_iff.1 hentries
  simp only [Prod.mk.injEq] at hfirst
  obtain ⟨rfl, -, hv⟩ := hfirst
  have hsame : v.Alike last := by
    rw [honly v p hv, honly last p hp]
    exact .refl _
  have hunmerging : ∀ entry ∈ after, entry.2.merges = false := by
    obtain ⟨entry, rfl, hentry⟩ := List.map_eq_singleton_iff.1 hafter
    rw [List.forall_mem_singleton]
    exact (Prod.mk.inj (Prod.mk.inj hentry).2).1
  have hlabel : Mapping.get? a.unresolved.labels "app" = some (.mapping ([] ++ ("s", v) :: after)) := hlabel
  exact ⟨a, v, last, after, ha, hlabel, hlast, hsame, hunmerging,
    analysisOf_space_agrees ha hlabel hlast hsame hunmerging⟩

/-- Under a name the registry has what the value closed last is resolved to. It has nothing only if this
value cannot be resolved; then it stands in no visible label, and it was not closed in a visible label that
stayed as it was, with no later line of the label writing the name. -/
theorem analysisOf_space (h : (t.analysisOf text fileName).1 = .ok a)
    (hlast : t.lastClosed? ⟨t.absolute fileName, text⟩ name = some v) :
    (∀ w, Mapping.get? a.spaces name = some w ↔ a.unresolved.resolve v = .ok w) ∧
      (Mapping.get? a.spaces name = none →
        (∀ entry ∈ a.unresolved.labels, ¬ v.Inside entry.2) ∧
        ∀ own importer source d s line lines label space,
          t.Finishes [t.canonical (t.absolute fileName)] ⟨t.absolute fileName, text⟩ .empty own
            importer source d s (line :: lines) → line.statement = .closeSpace →
          d.current = some label → label.space = some space →
          (name, v) = (space.name, space.content.value) →
          name ∈ Mapping.keys (d.ownEntries importer source (line :: lines) s).tail) := by
  have hget := get?_spaces_analysisOf h name
  rw [hlast, Option.bind_some] at hget
  obtain ⟨hread, hlabels, _⟩ := analysisOf_eq_ok h
  have hstands : Mapping.get? a.spaces name = none →
      ∀ entry ∈ a.unresolved.labels, ¬ v.Inside entry.2 := by
    intro hnone entry hentry hinside
    obtain ⟨w, hw⟩ := (Document.resolveEach_eq_ok.1 hlabels).1 entry hentry
    obtain ⟨x, hx⟩ := Document.resolves_of_inside hinside hw
    rw [hget, hx] at hnone
    cases hnone
  refine ⟨fun w => by rw [hget, toOption_eq_some], fun hnone => ⟨hstands hnone, ?_⟩⟩
  intro own importer source d s line lines label space hfinishes hline hlabel hspace heq
  obtain ⟨rfl, rfl⟩ := Prod.mk.inj heq
  by_contra hwritten
  have hbody := hfinishes.get?_labels (read_of_readDocument hread) hlabel
  have hentries : d.ownEntries? importer source s line = some [(space.name, space.content.value)] := by
    simp only [Draft.ownEntries?, hlabel, hspace, hline]
  obtain ⟨label₁, d₂, s₂, _, _, hrun, _⟩ := hfinishes.run
  obtain ⟨d₁, s₁, hstep, _⟩ := Draft.run_cons_eq_none.1 hrun
  rw [Draft.ownEntries_cons hstep, hentries] at hbody hwritten
  have hkeeps : Mapping.get? (Mapping.extend (BodyItem.fold label.items)
      ([(space.name, space.content.value)] ++ d₁.ownEntries importer source lines s₁)) space.name =
        some space.content.value := by
    rw [Mapping.extend_append, Mapping.get?_extend_reverse, Mapping.get?_eq_none_iff.2]
    · exact Mapping.get?_insert_self ..
    · simpa [Mapping.keys] using hwritten
  exact hstands hnone _ (Mapping.mem_of_get? hbody) (.entry (Mapping.mem_of_get? hkeeps) .here)

theorem analysisOf_space_hidden :
    let text := "%(h)\n:s\nx = [nowhere]\nend:\nend\n(a)\n:r\nk = v\nend:\nend\n"
    ∃ a v, (analysisOf ⟨[], []⟩ text "main.loon").1 = .ok a ∧
      lastClosed? ⟨[], []⟩ ⟨"/main.loon", text⟩ "s" = some v ∧ Mapping.keys a.spaces = ["r"] ∧
      (∀ w, a.unresolved.resolve v ≠ .ok w) ∧ ∀ entry ∈ a.unresolved.labels, ¬ v.Inside entry.2 := by
  intro text
  have hfound : ((analysisOf ⟨[], []⟩ text "main.loon").1.toOption.bind fun a =>
      (lastClosed? ⟨[], []⟩ ⟨"/main.loon", text⟩ "s").bind fun _ => some (Mapping.keys a.spaces)) =
        some ["r"] := by
    decide +kernel
  simp only [Option.bind_eq_some_iff, Option.some.injEq, toOption_eq_some] at hfound
  obtain ⟨a, ha, v, hv, hkeys⟩ := hfound
  obtain ⟨hspace, hmissing⟩ := analysisOf_space ha hv
  have hnone : Mapping.get? a.spaces "s" = none := Mapping.get?_eq_none_iff.2 (by simp [hkeys])
  refine ⟨a, v, ha, hv, hkeys, fun w hw => ?_, (hmissing hnone).1⟩
  cases hnone.symm.trans ((hspace w).2 hw)

/-- A space of a visible label is left out, too, if a later label of the name takes its place. -/
theorem analysisOf_space_replaced :
    let text := "(a)\n:s\nx = [nowhere]\nend:\nend\n(a)\nend\n"
    let source : Source := ⟨"/main.loon", text⟩
    ∃ a, (analysisOf ⟨[], []⟩ text "main.loon").1 = .ok a ∧
      Mapping.keys (closings ⟨[], []⟩ source) = ["s"] ∧ Mapping.get? a.spaces "s" = none ∧
      ∀ line ∈ source.lines, ∀ name, line.statement ≠ .openLabel name true := by
  intro text source
  have hfound : ((analysisOf ⟨[], []⟩ text "main.loon").1.toOption.map fun a =>
      (Mapping.get? a.spaces "s").isNone) = some true := by
    decide +kernel
  have hclosed : Mapping.keys (closings ⟨[], []⟩ source) = ["s"] := by decide +kernel
  have hlines : source.lines.all (fun line =>
      match line.statement with
      | .openLabel _ hidden => !hidden
      | _ => true) = true := by
    decide +kernel
  simp only [Option.map_eq_some_iff, toOption_eq_some, Option.isNone_iff_eq_none] at hfound
  obtain ⟨a, ha, hnone⟩ := hfound
  refine ⟨a, ha, hclosed, hnone, fun line hline name heq => ?_⟩
  simpa [heq] using List.all_eq_true.1 hlines line hline

end FileTree

end Loon
