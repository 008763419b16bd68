import Loon.Proofs.Dependence
import Loon.Proofs.Injection
import Loon.Proofs.Reading.Keys
import Loon.Proofs.Reading.Tucked
import Loon.Proofs.Resolution.Throughout

namespace Loon

namespace Write

theorem apply_cons {entry : String × Value} {w : Write} (h : w.supply? entry.1 = none)
    (m : Mapping Value) : apply (entry :: m) w = entry :: apply m w := by
  obtain ⟨name, merges, value⟩ := w
  have own : (if name = entry.1 then some value else none) = none →
      Mapping.insert (entry :: m) name value = entry :: Mapping.insert m name value := by
    intro hnone
    have hne : name ≠ entry.1 := fun heq => by simp [heq] at hnone
    exact if_neg (Ne.symm hne)
  cases merges with
  | false => exact own (supply?_plain name entry.1 value ▸ h)
  | true =>
    cases value with
    | mapping entries => exact Mapping.extend_cons_of_notMem (Mapping.get?_eq_none_iff.1 h) m
    | _ => exact own h

theorem foldl_apply_cons {entry : String × Value} {ws : List Write}
    (h : ∀ w ∈ ws, w.supply? entry.1 = none) (m : Mapping Value) :
    ws.foldl apply (entry :: m) = entry :: ws.foldl apply m := by
  induction ws generalizing m with
  | nil => rfl
  | cons w ws ih =>
    rw [List.forall_mem_cons] at h
    rw [List.foldl_cons, apply_cons h.1, ih h.2, List.foldl_cons]

end Write

namespace Document

variable {d : Document} {m R body : Mapping Value} {key : String} {v w : Value}

theorem resolveEach_filter (p : String → Bool) (h : d.resolveEach m = .ok R) :
    d.resolveEach (m.filter fun entry => p entry.1) = .ok (R.filter fun entry => p entry.1) := by
  obtain ⟨hsome, rfl⟩ := resolveEach_eq_ok.1 h
  refine resolveEach_eq_ok.2 ⟨fun entry hentry => hsome entry (List.mem_filter.1 hentry).1, ?_⟩
  rw [List.filter_map]
  rfl

theorem resolveEach_within (names : List String) (h : d.resolveEach m = .ok R) :
    d.resolveEach (Mapping.within names m) = .ok (Mapping.within names R) :=
  resolveEach_filter (fun name => name ∈ names) h

theorem resolveEach_without (names : List String) (h : d.resolveEach m = .ok R) :
    d.resolveEach (Mapping.without names m) = .ok (Mapping.without names R) :=
  resolveEach_filter (fun name => name ∉ names) h

theorem resolveEach_insert (h : d.resolveEach m = .ok R) (hv : d.resolve v = .ok w) :
    d.resolveEach (Mapping.insert m key v) = .ok (Mapping.insert R key w) := by
  induction m generalizing R with
  | nil =>
    cases h
    rw [Mapping.insert, resolveEach, hv]
    rfl
  | cons entry m ih =>
    obtain ⟨x, hx, hrest⟩ := bind_eq_ok.1 h
    obtain ⟨R', hR', hR⟩ := bind_eq_ok.1 hrest
    cases hR
    rw [Mapping.insert, Mapping.insert]
    split
    · rw [resolveEach, hv, hR']
      rfl
    · rw [resolveEach, hx, ih hR']
      rfl

theorem resolveEntries_of_resolveEach (hplain : ∀ entry ∈ m, entry.2.merges = false)
    (h : d.resolveEach m = .ok R) : Value.resolveEntries d.dereference m = .ok (R.map Write.plain) := by
  induction m generalizing R with
  | nil =>
    cases h
    rfl
  | cons entry m ih =>
    obtain ⟨x, hx, hrest⟩ := bind_eq_ok.1 h
    obtain ⟨R', hR', hR⟩ := bind_eq_ok.1 hrest
    cases hR
    rw [List.forall_mem_cons] at hplain
    have hx : entry.2.resolve d.dereference = .ok x := hx
    rw [Value.resolveEntries, hx, ih hplain.2 hR', hplain.1]
    rfl

theorem resolve_labels (hdistinct : Mapping.Distinct m) (hplain : ∀ entry ∈ m, entry.2.merges = false)
    (h : d.resolveEach m = .ok R) : d.resolve (.mapping m) = .ok (.mapping R) := by
  have hkeys : Mapping.Distinct R := by
    rw [Mapping.Distinct, keys_of_resolveEach h]
    exact hdistinct
  rw [resolve, Value.resolve, resolveEntries_of_resolveEach hplain h]
  exact congrArg (fun m => Except.ok (Value.mapping m))
    ((Write.applyAll_map_plain R).trans (Mapping.ofList_of_distinct hkeys))

theorem supply?_eq_none (h : d.resolve (.mapping m) = .ok w) (hfree : w.get? key = none) :
    ∀ entry ∈ m, d.supply? key entry = none := by
  rw [get?_of_resolve_mapping h, List.findSome?_eq_none_iff] at hfree
  exact fun entry hentry => hfree entry (List.mem_reverse.2 hentry)

theorem resolve_cons (h : d.resolve (.mapping m) = .ok (.mapping body)) (hfree : Mapping.get? body key = none)
    (hmerges : v.merges = false) (hv : d.resolve v = .ok w) :
    d.resolve (.mapping ((key, v) :: m)) = .ok (.mapping ((key, w) :: body)) := by
  -- What is behind the entry writes nothing under its key, so it stays in front with its value.
  have hnone : ∀ entry ∈ m, d.supply? key entry = none := supply?_eq_none h hfree
  obtain ⟨ws, hws, hbody⟩ := bind_eq_ok.1 h
  cases hbody
  have hsupplies : ∀ w ∈ ws, w.supply? key = none := by
    intro w hw
    have hmem := List.mem_map_of_mem (f := fun w => Write.supply? w key) hw
    rw [(supplies_of_resolveEntries hws key).2] at hmem
    obtain ⟨entry, hentry, heq⟩ := List.mem_map.1 hmem
    exact heq.symm.trans (hnone entry hentry)
  have hfront : Write.apply [] ⟨key, false, w⟩ = [(key, w)] := by cases w <;> rfl
  have hv : v.resolve d.dereference = .ok w := hv
  rw [resolve, Value.resolve, Value.resolveEntries, hv, hws, hmerges]
  refine congrArg (fun m => Except.ok (Value.mapping m)) ?_
  rw [Write.applyAll, List.foldl_cons, hfront]
  exact Write.foldl_apply_cons hsupplies []

theorem notMem_keys_of_resolve (h : d.resolve (.mapping m) = .ok w) (hfree : w.get? key = none)
    (hkeyed : ∀ entry ∈ m, IsKeyed entry)
    (hne : ∀ entry ∈ m, ∀ p, entry.2 = .placeholder p → Insertion.keyOf p ≠ key) :
    key ∉ Mapping.keys m := by
  intro hkey
  obtain ⟨⟨_, v⟩, hentry, rfl⟩ := List.mem_map.1 hkey
  obtain ⟨x, hx⟩ := resolves_of_mem h hentry
  have hnone := supply?_eq_none h hfree _ hentry
  rw [supply?_of_resolve hx] at hnone
  cases hmerges : v.merges with
  | false => simp [hmerges, Write.supply?_plain] at hnone
  | true =>
    cases v with
    | placeholder p => exact hne _ hentry p rfl (hkeyed _ hentry p rfl hmerges).symm
    | _ => cases hmerges

end Document

def Placeholder.Spares (own : String) (p : Placeholder) : Prop :=
  ∃ a, Address.parse p.expr = some a ∧ own ∉ a.segments

theorem Placeholder.Spares.keyOf_ne {own : String} {p : Placeholder} (h : p.Spares own) :
    Insertion.keyOf p ≠ own := by
  obtain ⟨a, ha, hown⟩ := h
  rw [Insertion.keyOf, ha]
  exact fun heq => hown (heq ▸ a.name_mem_segments)

namespace Document

variable {own : String} {other D E : Document} {R body : Mapping Value} {v : Value}

theorem Reaches.ne {name : String} (h : D.Reaches v name) (hD : ∀ p ∈ D.placeholders, p.Spares own)
    (hv : ∀ p ∈ v.placeholders, p.Spares own) : name ≠ own := by
  have hlabel : ∀ (p : Placeholder) a, p.Spares own → Address.parse p.expr = some a → a.label ≠ own := by
    rintro p a ⟨_, ha', hown⟩ ha rfl
    cases ha.symm.trans ha'
    exact hown (List.mem_cons_self ..)
  cases h with
  | own hp ha => exact hlabel _ _ (hv _ hp) ha
  | through _ hfind hp ha => exact hlabel _ _ (hD _ (mem_placeholders_of_find? hfind hp)) ha

theorem spares_of_mem_labels (hD : ∀ p ∈ D.placeholders, p.Spares own) {entry : String × Value}
    (hentry : entry ∈ D.labels) : ∀ p ∈ entry.2.placeholders, p.Spares own :=
  fun p hp => hD p (List.mem_append_left _ (Value.mem_placeholdersOfEntries hentry hp))

theorem map_tuckEntry_of_get? {m : Mapping Value} (labels : Mapping Value) (h : Mapping.Distinct m)
    (hget : Mapping.get? m own = some (.mapping body)) :
    m.map (tuckEntry own labels) =
      Mapping.insert m own (.mapping (Mapping.extend [(own, .mapping labels)] body)) := by
  induction m with
  | nil => cases hget
  | cons entry m ih =>
    obtain ⟨name, v⟩ := entry
    obtain ⟨hname, hrest⟩ := h.of_cons
    rw [Mapping.get?] at hget
    split at hget
    next heq =>
      cases heq
      cases hget
      rw [List.map_cons, map_tuckEntry_of_notMem labels hname, Mapping.insert, if_pos rfl, tuckEntry,
        if_pos rfl]
    next hne => rw [List.map_cons, tuckEntry_of_ne labels hne, ih hrest hget, Mapping.insert, if_neg hne]

section Tucks

variable (h : D.Tucks own other E) (hD : D.Distinct) (hsound : D.Sound Value.WellKeyed)
  (hspares : ∀ p ∈ D.placeholders, p.Spares own)

include h hspares in
theorem Tucks.find?_of_reaches {entry : String × Value} (hentry : entry ∈ D.labels) {name : String}
    (hname : D.Reaches entry.2 name) : D.find? name = E.find? name :=
  h.found name (hname.ne hspares (spares_of_mem_labels hspares hentry))

include h hD hsound hspares in
theorem Tucks.resolve_taken (hR : D.resolvedLabels = .ok R) : E.resolve (.mapping other.labels) =
    .ok (.mapping (Mapping.within (Mapping.keys other.labels) R)) := by
  have hsubset := Mapping.within_subset (Mapping.keys other.labels) D.labels
  have hplain : ∀ entry ∈ Mapping.within (Mapping.keys other.labels) D.labels,
      entry.2.merges = false := by
    intro entry hentry
    obtain ⟨_, hmapping⟩ := (hsound.labels _ (hsubset hentry)).mapping
    rw [hmapping]
    rfl
  have heach := resolveEach_within (Mapping.keys other.labels) hR
  rw [resolveEach_of_reaches fun _ hentry _ => h.find?_of_reaches hspares (hsubset hentry)] at heach
  rw [← h.taken, resolve_labels hD.labels.within hplain heach, h.taken]

include hsound hspares in
theorem notMem_keys_of_spares {entries : Mapping Value} (hentry : (own, .mapping entries) ∈ D.labels)
    (hresolve : D.resolve (.mapping entries) = .ok v) (hfree : v.get? own = none) :
    own ∉ Mapping.keys entries := by
  obtain ⟨_, hstands⟩ := Value.wellKeyed_mapping.1 (hsound.labels _ hentry).value
  refine notMem_keys_of_resolve hresolve hfree (fun entry h => (hstands entry h).key) ?_
  intro entry h p hp
  have hmem : p ∈ entry.2.placeholders := by
    rw [hp]
    exact List.mem_singleton_self p
  exact (spares_of_mem_labels hspares hentry p (Value.mem_placeholdersOfEntries h hmem)).keyOf_ne

include h hD hsound hspares in
theorem Tucks.resolve_label (hR : D.resolvedLabels = .ok R) {entries : Mapping Value}
    (hentry : (own, .mapping entries) ∈ D.labels)
    (hresolve : D.resolve (.mapping entries) = .ok (.mapping body)) (hfree : Mapping.get? body own = none) :
    E.resolve (.mapping (Mapping.extend [(own, .mapping other.labels)] entries)) =
      .ok (.mapping ((own, .mapping (Mapping.within (Mapping.keys other.labels) R)) :: body)) := by
  have hnot := notMem_keys_of_spares hsound hspares hentry hresolve hfree
  have hdistinct := (Value.wellKeyed_mapping.1 (hsound.labels _ hentry).value).1
  have hfront : Mapping.extend [(own, .mapping other.labels)] entries =
      (own, .mapping other.labels) :: entries :=
    (Mapping.extend_cons_of_notMem hnot []).trans (congrArg _ (Mapping.ofList_of_distinct hdistinct))
  have hsame : D.resolve (.mapping entries) = E.resolve (.mapping entries) :=
    resolve_of_reaches fun _ => h.find?_of_reaches hspares hentry
  rw [hfront]
  exact resolve_cons (hsame ▸ hresolve) hfree rfl (h.resolve_taken hD hsound hspares hR)

include h hD hsound hspares in
/-- With an import in front of a label and inside it the same labels are shown, but for the imported ones,
which are the first entry of the label instead. -/
theorem Tucks.resolvedLabels (hother : own ∉ Mapping.keys other.labels)
    (hkey : own ∈ Mapping.keys D.labels) (hR : D.resolvedLabels = .ok R)
    (hfree : ∀ v, Mapping.get? R own = some v → v.get? own = none) :
    ∃ body, Mapping.get? R own = some (.mapping body) ∧ E.resolvedLabels = .ok
      (Mapping.insert (Mapping.without (Mapping.keys other.labels) R) own
        (.mapping ((own, .mapping (Mapping.within (Mapping.keys other.labels) R)) :: body))) := by
  obtain ⟨_, hlabel⟩ := Option.isSome_iff_exists.1 ((Mapping.mem_keys_iff ..).1 hkey)
  have hentry := Mapping.mem_of_get? hlabel
  obtain ⟨entries, hmapping⟩ := (hsound.labels _ hentry).mapping
  cases hmapping
  obtain ⟨v, hv, hresolve⟩ := resolve_of_resolvedLabels hR hlabel
  have hfree := hfree v hv
  obtain ⟨ws, _, hbody⟩ := bind_eq_ok.1 hresolve
  cases hbody
  -- Of the labels that are left only this one has another body.
  have hfirst := h.resolve_label hD hsound hspares hR hentry hresolve hfree
  have hrest := resolveEach_without (Mapping.keys other.labels) hR
  rw [resolveEach_of_reaches fun _ hentry _ =>
    h.find?_of_reaches hspares (Mapping.without_subset _ _ hentry)] at hrest
  have hget := (Mapping.get?_without hother D.labels).trans hlabel
  refine ⟨_, hv, ?_⟩
  rw [Document.resolvedLabels, h.labels, map_tuckEntry_of_get? _ hD.labels.without hget]
  exact resolveEach_insert hrest hfirst

end Tucks

end Document

end Loon
