import Loon.Proofs.Reading.Keys
import Loon.Proofs.Resolution.Settled
import Loon.Proofs.Resolution.Throughout

namespace Loon

namespace Value

def HasDistinctKeys : Value → Prop
  | mapping entries => Mapping.Distinct entries
  | _ => True

def Unmerging : Value → Prop
  | mapping entries => ∀ entry ∈ entries, entry.2.merges = false
  | _ => True

theorem hasDistinctKeys_mapping {entries : Mapping Value} :
    (mapping entries).Throughout HasDistinctKeys ↔
      Mapping.Distinct entries ∧ ∀ entry ∈ entries, entry.2.Throughout HasDistinctKeys := by
  constructor
  · exact fun h => ⟨h.self, h.entry⟩
  · rintro ⟨hdistinct, hentries⟩ w (_ | ⟨hentry, hw⟩)
    · exact hdistinct
    · exact hentries _ hentry w hw

mutual

theorem settled_of_placeholders :
    ∀ {v : Value}, v.Throughout HasDistinctKeys → v.placeholders = [] → v.Settled
  | .placeholder _, _, h => nomatch h
  | .mapping _, hv, h => .mapping hv.self (settled_of_placeholdersOfEntries hv.entry h)
  | .list _, hv, h => .list (settled_of_placeholdersOfItems hv.item h)
  | .string text, _, _ => .string text
  | .number x, _, _ => .number x
  | .bool b, _, _ => .bool b
  | .null, _, _ => .null

theorem settled_of_placeholdersOfEntries :
    ∀ {entries : List (String × Value)}, (∀ entry ∈ entries, entry.2.Throughout HasDistinctKeys) →
      placeholdersOfEntries entries = [] → ∀ entry ∈ entries, entry.2.Settled
  | [], _, _ => nofun
  | (_, _) :: _, hentries, h => by
    rw [placeholdersOfEntries, List.append_eq_nil_iff] at h
    rw [List.forall_mem_cons] at hentries ⊢
    exact ⟨settled_of_placeholders hentries.1 h.1, settled_of_placeholdersOfEntries hentries.2 h.2⟩

theorem settled_of_placeholdersOfItems :
    ∀ {items : List Value}, (∀ v ∈ items, v.Throughout HasDistinctKeys) →
      placeholdersOfItems items = [] → ∀ v ∈ items, v.Settled
  | [], _, _ => nofun
  | _ :: _, hitems, h => by
    rw [placeholdersOfItems, List.append_eq_nil_iff] at h
    rw [List.forall_mem_cons] at hitems ⊢
    exact ⟨settled_of_placeholders hitems.1 h.1, settled_of_placeholdersOfItems hitems.2 h.2⟩

end

end Value

section Search

variable {m : Type → Type} [Monad m] [LawfulMonad m] (deref : Dereference m)

theorem firstSupply_of_unmerging {entries : Mapping Value}
    (h : ∀ entry ∈ entries, entry.2.merges = false) (key : String) :
    firstSupply deref key entries = pure (Mapping.get? entries key) := by
  induction entries with
  | nil => rfl
  | cons entry entries ih =>
    obtain ⟨name, v⟩ := entry
    rw [List.forall_mem_cons] at h
    rw [firstSupply, Value.resolveMerge, h.1, if_neg Bool.false_ne_true, pure_bind,
      Write.supply?_plain, Mapping.get?]
    by_cases hname : name = key
    · rw [if_pos hname, if_pos hname]
    · rw [if_neg hname, if_neg hname]
      exact ih h.2

theorem Value.search_of_unmerging {v : Value} (hdistinct : v.HasDistinctKeys) (h : v.Unmerging)
    (key : String) : v.search deref key = pure (v.get? key) := by
  cases v with
  | mapping entries =>
    rw [Value.search, firstSupply_of_unmerging deref fun e he => h e (List.mem_reverse.1 he),
      Mapping.get?_reverse hdistinct]
    rfl
  | _ => rfl

end Search

namespace Document

open Attempt

structure HasDistinctKeys (d : Document) : Prop where
  labels : (Value.mapping d.labels).Throughout Value.HasDistinctKeys
  hidden : (Value.mapping d.hidden).Throughout Value.HasDistinctKeys

def resolveUnder (d : Document) (stack : List String) (v : Value) : Except Error Value :=
  v.resolve (d.dereferenceWithin d.rounds stack)

/-- No placeholder stands in the way of an address: nothing merges in its label, and its space, if it has
one that is there, is none, nor does anything merge in it when a field of it is asked for. -/
structure Clear (d : Document) (a : Address) : Prop where
  label : ∀ label, d.find? a.label = some label → label.Unmerging
  space : ∀ label space scope, d.find? a.label = some label → a.space = some space →
    label.get? space = some scope →
    (∀ p, scope ≠ .placeholder p) ∧ (a.field.isSome → scope.Unmerging)

variable {d : Document} {a : Address} {v : Value}

theorem HasDistinctKeys.find? (h : d.HasDistinctKeys) {name : String} (hfind : d.find? name = some v) :
    v.Throughout Value.HasDistinctKeys :=
  (Document.mem_of_find? hfind).elim (h.labels.entry _) (h.hidden.entry _)

theorem mem_placeholders_of_lookup (hlookup : d.lookup a = .ok (some v)) :
    ∀ q ∈ v.placeholders, q ∈ d.placeholders :=
  Value.throughout_references.1 <| throughout_lookup
    (fun _ _ hfind => Value.throughout_references.2 fun _ => mem_placeholders_of_find? hfind) hlookup

def followed (deref : Dereference (Except Error)) (p : Placeholder) :
    Except String (Option Value) → Except Error Value
  | .error name => .error (danglingError p name)
  | .ok none => .ok .null
  | .ok (some v) => v.resolve deref

theorem target_of_unmerging (deref : Dereference (Except Error)) (p : Placeholder)
    (hdistinct : v.HasDistinctKeys) {field : Option String} (h : field.isSome → v.Unmerging) :
    target deref v field = followed deref p (.ok (fieldOf v field)) := by
  cases field with
  | none => rfl
  | some field =>
    rw [target, Value.search_of_unmerging deref hdistinct (h rfl), pure_bind, fieldOf]
    cases v.get? field <;> rfl

theorem resolveAlone_of_ne (deref : Dereference (Except Error)) (h : ∀ p, v ≠ .placeholder p) :
    v.resolveAlone deref = .ok v := by
  cases v with
  | placeholder p => exact absurd rfl (h p)
  | _ => rfl

theorem dereferenceOnce_of_clear (hd : d.HasDistinctKeys) (hclear : d.Clear a)
    (deref : Dereference (Except Error)) {p : Placeholder} (hp : Address.parse p.expr = some a) :
    d.dereferenceOnce deref p = followed deref p (d.lookup a) := by
  rw [dereferenceOnce, hp, lookup]
  dsimp only
  cases hlabel : d.find? a.label with
  | none => rfl
  | some label =>
    have hdistinct := hd.find? hlabel
    have hunmerging := hclear.label label hlabel
    cases hspace : a.space with
    | none => exact target_of_unmerging deref p hdistinct.self fun _ => hunmerging
    | some space =>
      dsimp only
      rw [scope, Value.search_of_unmerging deref hdistinct.self hunmerging, pure_bind]
      cases hscope : label.get? space with
      | none => rfl
      | some entry =>
        obtain ⟨hne, hfield⟩ := hclear.space label space entry hlabel hspace hscope
        dsimp only
        rw [resolveAlone_of_ne deref hne]
        exact target_of_unmerging deref p (hdistinct.get? hscope).self hfield

theorem resolve_within_succ {stack : List String} {rounds : Nat}
    (hrounds : (d.pending stack).length ≤ rounds) (hv : ∀ q ∈ v.placeholders, q ∈ d.placeholders) :
    v.resolve (d.dereferenceWithin rounds stack) = v.resolve (d.dereferenceWithin (rounds + 1) stack) := by
  have hown : v.Related d.Own v := Value.Related.refl_of fun q hq => ⟨rfl, hv q hq⟩
  have hexact : ∀ n, (d.pending stack).length ≤ n →
      ended (v.resolve (d.dereferenceWithin n stack)) = v.resolve (d.guardedWithin (n + 1) stack) ∧
        ended (v.resolve (d.dereferenceWithin n stack)) ≠ .exhausted := by
    intro n hn
    have hsteps : exact.Steps d.Own (d.dereferenceWithin n stack) (d.guardedWithin (n + 1) stack) :=
      ⟨fun _ _ hqr => by rw [hqr.1], by
        rintro q _ ⟨rfl, hq⟩
        exact d.dereferenceWithin_exact n stack q (.inr ⟨hq, hn⟩)⟩
    exact agree_eq_iff.1 ((hsteps.resolve hown).mono fun _ _ h => h.eq_of fun _ _ hqr => hqr.1)
  obtain ⟨hfewer, hends⟩ := hexact rounds hrounds
  obtain ⟨hmore, -⟩ := hexact (rounds + 1) (Nat.le_succ_of_le hrounds)
  have hsame := (Simulation.Steps.of_eq (d.guardedWithin_below_succ (rounds + 1) stack)).resolve_eq v
  rw [← hfewer, ← hmore, below_iff] at hsame
  exact ended_injective (hsame.resolve_left hends)

theorem length_pending_le (d : Document) (stack : List String) :
    (d.pending stack).length ≤ d.placeholders.length := by
  have hfilter := List.length_filter_le (fun expr => !stack.contains expr)
    (d.placeholders.map Placeholder.expr)
  rwa [List.length_map] at hfilter

/-- The look-up and the reference agree where no placeholder stands in the way: what the one misses the
other is said to miss, a field that is not there is null, and what is found is resolved with the reference
on the stack. Without a placeholder in it, it is the result. -/
theorem dereference_lookup {p : Placeholder} (hd : d.HasDistinctKeys)
    (hp : Address.parse p.expr = some a) (hclear : d.Clear a) :
    (∀ name, d.lookup a = .error name → d.dereference p = .error (danglingError p name)) ∧
    (d.lookup a = .ok none → d.dereference p = .ok .null) ∧
    ∀ v, d.lookup a = .ok (some v) → d.dereference p = d.resolveUnder [p.expr] v ∧
      (v.hasPlaceholder = false → d.dereference p = .ok v) := by
  have hrounds : d.rounds = d.placeholders.length + 1 := by
    rw [rounds, placeholders, List.length_append]
  have hfollowed : d.dereference p =
      followed (d.dereferenceWithin d.placeholders.length [p.expr]) p (d.lookup a) := by
    rw [dereference, hrounds, dereferenceWithin]
    exact dereferenceOnce_of_clear hd hclear _ hp
  refine ⟨fun name hlookup => ?_, fun hlookup => ?_, fun v hlookup => ?_⟩
  · rw [hfollowed, hlookup]
    rfl
  · rw [hfollowed, hlookup]
    rfl
  · have hresolved : d.dereference p = d.resolveUnder [p.expr] v := by
      rw [hfollowed, hlookup, resolveUnder, hrounds]
      exact resolve_within_succ (d.length_pending_le _) (mem_placeholders_of_lookup hlookup)
    refine ⟨hresolved, fun hnone => ?_⟩
    have hsettled : v.Settled := Value.settled_of_placeholders
      (throughout_lookup (fun _ _ => hd.find?) hlookup) (by simpa [Value.hasPlaceholder] using hnone)
    rw [hresolved, resolveUnder, hsettled.resolve]
    rfl

theorem dereference_lookup_fields :
    let found : Value := .placeholder ⟨"m.x", false, none⟩
    let d : Document := ⟨[("l", .mapping [("s", .mapping [("k", found), ("n", .string "v")])]),
      ("m", .mapping [("x", .string "w")])], []⟩
    d.lookup ⟨"l", some "s", some "k"⟩ = .ok (some found) ∧
      d.dereference ⟨"l:s.k", false, none⟩ = d.resolveUnder ["l:s.k"] found ∧
      d.dereference ⟨"l:s.n", false, none⟩ = .ok (.string "v") := by
  intro found d
  have hstring : ∀ text, (Value.string text).Throughout Value.HasDistinctKeys := by
    rintro text _ ⟨⟩
    trivial
  have hfound : found.Throughout Value.HasDistinctKeys := Value.throughout_placeholder.2 trivial
  have hd : d.HasDistinctKeys := by
    constructor <;> simp [d, Value.hasDistinctKeys_mapping, Mapping.Distinct, hstring, hfound]
  have hclear : ∀ field, d.Clear ⟨"l", some "s", some field⟩ := by
    intro field
    constructor
    · rintro _ ⟨⟩
      simp [Value.Unmerging, Value.merges]
    · rintro _ _ _ ⟨⟩ ⟨⟩ ⟨⟩
      simp [Value.Unmerging, Value.merges, found]
  have hk : Address.parse "l:s.k" = some ⟨"l", some "s", some "k"⟩ := by decide
  have hn : Address.parse "l:s.n" = some ⟨"l", some "s", some "n"⟩ := by decide
  exact ⟨rfl, ((dereference_lookup hd hk (hclear "k")).2.2 found rfl).1,
    ((dereference_lookup hd hn (hclear "n")).2.2 (.string "v") rfl).2 rfl⟩

end Document

namespace FileTree

variable {t : FileTree} {chain : List Path} {source : Source} {s s' : Session} {d : Document}

/-- No key stands twice in what is read. -/
theorem Reads.hasDistinctKeys (h : t.Reads chain source s d s') (hs : s.Unmerging) :
    d.HasDistinctKeys := by
  have hdistinct : d.Distinct := Reader.distinct_of_read (Reader.read_eq_ok.2 ⟨s', h⟩)
  obtain ⟨hsound, -⟩ := h.wellKeyed hs
  have hkeys : ∀ {v : Value}, v.Throughout Value.WellKeyed → v.Throughout Value.HasDistinctKeys := by
    intro v hv w hw
    have := hv w hw
    cases w with
    | mapping entries => exact this.1
    | _ => trivial
  exact ⟨Value.hasDistinctKeys_mapping.2 ⟨hdistinct.labels, fun entry hentry =>
      hkeys (hsound.labels entry hentry).value⟩,
    Value.hasDistinctKeys_mapping.2 ⟨hdistinct.hidden, fun entry hentry =>
      hkeys (hsound.hidden entry hentry).value⟩⟩

end FileTree

end Loon
