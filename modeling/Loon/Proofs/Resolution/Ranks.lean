import Loon.Proofs.Resolution.Agreement
import Loon.Proofs.Resolution.Throughout
import Mathlib.Order.RelClasses

namespace Loon

open Value (References)

namespace Document

/-- The address leads somewhere: to a label, and to an entry of it that does not merge if it names a space. -/
def HasTarget (d : Document) (a : Address) : Prop :=
  ∃ label, d.find? a.label = some label ∧
    ∀ space ∈ a.space, ∃ v, label.get? space = some v ∧ v.merges = false

def LeadsTo (d : Document) (A : String → Prop) (p : Placeholder) : Prop :=
  ∃ a, Address.parse p.expr = some a ∧ d.HasTarget a ∧ A a.label

def RankedBy {α : Type} [LT α] (d : Document) (rank : String → α) : Prop :=
  ∀ entry, entry ∈ d.labels ∨ entry ∈ d.hidden → ∀ p ∈ entry.2.placeholders,
    d.LeadsTo (fun label => rank label < rank entry.1) p

variable {d : Document}

open Attempt

def forgetful : Simulation (Except Error) Attempt where
  Rel R x y := ∀ a, x = .ok a → ∃ b, y = .done b ∧ R a b
  RelError _ _ := True
  pure h := by
    rintro _ ⟨⟩
    exact ⟨_, rfl, h⟩
  bind h hf := by
    intro c hc
    obtain ⟨a, ha, hc⟩ := bind_eq_ok.1 hc
    obtain ⟨b, hb, hab⟩ := h a ha
    obtain ⟨e, he, hce⟩ := hf a b hab c hc
    exact ⟨e, bind_eq_done.2 ⟨b, hb, he⟩, hce⟩
  throw _ := nofun

theorem dereference_of_once {p : Placeholder} {w : Value}
    (h : d.dereferenceOnce d.dereference p = .ok w) : d.dereference p = .ok w := by
  have hsteps : forgetful.Steps Eq d.dereference (d.followWithin (d.rounds + 1)) :=
    .of_eq fun q w hw => ⟨w, follow_of_resolve_ok (v := .placeholder q) hw, rfl⟩
  obtain ⟨_, hround, rfl⟩ := dereferenceOnce_eq forgetful hsteps (fun _ => trivial) w h
  have hfollow : (Value.placeholder p).resolve (d.followWithin (d.rounds + 2)) = .done w := hround
  exact ended_eq_done.1 (resolve_of_follow hfollow nofun)

section Ranks

variable {α : Type} [LT α] {rank : String → α} {v : Value}

abbrev Never : Error → Prop := fun _ => False

theorem exists_of_ends_never {β : Type} {R : β → Prop} {x : Except Error β} (h : Ends Never R x) :
    ∃ a, x = .ok a := by
  cases x with
  | ok a => exact ⟨a, rfl⟩
  | error e => exact h.elim

theorem ends_never_dereference {A : Placeholder → Prop} (h : ∀ p, A p → ∃ w, d.dereference p = .ok w) :
    d.dereference.Ends Never (References A) := by
  intro p hp
  obtain ⟨w, hw⟩ := h p (hp p rfl)
  have hsettled : w.Settled := settled_of_resolve (v := .placeholder p) hw
  rw [hw]
  exact hsettled.references A

theorem RankedBy.find? (h : d.RankedBy rank) {name : String} (hfind : d.find? name = some v) :
    v.Throughout (References (d.LeadsTo fun label => rank label < rank name)) :=
  Value.throughout_references.2 (h (name, v) (mem_of_find? hfind))

theorem RankedBy.dereferenceOnce (h : d.RankedBy rank) {p : Placeholder} {a : Address}
    (hp : Address.parse p.expr = some a) (htarget : d.HasTarget a)
    (hless : ∀ q, d.LeadsTo (fun label => rank label < rank a.label) q → ∃ w, d.dereference q = .ok w) :
    ∃ w, d.dereferenceOnce d.dereference p = .ok w := by
  have hderef := ends_never_dereference hless
  obtain ⟨label, hlabel, hspace⟩ := htarget
  rw [Document.dereferenceOnce, hp]
  dsimp only
  rw [hlabel]
  refine exists_of_ends_never <| (ends_scope hderef Value.ofLeaves_references (h.find? hlabel) ?_).bind
    fun _ _ hscope => ends_target hderef Value.ofLeaves_references hscope
  -- The only failure of a round is a space that is not there.
  intro space hname hmerges
  obtain ⟨v, hv, hplain⟩ := hspace space hname
  exact Bool.false_ne_true (hplain.symm.trans (hmerges v hv))

variable [WellFoundedLT α]

theorem RankedBy.exists_dereference (h : d.RankedBy rank) {p : Placeholder}
    (hp : d.LeadsTo (fun _ => True) p) : ∃ w, d.dereference p = .ok w := by
  suffices ∀ r q, d.LeadsTo (fun label => rank label = r) q → ∃ w, d.dereference q = .ok w by
    obtain ⟨a, ha, htarget, -⟩ := hp
    exact this _ p ⟨a, ha, htarget, rfl⟩
  intro r
  induction r using WellFoundedLT.induction with
  | ind r ih =>
    rintro q ⟨a, ha, htarget, rfl⟩
    obtain ⟨w, hw⟩ := h.dereferenceOnce ha htarget fun q' ⟨b, hb, hnext, hless⟩ =>
      ih _ hless q' ⟨b, hb, hnext, rfl⟩
    exact ⟨w, dereference_of_once hw⟩

theorem RankedBy.exists_resolve (h : d.RankedBy rank)
    (hv : ∀ p ∈ v.placeholders, d.LeadsTo (fun _ => True) p) : ∃ w, d.resolve v = .ok w :=
  exists_of_ends_never <| Value.ends_resolve (ends_never_dereference fun _ => h.exists_dereference)
    Value.ofLeaves_references (Value.throughout_references.2 hv)

/-- A document of which the labels have ranks is resolved, and so is every reference that leads somewhere,
whether it stands in the document or not. The labels need not even be mappings. -/
theorem resolves_of_rankedBy (h : d.RankedBy rank) :
    (∃ R, d.resolvedLabels = .ok R) ∧
      ∀ p a, Address.parse p.expr = some a → d.HasTarget a → ∃ w, d.dereference p = .ok w := by
  constructor
  · refine ⟨_, resolveEach_eq_ok.2 ⟨fun entry hentry => h.exists_resolve fun p hp => ?_, rfl⟩⟩
    obtain ⟨a, ha, htarget, -⟩ := h entry (.inl hentry) p hp
    exact ⟨a, ha, htarget, trivial⟩
  · exact fun p a ha htarget => h.exists_dereference ⟨a, ha, htarget, trivial⟩

theorem resolves_of_rankedBy_pointer :
    let d : Document := ⟨[("svc", .mapping [("urls", .list [.placeholder ⟨"app:db.host", false, none⟩])]),
        ("app", .mapping [("db", .placeholder ⟨"base:db", false, none⟩),
          ("base", .placeholder ⟨"base", true, none⟩)])],
      [("base", .mapping [("db", .mapping [("host", .string "h")])])]⟩
    let rank : String → Nat := fun name => if name = "base" then 0 else if name = "app" then 1 else 2
    let p : Placeholder := ⟨" app : db . host ", false, none⟩
    d.RankedBy rank ∧ (∃ R, d.resolvedLabels = .ok R) ∧
      Address.parse p.expr = some ⟨"app", some "db", some "host"⟩ ∧
      d.HasTarget ⟨"app", some "db", some "host"⟩ ∧ ∃ w, d.dereference p = .ok w := by
  intro d rank p
  have happ : d.HasTarget ⟨"app", some "db", some "host"⟩ := by
    refine ⟨_, rfl, ?_⟩
    rintro _ ⟨⟩
    exact ⟨_, rfl, rfl⟩
  have hdb : d.HasTarget ⟨"base", some "db", none⟩ := by
    refine ⟨_, rfl, ?_⟩
    rintro _ ⟨⟩
    exact ⟨_, rfl, rfl⟩
  have hbase : d.HasTarget ⟨"base", none, none⟩ := ⟨_, rfl, nofun⟩
  have hranked : d.RankedBy rank := by
    intro entry hentry q hq
    simp only [d, List.mem_cons, List.not_mem_nil, or_false, or_assoc] at hentry
    rcases hentry with rfl | rfl | rfl
    · simp only [Value.placeholders, Value.placeholdersOfEntries, Value.placeholdersOfItems,
        List.append_nil, List.mem_singleton] at hq
      subst hq
      exact ⟨_, by decide, happ, by decide⟩
    · simp only [Value.placeholders, Value.placeholdersOfEntries, List.append_nil, List.mem_append,
        List.mem_singleton] at hq
      rcases hq with rfl | rfl
      · exact ⟨_, by decide, hdb, by decide⟩
      · exact ⟨_, by decide, hbase, by decide⟩
    · simp [Value.placeholders, Value.placeholdersOfEntries] at hq
  have hp : Address.parse p.expr = some ⟨"app", some "db", some "host"⟩ := by decide
  obtain ⟨hlabels, hreferences⟩ := resolves_of_rankedBy hranked
  exact ⟨hranked, hlabels, hp, happ, hreferences p _ hp happ⟩

end Ranks

end Document

end Loon
