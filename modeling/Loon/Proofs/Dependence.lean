import Loon.Analysis
import Loon.Proofs.Resolution.Agreement

namespace Loon

def Value.NamesOnly (names : List String) (v : Value) : Prop :=
  ∀ p ∈ v.placeholders, ∀ a ∈ Address.parse p.expr, a.label ∈ names

instance (names : List String) (v : Value) : Decidable (v.NamesOnly names) :=
  inferInstanceAs (Decidable (∀ p ∈ v.placeholders, ∀ a ∈ Address.parse p.expr, a.label ∈ names))

namespace Document

/-- The least set of names that holds the labels named in the value, and with each name those named
in what it stands for. -/
inductive Reaches (d : Document) (v : Value) : String → Prop
  | own {p a} : p ∈ v.placeholders → Address.parse p.expr = some a → Reaches d v a.label
  | through {name w p a} : Reaches d v name → d.find? name = some w → p ∈ w.placeholders →
      Address.parse p.expr = some a → Reaches d v a.label

variable {d d' : Document} {v : Value}

theorem Reaches.mem_of_closed {names : List String} {name : String} (h : d.Reaches v name)
    (hv : v.NamesOnly names) (hclosed : ∀ name ∈ names, ∀ w ∈ d.find? name, w.NamesOnly names) :
    name ∈ names := by
  induction h with
  | own hp ha => exact hv _ hp _ ha
  | through _ hfind hp ha ih => exact hclosed _ ih _ hfind _ hp _ ha

def Reached (d : Document) (v : Value) (p q : Placeholder) : Prop :=
  p = q ∧ ∀ a, Address.parse p.expr = some a → d.Reaches v a.label

theorem related_reached_self (d : Document) (v : Value) : v.Related (d.Reached v) v :=
  Value.Related.refl_of fun _ hp => ⟨rfl, fun _ ha => .own hp ha⟩

theorem related_find?_of_reaches {name : String} (h : d.Reaches v name) :
    Option.Rel (Value.Related (d.Reached v)) (d.find? name) (d.find? name) := by
  cases hfind : d.find? name with
  | none => exact .none
  | some w => exact .some (.refl_of fun _ hp => ⟨rfl, fun _ ha => .through h hfind hp ha⟩)

open Attempt

theorem guardedWithin_of_reaches (h : ∀ name, d.Reaches v name → d.find? name = d'.find? name)
    (depth : Nat) (stack : List String) {p : Placeholder} (hp : d.Reached v p p) :
    below.Rel (Value.Related (d.Reached v)) (d.guardedWithin depth stack p)
      (d'.guardedWithin depth stack p) := by
  induction depth generalizing stack p with
  | zero => exact .inl rfl
  | succ depth ih =>
    -- Both runs push the same expression, so they are cut off at the same places.
    rw [guardedWithin, guardedWithin]
    split
    · exact .inr (.inr (.failed rfl))
    · have steps : below.Steps (d.Reached v) (d.guardedWithin depth (p.expr :: stack))
          (d'.guardedWithin depth (p.expr :: stack)) := by
        refine ⟨fun q r hqr => by rw [hqr.1], ?_⟩
        rintro q _ ⟨rfl, hq⟩
        exact ih _ ⟨rfl, hq⟩
      refine steps.dereferenceOnce_of_named ⟨rfl, fun _ => rfl, rfl⟩ fun a ha => ?_
      rw [← h a.label (hp.2 a ha)]
      exact related_find?_of_reaches (hp.2 a ha)

theorem resolve_of_reaches (h : ∀ name, d.Reaches v name → d.find? name = d'.find? name) :
    d.resolve v = d'.resolve v := by
  let depth := max d.rounds d'.rounds + 1
  have steps : below.Steps (d.Reached v) (d.guardedWithin depth []) (d'.guardedWithin depth []) := by
    refine ⟨fun q r hqr => by rw [hqr.1], ?_⟩
    rintro q _ ⟨rfl, hq⟩
    exact guardedWithin_of_reaches h depth [] ⟨rfl, hq⟩
  have alike := steps.resolve (d.related_reached_self v)
  rw [d.resolve_guarded v (by omega), d'.resolve_guarded v (by omega)] at alike
  rcases alike with hcut | ⟨_, _, hfalse⟩ | hagree
  · exact absurd hcut (ended_ne_exhausted _)
  · exact hfalse.elim
  · have hsame := hagree.mono fun _ _ hxy => hxy.eq_of fun _ _ hpq => hpq.1
    exact ended_injective (agree_eq_iff.1 hsame).1

theorem resolveEach_of_reaches {m : Mapping Value}
    (h : ∀ entry ∈ m, ∀ name, d.Reaches entry.2 name → d.find? name = d'.find? name) :
    d.resolveEach m = d'.resolveEach m := by
  induction m with
  | nil => rfl
  | cons entry m ih =>
    rw [List.forall_mem_cons] at h
    rw [resolveEach, resolveEach, resolve_of_reaches h.1, ih h.2]

end Document

namespace FileTree

/-- A value resolves the same, to a value or to an error, where all names it reaches stand for the
same. So what a text is evaluated to stays the same when hidden labels that no visible label reaches
are added, removed or changed. -/
theorem resolve_depends_on_reached :
    (∀ (d d' : Document) (v : Value),
      (∀ name, d.Reaches v name → d.find? name = d'.find? name) → d.resolve v = d'.resolve v) ∧
    ∀ (t : FileTree) (text fileName : String) (d : Document) (hidden : Mapping Value),
      (t.readDocument text fileName).1 = .ok d →
      (∀ entry ∈ d.labels, ∀ name, d.Reaches entry.2 name →
        Mapping.get? hidden name = Mapping.get? d.hidden name) →
      Document.resolvedLabels { d with hidden } = t.labelsOf text fileName := by
  refine ⟨fun _ _ _ h => Document.resolve_of_reaches h, fun t text fileName d hidden hd h => ?_⟩
  rw [labelsOf, hd]
  refine (Document.resolveEach_of_reaches fun entry hentry name hname => ?_).symm
  rw [Document.find?, Document.find?, h entry hentry name hname]

theorem resolve_depends_on_reached_unused :
    let text := "(a)\nx = [b.k]\nend\n%(b)\nk = v\nend\n%(h)\ny = [h.y]\nend\n"
    ∃ d, (readDocument ⟨[], []⟩ text "main.loon").1 = .ok d ∧
      Mapping.keys d.hidden = ["b", "h"] ∧
      (∀ entry ∈ d.labels, ∀ name, d.Reaches entry.2 name → name = "b") ∧
      Document.resolvedLabels { d with hidden := Mapping.erase d.hidden "h" } =
        labelsOf ⟨[], []⟩ text "main.loon" ∧
      ∀ entry ∈ d.labels, d.resolve entry.2 =
        Document.resolve { d with hidden := Mapping.erase d.hidden "h" } entry.2 := by
  intro text
  let result := (readDocument ⟨[], []⟩ text "main.loon").1
  have hnames : (result.toOption.any fun d => Mapping.keys d.hidden = ["b", "h"] ∧
      (∀ entry ∈ d.labels, entry.2.NamesOnly ["b"]) ∧
      ∀ name ∈ ["b"], ∀ w ∈ d.find? name, w.NamesOnly ["b"]) = true := by decide +kernel
  cases hd : result with
  | error e =>
    rw [hd] at hnames
    cases hnames
  | ok d =>
    rw [hd] at hnames
    obtain ⟨hkeys, hlabels, hclosed⟩ := of_decide_eq_true hnames
    have hreach : ∀ entry ∈ d.labels, ∀ name, d.Reaches entry.2 name → name = "b" :=
      fun entry hentry name h => List.mem_singleton.1 (h.mem_of_closed (hlabels entry hentry) hclosed)
    have hget : ∀ entry ∈ d.labels, ∀ name, d.Reaches entry.2 name →
        Mapping.get? (Mapping.erase d.hidden "h") name = Mapping.get? d.hidden name := by
      intro entry hentry name h
      rw [Mapping.get?_erase, hreach entry hentry name h]
      rfl
    refine ⟨d, hd, hkeys, hreach, resolve_depends_on_reached.2 _ _ _ d _ hd hget, ?_⟩
    intro entry hentry
    refine resolve_depends_on_reached.1 d _ entry.2 fun name h => ?_
    rw [Document.find?, Document.find?, hget entry hentry name h]

end FileTree

end Loon
