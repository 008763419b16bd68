import Loon.Statement
import Mathlib.Computability.Language

/-!
The order in which lines may stand, as a language over the kinds of lines. Three stages recognise it
while a source is read: outside labels, in a label, and in a space, which may be a list already.
-/

open scoped Computability

namespace Loon

inductive LineKind
  | openLabel
  | openSpace
  | closeSpace
  | closeLabel
  | assign
  | importFile
  | inject
  | item
deriving DecidableEq, Repr

def Statement.kind : Statement → LineKind
  | openLabel .. => .openLabel
  | openSpace _ => .openSpace
  | closeSpace => .closeSpace
  | closeLabel => .closeLabel
  | assign .. => .assign
  | importFile _ => .importFile
  | inject .. => .inject
  | item _ => .item

namespace LineKind

def letter (kind : LineKind) : Language LineKind := {[kind]}

def content : Language LineKind := letter assign + letter item

def space : Language LineKind := letter openSpace * content∗ * letter closeSpace

def label : Language LineKind := letter openLabel * (content + space)∗ * letter closeLabel

def document : Language LineKind := label∗

def inLabel : Language LineKind := (content + space)∗ * (letter closeLabel * document)

def inSpace : Language LineKind := content∗ * (letter closeSpace * inLabel)

variable {kind other : LineKind} {kinds : List LineKind} {l m : Language LineKind}

theorem kstar_mul (l m : Language LineKind) : l∗ * m = m + l * (l∗ * m) := by
  rw [← mul_assoc, ← one_add_mul, Language.one_add_self_mul_kstar_eq_kstar]

theorem document_eq : document = 1 + letter openLabel * inLabel := by
  rw [document, ← Language.one_add_self_mul_kstar_eq_kstar, ← document, label, inLabel]
  simp only [mul_assoc]

theorem inLabel_eq :
    inLabel = letter closeLabel * document + (content * inLabel + letter openSpace * inSpace) := by
  calc inLabel = letter closeLabel * document + (content + space) * inLabel := kstar_mul _ _
    _ = letter closeLabel * document + (content * inLabel + space * inLabel) := by rw [add_mul]
    _ = _ := by rw [space, inSpace, mul_assoc, mul_assoc]

theorem inSpace_eq : inSpace = letter closeSpace * inLabel + content * inSpace := kstar_mul _ _

theorem mem_letter : kinds ∈ letter kind ↔ kinds = [kind] := Iff.rfl

@[simp] theorem nil_mem_letter_mul : [] ∉ letter kind * l := by
  simp [Language.mem_mul, mem_letter]

@[simp] theorem cons_mem_letter_mul :
    other :: kinds ∈ letter kind * l ↔ other = kind ∧ kinds ∈ l := by
  simp [Language.mem_mul, mem_letter, eq_comm, and_comm]

@[simp] theorem nil_mem_content_mul : [] ∉ content * l := by
  rw [content, add_mul, Language.mem_add]
  simp

@[simp] theorem cons_mem_content_mul :
    kind :: kinds ∈ content * l ↔ (kind = assign ∨ kind = item) ∧ kinds ∈ l := by
  rw [content, add_mul, Language.mem_add, cons_mem_letter_mul, cons_mem_letter_mul, or_and_right]

theorem nil_mem_document : [] ∈ document := Language.nil_mem_kstar _

theorem nil_notMem_inLabel : [] ∉ inLabel := by
  rw [inLabel_eq, Language.mem_add, Language.mem_add]
  simp

theorem nil_notMem_inSpace : [] ∉ inSpace := by
  rw [inSpace_eq, Language.mem_add]
  simp

theorem cons_mem_document : kind :: kinds ∈ document ↔ kind = openLabel ∧ kinds ∈ inLabel := by
  rw [document_eq, Language.mem_add, Language.mem_one, cons_mem_letter_mul]
  simp

theorem cons_mem_inLabel :
    kind :: kinds ∈ inLabel ↔ kind = closeLabel ∧ kinds ∈ document ∨
      (kind = assign ∨ kind = item) ∧ kinds ∈ inLabel ∨ kind = openSpace ∧ kinds ∈ inSpace := by
  conv_lhs => rw [inLabel_eq, Language.mem_add, Language.mem_add]
  simp

theorem cons_mem_inSpace :
    kind :: kinds ∈ inSpace ↔ kind = closeSpace ∧ kinds ∈ inLabel ∨
      (kind = assign ∨ kind = item) ∧ kinds ∈ inSpace := by
  conv_lhs => rw [inSpace_eq, Language.mem_add]
  simp

def Unmixed (kinds : List LineKind) : Prop :=
  ∀ before inner after, kinds = before ++ openSpace :: (inner ++ after) → closeSpace ∉ inner →
    inner.Pairwise fun kind other => kind = item → other ≠ assign

def UnmixedIn (isList : Bool) (kinds : List LineKind) : Prop :=
  ∀ inner after, kinds = inner ++ after → closeSpace ∉ inner →
    (isList = true → assign ∉ inner) ∧ inner.Pairwise fun kind other => kind = item → other ≠ assign

theorem unmixed_nil : Unmixed [] := by
  intro before inner after h
  simp at h

theorem unmixed_cons :
    Unmixed (kind :: kinds) ↔ (kind = openSpace → UnmixedIn false kinds) ∧ Unmixed kinds := by
  constructor
  · refine fun h => ⟨?_, fun before inner after heq => ?_⟩
    · rintro rfl inner after rfl hclose
      exact ⟨nofun, h [] inner after rfl hclose⟩
    · exact h (kind :: before) inner after (congrArg (kind :: ·) heq)
  · rintro ⟨hopen, h⟩ (_ | ⟨first, before⟩) inner after heq hclose
    · obtain ⟨rfl, rfl⟩ := List.cons.inj heq
      exact (hopen rfl inner after rfl hclose).2
    · exact h before inner after (List.cons.inj heq).2 hclose

theorem unmixedIn_closeSpace {isList : Bool} : UnmixedIn isList (closeSpace :: kinds) := by
  rintro (_ | ⟨first, inner⟩) after heq hclose
  · simp
  · obtain ⟨rfl, _⟩ := List.cons.inj heq
    simp at hclose

theorem unmixedIn_cons {isList : Bool} (hkind : kind ≠ closeSpace) :
    UnmixedIn isList (kind :: kinds) ↔
      (kind = assign → isList = false) ∧ UnmixedIn (isList || kind = item) kinds := by
  constructor
  · refine fun h => ⟨?_, fun inner after heq hclose => ?_⟩
    · rintro rfl
      simpa using (h [assign] kinds rfl (by simp)).1
    · obtain ⟨hlist, hordered⟩ :=
        h (kind :: inner) after (congrArg (kind :: ·) heq) (by simp [hkind.symm, hclose])
      rw [List.mem_cons, not_or] at hlist
      rw [List.pairwise_cons] at hordered
      refine ⟨fun hafter hassign => ?_, hordered.2⟩
      rcases Bool.or_eq_true_iff.1 hafter with hafter | hitem
      · exact (hlist hafter).2 hassign
      · exact hordered.1 assign hassign (of_decide_eq_true hitem) rfl
  · rintro ⟨hassign, h⟩ (_ | ⟨first, inner⟩) after heq hclose
    · simp
    · obtain ⟨rfl, hrest⟩ := List.cons.inj heq
      rw [List.mem_cons, not_or] at hclose
      obtain ⟨hlist, hordered⟩ := h inner after hrest hclose.2
      rw [List.mem_cons, not_or, List.pairwise_cons]
      refine ⟨fun hisList => ⟨fun heq => ?_, hlist (by simp [hisList])⟩, ?_, hordered⟩
      · exact Bool.false_ne_true ((hassign heq.symm).symm.trans hisList)
      · rintro _ hmem hitem rfl
        exact hlist (by simp [hitem]) hmem

end LineKind

inductive Stage
  | outside
  | inLabel
  | inSpace (isList : Bool)
deriving DecidableEq, Repr

namespace Stage

open LineKind

def next : Stage → LineKind → Option Stage
  | outside, .openLabel => some inLabel
  | inLabel, .openSpace => some (inSpace false)
  | inLabel, .assign => some inLabel
  | inLabel, .item => some inLabel
  | inLabel, .closeLabel => some outside
  | inSpace false, .assign => some (inSpace false)
  | inSpace _, .item => some (inSpace true)
  | inSpace _, .closeSpace => some inLabel
  | _, _ => none

def run : Stage → List LineKind → Option Stage
  | stage, [] => some stage
  | stage, kind :: kinds => (stage.next kind).bind fun stage => stage.run kinds

def Admits : Stage → List LineKind → Prop
  | outside, kinds => kinds ∈ document
  | inLabel, kinds => kinds ∈ LineKind.inLabel
  | inSpace isList, kinds => kinds ∈ LineKind.inSpace ∧ UnmixedIn isList kinds

theorem admits_nil {stage : Stage} : stage.Admits [] ↔ stage = outside := by
  cases stage with
  | outside => simp [Admits, nil_mem_document]
  | inLabel => simp [Admits, nil_notMem_inLabel]
  | inSpace isList => simp [Admits, nil_notMem_inSpace]

theorem admits_cons {stage : Stage} {kind : LineKind} {kinds : List LineKind} :
    stage.Admits (kind :: kinds) ∧ (kind = openSpace → UnmixedIn false kinds) ↔
      ∃ after, stage.next kind = some after ∧ after.Admits kinds := by
  cases stage with
  | outside =>
    rw [Admits, cons_mem_document]
    cases kind <;> simp [next, Admits]
  | inLabel =>
    rw [Admits, cons_mem_inLabel]
    cases kind <;> simp [next, Admits]
  | inSpace isList =>
    rw [Admits, cons_mem_inSpace]
    cases kind with
    | closeSpace => simp [next, Admits, unmixedIn_closeSpace]
    | assign => cases isList <;> simp [next, Admits, unmixedIn_cons]
    | item => simp [next, Admits, unmixedIn_cons]
    | _ => simp [next]

/-- The stages recognise the words of the language in which no space is mixed. -/
theorem run_eq_outside_iff (stage : Stage) (kinds : List LineKind) :
    stage.run kinds = some outside ↔ stage.Admits kinds ∧ Unmixed kinds := by
  induction kinds generalizing stage with
  | nil => simp [run, admits_nil, unmixed_nil]
  | cons kind kinds ih =>
    rw [run, Option.bind_eq_some_iff, unmixed_cons, ← and_assoc, admits_cons]
    simp only [ih, ← and_assoc, exists_and_right]

end Stage

end Loon
