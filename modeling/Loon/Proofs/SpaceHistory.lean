import Loon.Proofs.Reading.Gathered
import Loon.Proofs.Reading.InPlace

namespace Loon

namespace Insertion

def IsProper : Insertion → Prop
  | merge entries => Mapping.Distinct entries
  | _ => True

theorem IsProper.distinct_entries {insertion : Insertion} (h : insertion.IsProper) :
    Mapping.Distinct insertion.entries := by
  cases insertion with
  | pair key v => exact List.nodup_singleton key
  | item v => exact Mapping.distinct_nil
  | merge entries => exact h

def isItem : Insertion → Bool
  | item _ => true
  | _ => false

def items : Insertion → List Value
  | item v => [v]
  | _ => []

def refusal : Insertion → Option Keyed
  | pair .. => some .pair
  | merge _ => some .injection
  | item _ => none

theorem putInPlace_run (insertion : Insertion) (content : Space) :
    insertion.putInPlace.run content =
      match insertion.put content with
      | .ok content => (none, content)
      | .error attempted => (some attempted, content) := by
  cases insertion <;> cases content <;> rfl

end Insertion

namespace Space

open Insertion

def history (insertions : List Insertion) : List (Option Keyed) × Space :=
  (insertions.mapM putInPlace).run empty

/-- All that is put under keys, in order: later values win and first positions stay. -/
def gathered (insertions : List Insertion) : Mapping Value :=
  Mapping.ofList (insertions.flatMap Insertion.entries)

variable {content : Space} {m : Mapping Value} {insertion : Insertion} {insertions : List Insertion}

theorem put_keyed (hcontent : content.keyed? = some m) (hproper : insertion.IsProper)
    (h : insertion.isItem = false) :
    insertion.putInPlace.run content = (none, mapping (Mapping.extend m insertion.entries)) := by
  cases content with
  | list items => cases hcontent
  | mapping entries =>
    cases hcontent
    cases insertion with
    | item v => cases h
    | _ => rfl
  | empty =>
    cases hcontent
    cases insertion with
    | pair key v => rfl
    | item v => cases h
    | merge entries =>
      have hnew : Mapping.extend [] entries = entries := Mapping.ofList_of_distinct hproper
      rw [Insertion.entries, hnew]
      rfl

theorem put_item (hcontent : content.keyed? = some m) (v : Value) :
    (item v).putInPlace.run content = (none, list (m.map single ++ [v])) := by
  cases content <;> cases hcontent <;> rfl

theorem put_list (insertion : Insertion) (items : List Value) :
    insertion.putInPlace.run (list items) = (insertion.refusal, list (items ++ insertion.items)) := by
  cases insertion with
  | item v => rfl
  | _ => exact congrArg (fun items => (_, list items)) (List.append_nil items).symm

theorem run_keyed (hcontent : content.keyed? = some m) (hproper : ∀ i ∈ insertions, i.IsProper)
    (h : ∀ i ∈ insertions, i.isItem = false) :
    (insertions.mapM putInPlace).run content = (insertions.map fun _ => none,
      if insertions = [] then content
      else mapping (Mapping.extend m (insertions.flatMap Insertion.entries))) := by
  induction insertions generalizing content m with
  | nil => rfl
  | cons insertion insertions ih =>
    rw [List.forall_mem_cons] at hproper h
    rw [mapM_cons_run, put_keyed hcontent hproper.1 h.1, ih rfl hproper.2 h.2, if_neg (List.cons_ne_nil _ _),
      List.flatMap_cons, Mapping.extend_append, List.map_cons]
    split
    next hnil => rw [hnil, List.flatMap_nil, Mapping.extend_nil]
    · rfl

theorem run_list (insertions : List Insertion) (items : List Value) :
    (insertions.mapM putInPlace).run (list items) =
      (insertions.map refusal, list (items ++ insertions.flatMap Insertion.items)) := by
  induction insertions generalizing items with
  | nil => exact congrArg (fun items => ([], list items)) (List.append_nil items).symm
  | cons insertion insertions ih =>
    rw [mapM_cons_run, put_list, ih, List.flatMap_cons, List.append_assoc]
    rfl

theorem history_keyed (hproper : ∀ i ∈ insertions, i.IsProper)
    (h : ∀ i ∈ insertions, i.isItem = false) :
    history insertions = (insertions.map fun _ => none,
      if insertions = [] then empty else mapping (gathered insertions)) :=
  run_keyed rfl hproper h

theorem keyed?_history (hproper : ∀ i ∈ insertions, i.IsProper)
    (h : ∀ i ∈ insertions, i.isItem = false) :
    (history insertions).2.keyed? = some (gathered insertions) := by
  rw [history_keyed hproper h]
  cases insertions <;> rfl

theorem history_item {before after : List Insertion} {v : Value}
    (hproper : ∀ i ∈ before, i.IsProper) (h : ∀ i ∈ before, i.isItem = false) :
    history (before ++ item v :: after) =
      (before.map (fun _ => none) ++ none :: after.map refusal,
        list ((gathered before).map single ++ v :: after.flatMap Insertion.items)) := by
  have hbefore := keyed?_history hproper h
  have hanswers : (history before).1 = before.map fun _ => none := by rw [history_keyed hproper h]
  rw [history, mapM_append_run, mapM_cons_run, ← history, put_item hbefore, run_list, hanswers, List.append_assoc]
  rfl

def HasEntry : Space → String × Value → Prop
  | empty, _ => False
  | mapping entries, entry => entry ∈ entries
  | list items, entry => single entry ∈ items

def HasItem (content : Space) (v : Value) : Prop := ∃ items, content = list items ∧ v ∈ items

def keyedPart (insertions : List Insertion) : List Insertion := insertions.takeWhile (!·.isItem)

theorem keyedPart_cases (insertions : List Insertion) :
    (∀ i ∈ insertions, i.isItem = false) ∧ keyedPart insertions = insertions ∨
      ∃ before v after, insertions = before ++ item v :: after ∧ (∀ i ∈ before, i.isItem = false) ∧
        keyedPart insertions = before := by
  induction insertions with
  | nil => exact .inl ⟨nofun, rfl⟩
  | cons insertion insertions ih =>
    cases hitem : insertion.isItem with
    | true =>
      cases insertion with
      | item v => exact .inr ⟨[], v, insertions, rfl, nofun, rfl⟩
      | _ => cases hitem
    | false =>
      have hpart : keyedPart (insertion :: insertions) = insertion :: keyedPart insertions :=
        List.takeWhile_cons_of_pos (by simp [hitem])
      rw [hpart, List.forall_mem_cons]
      rcases ih with ⟨hkeyed, hrest⟩ | ⟨before, v, after, rfl, hkeyed, hrest⟩
      · exact .inl ⟨⟨hitem, hkeyed⟩, congrArg _ hrest⟩
      · exact .inr ⟨insertion :: before, v, after, rfl, List.forall_mem_cons.2 ⟨hitem, hkeyed⟩,
          congrArg _ hrest⟩

theorem mem_gathered {before after : List Insertion} {entry : String × Value}
    (hproper : insertion.IsProper) (hentry : entry ∈ insertion.entries)
    (hafter : ∀ i ∈ after, entry.1 ∉ Mapping.keys i.entries) :
    entry ∈ gathered (before ++ insertion :: after) := by
  have hnone : Mapping.get? (after.flatMap Insertion.entries).reverse entry.1 = none := by
    rw [Mapping.get?_eq_none_iff]
    intro hkey
    obtain ⟨other, hother, heq⟩ := List.mem_map.1 hkey
    obtain ⟨i, hi, hmem⟩ := List.mem_flatMap.1 (List.mem_reverse.1 hother)
    exact hafter i hi (heq ▸ List.mem_map_of_mem hmem)
  have hown : Mapping.get? insertion.entries.reverse entry.1 = some entry.2 := by
    rw [Mapping.get?_reverse hproper.distinct_entries, Mapping.get?_of_mem hproper.distinct_entries hentry]
  apply Mapping.mem_of_get?
  rw [gathered, Mapping.ofList, Mapping.get?_extend_reverse, List.flatMap_append, List.flatMap_cons,
    List.reverse_append, List.reverse_append, Mapping.get?_append, Mapping.get?_append, hnone, hown]
  rfl

theorem hasEntry_history (hproper : ∀ i ∈ insertions, i.IsProper) {entry : String × Value}
    (hentry : entry ∈ gathered (keyedPart insertions)) : (history insertions).2.HasEntry entry := by
  rcases keyedPart_cases insertions with ⟨hkeyed, hpart⟩ | ⟨before, v, after, rfl, hkeyed, hpart⟩
  · rw [hpart] at hentry
    rw [history_keyed hproper hkeyed]
    split
    next hnil =>
      rw [hnil] at hentry
      cases hentry
    · exact hentry
  · rw [hpart] at hentry
    rw [history_item (fun i hi => hproper i (List.mem_append_left _ hi)) hkeyed]
    exact List.mem_append_left _ (List.mem_map_of_mem hentry)

theorem hasItem_history (before after : List Insertion) (v : Value) :
    (history (before ++ item v :: after)).2.HasItem v := by
  have hput : ∃ items, (item v).putInPlace.run (history before).2 = (none, list (items ++ [v])) := by
    cases (history before).2 with
    | empty => exact ⟨[], rfl⟩
    | mapping entries => exact ⟨entries.map single, rfl⟩
    | list items => exact ⟨items, rfl⟩
  obtain ⟨items, hput⟩ := hput
  refine ⟨items ++ [v] ++ after.flatMap Insertion.items, ?_, by simp⟩
  rw [history, mapM_append_run, mapM_cons_run, ← history, hput, run_list]

theorem keyed_of_taken {before : List Insertion} (hproper : ∀ i ∈ before, i.IsProper)
    (htaken : (insertion.putInPlace.run (history before).2).1 = none) (h : insertion.isItem = false) :
    ∀ i ∈ before, i.isItem = false := by
  rcases keyedPart_cases before with ⟨hkeyed, -⟩ | ⟨first, v, after, rfl, hkeyed, -⟩
  · exact hkeyed
  · rw [history_item (fun i hi => hproper i (List.mem_append_left _ hi)) hkeyed, put_list] at htaken
    cases insertion <;> cases h <;> cases htaken

theorem hasEntry_of_taken {before after : List Insertion} {entry : String × Value}
    (hproper : ∀ i ∈ before ++ insertion :: after, i.IsProper)
    (htaken : (insertion.putInPlace.run (history before).2).1 = none)
    (hentry : entry ∈ insertion.entries) :
    (history (before ++ insertion :: after)).2.HasEntry entry ∨
      ∃ later ∈ keyedPart after, entry.1 ∈ Mapping.keys later.entries := by
  by_cases hlater : ∃ later ∈ keyedPart after, entry.1 ∈ Mapping.keys later.entries
  · exact .inr hlater
  · have hitem : insertion.isItem = false := by
      cases insertion with
      | item v => cases hentry
      | _ => rfl
    have hkeyed := keyed_of_taken (fun i hi => hproper i (List.mem_append_left _ hi)) htaken hitem
    have hpart : keyedPart (before ++ insertion :: after) = before ++ insertion :: keyedPart after := by
      rw [keyedPart, List.takeWhile_append_of_pos (by simpa using hkeyed),
        List.takeWhile_cons_of_pos (by simp [hitem]), ← keyedPart]
    refine .inl (hasEntry_history hproper ?_)
    rw [hpart]
    exact mem_gathered (hproper _ (by simp)) hentry fun later hin hkey => hlater ⟨later, hin, hkey⟩

/-- What a space holds after any history of insertions. Before the first item all of them are taken, and it
is the mapping of all they put in; from the first item on it is the list of the entries it had then and of
all items in order, and the other insertions are refused. What is refused changes nothing, and what was taken
stays, unless its key is written again before the first item. -/
theorem content_of_history (hproper : ∀ i ∈ insertions, i.IsProper) :
    ((∀ i ∈ insertions, i.isItem = false) →
      history insertions = (insertions.map fun _ => none,
        if insertions = [] then empty else mapping (gathered insertions))) ∧
    (∀ before v after, insertions = before ++ item v :: after → (∀ i ∈ before, i.isItem = false) →
      history insertions = (before.map (fun _ => none) ++ none :: after.map refusal,
        list ((gathered before).map single ++ v :: after.flatMap Insertion.items))) ∧
    (∀ before (i : Insertion) attempted content,
      i.putInPlace.run (history before).2 = (some attempted, content) → content = (history before).2) ∧
    ∀ before (i : Insertion) after, insertions = before ++ i :: after →
      (i.putInPlace.run (history before).2).1 = none →
      (∀ v ∈ i.items, (history insertions).2.HasItem v) ∧
      ∀ entry ∈ i.entries, (history insertions).2.HasEntry entry ∨
        ∃ later ∈ keyedPart after, entry.1 ∈ Mapping.keys later.entries := by
  refine ⟨history_keyed hproper, ?_, ?_, ?_⟩
  · rintro before v after rfl hkeyed
    exact history_item (fun i hi => hproper i (List.mem_append_left _ hi)) hkeyed
  · intro before i attempted content hrefused
    rw [putInPlace_run] at hrefused
    split at hrefused
    · cases hrefused
    · exact (congrArg Prod.snd hrefused).symm
  · rintro before i after rfl htaken
    refine ⟨fun v hv => ?_, fun entry hentry => hasEntry_of_taken hproper htaken hentry⟩
    cases i with
    | item w =>
      obtain rfl := List.mem_singleton.1 hv
      exact hasItem_history before after v
    | _ => cases hv

theorem content_of_history_converted :
    let insertions : List Insertion := [.pair "a" .null, .merge [("b", .bool true), ("a", .bool false)],
      .item (.string "x"), .pair "c" .null, .item (.string "y")]
    (∀ i ∈ insertions, i.IsProper) ∧
      history insertions = ([none, none, none, some .pair, none],
        list [single ("a", .bool false), single ("b", .bool true), .string "x", .string "y"]) := by
  intro insertions
  have hproper : ∀ i ∈ insertions, i.IsProper := by
    simp [insertions, Insertion.IsProper, Mapping.Distinct, Mapping.keys]
  obtain ⟨-, hitem, -⟩ := content_of_history hproper
  refine ⟨hproper, ?_⟩
  rw [hitem [.pair "a" .null, .merge [("b", .bool true), ("a", .bool false)]] (.string "x")
    [.pair "c" .null, .item (.string "y")] rfl (by simp [isItem])]
  rfl

end Space

end Loon
