import Loon.Mapping
import Mathlib.Data.List.Nodup
import Mathlib.Tactic.Tauto

namespace Loon.Mapping

variable {α : Type}

@[simp] theorem keys_nil : keys ([] : Mapping α) = [] := rfl

@[simp] theorem keys_cons (entry : String × α) (m : Mapping α) :
    keys (entry :: m) = entry.1 :: keys m := rfl

@[simp] theorem keys_append (m new : Mapping α) : keys (m ++ new) = keys m ++ keys new :=
  List.map_append

theorem get?_eq_none_iff {m : Mapping α} {key : String} : get? m key = none ↔ key ∉ keys m := by
  rw [mem_keys_iff]
  cases get? m key <;> simp

theorem get?_append (m new : Mapping α) (key : String) :
    get? (m ++ new) key = (get? m key <|> get? new key) := by
  induction m with
  | nil => rfl
  | cons entry m ih =>
    obtain ⟨k, v⟩ := entry
    rcases eq_or_ne k key with rfl | hne
    · simp [get?]
    · simpa [get?, hne] using ih

theorem mem_of_get? {m : Mapping α} {key : String} {v : α} (h : get? m key = some v) :
    (key, v) ∈ m := by
  induction m with
  | nil => cases h
  | cons entry m ih =>
    obtain ⟨k, w⟩ := entry
    rcases eq_or_ne k key with rfl | hne
    · simp only [get?, if_true, Option.some.injEq] at h
      simp [h]
    · exact List.mem_cons_of_mem _ (ih (by simpa [get?, hne] using h))

theorem mem_insert {m : Mapping α} {key : String} {v : α} {entry : String × α}
    (h : entry ∈ insert m key v) : entry ∈ m ∨ entry = (key, v) := by
  induction m with
  | nil => exact .inr (by simpa [insert] using h)
  | cons first m ih =>
    obtain ⟨k, w⟩ := first
    rcases eq_or_ne k key with rfl | hne
    · rw [insert, if_pos rfl] at h
      rcases List.mem_cons.1 h with rfl | h
      · exact .inr rfl
      · exact .inl (List.mem_cons_of_mem _ h)
    · rw [insert, if_neg hne] at h
      rcases List.mem_cons.1 h with rfl | h
      · exact .inl (List.mem_cons_self ..)
      · exact (ih h).imp_left (List.mem_cons_of_mem _)

theorem insert_of_notMem {m : Mapping α} {key : String} (h : key ∉ keys m) (v : α) :
    insert m key v = m ++ [(key, v)] := by
  induction m with
  | nil => rfl
  | cons entry m ih =>
    obtain ⟨k, w⟩ := entry
    rw [keys_cons, List.mem_cons, not_or] at h
    rw [insert, if_neg (Ne.symm h.1), ih h.2, List.cons_append]

theorem insert_insert_self (m : Mapping α) (key : String) (v w : α) :
    insert (insert m key v) key w = insert m key w := by
  induction m with
  | nil => simp [insert]
  | cons entry m ih =>
    obtain ⟨k, u⟩ := entry
    rcases eq_or_ne k key with rfl | hne
    · simp [insert]
    · simp [insert, hne, ih]

theorem insert_comm {m : Mapping α} {key other : String} (h : key ∈ keys m) (hne : other ≠ key)
    (v w : α) : insert (insert m other w) key v = insert (insert m key v) other w := by
  induction m with
  | nil => cases h
  | cons entry m ih =>
    obtain ⟨k, u⟩ := entry
    rcases eq_or_ne k key with rfl | hkey
    · simp [insert, hne.symm]
    · have hmem : key ∈ keys m := (List.mem_cons.1 h).resolve_left (Ne.symm hkey)
      rcases eq_or_ne k other with rfl | hother
      · simp [insert, hkey]
      · simp [insert, hkey, hother, ih hmem]

theorem insert_append (m m' : Mapping α) (key : String) (v : α) :
    insert (m ++ m') key v = if key ∈ keys m then insert m key v ++ m' else m ++ insert m' key v := by
  induction m with
  | nil => rfl
  | cons entry m ih =>
    obtain ⟨k, u⟩ := entry
    rcases eq_or_ne k key with rfl | hne
    · simp [insert]
    · by_cases hmem : key ∈ keys m <;> simp [insert, hne, hne.symm, hmem, ih]

theorem extend_append_left (m m' new : Mapping α) :
    extend (m ++ m') new = extend m (new.filter fun entry => entry.1 ∈ keys m) ++
      extend m' (new.filter fun entry => entry.1 ∉ keys m) := by
  induction new generalizing m m' with
  | nil => rfl
  | cons entry new ih =>
    rw [extend_cons, insert_append]
    by_cases hmem : entry.1 ∈ keys m
    · have hkeys : keys (insert m entry.1 entry.2) = keys m := by rw [keys_insert, if_pos hmem]
      rw [if_pos hmem, ih, hkeys]
      simp [hmem]
    · rw [if_neg hmem, ih]
      simp [hmem]

theorem extend_of_disjoint {m new : Mapping α} (h : ∀ key ∈ keys new, key ∉ keys m) :
    extend m new = m ++ ofList new := by
  have hmem : ∀ entry ∈ new, entry.1 ∉ keys m := fun entry hentry =>
    h _ (List.mem_map.2 ⟨entry, hentry, rfl⟩)
  have hold : (new.filter fun entry => entry.1 ∈ keys m) = [] := by
    simpa [List.filter_eq_nil_iff] using hmem
  have hnew : (new.filter fun entry => entry.1 ∉ keys m) = new := by
    simpa [List.filter_eq_self] using hmem
  have := extend_append_left m [] new
  rwa [hold, hnew, List.append_nil] at this

theorem erase_of_notMem {m : Mapping α} {key : String} (h : key ∉ keys m) : erase m key = m := by
  refine List.filter_eq_self.2 fun entry hentry => decide_eq_true ?_
  rintro rfl
  exact h (List.mem_map.2 ⟨entry, hentry, rfl⟩)

theorem keys_erase (m : Mapping α) (key : String) :
    keys (erase m key) = (keys m).filter (· ≠ key) := by
  rw [keys, erase, keys, List.filter_map]
  rfl

theorem extend_singleton {new : Mapping α} {key : String} (h : key ∉ keys new) (v : α) :
    extend [(key, v)] new = (key, v) :: ofList new := by
  refine extend_of_disjoint fun k hk hmem => ?_
  obtain rfl : k = key := List.mem_singleton.1 hmem
  exact h hk

theorem get?_of_mem {m : Mapping α} (h : Distinct m) {entry : String × α} (hmem : entry ∈ m) :
    get? m entry.1 = some entry.2 := by
  induction m with
  | nil => cases hmem
  | cons first m ih =>
    obtain ⟨k, u⟩ := first
    rcases List.mem_cons.1 hmem with rfl | hrest
    · simp [get?]
    · have hne : k ≠ entry.1 := by
        rintro rfl
        exact (List.nodup_cons.1 h).1 (List.mem_map.2 ⟨entry, hrest, rfl⟩)
      simpa [get?, hne] using ih (List.nodup_cons.1 h).2 hrest

theorem get?_extend_reverse (m new : Mapping α) (key : String) :
    get? (extend m new) key = (get? new.reverse key <|> get? m key) := by
  induction new generalizing m with
  | nil => rfl
  | cons entry new ih =>
    rw [extend_cons, ih, get?_insert, List.reverse_cons, get?_append]
    cases get? new.reverse key with
    | some v => rfl
    | none =>
      rcases eq_or_ne entry.1 key with heq | hne
      · simp [get?, heq]
      · simp [get?, hne]

theorem get?_extend_of_notMem {new : Mapping α} {key : String} (h : key ∉ keys new) (m : Mapping α) :
    get? (extend m new) key = get? m key := by
  have hnone : get? new.reverse key = none := by
    rw [get?_eq_none_iff]
    simpa [keys] using h
  rw [get?_extend_reverse, hnone]
  rfl

theorem mem_keys_extend {m new : Mapping α} {key : String} :
    key ∈ keys (extend m new) ↔ key ∈ keys m ∨ key ∈ keys new := by
  induction new generalizing m with
  | nil => simp
  | cons entry new ih =>
    rw [extend_cons, ih, keys_insert]
    by_cases hmem : entry.1 ∈ keys m
    · simp only [if_pos hmem, keys_cons, List.mem_cons]
      have : key = entry.1 → key ∈ keys m := fun heq => heq ▸ hmem
      tauto
    · simp only [if_neg hmem, keys_cons, List.mem_cons, List.mem_append]
      tauto

theorem mem_of_mem_extend {m new : Mapping α} {entry : String × α} (h : entry ∈ extend m new) :
    entry ∈ m ∨ entry ∈ new := by
  induction new generalizing m with
  | nil => exact .inl h
  | cons first new ih =>
    rcases ih h with hmem | hmem
    · exact (mem_insert hmem).imp_right fun heq : entry = first => heq ▸ List.mem_cons_self ..
    · exact .inr (List.mem_cons_of_mem _ hmem)

theorem Distinct.of_cons {entry : String × α} {m : Mapping α} (h : Distinct (entry :: m)) :
    entry.1 ∉ keys m ∧ Distinct m := List.nodup_cons.1 h

theorem Distinct.erase {m : Mapping α} (h : Distinct m) (key : String) : Distinct (erase m key) :=
  h.sublist (List.filter_sublist.map _)

theorem extend_of_distinct {m new : Mapping α} (h : Distinct (m ++ new)) :
    extend m new = m ++ new := by
  induction new generalizing m with
  | nil => simp
  | cons entry new ih =>
    have hmem : entry.1 ∉ keys m := by
      rw [Distinct, keys_append, keys_cons] at h
      exact fun hk => (List.nodup_append.1 h).2.2 _ hk _ (List.mem_cons_self ..) rfl
    rw [extend_cons, insert_of_notMem hmem, ih (by simpa using h)]
    simp

theorem ofList_of_distinct {m : Mapping α} (h : Distinct m) : ofList m = m :=
  extend_of_distinct (m := []) h

theorem get?_reverse {m : Mapping α} (h : Distinct m) (key : String) :
    get? m.reverse key = get? m key := by
  induction m with
  | nil => rfl
  | cons entry m ih =>
    obtain ⟨k, v⟩ := entry
    have ⟨hnew, hrest⟩ := h.of_cons
    rw [List.reverse_cons, get?_append, ih hrest]
    rcases eq_or_ne k key with rfl | hne
    · simp [get?, get?_eq_none_iff.2 hnew]
    · simp [get?, hne]

theorem get?_extend {new : Mapping α} (h : Distinct new) (m : Mapping α) (key : String) :
    get? (extend m new) key = (get? new key <|> get? m key) := by
  rw [get?_extend_reverse, get?_reverse h]

theorem filter_insert (p : String → Bool) (m : Mapping α) (key : String) (v : α) :
    (insert m key v).filter (fun entry => p entry.1) =
      if p key then insert (m.filter fun entry => p entry.1) key v
      else m.filter fun entry => p entry.1 := by
  induction m with
  | nil => cases hp : p key <;> simp [insert, hp]
  | cons entry m ih =>
    obtain ⟨k, w⟩ := entry
    rcases eq_or_ne k key with rfl | hne
    · cases hp : p k <;> simp [insert, hp]
    · rw [insert, if_neg hne, List.filter_cons, List.filter_cons, ih]
      cases p k <;> cases p key <;> simp [insert, hne]

def within (names : List String) (m : Mapping α) : Mapping α := m.filter fun entry => entry.1 ∈ names

def without (names : List String) (m : Mapping α) : Mapping α := m.filter fun entry => entry.1 ∉ names

section Parts

variable {names : List String} {key : String}

theorem within_subset (names : List String) (m : Mapping α) : within names m ⊆ m :=
  List.filter_sublist.subset

theorem without_subset (names : List String) (m : Mapping α) : without names m ⊆ m :=
  List.filter_sublist.subset

theorem Distinct.within {m : Mapping α} (h : Distinct m) : Distinct (within names m) :=
  List.Nodup.sublist (List.filter_sublist.map _) h

theorem Distinct.without {m : Mapping α} (h : Distinct m) : Distinct (without names m) :=
  List.Nodup.sublist (List.filter_sublist.map _) h

theorem within_insert (h : key ∉ names) (m : Mapping α) (v : α) :
    within names (insert m key v) = within names m :=
  (filter_insert (fun name => name ∈ names) m key v).trans (if_neg (by simpa using h))

theorem without_insert (h : key ∉ names) (m : Mapping α) (v : α) :
    without names (insert m key v) = insert (without names m) key v :=
  (filter_insert (fun name => name ∉ names) m key v).trans (if_pos (by simpa using h))

theorem within_extend {new : Mapping α} (h : ∀ key ∈ keys new, key ∉ names) (m : Mapping α) :
    within names (extend m new) = within names m := by
  induction new generalizing m with
  | nil => rfl
  | cons entry new ih =>
    rw [keys_cons, List.forall_mem_cons] at h
    rw [extend_cons, ih h.2, within_insert h.1]

theorem without_extend {new : Mapping α} (h : ∀ key ∈ keys new, key ∉ names) (m : Mapping α) :
    without names (extend m new) = extend (without names m) new := by
  induction new generalizing m with
  | nil => rfl
  | cons entry new ih =>
    rw [keys_cons, List.forall_mem_cons] at h
    rw [extend_cons, ih h.2, without_insert h.1, extend_cons]

theorem within_erase (h : key ∉ names) (m : Mapping α) :
    within names (erase m key) = within names m := by
  rw [within, erase, List.filter_filter]
  refine List.filter_congr fun entry _ => ?_
  by_cases hentry : entry.1 ∈ names
  · have hne : entry.1 ≠ key := fun heq => h (heq ▸ hentry)
    simp [hentry, hne]
  · simp [hentry]

theorem without_erase (m : Mapping α) (key : String) :
    without names (erase m key) = erase (without names m) key := by
  rw [without, erase, without, erase, List.filter_comm]

theorem within_of_forall {m : Mapping α} (h : ∀ key ∈ keys m, key ∈ names) : within names m = m :=
  List.filter_eq_self.2 fun _ hentry => decide_eq_true (h _ (List.mem_map_of_mem hentry))

theorem without_of_forall {m : Mapping α} (h : ∀ key ∈ keys m, key ∉ names) : without names m = m :=
  List.filter_eq_self.2 fun _ hentry => decide_eq_true (h _ (List.mem_map_of_mem hentry))

theorem within_append {m new : Mapping α} (h : ∀ key ∈ keys m, key ∉ keys new) :
    within (keys new) (m ++ new) = new := by
  have hm : within (keys new) m = [] := List.filter_eq_nil_iff.2 fun _ hentry hmem =>
    h _ (List.mem_map_of_mem hentry) (of_decide_eq_true hmem)
  rw [within, List.filter_append, ← within, ← within, hm, within_of_forall fun _ => id,
    List.nil_append]

theorem without_append {m new : Mapping α} (h : ∀ key ∈ keys m, key ∉ keys new) :
    without (keys new) (m ++ new) = m := by
  have hnew : without (keys new) new = [] := List.filter_eq_nil_iff.2 fun _ hentry hmem =>
    of_decide_eq_true hmem (List.mem_map_of_mem hentry)
  rw [without, List.filter_append, ← without, ← without, hnew, without_of_forall h, List.append_nil]

theorem mem_keys_without (h : key ∉ names) {m : Mapping α} :
    key ∈ keys (without names m) ↔ key ∈ keys m := by
  simp [keys, without, h]

theorem get?_without (h : key ∉ names) (m : Mapping α) : get? (without names m) key = get? m key := by
  induction m with
  | nil => rfl
  | cons entry m ih =>
    rw [without, List.filter_cons]
    split
    · rw [get?, get?, ← without, ih]
    next hin =>
      have hne : entry.1 ≠ key := fun heq => h (by simpa [heq] using hin)
      rw [get?, if_neg hne, ← without, ih]

end Parts

theorem map_insert (f : String × α → String × α) (hf : ∀ entry, (f entry).1 = entry.1) (m : Mapping α)
    (key : String) (v : α) : (insert m key v).map f = insert (m.map f) key (f (key, v)).2 := by
  have hpair : ∀ k w, f (k, w) = (k, (f (k, w)).2) := fun k w => Prod.ext (hf _) rfl
  induction m with
  | nil => exact congrArg (fun e => [e]) (hpair key v)
  | cons entry m ih =>
    obtain ⟨k, w⟩ := entry
    rw [List.map_cons, hpair k w]
    rcases eq_or_ne k key with rfl | hne
    · rw [insert, if_pos rfl, insert, if_pos rfl, List.map_cons, hpair k v]
    · rw [insert, if_neg hne, insert, if_neg hne, List.map_cons, hpair k w, ih]

theorem map_erase (f : String × α → String × α) (hf : ∀ entry, (f entry).1 = entry.1) (m : Mapping α)
    (key : String) : (erase m key).map f = erase (m.map f) key := by
  rw [erase, erase, List.filter_map]
  congr 1
  exact List.filter_congr fun entry _ => by simp [hf]

theorem insert_extend {m new : Mapping α} {key : String} (h : key ∈ keys m) (hnew : key ∉ keys new)
    (v : α) : insert (extend m new) key v = extend (insert m key v) new := by
  induction new generalizing m with
  | nil => rfl
  | cons entry new ih =>
    rw [keys_cons, List.mem_cons, not_or] at hnew
    have hmem : key ∈ keys (insert m entry.1 entry.2) := by
      rw [keys_insert]
      split
      · exact h
      · exact List.mem_append_left _ h
    rw [extend_cons, ih hmem hnew.2, insert_comm h (Ne.symm hnew.1), extend_cons]

theorem extend_insert {new : Mapping α} (h : Distinct new) (m : Mapping α) (key : String) (v : α) :
    extend m (insert new key v) = insert (extend m new) key v := by
  induction new generalizing m with
  | nil => rfl
  | cons entry new ih =>
    obtain ⟨k, w⟩ := entry
    obtain ⟨hk, hrest⟩ := h.of_cons
    rcases eq_or_ne k key with rfl | hne
    · have hmem : k ∈ keys (insert m k w) := by
        rw [mem_keys_iff, get?_insert_self]
        rfl
      rw [insert, if_pos rfl, extend_cons, extend_cons, insert_extend hmem hk, insert_insert_self]
    · rw [insert, if_neg hne, extend_cons, ih hrest, extend_cons]

theorem extend_extend {new : Mapping α} (h : Distinct new) (m more : Mapping α) :
    extend m (extend new more) = extend (extend m new) more := by
  induction more generalizing new with
  | nil => rfl
  | cons entry more ih => rw [extend_cons, ih (h.insert _ _), extend_insert h, extend_cons]

end Loon.Mapping
