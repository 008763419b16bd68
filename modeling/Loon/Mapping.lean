namespace Loon

/-- Ordered mappings with text keys. A key keeps the position of its first insertion and the value of
its last one. -/
abbrev Mapping (α : Type) := List (String × α)

namespace Mapping

variable {α : Type}

def get? : Mapping α → String → Option α
  | [], _ => none
  | (key, value) :: rest, k => if key = k then some value else get? rest k

def contains (m : Mapping α) (k : String) : Bool := (get? m k).isSome

def insert : Mapping α → String → α → Mapping α
  | [], k, v => [(k, v)]
  | (key, value) :: rest, k, v =>
    if key = k then (key, v) :: rest else (key, value) :: insert rest k v

def extend (m new : Mapping α) : Mapping α :=
  new.foldl (fun m entry => insert m entry.1 entry.2) m

def ofList (entries : List (String × α)) : Mapping α := extend [] entries

def erase (m : Mapping α) (k : String) : Mapping α := m.filter fun entry => entry.1 ≠ k

def keys (m : Mapping α) : List String := m.map Prod.fst

def Distinct (m : Mapping α) : Prop := (keys m).Nodup

@[simp] theorem get?_nil (k : String) : get? ([] : Mapping α) k = none := rfl

@[simp] theorem extend_nil (m : Mapping α) : extend m [] = m := rfl

@[simp] theorem extend_cons (m : Mapping α) (entry : String × α) (new : Mapping α) :
    extend m (entry :: new) = extend (insert m entry.1 entry.2) new := rfl

theorem extend_append (m new more : Mapping α) :
    extend m (new ++ more) = extend (extend m new) more := by
  simp [extend, List.foldl_append]

theorem get?_insert (m : Mapping α) (k j : String) (v : α) :
    get? (insert m k v) j = if k = j then some v else get? m j := by
  induction m with
  | nil => simp [insert, get?]
  | cons entry m ih =>
    obtain ⟨key, value⟩ := entry
    by_cases hk : key = k
    · subst hk
      by_cases hj : key = j <;> simp [insert, get?, hj]
    · by_cases hj : key = j
      · subst hj
        simp [insert, get?, hk, Ne.symm hk]
      · simp [insert, get?, hk, hj, ih]

@[simp] theorem get?_insert_self (m : Mapping α) (k : String) (v : α) :
    get? (insert m k v) k = some v := by
  simp [get?_insert]

theorem get?_erase (m : Mapping α) (k j : String) :
    get? (erase m k) j = if k = j then none else get? m j := by
  induction m with
  | nil => simp [erase]
  | cons entry m ih =>
    obtain ⟨key, value⟩ := entry
    simp only [erase] at ih
    by_cases hk : key = k
    · subst hk
      by_cases hj : key = j
      · subst hj; simpa [erase] using ih
      · simpa [erase, get?, hj] using ih
    · by_cases hj : key = j
      · subst hj
        simp [erase, get?, hk, Ne.symm hk]
      · simpa [erase, get?, hk, hj] using ih

theorem mem_keys_iff (m : Mapping α) (k : String) : k ∈ keys m ↔ (get? m k).isSome := by
  induction m with
  | nil => simp [keys]
  | cons entry m ih =>
    obtain ⟨key, value⟩ := entry
    by_cases hk : key = k
    · simp [keys, get?, hk]
    · simp only [keys] at ih
      simp [keys, get?, hk, Ne.symm hk, ← ih]

theorem keys_insert (m : Mapping α) (k : String) (v : α) :
    keys (insert m k v) = if k ∈ keys m then keys m else keys m ++ [k] := by
  induction m with
  | nil => simp [insert, keys]
  | cons entry m ih =>
    obtain ⟨key, value⟩ := entry
    by_cases hk : key = k
    · subst hk; simp [insert, keys]
    · simp only [keys] at ih
      by_cases hm : k ∈ List.map Prod.fst m <;> simp_all [insert, keys, Ne.symm hk]

theorem distinct_nil : Distinct ([] : Mapping α) := List.nodup_nil

theorem Distinct.insert {m : Mapping α} (h : Distinct m) (k : String) (v : α) :
    Distinct (insert m k v) := by
  unfold Distinct at *
  rw [keys_insert]
  split
  · exact h
  next hk =>
    rw [List.nodup_append]
    refine ⟨h, by simp, ?_⟩
    intro a ha b hb
    simp at hb
    subst hb
    intro he
    exact hk (he ▸ ha)

theorem Distinct.extend {m : Mapping α} (h : Distinct m) (new : Mapping α) :
    Distinct (extend m new) := by
  induction new generalizing m with
  | nil => exact h
  | cons entry new ih => exact ih (h.insert entry.1 entry.2)

theorem distinct_ofList (entries : List (String × α)) : Distinct (ofList entries) :=
  distinct_nil.extend entries

end Mapping

end Loon
