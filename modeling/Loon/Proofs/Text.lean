import Loon.Text
import Mathlib.Data.List.Basic

namespace Loon.Text

theorem trimStart_of_solid {s : List Char} (h : ∀ c ∈ s, isBlank c = false) : trimStart s = s := by
  cases s with
  | nil => rfl
  | cons c s => exact trimStart_solid (h c (List.mem_cons_self ..)) s

theorem trimEnd_of_solid {s : List Char} (h : ∀ c ∈ s, isBlank c = false) : trimEnd s = s := by
  induction s with
  | nil => rfl
  | cons c s ih =>
    rw [trimEnd, ih fun d hd => h d (List.mem_cons_of_mem _ hd)]
    cases s with
    | nil => simp [h c (List.mem_cons_self ..)]
    | cons d s => rfl

theorem trim_of_solid {s : List Char} (h : ∀ c ∈ s, isBlank c = false) : trim s = s := by
  rw [trim, trimStart_of_solid h, trimEnd_of_solid h]

theorem trimEnd_solid {c : Char} (h : isBlank c = false) (s : List Char) :
    trimEnd (c :: s) = c :: trimEnd s := by
  rw [trimEnd]
  cases trimEnd s <;> simp [h]

theorem trimEnd_trimEnd (s : List Char) : trimEnd (trimEnd s) = trimEnd s := by
  induction s with
  | nil => rfl
  | cons c s ih =>
    rw [trimEnd]
    cases hs : trimEnd s with
    | nil =>
      dsimp only
      split
      · rfl
      next hc => rw [trimEnd_solid (Bool.eq_false_iff.2 hc), trimEnd_nil]
    | cons d ds =>
      rw [hs] at ih
      dsimp only
      rw [trimEnd, ih]

theorem trimStart_trimEnd_trimStart (s : List Char) :
    trimStart (trimEnd (trimStart s)) = trimEnd (trimStart s) := by
  induction s with
  | nil => rfl
  | cons c s ih =>
    by_cases hc : isBlank c = true
    · rw [trimStart_blank hc, ih]
    · rw [Bool.not_eq_true] at hc
      rw [trimStart_solid hc, trimEnd_solid hc, trimStart_solid hc]

@[simp] theorem trim_trim (s : List Char) : trim (trim s) = trim s := by
  rw [trim, trim, trimStart_trimEnd_trimStart, trimEnd_trimEnd]

theorem trimEnd_of_last {s : List Char} (h : ∀ c ∈ s.getLast?, isBlank c = false) : trimEnd s = s := by
  induction s with
  | nil => rfl
  | cons c s ih =>
    cases s with
    | nil => exact trimEnd_solid (h c rfl) []
    | cons d s => rw [trimEnd, ih h]

theorem trim_of_ends {s : List Char} (hhead : ∀ c ∈ s.head?, isBlank c = false)
    (hlast : ∀ c ∈ s.getLast?, isBlank c = false) : trim s = s := by
  cases s with
  | nil => rfl
  | cons c s => rw [trim, trimStart_solid (hhead c rfl), trimEnd_of_last hlast]

theorem trimEnd_append_blank {c : Char} (h : isBlank c = true) (s : List Char) :
    trimEnd (s ++ [c]) = trimEnd s := by
  induction s with
  | nil => simp [trimEnd, h]
  | cons d s ih => rw [List.cons_append, trimEnd, ih, trimEnd]

theorem trim_append_blank {c : Char} (h : isBlank c = true) (s : List Char) :
    trim (s ++ [c]) = trim s := by
  induction s with
  | nil => simp [trim, trimStart, h]
  | cons d s ih =>
    by_cases hd : isBlank d = true
    · rw [trim, List.cons_append, trimStart_blank hd, ← trim, ih, trim, trim, trimStart_blank hd]
    · rw [Bool.not_eq_true] at hd
      rw [trim, List.cons_append, trimStart_solid hd, ← List.cons_append, trimEnd_append_blank h, trim,
        trimStart_solid hd]

theorem exists_trimStart (s : List Char) :
    ∃ left, s = left ++ trimStart s ∧ ∀ c ∈ left, isBlank c = true := by
  induction s with
  | nil => exact ⟨[], rfl, nofun⟩
  | cons c s ih =>
    by_cases hc : isBlank c = true
    · obtain ⟨left, hs, hleft⟩ := ih
      rw [trimStart_blank hc]
      exact ⟨c :: left, congrArg (c :: ·) hs, List.forall_mem_cons.2 ⟨hc, hleft⟩⟩
    · rw [trimStart_solid (Bool.eq_false_iff.2 hc)]
      exact ⟨[], rfl, nofun⟩

theorem exists_trimEnd (s : List Char) :
    ∃ right, s = trimEnd s ++ right ∧ ∀ c ∈ right, isBlank c = true := by
  induction s with
  | nil => exact ⟨[], rfl, nofun⟩
  | cons c s ih =>
    obtain ⟨right, hs, hright⟩ := ih
    rw [trimEnd]
    cases htrim : trimEnd s with
    | nil =>
      rw [htrim, List.nil_append] at hs
      dsimp only
      split
      next hc => exact ⟨c :: right, congrArg (c :: ·) hs, List.forall_mem_cons.2 ⟨hc, hright⟩⟩
      · exact ⟨right, congrArg (c :: ·) hs, hright⟩
    | cons d ds =>
      rw [htrim] at hs
      exact ⟨right, congrArg (c :: ·) hs, hright⟩

theorem exists_trim (s : List Char) :
    ∃ left right, s = left ++ (trim s ++ right) ∧ trimStart s = trim s ++ right ∧
      (∀ c ∈ left, isBlank c = true) ∧ ∀ c ∈ right, isBlank c = true := by
  obtain ⟨left, hleft, hblank⟩ := exists_trimStart s
  obtain ⟨right, hright, hblank'⟩ := exists_trimEnd (trimStart s)
  exact ⟨left, right, hleft.trans (congrArg (left ++ ·) hright), hright, hblank, hblank'⟩

theorem length_trim_le (s : List Char) : (trim s).length ≤ s.length := by
  obtain ⟨left, right, hs, _⟩ := exists_trim s
  have hlength := congrArg List.length hs
  simp only [List.length_append] at hlength
  omega

theorem ends_of_trim {s : List Char} (h : trim s = s) :
    (∀ c ∈ s.head?, isBlank c = false) ∧ ∀ c ∈ s.getLast?, isBlank c = false := by
  constructor
  · intro c hc
    obtain ⟨rest, rfl⟩ := List.head?_eq_some_iff.1 hc
    by_contra hblank
    have hlength := length_trim_le rest
    rw [trim, trimStart_blank (Bool.not_eq_false _ ▸ hblank), ← trim] at h
    rw [h, List.length_cons] at hlength
    omega
  · intro c hc
    obtain ⟨rest, rfl⟩ := List.getLast?_eq_some_iff.1 hc
    by_contra hblank
    have hlength := length_trim_le rest
    rw [trim_append_blank (Bool.not_eq_false _ ▸ hblank)] at h
    rw [h, List.length_append, List.length_singleton] at hlength
    omega

theorem mem_of_mem_trim {c : Char} {s : List Char} (h : c ∈ trim s) : c ∈ s := by
  obtain ⟨left, right, hs, _⟩ := exists_trim s
  rw [hs]
  simp [h]

theorem exists_of_head {s : List Char} (h : ∀ c ∈ s.head?, isBlank c = false) :
    ∃ right, s = trim s ++ right := by
  obtain ⟨right, hs, _⟩ := exists_trimEnd s
  have htrim : trim s = trimEnd s := by
    cases s with
    | nil => rfl
    | cons c s => rw [trim, trimStart_solid (h c rfl)]
  exact ⟨right, htrim ▸ hs⟩

theorem exists_of_last {s : List Char} (h : ∀ c ∈ s.getLast?, isBlank c = false) :
    ∃ left, s = left ++ trim s := by
  obtain ⟨left, hs, _⟩ := exists_trimStart s
  have hlast : ∀ c ∈ (trimStart s).getLast?, isBlank c = false := fun c hc =>
    h c (by rw [hs, List.getLast?_append, Option.mem_def.1 hc]; rfl)
  exact ⟨left, by rw [trim, trimEnd_of_last hlast, ← hs]⟩

theorem trim_blank_cons {c : Char} (h : isBlank c = true) (s : List Char) : trim (c :: s) = trim s := by
  rw [trim, trimStart_blank h, ← trim]

theorem apply_blanks_append {α : Type} {f : List Char → α}
    (hfirst : ∀ c, isBlank c = true → ∀ s, f (c :: s) = f s) {left : List Char}
    (h : ∀ c ∈ left, isBlank c = true) (s : List Char) : f (left ++ s) = f s := by
  induction left with
  | nil => rfl
  | cons c left ih =>
    rw [List.forall_mem_cons] at h
    rw [List.cons_append, hfirst c h.1, ih h.2]

theorem apply_append_blanks {α : Type} {f : List Char → α}
    (hlast : ∀ c, isBlank c = true → ∀ s, f (s ++ [c]) = f s) {right : List Char}
    (h : ∀ c ∈ right, isBlank c = true) (s : List Char) : f (s ++ right) = f s := by
  induction right generalizing s with
  | nil => rw [List.append_nil]
  | cons c right ih =>
    rw [List.forall_mem_cons] at h
    rw [List.append_cons, ih h.2, hlast c h.1]

theorem apply_trim {α : Type} {f : List Char → α} (hfirst : ∀ c, isBlank c = true → ∀ s, f (c :: s) = f s)
    (hlast : ∀ c, isBlank c = true → ∀ s, f (s ++ [c]) = f s) (s : List Char) : f (trim s) = f s := by
  obtain ⟨left, right, hs, _, hleft, hright⟩ := exists_trim s
  calc f (trim s) = f (left ++ (trim s ++ right)) := by
        rw [apply_blanks_append hfirst hleft, apply_append_blanks hlast hright]
    _ = f s := by rw [← hs]

theorem trimStart_append_blanks {left : List Char} (h : ∀ c ∈ left, isBlank c = true) (s : List Char) :
    trimStart (left ++ s) = trimStart s :=
  apply_blanks_append (fun _ => trimStart_blank) h s

theorem trim_blanks {left right : List Char} (body : List Char) (hleft : ∀ c ∈ left, isBlank c = true)
    (hright : ∀ c ∈ right, isBlank c = true) : trim (left ++ (body ++ right)) = trim body := by
  rw [apply_blanks_append (f := trim) (fun _ => trim_blank_cons) hleft,
    apply_append_blanks (fun _ => trim_append_blank) hright]

theorem before_eq_some {mark : Char} {s inner : List Char} :
    before mark s = some inner ↔ s = inner ++ [mark] := by
  induction s generalizing inner with
  | nil => simp [before]
  | cons c s ih =>
    cases s with
    | nil => cases inner <;> simp [before]
    | cons d s =>
      rw [before, Option.map_eq_some_iff]
      simp only [ih]
      cases inner with
      | nil => simp
      | cons e inner => simp [and_comm]

theorem between_eq_some {opening closing : Char} {s inner : List Char} :
    between opening closing s = some inner ↔ s = opening :: (inner ++ [closing]) := by
  cases s with
  | nil => simp [between]
  | cons c s => simp [between, before_eq_some]

theorem before_eq_none {mark : Char} {s : List Char} (h : s.getLast? ≠ some mark) :
    before mark s = none := by
  cases hs : before mark s with
  | none => rfl
  | some inner =>
    rw [before_eq_some.1 hs, List.getLast?_append] at h
    exact absurd rfl h

theorem after_eq_none {c : Char} {mark s : List Char} (h : s.head? ≠ some c) :
    after (c :: mark) s = none := by
  cases s with
  | nil => rfl
  | cons d s => exact if_neg fun heq => h (by rw [heq]; rfl)

theorem after_eq_some {mark s rest : List Char} : after mark s = some rest ↔ s = mark ++ rest := by
  induction mark generalizing s with
  | nil => simp [after]
  | cons m mark ih =>
    cases s with
    | nil => simp [after]
    | cons c s => simp [after, ih]

theorem after_eq_none_iff {mark s : List Char} : after mark s = none ↔ ¬mark <+: s := by
  rw [Option.eq_none_iff_forall_ne_some]
  constructor
  · rintro h ⟨rest, hs⟩
    exact h rest (after_eq_some.2 hs.symm)
  · rintro h rest hrest
    exact h ⟨rest, (after_eq_some.1 hrest).symm⟩

theorem cut_of_notMem {mark : Char} {s : List Char} (h : mark ∉ s) : cut mark s = none := by
  induction s with
  | nil => rfl
  | cons c s ih =>
    rw [List.mem_cons, not_or] at h
    rw [cut, if_neg (Ne.symm h.1), ih h.2]
    rfl

theorem cut_append {mark : Char} {s : List Char} (h : mark ∉ s) (t : List Char) :
    cut mark (s ++ mark :: t) = some (s, t) := by
  induction s with
  | nil => simp [cut]
  | cons c s ih =>
    rw [List.mem_cons, not_or] at h
    rw [List.cons_append, cut, if_neg (Ne.symm h.1), ih h.2]
    rfl

theorem cut_eq_some {mark : Char} {s a b : List Char} :
    cut mark s = some (a, b) ↔ s = a ++ mark :: b ∧ mark ∉ a := by
  constructor
  · intro h
    induction s generalizing a with
    | nil => cases h
    | cons c s ih =>
      rw [cut] at h
      split at h
      next hc =>
        cases h
        exact ⟨congrArg (· :: b) hc, List.not_mem_nil⟩
      next hc =>
        obtain ⟨⟨first, second⟩, hcut, heq⟩ := Option.map_eq_some_iff.1 h
        cases heq
        obtain ⟨hs, hmark⟩ := ih hcut
        exact ⟨congrArg (c :: ·) hs, by simp [hmark, Ne.symm hc]⟩
  · rintro ⟨rfl, hmark⟩
    exact cut_append hmark b

theorem notMem_of_cut {mark : Char} {s : List Char} (h : cut mark s = none) : mark ∉ s := fun hmem => by
  obtain ⟨a, b, rfl, hmark⟩ := List.eq_append_cons_of_mem hmem
  rw [cut_append hmark] at h
  cases h

theorem pieces_ne_nil (mark : Char) (s : List Char) : pieces mark s ≠ [] := by
  cases s with
  | nil => simp [pieces]
  | cons c s =>
    rw [pieces]
    split
    · simp
    · split <;> simp

theorem pieces_of_notMem {mark : Char} {s : List Char} (h : mark ∉ s) : pieces mark s = [s] := by
  induction s with
  | nil => rfl
  | cons c s ih =>
    rw [List.mem_cons, not_or] at h
    rw [pieces, if_neg (Ne.symm h.1), ih h.2]

theorem notMem_of_mem_pieces {mark : Char} {s p : List Char} (h : p ∈ pieces mark s) : mark ∉ p := by
  induction s generalizing p with
  | nil =>
    rw [List.mem_singleton.1 h]
    exact List.not_mem_nil
  | cons c s ih =>
    rw [pieces] at h
    split at h
    · rcases List.mem_cons.1 h with rfl | h
      · exact List.not_mem_nil
      · exact ih h
    next hc =>
      cases hs : pieces mark s with
      | nil => exact absurd hs (pieces_ne_nil mark s)
      | cons q qs =>
        rw [hs] at h ih
        rcases List.mem_cons.1 h with rfl | h
        · have hq := ih List.mem_cons_self
          simp [hq, Ne.symm hc]
        · exact ih (List.mem_cons_of_mem _ h)

theorem pieces_append (mark : Char) (s t : List Char) :
    pieces mark (s ++ mark :: t) = pieces mark s ++ pieces mark t := by
  induction s with
  | nil => simp [pieces]
  | cons c s ih =>
    rw [List.cons_append, pieces, pieces, ih]
    split
    · rfl
    · cases hs : pieces mark s with
      | nil => exact absurd hs (pieces_ne_nil mark s)
      | cons p ps => rfl

/-- The lines of a text with the newlines that end them, and its pieces between the newlines. -/
inductive Broken : List (List Char) → List (List Char) → Prop
  | nil : Broken [] [[]]
  | last {l} : Broken [l] [l]
  | line {l ls ps} : Broken ls ps → Broken ((l ++ ['\n']) :: ls) (l :: ps)

theorem broken_lines (s : List Char) : Broken (lines s) (pieces '\n' s) := by
  induction s with
  | nil => exact .nil
  | cons c s ih =>
    rw [lines, pieces]
    split
    next hc =>
      subst hc
      exact .line (l := []) ih
    · generalize lines s = ls, pieces '\n' s = ps at ih ⊢
      cases ih with
      | nil => exact .last
      | last => exact .last
      | line h => exact .line (l := c :: _) h

end Loon.Text
