import Loon.Proofs.Lines

namespace Loon

namespace Text

theorem trimStart_append {s : List Char} (h : trimStart s ≠ []) (t : List Char) :
    trimStart (s ++ t) = trimStart s ++ t := by
  induction s with
  | nil => exact absurd rfl h
  | cons c s ih =>
    by_cases hc : isBlank c = true
    · rw [trimStart_blank hc] at h ⊢
      rw [List.cons_append, trimStart_blank hc, ih h]
    · rw [Bool.not_eq_true] at hc
      rw [List.cons_append, trimStart_solid hc, trimStart_solid hc, List.cons_append]

theorem Broken.split {before after ps : List (List Char)} {raw : List Char}
    (h : Broken (before ++ raw :: after) ps) :
    (before.flatten = [] ∨ before.flatten.getLast? = some '\n') ∧
      ∃ piece ∈ ps, raw = piece ++ ['\n'] ∨ raw = piece ∧ after = [] := by
  induction before generalizing ps with
  | nil =>
    refine ⟨.inl rfl, ?_⟩
    cases h with
    | last => exact ⟨raw, List.mem_cons_self .., .inr ⟨rfl, rfl⟩⟩
    | line => exact ⟨_, List.mem_cons_self .., .inl rfl⟩
  | cons first before ih =>
    cases hfirst : before ++ raw :: after with
    | nil => simp at hfirst
    | cons next rest =>
      rw [List.cons_append, hfirst] at h
      cases h with
      | line hrest =>
        rw [← hfirst] at hrest
        obtain ⟨hstart, piece, hpiece, hraw⟩ := ih hrest
        refine ⟨.inr ?_, piece, List.mem_cons_of_mem _ hpiece, hraw⟩
        rw [List.flatten_cons, List.getLast?_append]
        rcases hstart with hnil | hlast
        · simp [hnil]
        · simp [hlast]

theorem Broken.count {before after ps : List (List Char)} {raw : List Char}
    (h : Broken (before ++ raw :: after) ps) (hps : ∀ piece ∈ ps, '\n' ∉ piece) :
    before.flatten.count '\n' = before.length := by
  induction before generalizing ps with
  | nil => rfl
  | cons first before ih =>
    cases hfirst : before ++ raw :: after with
    | nil => simp at hfirst
    | cons next rest =>
      rw [List.cons_append, hfirst] at h
      cases h with
      | line hrest =>
        rw [← hfirst] at hrest
        rw [List.forall_mem_cons] at hps
        rw [List.flatten_cons, List.count_append, ih hrest hps.2, List.count_append,
          List.count_eq_zero.2 hps.1, List.length_cons]
        simp [Nat.add_comm]

theorem exists_after {raw piece : List Char} {after : List (List Char)}
    (h : raw = piece ++ ['\n'] ∨ raw = piece ∧ after = []) :
    ∃ rest, raw ++ after.flatten = piece ++ rest ∧ (rest = [] ∨ rest.head? = some '\n') ∧
      trim raw = trim piece ∧ (trimStart piece ≠ [] →
        size raw - size (trimStart raw) =
          size piece - size (trimStart piece)) := by
  rcases h with rfl | ⟨rfl, rfl⟩
  · refine ⟨'\n' :: after.flatten, by simp, .inr rfl, trim_append_blank rfl piece, fun hne => ?_⟩
    rw [trimStart_append hne, size_append, size_append]
    omega
  · exact ⟨[], rfl, .inl rfl, rfl, fun _ => rfl⟩

end Text

/-- The span covers the text of one line, all that stands between two newlines or an end of the source,
without the blanks around it. -/
inductive Source.Covers (source : Source) (span : Span) (text : String) : Prop
  | line (before left right after : List Char)
      (whole : source.text.toList = before ++ (left ++ (text.toList ++ right)) ++ after)
      (starts : before = [] ∨ before.getLast? = some '\n')
      (ends : after = [] ∨ after.head? = some '\n')
      (single : '\n' ∉ left ++ (text.toList ++ right))
      (left_blank : ∀ c ∈ left, Text.isBlank c = true)
      (right_blank : ∀ c ∈ right, Text.isBlank c = true)
      (trimmed : Text.trim text.toList = text.toList)
      (significant : Line.isSignificant text.toList = true)
      (offset : span.offset = Text.size (before ++ left))
      (length : span.length = Text.size text.toList)

theorem Line.exists_of_mem_scan {offset number : Nat} {raws : List (List Char)} {line : Line}
    (h : line ∈ scan offset number raws) :
    ∃ before raw after, raws = before ++ raw :: after ∧ line.text.toList = Text.trim raw ∧
      Line.isSignificant (Text.trim raw) = true ∧ line.number = number + before.length ∧
      line.start = offset + Text.size before.flatten +
        (Text.size raw - Text.size (Text.trimStart raw)) := by
  induction raws generalizing offset number with
  | nil => cases h
  | cons first raws ih =>
    have hlater : line ∈ scan (offset + Text.size first) (number + 1) raws →
        ∃ before raw after, first :: raws = before ++ raw :: after ∧ line.text.toList = Text.trim raw ∧
          Line.isSignificant (Text.trim raw) = true ∧ line.number = number + before.length ∧
          line.start = offset + Text.size before.flatten +
            (Text.size raw - Text.size (Text.trimStart raw)) := by
      intro hmem
      obtain ⟨before, raw, after, rfl, htext, hsignificant, hnumber, hstart⟩ := ih hmem
      refine ⟨first :: before, raw, after, rfl, htext, hsignificant, ?_, ?_⟩
      · rw [hnumber, List.length_cons, Nat.add_assoc number, Nat.add_comm 1]
      · rw [hstart, List.flatten_cons, Text.size_append, Nat.add_assoc offset]
    rw [scan] at h
    split at h
    next hsignificant =>
      rcases List.mem_cons.1 h with rfl | hmem
      · exact ⟨[], first, raws, rfl, String.toList_ofList, hsignificant, rfl, rfl⟩
      · exact hlater hmem
    · exact hlater h

theorem Source.exists_of_mem_lines {source : Source} {line : Line} (h : line ∈ source.lines) :
    ∃ before left right after,
      source.text.toList = before ++ (left ++ (line.text.toList ++ right)) ++ after ∧
      (before = [] ∨ before.getLast? = some '\n') ∧ (after = [] ∨ after.head? = some '\n') ∧
      '\n' ∉ left ++ (line.text.toList ++ right) ∧
      (∀ c ∈ left, Text.isBlank c = true) ∧ (∀ c ∈ right, Text.isBlank c = true) ∧
      Text.trim line.text.toList = line.text.toList ∧
      Line.isSignificant line.text.toList = true ∧
      line.number = before.count '\n' + 1 ∧ line.start = Text.size (before ++ left) := by
  obtain ⟨before, raw, after, hsplit, htext, hsignificant, hnumber, hstart⟩ :=
    Line.exists_of_mem_scan h
  have hbroken := Text.broken_lines source.text.toList
  rw [hsplit] at hbroken
  obtain ⟨hbefore, piece, hpiece, hraw⟩ := hbroken.split
  obtain ⟨rest, hrest, hends, htrim, hsize⟩ := Text.exists_after hraw
  obtain ⟨left, right, hpieces, hstarted, hleft, hright⟩ := Text.exists_trim piece
  rw [← htrim, ← htext] at hpieces hstarted
  rw [← htext] at hsignificant
  have hne : Text.trimStart piece ≠ [] := fun hnil => by
    rw [hnil, eq_comm, List.append_eq_nil_iff] at hstarted
    exact (Line.isSignificant_iff.1 hsignificant).1 hstarted.1
  have hwhole : source.text.toList = before.flatten ++ (left ++ (line.text.toList ++ right)) ++ rest := by
    rw [← Text.flatten_lines source.text.toList, hsplit, List.flatten_append, List.flatten_cons, hrest,
      ← hpieces, List.append_assoc]
  refine ⟨before.flatten, left, right, rest, hwhole, hbefore, hends, ?_, hleft, hright, ?_,
    hsignificant, ?_, ?_⟩
  · rw [← hpieces]
    exact Text.notMem_of_mem_pieces hpiece
  · rw [htext, Text.trim_trim]
  · rw [hnumber, hbroken.count fun _ => Text.notMem_of_mem_pieces, Nat.add_comm]
  · have hleft : Text.size piece = Text.size left + Text.size (Text.trimStart piece) := by
      rw [hstarted, ← Text.size_append, ← hpieces]
    rw [hstart, hsize hne, Text.size_append]
    omega

theorem Source.covers_of_mem_lines {source : Source} {line : Line} (h : line ∈ source.lines) :
    source.Covers line.span line.text := by
  obtain ⟨before, left, right, after, hwhole, hstarts, hends, hsingle, hleft, hright, htrimmed,
    hsignificant, _, hstart⟩ := exists_of_mem_lines h
  exact .line before left right after hwhole hstarts hends hsingle hleft hright htrimmed hsignificant
    hstart rfl

end Loon
