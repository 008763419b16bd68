import Loon.Proofs.Positions

namespace Loon

namespace Text

theorem utf8ByteSize_ofList (s : List Char) : (String.ofList s).utf8ByteSize = size s := by
  induction s with
  | nil => rfl
  | cons c s ih =>
    rw [String.ofList_cons, String.utf8ByteSize_append, ih, String.utf8ByteSize_singleton, size_cons]

theorem size_toList (s : String) : size s.toList = s.utf8ByteSize := by
  rw [← utf8ByteSize_ofList, String.ofList_toList]

theorem extract_append (s t u : String) :
    (s ++ (t ++ u)).toByteArray.extract s.utf8ByteSize (s.utf8ByteSize + t.utf8ByteSize) =
      t.toByteArray := by
  rw [String.toByteArray_append, String.toByteArray_append, ← String.size_toByteArray,
    ← String.size_toByteArray]
  calc _ = (t.toByteArray ++ u.toByteArray).extract 0 t.toByteArray.size :=
        ByteArray.extract_append_size_add (i := 0)
    _ = t.toByteArray := ByteArray.extract_append_eq_left rfl

theorem size_pos {s : List Char} (h : s ≠ []) : 0 < size s := by
  cases s with
  | nil => exact absurd rfl h
  | cons c s => exact Nat.add_pos_left (Char.utf8Size_pos c) _

theorem eq_of_append_eq {s s' t t' : List Char} (h : s ++ t = s' ++ t') (hsize : size s = size s') :
    s = s' := by
  induction s generalizing s' with
  | nil =>
    by_contra hne
    exact absurd hsize (Nat.ne_of_lt (size_pos (Ne.symm hne)))
  | cons c s ih =>
    cases s' with
    | nil => exact absurd hsize.symm (Nat.ne_of_lt (size_pos (List.cons_ne_nil c s)))
    | cons d s' =>
      obtain ⟨rfl, htail⟩ := List.cons.inj h
      rw [ih htail (Nat.add_left_cancel hsize)]

theorem intercalate_pieces (mark : Char) (s : List Char) : [mark].intercalate (pieces mark s) = s := by
  induction s with
  | nil => rfl
  | cons c s ih =>
    rw [pieces]
    cases hs : pieces mark s with
    | nil => exact absurd hs (pieces_ne_nil mark s)
    | cons piece rest =>
      rw [hs] at ih
      split
      next hc => simp_all [List.intercalate_cons_cons]
      · cases rest <;> simp_all [List.intercalate_cons_cons]

theorem pieces_eq_splitOn (mark : Char) (s : List Char) : pieces mark s = s.splitOn mark := by
  have hsplit := List.splitOn_intercalate mark (fun _ => notMem_of_mem_pieces) (pieces_ne_nil mark s)
  rw [← hsplit, intercalate_pieces]

def numbered (s : List Char) : List (List Char × Nat) := ((s.splitOn '\n').map trim).zipIdx 1

end Text

namespace Line

theorem size_trim_le (raw : List Char) :
    Text.size raw - Text.size (Text.trimStart raw) + Text.size (Text.trim raw) ≤ Text.size raw := by
  obtain ⟨left, right, hraw, hstart, _⟩ := Text.exists_trim raw
  have hsize := congrArg Text.size hraw
  rw [← hstart, Text.size_append] at hsize
  rw [hstart, Text.size_append] at hsize ⊢
  omega

theorem pairwise_scan (offset number : Nat) (raws : List (List Char)) :
    (scan offset number raws).Pairwise fun line later => line.stop ≤ later.start := by
  induction raws generalizing offset number with
  | nil => exact .nil
  | cons raw raws ih =>
    rw [scan]
    split
    · refine .cons (fun later hlater => ?_) (ih _ _)
      obtain ⟨before, _, _, _, _, _, _, hstart⟩ := exists_of_mem_scan hlater
      have hsize := size_trim_le raw
      rw [stop, length, hstart, String.toList_ofList]
      dsimp only
      omega
    · exact ih _ _

theorem map_number_scan (offset number : Nat) (raws : List (List Char)) :
    (scan offset number raws).map (fun line => (line.text.toList, line.number)) =
      ((raws.map Text.trim).zipIdx number).filter fun piece => isSignificant piece.1 := by
  induction raws generalizing offset number with
  | nil => rfl
  | cons raw raws ih =>
    rw [scan, List.map_cons, List.zipIdx_cons, List.filter_cons]
    split
    · rw [List.map_cons, ih, String.toList_ofList]
    · exact ih _ _

theorem filter_numbered_of_broken {ls ps : List (List Char)} (h : Text.Broken ls ps) (number : Nat) :
    (((ls.map Text.trim).zipIdx number).filter fun piece => isSignificant piece.1) =
      ((ps.map Text.trim).zipIdx number).filter fun piece => isSignificant piece.1 := by
  induction h generalizing number with
  | nil => rfl
  | last => rfl
  | line _ ih =>
    rw [List.map_cons, List.map_cons, Text.trim_append_blank rfl, List.zipIdx_cons, List.zipIdx_cons,
      List.filter_cons, List.filter_cons, ih]

end Line

/-- The line is found in the source: at whole characters, alone between two newlines but for blanks,
under the number of the newlines before it, and with what its text says. -/
structure Source.Stands (source : Source) (line : Line) : Prop where
  start_valid : String.Pos.Raw.IsValid source.text ⟨line.start⟩
  stop_valid : String.Pos.Raw.IsValid source.text ⟨line.stop⟩
  nonempty : line.start < line.stop
  bytes : source.text.toByteArray.extract line.start line.stop = line.text.toByteArray
  alone : source.Covers line.span line.text
  head_solid : ∀ c ∈ line.text.toList.head?, Text.isBlank c = false
  last_solid : ∀ c ∈ line.text.toList.getLast?, Text.isBlank c = false
  number : ∀ before after, source.text = before ++ after → before.utf8ByteSize = line.start →
    line.number = before.toList.count '\n' + 1
  statement : line.statement = Statement.ofText line.text

namespace Source

theorem statement_of_mem_lines {source : Source} {line : Line} (h : line ∈ source.lines) :
    line.statement = Statement.ofText line.text := by
  have hmem : line.content ∈ source.lines.map Line.content := List.mem_map_of_mem h
  rw [Line.map_content_lines, List.mem_map] at hmem
  obtain ⟨text, _, hcontent⟩ := hmem
  obtain ⟨hstatement, htext⟩ := Prod.mk.inj hcontent
  rw [← htext, Statement.ofText, String.toList_ofList, hstatement]

theorem exists_split_of_mem_lines {source : Source} {line : Line} (h : line ∈ source.lines) :
    ∃ first last, source.text = first ++ (line.text ++ last) ∧ first.utf8ByteSize = line.start ∧
      line.number = first.toList.count '\n' + 1 := by
  obtain ⟨before, left, right, after, hwhole, _, _, hsingle, _, _, _, _, hnumber, hstart⟩ :=
    exists_of_mem_lines h
  refine ⟨String.ofList (before ++ left), String.ofList (right ++ after), ?_, ?_, ?_⟩
  · apply String.toList_inj.1
    simp [hwhole]
  · rw [Text.utf8ByteSize_ofList, hstart]
  · have hleft : '\n' ∉ left := fun hmem => hsingle (List.mem_append_left _ hmem)
    rw [hnumber, String.toList_ofList, List.count_append, List.count_eq_zero.2 hleft, Nat.add_zero]

theorem stands_of_mem_lines {source : Source} {line : Line} (h : line ∈ source.lines) :
    source.Stands line := by
  obtain ⟨first, last, htext, hstart, hnumber⟩ := exists_split_of_mem_lines h
  have hcovers := covers_of_mem_lines h
  obtain ⟨_, _, _, _, _, _, _, _, _, _, htrimmed, hsignificant, _, _⟩ := hcovers
  have hends := Text.ends_of_trim htrimmed
  have hstop : line.stop = first.utf8ByteSize + line.text.utf8ByteSize := by
    rw [Line.stop, Line.length, Text.size_toList, hstart]
  refine ⟨?_, ?_, ?_, ?_, covers_of_mem_lines h, hends.1, hends.2, ?_, statement_of_mem_lines h⟩
  · exact String.Pos.Raw.isValid_iff_exists_append.2 ⟨first, _, htext, by rw [← hstart]; rfl⟩
  · refine String.Pos.Raw.isValid_iff_exists_append.2 ⟨first ++ line.text, last, ?_, ?_⟩
    · rw [htext, String.append_assoc]
    · rw [hstop, ← String.utf8ByteSize_append]
      rfl
  · exact Nat.lt_add_of_pos_right (Text.size_pos (Line.isSignificant_iff.1 hsignificant).1)
  · rw [htext, hstop, ← hstart, Text.extract_append]
  · intro before after hsplit hsize
    have hlists : before.toList ++ after.toList = first.toList ++ (line.text.toList ++ last.toList) := by
      rw [← String.toList_append, ← hsplit, htext, String.toList_append, String.toList_append]
    have hbefore := Text.eq_of_append_eq hlists
      (by rw [Text.size_toList, Text.size_toList, hsize, hstart])
    rw [hbefore, hnumber]

/-- The lines of a source are those between its newlines that, trimmed, are neither empty nor begin with
`<`, in order and each under its number. Each stands in the source where its offsets say, and ends before
the next one begins. -/
theorem lines_significant (source : Source) :
    (source.lines.map fun line => (line.text.toList, line.number)) =
        ((Text.numbered source.text.toList).filter fun piece => Line.isSignificant piece.1) ∧
      (∀ line ∈ source.lines, source.Stands line) ∧
      source.lines.Pairwise fun line later => line.stop ≤ later.start := by
  refine ⟨?_, fun line => stands_of_mem_lines, Line.pairwise_scan _ _ _⟩
  rw [lines, Line.map_number_scan, Line.filter_numbered_of_broken (Text.broken_lines _),
    Text.pieces_eq_splitOn, Text.numbered]

theorem lines_significant_bytes :
    let source : Source := ⟨"main.loon", "(é)\r\n\u2003k = ü \n< note\n\nend"⟩
    (source.lines.map fun line => (line.text, line.number, line.start, line.stop)) =
        [("(é)", 1, 0, 4), ("k = ü", 2, 9, 15), ("end", 5, 25, 28)] ∧
      ∀ line ∈ source.lines, source.Stands line := by
  intro source
  exact ⟨by decide +kernel, (lines_significant source).2.1⟩

end Source

end Loon
