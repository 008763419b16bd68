import Loon.Line
import Loon.Proofs.Text

namespace Loon

def Statement.Trimmed : Statement → Prop
  | assign _ token => Text.trim token.toList = token.toList
  | item token => Text.trim token.toList = token.toList
  | _ => True

theorem Statement.exists_of_labelOf {s : List Char} {statement : Statement}
    (h : labelOf s = some statement) : ∃ name hidden, statement = .openLabel name hidden := by
  rw [labelOf] at h
  split at h
  · cases h
  · split at h
    · exact ⟨_, _, (Option.some.inj h).symm⟩
    · split at h
      · exact ⟨_, _, (Option.some.inj h).symm⟩
      · cases h

theorem Statement.exists_of_injectionOf (s : List Char) :
    ∃ target valueOnly, injectionOf s = .inject target valueOnly := by
  rw [injectionOf]
  split <;> exact ⟨_, _, rfl⟩

theorem Statement.trimmed_ofChars {s : List Char} (h : Text.trim s = s) : (ofChars s).Trimmed := by
  rw [ofChars]
  split
  next hlabel =>
    obtain ⟨name, hidden, rfl⟩ := exists_of_labelOf hlabel
    trivial
  · split
    · trivial
    · split
      · trivial
      · split
        · trivial
        · split
          · simp [Trimmed]
          · split
            · trivial
            · split
              next rest _ =>
                obtain ⟨target, valueOnly, hinject⟩ := exists_of_injectionOf rest
                rw [hinject]
                trivial
              · simpa [Trimmed] using h

theorem Line.statement_of_mem_scan {offset number : Nat} {texts : List (List Char)} {line : Line}
    (h : line ∈ scan offset number texts) :
    ∃ raw ∈ texts, line.statement = Statement.ofChars (Text.trim raw) := by
  induction texts generalizing offset number with
  | nil => cases h
  | cons raw texts ih =>
    have hrest : line ∈ scan (offset + Text.size raw) (number + 1) texts →
        ∃ r ∈ raw :: texts, line.statement = Statement.ofChars (Text.trim r) := fun hmem =>
      let ⟨r, hr, hline⟩ := ih hmem
      ⟨r, List.mem_cons_of_mem _ hr, hline⟩
    rw [scan] at h
    split at h
    · rcases List.mem_cons.1 h with rfl | hmem
      · exact ⟨raw, List.mem_cons_self .., rfl⟩
      · exact hrest hmem
    · exact hrest h

theorem Source.trimmed_of_mem_lines {source : Source} {line : Line} (h : line ∈ source.lines) :
    line.statement.Trimmed := by
  obtain ⟨raw, _, hline⟩ := Line.statement_of_mem_scan h
  rw [hline]
  exact Statement.trimmed_ofChars (Text.trim_trim raw)

namespace Line

def content (l : Line) : Statement × String := (l.statement, l.text)

def texts (s : List Char) : List (List Char) :=
  ((Text.pieces '\n' s).map Text.trim).filter isSignificant

def ofTrimmed (text : List Char) : Statement × String :=
  (Statement.ofChars text, String.ofList text)

theorem map_content_scan (offset number : Nat) (raws : List (List Char)) :
    (scan offset number raws).map content =
      ((raws.map Text.trim).filter isSignificant).map ofTrimmed := by
  induction raws generalizing offset number with
  | nil => rfl
  | cons raw raws ih =>
    rw [scan, List.map_cons, List.filter_cons]
    split
    · rw [List.map_cons, ih, List.map_cons]
      rfl
    · exact ih _ _

theorem filter_trim_of_broken {ls ps : List (List Char)} (h : Text.Broken ls ps) :
    (ls.map Text.trim).filter isSignificant = (ps.map Text.trim).filter isSignificant := by
  induction h with
  | nil => rfl
  | last => rfl
  | line _ ih =>
    rw [List.map_cons, List.map_cons, Text.trim_append_blank rfl, List.filter_cons, List.filter_cons,
      ih]

theorem map_content_lines (source : Source) :
    source.lines.map content = (texts source.text.toList).map ofTrimmed := by
  rw [Source.lines, map_content_scan, filter_trim_of_broken (Text.broken_lines _), texts]

@[simp] theorem texts_nil : texts [] = [] := rfl

theorem texts_append (s t : List Char) : texts (s ++ '\n' :: t) = texts s ++ texts t := by
  rw [texts, Text.pieces_append, List.map_append, List.filter_append, texts, texts]

theorem texts_intercalate (parts : List (List Char)) :
    texts (['\n'].intercalate parts) = parts.flatMap texts := by
  induction parts with
  | nil => rfl
  | cons part parts ih =>
    cases parts with
    | nil => simp
    | cons next parts =>
      rw [List.flatMap_cons, ← ih, ← texts_append]
      simp

theorem texts_of_notMem {s : List Char} (h : '\n' ∉ s) :
    texts s = [Text.trim s].filter isSignificant := by
  rw [texts, Text.pieces_of_notMem h]
  rfl

theorem isSignificant_iff {s : List Char} : isSignificant s = true ↔ s ≠ [] ∧ s.head? ≠ some '<' := by
  simp [isSignificant]

structure Says (text : String) (statement : Statement) : Prop where
  single : '\n' ∉ text.toList
  trimmed : Text.trim text.toList = text.toList
  significant : isSignificant text.toList = true
  statement : Statement.ofText text = statement

theorem says_of_solid {text : String} {statement : Statement}
    (hsolid : ∀ c ∈ text.toList, Text.isBlank c = false)
    (hsignificant : isSignificant text.toList = true)
    (hstatement : Statement.ofText text = statement) : Says text statement where
  single h := Bool.noConfusion (hsolid '\n' h)
  trimmed := Text.trim_of_solid hsolid
  significant := hsignificant
  statement := hstatement

theorem texts_join {lines : List String} {statements : List Statement}
    (h : List.Forall₂ Says lines statements) :
    texts (String.join (lines.map (· ++ "\n"))).toList = lines.map String.toList := by
  induction h with
  | nil => rfl
  | @cons text _ lines _ hsays _ ih =>
    have hlines : (String.join ((text :: lines).map (· ++ "\n"))).toList =
        text.toList ++ '\n' :: (String.join (lines.map (· ++ "\n"))).toList := by simp
    rw [hlines, texts_append, ih, texts_of_notMem hsays.single, hsays.trimmed,
      List.filter_singleton, hsays.significant]
    rfl

end Line

theorem Source.statements_join {name : String} {texts : List String} {statements : List Statement}
    (h : List.Forall₂ Line.Says texts statements) :
    (lines ⟨name, String.join (texts.map (· ++ "\n"))⟩).map Line.statement = statements := by
  have hfst : Line.statement = Prod.fst ∘ Line.content := rfl
  rw [hfst, ← List.map_map, Line.map_content_lines, Line.texts_join h]
  induction h with
  | nil => rfl
  | cons hsays _ ih =>
    rw [List.map_cons, List.map_cons, List.map_cons, ih, ← hsays.statement]
    rfl

theorem Source.map_content_intercalate (name : String) (parts : List String) :
    (lines ⟨name, "\n".intercalate parts⟩).map Line.content =
      (parts.flatMap fun part => lines ⟨name, part⟩).map Line.content := by
  have hnewline : "\n".toList = ['\n'] := rfl
  rw [Line.map_content_lines, String.toList_intercalate, hnewline, Line.texts_intercalate,
    List.flatMap_map, List.map_flatMap, List.map_flatMap]
  exact List.flatMap_congr fun part _ => (Line.map_content_lines ⟨name, part⟩).symm

def Source.IsWhole (text : String) : Prop := text = "" ∨ ∃ s, text = s ++ "\n"

theorem Source.map_content_append (name : String) {before after : String}
    (h : IsWhole before ∨ after = "") :
    (lines ⟨name, before ++ after⟩).map Line.content =
      (lines ⟨name, before⟩ ++ lines ⟨name, after⟩).map Line.content := by
  rw [List.map_append, Line.map_content_lines, Line.map_content_lines, Line.map_content_lines,
    ← List.map_append]
  congr 1
  rcases h with (rfl | ⟨s, rfl⟩) | rfl
  · simp
  · simp [Line.texts_append]
  · simp

theorem Line.Says.map_content {text : String} {statement : Statement} (h : Says text statement)
    (name : String) :
    (Source.lines ⟨name, text ++ "\n"⟩).map content = [(statement, text)] := by
  have htexts : texts (text ++ "\n").toList = [text.toList] := by
    have := texts_append text.toList []
    rw [texts_of_notMem h.single, h.trimmed, List.filter_singleton, h.significant] at this
    simpa using this
  rw [map_content_lines, htexts, ← h.statement]
  simp [ofTrimmed, Statement.ofText]

end Loon
