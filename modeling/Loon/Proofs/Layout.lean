import Loon.Proofs.DefinitionOrder
import Loon.Proofs.Positions
import Loon.Proofs.Reading.Registry
import Mathlib.Data.List.Induction
import Mathlib.Logic.Relation

namespace Loon

namespace Text

def IsPadding (s : List Char) : Prop := ∀ c ∈ s, isBlank c = true ∧ c ≠ '\n'

inductive Idle : List Char → Prop
  | blank {pad} : IsPadding pad → Idle pad
  | comment {pad note} : IsPadding pad → '\n' ∉ note → Idle (pad ++ '<' :: note)

inductive Edit : List Char → List Char → Prop
  | line {before line after} : (before = [] ∨ before.getLast? = some '\n') → Idle line →
      Edit (before ++ after) (before ++ (line ++ '\n' :: after))
  | blanks {before left left' body right right' after} :
      (before = [] ∨ before.getLast? = some '\n') → (after = [] ∨ after.head? = some '\n') →
      '\n' ∉ body → IsPadding left → IsPadding left' → IsPadding right → IsPadding right' →
      Edit (before ++ (left ++ (body ++ right)) ++ after) (before ++ (left' ++ (body ++ right')) ++ after)
  | carriage {before after} : Edit (before ++ '\n' :: after) (before ++ '\r' :: '\n' :: after)
  | final {s} : Edit s (s ++ ['\n'])

/-- Texts that come from each other by changes of their layout, made or taken back. -/
abbrev Relaid : List Char → List Char → Prop := Relation.EqvGen Edit

variable {s left body right : List Char}

theorem IsPadding.notMem (h : IsPadding s) : '\n' ∉ s := fun hmem => (h _ hmem).2 rfl

theorem IsPadding.blank (h : IsPadding s) : ∀ c ∈ s, isBlank c = true := fun c hc => (h c hc).1

theorem trim_padded (hleft : IsPadding left) (hright : IsPadding right) :
    trim (left ++ (body ++ right)) = trim body := trim_blanks body hleft.blank hright.blank

theorem Idle.notMem (h : Idle s) : '\n' ∉ s := by
  cases h with
  | blank hpad => exact hpad.notMem
  | comment hpad hnote => simp [hpad.notMem, hnote]

theorem Idle.isSignificant (h : Idle s) : Line.isSignificant (trim s) = false := by
  cases h with
  | blank hpad =>
    have hnone : ∀ c ∈ ([] : List Char), isBlank c = true := nofun
    have htrim := trim_blanks [] hpad.blank hnone
    rw [List.append_nil, List.append_nil] at htrim
    rw [htrim]
    rfl
  | comment hpad _ =>
    rw [trim, trimStart_append_blanks hpad.blank, trimStart_solid rfl, trimEnd_solid rfl]
    rfl

theorem exists_padding (h : '\n' ∉ s) :
    ∃ left right, s = left ++ (trim s ++ right) ∧ IsPadding left ∧ IsPadding right := by
  obtain ⟨left, right, hs, _, hleft, hright⟩ := exists_trim s
  rw [hs] at h
  simp only [List.mem_append, not_or] at h
  exact ⟨left, right, hs, fun c hc => ⟨hleft c hc, fun heq => h.1 (heq ▸ hc)⟩,
    fun c hc => ⟨hright c hc, fun heq => h.2.2 (heq ▸ hc)⟩⟩

theorem idle_of_isSignificant (hnewline : '\n' ∉ s) (h : Line.isSignificant (trim s) = false) :
    Idle s := by
  obtain ⟨left, right, hs, hleft, hright⟩ := exists_padding hnewline
  cases htrim : trim s with
  | nil =>
    rw [htrim] at hs
    rw [hs]
    exact .blank (List.forall_mem_append.2 ⟨hleft, hright⟩)
  | cons c note =>
    rw [htrim] at hs h
    obtain rfl : c = '<' := by simpa [Line.isSignificant] using h
    rw [hs] at hnewline ⊢
    exact .comment hleft fun hmem => hnewline (by simp_all)

theorem exists_last_line (s : List Char) :
    ∃ first last, s = first ++ last ∧ (first = [] ∨ first.getLast? = some '\n') ∧ '\n' ∉ last := by
  induction s with
  | nil => exact ⟨[], [], rfl, .inl rfl, List.not_mem_nil⟩
  | cons c s ih =>
    obtain ⟨first, last, rfl, hfirst, hlast⟩ := ih
    by_cases hc : c = '\n'
    · refine ⟨c :: first, last, rfl, .inr ?_, hlast⟩
      rcases hfirst with rfl | hfirst
      · rw [hc]
        rfl
      · simp [List.getLast?_cons, hfirst]
    · rcases hfirst with rfl | hfirst
      · exact ⟨[], c :: last, rfl, .inl rfl, by simp [Ne.symm hc, hlast]⟩
      · exact ⟨c :: first, last, rfl, .inr (by simp [List.getLast?_cons, hfirst]), hlast⟩

def ended (ls : List (List Char)) : List Char := ls.flatMap fun l => l ++ ['\n']

theorem ended_cons (l : List Char) (ls : List (List Char)) : ended (l :: ls) = l ++ '\n' :: ended ls := by
  rw [ended, List.flatMap_cons, List.append_assoc, List.singleton_append, ended]

theorem ended_pieces (s : List Char) : ended (pieces '\n' s) = s ++ ['\n'] := by
  induction s with
  | nil => rfl
  | cons c s ih =>
    rw [pieces]
    split
    next hc =>
      rw [ended_cons, ih, hc]
      rfl
    · cases hs : pieces '\n' s with
      | nil => exact absurd hs (pieces_ne_nil _ s)
      | cons piece rest =>
        rw [hs, ended_cons] at ih
        rw [ended_cons, List.cons_append, List.cons_append, ih]

end Text

namespace Line

open Text

variable {s s' before after : List Char}

theorem texts_of_starts (h : before = [] ∨ before.getLast? = some '\n') (s : List Char) :
    texts (before ++ s) = texts before ++ texts s := by
  rcases h with rfl | h
  · rfl
  · obtain ⟨first, rfl⟩ := List.getLast?_eq_some_iff.1 h
    rw [List.append_assoc, List.singleton_append, texts_append, texts_append, texts_nil,
      List.append_nil]

theorem texts_of_ends (h : after = [] ∨ after.head? = some '\n') (s : List Char) :
    texts (s ++ after) = texts s ++ texts after := by
  rcases h with rfl | h
  · simp
  · obtain ⟨rest, rfl⟩ := List.head?_eq_some_iff.1 h
    have hrest := texts_append [] rest
    rw [List.nil_append, texts_nil, List.nil_append] at hrest
    rw [texts_append, hrest]

theorem texts_append_blank {c : Char} (hblank : isBlank c = true) (hc : c ≠ '\n') (s : List Char) :
    texts (s ++ [c]) = texts s := by
  obtain ⟨first, last, rfl, hfirst, hlast⟩ := exists_last_line s
  have hlast' : '\n' ∉ last ++ [c] := by simp [hlast, Ne.symm hc]
  rw [List.append_assoc, texts_of_starts hfirst, texts_of_starts hfirst, texts_of_notMem hlast,
    texts_of_notMem hlast', trim_append_blank hblank]

theorem texts_of_edit (h : Edit s s') : texts s = texts s' := by
  cases h with
  | line hstarts hidle =>
    rw [texts_of_starts hstarts, texts_of_starts hstarts, texts_append, texts_of_notMem hidle.notMem,
      List.filter_singleton, hidle.isSignificant]
    rfl
  | @blanks before left left' body right right' after hstarts hends hbody hleft hleft' hright hright' =>
    have hnewline : '\n' ∉ left ++ (body ++ right) := by
      simp [hleft.notMem, hbody, hright.notMem]
    have hnewline' : '\n' ∉ left' ++ (body ++ right') := by
      simp [hleft'.notMem, hbody, hright'.notMem]
    rw [texts_of_ends hends, texts_of_ends hends, texts_of_starts hstarts, texts_of_starts hstarts,
      texts_of_notMem hnewline, texts_of_notMem hnewline', trim_padded hleft hright,
      trim_padded hleft' hright']
  | @carriage before after =>
    have hcarriage := texts_append (before ++ ['\r']) after
    rw [List.append_assoc, List.singleton_append, texts_append_blank rfl (by decide)] at hcarriage
    rw [texts_append, hcarriage]
  | final => rw [texts_append, texts_nil, List.append_nil]

end Line

namespace Text

theorem relaid_trimmed {ls : List (List Char)} (hls : ∀ l ∈ ls, '\n' ∉ l) {before : List Char}
    (hbefore : before = [] ∨ before.getLast? = some '\n') :
    Relaid (before ++ ended ls) (before ++ ended ((ls.map trim).filter Line.isSignificant)) := by
  induction ls generalizing before with
  | nil => exact .refl _
  | cons l ls ih =>
    rw [List.forall_mem_cons] at hls
    rw [List.map_cons, List.filter_cons, ended_cons]
    split
    next hsignificant =>
      obtain ⟨left, right, hl, hleft, hright⟩ := exists_padding hls.1
      have hbody : '\n' ∉ trim l := fun hmem => hls.1 (by rw [hl]; simp [hmem])
      have hends : '\n' :: ended ls = [] ∨ ('\n' :: ended ls).head? = some '\n' := .inr rfl
      have hnone : IsPadding [] := nofun
      have hedit := Edit.blanks hbefore hends hbody hleft hnone hright hnone
      rw [← hl] at hedit
      have hstarts : before ++ (trim l ++ ['\n']) = [] ∨
          (before ++ (trim l ++ ['\n'])).getLast? = some '\n' := .inr (by simp)
      have hrest := ih hls.2 hstarts
      rw [ended_cons]
      simp only [List.append_assoc, List.nil_append, List.append_nil, List.singleton_append]
        at hedit hrest
      exact .trans _ _ _ (.rel _ _ hedit) hrest
    next hidle =>
      have hline := idle_of_isSignificant hls.1 (Bool.eq_false_iff.2 hidle)
      exact .trans _ _ _ (.symm _ _ (.rel _ _ (.line hbefore hline))) (ih hls.2 hbefore)

theorem relaid_texts (s : List Char) : Relaid s (ended (Line.texts s)) := by
  have hpieces : Relaid (ended (pieces '\n' s)) (ended (Line.texts s)) :=
    relaid_trimmed (fun _ => notMem_of_mem_pieces) (.inl rfl)
  rw [ended_pieces] at hpieces
  exact .trans _ _ _ (.rel _ _ .final) hpieces

/-- Layout is all that can differ between texts with the same significant lines. -/
theorem relaid_iff {s s' : List Char} : Relaid s s' ↔ Line.texts s = Line.texts s' := by
  constructor
  · intro h
    induction h with
    | rel _ _ hedit => exact Line.texts_of_edit hedit
    | refl _ => rfl
    | symm _ _ _ ih => exact ih.symm
    | trans _ _ _ _ _ ih ih' => exact ih.trans ih'
  · intro h
    have hs' := relaid_texts s'
    rw [← h] at hs'
    exact .trans _ _ _ (relaid_texts s) (.symm _ _ hs')

end Text

namespace FileTree

variable {t : FileTree} {text text' fileName : String}

theorem endAlike_relaid (h : Text.Relaid text.toList text'.toList) :
    Importer.EndAlike (t.readDocument text fileName) (t.readDocument text' fileName) := by
  have hlines : (Source.lines ⟨t.absolute fileName, text⟩).map Line.content =
      (Source.lines ⟨t.absolute fileName, text'⟩).map Line.content := by
    rw [Line.map_content_lines, Line.map_content_lines, Text.relaid_iff.1 h]
  exact endAlike_readDocument (Draft.alike_empty.run_endAlike (importsEndAlike _ _ _ _ _)
    (Line.forall₂_alike_of_content hlines) .nil)

theorem outcome_labelsOf
    (h : Importer.EndAlike (t.readDocument text fileName) (t.readDocument text' fileName)) :
    Outcome Error.Alike Eq (t.labelsOf text fileName) (t.labelsOf text' fileName) := by
  have hresult := h.result
  rw [labelsOf, labelsOf]
  generalize (t.readDocument text fileName).1 = x, (t.readDocument text' fileName).1 = y
    at hresult ⊢
  cases hresult with
  | ok hd => exact Document.outcome_resolveEach hd.agrees hd.labels
  | error he => exact .error he

/-- Layout does not matter: a text and one that differs from it in its layout are evaluated to the
same labels in the same order, or the same is wrong with both and told in the same words. -/
theorem labelsOf_relaid (t : FileTree) (fileName : String)
    (h : Text.Relaid text.toList text'.toList) :
    Outcome (fun e e' => e.fault = e'.fault ∧ e.message = e'.message) Eq
      (t.labelsOf text fileName) (t.labelsOf text' fileName) := by
  have hlabels : Outcome Error.Alike Eq (t.labelsOf text fileName) (t.labelsOf text' fileName) :=
    outcome_labelsOf (endAlike_relaid h)
  generalize t.labelsOf text fileName = x, t.labelsOf text' fileName = y at hlabels ⊢
  cases hlabels with
  | ok hR => exact .ok hR
  | error he => exact .error ⟨he, congrArg Fault.message he⟩

theorem labelsOf_relaid_blanks :
    let t : FileTree := ⟨[], [(["b.loon"], .text "(b)\nn = 1\nend\n")]⟩
    let text := "@b.loon\n(a)\nk = [b.n]\nend"
    let text' := "< first\r\n\t@b.loon\u2003\r\n\r\n  (a)\n\u00a0k = [b.n]\nend\n"
    Text.Relaid text.toList text'.toList ∧
      ∃ R, t.labelsOf text "main.loon" = .ok R ∧ t.labelsOf text' "main.loon" = .ok R ∧
        Mapping.keys R = ["b", "a"] := by
  intro t text text'
  have hrelaid : Text.Relaid text.toList text'.toList := Text.relaid_iff.2 (by decide +kernel)
  have hkeys : (t.labelsOf text "main.loon").toOption.map Mapping.keys = some ["b", "a"] := by
    decide +kernel
  obtain ⟨R, hR, hkeys⟩ := Option.map_eq_some_iff.1 hkeys
  have hR := toOption_eq_some.1 hR
  exact ⟨hrelaid, R, hR, ((labelsOf_relaid t "main.loon" hrelaid).eq_ok_iff R).1 hR, hkeys⟩

end FileTree

end Loon
