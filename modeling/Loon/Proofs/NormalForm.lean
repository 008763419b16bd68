import Loon.Proofs.Positions

namespace Loon

namespace Text

variable {c : Char} {s t mark : List Char}

def lessByte? : List Char → Option (List Char)
  | [] => none
  | [c] => if c.utf8Size = 1 then some [] else none
  | c :: d :: ds => (lessByte? (d :: ds)).map (c :: ·)

theorem lessByte?_append (h : c.utf8Size = 1) (s : List Char) : lessByte? (s ++ [c]) = some s := by
  induction s with
  | nil => simp [lessByte?, h]
  | cons d s ih =>
    cases s with
    | nil => simp [lessByte?, h]
    | cons e s => simpa [lessByte?] using ih

theorem after_append_singleton (h : c ∉ mark) (s : List Char) :
    after mark (s ++ [c]) = (after mark s).map (· ++ [c]) := by
  induction mark generalizing s with
  | nil => rfl
  | cons m mark ih =>
    rw [List.mem_cons, not_or] at h
    cases s with
    | nil => simp [after, h.1]
    | cons d s =>
      rw [List.cons_append, after, after]
      split
      · exact ih h.2 s
      · rfl

theorem prefix_of_prefix_append (h : mark <+: s ++ c :: t) (hc : c ∉ mark) : mark <+: s := by
  rcases List.prefix_or_prefix_of_prefix h (List.prefix_append s (c :: t)) with hs | ⟨rest, rfl⟩
  · exact hs
  · rw [List.prefix_append_right_inj] at h
    cases rest with
    | nil => simp
    | cons d rest =>
      obtain rfl := (List.cons_prefix_cons.1 h).1
      simp at hc

end Text

namespace Statement

variable {s : List Char}

theorem labelOf_append (inner : List Char) :
    labelOf (inner ++ [')']) =
      match Text.after ['%', '('] inner with
      | some name => some (.openLabel (String.ofList name) true)
      | none => (Text.after ['('] inner).map fun name => .openLabel (String.ofList name) false := by
  rw [labelOf, Text.before_eq_some.2 rfl]
  dsimp only
  cases Text.after ['%', '('] inner <;> cases Text.after ['('] inner <;> rfl

theorem labelOf_eq_none_iff :
    labelOf s = none ↔ (s.getLast? = some ')' → ¬['('] <+: s ∧ ¬['%', '('] <+: s) := by
  by_cases hlast : s.getLast? = some ')'
  · obtain ⟨inner, rfl⟩ := List.getLast?_eq_some_iff.1 hlast
    have hstart : ∀ mark : List Char, ')' ∉ mark → (mark <+: inner ++ [')'] ↔ mark <+: inner) :=
      fun mark hmark =>
        ⟨fun h => Text.prefix_of_prefix_append h hmark, fun h => h.trans (List.prefix_append ..)⟩
    rw [hstart _ (by decide), hstart _ (by decide), ← Text.after_eq_none_iff,
      ← Text.after_eq_none_iff, labelOf_append]
    cases Text.after ['%', '('] inner <;> cases Text.after ['('] inner <;> simp
  · simp [labelOf, Text.before_eq_none hlast, hlast]

theorem labelOf_of_head {c : Char} (hhead : s.head? = some c) (hc : c ∉ ['(', '%']) :
    labelOf s = none := by
  obtain ⟨rest, rfl⟩ := List.head?_eq_some_iff.1 hhead
  rw [List.mem_cons, List.mem_singleton, not_or] at hc
  refine labelOf_eq_none_iff.2 fun _ => ⟨fun h => ?_, fun h => ?_⟩
  · exact hc.1 (List.cons_prefix_cons.1 h).1.symm
  · exact hc.2 (List.cons_prefix_cons.1 h).1.symm

/-- The rules by which a line is read, each with what keeps the earlier ones from fitting. -/
inductive Reads (s : List Char) : Statement → Prop
  | label {statement} : labelOf s = some statement → Reads s statement
  | openSpace {name} : s = ':' :: name → Reads s (.openSpace (String.ofList (Text.trim name)))
  | closeSpace : s = ['e', 'n', 'd', ':'] → Reads s .closeSpace
  | closeLabel : s = ['e', 'n', 'd'] → Reads s .closeLabel
  | assign {key value} : labelOf s = none → s.head? ≠ some ':' → s = key ++ '=' :: value → '=' ∉ key →
      Reads s (.assign (String.ofList (Text.trim key)) (String.ofList (Text.trim value)))
  | importFile {target} : s = '@' :: target → '=' ∉ target →
      Reads s (.importFile (String.ofList (Text.trim target)))
  | inject {target} : s = '-' :: '>' :: target → '=' ∉ target → Reads s (injectionOf target)
  | item : ofChars s = .item (String.ofList s) → Reads s (.item (String.ofList s))

theorem reads_ofChars (s : List Char) : Reads s (ofChars s) := by
  have hitem : ofChars s = .item (String.ofList s) → Reads s (ofChars s) := fun h => by
    rw [h]
    exact .item h
  revert hitem
  rw [ofChars]
  intro hitem
  split
  next hlabel => exact .label hlabel
  next hlabel =>
    split
    next hname => exact .openSpace (Text.after_eq_some.1 hname)
    next hspace =>
      have hcolon : s.head? ≠ some ':' := fun h => by
        obtain ⟨rest, rfl⟩ := List.head?_eq_some_iff.1 h
        simp [Text.after] at hspace
      split
      next hs => exact .closeSpace hs
      · split
        next hs => exact .closeLabel hs
        · split
          next hcut =>
            obtain ⟨hs, hequals⟩ := Text.cut_eq_some.1 hcut
            exact .assign hlabel hcolon hs hequals
          next hcut =>
            have hequals := Text.notMem_of_cut hcut
            split
            next target htarget =>
              obtain rfl := Text.after_eq_some.1 htarget
              exact .importFile rfl (by simp_all)
            · split
              next target htarget =>
                obtain rfl := Text.after_eq_some.1 htarget
                exact .inject rfl (by simp_all)
              · simp_all

theorem Reads.ofChars {statement : Statement} (h : Reads s statement) : ofChars s = statement := by
  cases h with
  | label hlabel => rw [Statement.ofChars, hlabel]
  | openSpace hs =>
    rw [Statement.ofChars, labelOf_of_head (by rw [hs]; rfl) (by decide), hs]
    rfl
  | closeSpace hs =>
    rw [hs]
    rfl
  | closeLabel hs =>
    rw [hs]
    rfl
  | assign hlabel hcolon hs hequals =>
    have hmem : '=' ∈ s := by simp [hs]
    rw [Statement.ofChars, hlabel, Text.after_eq_none hcolon]
    dsimp only
    rw [if_neg (fun h => by simp [h] at hmem), if_neg (fun h => by simp [h] at hmem),
      Text.cut_eq_some.2 ⟨hs, hequals⟩]
  | importFile hs hequals =>
    rw [Statement.ofChars, labelOf_of_head (by rw [hs]; rfl) (by decide), hs]
    simp [Text.after, Text.cut_of_notMem, hequals]
  | inject hs hequals =>
    rw [Statement.ofChars, labelOf_of_head (by rw [hs]; rfl) (by decide), hs]
    simp [Text.after, Text.cut_of_notMem, hequals]
  | item hs => exact hs

/-- A label as it is found byte by byte: once the text is known to end with a parenthesis, what opens the
label is taken off, and then the last byte. -/
def labelByBytes? (s : List Char) : Option (Option Statement) :=
  if s.getLast? = some ')' then
    match Text.after ['%', '('] s with
    | some rest => (Text.lessByte? rest).map fun name => some (.openLabel (String.ofList name) true)
    | none =>
      match Text.after ['('] s with
      | some rest => (Text.lessByte? rest).map fun name => some (.openLabel (String.ofList name) false)
      | none => some none
  else some none

theorem labelByBytes?_eq (s : List Char) : labelByBytes? s = some (labelOf s) := by
  rw [labelByBytes?]
  split
  next hlast =>
    obtain ⟨inner, rfl⟩ := List.getLast?_eq_some_iff.1 hlast
    have hless := fun name => Text.lessByte?_append (c := ')') rfl name
    rw [labelOf_append, Text.after_append_singleton (by decide),
      Text.after_append_singleton (by decide)]
    cases Text.after ['%', '('] inner with
    | some name => simp [hless]
    | none => cases Text.after ['('] inner <;> simp [hless]
  next hlast => rw [labelOf_eq_none_iff.2 fun h => absurd h hlast]

def written : Statement → String
  | openLabel name false => "(" ++ name ++ ")"
  | openLabel name true => "%(" ++ name ++ ")"
  | openSpace name => ":" ++ name
  | closeSpace => "end:"
  | closeLabel => "end"
  | assign key value => key ++ " = " ++ value
  | importFile target => "@" ++ target
  | inject target false => "-> " ++ target
  | inject target true => "-> " ++ target ++ "&"
  | item text => text

def IsTrimmed (text : String) : Prop := Text.trim text.toList = text.toList

instance (text : String) : Decidable (IsTrimmed text) :=
  inferInstanceAs (Decidable (Text.trim text.toList = text.toList))

def IsNormal : Statement → Prop
  | openSpace name => IsTrimmed name
  | assign key value =>
    IsTrimmed key ∧ IsTrimmed value ∧ '=' ∉ key.toList ∧ key.toList.head? ≠ some ':' ∧
      (value.toList.getLast? = some ')' → ¬['('] <+: key.toList ∧ ¬['%', '('] <+: key.toList)
  | importFile target => IsTrimmed target ∧ '=' ∉ target.toList
  | inject target valueOnly =>
    IsTrimmed target ∧ '=' ∉ target.toList ∧
      (valueOnly = false → target.toList.getLast? ≠ some '&')
  | item text => ofText text = item text
  | _ => True

theorem isTrimmed_ofList_trim (s : List Char) : IsTrimmed (String.ofList (Text.trim s)) := by
  rw [IsTrimmed, String.toList_ofList, Text.trim_trim]

theorem notMem_ofList_trim {c : Char} (h : c ∉ s) : c ∉ (String.ofList (Text.trim s)).toList := by
  rw [String.toList_ofList]
  exact fun hmem => h (Text.mem_of_mem_trim hmem)

theorem isNormal_injectionOf (h : '=' ∉ s) : (injectionOf s).IsNormal := by
  have htarget : '=' ∉ Text.trim s := fun hmem => h (Text.mem_of_mem_trim hmem)
  rw [injectionOf]
  split
  next inner hinner =>
    have hequals : '=' ∉ inner := fun hmem =>
      htarget (by rw [Text.before_eq_some.1 hinner]; exact List.mem_append_left _ hmem)
    exact ⟨isTrimmed_ofList_trim _, notMem_ofList_trim hequals, fun h => absurd h.symm Bool.false_ne_true⟩
  next hnone =>
    refine ⟨isTrimmed_ofList_trim _, notMem_ofList_trim h, fun _ hlast => ?_⟩
    rw [String.toList_ofList] at hlast
    obtain ⟨inner, hinner⟩ := List.getLast?_eq_some_iff.1 hlast
    rw [Text.before_eq_some.2 hinner] at hnone
    cases hnone

theorem isNormal_assign {key value : List Char} (htrim : Text.trim s = s) (hlabel : labelOf s = none)
    (hcolon : s.head? ≠ some ':') (hs : s = key ++ '=' :: value) (hequals : '=' ∉ key) :
    (assign (String.ofList (Text.trim key)) (String.ofList (Text.trim value))).IsNormal := by
  subst hs
  obtain ⟨hhead, hlast⟩ := Text.ends_of_trim htrim
  have hkey : ∃ right, key = Text.trim key ++ right := Text.exists_of_head fun c hc =>
    hhead c (by rw [List.head?_append, Option.mem_def.1 hc]; rfl)
  have hvalue : ∃ left, value = left ++ Text.trim value := Text.exists_of_last fun c hc =>
    hlast c (by rw [List.getLast?_append, List.getLast?_cons, Option.mem_def.1 hc]; rfl)
  obtain ⟨right, hright⟩ := hkey
  obtain ⟨left, hleft⟩ := hvalue
  have hstart : ∀ mark, mark <+: Text.trim key → mark <+: key ++ '=' :: value := fun mark hmark =>
    hmark.trans ⟨right ++ '=' :: value, by rw [← List.append_assoc, ← hright]⟩
  refine ⟨isTrimmed_ofList_trim _, isTrimmed_ofList_trim _, notMem_ofList_trim hequals, ?_, ?_⟩
  · rw [String.toList_ofList]
    intro hhead
    obtain ⟨rest, hrest⟩ := List.head?_eq_some_iff.1 hhead
    obtain ⟨after, hafter⟩ := hstart [':'] (by rw [hrest]; exact ⟨rest, rfl⟩)
    exact hcolon (by rw [← hafter]; rfl)
  · rw [String.toList_ofList, String.toList_ofList]
    intro hparenthesis
    have hends : (key ++ '=' :: value).getLast? = some ')' := by
      rw [hleft, List.getLast?_append, List.getLast?_cons, List.getLast?_append, hparenthesis]
      rfl
    obtain ⟨hopen, hhidden⟩ := labelOf_eq_none_iff.1 hlabel hends
    exact ⟨fun h => hopen (hstart _ h), fun h => hhidden (hstart _ h)⟩

theorem isNormal_of_reads {statement : Statement} (htrim : Text.trim s = s) (h : Reads s statement) :
    statement.IsNormal := by
  cases h with
  | label hlabel =>
    obtain ⟨name, hidden, rfl⟩ := exists_of_labelOf hlabel
    trivial
  | openSpace => exact isTrimmed_ofList_trim _
  | closeSpace => trivial
  | closeLabel => trivial
  | assign hlabel hcolon hs hequals => exact isNormal_assign htrim hlabel hcolon hs hequals
  | importFile _ hequals => exact ⟨isTrimmed_ofList_trim _, notMem_ofList_trim hequals⟩
  | inject _ hequals => exact isNormal_injectionOf hequals
  | item hs => rw [IsNormal, ofText, String.toList_ofList, hs]

theorem IsTrimmed.ofList_trim {text : String} (h : IsTrimmed text) :
    String.ofList (Text.trim text.toList) = text := by
  rw [h, String.ofList_toList]

theorem reads_openLabel (name : String) (hidden : Bool) :
    Reads (openLabel name hidden).written.toList (openLabel name hidden) := by
  apply Reads.label
  cases hidden with
  | false => simpa [written, Text.after] using labelOf_append ('(' :: name.toList)
  | true => simpa [written, Text.after] using labelOf_append ('%' :: '(' :: name.toList)

theorem reads_assign {key value : String} (h : (assign key value).IsNormal) :
    Reads (assign key value).written.toList (assign key value) := by
  obtain ⟨hkey, hvalue, hequals, hcolon, hlabel⟩ := h
  have hchars : (assign key value).written.toList = key.toList ++ ' ' :: '=' :: ' ' :: value.toList := by
    simp [written]
  rw [hchars]
  have hsides : assign (String.ofList (Text.trim (key.toList ++ [' '])))
      (String.ofList (Text.trim (' ' :: value.toList))) = assign key value := by
    rw [Text.trim_append_blank rfl, Text.trim_blank_cons rfl, hkey.ofList_trim, hvalue.ofList_trim]
  rw [← hsides]
  refine .assign (labelOf_eq_none_iff.2 fun hlast => ?_) ?_ (by simp) (by simp [hequals])
  · have hends : value.toList.getLast? = some ')' := by
      cases hempty : value.toList.getLast? <;> simp_all [List.getLast?_cons]
    obtain ⟨hopen, hhidden⟩ := hlabel hends
    exact ⟨fun h => hopen (Text.prefix_of_prefix_append h (by decide)),
      fun h => hhidden (Text.prefix_of_prefix_append h (by decide))⟩
  · cases hempty : key.toList <;> simp_all

theorem reads_inject {target : String} {valueOnly : Bool} (h : (inject target valueOnly).IsNormal) :
    Reads (inject target valueOnly).written.toList (inject target valueOnly) := by
  obtain ⟨htarget, hequals, hlast⟩ := h
  cases valueOnly with
  | false =>
    have hinject : injectionOf (' ' :: target.toList) = inject target false := by
      rw [injectionOf, Text.trim_blank_cons rfl, htarget, Text.before_eq_none (hlast rfl)]
      simp
    rw [← hinject]
    exact .inject (by simp [hinject, written]) (by simp [hequals])
  | true =>
    have hhead := (Text.ends_of_trim htarget).1
    have htrim : Text.trim (target.toList ++ ['&']) = target.toList ++ ['&'] := by
      refine Text.trim_of_ends (fun c hc => ?_) (fun c hc => ?_)
      · cases hchars : target.toList with
        | nil =>
          rw [hchars] at hc
          cases hc
          rfl
        | cons d rest => exact hhead c (by rw [hchars] at hc ⊢; exact hc)
      · rw [List.getLast?_append] at hc
        cases hc
        rfl
    have hinject : injectionOf (' ' :: (target.toList ++ ['&'])) = inject target true := by
      rw [injectionOf, Text.trim_blank_cons rfl, htrim, Text.before_eq_some.2 rfl]
      dsimp only
      rw [htarget.ofList_trim]
    rw [← hinject]
    exact .inject (by simp [hinject, written]) (by simp [hequals])

theorem reads_written {statement : Statement} (h : statement.IsNormal) :
    Reads statement.written.toList statement := by
  cases statement with
  | openLabel name hidden => exact reads_openLabel name hidden
  | openSpace name =>
    have hwritten : (openSpace name).written.toList = ':' :: name.toList := by simp [written]
    have hreads := Reads.openSpace hwritten
    rwa [IsTrimmed.ofList_trim h] at hreads
  | closeSpace => exact .closeSpace rfl
  | closeLabel => exact .closeLabel rfl
  | assign key value => exact reads_assign h
  | importFile target =>
    have hreads : Reads (importFile target).written.toList _ := .importFile (by simp [written]) h.2
    rwa [h.1.ofList_trim] at hreads
  | inject target valueOnly => exact reads_inject h
  | item text =>
    have hreads : Reads (item text).written.toList _ :=
      .item (by rw [written, String.ofList_toList]; exact h)
    rwa [String.ofList_toList] at hreads

/-- Reading is stable under writing in plain form: a line without blanks around it says what its plain
form says. And a label is found byte by byte as it is by characters, without a cut that fails. -/
theorem ofText_written (text : String) (htrim : IsTrimmed text) :
    labelByBytes? text.toList = some (labelOf text.toList) ∧
      ofText (ofText text).written = ofText text := by
  have hnormal : (ofText text).IsNormal := isNormal_of_reads htrim (reads_ofChars text.toList)
  exact ⟨labelByBytes?_eq text.toList, (reads_written hnormal).ofChars⟩

theorem ofText_written_marks :
    IsTrimmed "-> a & &" ∧ ofText "-> a & &" = inject "a &" true ∧
      (inject "a &" true).written = "-> a &&" ∧ ofText "-> a &&" = ofText "-> a & &" := by
  have htrim : IsTrimmed "-> a & &" := by decide
  have hread : ofText "-> a & &" = inject "a &" true := by decide
  have hwritten : (inject "a &" true).written = "-> a &&" := by decide
  refine ⟨htrim, hread, hwritten, ?_⟩
  have hstable := (ofText_written "-> a & &" htrim).2
  rwa [hread, hwritten, ← hread] at hstable

end Statement

end Loon
