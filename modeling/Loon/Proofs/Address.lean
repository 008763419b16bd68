import Loon.Address
import Loon.Proofs.Text

namespace Loon.Address

def text (a : Address) : String :=
  a.label ++ (a.space.map (":" ++ ·)).getD "" ++ (a.field.map ("." ++ ·)).getD ""

structure Valid (a : Address) : Prop where
  label : Name.isValid a.label.toList = true
  space : ∀ s ∈ a.space, Name.isValid s.toList = true
  field : ∀ s ∈ a.field, Name.isValid s.toList = true

theorem solid_of_valid {s : List Char} (h : Name.isValid s = true) :
    ∀ c ∈ s, Text.isBlank c = false := fun c hc => by
  have := Name.allowed_of_mem h hc
  rw [Name.allowed, Bool.and_eq_true, Bool.not_eq_true'] at this
  exact this.1

theorem notMem_of_valid {s : List Char} (h : Name.isValid s = true) {mark : Char}
    (hmark : mark ∈ Name.reserved) : mark ∉ s := fun hc => by
  have := Name.allowed_of_mem h hc
  rw [Name.allowed, Bool.and_eq_true, Bool.not_eq_true', List.contains_eq_mem] at this
  simp [hmark] at this

theorem ne_nil_of_valid {s : List Char} (h : Name.isValid s = true) : s ≠ [] := fun hs => by
  rw [hs] at h
  cases h

@[ext] structure Part where
  left : List Char
  name : String
  right : List Char
  left_blank : ∀ c ∈ left, Text.isBlank c = true
  right_blank : ∀ c ∈ right, Text.isBlank c = true
  valid : Name.isValid name.toList = true

namespace Part

def text (p : Part) : List Char := p.left ++ (p.name.toList ++ p.right)

def bare {name : String} (h : Name.isValid name.toList = true) : Part :=
  ⟨[], name, [], fun _ hc => absurd hc List.not_mem_nil, fun _ hc => absurd hc List.not_mem_nil, h⟩

@[simp] theorem text_bare {name : String} (h : Name.isValid name.toList = true) :
    (bare h).text = name.toList := by simp [bare, text]

theorem trim_text (p : Part) : Text.trim p.text = p.name.toList := by
  rw [text, Text.trim_blanks _ p.left_blank p.right_blank, Text.trim_of_solid (solid_of_valid p.valid)]

theorem text_injective : Function.Injective text := by
  intro p q h
  have hname : p.name = q.name := by
    apply String.toList_inj.1
    rw [← trim_text, ← trim_text, h]
  have hleft : ∀ r : Part, r.text.takeWhile Text.isBlank = r.left := fun r => by
    obtain ⟨c, rest, hchars⟩ := List.exists_cons_of_ne_nil (ne_nil_of_valid r.valid)
    have hsolid := solid_of_valid r.valid c (by simp [hchars])
    rw [text, hchars, List.takeWhile_append_of_pos r.left_blank]
    simp [hsolid]
  have hblanks : p.left = q.left := by rw [← hleft p, h, hleft q]
  refine Part.ext hblanks hname ?_
  rw [text, text, hblanks, hname] at h
  exact List.append_cancel_left (List.append_cancel_left h)

theorem notMem_text (p : Part) {mark : Char} (hmark : mark ∈ Name.reserved)
    (hsolid : Text.isBlank mark = false) : mark ∉ p.text := by
  have hblank : Text.isBlank mark ≠ true := Bool.eq_false_iff.1 hsolid
  rw [text, List.mem_append, List.mem_append, not_or, not_or]
  exact ⟨fun h => hblank (p.left_blank _ h), notMem_of_valid p.valid hmark,
    fun h => hblank (p.right_blank _ h)⟩

end Part

theorem part_eq_some {s : List Char} {name : String} :
    part s = some name ↔ ∃ p : Part, p.text = s ∧ p.name = name := by
  rw [part, Option.ite_none_right_eq_some]
  constructor
  · rintro ⟨hvalid, hname⟩
    obtain ⟨left, right, hs, _, hleft, hright⟩ := Text.exists_trim s
    refine ⟨⟨left, String.ofList (Text.trim s), right, hleft, hright, ?_⟩, ?_, Option.some.inj hname⟩
    · rwa [String.toList_ofList]
    · change left ++ ((String.ofList (Text.trim s)).toList ++ right) = s
      rw [String.toList_ofList, ← hs]
  · rintro ⟨p, rfl, rfl⟩
    rw [p.trim_text, String.ofList_toList]
    exact ⟨p.valid, rfl⟩

theorem optionalPart_eq_some {s? : Option (List Char)} {name? : Option String} :
    optionalPart s? = some name? ↔ ∃ p? : Option Part, p?.map Part.text = s? ∧ p?.map Part.name = name? := by
  cases s? with
  | none => simp [optionalPart, eq_comm]
  | some s =>
    rw [optionalPart, Option.map_eq_some_iff]
    simp only [part_eq_some]
    constructor
    · rintro ⟨_, ⟨p, rfl, rfl⟩, rfl⟩
      exact ⟨some p, rfl, rfl⟩
    · rintro ⟨p?, hs, rfl⟩
      obtain ⟨p, rfl, rfl⟩ := Option.map_eq_some_iff.1 hs
      exact ⟨_, ⟨p, rfl, rfl⟩, rfl⟩

theorem split_of_notMem {mark : Char} {s : List Char} (h : mark ∉ s) : split mark s = (s, none) := by
  rw [split, Text.cut_of_notMem h]

theorem split_append {mark : Char} {s : List Char} (h : mark ∉ s) (t : List Char) :
    split mark (s ++ mark :: t) = (s, some t) := by
  rw [split, Text.cut_append h]

def marked (mark : Char) (t? : Option (List Char)) : List Char := t?.elim [] (mark :: ·)

theorem split_marked {mark : Char} {s : List Char} (h : mark ∉ s) (t? : Option (List Char)) :
    split mark (s ++ marked mark t?) = (s, t?) := by
  cases t? with
  | none => rw [marked, Option.elim, List.append_nil, split_of_notMem h]
  | some t => exact split_append h t

theorem eq_of_split {mark : Char} {s a : List Char} {t? : Option (List Char)}
    (h : split mark s = (a, t?)) : s = a ++ marked mark t? := by
  rw [split] at h
  split at h
  next hcut =>
    cases h
    exact (Text.cut_eq_some.1 hcut).1
  · cases h
    rw [marked, Option.elim, List.append_nil]

@[ext] structure Reading where
  label : Part
  space : Option Part
  field : Option Part

namespace Reading

def scope (r : Reading) : List Char := r.label.text ++ marked ':' (r.space.map Part.text)

def text (r : Reading) : List Char := r.scope ++ marked '.' (r.field.map Part.text)

def address (r : Reading) : Address := ⟨r.label.name, r.space.map Part.name, r.field.map Part.name⟩

theorem split_scope (r : Reading) : split ':' r.scope = (r.label.text, r.space.map Part.text) :=
  split_marked (r.label.notMem_text (by decide) rfl) _

theorem split_text (r : Reading) : split '.' r.text = (r.scope, r.field.map Part.text) := by
  apply split_marked
  have hlabel : '.' ∉ r.label.text := r.label.notMem_text (by decide) rfl
  rw [scope]
  cases r.space with
  | none => simpa [marked] using hlabel
  | some p => simpa [marked, hlabel] using p.notMem_text (by decide) rfl

theorem text_injective : Function.Injective text := by
  intro r r' h
  have htext := r.split_text
  rw [h, split_text, Prod.mk.injEq] at htext
  have hscope := r.split_scope
  rw [← htext.1, split_scope, Prod.mk.injEq] at hscope
  have hmap := Option.map_injective Part.text_injective
  exact Reading.ext (Part.text_injective hscope.1.symm) (hmap hscope.2.symm) (hmap htext.2.symm)

end Reading

def ofParts (s : List Char) : Option Address :=
  let (scope, field) := split '.' s
  let (label, space) := split ':' scope
  match part label, optionalPart space, optionalPart field with
  | some label, some space, some field => some ⟨label, space, field⟩
  | _, _, _ => none

theorem part_blank_cons {c : Char} (h : Text.isBlank c = true) (s : List Char) :
    part (c :: s) = part s := by
  rw [part, Text.trim_blank_cons h, part]

theorem part_append_blank {c : Char} (h : Text.isBlank c = true) (s : List Char) :
    part (s ++ [c]) = part s := by
  rw [part, Text.trim_append_blank h, part]

theorem split_cons {c mark : Char} (h : c ≠ mark) (s : List Char) :
    split mark (c :: s) = (c :: (split mark s).1, (split mark s).2) := by
  rw [split, Text.cut, if_neg h, split]
  cases Text.cut mark s <;> rfl

theorem split_append_singleton {c mark : Char} (h : c ≠ mark) (s : List Char) :
    split mark (s ++ [c]) =
      match split mark s with
      | (a, none) => (a ++ [c], none)
      | (a, some t) => (a, some (t ++ [c])) := by
  induction s with
  | nil => exact split_of_notMem (by simpa using h.symm)
  | cons d s ih =>
    by_cases hd : d = mark
    · simp [split, Text.cut, hd]
    · rw [List.cons_append, split_cons hd, split_cons hd, ih]
      rcases split mark s with ⟨a, _ | t⟩ <;> rfl

theorem ofParts_blank_cons {c : Char} (h : Text.isBlank c = true) (s : List Char) :
    ofParts (c :: s) = ofParts s := by
  have hmark : ∀ mark, Text.isBlank mark = false → c ≠ mark := fun mark hmark heq => by
    rw [heq, hmark] at h
    cases h
  rw [ofParts, split_cons (hmark '.' rfl), ofParts]
  rcases split '.' s with ⟨scope, field⟩
  dsimp only
  rw [split_cons (hmark ':' rfl)]
  rcases split ':' scope with ⟨label, space⟩
  dsimp only
  rw [part_blank_cons h]

theorem ofParts_append_blank {c : Char} (h : Text.isBlank c = true) (s : List Char) :
    ofParts (s ++ [c]) = ofParts s := by
  have hmark : ∀ mark, Text.isBlank mark = false → c ≠ mark := fun mark hmark heq => by
    rw [heq, hmark] at h
    cases h
  have hoptional : ∀ t, optionalPart (some (t ++ [c])) = optionalPart (some t) := fun t => by
    rw [optionalPart, part_append_blank h, optionalPart]
  rw [ofParts, split_append_singleton (hmark '.' rfl), ofParts]
  rcases split '.' s with ⟨scope, _ | field⟩
  · dsimp only
    rw [split_append_singleton (hmark ':' rfl)]
    rcases split ':' scope with ⟨label, _ | space⟩
    · dsimp only
      rw [part_append_blank h]
    · dsimp only
      rw [hoptional]
  · dsimp only
    rw [hoptional]

/-- The blanks at the ends belong to the first part and to the last, which lose them anyway. -/
theorem ofChars_eq_ofParts (s : List Char) : ofChars s = ofParts s :=
  Text.apply_trim (fun _ => ofParts_blank_cons) (fun _ => ofParts_append_blank) s

theorem ofParts_eq_some {s : List Char} {a : Address} :
    ofParts s = some a ↔ ∃ r : Reading, r.text = s ∧ r.address = a := by
  constructor
  · intro h
    rw [ofParts] at h
    cases htext : split '.' s with
    | mk scope field =>
    cases hscope : split ':' scope with
    | mk label space =>
    rw [htext] at h
    dsimp only at h
    rw [hscope] at h
    dsimp only at h
    split at h
    next hlabel hspace hfield =>
      cases h
      obtain ⟨l, rfl, rfl⟩ := part_eq_some.1 hlabel
      obtain ⟨s?, rfl, rfl⟩ := optionalPart_eq_some.1 hspace
      obtain ⟨f?, rfl, rfl⟩ := optionalPart_eq_some.1 hfield
      exact ⟨⟨l, s?, f?⟩, by rw [Reading.text, Reading.scope, ← eq_of_split hscope, ← eq_of_split htext],
        rfl⟩
    · cases h
  · rintro ⟨r, rfl, rfl⟩
    rw [ofParts, r.split_text]
    dsimp only
    rw [r.split_scope]
    dsimp only
    rw [part_eq_some.2 ⟨r.label, rfl, rfl⟩, optionalPart_eq_some.2 ⟨r.space, rfl, rfl⟩,
      optionalPart_eq_some.2 ⟨r.field, rfl, rfl⟩]
    rfl

theorem parse_eq_some_iff {s : String} {a : Address} :
    parse s = some a ↔ ∃ r : Reading, r.text = s.toList ∧ r.address = a := by
  rw [parse, ofChars_eq_ofParts, ofParts_eq_some]

theorem valid_of_parse {s : String} {a : Address} (h : parse s = some a) : a.Valid := by
  obtain ⟨r, _, rfl⟩ := parse_eq_some_iff.1 h
  refine ⟨r.label.valid, fun name hname => ?_, fun name hname => ?_⟩
  · obtain ⟨p, _, rfl⟩ := Option.map_eq_some_iff.1 hname
    exact p.valid
  · obtain ⟨p, _, rfl⟩ := Option.map_eq_some_iff.1 hname
    exact p.valid

theorem parse_text {a : Address} (h : a.Valid) : parse a.text = some a := by
  obtain ⟨label, space, field⟩ := a
  obtain ⟨hlabel, hspace, hfield⟩ := h
  refine parse_eq_some_iff.2 ⟨⟨.bare hlabel, space.pmap (fun _ => Part.bare) hspace,
    field.pmap (fun _ => Part.bare) hfield⟩, ?_, ?_⟩
  · cases space <;> cases field <;> simp [Reading.text, Reading.scope, marked, text]
  · cases space <;> cases field <;> rfl

/-- A text is read as an address exactly if it is written as a reference with the parts of that address,
and no text is written so in two ways. An address of valid names is read back from its text. -/
theorem parse_exact :
    (∀ s a, parse s = some a ↔ ∃ r : Reading, r.text = s.toList ∧ r.address = a) ∧
      (∀ r r' : Reading, r.text = r'.text → r = r') ∧
      ∀ a : Address, a.Valid → parse a.text = some a :=
  ⟨fun _ _ => parse_eq_some_iff, fun _ _ h => Reading.text_injective h, fun _ => parse_text⟩

theorem parse_exact_blanks :
    (∃ r : Reading, r.text = "\tapp :\u2003db. host".toList ∧
        r.address = ⟨"app", some "db", some "host"⟩) ∧
      (∀ r : Reading, r.text ≠ "app.host:db".toList) ∧
      parse (text ⟨"app", some "db", some "host"⟩) = some ⟨"app", some "db", some "host"⟩ := by
  have hnone : parse "app.host:db" = none := by decide
  refine ⟨(parse_exact.1 _ _).1 (by decide), fun r hr => ?_, ?_⟩
  · have hsome := (parse_exact.1 _ _).2 ⟨r, hr, rfl⟩
    rw [hnone] at hsome
    cases hsome
  · exact parse_exact.2.2 _ ⟨by decide, by simp; decide, by simp; decide⟩

end Loon.Address
