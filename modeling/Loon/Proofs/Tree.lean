import Loon.Proofs.Address
import Loon.Proofs.Lines
import Loon.Token
import Mathlib.Data.List.Forall2

namespace Loon.Tree

inductive Scalar
  | text (s : String)
  | truth (b : Bool)
deriving DecidableEq, Repr

inductive Entry
  | pair (key : String) (v : Scalar)
  | mapping (name : String) (pairs : List (String × Scalar))
  | list (name : String) (items : List Scalar)
  | null (name : String)
deriving DecidableEq, Repr

structure Label where
  name : String
  entries : List Entry
deriving DecidableEq, Repr

namespace Scalar

def value : Scalar → Value
  | text s => .string s
  | truth b => .bool b

def written : Scalar → String
  | text s => "\x22" ++ s ++ "\x22"
  | truth true => "true"
  | truth false => "false"

def OnOneLine : Scalar → Prop
  | text s => '\n' ∉ s.toList
  | truth _ => True

def Alone : Scalar → Prop
  | text s => '\n' ∉ s.toList ∧ '=' ∉ s.toList
  | truth _ => True

instance : DecidablePred OnOneLine
  | text s => inferInstanceAs (Decidable ('\n' ∉ s.toList))
  | truth _ => inferInstanceAs (Decidable True)

instance : DecidablePred Alone
  | text s => inferInstanceAs (Decidable ('\n' ∉ s.toList ∧ '=' ∉ s.toList))
  | truth _ => inferInstanceAs (Decidable True)

end Scalar

def pairLine (key : String) (v : Scalar) : String := key ++ " = " ++ v.written

def spaceLines (name : String) (inner : List String) : List String :=
  (":" ++ name) :: (inner ++ ["end:"])

structure IsKey (key : String) : Prop where
  nonempty : key ≠ ""
  start : ∀ c ∈ key.toList.head?, Text.isBlank c = false ∧ c ∉ [':', '$', '<']
  stop : ∀ c ∈ key.toList.getLast?, Text.isBlank c = false
  inner : '=' ∉ key.toList ∧ '\n' ∉ key.toList

-- Only the ends of the key are looked at, not every character there is.
instance : DecidablePred IsKey := fun key =>
  let _ : Decidable (∀ c ∈ key.toList.head?, Text.isBlank c = false ∧ c ∉ [':', '$', '<']) :=
    Option.decidableForallMem _
  let _ : Decidable (∀ c ∈ key.toList.getLast?, Text.isBlank c = false) :=
    Option.decidableForallMem _
  decidable_of_iff (key ≠ "" ∧ (∀ c ∈ key.toList.head?, Text.isBlank c = false ∧ c ∉ [':', '$', '<']) ∧
      (∀ c ∈ key.toList.getLast?, Text.isBlank c = false) ∧ '=' ∉ key.toList ∧ '\n' ∉ key.toList)
    ⟨fun ⟨hkey, hstart, hstop, hinner⟩ => ⟨hkey, hstart, hstop, hinner⟩,
      fun ⟨hkey, hstart, hstop, hinner⟩ => ⟨hkey, hstart, hstop, hinner⟩⟩

namespace Entry

def key : Entry → String
  | pair key _ => key
  | mapping name _ => name
  | list name _ => name
  | null name => name

def value : Entry → Value
  | pair _ v => v.value
  | mapping _ pairs => .mapping (pairs.map fun pair => (pair.1, pair.2.value))
  | list _ items => .list (items.map Scalar.value)
  | null _ => .null

def lines : Entry → List String
  | pair key v => [pairLine key v]
  | mapping name pairs => spaceLines name (pairs.map fun pair => pairLine pair.1 pair.2)
  | list name items => spaceLines name (items.map Scalar.written)
  | null name => spaceLines name []

def Valid : Entry → Prop
  | pair key v => IsKey key ∧ v.OnOneLine
  | mapping name pairs => Name.isValid name.toList = true ∧ pairs ≠ [] ∧
      (pairs.map Prod.fst).Nodup ∧ ∀ pair ∈ pairs, IsKey pair.1 ∧ pair.2.OnOneLine
  | list name items => Name.isValid name.toList = true ∧ items ≠ [] ∧ ∀ v ∈ items, v.Alone
  | null name => Name.isValid name.toList = true

instance : DecidablePred Valid
  | pair key v => inferInstanceAs (Decidable (IsKey key ∧ v.OnOneLine))
  | mapping name pairs => inferInstanceAs (Decidable (Name.isValid name.toList = true ∧ pairs ≠ [] ∧
      (pairs.map Prod.fst).Nodup ∧ ∀ pair ∈ pairs, IsKey pair.1 ∧ pair.2.OnOneLine))
  | list name items => inferInstanceAs (Decidable (Name.isValid name.toList = true ∧ items ≠ [] ∧
      ∀ v ∈ items, v.Alone))
  | null name => inferInstanceAs (Decidable (Name.isValid name.toList = true))

def statements : Entry → List Statement
  | pair key v => [.assign key v.written]
  | mapping name pairs =>
    .openSpace name :: (pairs.map (fun pair => .assign pair.1 pair.2.written) ++ [.closeSpace])
  | list name items => .openSpace name :: (items.map (fun v => .item v.written) ++ [.closeSpace])
  | null name => [.openSpace name, .closeSpace]

end Entry

namespace Label

def value (l : Label) : Value := .mapping (l.entries.map fun e => (e.key, e.value))

def lines (l : Label) : List String :=
  ("(" ++ l.name ++ ")") :: (l.entries.flatMap Entry.lines ++ ["end"])

def statements (l : Label) : List Statement :=
  .openLabel l.name false :: (l.entries.flatMap Entry.statements ++ [.closeLabel])

structure Valid (l : Label) : Prop where
  name : Name.isValid l.name.toList = true
  keys : (l.entries.map Entry.key).Nodup
  entries : ∀ e ∈ l.entries, e.Valid

end Label

def text (labels : List Label) : String :=
  String.join ((labels.flatMap Label.lines).map (· ++ "\n"))

def values (labels : List Label) : Mapping Value := labels.map fun l => (l.name, l.value)

structure Valid (labels : List Label) : Prop where
  names : (labels.map Label.name).Nodup
  labels : ∀ l ∈ labels, l.Valid

section Lines

variable {name key : String} {v : Scalar}

theorem toList_written_text (s : String) :
    (Scalar.text s).written.toList = '\x22' :: (s.toList ++ ['\x22']) := by
  simp [Scalar.written]

theorem toList_pairLine (key : String) (v : Scalar) :
    (pairLine key v).toList = (key.toList ++ [' ']) ++ '=' :: (' ' :: v.written.toList) := by
  simp [pairLine]

theorem head_written {c : Char} (h : c ∈ v.written.toList.head?) : c = '\x22' ∨ c = 't' ∨ c = 'f' := by
  cases v with
  | text s =>
    rw [toList_written_text] at h
    exact .inl (Option.some.inj h).symm
  | truth b =>
    cases b with
    | true => exact .inr (.inl (Option.some.inj h).symm)
    | false => exact .inr (.inr (Option.some.inj h).symm)

theorem last_written {c : Char} (h : c ∈ v.written.toList.getLast?) : c = '\x22' ∨ c = 'e' := by
  cases v with
  | text s =>
    rw [toList_written_text, ← List.cons_append, List.getLast?_concat] at h
    exact .inl (Option.some.inj h).symm
  | truth b => cases b <;> exact .inr (Option.some.inj h).symm

theorem trim_written (v : Scalar) : Text.trim v.written.toList = v.written.toList := by
  refine Text.trim_of_ends (fun c hc => ?_) fun c hc => ?_
  · rcases head_written hc with rfl | rfl | rfl <;> rfl
  · rcases last_written hc with rfl | rfl <;> rfl

theorem ofToken_written (v : Scalar) : Value.ofToken v.written = v.value := by
  cases v with
  | text s =>
    have hbracket : Text.between '[' ']' ('\x22' :: (s.toList ++ ['\x22'])) = none := by
      simp [Text.between]
    have hquotes : Text.between '\x22' '\x22' ('\x22' :: (s.toList ++ ['\x22'])) = some s.toList :=
      Text.between_eq_some.2 rfl
    rw [Value.ofToken, Token.value, trim_written, toList_written_text, hbracket]
    dsimp only
    rw [Token.quoted?, hquotes]
    simp [Scalar.value]
  | truth b => cases b <;> rfl

theorem notMem_written {mark : Char} (hmark : mark ∉ ['\x22', 't', 'r', 'u', 'e', 'f', 'a', 'l', 's'])
    (hv : ∀ s, v = .text s → mark ∉ s.toList) : mark ∉ v.written.toList := by
  cases v with
  | text s =>
    have := hv s rfl
    simp_all [toList_written_text]
  | truth b => cases b <;> simp_all [Scalar.written]

theorem labelOf_eq_none {s : List Char} (h : s.getLast? ≠ some ')') : Statement.labelOf s = none := by
  rw [Statement.labelOf, Text.before_eq_none h]

theorem says_openLabel (hname : Name.isValid name.toList = true) :
    Line.Says ("(" ++ name ++ ")") (.openLabel name false) := by
  have hchars : ("(" ++ name ++ ")").toList = ('(' :: name.toList) ++ [')'] := by simp
  have hlabel : Statement.labelOf (('(' :: name.toList) ++ [')']) = some (.openLabel name false) := by
    rw [Statement.labelOf, Text.before_eq_some.2 rfl]
    simp [Text.after]
  refine Line.says_of_solid (fun c hc => ?_) ?_ ?_
  · rw [hchars, List.mem_append, List.mem_cons, List.mem_singleton] at hc
    rcases hc with (rfl | hc) | rfl
    · rfl
    · exact Address.solid_of_valid hname c hc
    · rfl
  · rw [hchars]
    rfl
  · rw [Statement.ofText, hchars, Statement.ofChars, hlabel]

theorem says_openSpace (hname : Name.isValid name.toList = true) :
    Line.Says (":" ++ name) (.openSpace name) := by
  have hchars : (":" ++ name).toList = ':' :: name.toList := by simp
  have hlast : (':' :: name.toList).getLast? ≠ some ')' := fun h => by
    rcases List.mem_cons.1 (List.mem_of_getLast? h) with heq | hmem
    · cases heq
    · exact Address.notMem_of_valid hname (by decide) hmem
  refine Line.says_of_solid (fun c hc => ?_) ?_ ?_
  · rw [hchars, List.mem_cons] at hc
    rcases hc with rfl | hc
    · rfl
    · exact Address.solid_of_valid hname c hc
  · rw [hchars]
    rfl
  · rw [Statement.ofText, hchars, Statement.ofChars, labelOf_eq_none hlast]
    simp [Text.after, Text.trim_of_solid (Address.solid_of_valid hname)]

theorem says_closeSpace : Line.Says "end:" .closeSpace := ⟨by decide, by decide, by decide, by decide⟩

theorem says_closeLabel : Line.Says "end" .closeLabel := ⟨by decide, by decide, by decide, by decide⟩

theorem written_ne_nil (v : Scalar) : v.written.toList ≠ [] := by
  cases v with
  | text s => simp [toList_written_text]
  | truth b => cases b <;> decide

theorem head_pairLine (hkey : IsKey key) : (pairLine key v).toList.head? = key.toList.head? := by
  have hne : key.toList ≠ [] := by simpa using hkey.nonempty
  rw [toList_pairLine, List.append_assoc, List.head?_append_of_ne_nil _ hne]

theorem last_pairLine : (pairLine key v).toList.getLast? = v.written.toList.getLast? := by
  rw [toList_pairLine, List.getLast?_append_of_ne_nil _ (by simp),
    List.getLast?_cons_of_ne_nil (by simp), List.getLast?_cons_of_ne_nil (written_ne_nil v)]

theorem cut_pairLine (hkey : IsKey key) :
    Text.cut '=' (pairLine key v).toList = some (key.toList ++ [' '], ' ' :: v.written.toList) := by
  rw [toList_pairLine]
  exact Text.cut_append (by simpa using hkey.inner.1) _

theorem trim_key (hkey : IsKey key) : Text.trim (key.toList ++ [' ']) = key.toList := by
  rw [Text.trim_append_blank rfl, Text.trim_of_ends (fun c hc => (hkey.start c hc).1) hkey.stop]

theorem trim_value (v : Scalar) : Text.trim (' ' :: v.written.toList) = v.written.toList := by
  rw [Text.trim, Text.trimStart_blank rfl, ← Text.trim, trim_written]

theorem says_pairLine (hkey : IsKey key) (hv : v.OnOneLine) :
    Line.Says (pairLine key v) (.assign key v.written) := by
  have hstart : ∀ mark ∈ [':', '$', '<'], (pairLine key v).toList.head? ≠ some mark :=
    fun mark hmark h => (hkey.start mark (head_pairLine hkey ▸ h)).2 hmark
  have hstop : (pairLine key v).toList.getLast? ≠ some ')' := fun h => by
    rcases last_written (last_pairLine ▸ h) with heq | heq <;> cases heq
  have hequals : '=' ∈ (pairLine key v).toList := by simp [toList_pairLine]
  -- The line cannot be taken for anything tried before an assignment: what it starts with is the
  -- key's, and what it ends with is the value's.
  constructor
  · have hwritten : '\n' ∉ v.written.toList := notMem_written (by decide) fun s hs => by
      subst hs
      exact hv
    simp [toList_pairLine, hkey.inner.2, hwritten]
  · refine Text.trim_of_ends (fun c hc => (hkey.start c (head_pairLine hkey ▸ hc)).1) fun c hc => ?_
    rcases last_written (last_pairLine ▸ hc) with rfl | rfl <;> rfl
  · exact Line.isSignificant_iff.2 ⟨List.ne_nil_of_mem hequals, hstart '<' (by decide)⟩
  · rw [Statement.ofText, Statement.ofChars, labelOf_eq_none hstop,
      Text.after_eq_none (hstart ':' (by decide))]
    dsimp only
    rw [if_neg (fun h => by simp [h] at hequals), if_neg (fun h => by simp [h] at hequals),
      cut_pairLine hkey]
    dsimp only
    rw [trim_key hkey, trim_value, String.ofList_toList, String.ofList_toList]

theorem says_written (hv : v.Alone) : Line.Says v.written (.item v.written) := by
  have hstart : ∀ mark ∈ [':', '@', '-', '<', 'e'], v.written.toList.head? ≠ some mark := by
    rintro mark hmark h
    rcases head_written h with rfl | rfl | rfl <;> revert hmark <;> decide
  have hstop : v.written.toList.getLast? ≠ some ')' := fun h => by
    rcases last_written h with heq | heq <;> cases heq
  have hinner : '\n' ∉ v.written.toList ∧ '=' ∉ v.written.toList := by
    constructor <;> refine notMem_written (by decide) fun s hs => ?_ <;> subst hs
    · exact hv.1
    · exact hv.2
  have hend : ∀ rest, v.written.toList ≠ 'e' :: rest := fun rest h =>
    hstart 'e' (by decide) (by rw [h]; rfl)
  refine ⟨hinner.1, trim_written v,
    Line.isSignificant_iff.2 ⟨written_ne_nil v, hstart '<' (by decide)⟩, ?_⟩
  rw [Statement.ofText, Statement.ofChars, labelOf_eq_none hstop,
    Text.after_eq_none (hstart ':' (by decide))]
  dsimp only
  rw [if_neg (hend _), if_neg (hend _), Text.cut_of_notMem hinner.2,
    Text.after_eq_none (hstart '@' (by decide)), Text.after_eq_none (hstart '-' (by decide))]
  dsimp only
  rw [String.ofList_toList]

theorem says_spaceLines {inner : List String} {statements : List Statement}
    (hname : Name.isValid name.toList = true) (h : List.Forall₂ Line.Says inner statements) :
    List.Forall₂ Line.Says (spaceLines name inner)
      (.openSpace name :: (statements ++ [.closeSpace])) :=
  .cons (says_openSpace hname) (List.rel_append h (.cons says_closeSpace .nil))

theorem says_flatMap {α : Type} {lines : α → List String} {statements : α → List Statement}
    {xs : List α} (h : ∀ x ∈ xs, List.Forall₂ Line.Says (lines x) (statements x)) :
    List.Forall₂ Line.Says (xs.flatMap lines) (xs.flatMap statements) := by
  induction xs with
  | nil => exact .nil
  | cons x xs ih =>
    rw [List.forall_mem_cons] at h
    exact List.rel_append h.1 (ih h.2)

end Lines

theorem says_entry {e : Entry} (h : e.Valid) : List.Forall₂ Line.Says e.lines e.statements := by
  cases e with
  | pair key v => exact .cons (says_pairLine h.1 h.2) .nil
  | mapping name pairs =>
    obtain ⟨hname, _, _, hpairs⟩ := h
    refine says_spaceLines hname ?_
    rw [List.forall₂_map_left_iff, List.forall₂_map_right_iff, List.forall₂_same]
    exact fun pair hpair => says_pairLine (hpairs pair hpair).1 (hpairs pair hpair).2
  | list name items =>
    obtain ⟨hname, _, hitems⟩ := h
    refine says_spaceLines hname ?_
    rw [List.forall₂_map_left_iff, List.forall₂_map_right_iff, List.forall₂_same]
    exact fun v hv => says_written (hitems v hv)
  | null name => exact says_spaceLines h .nil

theorem says_label {l : Label} (h : l.Valid) : List.Forall₂ Line.Says l.lines l.statements :=
  .cons (says_openLabel h.name)
    (List.rel_append (says_flatMap fun e he => says_entry (h.entries e he))
      (.cons says_closeLabel .nil))

theorem statements_text {labels : List Label} (h : Valid labels) (name : String) :
    (Source.lines ⟨name, text labels⟩).map Line.statement = labels.flatMap Label.statements :=
  Source.statements_join (says_flatMap fun l hl => says_label (h.labels l hl))

end Loon.Tree
