import Loon.Proofs.Mapping
import Loon.Proofs.Reading.Steps
import Loon.Proofs.Tokens

namespace Loon

inductive BodyLine
  | sets (key : String) (v : Value)
  | refers (p : Placeholder)

namespace BodyLine

def key : BodyLine → String
  | sets key _ => key
  | refers p => Insertion.keyOf p

def value : BodyLine → Value
  | sets _ v => v
  | refers p => .placeholder { p with merge := true }

def isReference : BodyLine → Bool
  | sets .. => false
  | refers _ => true

def entry (line : BodyLine) : String × Value := (line.key, line.value)

def ofItem : Value → BodyLine
  | .placeholder p => refers p
  | v => sets v.text .null

theorem apply_item {v : Value} (h : ∀ entries, v ≠ .mapping entries) (m : Mapping Value) :
    (Insertion.item v).bodyItem.apply m = Mapping.insert m (ofItem v).key (ofItem v).value := by
  cases v with
  | mapping entries => exact absurd rfl (h entries)
  | _ => rfl

end BodyLine

inductive PlainBody : List Line → Prop
  | nil : PlainBody []
  | assign {line lines key token} (h : line.statement = .assign key token) (hrest : PlainBody lines) :
      PlainBody (line :: lines)
  | item {line lines token} (h : line.statement = .item token) (hrest : PlainBody lines) :
      PlainBody (line :: lines)
  | space {opening inner closing lines name} (hopening : opening.statement = .openSpace name)
      (hinner : ∀ line ∈ inner, line.statement ≠ .closeSpace)
      (hclosing : closing.statement = .closeSpace) (hrest : PlainBody lines) :
      PlainBody (opening :: (inner ++ closing :: lines))

theorem merges_ofToken (token : String) : (Value.ofToken token).merges = false := by
  have hreads := Token.reads_ofToken token
  generalize Value.ofToken token = v at hreads ⊢
  cases hreads <;> rfl

theorem ofToken_ne_mapping (token : String) (entries : List (String × Value)) :
    Value.ofToken token ≠ .mapping entries := by
  have hreads := Token.reads_ofToken token
  intro heq
  rw [heq] at hreads
  cases hreads

theorem Space.merges_value (content : Space) : content.value.merges = false := by
  cases content <;> rfl

namespace Draft

theorem readValue_eq_ok {site : Site} {token : String} {v : Value}
    (h : readValue site token = .ok v) : v.merges = false ∧ ∀ entries, v ≠ .mapping entries := by
  unfold readValue at h
  split at h
  next p hp =>
    obtain ⟨a, _, hv⟩ := bind_eq_ok.1 h
    cases hv
    have hmerges := merges_ofToken token
    rw [hp] at hmerges
    exact ⟨hmerges, nofun⟩
  · cases h
    exact ⟨merges_ofToken token, ofToken_ne_mapping token⟩

section Lines

variable (source : Source)

def bodyLine? (d : Draft) (_ : Session) (line : Line) : Option BodyLine :=
  let site : Site := ⟨⟨source, line.span⟩, line.text⟩
  match d.current with
  | none => none
  | some label =>
    match label.space, line.statement with
    | none, .assign key token =>
      match d.readKey site key, readValue site token with
      | .ok key, .ok v => some (.sets key v)
      | _, _ => none
    | none, .item token =>
      match readValue site token with
      | .ok v => some (.ofItem v)
      | .error _ => none
    | some space, .closeSpace => some (.sets space.name space.content.value)
    | _, _ => none

def bodyLines (importer : Importer) : List Line → Draft → Session → List BodyLine :=
  trace importer source (bodyLine? source)

variable {source} {importer : Importer} {d d' : Draft} {s s' : Session} {line : Line}
variable {label : OpenLabel}

theorem merges_bodyLines (lines : List Line) (d : Draft) (s : Session) :
    ∀ line ∈ d.bodyLines source importer lines s, line.value.merges = line.isReference := by
  refine forall_mem_trace ?_ lines d s
  intro d s line x hx
  unfold bodyLine? at hx
  dsimp only at hx
  split at hx
  · cases hx
  · split at hx
    · split at hx
      next hv =>
        cases hx
        exact (readValue_eq_ok hv).1
      · cases hx
    · split at hx
      next v _ =>
        cases hx
        cases v <;> rfl
      · cases hx
    · cases hx
      exact Space.merges_value _
    · cases hx

def Appends (label : OpenLabel) (x : BodyLine) (d : Draft) : Prop :=
  ∃ item : BodyItem, (∀ m, item.apply m = Mapping.insert m x.key x.value) ∧
    d.current = some { label with items := label.items ++ [item] }

theorem current_of_put {site : Site} {insertion : Insertion} (hlabel : d.current = some label)
    (hspace : label.space = none) (h : d.put site insertion = .ok d') :
    d'.current = some { label with items := label.items ++ [insertion.bodyItem] } := by
  obtain ⟨l, l', hl, hput, rfl⟩ := put_eq_ok.1 h
  cases hlabel.symm.trans hl
  rcases OpenLabel.put_eq_ok.1 hput with ⟨_, rfl⟩ | ⟨_, _, hsome, _⟩
  · rfl
  · cases hspace.symm.trans hsome

theorem step_assign {key token : String} (hline : line.statement = .assign key token)
    (hlabel : d.current = some label) (hspace : label.space = none)
    (h : d.step importer source s line = (.ok d', s')) :
    ∃ x, d.bodyLine? source s line = some x ∧ Appends label x d' := by
  simp only [step, hline] at h
  obtain ⟨_, _, _, k, hkey, v, hv, hput⟩ := setKey_eq_ok.1 (Prod.ext_iff.1 h).1
  refine ⟨.sets k v, ?_, .entry k v, fun m => rfl, current_of_put hlabel hspace hput⟩
  simp [bodyLine?, hline, hlabel, hspace, hkey, hv]

theorem step_item {token : String} (hline : line.statement = .item token)
    (hlabel : d.current = some label) (hspace : label.space = none)
    (h : d.step importer source s line = (.ok d', s')) :
    ∃ x, d.bodyLine? source s line = some x ∧ Appends label x d' := by
  simp only [step, hline] at h
  obtain ⟨v, hv, hput⟩ := addItem_eq_ok.1 (Prod.ext_iff.1 h).1
  refine ⟨.ofItem v, ?_, _, BodyLine.apply_item (readValue_eq_ok hv).2,
    current_of_put hlabel hspace hput⟩
  simp [bodyLine?, hline, hlabel, hspace, hv]

def InSpace (label : OpenLabel) (d : Draft) : Prop :=
  ∃ space, d.current = some { label with space := some space }

theorem step_openSpace {name : String} (hline : line.statement = .openSpace name)
    (hlabel : d.current = some label) (h : d.step importer source s line = (.ok d', s')) :
    d.bodyLine? source s line = none ∧ InSpace label d' := by
  simp only [step, hline] at h
  obtain ⟨l, hl, hspace, _, rfl⟩ := beginSpace_eq_ok.1 (Prod.ext_iff.1 h).1
  cases hlabel.symm.trans hl
  exact ⟨by simp [bodyLine?, hline, hlabel, hspace], _, rfl⟩

theorem step_closeSpace (hline : line.statement = .closeSpace) (hspace : label.space = none)
    (hlabel : InSpace label d) (h : d.step importer source s line = (.ok d', s')) :
    ∃ x, d.bodyLine? source s line = some x ∧ Appends label x d' := by
  obtain ⟨space, hlabel⟩ := hlabel
  simp only [step, hline] at h
  split at h
  next hend =>
    cases h
    obtain ⟨l, _, hl, hsome, rfl, _⟩ := endSpace_eq_ok.1 hend
    cases hlabel.symm.trans hl
    cases hsome
    refine ⟨.sets space.name space.content.value, ?_, .entry space.name space.content.value,
      fun m => rfl, ?_⟩
    · simp [bodyLine?, hline, hlabel]
    · rw [← hspace]
  · cases h

theorem inSpace_of_put {site : Site} {insertion : Insertion} {space : OpenSpace}
    (hlabel : d.current = some { label with space := some space })
    (h : d.put site insertion = .ok d') : InSpace label d' := by
  obtain ⟨l, l', hl, hput, rfl⟩ := put_eq_ok.1 h
  cases hlabel.symm.trans hl
  rcases OpenLabel.put_eq_ok.1 hput with ⟨hnone, _⟩ | ⟨_, _, _, _, rfl⟩
  · cases hnone
  · exact ⟨_, rfl⟩

theorem step_inSpace (hline : line.statement ≠ .closeSpace) (hlabel : InSpace label d)
    (h : d.step importer source s line = (.ok d', s')) :
    d.bodyLine? source s line = none ∧ InSpace label d' := by
  obtain ⟨space, hlabel⟩ := hlabel
  cases step_eq_ok.1 h with
  | openLabel _ hnone => cases hlabel.symm.trans hnone
  | openSpace _ hl hnone =>
    cases hlabel.symm.trans hl
    cases hnone
  | closeSpace hstatement => exact absurd hstatement hline
  | closeLabel _ hl hnone =>
    cases hlabel.symm.trans hl
    cases hnone
  | imports hstatement =>
    refine ⟨by simp [bodyLine?, hstatement, hlabel], ?_⟩
    rw [takeIn, hlabel]
    exact ⟨_, rfl⟩
  | writes hwrites hput =>
    refine ⟨?_, inSpace_of_put hlabel hput⟩
    rw [bodyLine?, hlabel]
    generalize line.statement = statement at hwrites
    cases hwrites <;> rfl

theorem run_inSpace {lines : List Line} (hlines : ∀ line ∈ lines, line.statement ≠ .closeSpace)
    (hlabel : InSpace label d) (h : d.run importer source lines s = (none, d', s')) :
    d.bodyLines source importer lines s = [] ∧ InSpace label d' := by
  induction lines generalizing d s with
  | nil =>
    cases h
    exact ⟨rfl, hlabel⟩
  | cons line lines ih =>
    rw [List.forall_mem_cons] at hlines
    obtain ⟨d₁, s₁, hstep, hrest⟩ := run_cons_eq_none.1 h
    obtain ⟨hnone, hinside⟩ := step_inSpace hlines.1 hlabel hstep
    obtain ⟨hnil, hinside⟩ := ih hlines.2 hinside hrest
    refine ⟨?_, hinside⟩
    rw [bodyLines, trace_cons hstep, hnone, ← bodyLines, hnil]
    rfl

def Gathers (label : OpenLabel) (xs : List BodyLine) (d : Draft) : Prop :=
  ∃ items : List BodyItem, d.current = some { label with items := label.items ++ items } ∧
    ∀ m, items.foldl BodyItem.apply m = Mapping.extend m (xs.map BodyLine.entry)

theorem Gathers.cons {x : BodyLine} {xs : List BodyLine} (hspace : label.space = none)
    (hx : Appends label x d)
    (hxs : ∀ label, d.current = some label → label.space = none → Gathers label xs d') :
    Gathers label (x :: xs) d' := by
  obtain ⟨item, hitem, hcurrent⟩ := hx
  obtain ⟨items, hitems, hfold⟩ := hxs _ hcurrent hspace
  refine ⟨item :: items, by rw [hitems, List.append_assoc]; rfl, fun m => ?_⟩
  rw [List.foldl_cons, hfold, hitem]
  rfl

/-- The body of a label gathers what its lines write, in their order. -/
theorem run_plainBody {lines : List Line} (hlines : PlainBody lines)
    (hlabel : d.current = some label) (hspace : label.space = none)
    (h : d.run importer source lines s = (none, d', s')) :
    Gathers label (d.bodyLines source importer lines s) d' := by
  induction hlines generalizing d s label with
  | nil =>
    cases h
    exact ⟨[], by rw [hlabel, List.append_nil], fun m => rfl⟩
  | assign hline _ ih =>
    obtain ⟨d₁, s₁, hstep, hrest⟩ := run_cons_eq_none.1 h
    obtain ⟨x, hx, happends⟩ := step_assign hline hlabel hspace hstep
    rw [bodyLines, trace_cons hstep, hx]
    exact Gathers.cons hspace happends fun _ hlabel hspace => ih hlabel hspace hrest
  | item hline _ ih =>
    obtain ⟨d₁, s₁, hstep, hrest⟩ := run_cons_eq_none.1 h
    obtain ⟨x, hx, happends⟩ := step_item hline hlabel hspace hstep
    rw [bodyLines, trace_cons hstep, hx]
    exact Gathers.cons hspace happends fun _ hlabel hspace => ih hlabel hspace hrest
  | space hopening hinner hclosing _ ih =>
    obtain ⟨d₁, s₁, hopen, hrest⟩ := run_cons_eq_none.1 h
    obtain ⟨d₂, s₂, hinside, hrest⟩ := run_append_eq_none.1 hrest
    obtain ⟨d₃, s₃, hclose, hrest⟩ := run_cons_eq_none.1 hrest
    -- A space writes nothing before it is closed, and then its whole content.
    obtain ⟨hnone, hlabel⟩ := step_openSpace hopening hlabel hopen
    obtain ⟨hnil, hlabel⟩ := run_inSpace hinner hlabel hinside
    obtain ⟨x, hx, happends⟩ := step_closeSpace hclosing hspace hlabel hclose
    rw [bodyLines, trace_cons hopen, hnone, trace_append hinside, ← bodyLines, hnil, bodyLines,
      trace_cons hclose, hx]
    exact Gathers.cons hspace happends fun _ hlabel hspace => ih hlabel hspace hrest

end Lines

end Draft

end Loon
