import Loon.Proofs.LineKinds
import Loon.Proofs.Lines
import Loon.Proofs.Reading.Steps

namespace Loon

def Token.IsSound (token : String) : Prop :=
  ∀ expr, token = "[" ++ expr ++ "]" → (Address.parse expr).isSome

def Statement.IsSound : Statement → Prop
  | openLabel name _ => Name.isValid name.toList = true
  | openSpace name => Name.isValid name.toList = true
  | assign key token => key ≠ "" ∧ Token.IsSound token
  | item token => Token.IsSound token
  | _ => True

theorem Address.ofChars_trim (s : List Char) : ofChars (Text.trim s) = ofChars s := by
  rw [ofChars, Text.trim_trim, ofChars]

theorem Value.ofToken_eq_placeholder {token : String} {p : Placeholder} :
    Value.ofToken token = .placeholder p ↔
      ∃ expr, Text.trim token.toList = '[' :: (expr ++ [']']) ∧
        p = { expr := String.ofList (Text.trim expr) } := by
  rw [Value.ofToken, Token.value]
  split
  next expr h =>
    rw [Text.between_eq_some] at h
    constructor
    · rintro ⟨⟩
      exact ⟨expr, h, rfl⟩
    · rintro ⟨other, hother, rfl⟩
      cases (List.append_left_injective _ (List.cons.inj (h.symm.trans hother)).2)
      rfl
  next h =>
    constructor
    · intro heq
      split at heq
      · cases heq
      · split at heq
        · cases heq
        · split at heq <;> cases heq
    · rintro ⟨expr, htoken, rfl⟩
      cases h.symm.trans (Text.between_eq_some.2 htoken)

theorem Token.isSound_iff {token : String} (h : Text.trim token.toList = token.toList) :
    IsSound token ↔ ∀ p, Value.ofToken token = .placeholder p → (Address.parse p.expr).isSome := by
  have hform : ∀ expr : String,
      token = "[" ++ expr ++ "]" ↔ Text.trim token.toList = '[' :: (expr.toList ++ [']']) := by
    intro expr
    rw [h, ← String.toList_inj]
    simp
  constructor
  · rintro hsound p hp
    obtain ⟨expr, htoken, rfl⟩ := Value.ofToken_eq_placeholder.1 hp
    have := hsound (String.ofList expr) ((hform _).2 (by simpa using htoken))
    simpa [Address.parse, Address.ofChars_trim] using this
  · intro hparse expr hexpr
    have := hparse _ (Value.ofToken_eq_placeholder.2 ⟨expr.toList, (hform expr).1 hexpr, rfl⟩)
    simpa [Address.parse, Address.ofChars_trim] using this

namespace Space

theorem isList_push (content : Space) (v : Value) : (content.push v).isList = true := by
  cases content <;> rfl

end Space

namespace Draft

def stage (d : Draft) : Stage :=
  match d.current with
  | none => .outside
  | some label =>
    match label.space with
    | none => .inLabel
    | some space => .inSpace space.content.isList

variable {d : Draft} {site : Site} {after : Stage}

theorem exists_readValue (site : Site) {token : String} :
    (∃ v, readValue site token = .ok v) ↔
      ∀ p, Value.ofToken token = .placeholder p → (Address.parse p.expr).isSome := by
  rw [readValue]
  split
  next p hp =>
    simp only [hp, Value.placeholder.injEq, forall_eq', requireAddress]
    cases Address.parse p.expr <;> simp [Bind.bind, Except.bind]
  next hp => exact ⟨fun _ p h => absurd h (hp p), fun _ => ⟨_, rfl⟩⟩

theorem exists_put_pair (site : Site) (key : String) (v : Value) :
    (∃ d', d.put site (.pair key v) = .ok d' ∧ d'.stage = after) ↔
      d.stage.next .assign = some after := by
  obtain ⟨document, _ | ⟨name, hidden, items, _ | ⟨own, content, opened⟩, place⟩⟩ := d
  · simp [put_eq_ok, stage, Stage.next]
  · simp [put_eq_ok, OpenLabel.put, stage, Stage.next]
  · cases content <;>
      simp [put_eq_ok, OpenLabel.put, Insertion.put, Space.insert, Space.isList, stage, Stage.next]

theorem exists_put_item (site : Site) (v : Value) :
    (∃ d', d.put site (.item v) = .ok d' ∧ d'.stage = after) ↔
      d.stage.next .item = some after := by
  obtain ⟨document, _ | ⟨name, hidden, items, _ | ⟨own, content, opened⟩, place⟩⟩ := d
  · simp [put_eq_ok, stage, Stage.next]
  · simp [put_eq_ok, OpenLabel.put, stage, Stage.next]
  · simp [put_eq_ok, OpenLabel.put, Insertion.put, Space.isList_push, stage, Stage.next]

theorem exists_setKey {key token : String} (hplain : Text.after ['$'] key.toList = none)
    (htoken : Text.trim token.toList = token.toList) :
    (∃ d', d.setKey site key token = .ok d' ∧ d'.stage = after) ↔
      (key ≠ "" ∧ Token.IsSound token) ∧ d.stage.next .assign = some after := by
  have hkey : d.readKey site key = .ok key := by rw [readKey, hplain]
  rw [Token.isSound_iff htoken, ← exists_readValue site]
  simp only [setKey_eq_ok, hkey, Except.ok.injEq, exists_eq_left']
  constructor
  · rintro ⟨d', ⟨label, _, hne, v, hv, hput⟩, hstage⟩
    exact ⟨⟨hne, v, hv⟩, (exists_put_pair ..).1 ⟨d', hput, hstage⟩⟩
  · rintro ⟨⟨hne, v, hv⟩, hnext⟩
    obtain ⟨d', hput, hstage⟩ := (exists_put_pair site key v).2 hnext
    obtain ⟨label, _, hlabel, _⟩ := put_eq_ok.1 hput
    exact ⟨d', ⟨label, hlabel, hne, v, hv, hput⟩, hstage⟩

theorem exists_addItem {token : String} (htoken : Text.trim token.toList = token.toList) :
    (∃ d', d.addItem site token = .ok d' ∧ d'.stage = after) ↔
      Token.IsSound token ∧ d.stage.next .item = some after := by
  rw [Token.isSound_iff htoken, ← exists_readValue site]
  simp only [addItem_eq_ok]
  constructor
  · rintro ⟨d', ⟨v, hv, hput⟩, hstage⟩
    exact ⟨⟨v, hv⟩, (exists_put_item ..).1 ⟨d', hput, hstage⟩⟩
  · rintro ⟨⟨v, hv⟩, hnext⟩
    obtain ⟨d', hput, hstage⟩ := (exists_put_item site v).2 hnext
    exact ⟨d', ⟨v, hv, hput⟩, hstage⟩

variable (importer : Importer) (source : Source) (s : Session)

theorem exists_step {line : Line} (hplain : line.statement.isPlain = true)
    (htrimmed : line.statement.Trimmed) :
    (∃ d' s', d.step importer source s line = (.ok d', s') ∧ d'.stage = after) ↔
      line.statement.IsSound ∧ d.stage.next line.statement.kind = some after := by
  cases hstatement : line.statement with
  | openLabel name hidden =>
    obtain ⟨document, _ | ⟨own, secret, items, _ | space, place⟩⟩ := d <;>
      simp [step, hstatement, beginLabel_eq_ok, stage, Stage.next, Statement.IsSound, Statement.kind]
  | openSpace name =>
    obtain ⟨document, _ | ⟨own, secret, items, _ | space, place⟩⟩ := d <;>
      simp [step, hstatement, beginSpace_eq_ok, stage, Stage.next, Space.isList, Statement.IsSound,
        Statement.kind]
  | closeSpace =>
    obtain ⟨document, _ | ⟨own, secret, items, _ | space, place⟩⟩ := d <;>
      simp [step, hstatement, endSpace, stage, Stage.next, Statement.IsSound, Statement.kind]
  | closeLabel =>
    obtain ⟨document, _ | ⟨own, secret, items, _ | space, place⟩⟩ := d <;>
      simp [step, hstatement, endLabel, enclosing, Bind.bind, Except.bind, stage, Stage.next,
        Statement.IsSound, Statement.kind]
  | assign key token =>
    rw [hstatement] at hplain htrimmed
    simpa [step, hstatement, Statement.IsSound, Statement.kind] using
      exists_setKey (Option.isNone_iff_eq_none.1 hplain) htrimmed
  | importFile target => simp [hstatement, Statement.isPlain] at hplain
  | inject target valueOnly => simp [hstatement, Statement.isPlain] at hplain
  | item token =>
    rw [hstatement] at htrimmed
    simpa [step, hstatement, Statement.IsSound, Statement.kind] using exists_addItem htrimmed

theorem exists_run {lines : List Line}
    (hlines : ∀ line ∈ lines, line.statement.isPlain = true ∧ line.statement.Trimmed) :
    (∃ d' s', d.run importer source lines s = (none, d', s') ∧ d'.stage = after) ↔
      (∀ line ∈ lines, line.statement.IsSound) ∧
        d.stage.run (lines.map (Statement.kind ∘ Line.statement)) = some after := by
  induction lines generalizing d s with
  | nil => simp [run, Stage.run]
  | cons line lines ih =>
    rw [List.forall_mem_cons] at hlines
    rw [List.forall_mem_cons, List.map_cons, Stage.run, Option.bind_eq_some_iff]
    constructor
    · rintro ⟨d', s', hrun, hafter⟩
      obtain ⟨d₁, s₁, hstep, hrest⟩ := run_cons_eq_none.1 hrun
      obtain ⟨hsound, hnext⟩ :=
        (exists_step importer source s hlines.1.1 hlines.1.2).1 ⟨d₁, s₁, hstep, rfl⟩
      obtain ⟨hsounds, hstages⟩ := (ih s₁ hlines.2).1 ⟨d', s', hrest, hafter⟩
      exact ⟨⟨hsound, hsounds⟩, d₁.stage, hnext, hstages⟩
    · rintro ⟨⟨hsound, hsounds⟩, middle, hnext, hstages⟩
      obtain ⟨d₁, s₁, hstep, rfl⟩ :=
        (exists_step importer source s hlines.1.1 hlines.1.2).2 ⟨hsound, hnext⟩
      obtain ⟨d', s', hrest, hafter⟩ := (ih s₁ hlines.2).2 ⟨hsounds, hstages⟩
      exact ⟨d', s', run_cons_eq_none.2 ⟨d₁, s₁, hstep, hrest⟩, hafter⟩

theorem stage_eq_outside : d.stage = .outside ↔ d.current = none := by
  obtain ⟨document, _ | ⟨own, secret, items, _ | space, place⟩⟩ := d <;> simp [stage]

end Draft

/-- The form of a source, line by line: the order of its lines, and what each has to be like. -/
structure WellFormed (statements : List Statement) : Prop where
  order : statements.map Statement.kind ∈ LineKind.document
  labels : ∀ name hidden, .openLabel name hidden ∈ statements → Name.isValid name.toList = true
  spaces : ∀ name, .openSpace name ∈ statements → Name.isValid name.toList = true
  keys : ∀ token, .assign "" token ∉ statements
  references : ∀ expr, (∃ key, .assign key ("[" ++ expr ++ "]") ∈ statements) ∨
    .item ("[" ++ expr ++ "]") ∈ statements → (Address.parse expr).isSome
  unmixed : LineKind.Unmixed (statements.map Statement.kind)

theorem wellFormed_iff {statements : List Statement} :
    WellFormed statements ↔ (∀ statement ∈ statements, statement.IsSound) ∧
      statements.map Statement.kind ∈ LineKind.document ∧
      LineKind.Unmixed (statements.map Statement.kind) := by
  constructor
  · refine fun h => ⟨fun statement hmem => ?_, h.order, h.unmixed⟩
    cases statement with
    | openLabel name hidden => exact h.labels name hidden hmem
    | openSpace name => exact h.spaces name hmem
    | assign key token =>
      refine ⟨?_, ?_⟩
      · rintro rfl
        exact h.keys token hmem
      · rintro expr rfl
        exact h.references expr (.inl ⟨key, hmem⟩)
    | item token =>
      rintro expr rfl
      exact h.references expr (.inr hmem)
    | _ => trivial
  · rintro ⟨hsound, horder, hunmixed⟩
    refine ⟨horder, fun name hidden hmem => hsound _ hmem, fun name hmem => hsound _ hmem,
      fun token hmem => (hsound _ hmem).1 rfl, fun expr hmem => ?_, hunmixed⟩
    rcases hmem with ⟨key, hmem⟩ | hmem
    · exact (hsound _ hmem).2 expr rfl
    · exact hsound _ hmem expr rfl

/-- Without imports, injections and aliases, just the well-formed sources are read. -/
theorem Reader.read_iff_wellFormed {importer : Importer} {source : Source} {s : Session}
    (hplain : ∀ line ∈ source.lines, line.statement.isPlain = true) :
    (∃ d, ((ofSource source).read importer s).1 = .ok d) ↔
      WellFormed (source.lines.map Line.statement) := by
  have hlines : ∀ line ∈ source.lines, line.statement.isPlain = true ∧ line.statement.Trimmed :=
    fun line hmem => ⟨hplain line hmem, Source.trimmed_of_mem_lines hmem⟩
  have hstages : (source.lines.map (Statement.kind ∘ Line.statement) ∈ LineKind.document ∧
      LineKind.Unmixed (source.lines.map (Statement.kind ∘ Line.statement))) ↔
      Draft.empty.stage.run (source.lines.map (Statement.kind ∘ Line.statement)) = some .outside :=
    (Stage.run_eq_outside_iff .outside _).symm
  rw [wellFormed_iff, List.forall_mem_map, List.map_map, hstages]
  refine Iff.trans ?_ (Draft.exists_run importer source s hlines)
  simp only [read_eq_ok]
  constructor
  · rintro ⟨d, s', hrun⟩
    exact ⟨⟨d, none⟩, s', hrun, rfl⟩
  · rintro ⟨⟨d, current⟩, s', hrun, hstage⟩
    cases Draft.stage_eq_outside.1 hstage
    exact ⟨d, s', hrun⟩

theorem Reader.read_iff_wellFormed_list :
    let source : Source := ⟨"main.loon", "%(a)\n:s\nk = v\n[b]\nend:\nend\n(b)\nx = [a:s]\nend\n"⟩
    (∀ line ∈ source.lines, line.statement.isPlain = true) ∧
      (∃ d, ((ofSource source).read (FileTree.importer ⟨[], []⟩ []) .empty).1 = .ok d) ∧
      WellFormed (source.lines.map Line.statement) := by
  intro source
  have hplain : ∀ line ∈ source.lines, line.statement.isPlain = true := by decide +kernel
  let result := ((ofSource source).read (FileTree.importer ⟨[], []⟩ []) .empty).1
  have hresult : result.toOption.isSome := by decide +kernel
  have hok : ∃ d, result = .ok d := by
    cases hd : result with
    | ok d => exact ⟨d, rfl⟩
    | error e =>
      rw [hd] at hresult
      cases hresult
  exact ⟨hplain, hok, (read_iff_wellFormed hplain).1 hok⟩

end Loon
