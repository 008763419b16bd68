import Loon.Proofs.Reading.Gathered
import Mathlib.Data.List.Induction

namespace Loon

structure Block where
  name : String
  hidden : Bool
  opening : Line
  inner : List Line
  closing : Line
  opens : opening.statement = .openLabel name hidden
  inside : ∀ line ∈ inner, line.statement.isInner = true
  closes : closing.statement = .closeLabel

def Importer.void : Importer := fun target place s =>
  (.error ⟨.invalidTarget target .missing, some place⟩, s)

def Document.side (d : Document) : (hidden : Bool) → Mapping Value
  | false => d.labels
  | true => d.hidden

namespace Block

def lines (b : Block) : List Line := b.opening :: (b.inner ++ [b.closing])

variable (source : Source)

def opened (d : Document) (b : Block) : Draft :=
  ⟨d, some ⟨b.name, b.hidden, [], none, ⟨source, b.opening.span⟩⟩⟩

def body (d : Document) (b : Block) : Mapping Value :=
  Mapping.ofList ((b.opened source d).ownEntries .void source b.inner .empty)

def define (d : Document) (b : Block) : Document := d.define b.name b.hidden (b.body source d)

def visibility? (blocks : List Block) (name : String) : Option Bool :=
  (blocks.filter fun b => b.name = name).getLast?.map hidden

/-- Between the blocks before it and those after it, a block is the first of its name since the last
change of visibility. -/
structure Enters (before : List Block) (b : Block) (after : List Block) : Prop where
  changes : visibility? before b.name ≠ some b.hidden
  stays : ∀ c ∈ after, c.name = b.name → c.hidden = b.hidden

instance (before : List Block) (b : Block) (after : List Block) : Decidable (Enters before b after) :=
  decidable_of_iff (visibility? before b.name ≠ some b.hidden ∧
    ∀ c ∈ after, c.name = b.name → c.hidden = b.hidden) ⟨fun h => ⟨h.1, h.2⟩, fun h => ⟨h.1, h.2⟩⟩

def entered (hidden : Bool) : (before after : List Block) → List String
  | _, [] => []
  | before, b :: after =>
    if b.hidden = hidden ∧ Enters before b after then
      b.name :: entered hidden (before ++ [b]) after
    else entered hidden (before ++ [b]) after

end Block

namespace Draft

variable {importer importer' : Importer} {source : Source} {s s' : Session} {d d' : Draft}
variable {line : Line} {lines : List Line}

theorem step_of_isInner (h : line.statement.isInner = true) :
    (d.step importer source s line).1 = (d.step importer' source s' line).1 := by
  rw [step, step]
  cases hstatement : line.statement with
  | openLabel | closeLabel | importFile => simp [hstatement, Statement.isInner] at h
  | closeSpace =>
    dsimp only
    cases d.endSpace _ <;> rfl
  | _ => rfl

theorem ownEntries?_of_isInner (h : line.statement.isInner = true) :
    d.ownEntries? importer source s line = d.ownEntries? importer' source s' line := by
  rw [ownEntries?, ownEntries?]
  cases hstatement : line.statement with
  | openLabel | closeLabel | importFile => simp [hstatement, Statement.isInner] at h
  | _ =>
    cases d.current with
    | none => rfl
    | some label =>
      dsimp only
      cases label.space <;> rfl

theorem ownEntries_of_isInner (h : ∀ line ∈ lines, line.statement.isInner = true) :
    d.ownEntries importer source lines s = d.ownEntries importer' source lines s' := by
  induction lines generalizing d s s' with
  | nil => rfl
  | cons line lines ih =>
    rw [List.forall_mem_cons] at h
    have hstep : (d.step importer source s line).1 = (d.step importer' source s' line).1 :=
      step_of_isInner h.1
    cases hfirst : d.step importer source s line with | mk result s₁ =>
    cases hfirst' : d.step importer' source s' line with | mk result' s₁' =>
    rw [hfirst, hfirst'] at hstep
    cases hstep
    cases result with
    | error e => simp only [ownEntries, trace, hfirst, hfirst']
    | ok d₁ =>
      rw [ownEntries_cons hfirst, ownEntries_cons hfirst',
        ownEntries?_of_isInner h.1, ih h.2]

theorem document_of_isInner (h : ∀ line ∈ lines, line.statement.isInner = true)
    (hrun : d.run importer source lines s = (none, d', s')) : d'.document = d.document := by
  refine run_keeps (P := fun d₁ _ => d₁.document = d.document) ?_ rfl hrun
  intro line hline d₁ s₁ d₂ s₂ hd₁ hstep
  obtain ⟨_, _, _, rfl, _⟩ := step_inner (h line hline) hstep
  exact hd₁

theorem run_block {D : Document} (b : Block)
    (h : Draft.run importer source b.lines ⟨D, none⟩ s = (none, d', s')) :
    d' = ⟨b.define source D, none⟩ := by
  obtain ⟨d₁, s₁, hopen, hrest⟩ := run_cons_eq_none.1 h
  obtain ⟨-, -, rfl⟩ := step_openLabel b.opens hopen
  have hlines : ∀ line ∈ b.inner, line.statement ≠ .closeLabel := fun line hline hstatement => by
    have := b.inside line hline
    rw [hstatement] at this
    cases this
  obtain ⟨⟨D₂, _⟩, s₂, hinner, rfl⟩ := run_closing hlines b.closes rfl hrest
  obtain rfl : D₂ = D := document_of_isInner b.inside hinner
  rw [BodyItem.fold_nil, ownEntries_of_isInner b.inside]
  rfl

theorem run_blocks {D : Document} (blocks : List Block)
    (h : Draft.run importer source (blocks.flatMap Block.lines) ⟨D, none⟩ s = (none, d', s')) :
    d' = ⟨blocks.foldl (Block.define source) D, none⟩ := by
  induction blocks generalizing D s with
  | nil =>
    cases h
    rfl
  | cons b blocks ih =>
    rw [List.flatMap_cons] at h
    obtain ⟨d₁, s₁, hfirst, hrest⟩ := run_append_eq_none.1 h
    obtain rfl := run_block b hfirst
    exact ih hrest

theorem exists_blocks {D : Document}
    (hnone : ∀ line ∈ lines, ∀ target, line.statement ≠ .importFile target)
    (h : d.run importer source lines s = (none, ⟨D, none⟩, s')) :
    (d.current = none → ∃ blocks : List Block, lines = blocks.flatMap Block.lines) ∧
    ∀ label, d.current = some label → ∃ inner closing, ∃ blocks : List Block,
      lines = inner ++ closing :: blocks.flatMap Block.lines ∧
      (∀ line ∈ inner, line.statement.isInner = true) ∧ closing.statement = .closeLabel := by
  induction lines generalizing d s with
  | nil =>
    cases h
    exact ⟨fun _ => ⟨[], rfl⟩, fun _ hlabel => nomatch hlabel⟩
  | cons line lines ih =>
    rw [List.forall_mem_cons] at hnone
    obtain ⟨d₁, s₁, hstep, hrest⟩ := run_cons_eq_none.1 h
    obtain ⟨hclosed, hopen⟩ := ih hnone.2 hrest
    by_cases hinner : line.statement.isInner = true
    · obtain ⟨label, label', hlabel, rfl, -, -⟩ := step_inner hinner hstep
      obtain ⟨inner, closing, blocks, rfl, hlines, hclosing⟩ := hopen label' rfl
      refine ⟨fun hno => (nomatch hlabel.symm.trans hno), fun _ _ => ?_⟩
      exact ⟨line :: inner, closing, blocks, rfl, List.forall_mem_cons.2 ⟨hinner, hlines⟩, hclosing⟩
    · cases hstatement : line.statement with
      | openLabel name hidden =>
        obtain ⟨hno, -, rfl⟩ := step_openLabel hstatement hstep
        obtain ⟨inner, closing, blocks, rfl, hlines, hclosing⟩ := hopen _ rfl
        refine ⟨fun _ => ?_, fun _ hlabel => nomatch hlabel.symm.trans hno⟩
        let b : Block := ⟨name, hidden, line, inner, closing, hstatement, hlines, hclosing⟩
        exact ⟨b :: blocks, by simp [b, Block.lines]⟩
      | closeLabel =>
        obtain ⟨label, hlabel, -, rfl⟩ := step_closeLabel hstatement hstep
        obtain ⟨blocks, rfl⟩ := hclosed rfl
        refine ⟨fun hno => (nomatch hlabel.symm.trans hno), fun _ _ => ?_⟩
        exact ⟨[], line, blocks, rfl, nofun, hstatement⟩
      | importFile target => exact absurd hstatement (hnone.1 target)
      | _ => exact absurd (by rw [hstatement]; rfl) hinner

end Draft

namespace Block

variable {blocks before after : List Block} {b : Block} {name : String} {hidden : Bool}

theorem visibility?_append_one (blocks : List Block) (b : Block) (name : String) :
    visibility? (blocks ++ [b]) name = if b.name = name then some b.hidden else visibility? blocks name := by
  rw [visibility?, List.filter_append, List.filter_singleton]
  by_cases h : b.name = name <;> simp [h, visibility?]

theorem entered_append_one (before blocks : List Block) (b : Block) :
    entered hidden before (blocks ++ [b]) =
      (entered hidden before blocks).filter (fun name => b.hidden = hidden ∨ name ≠ b.name) ++
        if b.hidden = hidden ∧ visibility? (before ++ blocks) b.name ≠ some b.hidden then [b.name]
        else [] := by
  induction blocks generalizing before with
  | nil =>
    have henters : Enters before b [] ↔ visibility? before b.name ≠ some b.hidden :=
      ⟨fun h => h.changes, fun h => ⟨h, List.forall_mem_nil _⟩⟩
    simp [entered, henters]
  | cons c blocks ih =>
    have henters : Enters before c (blocks ++ [b]) ↔
        Enters before c blocks ∧ (b.name = c.name → b.hidden = c.hidden) := by
      constructor
      · intro h
        have hstays := List.forall_mem_append.1 h.stays
        exact ⟨⟨h.changes, hstays.1⟩, List.forall_mem_singleton.1 hstays.2⟩
      · rintro ⟨h, hb⟩
        exact ⟨h.changes, List.forall_mem_append.2 ⟨h.stays, List.forall_mem_singleton.2 hb⟩⟩
    rw [List.cons_append, entered, entered, ih, List.append_assoc, List.singleton_append]
    by_cases hc : c.hidden = hidden ∧ Enters before c blocks
    · obtain ⟨rfl, hc⟩ := hc
      by_cases hb : b.hidden = c.hidden
      · simp [henters, hc, hb]
      · by_cases hname : c.name = b.name
        · simp [henters, hc, hb, hname]
        · simp [henters, hc, hb, hname, Ne.symm hname]
    · rw [if_neg hc, if_neg fun h => hc ⟨h.1, (henters.1 h.2).1⟩]

variable (source : Source)

theorem side_define (d : Document) (b : Block) (hidden : Bool) :
    (b.define source d).side hidden =
      if b.hidden = hidden then
        Mapping.insert (d.side hidden) b.name (.mapping (b.body source d))
      else Mapping.erase (d.side hidden) b.name := by
  rw [define, Document.define]
  cases b.hidden <;> cases hidden <;> rfl

theorem mem_keys_foldl (blocks : List Block) (hidden : Bool) (name : String) :
    name ∈ Mapping.keys ((blocks.foldl (define source) .empty).side hidden) ↔
      visibility? blocks name = some hidden := by
  induction blocks using List.reverseRecOn with
  | nil => cases hidden <;> simp [Document.side, Document.empty, visibility?]
  | append_singleton blocks b ih =>
    rw [List.foldl_append, List.foldl_cons, List.foldl_nil, side_define, visibility?_append_one]
    by_cases hhidden : b.hidden = hidden
    · rw [if_pos hhidden, Mapping.mem_keys_iff, Mapping.get?_insert, hhidden]
      split
      · simp
      · rw [← Mapping.mem_keys_iff, ih]
    · rw [if_neg hhidden, Mapping.mem_keys_iff, Mapping.get?_erase]
      split
      · simp [hhidden]
      · rw [← Mapping.mem_keys_iff, ih]

theorem keys_foldl (blocks : List Block) (hidden : Bool) :
    Mapping.keys ((blocks.foldl (define source) .empty).side hidden) = entered hidden [] blocks := by
  induction blocks using List.reverseRecOn with
  | nil => cases hidden <;> rfl
  | append_singleton blocks b ih =>
    have hmem := mem_keys_foldl source blocks hidden b.name
    rw [List.foldl_append, List.foldl_cons, List.foldl_nil, side_define, entered_append_one, ← ih,
      List.nil_append]
    by_cases hhidden : b.hidden = hidden
    · rw [if_pos hhidden, Mapping.keys_insert]
      simp only [hmem, hhidden]
      split <;> simp_all
    · rw [if_neg hhidden]
      simp [hhidden, Mapping.keys_erase]

theorem get?_foldl (blocks : List Block) (d : Document) (hidden : Bool) (name : String)
    (h : ∀ b ∈ blocks, b.name ≠ name) :
    Mapping.get? ((blocks.foldl (define source) d).side hidden) name =
      Mapping.get? (d.side hidden) name := by
  induction blocks generalizing d with
  | nil => rfl
  | cons b blocks ih =>
    rw [List.forall_mem_cons] at h
    rw [List.foldl_cons, ih _ h.2, side_define]
    split
    · rw [Mapping.get?_insert, if_neg h.1]
    · rw [Mapping.get?_erase, if_neg h.1]

end Block

namespace Reader

variable {importer : Importer} {source : Source} {s : Session}

/-- A source that imports nothing consists of blocks, and each makes one label. The last block of
a name decides whether the label is hidden and what it holds; injections and aliases in it find what
the blocks before it defined. No other names are defined, and names stand in the order in which they
came to be visible, or hidden, for the last time. -/
theorem blocks_of_read {d : Document}
    (hnone : ∀ line ∈ source.lines, ∀ target, line.statement ≠ .importFile target)
    (h : ((ofSource source).read importer s).1 = .ok d) :
    ∃ blocks : List Block, source.lines = blocks.flatMap Block.lines ∧
      (∀ (before : List Block) (b : Block) (after : List Block), blocks = before ++ b :: after →
          (∀ c ∈ after, c.name ≠ b.name) →
        ∃ earlier s₁, Draft.run importer source (before.flatMap Block.lines) .empty s =
            (none, ⟨earlier, none⟩, s₁) ∧
          Mapping.get? (d.side b.hidden) b.name = some (.mapping (b.body source earlier)) ∧
          b.name ∉ Mapping.keys (d.side !b.hidden)) ∧
      (∀ hidden, ∀ name ∈ Mapping.keys (d.side hidden), ∃ b ∈ blocks, b.name = name) ∧
      ∀ hidden, Mapping.keys (d.side hidden) = Block.entered hidden [] blocks := by
  obtain ⟨s', hrun⟩ := read_eq_ok.1 h
  obtain ⟨blocks, hblocks⟩ := (Draft.exists_blocks hnone hrun).1 rfl
  rw [hblocks] at hrun
  cases Draft.run_blocks blocks hrun
  refine ⟨blocks, hblocks, ?_, ?_, Block.keys_foldl source blocks⟩
  · rintro before b after rfl hlast
    rw [List.flatMap_append] at hrun
    obtain ⟨d₁, s₁, hbefore, -⟩ := Draft.run_append_eq_none.1 hrun
    obtain rfl := Draft.run_blocks before hbefore
    refine ⟨_, s₁, hbefore, ?_, ?_⟩
    · rw [List.foldl_append, List.foldl_cons, Block.get?_foldl _ _ _ _ _ hlast, Block.side_define,
        if_pos rfl, Mapping.get?_insert_self]
    · rw [← Mapping.get?_eq_none_iff, List.foldl_append, List.foldl_cons,
        Block.get?_foldl _ _ _ _ _ hlast, Block.side_define, if_neg (by simp), Mapping.get?_erase,
        if_pos rfl]
  · intro hidden name hname
    rw [Block.mem_keys_foldl, Block.visibility?, Option.map_eq_some_iff] at hname
    obtain ⟨b, hb, -⟩ := hname
    obtain ⟨hb, hname⟩ := List.mem_filter.1 (List.mem_of_getLast? hb)
    exact ⟨b, hb, of_decide_eq_true hname⟩

theorem blocks_of_read_redefined :
    let source : Source := ⟨"main.loon", "(a)\nk = p\nend\n%(h)\nend\n(c)\n-> a.k\nend\n" ++
      "%(a)\nk = q\nend\n(b)\n-> a.k\nend\n(a)\n$b.k = r\nend\n(c)\n-> a&\nend\n"⟩
    (∀ line ∈ source.lines, ∀ target, line.statement ≠ .importFile target) ∧
      ∃ d blocks, ((ofSource source).read .void .empty).1 = .ok d ∧
        source.lines = List.flatMap Block.lines blocks ∧
        Block.entered false [] blocks = ["c", "b", "a"] ∧ Block.entered true [] blocks = ["h"] := by
  intro source
  have hstatements : source.lines.map Line.statement = [.openLabel "a" false, .assign "k" "p",
      .closeLabel, .openLabel "h" true, .closeLabel, .openLabel "c" false, .inject "a.k" false,
      .closeLabel, .openLabel "a" true, .assign "k" "q", .closeLabel, .openLabel "b" false,
      .inject "a.k" false, .closeLabel, .openLabel "a" false, .assign "$b.k" "r", .closeLabel,
      .openLabel "c" false, .inject "a" true, .closeLabel] := by decide +kernel
  have hnone : ∀ line ∈ source.lines, ∀ target, line.statement ≠ .importFile target := by
    intro line hline target hstatement
    have hmem := List.mem_map_of_mem (f := Line.statement) hline
    rw [hstatements, hstatement] at hmem
    simp at hmem
  have hkeys : (((ofSource source).read .void .empty).1).toOption.map
      (fun d => (Mapping.keys d.labels, Mapping.keys d.hidden)) = some (["c", "b", "a"], ["h"]) := by
    decide +kernel
  obtain ⟨d, hd, hkeys⟩ := Option.map_eq_some_iff.1 hkeys
  obtain ⟨hlabels, hhidden⟩ := Prod.mk.inj hkeys
  have hd := toOption_eq_some.1 hd
  obtain ⟨blocks, hblocks, -, -, horder⟩ := blocks_of_read hnone hd
  exact ⟨hnone, d, blocks, hd, hblocks, (horder false).symm.trans hlabels,
    (horder true).symm.trans hhidden⟩

end Reader

end Loon
