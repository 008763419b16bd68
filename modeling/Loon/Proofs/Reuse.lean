import Loon.Proofs.Reading.Closings
import Loon.Proofs.Reading.InPlace

namespace Loon

namespace Reading

variable {α : Type}

/-- The outcome of a reading with the chain that it leaves. What it leaves on the desk stays there after
an error, too. -/
def attempt (reading : Reading α) : StateM Desk (Except Error α × List Path) := fun desk =>
  match reading desk with
  | .ok a desk => ((.ok a, desk.chain), desk)
  | .error e desk => ((.error e, desk.chain), desk)

def inTurn (readings : List (Reading α)) : StateM Desk (List (Except Error α × List Path)) :=
  readings.mapM attempt

theorem inTurn_cons (reading : Reading α) (rest : List (Reading α)) (desk : Desk) :
    (inTurn (reading :: rest)).run desk =
      let first := (attempt reading).run desk
      let others := (inTurn rest).run first.2
      (first.1 :: others.1, others.2) :=
  mapM_cons_run attempt reading rest desk

end Reading

namespace FileTree

variable {t : FileTree} {depth : Nat}

theorem attempt_reading (deeper : Reading.Importing) (h : t.entries.length < depth)
    (source : Source) (s : Session) :
    (t.reading deeper depth source).attempt.run ⟨.empty, [], s⟩ =
      (((t.readSource source .empty).1, []), ⟨.empty, [], (t.readSource source s).2⟩) := by
  rw [readSource_steady source .empty s]
  change Reading.attempt _ _ = _
  rw [Reading.attempt, reading_run deeper h]
  rcases t.readSource source s with ⟨_ | _, _⟩ <;> rfl

theorem inTurn_reading (deeper : Reading.Importing) (h : t.entries.length < depth)
    (sources : List Source) (s : Session) :
    ∃ s', (Reading.inTurn (sources.map (t.reading deeper depth))).run ⟨.empty, [], s⟩ =
        (sources.map fun source => ((t.readSource source .empty).1, []), ⟨.empty, [], s'⟩) ∧
      s'.spaces = Mapping.extend s.spaces (sources.flatMap t.closings) := by
  induction sources generalizing s with
  | nil => exact ⟨s, rfl, rfl⟩
  | cons source sources ih =>
    obtain ⟨s', hrest, hspaces⟩ := ih (t.readSource source s).2
    refine ⟨s', ?_, ?_⟩
    · rw [List.map_cons, Reading.inTurn_cons, attempt_reading deeper h]
      dsimp only
      rw [hrest]
      rfl
    · rw [hspaces, spaces_readSource, List.flatMap_cons, Mapping.extend_append]

/-- Readings in turn do not meddle with each other: each has the outcome that it has on a clear desk, and
finds and leaves no file on the chain. The registry is what all of them closed, in order. -/
theorem readings_inTurn (t : FileTree) (deeper : Reading.Importing) {depth : Nat}
    (h : t.entries.length < depth) (sources : List Source) :
    let turns := (Reading.inTurn (sources.map (t.reading deeper depth))).run .clear
    turns.1 = sources.map (fun source => ((t.reading deeper depth source).attempt.run .clear).1) ∧
      (∀ turn ∈ turns.1, turn.2 = []) ∧ turns.2.chain = [] ∧
      turns.2.session.spaces = Mapping.ofList (sources.flatMap t.closings) := by
  obtain ⟨s', hrun, hspaces⟩ := inTurn_reading deeper h sources .empty
  have hclear : ∀ source, ((t.reading deeper depth source).attempt.run .clear).1 =
      ((t.readSource source .empty).1, []) := fun source =>
    congrArg Prod.fst (attempt_reading deeper h source .empty)
  intro turns
  have hturns : turns = _ := hrun
  refine ⟨?_, ?_, ?_, ?_⟩
  · simp only [hturns, hclear]
  · simp [hturns]
  · rw [hturns]
  · rw [hturns, hspaces]
    rfl

theorem readings_inTurn_failing :
    let t : FileTree := ⟨[], [(["a.loon"], .text "(a)\n:s\nk = 1\nend:\nend\n")]⟩
    let failing : Source := ⟨"/main.loon", "@a.loon\n(b)\n:r\nend:\n-> nowhere\nend\n"⟩
    let well : Source := ⟨"/main.loon", "(c)\n:s\nend:\nend\n"⟩
    let deeper : Reading.Importing := fun _ _ => Reading.ofExcept (.ok .empty)
    let turns :=
      (Reading.inTurn ([failing, well].map (t.reading deeper 2))).run .clear
    t.entries.length < 2 ∧
      turns.1.map (fun turn => turn.1.toOption.isSome) = [false, true] ∧
      turns.2.chain = [] ∧ Mapping.keys turns.2.session.spaces = ["s", "r"] := by
  intro t failing well deeper turns
  have hdepth : t.entries.length < 2 := by decide
  obtain ⟨houtcomes, _, hchain, hspaces⟩ :=
    readings_inTurn t deeper hdepth [failing, well]
  refine ⟨hdepth, ?_, hchain, ?_⟩
  · rw [houtcomes]
    decide +kernel
  · rw [hspaces]
    decide +kernel

end FileTree

end Loon
