import Loon.Proofs.Text
import Loon.Token

namespace Loon.Token

inductive Marked (s : List Char) : Prop
  | reference (inner : List Char) (h : s = '[' :: (inner ++ [']']))
  | quotation (mark : Char) (inner : List Char) (hmark : mark = '\x22' ∨ mark = '\x27')
      (h : s = mark :: (inner ++ [mark]))
  | truth (b : Bool) (h : lower s = if b then ['t', 'r', 'u', 'e'] else ['f', 'a', 'l', 's', 'e'])

/-- What a token without blanks around it stands for, with what the rule that reads it has found. -/
inductive Reads (s : List Char) : Value → Prop
  | reference {inner} (h : s = '[' :: (inner ++ [']'])) :
      Reads s (.placeholder { expr := String.ofList (Text.trim inner) })
  | quotation {mark inner} (hmark : mark = '\x22' ∨ mark = '\x27') (h : s = mark :: (inner ++ [mark])) :
      Reads s (.string (String.ofList inner))
  | truth {b} (h : lower s = if b then ['t', 'r', 'u', 'e'] else ['f', 'a', 'l', 's', 'e']) :
      Reads s (.bool b)
  | number {x} (h : Numeral.toDouble? s = some x) : Reads s (.number x)
  | text (h : Numeral.toDouble? s = none) : Reads s (.string (String.ofList s))

variable {s : List Char}

theorem exists_of_quoted? {inner : List Char} (h : quoted? s = some inner) :
    ∃ mark, (mark = '\x22' ∨ mark = '\x27') ∧ s = mark :: (inner ++ [mark]) := by
  simp only [quoted?, Option.orElse_eq_orElse, Option.orElse_eq_or, Option.or_eq_some_iff] at h
  rcases h with h | ⟨-, h⟩
  · exact ⟨_, .inl rfl, Text.between_eq_some.1 h⟩
  · exact ⟨_, .inr rfl, Text.between_eq_some.1 h⟩

theorem lower_of_truth? {b : Bool} (h : truth? s = some b) :
    lower s = if b then ['t', 'r', 'u', 'e'] else ['f', 'a', 'l', 's', 'e'] := by
  unfold truth? at h
  dsimp only at h
  split at h
  next hword =>
    cases h
    exact hword
  · split at h
    next hword =>
      cases h
      exact hword
    · cases h

theorem reads_value (s : List Char) : Reads (Text.trim s) (value s) := by
  unfold value
  dsimp only
  split
  next h => exact .reference (Text.between_eq_some.1 h)
  · split
    next h =>
      obtain ⟨mark, hmark, hs⟩ := exists_of_quoted? h
      exact .quotation hmark hs
    · split
      next h => exact .truth (lower_of_truth? h)
      · split
        next h => exact .number h
        next h => exact .text h

theorem reads_ofToken (token : String) : Reads (Text.trim token.toList) (Value.ofToken token) :=
  reads_value token.toList

theorem Reads.of_not_marked {v : Value} (h : Reads s v) (hmarked : ¬Marked s) :
    (∃ x, Numeral.toDouble? s = some x ∧ v = .number x) ∨
      Numeral.toDouble? s = none ∧ v = .string (String.ofList s) := by
  cases h with
  | reference hs => exact absurd (.reference _ hs) hmarked
  | quotation hmark hs => exact absurd (.quotation _ _ hmark hs) hmarked
  | truth hword => exact absurd (.truth _ hword) hmarked
  | number hx => exact .inl ⟨_, hx, rfl⟩
  | text hnone => exact .inr ⟨hnone, rfl⟩

end Loon.Token
