import Loon.Proofs.Number.Exact
import Loon.Proofs.Throughout
import Loon.Proofs.Tokens

namespace Loon

theorem Numeral.isFinite_of_toDouble? {s : List Char} {x : Double} (h : toDouble? s = some x) :
    x.isFinite = true := by
  unfold toDouble? at h
  split at h
  · cases h
  next negative d _ =>
    dsimp only at h
    split at h
    next hfinite =>
      cases h
      rw [Double.isFinite_withSign, hfinite]
    · cases h

namespace Value

def Finite (v : Value) : Prop := ∀ x, Inside (.number x) v → x.isFinite = true

def FiniteNumber (v : Value) : Prop := ∀ x, v = .number x → x.isFinite = true

theorem ofUnmarked_finiteNumber : OfUnmarked FiniteNumber := ⟨⟨nofun, nofun, nofun⟩, nofun⟩

theorem finite_iff_throughout {v : Value} : v.Finite ↔ v.Throughout FiniteNumber := by
  constructor
  · rintro h _ hw x rfl
    exact h x hw
  · exact fun h x hx => h _ hx x rfl

@[simp] theorem finite_string (text : String) : Finite (.string text) := nofun

@[simp] theorem finite_bool (b : Bool) : Finite (.bool b) := nofun

@[simp] theorem finite_placeholder (p : Placeholder) : Finite (.placeholder p) := nofun

@[simp] theorem finite_number {x : Double} : Finite (.number x) ↔ x.isFinite = true := by
  constructor
  · exact fun h => h x .here
  · rintro h _ ⟨⟩
    exact h

@[simp] theorem finite_mapping {entries : Mapping Value} :
    Finite (.mapping entries) ↔ ∀ entry ∈ entries, entry.2.Finite := by
  simp only [finite_iff_throughout, ofUnmarked_finiteNumber.throughout_mapping]

theorem finite_ofToken (token : String) : (ofToken token).Finite := by
  have hreads := Token.reads_ofToken token
  generalize ofToken token = v at hreads ⊢
  cases hreads with
  | reference => exact finite_placeholder _
  | quotation | text => exact finite_string _
  | truth => exact finite_bool _
  | number h => exact finite_number.2 (Numeral.isFinite_of_toDouble? h)

end Value

end Loon
