import Loon.Text

namespace Loon.Name

def reserved : List Char := ['(', ')', '[', ']', ':', '.', '=', '@', '$', '%', '&', '<']

def allowed (c : Char) : Bool := !Text.isBlank c && !reserved.contains c

def isValid (name : List Char) : Bool := !name.isEmpty && name.all allowed

theorem allowed_of_mem {name : List Char} (h : isValid name = true) {c : Char} (hc : c ∈ name) :
    allowed c = true := by
  simp only [isValid, Bool.and_eq_true, List.all_eq_true] at h
  exact h.2 c hc

end Loon.Name
