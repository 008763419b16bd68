import Loon.Proofs.Finite
import Loon.Proofs.Reading.Throughout

namespace Loon

open Value (FiniteNumber)

structure Document.Finite (d : Document) : Prop where
  labels : (Value.mapping d.labels).Finite
  hidden : (Value.mapping d.hidden).Finite

def Session.Finite (s : Session) : Prop := (Value.mapping s.spaces).Finite

theorem Document.Finite.find? {d : Document} {v : Value} {name : String} (h : d.Finite)
    (hfind : d.find? name = some v) : v.Finite :=
  (Document.mem_of_find? hfind).elim (Value.finite_mapping.1 h.labels _)
    (Value.finite_mapping.1 h.hidden _)

theorem Document.Sound.finite {d : Document} (h : d.Sound FiniteNumber) : d.Finite where
  labels := Value.finite_mapping.2 fun entry hentry =>
    Value.finite_iff_throughout.2 (h.labels entry hentry).value
  hidden := Value.finite_mapping.2 fun entry hentry =>
    Value.finite_iff_throughout.2 (h.hidden entry hentry).value

theorem Draft.finite_of_readValue {site : Site} {token : String} {v : Value}
    (h : readValue site token = .ok v) : v.Finite := by
  rw [readValue] at h
  split at h
  · obtain ⟨_, _, h⟩ := bind_eq_ok.1 h
    cases h
    exact Value.finite_placeholder _
  · cases h
    exact Value.finite_ofToken token

theorem Source.tokens_finite (source : Source) : source.Tokens FiniteNumber :=
  fun _ _ _ _ _ hv => Value.finite_iff_throughout.1 (Draft.finite_of_readValue hv)

namespace FileTree

variable {t : FileTree} {chain : List Path} {source : Source} {s s' : Session} {d : Document}

theorem Reads.finite (h : t.Reads chain source s d s') (hs : s.Finite) : d.Finite ∧ s'.Finite := by
  obtain ⟨hd, hs'⟩ := h.sound Value.ofUnmarked_finiteNumber fun source' _ => source'.tokens_finite
  refine ⟨hd.finite, Value.finite_mapping.2 fun entry hentry => ?_⟩
  rcases hs' entry hentry with hold | hspace
  · exact Value.finite_mapping.1 hs entry hold
  · exact Value.finite_iff_throughout.2 hspace.value

end FileTree

end Loon
