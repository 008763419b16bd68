import Loon.Proofs.Reading.Finite
import Loon.Proofs.Resolution.Agreement
import Loon.Proofs.Resolution.Throughout

namespace Loon

namespace Value

def Evaluated (v : Value) : Prop :=
  ∀ w, Inside w v → (∀ p, w ≠ .placeholder p) ∧ ∀ x, w = .number x → x.isFinite = true

theorem Settled.evaluated {v : Value} (hv : v.Settled) (hfinite : v.Finite) : v.Evaluated := by
  intro w hw
  refine ⟨fun p hp => ?_, fun x hx => hfinite x (hx ▸ hw)⟩
  cases hp ▸ hv.inside hw

end Value

namespace Document

variable {d : Document}

theorem evaluated_of_resolve {v w : Value} (hd : d.Finite) (hv : v.Finite)
    (hw : d.resolve v = .ok w) : w.Evaluated := by
  have hends := ends_resolve (d := d) Value.ofUnmarked_finiteNumber.toOfLeaves
    (fun _ _ hfind => Value.finite_iff_throughout.1 (hd.find? hfind))
    (Value.finite_iff_throughout.1 hv)
  exact (settled_of_resolve hw).evaluated (Value.finite_iff_throughout.2 (hends.of_eq_ok hw))

theorem evaluated_of_resolveEach {m R : Mapping Value} (hd : d.Finite)
    (hm : (Value.mapping m).Finite) (hR : d.resolveEach m = .ok R) :
    ∀ entry ∈ R, entry.2.Evaluated := by
  obtain ⟨hsome, rfl⟩ := resolveEach_eq_ok.1 hR
  rw [List.forall_mem_map]
  intro entry hentry
  obtain ⟨w, hw⟩ := hsome entry hentry
  rw [shownEntry, hw]
  exact evaluated_of_resolve hd (Value.finite_mapping.1 hm entry hentry) hw

theorem evaluated_of_resolveSpaces {m : Mapping Value} (hd : d.Finite)
    (hm : (Value.mapping m).Finite) : ∀ entry ∈ (d.resolveSpaces m).1, entry.2.Evaluated := by
  rw [Value.finite_mapping] at hm
  induction m with
  | nil => nofun
  | cons entry m ih =>
    rw [List.forall_mem_cons] at hm
    rw [resolveSpaces]
    rcases hrest : d.resolveSpaces m with ⟨spaces, records⟩
    rw [hrest] at ih
    dsimp only
    cases hv : d.resolve entry.2 with
    | ok w => exact List.forall_mem_cons.2 ⟨evaluated_of_resolve hd hm.1 hv, ih hm.2⟩
    | error e => exact ih hm.2

end Document

namespace FileTree

variable {t : FileTree} {text fileName : String}

/-- Whatever is analysed with success is evaluated, and its labels are those that were read. -/
theorem analysisOf_evaluated {a : Analysis} (h : (t.analysisOf text fileName).1 = .ok a) :
    (∀ entry ∈ a.labels, entry.2.Evaluated) ∧ (∀ entry ∈ a.spaces, entry.2.Evaluated) ∧
      Mapping.keys a.labels = Mapping.keys a.unresolved.labels := by
  rw [analysisOf] at h
  split at h
  · cases h
  next d s hread =>
    dsimp only at h
    split at h
    · cases h
    next labels hlabels =>
      cases h
      obtain ⟨s₁, hreads, rfl⟩ := reads_of_readDocument hread
      obtain ⟨hd, hs⟩ := hreads.finite (Value.finite_mapping.2 nofun)
      exact ⟨Document.evaluated_of_resolveEach hd hd.labels hlabels,
        Document.evaluated_of_resolveSpaces hd hs, Document.keys_of_resolveEach hlabels⟩

theorem analysisOf_evaluated_import :
    let t : FileTree := ⟨[], [(["base.loon"], .text "(base)\n:at\nport = 8080\nend:\nend\n")]⟩
    ∃ a, (t.analysisOf "@base.loon\n(copy)\n[base]\nport = [base:at.port]\nend\n" "main.loon").1 =
        .ok a ∧
      Mapping.keys a.labels = ["base", "copy"] ∧ Mapping.keys a.spaces = ["at"] ∧
      ((Mapping.get? a.labels "copy").bind fun v => (v.get? "port").bind Value.number?) =
        some ⟨0x40bf900000000000⟩ ∧
      (∀ entry ∈ a.labels, entry.2.Evaluated) ∧ (∀ entry ∈ a.spaces, entry.2.Evaluated) ∧
      Mapping.keys a.labels = Mapping.keys a.unresolved.labels := by
  intro t
  let result := (t.analysisOf "@base.loon\n(copy)\n[base]\nport = [base:at.port]\nend\n" "main.loon").1
  have hresult : result.toOption.map (fun a => (Mapping.keys a.labels, Mapping.keys a.spaces,
      (Mapping.get? a.labels "copy").bind fun v => (v.get? "port").bind Value.number?)) =
      some (["base", "copy"], ["at"], some ⟨0x40bf900000000000⟩) := by decide +kernel
  cases ha : result with
  | error e =>
    rw [ha] at hresult
    cases hresult
  | ok a =>
    simp only [ha, Except.toOption, Option.map_some, Option.some.injEq, Prod.mk.injEq] at hresult
    obtain ⟨hlabels, hspaces, hport⟩ := hresult
    exact ⟨a, ha, hlabels, hspaces, hport, analysisOf_evaluated ha⟩

end FileTree

end Loon
