import Loon.Proofs.Address
import Loon.Proofs.Resolution.CycleGuard
import Loon.Proofs.Resolution.Settled
import Mathlib.Data.List.Induction

/-!
References are transparent: following one gives what the resolved labels show at its address. The
search for a key goes backwards over unresolved entries, and finds the very write that decides the
key when all entries are resolved and written forwards.
-/

namespace Loon

open Attempt

section Search

variable {deref : Dereference Attempt}

theorem Value.resolveEntries_append_one {entries : Mapping Value} {name : String} {v : Value}
    {ws : List Write} (h : resolveEntries deref (entries ++ [(name, v)]) = .done ws) :
    ∃ ws' w, resolveEntries deref entries = .done ws' ∧ v.resolve deref = .done w ∧
      ws = ws' ++ [⟨name, v.merges, w⟩] := by
  induction entries generalizing ws with
  | nil =>
    obtain ⟨w, hw, hws⟩ := bind_eq_done.1 h
    cases hws
    exact ⟨[], w, rfl, hw, rfl⟩
  | cons entry entries ih =>
    obtain ⟨u, hu, h⟩ := bind_eq_done.1 h
    obtain ⟨ws', hws', hws⟩ := bind_eq_done.1 h
    cases hws
    obtain ⟨vs, w, hvs, hw, rfl⟩ := ih hws'
    exact ⟨_ :: vs, w, by rw [resolveEntries, hu, done_bind, hvs]; rfl, hw, rfl⟩

def Finds (deref : Dereference Attempt) (x : Attempt (Option Value)) (shown : Option Value) :
    Prop :=
  ∃ found, x = .done found ∧ Option.Rel (fun v w => v.resolve deref = .done w) found shown

theorem firstSupply_reverse (h : deref.Settles) {entries : Mapping Value} {ws : List Write}
    (hws : Value.resolveEntries deref entries = .done ws) (key : String) :
    Finds deref (firstSupply deref key entries.reverse)
      (Mapping.get? (Write.applyAll ws) key) := by
  -- From the end, where the search begins: the last entry is the last one written.
  induction entries using List.reverseRecOn generalizing ws with
  | nil =>
    cases hws
    exact ⟨none, rfl, .none⟩
  | append_singleton entries entry ih =>
    obtain ⟨name, v⟩ := entry
    obtain ⟨ws', w, hrest, hw, rfl⟩ := Value.resolveEntries_append_one hws
    have hsettled := Value.settled_of_resolve h hw
    rw [List.reverse_append, Write.applyAll_append, Write.get?_apply hsettled]
    cases hmerges : v.merges with
    | true =>
      have hrun : firstSupply deref key ([(name, v)].reverse ++ entries.reverse) =
          (Write.supply? ⟨name, true, w⟩ key).elim (firstSupply deref key entries.reverse)
            fun found => .done (some found) := by
        rw [List.reverse_singleton, List.singleton_append, firstSupply, Value.resolveMerge,
          if_pos hmerges, hw, done_bind, hmerges]
        cases Write.supply? ⟨name, true, w⟩ key <;> rfl
      rw [hrun]
      cases hsupply : Write.supply? ⟨name, true, w⟩ key with
      | none => exact ih hrest
      | some found =>
        have hfound : found.Settled := Write.settled_of_supply? hsettled hsupply
        exact ⟨some found, rfl, .some (hfound.resolve deref)⟩
    | false =>
      have hrun : firstSupply deref key ([(name, v)].reverse ++ entries.reverse) =
          if name = key then .done (some v) else firstSupply deref key entries.reverse := by
        rw [List.reverse_singleton, List.singleton_append, firstSupply, Value.resolveMerge, hmerges,
          if_neg Bool.false_ne_true, pure_bind, Write.supply?_plain]
        by_cases hname : name = key
        · rw [if_pos hname, if_pos hname]
          rfl
        · rw [if_neg hname, if_neg hname]
      rw [hrun, Write.supply?_plain]
      by_cases hname : name = key
      · rw [if_pos hname, if_pos hname]
        exact ⟨some v, rfl, .some hw⟩
      · rw [if_neg hname, if_neg hname]
        exact ih hrest

theorem Value.search_of_resolve (h : deref.Settles) {v w : Value} (hv : ∀ p, v ≠ .placeholder p)
    (hw : v.resolve deref = .done w) (key : String) :
    Finds deref (v.search deref key) (w.get? key) := by
  cases v with
  | placeholder p => exact absurd rfl (hv p)
  | mapping entries =>
    obtain ⟨ws, hws, hw⟩ := bind_eq_done.1 hw
    cases hw
    exact firstSupply_reverse h hws key
  | list items =>
    obtain ⟨ws, hws, hw⟩ := bind_eq_done.1 hw
    cases hw
    exact ⟨none, rfl, .none⟩
  | _ =>
    cases hw
    exact ⟨none, rfl, .none⟩

theorem Value.resolveAlone_of_resolve (h : deref.Settles) {v w : Value}
    (hw : v.resolve deref = .done w) :
    ∃ s, v.resolveAlone deref = .done s ∧ s.resolve deref = .done w ∧ ∀ p, s ≠ .placeholder p := by
  cases v with
  | placeholder p =>
    have hsettled := settled_of_resolve h hw
    exact ⟨w, hw, hsettled.resolve deref, fun p hp => by subst hp; cases hsettled⟩
  | _ => exact ⟨_, rfl, hw, fun p hp => nomatch hp⟩

end Search

namespace Document

variable {d : Document} {deref : Dereference Attempt}

def shownField (v : Value) : Option String → Value
  | none => v
  | some field => (v.get? field).getD .null

def shown (p : Placeholder) (label : Value) : Option String → Option String → Except Error Value
  | none, field => .ok (shownField label field)
  | some space, field =>
    match label.get? space with
    | some scope => .ok (shownField scope field)
    | none => .error (danglingError p space)

theorem target_shown (h : deref.Settles) {v w : Value} (hv : ∀ p, v ≠ .placeholder p)
    (hw : v.resolve deref = .done w) (field : Option String) :
    target deref v field = .done (shownField w field) := by
  cases field with
  | none => exact hw
  | some field =>
    obtain ⟨found, hfound, hrel⟩ := Value.search_of_resolve h hv hw field
    rw [target, hfound, done_bind, shownField]
    generalize w.get? field = x at hrel ⊢
    cases hrel with
    | none => rfl
    | some hv => exact hv

theorem dereferenceOnce_shown (h : deref.Settles) {p : Placeholder} {a : Address}
    (hp : Address.parse p.expr = some a) {label w : Value} (hlabel : d.find? a.label = some label)
    (hmapping : ∀ p, label ≠ .placeholder p) (hw : label.resolve deref = .done w) :
    d.dereferenceOnce deref p = ended (shown p w a.space a.field) := by
  rw [dereferenceOnce, hp]
  dsimp only
  rw [hlabel]
  dsimp only
  cases a.space with
  | none => exact target_shown h hmapping hw a.field
  | some space =>
    obtain ⟨found, hfound, hrel⟩ := Value.search_of_resolve h hmapping hw space
    rw [scope, hfound, done_bind, shown]
    generalize w.get? space = x at hrel ⊢
    cases hrel with
    | none => rfl
    | some hentry =>
      obtain ⟨s, hs, hresolve, hne⟩ := Value.resolveAlone_of_resolve h hentry
      dsimp only
      rw [hs, done_bind]
      exact target_shown h hne hresolve a.field

theorem resolveEach_related {m R : Mapping Value} (h : d.resolveEach m = .ok R) :
    Mapping.Related (fun v w => d.resolve v = .ok w) m R := by
  induction m generalizing R with
  | nil =>
    cases h
    exact .nil
  | cons entry m ih =>
    obtain ⟨name, v⟩ := entry
    rw [resolveEach] at h
    cases hv : d.resolve v with
    | error e => rw [hv] at h; cases h
    | ok w =>
      cases hm : d.resolveEach m with
      | error e => rw [hv, hm] at h; cases h
      | ok R' =>
        rw [hv, hm] at h
        cases h
        exact .cons name hv (ih hm)

theorem resolve_of_resolvedLabels {R : Mapping Value} (hR : d.resolvedLabels = .ok R) {l : String}
    {v : Value} (hv : Mapping.get? d.labels l = some v) :
    ∃ w, Mapping.get? R l = some w ∧ d.resolve v = .ok w := by
  have hrel := (resolveEach_related hR).get? l
  rw [hv] at hrel
  generalize Mapping.get? R l = x at hrel ⊢
  cases hrel with
  | some hw => exact ⟨_, rfl, hw⟩

theorem dereference_shown {p : Placeholder} {a : Address} (hp : Address.parse p.expr = some a)
    {label w : Value} (hlabel : d.find? a.label = some label)
    (hne : ∀ p, label ≠ .placeholder p) (hw : d.resolve label = .ok w) :
    d.dereference p = shown p w a.space a.field := by
  have hfollow : label.resolve (d.followWithin (d.rounds + 1)) = .done w := by
    rw [follow_of_resolve fun e he => by simp [hw] at he, hw, ended]
  have hround : (Value.placeholder p).resolve (d.followWithin (d.rounds + 2)) =
      ended (shown p w a.space a.field) :=
    dereferenceOnce_shown (d.followWithin_settles _) hp hlabel hne hfollow
  exact ended_injective (resolve_of_follow hround (ended_ne_exhausted _))

/-- References show what the resolved labels show: the label, its fields, its spaces and their
fields. Only a name can be referred to, so the label needs to have one. -/
theorem dereference_shows {d : Document} {R : Mapping Value} (hR : d.resolvedLabels = .ok R)
    {l : String} {body : Mapping Value} (hl : Name.isValid l.toList = true)
    (hbody : Mapping.get? d.labels l = some (.mapping body))
    (hshadow : Mapping.get? d.hidden l = none) :
    ∃ v, Mapping.get? R l = some v ∧ ∀ p : Placeholder,
      (p.expr = l → d.dereference p = .ok v) ∧
      (∀ k, Name.isValid k.toList = true → p.expr = l ++ "." ++ k →
        d.dereference p = .ok ((v.get? k).getD .null)) ∧
      (∀ s, Name.isValid s.toList = true → p.expr = l ++ ":" ++ s →
        d.dereference p =
          match v.get? s with
          | some w => .ok w
          | none => .error (danglingError p s)) ∧
      (∀ s k, Name.isValid s.toList = true → Name.isValid k.toList = true →
        p.expr = l ++ ":" ++ s ++ "." ++ k →
        d.dereference p =
          match v.get? s with
          | some w => .ok ((w.get? k).getD .null)
          | none => .error (danglingError p s)) := by
  obtain ⟨v, hv, hresolve⟩ := resolve_of_resolvedLabels hR hbody
  have hfind : d.find? l = some (.mapping body) := by
    rw [find?, hshadow, hbody]
    rfl
  have shows : ∀ p space field, Address.Valid ⟨l, space, field⟩ →
      p.expr = Address.text ⟨l, space, field⟩ → d.dereference p = shown p v space field := by
    intro p space field ha hp
    have hne : ∀ q, Value.mapping body ≠ .placeholder q := fun _ h => nomatch h
    exact dereference_shown (hp ▸ Address.parse_text ha) hfind hne hresolve
  refine ⟨v, hv, fun p => ⟨?label, ?field, ?space, ?spaceField⟩⟩
  case label =>
    intro hp
    exact shows p none none ⟨hl, by simp, by simp⟩ (by simp [Address.text, hp])
  case field =>
    intro k hk hp
    exact shows p none (some k) ⟨hl, by simp, by simp [hk]⟩
      (by simp [Address.text, hp, String.append_assoc])
  case space =>
    intro s hs hp
    exact shows p (some s) none ⟨hl, by simp [hs], by simp⟩
      (by simp [Address.text, hp, String.append_assoc])
  case spaceField =>
    intro s k hs hk hp
    exact shows p (some s) (some k) ⟨hl, by simp [hs], by simp [hk]⟩
      (by simp [Address.text, hp, String.append_assoc])

theorem dereference_shows_merged :
    let base : Mapping Value := [("port", .string "80"), ("at", .mapping [("host", .string "h")])]
    let d : Document := ⟨[("base", .mapping base),
      ("copy", .mapping [("base", .placeholder ⟨"base", true, none⟩)])], []⟩
    d.dereference ⟨"copy:at.host", false, none⟩ = .ok (.string "h") := by
  intro base d
  have hR : d.resolvedLabels = .ok [("base", .mapping base), ("copy", .mapping base)] := rfl
  obtain ⟨v, hv, h⟩ := dereference_shows hR (l := "copy") (by decide) rfl rfl
  cases hv
  exact (h _).2.2.2 "at" "host" (by decide) (by decide) rfl

/-- A label whose name holds a blank is in the output, and no reference reaches it. -/
theorem dereference_blank_name :
    let d : Document := ⟨[("a b", .mapping [])], []⟩
    let p : Placeholder := ⟨"a b", false, none⟩
    d.resolvedLabels = .ok [("a b", .mapping [])] ∧ Mapping.get? d.hidden "a b" = none ∧
      d.dereference p = .error (danglingError p "a b") ∧
      d.dereference p ≠ .ok (.mapping []) := by
  dsimp only
  exact ⟨rfl, rfl, rfl, nofun⟩

end Document

end Loon
