import Loon.Proofs.Mapping
import Loon.Proofs.Resolution.Attempt

namespace Loon

namespace Value

inductive Settled : Value → Prop
  | string (text) : Settled (.string text)
  | number (x) : Settled (.number x)
  | bool (b) : Settled (.bool b)
  | null : Settled .null
  | mapping {entries} : Mapping.Distinct entries → (∀ entry ∈ entries, Settled entry.2) →
      Settled (.mapping entries)
  | list {items} : (∀ v ∈ items, Settled v) → Settled (.list items)

theorem Settled.insert {m : Mapping Value} {v : Value} (hm : (Value.mapping m).Settled) (key : String)
    (hv : v.Settled) : (Value.mapping (Mapping.insert m key v)).Settled := by
  cases hm with
  | mapping hdistinct hentries =>
    refine .mapping (hdistinct.insert key v) fun entry h => ?_
    rcases Mapping.mem_insert h with h | rfl
    · exact hentries entry h
    · exact hv

theorem Settled.extend {m new : Mapping Value} (hm : (Value.mapping m).Settled)
    (hnew : ∀ entry ∈ new, entry.2.Settled) : (Value.mapping (Mapping.extend m new)).Settled := by
  induction new generalizing m with
  | nil => exact hm
  | cons entry new ih =>
    exact ih (hm.insert entry.1 (hnew entry (List.mem_cons_self ..)))
      fun e he => hnew e (List.mem_cons_of_mem _ he)

theorem Settled.merges {v : Value} (h : v.Settled) : v.merges = false := by
  cases h <;> rfl

end Value

namespace Write

def plain (entry : String × Value) : Write := ⟨entry.1, false, entry.2⟩

theorem applyAll_map_plain (entries : Mapping Value) :
    applyAll (entries.map plain) = Mapping.ofList entries := by
  rw [applyAll, List.foldl_map]
  rfl

theorem settled_apply {m : Mapping Value} {w : Write} (hm : (Value.mapping m).Settled)
    (hw : w.value.Settled) : (Value.mapping (apply m w)).Settled := by
  obtain ⟨key, merges, value⟩ := w
  cases merges with
  | false => cases hw <;> exact hm.insert key (by constructor <;> assumption)
  | true =>
    cases hw with
    | mapping _ hentries => exact hm.extend hentries
    | _ => exact hm.insert key (by constructor <;> assumption)

theorem settled_applyAll {ws : List Write} (h : ∀ w ∈ ws, w.value.Settled) :
    (Value.mapping (applyAll ws)).Settled := by
  suffices ∀ m : Mapping Value, (Value.mapping m).Settled →
      (Value.mapping (ws.foldl apply m)).Settled from
    this [] (.mapping Mapping.distinct_nil nofun)
  induction ws with
  | nil => exact fun _ hm => hm
  | cons w ws ih =>
    exact fun m hm => ih (fun w hw => h w (List.mem_cons_of_mem _ hw)) _
      (settled_apply hm (h w (List.mem_cons_self ..)))

theorem get?_apply {w : Write} (hw : w.value.Settled) (m : Mapping Value) (key : String) :
    Mapping.get? (apply m w) key = (w.supply? key <|> Mapping.get? m key) := by
  obtain ⟨name, merges, value⟩ := w
  have own : Mapping.get? (Mapping.insert m name value) key =
      ((if name = key then some value else none) <|> Mapping.get? m key) := by
    rw [Mapping.get?_insert]
    split <;> rfl
  cases merges with
  | false => cases value <;> exact own
  | true =>
    cases hw with
    | mapping hdistinct _ => exact Mapping.get?_extend hdistinct m key
    | _ => exact own

theorem supply?_plain (name key : String) (v : Value) :
    supply? ⟨name, false, v⟩ key = if name = key then some v else none := by
  cases v <;> rfl

theorem settled_of_supply? {w : Write} (hw : w.value.Settled) {key : String} {v : Value}
    (h : w.supply? key = some v) : v.Settled := by
  obtain ⟨name, merges, value⟩ := w
  have own : (if name = key then some value else none) = some v → v.Settled := by
    rw [Option.ite_none_right_eq_some, Option.some.injEq]
    rintro ⟨_, rfl⟩
    exact hw
  cases merges with
  | false => exact own (supply?_plain name key value ▸ h)
  | true =>
    cases hw with
    | mapping _ hentries => exact hentries _ (Mapping.mem_of_get? h)
    | _ => exact own h

end Write

namespace Value.Settled

variable {m : Type → Type} [Monad m] [LawfulMonad m] (deref : Dereference m)

theorem resolveEntries {entries : Mapping Value}
    (hmerges : ∀ entry ∈ entries, entry.2.merges = false)
    (h : ∀ entry ∈ entries, entry.2.resolve deref = pure entry.2) :
    Value.resolveEntries deref entries = pure (entries.map Write.plain) := by
  induction entries with
  | nil => rfl
  | cons entry entries ih =>
    obtain ⟨key, v⟩ := entry
    rw [Value.resolveEntries, h _ (List.mem_cons_self ..), pure_bind,
      ih (fun e he => hmerges e (List.mem_cons_of_mem _ he))
        (fun e he => h e (List.mem_cons_of_mem _ he)),
      pure_bind, hmerges _ (List.mem_cons_self ..)]
    rfl

theorem resolveItems {items : List Value} (h : ∀ v ∈ items, v.resolve deref = pure v) :
    Value.resolveItems deref items = pure items := by
  induction items with
  | nil => rfl
  | cons v items ih =>
    rw [Value.resolveItems, h v (List.mem_cons_self ..), pure_bind,
      ih fun w hw => h w (List.mem_cons_of_mem _ hw), pure_bind]

theorem resolve {v : Value} (h : v.Settled) : v.resolve deref = pure v := by
  induction h with
  | @mapping entries hdistinct hentries ih =>
    rw [Value.resolve, resolveEntries deref (fun e he => (hentries e he).merges) ih, pure_bind,
      Write.applyAll_map_plain, Mapping.ofList_of_distinct hdistinct]
  | list _ ih => rw [Value.resolve, resolveItems deref ih, pure_bind]
  | _ => rfl

end Value.Settled

def Dereference.Settles (deref : Dereference Attempt) : Prop :=
  ∀ p w, deref p = .done w → w.Settled

namespace Value

open Attempt

variable {deref : Dereference Attempt} (h : deref.Settles)

mutual

theorem settled_of_resolve (h : deref.Settles) :
    ∀ {v w : Value}, v.resolve deref = .done w → w.Settled
  | .placeholder p, w, hw => h p w hw
  | .mapping entries, w, hw => by
    obtain ⟨ws, hws, hw⟩ := bind_eq_done.1 hw
    cases hw
    exact Write.settled_applyAll (settled_of_resolveEntries h hws)
  | .list items, w, hw => by
    obtain ⟨ws, hws, hw⟩ := bind_eq_done.1 hw
    cases hw
    exact .list (settled_of_resolveItems h hws)
  | .string text, _, rfl => .string text
  | .number x, _, rfl => .number x
  | .bool b, _, rfl => .bool b
  | .null, _, rfl => .null

theorem settled_of_resolveEntries (h : deref.Settles) :
    ∀ {entries : List (String × Value)} {ws : List Write},
      resolveEntries deref entries = .done ws → ∀ w ∈ ws, w.value.Settled
  | [], _, rfl => nofun
  | (key, v) :: rest, ws, hws => by
    obtain ⟨w, hw, hws⟩ := bind_eq_done.1 hws
    obtain ⟨ws', hws', hws⟩ := bind_eq_done.1 hws
    cases hws
    exact List.forall_mem_cons.2 ⟨settled_of_resolve h hw, settled_of_resolveEntries h hws'⟩

theorem settled_of_resolveItems (h : deref.Settles) :
    ∀ {items ws : List Value}, resolveItems deref items = .done ws → ∀ w ∈ ws, w.Settled
  | [], _, rfl => nofun
  | v :: rest, ws, hws => by
    obtain ⟨w, hw, hws⟩ := bind_eq_done.1 hws
    obtain ⟨ws', hws', hws⟩ := bind_eq_done.1 hws
    cases hws
    exact List.forall_mem_cons.2 ⟨settled_of_resolve h hw, settled_of_resolveItems h hws'⟩

end

end Value

namespace Document

open Attempt

variable {d : Document}

theorem settled_of_dereferenceOnce {deref : Dereference Attempt} (h : deref.Settles)
    {p : Placeholder} {w : Value} (hw : d.dereferenceOnce deref p = .done w) : w.Settled := by
  unfold dereferenceOnce at hw
  split at hw
  · cases hw
  next a _ =>
    split at hw
    · cases hw
    next label _ =>
      obtain ⟨s, _, hw⟩ := bind_eq_done.1 hw
      cases hfield : a.field with
      | none =>
        rw [hfield] at hw
        exact Value.settled_of_resolve h hw
      | some field =>
        rw [hfield] at hw
        obtain ⟨found, _, hw⟩ := bind_eq_done.1 hw
        cases found with
        | none =>
          cases hw
          exact .null
        | some v => exact Value.settled_of_resolve h hw

theorem followWithin_settles (d : Document) (depth : Nat) : (d.followWithin depth).Settles := by
  induction depth with
  | zero => exact fun _ _ hw => nomatch hw
  | succ depth ih => exact fun _ _ hw => settled_of_dereferenceOnce ih hw

end Document

end Loon
