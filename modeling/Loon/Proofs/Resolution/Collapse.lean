import Loon.Proofs.Resolution.Settled
import Mathlib.Data.Fintype.EquivFin
import Mathlib.Data.List.Induction

/-!
The body of a label keeps one entry for a key, where the key first stood, a bare reference under
the last part of its address. So of the lines of one key only the last is left when references are
followed. Nothing is lost by it exactly when each bare reference stands apart: its key is its own,
and no key is written both before and after it.
-/

namespace Loon

namespace Write

def keyed (ws : List Write) : Mapping Write := ws.map fun w => (w.key, w)

def collapse (ws : List Write) : List Write := (Mapping.ofList (keyed ws)).map Prod.snd

def shape (w : Write) : String × Bool := (w.key, w.merges)

def Apart (shapes : List (String × Bool)) : Prop :=
  ∀ before key after, shapes = before ++ (key, true) :: after →
    key ∉ before.map Prod.fst ∧ key ∉ after.map Prod.fst ∧
      List.Disjoint (before.map Prod.fst) (after.map Prod.fst)

theorem Apart.sublist {shapes shapes' : List (String × Bool)} (h : Apart shapes)
    (hsub : shapes'.Sublist shapes) : Apart shapes' := by
  rintro before key after rfl
  obtain ⟨left, right, rfl, hbefore, hright⟩ := List.append_sublist_iff.1 hsub
  obtain ⟨inner, outer, rfl, hkey, hafter⟩ := List.cons_sublist_iff.1 hright
  obtain ⟨l, r, rfl⟩ := List.append_of_mem hkey
  obtain ⟨hold, hnew, hdisjoint⟩ := h (left ++ l) key (r ++ outer) (by simp)
  have hbefore : (before.map Prod.fst).Sublist ((left ++ l).map Prod.fst) :=
    (hbefore.trans (List.sublist_append_left ..)).map _
  have hafter : (after.map Prod.fst).Sublist ((r ++ outer).map Prod.fst) :=
    (hafter.trans (List.sublist_append_right ..)).map _
  exact ⟨fun hmem => hold (hbefore.subset hmem), fun hmem => hnew (hafter.subset hmem),
    fun k hk hk' => hdisjoint (hbefore.subset hk) (hafter.subset hk')⟩

theorem Apart.plain (before : List Write) {x : Write} {after : List Write}
    (h : Apart ((before ++ x :: after).map shape))
    (htwice : x.key ∈ before.map Write.key ∨ x.key ∈ after.map Write.key ∨
      ∃ k ∈ before.map Write.key, k ∈ after.map Write.key) : x.merges = false := by
  rw [← Bool.not_eq_true]
  intro hmerges
  have hsplit : (before ++ x :: after).map shape =
      before.map shape ++ (x.key, true) :: after.map shape := by
    rw [List.map_append, List.map_cons, shape, hmerges]
  have hkeys : ∀ ws : List Write, (ws.map shape).map Prod.fst = ws.map Write.key := fun ws => by
    rw [List.map_map]
    rfl
  obtain ⟨hbefore, hafter, hdisjoint⟩ := h _ _ _ hsplit
  rw [hkeys] at hbefore hafter hdisjoint
  rw [hkeys] at hdisjoint
  rcases htwice with hmem | hmem | ⟨k, hk, hk'⟩
  · exact hbefore hmem
  · exact hafter hmem
  · exact hdisjoint hk hk'

theorem apart_of_nodup {shapes : List (String × Bool)} (h : (shapes.map Prod.fst).Nodup) :
    Apart shapes := by
  rintro before key after rfl
  rw [List.map_append, List.map_cons, List.nodup_append, List.nodup_cons] at h
  obtain ⟨_, ⟨hafter, _⟩, hne⟩ := h
  exact ⟨fun hmem => hne _ hmem _ (List.mem_cons_self ..) rfl, hafter,
    fun k hk hk' => hne _ hk _ (List.mem_cons_of_mem _ hk') rfl⟩

theorem apply_of_not_merges {w : Write} (h : w.merges = false) (m : Mapping Value) :
    apply m w = Mapping.insert m w.key w.value := by
  rw [apply, h]

variable {ws : List Write}

@[simp] theorem keys_keyed (ws : List Write) : Mapping.keys (keyed ws) = ws.map Write.key := by
  simp [Mapping.keys, keyed, Function.comp_def]

theorem collapse_cons {w : Write} (h : w.key ∉ ws.map Write.key) :
    collapse (w :: ws) = w :: collapse ws := by
  have hkeys : w.key ∉ Mapping.keys (keyed ws) := by rwa [keys_keyed]
  have hofList : Mapping.ofList (keyed (w :: ws)) = (w.key, w) :: Mapping.ofList (keyed ws) :=
    Mapping.extend_singleton hkeys w
  rw [collapse, hofList]
  rfl

theorem collapse_cons_append {w y : Write} {mid post : List Write} (hy : y.key = w.key)
    (hmid : w.key ∉ mid.map Write.key) :
    collapse (w :: (mid ++ y :: post)) = collapse (y :: (mid ++ post)) := by
  have hplace : ∀ x : Write, Mapping.extend [(w.key, x)] (keyed mid) =
      (w.key, x) :: Mapping.ofList (keyed mid) :=
    Mapping.extend_singleton (by rwa [keys_keyed])
  have hinsert : Mapping.insert (Mapping.extend [(w.key, w)] (keyed mid)) w.key y =
      Mapping.extend [(w.key, y)] (keyed mid) := by
    rw [hplace, hplace, Mapping.insert, if_pos rfl]
  have hofList : Mapping.ofList (keyed (w :: (mid ++ y :: post))) =
      Mapping.ofList (keyed (y :: (mid ++ post))) := by
    calc Mapping.ofList (keyed (w :: (mid ++ y :: post)))
      _ = Mapping.extend [(w.key, w)] (keyed mid ++ (w.key, y) :: keyed post) := by
        simp [keyed, hy, Mapping.ofList, Mapping.insert]
      _ = Mapping.extend (Mapping.extend [(w.key, y)] (keyed mid)) (keyed post) := by
        rw [Mapping.extend_append, Mapping.extend_cons, hinsert]
      _ = Mapping.ofList (keyed (y :: (mid ++ post))) := by
        rw [← Mapping.extend_append]
        simp [keyed, hy, Mapping.ofList, Mapping.insert]
  rw [collapse, hofList, collapse]

theorem insert_foldl_apply {mid : List Write} {key : String}
    (hmid : ∀ x ∈ mid, x.merges = false ∧ x.key ≠ key) {m : Mapping Value}
    (hkey : key ∈ Mapping.keys m) (v : Value) :
    Mapping.insert (mid.foldl apply m) key v = mid.foldl apply (Mapping.insert m key v) := by
  induction mid generalizing m with
  | nil => rfl
  | cons x mid ih =>
    obtain ⟨⟨hplain, hne⟩, hmid⟩ := List.forall_mem_cons.1 hmid
    have hkey' : key ∈ Mapping.keys (Mapping.insert m x.key x.value) := by
      rw [Mapping.keys_insert]
      split
      · exact hkey
      · exact List.mem_append_left _ hkey
    rw [List.foldl_cons, List.foldl_cons, apply_of_not_merges hplain, ih hmid hkey',
      Mapping.insert_comm hkey hne, apply_of_not_merges hplain]

theorem foldl_apply_replace {w y : Write} {mid : List Write} (hw : w.merges = false)
    (hy : y.merges = false) (hkey : y.key = w.key)
    (hmid : ∀ x ∈ mid, x.merges = false ∧ x.key ≠ w.key) (m : Mapping Value) :
    (w :: (mid ++ [y])).foldl apply m = (y :: mid).foldl apply m := by
  have hplace : w.key ∈ Mapping.keys (Mapping.insert m w.key w.value) := by
    rw [Mapping.mem_keys_iff, Mapping.get?_insert_self]
    rfl
  rw [List.foldl_cons, List.foldl_append, List.foldl_cons, List.foldl_nil, List.foldl_cons,
    apply_of_not_merges hy, apply_of_not_merges hy, apply_of_not_merges hw, hkey,
    insert_foldl_apply hmid hplace, Mapping.insert_insert_self]

theorem exists_first {key : String} (h : key ∈ ws.map Write.key) :
    ∃ mid y post, ws = mid ++ y :: post ∧ y.key = key ∧ key ∉ mid.map Write.key := by
  obtain ⟨keys, keys', hsplit, hnot⟩ := List.eq_append_cons_of_mem h
  obtain ⟨mid, rest, rfl, rfl, hrest⟩ := List.map_eq_append_iff.1 hsplit
  obtain ⟨y, post, rfl, hy, _⟩ := List.map_eq_cons_iff.1 hrest
  exact ⟨mid, y, post, rfl, hy, hnot⟩

theorem foldl_apply_collapse (h : Apart (ws.map shape)) (m : Mapping Value) :
    (collapse ws).foldl apply m = ws.foldl apply m := by
  -- The first write leaves its place to the next one of its key, and one write less is left.
  induction hn : ws.length using Nat.strongRecOn generalizing ws m with
  | _ n ih =>
    cases ws with
    | nil => rfl
    | cons w ws =>
      by_cases hmem : w.key ∈ ws.map Write.key
      · obtain ⟨mid, y, post, rfl, hy, hmid⟩ := exists_first hmem
        have hw : w.merges = false :=
          Apart.plain [] h (.inr (.inl hmem))
        have hy' : y.merges = false :=
          Apart.plain (w :: mid) h (.inl (hy ▸ List.mem_cons_self ..))
        have hother : ∀ x ∈ mid, x.merges = false ∧ x.key ≠ w.key := by
          intro x hx
          obtain ⟨left, right, rfl⟩ := List.append_of_mem hx
          rw [List.append_assoc, ← List.cons_append, List.cons_append] at h
          have htwice : ∃ k ∈ (w :: left).map Write.key, k ∈ (right ++ y :: post).map Write.key :=
            ⟨w.key, List.mem_cons_self .., by simp [hy]⟩
          refine ⟨Apart.plain (w :: left) h (.inr (.inr htwice)), fun hk => ?_⟩
          exact hmid (List.mem_map.2 ⟨x, hx, hk⟩)
        have hapart : Apart ((y :: (mid ++ post)).map shape) := by
          have hshape : y.shape = w.shape := by rw [shape, shape, hy, hw, hy']
          rw [List.map_cons, hshape, ← List.map_cons]
          refine h.sublist (List.Sublist.map _ ?_)
          exact ((List.Sublist.refl mid).append (List.sublist_cons_self y post)).cons_cons w
        have hlength : (y :: (mid ++ post)).length < n := by
          rw [← hn]
          simp
        calc (collapse (w :: (mid ++ y :: post))).foldl apply m
          _ = (y :: (mid ++ post)).foldl apply m := by
            rw [collapse_cons_append hy hmid, ih _ hlength hapart m rfl]
          _ = post.foldl apply ((y :: mid).foldl apply m) := by
            rw [← List.cons_append, List.foldl_append]
          _ = post.foldl apply ((w :: (mid ++ [y])).foldl apply m) := by
            rw [foldl_apply_replace hw hy' hy hother]
          _ = (w :: (mid ++ y :: post)).foldl apply m := by
            rw [← List.foldl_append, List.cons_append, List.append_assoc, List.singleton_append]
      · have hrest := h.sublist (List.sublist_cons_self ..)
        rw [collapse_cons hmem, List.foldl_cons, List.foldl_cons]
        exact ih ws.length (by simp [← hn]) hrest _ rfl

theorem get?_applyAll (h : ∀ w ∈ ws, w.value.Settled) (key : String) :
    Mapping.get? (applyAll ws) key = ws.reverse.findSome? fun w => w.supply? key := by
  induction ws using List.reverseRecOn with
  | nil => rfl
  | append_singleton ws w ih =>
    rw [List.forall_mem_append, List.forall_mem_singleton] at h
    rw [applyAll_append, get?_apply h.2, ih h.1, List.reverse_append, List.reverse_singleton,
      List.singleton_append, List.findSome?_cons]
    cases w.supply? key <;> rfl

def last? (ws : List Write) (key : String) : Option Write := Mapping.get? (keyed ws).reverse key

theorem last?_eq_none_iff {key : String} : last? ws key = none ↔ key ∉ ws.map Write.key := by
  rw [last?, Mapping.get?_eq_none_iff, Mapping.keys, List.map_reverse, List.mem_reverse,
    ← Mapping.keys, keys_keyed]

theorem mem_of_last? {key : String} {w : Write} (h : last? ws key = some w) : w ∈ ws := by
  obtain ⟨x, hx, heq⟩ := List.mem_map.1 (List.mem_reverse.1 (Mapping.mem_of_get? h))
  cases heq
  exact hx

theorem last?_append_cons (ws vs : List Write) (w : Write) :
    last? (ws ++ w :: vs) w.key = (last? vs w.key <|> some w) := by
  rw [last?, last?, keyed, List.map_append, List.map_cons, List.reverse_append, List.reverse_cons,
    List.append_assoc, Mapping.get?_append, ← keyed]
  simp [Mapping.get?]

theorem last?_of_mem_collapse {w : Write} (h : w ∈ collapse ws) : last? ws w.key = some w := by
  obtain ⟨⟨key, v⟩, hentry, rfl⟩ := List.mem_map.1 h
  have hget := Mapping.get?_of_mem (Mapping.distinct_ofList _) hentry
  obtain ⟨x, hx, heq⟩ := List.mem_map.1 ((Mapping.mem_of_mem_extend hentry).resolve_left nofun)
  cases heq
  rw [Mapping.ofList, Mapping.get?_extend_reverse] at hget
  simpa [last?] using hget

section Probe

def blank (s : String × Bool) : Write := ⟨s.1, s.2, .null⟩

/-- Writes of which the merging one gives a single entry, and all others give null. -/
def probe (before : List (String × Bool)) (key : String) (after : List (String × Bool))
    (entry : String × Value) : List Write :=
  before.map blank ++ ⟨key, true, .mapping [entry]⟩ :: after.map blank

variable {before after : List (String × Bool)} {key : String} {entry : String × Value}

theorem supply?_blank (s : String × Bool) (k : String) :
    (blank s).supply? k = if s.1 = k then some .null else none := by
  obtain ⟨name, merges⟩ := s
  cases merges <;> rfl

theorem supply?_merge (key : String) (entry : String × Value) (k : String) :
    supply? ⟨key, true, .mapping [entry]⟩ k = if entry.1 = k then some entry.2 else none := rfl

theorem shape_blank (shapes : List (String × Bool)) : (shapes.map blank).map shape = shapes := by
  rw [List.map_map]
  exact List.map_id _

theorem shape_probe : (probe before key after entry).map shape = before ++ (key, true) :: after := by
  rw [probe, List.map_append, List.map_cons, shape_blank, shape_blank]
  rfl

theorem settled_probe (h : entry.2.Settled) :
    ∀ w ∈ probe before key after entry, w.value.Settled := by
  have hblank : ∀ shapes : List (String × Bool), ∀ w ∈ shapes.map blank, w.value.Settled := by
    intro shapes w hw
    obtain ⟨s, _, rfl⟩ := List.mem_map.1 hw
    exact .null
  rw [probe, List.forall_mem_append, List.forall_mem_cons]
  refine ⟨hblank before, .mapping ?_ ?_, hblank after⟩
  · exact List.nodup_singleton _
  · simpa using h

theorem of_mem_map_blank {shapes : List (String × Bool)} {w : Write} (h : w ∈ shapes.map blank) :
    w.value = .null ∧ w.key ∈ shapes.map Prod.fst ∧
      ∀ k, w.supply? k = if w.key = k then some .null else none := by
  obtain ⟨s, hs, rfl⟩ := List.mem_map.1 h
  exact ⟨rfl, List.mem_map_of_mem hs, supply?_blank s⟩

theorem findSome?_blank {shapes : List (String × Bool)} {k : String}
    (h : k ∈ shapes.map Prod.fst) :
    (shapes.map blank).reverse.findSome? (fun w => w.supply? k) = some .null := by
  have hsome : ((shapes.map blank).reverse.findSome? fun w => w.supply? k).isSome := by
    obtain ⟨s, hs, rfl⟩ := List.mem_map.1 h
    rw [List.findSome?_isSome_iff]
    exact ⟨blank s, List.mem_reverse.2 (List.mem_map_of_mem hs), by simp [supply?_blank]⟩
  obtain ⟨v, hv⟩ := Option.isSome_iff_exists.1 hsome
  obtain ⟨w, hw, hsupply⟩ := List.exists_of_findSome?_eq_some hv
  rw [(of_mem_map_blank (List.mem_reverse.1 hw)).2.2, Option.ite_none_right_eq_some] at hsupply
  rw [hv, ← hsupply.2]

theorem of_mem_collapse_probe {w : Write} (h : w ∈ collapse (probe before key after entry)) :
    (key ∉ after.map Prod.fst ∧ w = ⟨key, true, .mapping [entry]⟩) ∨
    (w ∈ (before ++ after).map blank ∧ (w.key = key → key ∈ after.map Prod.fst)) := by
  have hlast := last?_of_mem_collapse h
  have hmem := mem_of_last? hlast
  have hprobe : last? (probe before key after entry) key =
      (last? (after.map blank) key <|> some ⟨key, true, .mapping [entry]⟩) :=
    last?_append_cons (before.map blank) (after.map blank) ⟨key, true, .mapping [entry]⟩
  have hkeys : (after.map blank).map Write.key = after.map Prod.fst := by
    rw [List.map_map]
    rfl
  have hblank : ∀ x ∈ (before ++ after).map blank, x ≠ ⟨key, true, .mapping [entry]⟩ := by
    rintro x hx rfl
    cases (of_mem_map_blank hx).1
  have hcases : w = ⟨key, true, .mapping [entry]⟩ ∨ w ∈ (before ++ after).map blank := by
    rw [probe, List.mem_append, List.mem_cons] at hmem
    rw [List.map_append, List.mem_append]
    tauto
  by_cases hkey : key ∈ after.map Prod.fst
  · refine .inr ⟨hcases.resolve_left ?_, fun _ => hkey⟩
    rintro rfl
    rw [hprobe] at hlast
    cases hafter : last? (after.map blank) key with
    | none => exact last?_eq_none_iff.1 hafter (hkeys ▸ hkey)
    | some x =>
      rw [hafter] at hlast
      cases hlast
      exact hblank _ (List.map_append ▸ List.mem_append_right _ (mem_of_last? hafter)) rfl
  · have hnone : last? (after.map blank) key = none := last?_eq_none_iff.2 (hkeys ▸ hkey)
    rw [hnone] at hprobe
    refine hcases.imp (fun hw => ⟨hkey, hw⟩) fun hw => ⟨hw, fun hk => ?_⟩
    rw [hk, hprobe] at hlast
    cases hlast
    exact absurd rfl (hblank _ hw)

theorem supplied_by_merge (h : entry.2.Settled) :
    (Mapping.get? (applyAll (probe before key after entry)) entry.1).isSome := by
  rw [get?_applyAll (settled_probe h), List.findSome?_isSome_iff]
  refine ⟨⟨key, true, .mapping [entry]⟩, ?_, ?_⟩
  · simp [probe]
  · simp [supply?_merge]

theorem supplied_by_blank (h : entry.2.Settled) {k : String} (hk : k ∈ before.map Prod.fst) :
    (Mapping.get? (applyAll (probe before key after entry)) k).isSome := by
  rw [get?_applyAll (settled_probe h), List.findSome?_isSome_iff]
  obtain ⟨s, hs, rfl⟩ := List.mem_map.1 hk
  refine ⟨blank s, ?_, ?_⟩
  · simp only [probe, List.mem_reverse, List.mem_append]
    exact .inl (List.mem_map_of_mem hs)
  · simp [supply?_blank]

theorem settled_collapse (h : ∀ w ∈ ws, w.value.Settled) : ∀ w ∈ collapse ws, w.value.Settled :=
  fun w hw => h w (mem_of_last? (last?_of_mem_collapse hw))

theorem collapse_probe_ne (h : entry.2.Settled) {k : String}
    (hall : (Mapping.get? (applyAll (probe before key after entry)) k).isSome)
    (hleft : ∀ w ∈ collapse (probe before key after entry), w.supply? k = none) :
    applyAll (collapse (probe before key after entry)) ≠ applyAll (probe before key after entry) := by
  intro heq
  rw [← heq, get?_applyAll (settled_collapse (settled_probe h)), List.findSome?_isSome_iff] at hall
  obtain ⟨w, hw, hsome⟩ := hall
  rw [hleft w (List.mem_reverse.1 hw)] at hsome
  cases hsome

theorem exists_ne_of_mem_after (before : List (String × Bool)) (h : key ∈ after.map Prod.fst) :
    ∃ ws, ws.map shape = before ++ (key, true) :: after ∧ applyAll (collapse ws) ≠ applyAll ws := by
  obtain ⟨fresh, hfresh⟩ := Infinite.exists_notMem_finset ((before ++ after).map Prod.fst).toFinset
  rw [List.mem_toFinset] at hfresh
  refine ⟨probe before key after (fresh, .null), shape_probe, ?_⟩
  refine collapse_probe_ne .null (supplied_by_merge .null) fun w hw => ?_
  rcases of_mem_collapse_probe hw with ⟨hnot, _⟩ | ⟨hblank, _⟩
  · exact absurd h hnot
  · obtain ⟨_, hkey, hsupply⟩ := of_mem_map_blank hblank
    rw [hsupply, if_neg fun heq : w.key = fresh => hfresh (heq ▸ hkey)]

theorem exists_ne_of_mem_before (h : key ∈ before.map Prod.fst) (hafter : key ∉ after.map Prod.fst) :
    ∃ ws, ws.map shape = before ++ (key, true) :: after ∧ applyAll (collapse ws) ≠ applyAll ws := by
  obtain ⟨fresh, hfresh⟩ := Infinite.exists_notMem_finset [key].toFinset
  rw [List.mem_toFinset, List.mem_singleton] at hfresh
  refine ⟨probe before key after (fresh, .null), shape_probe, ?_⟩
  refine collapse_probe_ne .null (supplied_by_blank .null h) fun w hw => ?_
  rcases of_mem_collapse_probe hw with ⟨_, rfl⟩ | ⟨hblank, hkey⟩
  · rw [supply?_merge, if_neg hfresh]
  · obtain ⟨_, _, hsupply⟩ := of_mem_map_blank hblank
    rw [hsupply, if_neg fun heq => hafter (hkey heq)]

theorem collapse_probe (hbefore : key ∉ before.map Prod.fst) (hafter : key ∉ after.map Prod.fst)
    (entry : String × Value) :
    ∃ vs us, collapse (probe before key after entry) =
        vs ++ ⟨key, true, .mapping [entry]⟩ :: us ∧
      ∀ w ∈ us, w ∈ after.map blank ∧ w.key ∉ before.map Prod.fst := by
  let w : Write := ⟨key, true, .mapping [entry]⟩
  let m := Mapping.ofList (keyed (before.map blank))
  let new := (keyed (after.map blank)).filter fun entry => entry.1 ∉ Mapping.keys m
  have hkeys : ∀ shapes : List (String × Bool),
      Mapping.keys (keyed (shapes.map blank)) = shapes.map Prod.fst := fun shapes => by
    rw [keys_keyed, List.map_map]
    rfl
  have hm : ∀ k, k ∈ Mapping.keys m ↔ k ∈ before.map Prod.fst := fun k => by
    refine Mapping.mem_keys_extend.trans ?_
    rw [hkeys]
    simp
  have hnew : key ∉ Mapping.keys new := fun hmem => by
    obtain ⟨x, hx, rfl⟩ := List.mem_map.1 hmem
    refine hafter ?_
    rw [← hkeys]
    exact List.mem_map_of_mem (List.mem_filter.1 hx).1
  have hofList : Mapping.ofList (keyed (probe before key after entry)) =
      Mapping.extend m ((keyed (after.map blank)).filter fun entry => entry.1 ∈ Mapping.keys m) ++
        (key, w) :: Mapping.ofList new := by
    calc Mapping.ofList (keyed (probe before key after entry))
      _ = Mapping.extend (Mapping.insert m key w) (keyed (after.map blank)) := by
        rw [probe, keyed, List.map_append, Mapping.ofList, Mapping.extend_append]
        rfl
      _ = Mapping.extend (m ++ [(key, w)]) (keyed (after.map blank)) := by
        rw [Mapping.insert_of_notMem ((hm key).not.2 hbefore)]
      _ = _ := by
        rw [Mapping.extend_append_left, Mapping.extend_singleton hnew]
  refine ⟨_, _, by rw [collapse, hofList, List.map_append, List.map_cons], fun x hx => ?_⟩
  obtain ⟨e, he, rfl⟩ := List.mem_map.1 hx
  obtain ⟨hmem, hnot⟩ := List.mem_filter.1 ((Mapping.mem_of_mem_extend he).resolve_left nofun)
  obtain ⟨x, hblank, rfl⟩ := List.mem_map.1 hmem
  exact ⟨hblank, (hm _).not.1 (by simpa using hnot)⟩

theorem exists_ne_of_mem_both {k : String} (hk : k ∈ before.map Prod.fst)
    (hk' : k ∈ after.map Prod.fst) (hbefore : key ∉ before.map Prod.fst)
    (hafter : key ∉ after.map Prod.fst) :
    ∃ ws, ws.map shape = before ++ (key, true) :: after ∧ applyAll (collapse ws) ≠ applyAll ws := by
  let ws := probe before key after (k, .bool true)
  have hsettled : ∀ w ∈ ws, w.value.Settled := settled_probe (.bool true)
  have hall : Mapping.get? (applyAll ws) k = some .null := by
    have hsplit : ws = before.map blank ++ ⟨key, true, .mapping [(k, .bool true)]⟩ ::
        after.map blank := rfl
    rw [get?_applyAll hsettled, hsplit, List.reverse_append, List.reverse_cons, List.append_assoc,
      List.findSome?_append, findSome?_blank hk']
    rfl
  have hleft : Mapping.get? (applyAll (collapse ws)) k = some (.bool true) := by
    obtain ⟨vs, us, hcollapse, hus⟩ := collapse_probe hbefore hafter (k, .bool true)
    have hnone : us.reverse.findSome? (fun w => w.supply? k) = none := by
      rw [List.findSome?_eq_none_iff]
      intro w hw
      obtain ⟨hblank, hkey⟩ := hus w (List.mem_reverse.1 hw)
      rw [(of_mem_map_blank hblank).2.2, if_neg fun heq : w.key = k => hkey (heq ▸ hk)]
    rw [get?_applyAll (settled_collapse hsettled), hcollapse, List.reverse_append, List.reverse_cons,
      List.append_assoc, List.findSome?_append, hnone, List.singleton_append, List.findSome?_cons,
      supply?_merge, if_pos rfl]
    rfl
  refine ⟨ws, shape_probe, fun heq => ?_⟩
  rw [heq, hall] at hleft
  cases hleft

theorem apart_of_forall {shapes : List (String × Bool)}
    (h : ∀ ws, ws.map shape = shapes → applyAll (collapse ws) = applyAll ws) : Apart shapes := by
  rintro before key after rfl
  have hafter : key ∉ after.map Prod.fst := fun hmem => by
    obtain ⟨ws, hws, hne⟩ := exists_ne_of_mem_after before hmem
    exact hne (h ws hws)
  have hbefore : key ∉ before.map Prod.fst := fun hmem => by
    obtain ⟨ws, hws, hne⟩ := exists_ne_of_mem_before hmem hafter
    exact hne (h ws hws)
  refine ⟨hbefore, hafter, fun k hk hk' => ?_⟩
  obtain ⟨ws, hws, hne⟩ := exists_ne_of_mem_both hk hk' hbefore hafter
  exact hne (h ws hws)

end Probe

/-- Writes of given shapes can be collapsed, whatever their values, just if they stand apart. -/
theorem apart_iff {shapes : List (String × Bool)} :
    Apart shapes ↔ ∀ ws, ws.map shape = shapes → applyAll (collapse ws) = applyAll ws := by
  refine ⟨?_, apart_of_forall⟩
  rintro h ws rfl
  exact foldl_apply_collapse h []

end Write

end Loon
