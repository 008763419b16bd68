import Loon.Analysis
import Loon.Proofs.Text

namespace Loon

namespace Path

structure IsName (name : String) : Prop where
  whole : '/' ∉ name.toList
  busy : isIdle name = false
  notUp : name ≠ ".."

variable {name text : String} {l : Location}

theorem pieces_append (s t : String) : pieces (s ++ "/" ++ t) = pieces s ++ pieces t := by
  have hchars : (s ++ "/" ++ t).toList = s.toList ++ '/' :: t.toList := by simp
  rw [pieces, hchars, Text.pieces_append, List.map_append]
  rfl

theorem pieces_of_whole (h : '/' ∉ name.toList) : pieces name = [name] := by
  rw [pieces, Text.pieces_of_notMem h, List.map_singleton, String.ofList_toList]

theorem whole_of_mem_pieces (h : name ∈ pieces text) : '/' ∉ name.toList := by
  obtain ⟨p, hp, rfl⟩ := List.mem_map.1 h
  rw [String.toList_ofList]
  exact Text.notMem_of_mem_pieces hp

theorem pieces_join (h : ∀ name ∈ l, IsName name) (hname : '/' ∉ name.toList) :
    pieces (name ++ String.join (l.map ("/" ++ ·))) = name :: l := by
  induction l generalizing name with
  | nil => rw [List.map_nil, String.join_nil, String.append_empty, pieces_of_whole hname]
  | cons next l ih =>
    rw [List.forall_mem_cons] at h
    rw [List.map_cons, String.join_cons, ← String.append_assoc, ← String.append_assoc,
      String.append_assoc, pieces_append, pieces_of_whole hname, ih h.2 h.1.whole]
    rfl

theorem text_ofLocation (hl : l ≠ []) :
    (ofLocation l).text = String.join (l.map ("/" ++ ·)) := by
  obtain ⟨name, rest, rfl⟩ := List.exists_cons_of_ne_nil hl
  rfl

theorem pieces_ofLocation (h : ∀ name ∈ l, IsName name) (hl : l ≠ []) :
    pieces (ofLocation l).text = "" :: l := by
  rw [text_ofLocation hl, ← pieces_join h List.not_mem_nil, String.empty_append]

theorem isRooted_ofLocation (l : Location) : isRooted (ofLocation l).text = true := by
  cases l with
  | nil => decide
  | cons name rest => simp [text_ofLocation, isRooted]

theorem isEmpty_of_isRooted (h : isRooted text = true) : text.isEmpty = false := by
  by_contra hempty
  rw [Bool.not_eq_false, String.isEmpty_iff] at hempty
  subst hempty
  cases h

theorem filter_busy (h : ∀ name ∈ l, IsName name) : l.filter (fun piece => !isIdle piece) = l := by
  refine List.filter_eq_self.2 fun name hname => ?_
  rw [(h name hname).busy]
  rfl

theorem ofText_ofLocation (h : ∀ name ∈ l, IsName name) :
    ofText (ofLocation l).text = ofLocation l := by
  rw [ofText, isRooted_ofLocation]
  rcases eq_or_ne l [] with rfl | hl
  · rfl
  · rw [pieces_ofLocation h hl, List.filter_cons_of_neg (by decide), filter_busy h]
    rfl

theorem last_ofLocation (h : ∀ name ∈ l, IsName name) (hl : l ≠ []) :
    (ofLocation l).text.toList.getLast? ≠ some '/' := by
  intro hlast
  obtain ⟨s, hs⟩ := List.getLast?_eq_some_iff.1 hlast
  have htext : (ofLocation l).text = String.ofList s ++ "/" ++ "" := by
    rw [← String.toList_inj, hs]
    simp
  have hpieces : "" :: l = pieces (String.ofList s) ++ [""] := by
    rw [← pieces_ofLocation h hl, htext, pieces_append]
    rfl
  have hempty : "" ∈ l := by
    have hlast := congrArg List.getLast? hpieces
    rw [List.getLast?_concat, List.getLast?_cons_of_ne_nil hl] at hlast
    exact List.mem_of_getLast? hlast
  cases (h "" hempty).busy

theorem pieces_joinText (h : ∀ name ∈ l, IsName name) (htext : isRooted text = false) :
    pieces (joinText (ofLocation l).text text) = "" :: (l ++ pieces text) := by
  rw [joinText, htext, if_neg (by decide)]
  rcases eq_or_ne l [] with rfl | hl
  · exact pieces_append "" text
  · have hlast : ((ofLocation l).text.toList.getLast? == some '/') = false := by
      simpa using last_ofLocation h hl
    rw [isEmpty_of_isRooted (isRooted_ofLocation l), hlast, if_neg (by decide), pieces_append,
      pieces_ofLocation h hl]
    rfl

theorem isRooted_append {folder : String} (h : isRooted folder = true) (text : String) :
    isRooted (folder ++ text) = true := by
  rw [isRooted, beq_iff_eq] at h ⊢
  rw [String.toList_append, List.head?_append, h]
  rfl

theorem isRooted_joinText {folder : String} (h : isRooted folder = true) (text : String) :
    isRooted (joinText folder text) = true := by
  rw [joinText]
  split
  · assumption
  · split
    · exact isRooted_append h text
    · exact isRooted_append (isRooted_append h "/") text

theorem exists_last_of_isLoonFile (h : isLoonFile text = true) :
    ∃ before name, (ofText text).parts = before ++ [name] ∧ name ≠ ".." := by
  rw [isLoonFile, extension] at h
  split at h
  · cases h
  next name hup hlast =>
    obtain ⟨before, hparts⟩ := List.getLast?_eq_some_iff.1 hlast
    exact ⟨before, name, hparts, hup⟩
  · cases h

end Path

namespace FileTree

variable {t : FileTree} {here l : Location} {path target : String}

variable (t) in
structure IsWay (l : Location) : Prop where
  names : ∀ name ∈ l, Path.IsName name
  folders : ∀ p, p <+: l → p ≠ l → t.entry? p = some .folder

variable (t) in
structure HasCurrent : Prop where
  way : t.IsWay t.current
  folder : t.entry? t.current = some .folder

theorem IsWay.above (h : t.IsWay l) (hhere : here <+: l) : t.IsWay here where
  names := fun name hname => h.names name (hhere.subset hname)
  folders := fun p hp hne => h.folders p (hp.trans hhere) fun heq =>
    hne (hp.eq_of_length_le (heq ▸ hhere.length_le))

theorem IsWay.append (h : t.IsWay here) (hfolder : t.entry? here = some .folder) {name : String}
    (hname : Path.IsName name) : t.IsWay (here ++ [name]) where
  names := List.forall_mem_append.2 ⟨h.names, List.forall_mem_singleton.2 hname⟩
  folders := fun p hp hne => by
    by_cases heq : p = here
    · rw [heq, hfolder]
    · exact h.folders p ((List.prefix_concat_iff.1 hp).resolve_left hne) heq

variable (t) in
inductive Goes (here : Location) : String → Location → Prop
  | stay {piece} : t.entry? here = some .folder → Path.isIdle piece = true → Goes here piece here
  | up : t.entry? here = some .folder → Goes here ".." here.dropLast
  | down {piece} : t.entry? here = some .folder → Path.isIdle piece = false → piece ≠ ".." →
      (t.entry? (here ++ [piece])).isSome = true → Goes here piece (here ++ [piece])

variable {piece : String} {pieces rest more : List String} {next : Location}

theorem walk_cons (h : t.Goes here piece next) (rest : List String) :
    t.walk here (piece :: rest) = t.walk next rest := by
  rw [walk]
  cases h with
  | stay hfolder hidle => simp only [hfolder, hidle, if_true]
  | up hfolder => simp [hfolder, Path.isIdle]
  | down hfolder hidle hup hthere => simp [hfolder, hidle, hup, hthere]

theorem exists_goes (h : t.walk here (piece :: rest) = .ok l) :
    ∃ next, t.Goes here piece next ∧ t.walk next rest = .ok l := by
  rw [walk] at h
  split at h
  next hfolder =>
    split at h
    next hidle => exact ⟨here, .stay hfolder hidle, h⟩
    next hidle =>
      split at h
      next hup =>
        subst hup
        exact ⟨_, .up hfolder, h⟩
      next hup =>
        split at h
        next hthere => exact ⟨_, .down hfolder (by simpa using hidle) hup hthere, h⟩
        · cases h
  · cases h
  · cases h

theorem walk_append (h : t.walk here pieces = .ok l) (more : List String) :
    t.walk here (pieces ++ more) = t.walk l more := by
  induction pieces generalizing here with
  | nil =>
    cases h
    rfl
  | cons piece pieces ih =>
    obtain ⟨next, hgoes, h⟩ := exists_goes h
    rw [List.cons_append, walk_cons hgoes, ih h]

theorem exists_walk_of_append (h : t.walk here (pieces ++ more) = .ok l) :
    ∃ mid, t.walk here pieces = .ok mid ∧ t.walk mid more = .ok l := by
  induction pieces generalizing here with
  | nil => exact ⟨here, rfl, h⟩
  | cons piece pieces ih =>
    obtain ⟨next, hgoes, h⟩ := exists_goes h
    obtain ⟨mid, hmid, h⟩ := ih h
    exact ⟨mid, (walk_cons hgoes _).trans hmid, h⟩

theorem walk_filter (h : t.walk here pieces = .ok l) :
    t.walk here (pieces.filter fun piece => !Path.isIdle piece) = .ok l := by
  induction pieces generalizing here with
  | nil => exact h
  | cons piece pieces ih =>
    obtain ⟨next, hgoes, h⟩ := exists_goes h
    cases hidle : Path.isIdle piece with
    | true =>
      rw [List.filter_cons_of_neg (by simp [hidle])]
      cases hgoes with
      | stay => exact ih h
      | up => cases hidle
      | down _ hbusy => simp [hidle] at hbusy
    | false =>
      rw [List.filter_cons_of_pos (by simp [hidle]), walk_cons hgoes]
      exact ih h

theorem Goes.isWay (h : t.Goes here piece next) (hpiece : '/' ∉ piece.toList) (hway : t.IsWay here) :
    t.IsWay next := by
  cases h with
  | stay => exact hway
  | up => exact hway.above (List.dropLast_prefix here)
  | down hfolder hidle hup _ => exact hway.append hfolder ⟨hpiece, hidle, hup⟩

theorem isWay_of_walk (h : t.walk here pieces = .ok l)
    (hpieces : ∀ piece ∈ pieces, '/' ∉ piece.toList) (hway : t.IsWay here) : t.IsWay l := by
  induction pieces generalizing here with
  | nil =>
    cases h
    exact hway
  | cons piece pieces ih =>
    rw [List.forall_mem_cons] at hpieces
    obtain ⟨next, hgoes, h⟩ := exists_goes h
    exact ih h hpieces.2 (hgoes.isWay hpieces.1 hway)

theorem walk_self (hway : t.IsWay l) (hthere : (t.entry? l).isSome = true) : t.walk [] l = .ok l := by
  -- Having come some of the way, the names that are left lead on through the same folders.
  suffices h : ∀ here rest, here ++ rest = l → t.walk here rest = .ok l from h [] l rfl
  intro here rest
  induction rest generalizing here with
  | nil =>
    intro h
    rw [walk, ← h, List.append_nil]
  | cons name rest ih =>
    intro h
    have hmem : name ∈ l := by simp [← h]
    have hfolder : t.entry? here = some .folder :=
      hway.folders here ⟨_, h⟩ fun heq => by simp [heq] at h
    have hnext : here ++ [name] ++ rest = l := by rw [List.append_assoc, List.singleton_append, h]
    have hsome : (t.entry? (here ++ [name])).isSome = true := by
      by_cases heq : here ++ [name] = l
      · rw [heq, hthere]
      · rw [hway.folders _ ⟨_, hnext⟩ heq]
        rfl
    rw [walk_cons (.down hfolder (hway.names name hmem).busy (hway.names name hmem).notUp hsome)]
    exact ih _ hnext

theorem isWay_nil : t.IsWay [] where
  names := nofun
  folders := fun _ hp hne => absurd (List.prefix_nil.1 hp) hne

theorem HasCurrent.top (h : t.HasCurrent) : t.entry? [] = some .folder := by
  rcases eq_or_ne t.current [] with hnil | hne
  · rw [← hnil, h.folder]
  · exact h.way.folders [] List.nil_prefix hne.symm

theorem isRooted_absolute (t : FileTree) (path : String) : Path.isRooted (t.absolute path) = true :=
  Path.isRooted_joinText (Path.isRooted_ofLocation t.current) path

theorem walk_absolute (h : t.HasCurrent) (hpath : t.locate path = .ok l) :
    t.walk [] (Path.pieces (t.absolute path)) = .ok l := by
  rw [locate] at hpath
  split at hpath
  · cases hpath
  · cases hrooted : Path.isRooted path with
    | true =>
      rw [absolute, Path.joinText, if_pos hrooted]
      rw [hrooted] at hpath
      exact hpath
    | false =>
      have hself : t.walk [] t.current = .ok t.current := walk_self h.way (by rw [h.folder]; rfl)
      rw [hrooted] at hpath
      rw [absolute, Path.pieces_joinText h.way.names hrooted, walk_cons (.stay h.top (by decide)),
        walk_append hself]
      exact hpath

theorem canonical_absolute (h : t.HasCurrent) (hpath : t.locate path = .ok l) :
    t.canonical (t.absolute path) = Path.ofLocation l := by
  rw [canonical, locate, Path.isEmpty_of_isRooted (t.isRooted_absolute path), isRooted_absolute, start]
  simp only [Bool.false_eq_true, if_false, if_true]
  rw [walk_absolute h hpath]

theorem isWay_of_locate (h : t.HasCurrent) (hpath : t.locate path = .ok l) : t.IsWay l :=
  isWay_of_walk (walk_absolute h hpath) (fun _ => Path.whole_of_mem_pieces) isWay_nil

theorem exists_parts_absolute (h : t.HasCurrent) (path : String) :
    ∃ above, (Path.ofText (t.absolute path)).parts = above ++ (Path.ofText path).parts := by
  cases hrooted : Path.isRooted path with
  | true => exact ⟨[], by rw [absolute, Path.joinText, if_pos hrooted, List.nil_append]⟩
  | false =>
    refine ⟨t.current, ?_⟩
    rw [Path.ofText, absolute, Path.pieces_joinText h.way.names hrooted]
    dsimp only
    rw [List.filter_cons_of_neg (by decide), List.filter_append, Path.filter_busy h.way.names]
    rfl

theorem locateTarget_of_parts (importer : Path) {before : List String} {name : String}
    (hrooted : importer.rooted = true) (hparts : importer.parts = before ++ [name])
    (hfolder : t.walk [] before = .ok here) :
    t.locateTarget importer target =
      t.walk (if Path.isRooted target then [] else here) (Path.pieces target) := by
  have hsome : (before ++ [name]).isEmpty = false := by simp
  rw [locateTarget, hrooted, hparts, hsome, List.dropLast_concat]
  split
  · rfl
  · exact walk_append hfolder _

/-- Targets mean the same under the path that a file was given by and under its own. -/
theorem locateTarget_absolute (h : t.HasCurrent) (hloon : Path.isLoonFile path = true)
    (hpath : t.locate path = .ok l) (target : String) :
    t.locateTarget (Path.ofText (t.absolute path)) target =
      t.locateTarget (Path.ofLocation l) target := by
  obtain ⟨before, name, hlast, hup⟩ := Path.exists_last_of_isLoonFile hloon
  obtain ⟨above, habove⟩ := exists_parts_absolute h path
  have hparts : (Path.ofText (t.absolute path)).parts = (above ++ before) ++ [name] := by
    rw [habove, hlast, List.append_assoc]
  have hwalk := walk_filter (walk_absolute h hpath)
  change t.walk [] (Path.ofText (t.absolute path)).parts = .ok l at hwalk
  rw [hparts] at hwalk
  obtain ⟨folder, hfolder, hname⟩ := exists_walk_of_append hwalk
  -- The last name leads down, so the names before it lead to the folder of the file.
  obtain ⟨next, hgoes, hnext⟩ := exists_goes hname
  cases hnext
  have hbusy : Path.isIdle name = false := by
    have hmem : name ∈ (Path.ofText (t.absolute path)).parts := by simp [hparts]
    simpa using (List.mem_filter.1 hmem).2
  cases hgoes with
  | stay _ hidle => simp [hidle] at hbusy
  | up => exact absurd rfl hup
  | down hthere =>
    have hway := (isWay_of_locate h hpath).above (List.prefix_append folder [name])
    have hself : t.walk [] folder = .ok folder := walk_self hway (by rw [hthere]; rfl)
    have hrooted : (Path.ofText (t.absolute path)).rooted = true := t.isRooted_absolute path
    rw [locateTarget_of_parts _ hrooted hparts hfolder,
      locateTarget_of_parts (Path.ofLocation _) rfl rfl hself]

theorem isWay_of_locateTarget {l' : Location} (h : t.HasCurrent) (hway : t.IsWay l)
    (htarget : t.locateTarget (Path.ofLocation l) target = .ok l') : t.IsWay l' := by
  have hstart : ∀ rooted, t.IsWay (t.start rooted) := fun rooted => by
    cases rooted with
    | false => exact h.way
    | true => exact isWay_nil
  rw [locateTarget] at htarget
  split at htarget
  · exact isWay_of_walk htarget (fun _ => Path.whole_of_mem_pieces) isWay_nil
  · refine isWay_of_walk htarget (List.forall_mem_append.2 ⟨fun name hname => ?_, fun _ =>
      Path.whole_of_mem_pieces⟩) (hstart _)
    exact (hway.names name (List.dropLast_subset l hname)).whole

end FileTree

end Loon
