import Mathlib.Data.List.TakeWhile
import Shader.FileStore
import Shader.Proofs.Files.Paths

/-!
# Writing into a store

A store that keeps its directories and loses no entry leads every path to the place it led to
before. So directories that were made stay where they are while files are written into them.
-/

namespace Shader.FileStore

variable {folder found place start : Location} {after s : FileStore}
  {directory name part path : String} {done ps : List String} {content : Source} {rooted : Bool}

/-! ## Entries -/

theorem lookup_map_replace (entries : List (Location × Entry)) (place spot : Location)
    (entry : Entry) :
    (entries.map fun (p, e) => (p, if p = place then entry else e)).lookup spot =
      (entries.lookup spot).map fun e => if spot = place then entry else e := by
  induction entries with
  | nil => rfl
  | cons first rest ih =>
    obtain ⟨p, e⟩ := first
    by_cases hp : spot = p
    · subst hp
      simp
    · have hne : (spot == p) = false := beq_false_of_ne hp
      simpa [List.lookup_cons, hne] using ih

theorem entry?_of_ne_root (s : FileStore) (hplace : place ≠ []) :
    s.entry? place = s.entries.lookup place := by
  unfold entry?
  rw [if_neg (by simpa using hplace)]

/-- Putting an entry changes what stands at its place, and nothing else. -/
theorem entry?_put (s : FileStore) (hplace : place ≠ []) (entry : Entry) (spot : Location) :
    FileStore.entry? (s.put place entry) spot =
      if spot = place then some entry else s.entry? spot := by
  by_cases hroot : spot = []
  · rw [hroot, if_neg hplace.symm]
    rfl
  rw [entry?_of_ne_root _ hroot, entry?_of_ne_root _ hroot]
  by_cases hany : s.entries.any (·.1 = place)
  · rw [put, if_pos hany]
    show (s.entries.map fun (p, e) => (p, if p = place then entry else e)).lookup spot = _
    rw [lookup_map_replace]
    by_cases hspot : spot = place
    · subst hspot
      obtain ⟨pair, hmem, hpair⟩ := List.any_eq_true.mp hany
      have hsome : (s.entries.lookup spot).isSome :=
        List.lookup_isSome_iff.mpr ⟨pair, hmem, by simpa using (of_decide_eq_true hpair).symm⟩
      obtain ⟨old, hold⟩ := Option.isSome_iff_exists.mp hsome
      simp [hold]
    · simp [hspot]
  · rw [put, if_neg hany]
    show (s.entries ++ [(place, entry)]).lookup spot = _
    rw [List.lookup_append]
    by_cases hspot : spot = place
    · subst hspot
      have hnone : s.entries.lookup spot = none := by
        rw [List.lookup_eq_none_iff]
        intro pair hmem
        have hne : ¬ pair.1 = spot := fun h => hany (List.any_eq_true.mpr ⟨pair, hmem, by simp [h]⟩)
        simpa using fun h : spot = pair.1 => hne h.symm
      simp [hnone]
    · have hne : (spot == place) = false := beq_false_of_ne hspot
      simp [List.lookup_cons, hne, hspot]

theorem mem_entries_of_file (hentry : s.entry? place = some (.file content)) :
    (place, .file content) ∈ s.entries := by
  have hplace : place ≠ [] := by
    rintro rfl
    cases hentry
  rw [entry?_of_ne_root s hplace] at hentry
  obtain ⟨front, back, hentries, -⟩ := List.lookup_eq_some_iff.mp hentry
  rw [hentries]
  exact List.mem_append_right _ (.head _)

@[simp] theorem put_workingDirectory (s : FileStore) (place : Location) (entry : Entry) :
    (s.put place entry).workingDirectory = s.workingDirectory := by
  unfold put
  split <;> rfl

theorem isDirectory_iff : s.isDirectory place = true ↔ s.entry? place = some .directory := by
  simp [isDirectory]

theorem isDirectory_put_file (hplace : place ≠ []) (hfree : ¬ s.isDirectory place)
    (content : Source) (spot : Location) :
    (s.put place (.file content)).isDirectory spot = s.isDirectory spot := by
  rw [isDirectory, isDirectory, entry?_put s hplace]
  by_cases hspot : spot = place
  · subst hspot
    rw [isDirectory_iff] at hfree
    simp [hfree]
  · simp [hspot]

theorem follow_cons (hdir : s.isDirectory place = true) (part : String) (rest : List String) :
    s.follow place (part :: rest) =
      if part = "" ∨ part = "." then s.follow place rest
      else if part = ".." then s.follow place.dropLast rest
      else if (s.entry? (place ++ [part])).isSome then s.follow (place ++ [part]) rest
      else .error .notFound := by
  simp [follow, hdir]

theorem isDirectory_of_follow_cons {rest : List String}
    (hfollow : s.follow place (part :: rest) = .ok found) : s.isDirectory place = true := by
  by_contra hdir
  rw [follow, Bool.eq_false_iff.mpr hdir] at hfollow
  cases hfollow

/-! ## Stores that keep their directories -/

/-- The later store has every directory of the earlier one, and something wherever there was
something. -/
structure Keeps (before after : FileStore) : Prop where
  workingDirectory : after.workingDirectory = before.workingDirectory
  directory : ∀ place, before.isDirectory place → after.isDirectory place
  present : ∀ place, (before.entry? place).isSome → (after.entry? place).isSome

namespace Keeps

variable {before after : FileStore}

theorem rfl : s.Keeps s := ⟨Eq.refl _, fun _ h => h, fun _ h => h⟩

theorem trans {later : FileStore} (h : before.Keeps after) (h' : after.Keeps later) :
    before.Keeps later :=
  ⟨h'.workingDirectory.trans h.workingDirectory,
    fun place hdir => h'.directory place (h.directory place hdir),
    fun place hsome => h'.present place (h.present place hsome)⟩

theorem follow (hkeeps : before.Keeps after)
    (hfollow : before.follow place ps = .ok found) : after.follow place ps = .ok found := by
  induction ps generalizing place with
  | nil => exact hfollow
  | cons part rest ih =>
    have hdir := isDirectory_of_follow_cons hfollow
    rw [follow_cons hdir] at hfollow
    rw [follow_cons (hkeeps.directory place hdir)]
    by_cases hhere : part = "" ∨ part = "."
    · rw [if_pos hhere] at hfollow ⊢
      exact ih hfollow
    rw [if_neg hhere] at hfollow ⊢
    by_cases hup : part = ".."
    · rw [if_pos hup] at hfollow ⊢
      exact ih hfollow
    rw [if_neg hup] at hfollow ⊢
    by_cases hthere : (before.entry? (place ++ [part])).isSome
    · rw [if_pos hthere] at hfollow
      rw [if_pos (hkeeps.present _ hthere)]
      exact ih hfollow
    · rw [if_neg hthere] at hfollow
      cases hfollow

theorem origin (hkeeps : before.Keeps after) (path : String) :
    after.origin path = before.origin path := by
  rw [FileStore.origin, FileStore.origin, hkeeps.workingDirectory]

theorem locate (hkeeps : before.Keeps after)
    (hlocate : before.locate path = .ok found) : after.locate path = .ok found := by
  rw [FileStore.locate] at hlocate ⊢
  split_ifs at hlocate ⊢ with hempty
  rw [hkeeps.origin]
  exact hkeeps.follow hlocate

end Keeps

theorem keeps_put (hplace : place ≠ []) {entry : Entry}
    (hkeep : s.isDirectory place = true → entry = .directory) : s.Keeps (s.put place entry) where
  workingDirectory := put_workingDirectory s place entry
  directory spot hdir := by
    rw [isDirectory_iff, entry?_put s hplace]
    by_cases hspot : spot = place
    · subst hspot
      rw [if_pos rfl, hkeep hdir]
    · rw [if_neg hspot]
      exact isDirectory_iff.mp hdir
  present spot hsome := by
    rw [entry?_put s hplace]
    split
    · exact Eq.refl _
    · exact hsome

/-! ## Following a path -/

theorem ne_empty_of_locate (hlocate : s.locate path = .ok found) : path ≠ "" := by
  rintro rfl
  cases hlocate

theorem follow_append (s : FileStore) (place : Location) (front back : List String) :
    s.follow place (front ++ back) =
      (s.follow place front).bind fun found => s.follow found back := by
  induction front generalizing place with
  | nil => rfl
  | cons part rest ih =>
    simp only [List.cons_append, follow]
    split_ifs <;> first | exact ih _ | rfl

theorem follow_append_ok {front : List String} (hfront : s.follow place front = .ok found)
    (back : List String) : s.follow place (front ++ back) = s.follow found back := by
  rw [follow_append, hfront]
  rfl

theorem follow_filter (hfollow : s.follow place ps = .ok found) :
    s.follow place (ps.filter (· ≠ "")) = .ok found := by
  induction ps generalizing place with
  | nil => exact hfollow
  | cons part rest ih =>
    have hdir := isDirectory_of_follow_cons hfollow
    by_cases hempty : part = ""
    · rw [follow_cons hdir, if_pos (.inl hempty)] at hfollow
      rw [List.filter_cons_of_neg (by simpa using hempty)]
      exact ih hfollow
    · rw [List.filter_cons_of_pos (by simpa using hempty)]
      rw [follow_cons hdir] at hfollow ⊢
      split_ifs at hfollow ⊢ <;> exact ih hfollow

theorem follow_name (hname : Path.IsName part) (hfollow : s.follow place [part] = .ok found) :
    found = place ++ [part] := by
  rw [follow_cons (isDirectory_of_follow_cons hfollow)] at hfollow
  simp only [hname.nonempty, hname.ne_here, hname.ne_up, or_self, if_false] at hfollow
  split_ifs at hfollow
  exact (Except.ok.inj hfollow).symm

theorem follow_up (hdir : s.isDirectory place = true) :
    s.follow place [".."] = .ok place.dropLast := by
  rw [follow_cons hdir]
  rfl

/-- One more part leads on from where the clean parts lead, `done` being these parts, last one
first. -/
theorem follow_pushPart (hstart : rooted = true → start = [])
    (hdone : ∀ p ∈ done, Path.IsName p ∨ p = "..") (hnonempty : part ≠ "")
    (hplace : s.follow start done.reverse = .ok place) (hpart : s.follow place [part] = .ok found) :
    s.follow start (Path.pushPart rooted done part).reverse = .ok found := by
  have hdir := isDirectory_of_follow_cons hpart
  have happend : s.follow start (part :: done).reverse = .ok found := by
    rw [List.reverse_cons, follow_append_ok hplace, hpart]
  unfold Path.pushPart
  by_cases hhere : part = "."
  · have hsame : found = place := by
      simpa [follow, hdir, hhere] using hpart.symm
    rw [if_pos hhere, hplace, hsame]
  rw [if_neg hhere]
  by_cases hup : part = ".."
  · rw [if_pos hup]
    subst hup
    have hfound : found = place.dropLast := Except.ok.inj (hpart.symm.trans (follow_up hdir))
    cases done with
    | nil =>
      cases rooted with
      | true =>
        -- at the root there is nothing above
        have hplace : start = place := Except.ok.inj hplace
        have hempty : place = [] := hplace ▸ hstart rfl
        show Except.ok start = _
        rw [hfound, hplace, hempty]
        rfl
      | false => exact happend
    | cons last rest =>
      by_cases hlast : last = ".."
      · simpa only [if_pos hlast] using happend
      · -- the step up undoes the step into `last`
        have hname : Path.IsName last := (hdone last (.head _)).resolve_right hlast
        rw [List.reverse_cons, follow_append] at hplace
        cases hrest : s.follow start rest.reverse with
        | error fault => rw [hrest] at hplace; cases hplace
        | ok before =>
          rw [hrest] at hplace
          have hstep : place = before ++ [last] := follow_name hname hplace
          simp only [if_neg hlast, hrest, hfound, hstep, List.dropLast_concat]
  · rw [if_neg hup]
    exact happend

theorem follow_foldl_pushPart (hstart : rooted = true → start = [])
    (hps : ∀ p ∈ ps, p ≠ "" ∧ '/' ∉ p.toList) (hdone : ∀ p ∈ done, Path.IsName p ∨ p = "..")
    (hplace : s.follow start done.reverse = .ok place) (hfollow : s.follow place ps = .ok found) :
    s.follow start (ps.foldl (Path.pushPart rooted) done).reverse = .ok found := by
  induction ps generalizing done place with
  | nil => exact hplace.trans hfollow
  | cons part rest ih =>
    obtain ⟨hnonempty, hslash⟩ := hps part (.head _)
    rw [← List.singleton_append, follow_append] at hfollow
    cases hpart : s.follow place [part] with
    | error fault => rw [hpart] at hfollow; cases hfollow
    | ok next =>
      rw [hpart] at hfollow
      exact ih (fun p hp => hps p (.tail _ hp))
        (Path.isName_or_up_of_mem_pushPart hdone hnonempty hslash)
        (follow_pushPart hstart hdone hnonempty hplace hpart) hfollow

/-- The clean parts of a path lead where the path leads. -/
theorem follow_cleanParts (hlocate : s.locate path = .ok found) :
    s.follow (s.origin path) (Path.cleanParts path) = .ok found := by
  rw [locate] at hlocate
  split_ifs at hlocate with hempty
  refine follow_foldl_pushPart (fun hrooted => ?_) (fun _ => Path.of_mem_parts) (by simp) rfl
    (follow_filter hlocate)
  simp [origin, hrooted]

/-! ## Reading and writing files -/

theorem parts_ne_nil_of_read (hread : s.read path = .ok content) : Path.parts path ≠ [] := by
  intro hparts
  cases hlocate : s.locate path with
  | error fault =>
    rw [read, hlocate] at hread
    cases hread
  | ok place =>
    have hroot : place = [] := by
      have hfollow := follow_cleanParts hlocate
      have hrooted := Path.isRooted_of_parts_eq_nil (ne_empty_of_locate hlocate) hparts
      rw [Path.cleanParts, hparts, origin, hrooted] at hfollow
      exact (Except.ok.inj hfollow).symm
    subst hroot
    rw [read, hlocate] at hread
    cases hread

theorem not_isDots (hname : Path.IsName name) : isDots name = false := by
  simp [isDots, hname.nonempty, hname.ne_here, hname.ne_up]

theorem slot_join (hlocate : s.locate directory = .ok folder)
    (hfolder : s.isDirectory folder = true) (hname : Path.IsName name) :
    s.slot (Path.join directory name) (Path.split (Path.join directory name)) =
      .ok (folder, name) := by
  obtain ⟨hrooted, hsplit⟩ := Path.join_name (ne_empty_of_locate hlocate) hname
  have horigin : s.origin (Path.join directory name) = s.origin directory := by
    rw [origin, origin, hrooted]
  have hfollow : s.follow (s.origin directory)
      (if Path.isRooted directory then "" :: Path.cleanParts directory
        else Path.cleanParts directory) = .ok folder := by
    by_cases hroot : Path.isRooted directory = true
    · -- the empty part before the first slash stays at the root
      have hstart : s.isDirectory (s.origin directory) = true := by
        simp [origin, hroot, isDirectory, entry?]
      rw [if_pos hroot, follow_cons hstart, if_pos (.inl rfl)]
      exact follow_cleanParts hlocate
    · rw [if_neg hroot]
      exact follow_cleanParts hlocate
  rw [slot, hsplit, List.getLast?_concat, List.dropLast_concat, horigin]
  show (s.follow _ _ >>= _) = _
  rw [hfollow]
  show (if s.isDirectory folder then _ else _) = _
  rw [if_pos hfolder]
  rfl

/-- Writing a file of a given name into a directory succeeds unless there is a directory of that
name, and puts the file there. -/
theorem write_join (hlocate : s.locate directory = .ok folder)
    (hfolder : s.isDirectory folder = true) (hname : Path.IsName name) (content : Source) :
    s.write (Path.join directory name) content =
      if s.isDirectory (folder ++ [name]) then
        .error ⟨.opening, Path.join directory name, .isDirectory⟩
      else .ok (s.put (folder ++ [name]) (.file content)) := by
  have hpath : Path.join directory name ≠ "" := by
    intro hempty
    have hmem : name ∈ Path.split (Path.join directory name) := by
      rw [(Path.join_name (ne_empty_of_locate hlocate) hname).2]
      exact List.mem_append_right _ (List.mem_singleton_self name)
    rw [hempty] at hmem
    exact hname.nonempty (List.mem_singleton.mp hmem)
  rw [write]
  simp only [if_neg hpath, slot_join hlocate hfolder hname, not_isDots hname, Bool.false_or]

/-! ## Making directories -/

theorem getLast?_beginningsFrom (done text : List Char) :
    (Path.beginningsFrom done text).getLast? = some (done ++ text) := by
  induction text generalizing done with
  | nil => simp [Path.beginningsFrom]
  | cons c rest ih =>
    have hmore := ih (done ++ [c])
    rw [List.append_assoc, List.singleton_append] at hmore
    simp only [Path.beginningsFrom]
    split
    · rw [List.getLast?_cons, hmore]
      rfl
    · exact hmore

theorem follow_empty_parts (hdir : s.isDirectory place = true) (hps : ∀ part ∈ ps, part = "") :
    s.follow place ps = .ok place := by
  induction ps with
  | nil => rfl
  | cons part rest ih =>
    rw [follow_cons hdir, if_pos (.inl (hps part (.head _)))]
    exact ih fun p hp => hps p (.tail _ hp)

theorem of_slot_eq_ok {parent : Location} (hslot : s.slot path ps = .ok (parent, name)) :
    ps = ps.dropLast ++ [name] ∧ s.follow (s.origin path) ps.dropLast = .ok parent ∧
      s.isDirectory parent = true := by
  unfold slot at hslot
  split at hslot
  · cases hslot
  · next last hlast =>
    cases hparent : s.follow (s.origin path) ps.dropLast with
    | error fault => rw [hparent] at hslot; cases hslot
    | ok found =>
      rw [hparent] at hslot
      change (if s.isDirectory found then _ else _) = _ at hslot
      split_ifs at hslot with hdir
      cases hslot
      exact ⟨(List.dropLast_append_getLast? _ hlast).symm, rfl, hdir⟩

theorem of_makeDirectory_eq_ok (hmake : s.makeDirectory path = .ok after) :
    ∃ parent name,
      s.slot path ((Path.split path).reverse.dropWhile (· = "")).reverse = .ok (parent, name) ∧
        isDots name = false ∧ after = s.put (parent ++ [name]) .directory := by
  unfold makeDirectory at hmake
  dsimp only at hmake
  split_ifs at hmake
  cases hslot : s.slot path ((Path.split path).reverse.dropWhile (· = "")).reverse with
  | error fault => rw [hslot] at hmake; cases hmake
  | ok target =>
    obtain ⟨parent, name⟩ := target
    rw [hslot] at hmake
    refine ⟨parent, name, rfl, ?_⟩
    by_cases hpresent : (isDots name || (s.entry? (parent ++ [name])).isSome) = true
    · simp only [bind, Except.bind, if_pos hpresent] at hmake
      cases hmake
    · simp only [bind, Except.bind, if_neg hpresent] at hmake
      refine ⟨?_, (Except.ok.inj hmake).symm⟩
      simp only [Bool.or_eq_true, not_or] at hpresent
      exact Bool.eq_false_iff.mpr hpresent.1

theorem find?_of_makeDirectory (hmake : s.makeDirectory path = .ok after) :
    after.find? path = some .directory := by
  obtain ⟨parent, name, hslot, hdots, rfl⟩ := of_makeDirectory_eq_ok hmake
  obtain ⟨hname, hfront, hdir⟩ := of_slot_eq_ok hslot
  set front := ((Path.split path).reverse.dropWhile (· = "")).reverse.dropLast
  -- the path is its parts up to the last name, and the empty parts after it
  have hcut : Path.split path =
      front ++ (name :: ((Path.split path).reverse.takeWhile (· = "")).reverse) := by
    have hback := congrArg List.reverse
      (List.takeWhile_append_dropWhile (p := (· = "")) (l := (Path.split path).reverse))
    rw [List.reverse_append, List.reverse_reverse, hname, List.append_assoc] at hback
    exact hback.symm
  have hblank : ∀ part ∈ ((Path.split path).reverse.takeWhile (· = "")).reverse, part = "" := by
    intro part hpart
    have hdecide := List.mem_takeWhile_imp (List.mem_reverse.mp hpart)
    exact of_decide_eq_true hdecide
  have hplace : parent ++ [name] ≠ [] := by simp
  have hkeeps : s.Keeps (s.put (parent ++ [name]) .directory) := keeps_put hplace fun _ => rfl
  have hentry : FileStore.entry? (s.put (parent ++ [name]) .directory) (parent ++ [name]) =
      some .directory := by
    rw [entry?_put s hplace, if_pos rfl]
  have hpath : path ≠ "" := by
    rintro rfl
    cases hmake
  have hlocate : (s.put (parent ++ [name]) .directory).locate path = .ok (parent ++ [name]) := by
    simp only [isDots, Bool.or_eq_false_iff, decide_eq_false_iff_not] at hdots
    obtain ⟨⟨hempty, hhere⟩, hup⟩ := hdots
    rw [locate, if_neg hpath, hkeeps.origin, hcut, follow_append_ok (hkeeps.follow hfront),
      follow_cons (hkeeps.directory parent hdir), if_neg (not_or.mpr ⟨hempty, hhere⟩), if_neg hup,
      if_pos (by rw [hentry]; rfl)]
    exact follow_empty_parts (isDirectory_iff.mpr hentry) hblank
  rw [find?, hlocate]
  exact hentry

theorem find?_of_ensureDirectory (hensure : s.ensureDirectory path = .ok after) :
    after.find? path = some .directory := by
  unfold ensureDirectory at hensure
  split at hensure
  · next hfound => exact Except.ok.inj hensure ▸ hfound
  · cases hensure
  · split at hensure
    · next hmake => exact Except.ok.inj hensure ▸ find?_of_makeDirectory hmake
    · split_ifs at hensure with hfound
      exact Except.ok.inj hensure ▸ hfound

/-- Directories that were made are there: the path leads to one. -/
theorem locate_of_makeDirectories {made : FileStore}
    (hmade : s.makeDirectories path = (made, none)) :
    ∃ folder, made.locate path = .ok folder ∧ made.isDirectory folder = true := by
  have hlast : (Path.beginnings path).getLast? = some path := by
    simp [Path.beginnings, List.getLast?_map, getLast?_beginningsFrom]
  rw [makeDirectories, ← List.dropLast_append_getLast? _ hlast, List.foldl_concat] at hmade
  have hfound : made.find? path = some .directory := by
    generalize List.foldl _ _ _ = before at hmade
    obtain ⟨before, error⟩ := before
    cases error with
    | some e => cases hmade
    | none =>
      dsimp only at hmade
      split at hmade
      · next hensure => exact (Prod.mk.inj hmade).1 ▸ find?_of_ensureDirectory hensure
      · cases hmade
  unfold find? at hfound
  split at hfound
  · next folder hlocate => exact ⟨folder, hlocate, isDirectory_iff.mpr hfound⟩
  · cases hfound

end Shader.FileStore
