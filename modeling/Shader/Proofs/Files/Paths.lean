import Mathlib.Data.List.Basic
import Shader.Path

/-!
# The parts of a path

Cutting at the slashes undoes joining with slashes, so a path that is put together from parts has
these parts. Cleaning keeps two kinds of parts: names, and the step up `..`.
-/

namespace Shader.Path

variable {directory name part path : String} {done ps : List String} {rooted : Bool}

theorem exists_toList_eq_cons {text : String} (htext : text ≠ "") :
    ∃ c rest, text.toList = c :: rest := by
  apply List.exists_cons_of_ne_nil
  simpa using htext

/-! ## Cutting at the slashes -/

theorem slash_not_mem_of_mem_splitOn (text : List Char) :
    ∀ part ∈ text.splitOn '/', '/' ∉ part := by
  induction text with
  | nil => simp
  | cons c rest ih =>
    intro part hpart
    rw [List.splitOn_cons_eq_if_modifyHead] at hpart
    by_cases hslash : c = '/'
    · simp only [hslash, beq_self_eq_true, if_true, List.mem_cons] at hpart
      rcases hpart with rfl | hrest
      · exact List.not_mem_nil
      · exact ih part hrest
    · -- the character joins the first part of the rest
      obtain ⟨first, others, hcut⟩ := List.exists_cons_of_ne_nil (List.splitOn_ne_nil '/' rest)
      rw [hcut] at hpart ih
      simp only [beq_iff_eq, hslash, if_false, List.modifyHead_cons, List.mem_cons] at hpart
      rcases hpart with rfl | hothers
      · have hfirst := ih first (.head _)
        simp only [List.mem_cons, not_or]
        exact ⟨fun h => hslash h.symm, hfirst⟩
      · exact ih part (.tail _ hothers)

theorem slash_not_mem_of_mem_split (hpart : part ∈ split path) : '/' ∉ part.toList := by
  obtain ⟨chars, hchars, rfl⟩ := List.mem_map.mp hpart
  rw [String.toList_ofList]
  exact slash_not_mem_of_mem_splitOn path.toList chars hchars

theorem split_append_slash (front back : String) :
    split (front ++ "/" ++ back) = split front ++ split back := by
  have htext : (front ++ "/" ++ back).toList = front.toList ++ '/' :: back.toList := by
    simp [String.toList_append]
  rw [split, htext, List.splitOn_append_cons_self, List.map_append]
  rfl

theorem split_intercalate (hsome : ps ≠ []) (hslash : ∀ part ∈ ps, '/' ∉ part.toList) :
    split ("/".intercalate ps) = ps := by
  have hcut : List.splitOn '/' (['/'].intercalate (ps.map String.toList)) =
      ps.map String.toList := by
    apply List.splitOn_intercalate
    · intro chars hchars
      obtain ⟨part, hpart, rfl⟩ := List.mem_map.mp hchars
      exact hslash part hpart
    · simpa using hsome
  have hback : String.ofList ∘ String.toList = id := funext fun _ => String.ofList_toList
  rw [split, String.toList_intercalate]
  show (List.splitOn '/' (['/'].intercalate _)).map String.ofList = ps
  rw [hcut, List.map_map, hback, List.map_id]

theorem split_of_slash_not_mem (hslash : '/' ∉ part.toList) : split part = [part] := by
  rw [split, List.splitOn_eq_singleton hslash, List.map_singleton, String.ofList_toList]

theorem isRooted_of_parts_eq_nil (hpath : path ≠ "") (hparts : parts path = []) :
    isRooted path = true := by
  obtain ⟨c, rest, htext⟩ := exists_toList_eq_cons hpath
  by_contra hrooted
  have hslash : c ≠ '/' := by simpa [isRooted, htext] using hrooted
  obtain ⟨first, others, hcut⟩ := List.exists_cons_of_ne_nil (List.splitOn_ne_nil '/' rest)
  have hfirst : String.ofList (c :: first) ∈ split path := by
    simp [split, htext, List.splitOn_cons_eq_if_modifyHead, hslash, hcut]
  have hempty := List.filter_eq_nil_iff.mp hparts _ hfirst
  simp at hempty

/-! ## Names -/

/-- A part that names an entry of a directory. -/
structure IsName (part : String) : Prop where
  nonempty : part ≠ ""
  ne_here : part ≠ "."
  ne_up : part ≠ ".."
  noSlash : '/' ∉ part.toList

theorem isName_or_up_of_mem_pushPart (hdone : ∀ p ∈ done, IsName p ∨ p = "..")
    (hnonempty : part ≠ "") (hslash : '/' ∉ part.toList) :
    ∀ p ∈ pushPart rooted done part, IsName p ∨ p = ".." := by
  intro p hp
  unfold pushPart at hp
  by_cases hhere : part = "."
  · rw [if_pos hhere] at hp
    exact hdone p hp
  rw [if_neg hhere] at hp
  by_cases hup : part = ".."
  · rw [if_pos hup] at hp
    cases done with
    | nil =>
      cases rooted with
      | true => exact absurd hp List.not_mem_nil
      | false => exact .inr (List.mem_singleton.mp hp)
    | cons last rest =>
      by_cases hlast : last = ".."
      · rcases List.mem_cons.mp (by simpa only [if_pos hlast] using hp) with h | h
        · exact .inr h
        · exact hdone p h
      · exact hdone p (List.mem_cons_of_mem _ (by simpa only [if_neg hlast] using hp))
  · rw [if_neg hup] at hp
    rcases List.mem_cons.mp hp with rfl | h
    · exact .inl ⟨hnonempty, hhere, hup, hslash⟩
    · exact hdone p h

theorem isName_or_up_of_mem_foldl (hps : ∀ p ∈ ps, p ≠ "" ∧ '/' ∉ p.toList)
    (hdone : ∀ p ∈ done, IsName p ∨ p = "..") :
    ∀ p ∈ ps.foldl (pushPart rooted) done, IsName p ∨ p = ".." := by
  induction ps generalizing done with
  | nil => exact hdone
  | cons part rest ih =>
    obtain ⟨hnonempty, hslash⟩ := hps part (.head _)
    exact ih (fun p hp => hps p (.tail _ hp))
      (isName_or_up_of_mem_pushPart hdone hnonempty hslash)

theorem of_mem_parts (hpart : part ∈ parts path) : part ≠ "" ∧ '/' ∉ part.toList := by
  obtain ⟨hsplit, hnonempty⟩ := List.mem_filter.mp hpart
  exact ⟨of_decide_eq_true hnonempty, slash_not_mem_of_mem_split hsplit⟩

/-- A clean path has only names and steps up. -/
theorem isName_or_up_of_mem_cleanParts (hpart : part ∈ cleanParts path) :
    IsName part ∨ part = ".." :=
  isName_or_up_of_mem_foldl (fun _ => of_mem_parts) (by simp) part (List.mem_reverse.mp hpart)

/-! ## Paths made of parts -/

theorem split_ofParts (hsome : ps ≠ []) (hslash : ∀ part ∈ ps, '/' ∉ part.toList) :
    split (ofParts rooted ps) = if rooted then "" :: ps else ps := by
  cases rooted with
  | true =>
    have htext : ofParts true ps = "" ++ "/" ++ "/".intercalate ps := by simp [ofParts]
    rw [htext, split_append_slash, split_intercalate hsome hslash]
    rfl
  | false =>
    have htext : ofParts false ps = "/".intercalate ps := by simp [ofParts, hsome]
    rw [htext, split_intercalate hsome hslash]
    rfl

theorem isRooted_ofParts (hsome : ps ≠ []) (hps : ∀ part ∈ ps, part ≠ "" ∧ '/' ∉ part.toList) :
    isRooted (ofParts rooted ps) = rooted := by
  cases rooted with
  | true => simp [isRooted, ofParts, String.toList_append]
  | false =>
    obtain ⟨first, rest, rfl⟩ := List.exists_cons_of_ne_nil hsome
    obtain ⟨hnonempty, hslash⟩ := hps first (.head _)
    obtain ⟨c, chars, hfirst⟩ := exists_toList_eq_cons hnonempty
    have hhead : (ofParts false (first :: rest)).toList.head? = some c := by
      cases rest <;> simp [ofParts, String.toList_intercalate, hfirst, List.intercalate]
    have hc : c ≠ '/' := by
      rintro rfl
      exact hslash (by simp [hfirst])
    simp [isRooted, hhead, hc]

theorem isRooted_append_name (hdirectory : directory ≠ "") (name : String) :
    isRooted (directory ++ "/" ++ name) = isRooted directory := by
  obtain ⟨c, rest, htext⟩ := exists_toList_eq_cons hdirectory
  simp [isRooted, String.toList_append, htext]

theorem cleanParts_append_name (hdirectory : directory ≠ "") (hname : IsName name) :
    cleanParts (directory ++ "/" ++ name) = cleanParts directory ++ [name] := by
  have hparts : parts (directory ++ "/" ++ name) = parts directory ++ [name] := by
    rw [parts, split_append_slash, split_of_slash_not_mem hname.noSlash, List.filter_append]
    simp [parts, hname.nonempty]
  rw [cleanParts, isRooted_append_name hdirectory, hparts, List.foldl_append]
  simp [cleanParts, pushPart, hname.ne_here, hname.ne_up]

/-- The path of a name below a directory has the parts of the directory, and then the name. -/
theorem join_name (hdirectory : directory ≠ "") (hname : IsName name) :
    isRooted (join directory name) = isRooted directory ∧
      split (join directory name) =
        (if isRooted directory then "" :: cleanParts directory else cleanParts directory) ++
          [name] := by
  have hjoin : join directory name =
      ofParts (isRooted directory) (cleanParts directory ++ [name]) := by
    rw [join, if_neg hdirectory, clean, isRooted_append_name hdirectory,
      cleanParts_append_name hdirectory hname]
  have hps : ∀ part ∈ cleanParts directory ++ [name], part ≠ "" ∧ '/' ∉ part.toList := by
    intro part hpart
    have hkind : IsName part ∨ part = ".." := by
      rcases List.mem_append.mp hpart with h | h
      · exact isName_or_up_of_mem_cleanParts h
      · exact .inl (List.mem_singleton.mp h ▸ hname)
    rcases hkind with h | rfl
    · exact ⟨h.nonempty, h.noSlash⟩
    · decide
  have hsome : cleanParts directory ++ [name] ≠ [] := by simp
  rw [hjoin]
  refine ⟨isRooted_ofParts hsome hps, ?_⟩
  rw [split_ofParts hsome fun part hpart => (hps part hpart).2]
  split <;> rfl

/-! ## The stem -/

theorem slash_not_mem_stem (hparts : parts path ≠ []) : '/' ∉ (stem path).toList := by
  have hbase : '/' ∉ (base path).toList := by
    have hlast : (parts path).getLast? = some ((parts path).getLast hparts) :=
      List.getLast?_eq_some_getLast hparts
    rw [base, hlast]
    exact (of_mem_parts (List.getLast_mem hparts)).2
  unfold stem
  dsimp only
  split
  · rw [String.toList_ofList]
    exact fun h => hbase (List.mem_of_mem_take h)
  · exact hbase

end Shader.Path
