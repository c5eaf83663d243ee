import Shader.Proofs.CommandLine.Schedule
import Shader.Proofs.Files.Store
import Shader.Proofs.Settings.Resources

/-!
# Where the results go

With several inputs and a directory to write to, each result goes to a file that is named after the
last part of the path of its input. Inputs from different directories may so have one file, and
then the last of them has it.
-/

namespace Shader.CommandLine

variable {input other text : String} {store : FileStore} {pairs : List (String × String)}

/-! ## The file of an input -/

def resultName (input : String) : String := Path.stem input ++ ".glsl"

theorem resultName_eq_iff :
    resultName input = resultName other ↔ Path.stem input = Path.stem other := by
  rw [resultName, resultName, ← String.toList_inj, ← String.toList_inj, String.toList_append,
    String.toList_append, List.append_left_inj]

theorem isName_resultName (hparts : Path.parts input ≠ []) : Path.IsName (resultName input) := by
  have hlong (short : String) (hshort : short.toList.length < 5) : resultName input ≠ short := by
    rintro rfl
    rw [resultName, String.toList_append, List.length_append] at hshort
    exact absurd hshort (Nat.not_lt.mpr (Nat.le_add_left 5 _))
  refine ⟨hlong "" (by decide), hlong "." (by decide), hlong ".." (by decide), ?_⟩
  rw [resultName, String.toList_append, List.mem_append, not_or]
  exact ⟨Path.slash_not_mem_stem hparts, by decide⟩

theorem parts_ne_nil_of_compileFile {choices : Choices} {options : Compile.CompileOptions}
    (hcompile : compileFile store choices options input = .ok text) : Path.parts input ≠ [] := by
  cases hread : store.read input with
  | error e =>
    rw [compileFile, hread] at hcompile
    cases hcompile
  | ok source => exact FileStore.parts_ne_nil_of_read hread

/-! ## Writing one result after the other -/

/-- What is written last to a place, the results of the inputs being written into a directory. -/
def lastWritten (folder : Location) (pairs : List (String × String)) (spot : Location) :
    Option Entry :=
  (pairs.reverse.find? fun pair => folder ++ [resultName pair.1] = spot).map fun pair =>
    .file (Source.ofString pair.2)

theorem lastWritten_cons (folder : Location) (pair : String × String)
    (rest : List (String × String)) (spot : Location) :
    lastWritten folder (pair :: rest) spot =
      (lastWritten folder rest spot).or
        (if spot = folder ++ [resultName pair.1] then some (.file (Source.ofString pair.2))
        else none) := by
  unfold lastWritten
  rw [List.reverse_cons, List.find?_append, Option.map_or]
  by_cases hspot : folder ++ [resultName pair.1] = spot
  · simp [hspot]
  · simp [hspot, Ne.symm hspot]

theorem lastWritten_of_mem (folder : Location) {pair : String × String} (hpair : pair ∈ pairs) :
    ∃ other ∈ pairs, resultName other.1 = resultName pair.1 ∧
      lastWritten folder pairs (folder ++ [resultName pair.1]) =
        some (.file (Source.ofString other.2)) := by
  unfold lastWritten
  cases hfind : pairs.reverse.find? fun other =>
      folder ++ [resultName other.1] = folder ++ [resultName pair.1] with
  | none =>
    have hnone := List.find?_eq_none.mp hfind pair (List.mem_reverse.mpr hpair)
    simp at hnone
  | some other =>
    have hplace : folder ++ [resultName other.1] = folder ++ [resultName pair.1] := by
      simpa using List.find?_some hfind
    refine ⟨other, List.mem_reverse.mp (List.mem_of_find?_eq_some hfind), ?_, rfl⟩
    exact List.singleton_inj.mp (List.append_cancel_left hplace)

section Writing

variable {place : String} {folder : Location} {pairs : List (String × String)}

/-- Results are written into a directory one after the other, if no directory is in the way; then
every place has what was written to it last, or what it had. -/
theorem writeFiles_latest (hlocate : store.locate place = .ok folder)
    (hfolder : store.isDirectory folder = true)
    (hnames : ∀ pair ∈ pairs, Path.IsName (resultName pair.1))
    (hfree : ∀ pair ∈ pairs, ¬ store.isDirectory (folder ++ [resultName pair.1])) :
    ∃ after, writeFiles store (pairs.map fun pair => (resultPath place pair.1, pair.2)) =
        (after, none) ∧ store.Keeps after ∧
      ∀ spot, after.entry? spot = (lastWritten folder pairs spot).or (store.entry? spot) := by
  induction pairs generalizing store with
  | nil => exact ⟨store, rfl, .rfl, fun _ => rfl⟩
  | cons pair rest ih =>
    have hspot : folder ++ [resultName pair.1] ≠ [] := by simp
    have hthis := hfree pair (.head _)
    have hkeeps : store.Keeps (store.put (folder ++ [resultName pair.1])
        (.file (Source.ofString pair.2))) := FileStore.keeps_put hspot fun h => absurd h hthis
    have hwrite : store.write (resultPath place pair.1) (Source.ofString pair.2) =
        .ok (store.put (folder ++ [resultName pair.1]) (.file (Source.ofString pair.2))) := by
      rw [resultPath, ← resultName,
        FileStore.write_join hlocate hfolder (hnames pair (.head _)), if_neg hthis]
    obtain ⟨after, hrun, hafter, hentries⟩ := ih (hkeeps.locate hlocate)
      (hkeeps.directory folder hfolder)
      (fun other hother => hnames other (.tail _ hother))
      (fun other hother => by
        rw [FileStore.isDirectory_put_file hspot hthis]
        exact hfree other (.tail _ hother))
    refine ⟨after, ?_, hkeeps.trans hafter, fun spot => ?_⟩
    · rw [List.map_cons, writeFiles, hwrite]
      exact hrun
    · rw [hentries, lastWritten_cons, Option.or_assoc, FileStore.entry?_put store hspot]
      by_cases hplace : spot = folder ++ [resultName pair.1]
      · simp [hplace]
      · simp [hplace]

theorem writeFiles_blocked (hlocate : store.locate place = .ok folder)
    (hfolder : store.isDirectory folder = true)
    (hnames : ∀ pair ∈ pairs, Path.IsName (resultName pair.1))
    (hblocked : ∃ pair ∈ pairs, store.isDirectory (folder ++ [resultName pair.1])) :
    (writeFiles store (pairs.map fun pair => (resultPath place pair.1, pair.2))).2 ≠ none := by
  induction pairs generalizing store with
  | nil =>
    obtain ⟨pair, hpair, -⟩ := hblocked
    cases hpair
  | cons pair rest ih =>
    have hwrite := FileStore.write_join hlocate hfolder (hnames pair (.head _))
      (Source.ofString pair.2)
    rw [List.map_cons, writeFiles, resultPath, ← resultName, hwrite]
    by_cases hthis : store.isDirectory (folder ++ [resultName pair.1])
    · rw [if_pos hthis]
      exact Option.some_ne_none _
    · rw [if_neg hthis]
      have hspot : folder ++ [resultName pair.1] ≠ [] := by simp
      have hkeeps : store.Keeps (store.put (folder ++ [resultName pair.1])
          (.file (Source.ofString pair.2))) := FileStore.keeps_put hspot fun h => absurd h hthis
      apply ih (hkeeps.locate hlocate) (hkeeps.directory folder hfolder)
        (fun other hother => hnames other (.tail _ hother))
      obtain ⟨other, hother, hdir⟩ := hblocked
      rcases List.mem_cons.mp hother with rfl | hrest
      · exact absurd hdir hthis
      · exact ⟨other, hrest, by rwa [FileStore.isDirectory_put_file hspot hthis]⟩

end Writing

/-! ## Compiling a program of the grammar -/

theorem loadProgram_of_words {path : String} {source : Source} {scope : Program.Scope}
    (hpath : ".json".toList.isSuffixOf path.toList = false)
    (hwords : (words source).toOption = some scope.tokens) (hprogram : scope.IsProgram) :
    loadProgram path source = .ok scope := by
  cases hsource : words source with
  | error e => rw [hsource] at hwords; cases hwords
  | ok tokens =>
    rw [hsource] at hwords
    cases hwords
    simp only [loadProgram, hpath, Compile.loadText, hsource, Compile.loadTokens,
      Program.parse_tokens hprogram]
    rfl

/-- A program of the grammar is compiled if it has at most one function named `main`, its names
can be resolved and its shader can be written; here with settings that say nothing. -/
theorem compileFile_of_generate {store : FileStore} {choices : Choices} {path : String}
    {source : Source} {scope : Program.Scope} {tree : Arena.Tree} {glsl : Glsl.Options}
    {shader : Glsl.Output} (hpath : ".json".toList.isSuffixOf path.toList = false)
    (houtline : choices.outline = false) (hread : store.read path = .ok source)
    (hwords : (words source).toOption = some scope.tokens) (hprogram : scope.IsProgram)
    (hmain : scope.children.countP Compile.isMain ≤ 1)
    (hresolve : Resolution.resolve (some scope) scope.table = .ok tree)
    (hgenerate : Glsl.generate (some tree) glsl = .ok shader) :
    compileFile store choices { Compile.CompileOptions.plain glsl with
      beforeResolve := some (resourceTransform (some .empty)) } path = .ok shader.text := by
  have hbefore : Compile.beforeResolution { Compile.CompileOptions.plain glsl with
      beforeResolve := some (resourceTransform (some .empty)) } scope = .ok scope := by
    rw [Compile.beforeResolution_resources rfl hprogram.1, if_pos hmain]
    show Except.ok (scope.append []) = _
    rw [Program.Scope.append, List.append_nil]
  have hcompile : Compile.compileScope (some scope) scope.table
      { Compile.CompileOptions.plain glsl with
        beforeResolve := some (resourceTransform (some .empty)) } = .ok shader.text := by
    rw [Compile.compileScope, hbefore]
    exact Compile.compileScope_plain hresolve hgenerate
  simp only [compileFile, hread, loadProgram_of_words hpath hwords hprogram, houtline, hcompile]
  rfl

/-- A store with a program in each of two directories: a function that does nothing, and one that
returns at once. -/
def twoPrograms (name other : String) : FileStore where
  workingDirectory := []
  entries :=
    [(["a"], .directory), (["b"], .directory),
      (["a", name], .file (Source.ofString "main: fn () -> void \x7b\x7d")),
      (["b", other], .file (Source.ofString "main: fn () -> void \x7b return; \x7d"))]

def intoOut : Choices := { Choices.default with output := "out" }

theorem compileFile_two_programs {store : FileStore} {path other : String}
    (hpath : ".json".toList.isSuffixOf path.toList = false)
    (hother : ".json".toList.isSuffixOf other.toList = false)
    (hread : store.read path = .ok (Source.ofString "main: fn () -> void \x7b\x7d"))
    (hreadOther : store.read other =
      .ok (Source.ofString "main: fn () -> void \x7b return; \x7d")) :
    ∃ options first second, compileOptions false intoOut .empty = .ok options ∧
      [path, other].mapM (compileFile store intoOut options) = .ok [first, second] ∧
      first ≠ second ∧ first ≠ "main: fn () -> void \x7b\x7d" ∧
      first ≠ "main: fn () -> void \x7b return; \x7d" := by
  let glsl : Glsl.Options := { Glsl.Options.default with minify := true }
  let options : Compile.CompileOptions := { Compile.CompileOptions.plain glsl with
    beforeResolve := some (resourceTransform (some .empty)) }
  let t : Arena.Tree := ⟨#[.scope "root" [some 2], .struct ⟨"void", none, [], []⟩,
    .function ⟨"main", [], some 1, [], []⟩]⟩
  let u : Arena.Tree := ⟨#[.scope "root" [some 3], .struct ⟨"void", none, [], []⟩, .ret none,
    .function ⟨"main", [], some 1, [some 2], []⟩]⟩
  obtain ⟨shader, hshader⟩ : Glsl.Succeeds (Glsl.generate (some t) glsl) :=
    Glsl.succeeds_of_isSome (by decide +kernel)
  obtain ⟨shaderOther, hshaderOther⟩ : Glsl.Succeeds (Glsl.generate (some u) glsl) :=
    Glsl.succeeds_of_isSome (by decide +kernel)
  have hfirst := @compileFile_of_generate store intoOut path _
    (.root [.function "main" [] "void" [] []]) t glsl shader hpath rfl hread (by decide +kernel)
    (Program.isProgram_function (by decide) (by decide) (List.forall_mem_nil _)) (by decide)
    (Resolution.resolve_of_evaluate 9 (by decide +kernel))
    hshader
  have hsecond := @compileFile_of_generate store intoOut other _
    (.root [.function "main" [] "void" [.ret none] []]) u glsl shaderOther hother rfl hreadOther
    (by decide +kernel)
    (Program.isProgram_function (by decide) (by decide) (List.forall_mem_singleton.mpr .leave))
    (by decide)
    (Resolution.resolve_of_evaluate 9 (by decide +kernel))
    hshaderOther
  have htexts : (Glsl.generate (some t) glsl).toOption.map (·.text) ∉
      [(Glsl.generate (some u) glsl).toOption.map (·.text), some "main: fn () -> void \x7b\x7d",
        some "main: fn () -> void \x7b return; \x7d"] := by
    decide +kernel
  rw [hshader, hshaderOther] at htexts
  refine ⟨options, shader.text, shaderOther.text, rfl, ?_, ?_⟩
  · rw [List.mapM_cons, hfirst, List.mapM_cons, hsecond]
    rfl
  · simpa [Except.toOption] using htexts

/-! ## All results -/

theorem ofString_inj (h : Source.ofString text = Source.ofString other) : text = other := by
  have hchars := List.map_injective_iff.mpr (fun _ _ => Symbol.char.inj) h
  exact String.toList_inj.mp hchars

/-- If every result is in the file of its input, inputs with one file have one result; and the
other way round. -/
theorem kept_iff_of_lastWritten {after made : FileStore} {folder : Location}
    (hafter : ∀ spot, after.entry? spot = (lastWritten folder pairs spot).or (made.entry? spot)) :
    (∀ pair ∈ pairs, after.entry? (folder ++ [resultName pair.1]) =
        some (.file (Source.ofString pair.2))) ↔
      ∀ pair ∈ pairs, ∀ other ∈ pairs, Path.stem pair.1 = Path.stem other.1 → pair.2 = other.2 := by
  constructor
  · intro hkept pair hpair other hother hstem
    have hsame := hkept other hother
    rw [← resultName_eq_iff.mpr hstem, hkept pair hpair] at hsame
    exact ofString_inj (Entry.file.inj (Option.some.inj hsame))
  · intro hsame pair hpair
    obtain ⟨other, hother, hname, hlast⟩ := lastWritten_of_mem folder hpair
    rw [hafter, hlast, hsame other hother pair hpair (resultName_eq_iff.mp hname)]
    rfl

section Results

variable {store made : FileStore} {choices : Choices} {options : Compile.CompileOptions}
  {place : String} {folder : Location} {inputs results : List String}

theorem isName_of_compiled
    (hcompile : inputs.mapM (compileFile store choices options) = .ok results) :
    ∀ pair ∈ inputs.zip results, Path.IsName (resultName pair.1) := by
  obtain ⟨-, hcompiled⟩ := List.forall₂_iff_zip.mp (forall₂_of_mapM hcompile)
  exact fun pair hpair => isName_resultName (parts_ne_nil_of_compileFile (hcompiled hpair))

theorem writeResults_eq_writeFiles (hmany : 2 ≤ inputs.length) (hplace : place ≠ "")
    (hmade : store.makeDirectories place = (made, none)) :
    writeResults store place inputs results =
      ("", writeFiles made
        ((inputs.zip results).map fun pair => (resultPath place pair.1, pair.2))) := by
  have hone : inputs.length ≠ 1 := by omega
  rw [writeResults, if_neg hplace, if_neg (by simp [hone]), hmade, List.zip_map_left]
  rfl

theorem writeResults_latest
    (hcompile : inputs.mapM (compileFile store choices options) = .ok results)
    (hmany : 2 ≤ inputs.length) (hmade : store.makeDirectories place = (made, none))
    (hlocate : made.locate place = .ok folder) (hfolder : made.isDirectory folder = true)
    (hfree : ∀ input ∈ inputs, ¬ made.isDirectory (folder ++ [resultName input])) :
    ∃ after, writeResults store place inputs results = ("", after, none) ∧ made.Keeps after ∧
      ∀ spot, after.entry? spot =
        (lastWritten folder (inputs.zip results) spot).or (made.entry? spot) := by
  have hplace := FileStore.ne_empty_of_locate hlocate
  obtain ⟨after, hrun, hkeeps, hentries⟩ :=
    writeFiles_latest hlocate hfolder (isName_of_compiled hcompile) fun pair hpair =>
      hfree pair.1 (List.of_mem_zip hpair).1
  exact ⟨after, by rw [writeResults_eq_writeFiles hmany hplace hmade, hrun], hkeeps, hentries⟩

end Results

/-- The results of several inputs that were compiled are written into a directory, unless a
directory is in the way of one of them, which is reported. Each file then has the last result that
was written to it, and everything else is as it was. So every result is kept if and only if inputs
whose paths have the same stem have the same result. -/
theorem writeResults_kept_iff {store made : FileStore} {choices : Choices}
    {options : Compile.CompileOptions} {place : String} {inputs results : List String}
    (hcompile : inputs.mapM (compileFile store choices options) = .ok results)
    (hmany : 2 ≤ inputs.length) (hmade : store.makeDirectories place = (made, none)) :
    ∃ folder, made.locate place = .ok folder ∧ made.isDirectory folder = true ∧
      ((∃ input ∈ inputs, made.isDirectory (folder ++ [resultName input])) →
        (writeResults store place inputs results).2.2 ≠ none) ∧
      ((∀ input ∈ inputs, ¬ made.isDirectory (folder ++ [resultName input])) →
        ∃ after, writeResults store place inputs results = ("", after, none) ∧
          after.locate place = .ok folder ∧
          (∀ spot, after.entry? spot =
            (lastWritten folder (inputs.zip results) spot).or (made.entry? spot)) ∧
          ((∀ pair ∈ inputs.zip results, after.entry? (folder ++ [resultName pair.1]) =
              some (.file (Source.ofString pair.2))) ↔
            ∀ pair ∈ inputs.zip results, ∀ other ∈ inputs.zip results,
              Path.stem pair.1 = Path.stem other.1 → pair.2 = other.2)) := by
  obtain ⟨folder, hlocate, hfolder⟩ := FileStore.locate_of_makeDirectories hmade
  refine ⟨folder, hlocate, hfolder, ?_, ?_⟩
  · rintro ⟨input, hinput, hdir⟩
    obtain ⟨text, hpair, -⟩ := exists_result_of_mem hcompile hinput
    rw [writeResults_eq_writeFiles hmany (FileStore.ne_empty_of_locate hlocate) hmade]
    exact writeFiles_blocked hlocate hfolder (isName_of_compiled hcompile)
      ⟨(input, text), hpair, hdir⟩
  · intro hfree
    obtain ⟨after, hwrite, hkeeps, hentries⟩ :=
      writeResults_latest hcompile hmany hmade hlocate hfolder hfree
    exact ⟨after, hwrite, hkeeps.locate hlocate, hentries, kept_iff_of_lastWritten hentries⟩

/-- Inputs with different stems keep their results. -/
theorem writeResults_kept_iff_sample :
    let store := twoPrograms "x.besl" "y.besl"
    let inputs := ["a/x.besl", "b/y.besl"]
    ∃ options made first second after,
      inputs.mapM (compileFile store intoOut options) = .ok [first, second] ∧
      2 ≤ inputs.length ∧ store.makeDirectories "out" = (made, none) ∧
      first ≠ second ∧ writeResults store "out" inputs [first, second] = ("", after, none) ∧
      after.entry? ["out", "x.glsl"] = some (.file (Source.ofString first)) ∧
      after.entry? ["out", "y.glsl"] = some (.file (Source.ofString second)) := by
  intro store inputs
  obtain ⟨options, first, second, -, hcompile, hdiffer, -⟩ :=
    @compileFile_two_programs store "a/x.besl" "b/y.besl" (by decide) (by decide) rfl rfl
  let made := store.put ["out"] .directory
  have hmade : store.makeDirectories "out" = (made, none) := by decide +kernel
  obtain ⟨folder, hlocate, -, -, hwritten⟩ :=
    writeResults_kept_iff hcompile (by decide) hmade
  have hfolder : folder = ["out"] := Except.ok.inj (hlocate.symm.trans rfl)
  subst hfolder
  obtain ⟨after, hwrite, -, -, hkept⟩ := hwritten (by decide +kernel)
  have hstems : ∀ pair ∈ inputs.zip [first, second], ∀ other ∈ inputs.zip [first, second],
      Path.stem pair.1 = Path.stem other.1 → pair.2 = other.2 := by
    have hne : Path.stem "a/x.besl" ≠ Path.stem "b/y.besl" := by decide
    simp [inputs, hne, hne.symm]
  have hx : resultName "a/x.besl" = "x.glsl" := by decide
  have hy : resultName "b/y.besl" = "y.glsl" := by decide
  have hfiles := hkept.2 hstems
  refine ⟨options, made, first, second, after, hcompile, by decide, hmade, hdiffer, hwrite,
    ?_, ?_⟩
  · simpa [hx] using hfiles ("a/x.besl", first) (by simp)
  · simpa [hy] using hfiles ("b/y.besl", second) (by simp)

/-- Two inputs with the same stem, which have different results. The run succeeds, and the result
of the first is nowhere. -/
theorem run_overwrites_result :
    let store := twoPrograms "x.besl" "x.besl"
    let arguments := ["-o", "out", "a/x.besl", "b/x.besl"]
    let inputs := ["a/x.besl", "b/x.besl"]
    inputs.Nodup ∧ ∃ options first second,
      Reaches false store arguments intoOut inputs options ∧
      inputs.mapM (compileFile store intoOut options) = .ok [first, second] ∧
      (run false store arguments).exit = 0 ∧
      ∀ spot, FileStore.entry? (run false store arguments).store spot ≠
        some (.file (Source.ofString first)) := by
  intro store arguments inputs
  obtain ⟨options, first, second, hoptions, hcompile, hdiffer, htext, htext'⟩ :=
    @compileFile_two_programs store "a/x.besl" "b/x.besl" (by decide) (by decide) rfl rfl
  have hflags : parseFlags ["-o", "out", "a/x.besl", "b/x.besl"] =
      .ok (intoOut, ["a/x.besl", "b/x.besl"]) := by
    rw [parseFlags, parseFlagsFrom]
    show parseFlagsFrom intoOut ["a/x.besl", "b/x.besl"] = _
    rw [parseFlagsFrom]
    rfl
  have hsettings : loadSettings (twoPrograms "x.besl" "x.besl") intoOut = .ok (.empty, none) := rfl
  have hreaches : Reaches false store arguments intoOut inputs options :=
    ⟨hflags, rfl, List.cons_ne_nil _ _, .empty, none, hsettings, hoptions⟩
  have hmade : store.makeDirectories "out" = (store.put ["out"] .directory, none) := by
    decide +kernel
  have hlocate : (store.put ["out"] .directory).locate "out" = .ok ["out"] := rfl
  obtain ⟨after, hwrite, -, hentries⟩ :=
    writeResults_latest hcompile (Nat.le_refl 2) hmade hlocate rfl (by decide +kernel)
  have hrun : (run false store arguments).written = (0, "", after) := by
    rw [run, hreaches.runInOrder_written (List.Perm.refl _)]
    exact compileThenWrite_ok hcompile hwrite
  have hstore : (run false store arguments).store = after := congrArg (·.2.2) hrun
  refine ⟨by decide, options, first, second, hreaches, hcompile, congrArg (·.1) hrun, ?_⟩
  intro spot hspot
  rw [hstore, hentries] at hspot
  have hlast : lastWritten ["out"] (inputs.zip [first, second]) spot =
      if spot = ["out", "x.glsl"] then some (.file (Source.ofString second)) else none := by
    have hx : resultName "a/x.besl" = "x.glsl" := by decide
    have hx' : resultName "b/x.besl" = "x.glsl" := by decide
    show lastWritten ["out"] [("a/x.besl", first), ("b/x.besl", second)] spot = _
    rw [lastWritten_cons, lastWritten_cons, hx, hx']
    by_cases h : spot = ["out", "x.glsl"] <;> simp [lastWritten, h]
  by_cases hout : spot = ["out", "x.glsl"]
  · -- the second result was written last
    rw [hlast, if_pos hout] at hspot
    exact hdiffer (ofString_inj (Entry.file.inj (Option.some.inj hspot))).symm
  · -- everything else was there before
    rw [hlast, if_neg hout, Option.none_or, FileStore.entry?_put store (List.cons_ne_nil _ _)]
      at hspot
    split_ifs at hspot
    · cases hspot
    · have hmem : (spot, Entry.file (Source.ofString first)) ∈ store.entries :=
        FileStore.mem_entries_of_file hspot
      simp only [store, twoPrograms, List.mem_cons, Prod.mk.injEq, reduceCtorEq, and_false,
        Entry.file.injEq, List.not_mem_nil, or_false, false_or] at hmem
      rcases hmem with ⟨-, hsame⟩ | ⟨-, hsame⟩
      · exact htext (ofString_inj hsame)
      · exact htext' (ofString_inj hsame)

end Shader.CommandLine
