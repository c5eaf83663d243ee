import Mathlib.Data.List.Forall2
import Mathlib.Logic.Relation
import Shader.CommandLine.Run

/-!
# Inputs that are compiled at the same time

The inputs of a command are compiled by a pool of workers. They are started in the order of the
command line and finish in any order; each leaves its result at its own place, and the results are
looked at when all have finished. So what a run writes does not depend on the order: it is what
compiling the inputs one after the other would write, and if one of them fails nothing is written.
-/

namespace Shader.CommandLine

variable {limit : Nat} {order : List Nat} {results : List String}

/-! ## Workers -/

/-- Inputs by number: those that wait, those that are being compiled, and those that have finished,
in that order. -/
structure Pool where
  waiting : List Nat
  running : List Nat
  finished : List Nat

/-- One step of a pool that compiles at most `limit` inputs at a time. -/
inductive Pool.Step (limit : Nat) : Pool → Pool → Prop
  | start {i waiting running finished} (hfree : running.length < limit) :
    Step limit ⟨i :: waiting, running, finished⟩ ⟨waiting, i :: running, finished⟩
  | finish {i waiting running finished} (hrunning : i ∈ running) :
    Step limit ⟨waiting, running, finished⟩ ⟨waiting, running.erase i, finished ++ [i]⟩

/-- The given number of inputs can finish in the given order. -/
def Finishes (limit count : Nat) (order : List Nat) : Prop :=
  Relation.ReflTransGen (Pool.Step limit) ⟨List.range count, [], []⟩ ⟨[], [], order⟩

def Pool.inputs (pool : Pool) : List Nat := pool.waiting ++ (pool.running ++ pool.finished)

theorem Pool.Step.perm {pool pool' : Pool} (h : Pool.Step limit pool pool') :
    pool'.inputs.Perm pool.inputs := by
  cases h with
  | start => exact List.perm_middle
  | @finish i waiting running finished hrunning =>
    apply List.Perm.append_left waiting
    have hmoved :
        (running.erase i ++ (finished ++ [i])).Perm (i :: (running.erase i ++ finished)) := by
      rw [← List.append_assoc]
      exact List.perm_append_singleton i (running.erase i ++ finished)
    exact hmoved.trans ((List.perm_cons_erase hrunning).symm.append_right finished)

theorem Finishes.perm {limit count : Nat} {order : List Nat} (h : Finishes limit count order) :
    order.Perm (List.range count) := by
  have hall : ∀ pool, Relation.ReflTransGen (Pool.Step limit) ⟨List.range count, [], []⟩ pool →
      pool.inputs.Perm (List.range count) := by
    intro pool hsteps
    induction hsteps with
    | refl => simp [Pool.inputs]
    | tail _ hstep ih => exact hstep.perm.trans ih
  exact hall _ h

theorem Pool.start_all (waiting running : List Nat)
    (hfree : waiting.length + running.length ≤ limit) :
    Relation.ReflTransGen (Pool.Step limit) ⟨waiting, running, []⟩
      ⟨[], waiting.reverse ++ running, []⟩ := by
  induction waiting generalizing running with
  | nil => exact .refl
  | cons i waiting ih =>
    rw [List.length_cons] at hfree
    have hrest := ih (i :: running) (by rw [List.length_cons]; omega)
    rw [List.reverse_cons, List.append_assoc]
    exact .head (.start (by omega)) hrest

theorem Pool.finish_all {running : List Nat} (finished : List Nat) (hperm : order.Perm running) :
    Relation.ReflTransGen (Pool.Step limit) ⟨[], running, finished⟩
      ⟨[], [], finished ++ order⟩ := by
  induction order generalizing running finished with
  | nil =>
    rw [List.nil_perm.mp hperm, List.append_nil]
  | cons i order ih =>
    have hrunning : i ∈ running := hperm.subset (.head _)
    have hrest := ih (finished ++ [i]) (List.cons_perm_iff_perm_erase.mp hperm).2
    rw [List.append_assoc] at hrest
    exact .head (.finish hrunning) hrest

theorem finishes_range (hlimit : 0 < limit) (count : Nat) :
    Finishes limit count (List.range count) := by
  have hall : ∀ waiting finished, Relation.ReflTransGen (Pool.Step limit) ⟨waiting, [], finished⟩
      ⟨[], [], finished ++ waiting⟩ := by
    intro waiting
    induction waiting with
    | nil =>
      intro finished
      rw [List.append_nil]
    | cons i waiting ih =>
      intro finished
      have hstart : Pool.Step limit ⟨i :: waiting, [], finished⟩ ⟨waiting, [i], finished⟩ :=
        .start hlimit
      have hfinish : Pool.Step limit ⟨waiting, [i], finished⟩
          ⟨waiting, [i].erase i, finished ++ [i]⟩ := .finish (.head _)
      rw [List.erase_cons_head] at hfinish
      have hrest := ih (finished ++ [i])
      rw [List.append_assoc] at hrest
      exact .head hstart (.head hfinish hrest)
  exact hall (List.range count) []

theorem finishes_iff_perm {count : Nat} (hlimit : count ≤ limit) :
    Finishes limit count order ↔ order.Perm (List.range count) := by
  constructor
  · exact Finishes.perm
  · intro hperm
    have hstart : Relation.ReflTransGen (Pool.Step limit) ⟨List.range count, [], []⟩
        ⟨[], (List.range count).reverse ++ [], []⟩ :=
      Pool.start_all (List.range count) [] (by simpa using hlimit)
    rw [List.append_nil] at hstart
    exact hstart.trans (Pool.finish_all [] (hperm.trans (List.reverse_perm _).symm))

/-! ## Results -/

section Results

variable {compile : String → Except String String} {inputs : List String}

/-- The results of the inputs that have finished are at their places, and no others. -/
structure Batch.Filled (compile : String → Except String String) (inputs : List String)
    (finished : List Nat) (batch : Batch) : Prop where
  length : batch.results.length = inputs.length
  result : ∀ i path, inputs[i]? = some path →
    batch.results[i]? = some (if i ∈ finished then (compile path).toOption else none)

theorem Batch.filled_start : Batch.Filled compile inputs [] (.start inputs.length) := by
  refine ⟨List.length_replicate, ?_⟩
  intro i path hpath
  obtain ⟨hlt, -⟩ := List.getElem?_eq_some_iff.mp hpath
  rw [Batch.start, List.getElem?_replicate, if_pos hlt]
  rfl

theorem Batch.Filled.finish {finished : List Nat} {batch : Batch}
    (h : Batch.Filled compile inputs finished batch) (i : Nat) :
    Batch.Filled compile inputs (finished ++ [i]) (batch.finish compile inputs i) := by
  have hsame : ∀ j, j ≠ i → (j ∈ finished ++ [i] ↔ j ∈ finished) := by
    intro j hj
    simp [hj]
  cases hinput : inputs[i]? with
  | none =>
    have hrun : batch.finish compile inputs i = batch := by simp only [Batch.finish, hinput]
    rw [hrun]
    refine ⟨h.length, ?_⟩
    intro j path hpath
    have hj : j ≠ i := by
      rintro rfl
      rw [hinput] at hpath
      cases hpath
    simp only [hsame j hj, h.result j path hpath]
  | some found =>
    have hlt : i < batch.results.length := by
      rw [h.length]
      exact (List.getElem?_eq_some_iff.mp hinput).1
    cases hcompile : compile found with
    | ok text =>
      have hrun : (batch.finish compile inputs i).results = batch.results.set i (some text) := by
        simp only [Batch.finish, hinput, hcompile]
      refine ⟨by rw [hrun, List.length_set, h.length], ?_⟩
      intro j path hpath
      rw [hrun, List.getElem?_set]
      by_cases hj : i = j
      · subst hj
        rw [hinput] at hpath
        cases hpath
        simp [hlt, hcompile, Except.toOption]
      · rw [if_neg hj, h.result j path hpath]
        simp only [hsame j (Ne.symm hj)]
    | error text =>
      have hrun : (batch.finish compile inputs i).results = batch.results := by
        simp only [Batch.finish, hinput, hcompile]
      refine ⟨by rw [hrun, h.length], ?_⟩
      intro j path hpath
      rw [hrun, h.result j path hpath]
      by_cases hj : j = i
      · subst hj
        rw [hinput] at hpath
        cases hpath
        simp [hcompile, Except.toOption]
      · simp only [hsame j hj]

theorem filled_compileInputs (order : List Nat) :
    Batch.Filled compile inputs order (compileInputs compile inputs order) := by
  have hall : ∀ finished batch, Batch.Filled compile inputs finished batch →
      Batch.Filled compile inputs (finished ++ order)
        (order.foldl (Batch.finish compile inputs) batch) := by
    induction order with
    | nil =>
      intro finished batch h
      rw [List.append_nil]
      exact h
    | cons i order ih =>
      intro finished batch h
      have hrest := ih _ _ (h.finish i)
      rw [List.append_assoc] at hrest
      exact hrest
  exact hall [] _ Batch.filled_start

theorem results_compileInputs (hperm : order.Perm (List.range inputs.length)) :
    (compileInputs compile inputs order).results =
      inputs.map fun path => (compile path).toOption := by
  have hfilled : Batch.Filled compile inputs order (compileInputs compile inputs order) :=
    filled_compileInputs order
  apply List.ext_getElem?
  intro i
  rw [List.getElem?_map]
  cases hinput : inputs[i]? with
  | none =>
    apply List.getElem?_eq_none
    rw [hfilled.length]
    exact List.getElem?_eq_none_iff.mp hinput
  | some path =>
    obtain ⟨hlt, -⟩ := List.getElem?_eq_some_iff.mp hinput
    have hmem : i ∈ order := hperm.mem_iff.mpr (List.mem_range.mpr hlt)
    rw [hfilled.result i path hinput, if_pos hmem]
    rfl

/-- There are results for all inputs if they can be compiled one after the other, and they are the
same. -/
theorem complete?_compileInputs (hperm : order.Perm (List.range inputs.length)) :
    (compileInputs compile inputs order).complete? = (inputs.mapM compile).toOption := by
  unfold Batch.complete?
  rw [results_compileInputs hperm]
  clear hperm
  induction inputs with
  | nil => rfl
  | cons path rest ih =>
    rw [List.map_cons, List.mapM_cons, List.mapM_cons, ih]
    cases hfirst : compile path with
    | error e => rfl
    | ok text =>
      cases hrest : rest.mapM compile with
      | error | ok => rfl

theorem forall₂_of_mapM (hcompile : inputs.mapM compile = .ok results) :
    List.Forall₂ (fun input text => compile input = .ok text) inputs results := by
  induction inputs generalizing results with
  | nil =>
    cases hcompile
    exact .nil
  | cons input rest ih =>
    rw [List.mapM_cons] at hcompile
    cases hinput : compile input with
    | error e =>
      rw [hinput] at hcompile
      cases hcompile
    | ok text =>
      cases hrest : rest.mapM compile with
      | error e =>
        rw [hinput, hrest] at hcompile
        cases hcompile
      | ok texts =>
        rw [hinput, hrest] at hcompile
        cases hcompile
        exact .cons hinput (ih hrest)

theorem exists_result_of_mem {input : String} (hcompile : inputs.mapM compile = .ok results)
    (hinput : input ∈ inputs) :
    ∃ text, (input, text) ∈ inputs.zip results ∧ compile input = .ok text := by
  obtain ⟨hlength, hcompiled⟩ := List.forall₂_iff_zip.mp (forall₂_of_mapM hcompile)
  rw [← List.map_fst_zip (Nat.le_of_eq hlength)] at hinput
  obtain ⟨⟨input, text⟩, hpair, rfl⟩ := List.mem_map.mp hinput
  exact ⟨text, hpair, hcompiled hpair⟩

theorem mapM_eq_error_of_mem {path e : String} (hpath : path ∈ inputs)
    (hfails : compile path = .error e) : ∃ first, inputs.mapM compile = .error first := by
  cases hrun : inputs.mapM compile with
  | error first => exact ⟨first, rfl⟩
  | ok results =>
    obtain ⟨text, -, htext⟩ := exists_result_of_mem hrun hpath
    rw [hfails] at htext
    cases htext

end Results

/-! ## Runs -/

/-- What can be seen of a run but for its log: the exit code, the output, and the files. -/
def Outcome.written (o : Outcome) : UInt32 × String × FileStore := (o.exit, o.output, o.store)

/-- Compiles the inputs one after the other and writes the results, unless an input fails. -/
def compileThenWrite (compile : String → Except String String) (store : FileStore)
    (place : String) (inputs : List String) : UInt32 × String × FileStore :=
  match inputs.mapM compile with
  | .error _ => (1, "", store)
  | .ok results =>
    match writeResults store place inputs results with
    | (output, after, none) => (0, output, after)
    | (output, after, some _) => (1, output, after)

theorem compileThenWrite_ok {compile : String → Except String String} {store after : FileStore}
    {place output : String} {inputs : List String} (hcompile : inputs.mapM compile = .ok results)
    (hwrite : writeResults store place inputs results = (output, after, none)) :
    compileThenWrite compile store place inputs = (0, output, after) := by
  simp only [compileThenWrite, hcompile, hwrite]

/-- A command line that gets as far as compiling its inputs. -/
structure Reaches (terminal : Bool) (store : FileStore) (arguments : List String)
    (choices : Choices) (inputs : List String) (options : Compile.CompileOptions) : Prop where
  flags : parseFlags arguments = .ok (choices, inputs)
  work : choices.version = false
  someInput : inputs ≠ []
  settings : ∃ settings found, loadSettings store choices = .ok (settings, found) ∧
    compileOptions terminal choices settings = .ok options

section Runs

variable {terminal : Bool} {store : FileStore} {choices : Choices} {inputs : List String}
  {options : Compile.CompileOptions}

theorem compileAndWrite_written {settings : Settings} {found : Option String}
    (hsettings : loadSettings store choices = .ok (settings, found))
    (hoptions : compileOptions terminal choices settings = .ok options)
    (hperm : order.Perm (List.range inputs.length)) :
    (compileAndWrite terminal store choices inputs order).written =
      compileThenWrite (compileFile store choices options) store choices.output inputs := by
  unfold compileAndWrite compileThenWrite
  simp only [hsettings, hoptions, complete?_compileInputs hperm]
  cases hcompile : inputs.mapM (compileFile store choices options) with
  | error e => rfl
  | ok results =>
    dsimp only [Except.toOption]
    obtain ⟨output, after, error⟩ := writeResults store choices.output inputs results
    cases error with
    | none | some => rfl

theorem compileAndWrite_order {order' : List Nat} (hperm : order.Perm (List.range inputs.length))
    (hperm' : order'.Perm (List.range inputs.length)) :
    (compileAndWrite terminal store choices inputs order).written =
      (compileAndWrite terminal store choices inputs order').written := by
  cases hsettings : loadSettings store choices with
  | error e => simp only [compileAndWrite, hsettings]
  | ok loaded =>
    obtain ⟨settings, found⟩ := loaded
    cases hoptions : compileOptions terminal choices settings with
    | error e => simp only [compileAndWrite, hsettings, hoptions]
    | ok options =>
      rw [compileAndWrite_written hsettings hoptions hperm,
        compileAndWrite_written hsettings hoptions hperm']

theorem Reaches.runInOrder_written {arguments : List String} {order : Nat → List Nat}
    (hreaches : Reaches terminal store arguments choices inputs options)
    (hperm : (order inputs.length).Perm (List.range inputs.length)) :
    (runInOrder order terminal store arguments).written =
      compileThenWrite (compileFile store choices options) store choices.output inputs := by
  obtain ⟨settings, found, hsettings, hoptions⟩ := hreaches.settings
  have hinputs : inputs.isEmpty = false := by simpa using hreaches.someInput
  have hrun : runInOrder order terminal store arguments =
      compileAndWrite terminal store choices inputs (order inputs.length) := by
    simp only [runInOrder, hreaches.flags, hreaches.work, hinputs]
    rfl
  rw [hrun, compileAndWrite_written hsettings hoptions hperm]

end Runs

/-- In whatever order the inputs finish, a command writes what it writes if they are compiled one
after the other, and has the same exit code. If it gets as far as its inputs that is the result of
`compileThenWrite`; so if an input fails, nothing is written and the exit code is 1. -/
theorem run_independent_of_order (terminal : Bool) (store : FileStore) (arguments : List String)
    {limit : Nat} {order : Nat → List Nat}
    (horder : ∀ count, Finishes limit count (order count)) :
    (runInOrder order terminal store arguments).written =
      (run terminal store arguments).written ∧
    ∀ choices inputs options, Reaches terminal store arguments choices inputs options →
      (runInOrder order terminal store arguments).written =
        compileThenWrite (compileFile store choices options) store choices.output inputs ∧
      ∀ input ∈ inputs, ∀ e, compileFile store choices options input = .error e →
        (runInOrder order terminal store arguments).written = (1, "", store) := by
  constructor
  · unfold run runInOrder
    split
    · rfl
    · split
      · rfl
      · split
        · rfl
        · exact compileAndWrite_order (horder _).perm (List.Perm.refl _)
  · intro choices inputs options hreaches
    have hwritten := hreaches.runInOrder_written (horder inputs.length).perm
    refine ⟨hwritten, ?_⟩
    intro input hinput e hfails
    obtain ⟨first, hfirst⟩ := mapM_eq_error_of_mem hinput hfails
    rw [hwritten, compileThenWrite, hfirst]

section Pairs

/-- A program of one function without statements. -/
def soleFunction (name : String) : Source :=
  Source.ofString (name ++ ": fn () -> void \x7b\x7d")

def soleOutline (name : String) : String :=
  "\x7b\n  \"kind\": \"scope\",\n  \"name\": \"root\",\n  \"children\": [\n    \x7b\n" ++
    "      \"kind\": \"function\",\n      \"name\": \"" ++ name ++ "\",\n" ++
    "      \"type\": \"void\"\n    \x7d\n  ]\n\x7d\n"

theorem compileFile_outline {path text : String} {source : Source}
    (houtline : choices.outline = true) (hread : store.read path = .ok source)
    (hload : (loadProgram path source).toOption.map (·.toNode.outlineText ++ "\n") = some text) :
    compileFile store choices options path = .ok text := by
  cases hscope : loadProgram path source with
  | error e =>
    rw [hscope] at hload
    cases hload
  | ok scope =>
    rw [hscope] at hload
    simp only [compileFile, hread, hscope, houtline, if_true]
    exact congrArg Except.ok (Option.some.inj hload)

/-- Of two inputs the second finishes first. If it is there, two results are written, each to the
file of its own input. If it is not, the first is compiled, but nothing is written. -/
theorem run_independent_of_order_sample :
    let inputs := ["x.besl", "y.besl"]
    let arguments := "-ast" :: "-o" :: "out" :: inputs
    let choices : Choices := { Choices.default with outline := true, output := "out" }
    let order : Nat → List Nat := fun count => if count = 2 then [1, 0] else List.range count
    let half : FileStore := ⟨[], [(["x.besl"], .file (soleFunction "main"))]⟩
    let whole : FileStore := ⟨[], half.entries ++ [(["y.besl"], .file (soleFunction "f"))]⟩
    let after : FileStore := ⟨[], whole.entries ++ [(["out"], .directory),
      (["out", "x.glsl"], .file (Source.ofString (soleOutline "main"))),
      (["out", "y.glsl"], .file (Source.ofString (soleOutline "f")))]⟩
    (∀ count, Finishes 2 count (order count)) ∧
      ∃ options, Reaches false whole arguments choices inputs options ∧
        (runInOrder order false whole arguments).written = (0, "", after) ∧
        Reaches false half arguments choices inputs options ∧
        (compileFile half choices options "x.besl").isOk ∧
        compileFile half choices options "y.besl" =
          .error "open y.besl: no such file or directory" ∧
        (runInOrder order false half arguments).written = (1, "", half) := by
  intro inputs arguments choices order half whole after
  have horder : ∀ count, Finishes 2 count (order count) := by
    intro count
    by_cases hcount : count = 2
    · subst hcount
      exact (finishes_iff_perm (Nat.le_refl 2)).mpr (by decide)
    · show Finishes 2 count (if count = 2 then [1, 0] else List.range count)
      rw [if_neg hcount]
      exact finishes_range Nat.two_pos count
  have hflags : parseFlags arguments = .ok (choices, inputs) := by
    rw [parseFlags, parseFlagsFrom]
    show parseFlagsFrom { Choices.default with outline := true } ("-o" :: "out" :: inputs) = _
    rw [parseFlagsFrom]
    show parseFlagsFrom choices inputs = _
    rw [parseFlagsFrom]
    rfl
  obtain ⟨options, hoptions⟩ : ∃ options, compileOptions false choices .empty = .ok options :=
    ⟨_, rfl⟩
  have hwhole : Reaches false whole arguments choices inputs options :=
    ⟨hflags, rfl, List.cons_ne_nil _ _, .empty, none, by decide +kernel, hoptions⟩
  have hhalf : Reaches false half arguments choices inputs options :=
    ⟨hflags, rfl, List.cons_ne_nil _ _, .empty, none, by decide +kernel, hoptions⟩
  have hmain : (loadProgram "x.besl" (soleFunction "main")).toOption.map
      (·.toNode.outlineText ++ "\n") = some (soleOutline "main") := by decide +kernel
  have hother : (loadProgram "y.besl" (soleFunction "f")).toOption.map
      (·.toNode.outlineText ++ "\n") = some (soleOutline "f") := by decide +kernel
  refine ⟨horder, options, hwhole, ?_, hhalf, ?_, rfl, ?_⟩
  · have hfirst : compileFile whole choices options "x.besl" = .ok (soleOutline "main") :=
      compileFile_outline rfl rfl hmain
    have hsecond : compileFile whole choices options "y.besl" = .ok (soleOutline "f") :=
      compileFile_outline rfl rfl hother
    have hcompile : inputs.mapM (compileFile whole choices options) =
        .ok [soleOutline "main", soleOutline "f"] := by
      simp only [inputs, List.mapM_cons, List.mapM_nil, hfirst, hsecond]
      rfl
    rw [((run_independent_of_order false whole arguments horder).2 _ _ _ hwhole).1]
    exact compileThenWrite_ok hcompile (by decide +kernel)
  · rw [show compileFile half choices options "x.besl" = .ok (soleOutline "main") from
      compileFile_outline rfl rfl hmain]
    rfl
  · exact ((run_independent_of_order false half arguments horder).2 _ _ _ hhalf).2 "y.besl"
      (by decide) _ rfl

end Pairs

end Shader.CommandLine
