import Shader.Compile.Transform
import Shader.Glsl.Generate
import Shader.Program.Description
import Shader.Program.Parser
import Shader.Resolution.Program
import Shader.Token

/-!
# Compilation

A shader is made in three steps: a program is read, its names are resolved, and the shader is
written. Each step can be run on its own.
-/

namespace Shader.Compile

open Arena

/-- Why a source is not a program: it cannot be cut into tokens, parsed or described. -/
inductive LoadError where
  | source (error : SourceError)
  | parse (error : Program.ParseError)
  | description (error : Program.DescriptionError)
  deriving Repr, DecidableEq

def LoadError.message : LoadError → String
  | .source error => error.text
  | .parse error => "parse error: " ++ error.message
  | .description error => error.message

/-- The program of a list of tokens. -/
def loadTokens (tokens : List String) : Except LoadError Program.Scope :=
  match Program.parse tokens with
  | .ok scope => .ok scope
  | .error e => .error (.parse e)

def loadText (source : Source) : Except LoadError Program.Scope :=
  match words source with
  | .ok tokens => loadTokens tokens
  | .error e => .error (.source e)

def loadDescription (text : String) : Except LoadError Program.Scope :=
  match Program.describe text with
  | .ok scope => .ok scope
  | .error e => .error (.description e)

/-- The stage at which a compilation fails, with the error of that stage. -/
inductive CompileError where
  | tokenize (error : SourceError)
  | load (error : LoadError)
  | noRoot
  | transform (error : TransformError)
  | resolve (error : Resolution.ResolveError)
  | generate (error : Glsl.GenerateError)
  deriving Repr, DecidableEq

def CompileError.message : CompileError → String
  | .tokenize error => "tokenize error: " ++ error.text
  | .load error => error.message
  | .noRoot => "compile: nil root scope"
  | .transform error => "transform error: " ++ error.message
  | .resolve error => "resolve error: " ++ error.message
  | .generate error => "codegen error: glsl: " ++ error.message

/-- The options of the writer, and what to change before and after resolution. -/
structure CompileOptions where
  glsl : Glsl.Options
  beforeResolve : Option ProgramTransform
  afterResolve : Option TreeTransform
  transformConfig : Option Program.Node

def CompileOptions.plain (glsl : Glsl.Options) : CompileOptions := ⟨glsl, none, none, none⟩

def resolveProgram (root : Option Program.Scope) (table : Program.TypeTable) :
    Except CompileError Tree :=
  match Resolution.resolve root table with
  | .ok tree => .ok tree
  | .error e => .error (.resolve e)

def generateShader (tree : Option Tree) (options : Glsl.Options) :
    Except CompileError Glsl.Output :=
  match Glsl.generate tree options with
  | .ok output => .ok output
  | .error e => .error (.generate e)

/-- The scope after the transform that runs before resolution, if there is one. -/
def beforeResolution (o : CompileOptions) (scope : Program.Scope) :
    Except CompileError Program.Scope :=
  match o.beforeResolve with
  | none => .ok scope
  | some f =>
    match transformScope f o.transformConfig scope with
    | .ok scope => .ok scope
    | .error e => .error (.transform e)

/-- The tree after the transform that runs after resolution, if there is one. -/
def afterResolution (o : CompileOptions) (tree : Tree) : Except CompileError Tree :=
  match o.afterResolve with
  | none => .ok tree
  | some f =>
    match transformTree f o.transformConfig tree with
    | .ok tree => .ok tree
    | .error e => .error (.transform e)

/-- Compiles a scope: transform, resolution, transform, text. -/
def compileScope (root : Option Program.Scope) (table : Program.TypeTable)
    (o : CompileOptions) : Except CompileError String :=
  match root with
  | none => .error .noRoot
  | some scope => do
    let scope ← beforeResolution o scope
    let tree ← resolveProgram (some scope) table
    let tree ← afterResolution o tree
    let output ← generateShader (some tree) o.glsl
    return output.text

def compileTokens (tokens : List String) (o : CompileOptions) : Except CompileError String :=
  match loadTokens tokens with
  | .ok scope => compileScope (some scope) scope.table o
  | .error e => .error (.load e)

def compileText (source : Source) (o : CompileOptions) : Except CompileError String :=
  match words source with
  | .ok tokens => compileTokens tokens o
  | .error e => .error (.tokenize e)

end Shader.Compile
