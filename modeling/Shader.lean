import Shader.Main
import Shader.Proofs.Arena.History
import Shader.Proofs.Arena.Nesting
import Shader.Proofs.Arena.WellFormed
import Shader.Proofs.CommandLine.Results
import Shader.Proofs.CommandLine.Schedule
import Shader.Proofs.Compile.Contract
import Shader.Proofs.Compile.Mains
import Shader.Proofs.Description.Rendering
import Shader.Proofs.Files.Paths
import Shader.Proofs.Files.Store
import Shader.Proofs.Glsl.Alignment
import Shader.Proofs.Glsl.Body
import Shader.Proofs.Glsl.Brackets
import Shader.Proofs.Glsl.Callees
import Shader.Proofs.Glsl.Constants
import Shader.Proofs.Glsl.Dependency
import Shader.Proofs.Glsl.Fidelity
import Shader.Proofs.Glsl.Fields
import Shader.Proofs.Glsl.Generation
import Shader.Proofs.Glsl.Inputs
import Shader.Proofs.Glsl.Insertion
import Shader.Proofs.Glsl.Interface
import Shader.Proofs.Glsl.Lexer
import Shader.Proofs.Glsl.Lookup
import Shader.Proofs.Glsl.Markup
import Shader.Proofs.Glsl.Minify
import Shader.Proofs.Glsl.Occurrence
import Shader.Proofs.Glsl.Order
import Shader.Proofs.Glsl.Parallel
import Shader.Proofs.Glsl.Shadowing
import Shader.Proofs.Glsl.Term
import Shader.Proofs.Glsl.Tokens
import Shader.Proofs.Glsl.Trace
import Shader.Proofs.Glsl.TypeDefinition
import Shader.Proofs.Glsl.TypeUse
import Shader.Proofs.Glsl.Undeclared
import Shader.Proofs.Glsl.Uses
import Shader.Proofs.Glsl.Version
import Shader.Proofs.Grammar.Assembly
import Shader.Proofs.Grammar.Bracketed
import Shader.Proofs.Grammar.Climbing
import Shader.Proofs.Grammar.Composition
import Shader.Proofs.Grammar.Locality
import Shader.Proofs.Grammar.Normal
import Shader.Proofs.Grammar.Printer
import Shader.Proofs.Grammar.Reader
import Shader.Proofs.Grammar.Returns
import Shader.Proofs.Grammar.RoundTrip
import Shader.Proofs.Json.Spelling
import Shader.Proofs.Resolution.Bodies
import Shader.Proofs.Resolution.Causality
import Shader.Proofs.Resolution.Copies
import Shader.Proofs.Resolution.Declarations
import Shader.Proofs.Resolution.Evaluation
import Shader.Proofs.Resolution.Expressions
import Shader.Proofs.Resolution.Identity
import Shader.Proofs.Resolution.Inlining
import Shader.Proofs.Resolution.Intrinsics
import Shader.Proofs.Resolution.Layout
import Shader.Proofs.Resolution.Lexical
import Shader.Proofs.Resolution.Mentions
import Shader.Proofs.Resolution.Moves
import Shader.Proofs.Resolution.Pointers
import Shader.Proofs.Resolution.Program
import Shader.Proofs.Resolution.Provenance
import Shader.Proofs.Resolution.Scopes
import Shader.Proofs.Resolution.Step
import Shader.Proofs.Resolution.Twins
import Shader.Proofs.Resolution.Types
import Shader.Proofs.Resolution.Visibility
import Shader.Proofs.Settings.Resources
import Shader.Proofs.Token.Agreement
import Shader.Proofs.Token.Literal
import Shader.Proofs.Token.Lossless
import Shader.Proofs.Token.Places
import Shader.Proofs.Token.Respacing
