import Shader.Yaml.Token

/-!
# Documents of settings files

A document is a tree of scalars, sequences and mappings. A node carries the line it starts on, for
the messages about it.
-/

namespace Shader.Yaml

/-- The nodes of a document, with the lines that they start on. -/
inductive Node where
  /-- A scalar. Only a plain one can mean something other than its text. -/
  | scalar (line : Nat) (plain : Bool) (text : String)
  | sequence (line : Nat) (items : List Node)
  | mapping (line : Nat) (entries : List (Node × Node))
  deriving Repr

namespace Node

def line : Node → Nat
  | .scalar line .. => line
  | .sequence line _ => line
  | .mapping line _ => line

def absent (line : Nat) : Node := .scalar line true ""

end Node

def nextIs (kinds : List TokenKind) : List Token → Bool
  | [] => false
  | t :: _ => kinds.contains t.kind

def nextLine : List Token → Nat
  | [] => 0
  | t :: _ => t.line

def mappingStops : List TokenKind := [.key, .value, .blockEnd]

/- The readers of nodes. Each takes fuel, which every call spends; of two calls that follow each
other at least one passes a token. `none` means that the tokens make no document. -/
mutual

/-- Reads a node. `block` says whether it may be a block collection, `dashes` whether it may be a
sequence that is not indented against the key before it. -/
def node? (block dashes : Bool) : Nat → List Token → Option (Node × List Token)
  | 0, _ => none
  | _, [] => none
  | fuel + 1, t :: rest =>
    match t.kind with
    | .scalar plain text => some (.scalar t.line plain text, rest)
    | .flowSequenceStart => do
      let (items, rest) ← flowItems? true fuel rest
      return (.sequence t.line items, rest)
    | .flowMappingStart => do
      let (entries, rest) ← flowEntries? true fuel rest
      return (.mapping t.line entries, rest)
    | .blockSequenceStart =>
      if block then do
        let (items, rest) ← blockItems? fuel rest
        return (.sequence t.line items, rest)
      else none
    | .blockMappingStart =>
      if block then do
        let (entries, rest) ← blockEntries? fuel rest
        return (.mapping t.line entries, rest)
      else none
    | .blockEntry =>
      if dashes then do
        let (items, rest) ← dashItems? fuel (t :: rest)
        return (.sequence t.line items, rest)
      else none
    | _ => none

def optional? (stops : List TokenKind) (block dashes : Bool) :
    Nat → List Token → Option (Node × List Token)
  | 0, _ => none
  | fuel + 1, tokens =>
    if nextIs stops tokens then some (.absent (nextLine tokens), tokens)
    else node? block dashes fuel tokens

def entryValue? (stops : List TokenKind) (block : Bool) :
    Nat → List Token → Option (Node × List Token)
  | 0, _ => none
  | fuel + 1, tokens =>
    if nextIs [.value] tokens then optional? stops block block fuel tokens.tail
    else some (.absent (nextLine tokens), tokens)

def blockItems? : Nat → List Token → Option (List Node × List Token)
  | 0, _ => none
  | _, [] => none
  | fuel + 1, t :: rest =>
    match t.kind with
    | .blockEnd => some ([], rest)
    | .blockEntry => do
      let (item, rest) ← optional? [.blockEntry, .blockEnd] true false fuel rest
      let (items, rest) ← blockItems? fuel rest
      return (item :: items, rest)
    | _ => none

/-- Reads the items of a sequence that is not indented: it ends where no dash follows. -/
def dashItems? : Nat → List Token → Option (List Node × List Token)
  | 0, _ => none
  | fuel + 1, tokens =>
    if nextIs [.blockEntry] tokens then do
      let (item, rest) ← optional? (.blockEntry :: mappingStops) true false fuel tokens.tail
      let (items, rest) ← dashItems? fuel rest
      return (item :: items, rest)
    else some ([], tokens)

def blockEntries? : Nat → List Token → Option (List (Node × Node) × List Token)
  | 0, _ => none
  | _, [] => none
  | fuel + 1, t :: rest =>
    match t.kind with
    | .blockEnd => some ([], rest)
    | .key => do
      let (key, rest) ← optional? mappingStops true true fuel rest
      let (value, rest) ← entryValue? mappingStops true fuel rest
      let (entries, rest) ← blockEntries? fuel rest
      return ((key, value) :: entries, rest)
    | _ => none

def flowItems? (first : Bool) : Nat → List Token → Option (List Node × List Token)
  | 0, _ => none
  | fuel + 1, tokens =>
    if nextIs [.flowSequenceEnd] tokens then some ([], tokens.tail)
    else if !first && !nextIs [.flowEntry] tokens then none
    else
      let tokens := if first then tokens else tokens.tail
      if nextIs [.key] tokens then do
        let rest := tokens.tail
        let skipped := nextIs [.value, .flowEntry, .flowSequenceEnd] rest
        let (key, rest) ←
          if skipped then some (.absent (nextLine rest), rest.tail) else node? false false fuel rest
        let (value, rest) ← entryValue? [.flowEntry, .flowSequenceEnd] false fuel rest
        let (items, rest) ← flowItems? false fuel rest
        return (.mapping (nextLine tokens) [(key, value)] :: items, rest)
      else if nextIs [.flowSequenceEnd] tokens then some ([], tokens.tail)
      else do
        let (item, rest) ← node? false false fuel tokens
        let (items, rest) ← flowItems? false fuel rest
        return (item :: items, rest)

def flowEntries? (first : Bool) : Nat → List Token → Option (List (Node × Node) × List Token)
  | 0, _ => none
  | fuel + 1, tokens =>
    if nextIs [.flowMappingEnd] tokens then some ([], tokens.tail)
    else if !first && !nextIs [.flowEntry] tokens then none
    else
      let tokens := if first then tokens else tokens.tail
      if nextIs [.key] tokens then do
        let (key, rest) ←
          optional? [.value, .flowEntry, .flowMappingEnd] false false fuel tokens.tail
        let (value, rest) ← entryValue? [.flowEntry, .flowMappingEnd] false fuel rest
        let (entries, rest) ← flowEntries? false fuel rest
        return ((key, value) :: entries, rest)
      else if nextIs [.flowMappingEnd] tokens then some ([], tokens.tail)
      else do
        let (key, rest) ← node? false false fuel tokens
        let (entries, rest) ← flowEntries? false fuel rest
        return ((key, .absent key.line) :: entries, rest)

end

/-- The first document of a sequence of tokens: `some none` if there is none. A fault directly
after the document belongs to it. -/
def document? (tokens : List Token) : Option (Option Node) :=
  match tokens with
  | [] => some none
  | t :: rest =>
    let marked := t.kind = .documentStart
    let body := if marked then rest else tokens
    if marked && (body.isEmpty || nextIs [.documentStart, .documentEnd] body) then
      some (some (.absent t.line))
    else do
      let (node, rest) ← node? true false (4 * body.length + 8) body
      if (rest.take 3).any fun t => t.kind = .fault then none else return some node

/-- The first document of a file: `some none` if there is none, `none` if it is not well formed. -/
def read (source : Source) : Option (Option Node) := document? (scan source)

end Shader.Yaml
