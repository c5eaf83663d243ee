import Shader.Program.Assembly
import Shader.Program.TypeTable
import Shader.Text.Numeral
import Shader.Token.Word

/-!
# Program texts

The reader of program texts, on lists of tokens. A program is a list of declarations:

```
Name : struct { field : Type , ... }
Name : fn ( ) -> Type { statement ; ... }
Name : Type ;
```

with `# [ tag ]` in front for an annotation. Each reader takes the cursor at its first token and
gives the cursor after its last one; the lemmas `..._lt` say that it moves.
-/

namespace Shader.Program

open Text

variable {c d : Cursor} {node : Node} {name : String} {annotations : List String}

/-- A place in a list of tokens: the tokens ahead and the index of the first of them. -/
structure Cursor where
  index : Nat
  rest : List String
  deriving Repr, DecidableEq

namespace Cursor

/-- The place after the next token. -/
def next (c : Cursor) : Cursor := ⟨c.index + 1, c.rest.tail⟩

def token (c : Cursor) : String := c.rest.headD ""

/-- Whether the next token is the given one. -/
def sees (c : Cursor) (token : String) : Bool := c.rest.head? = some token

/-- A fault at the next token. -/
def fail (c : Cursor) (fault : Fault) : ParseError := .at fault c.token c.index

end Cursor

/-! ## Single tokens -/

/-- Reads the given token. -/
def expect (want : String) (c : Cursor) : Except ParseError Cursor :=
  match c.rest with
  | [] => .error (.ended (.token want))
  | token :: _ => if token = want then .ok c.next else .error (c.fail (.unexpected want token))

/-- Reads a name, which is needed for the given role. -/
def identifier (role : NameRole) (c : Cursor) : Except ParseError (String × Cursor) :=
  match c.rest with
  | [] => .error (.ended (.nameFor role))
  | token :: _ =>
    if isIdentifier token then .ok (token, c.next) else .error (c.fail (.notName role token))

/-! ## Types -/

/-- Reads the argument of an instance. Its text is joined to the name without blanks. -/
def genericArgument (outer : String) (c : Cursor) : Except ParseError (String × Cursor) :=
  if c.sees "<" then do
    let (inner, c) ← identifier .genericArgument c.next
    if c.sees "*" then
      let c ← expect ">" c.next
      return (outer ++ "<" ++ inner ++ "*>", c)
    else
      let c ← expect ">" c
      return (outer ++ "<" ++ inner ++ ">", c)
  else .ok (outer, c)

/-- Reads a type: a name or an instance. -/
def typeName (c : Cursor) : Except ParseError (String × Cursor) := do
  let (outer, c) ← identifier .type c
  genericArgument outer c

/-- Reads the length of an array if there is one. -/
def arrayLength (c : Cursor) : Except ParseError (UInt32 × Cursor) :=
  if c.sees "[" then
    match c.next.rest with
    | [] => .error (.ended .arrayLength)
    | token :: _ =>
      match readLength? token with
      | none => .error (c.next.fail (.arrayLength token))
      | some count => do
        let c ← expect "]" c.next.next
        return (count, c)
  else .ok (0, c)

/-- Reads the type of a member and its length. -/
def typedMember (name : String) (annotations : List String) (c : Cursor) :
    Except ParseError (Member × Cursor) := do
  let (type, c) ← typeName c
  let (count, c) ← arrayLength c
  return (⟨name, type, count, annotations⟩, c)

/-- Reads a field of a struct. -/
def field (c : Cursor) : Except ParseError (Member × Cursor) := do
  let (name, c) ← identifier .field c
  let c ← expect ":" c
  typedMember name [] c

/-- Reads a variable after its `let`. -/
def localVariable (c : Cursor) : Except ParseError (Node × Cursor) := do
  let (name, c) ← identifier .variable c
  let c ← expect ":" c
  let (type, c) ← typeName c
  return (.localVar name type, c)

/-! ## Progress of the readers above -/

theorem Cursor.next_le (c : Cursor) : c.next.rest.length ≤ c.rest.length := by
  simp [Cursor.next]

theorem Cursor.next_lt (h : c.rest ≠ []) :
    c.next.rest.length < c.rest.length := by
  cases hr : c.rest with
  | nil => exact absurd hr h
  | cons t ts => simp [Cursor.next, hr]

theorem expect_lt {want : String} (h : expect want c = .ok d) :
    d.rest.length < c.rest.length := by
  unfold expect at h
  split at h
  · cases h
  · next hr =>
    split at h
    · cases h
      exact Cursor.next_lt (by simp [hr])
    · cases h

theorem identifier_lt {role : NameRole}
    (h : identifier role c = .ok (name, d)) : d.rest.length < c.rest.length := by
  unfold identifier at h
  split at h
  · cases h
  · next hr =>
    split at h
    · cases h
      exact Cursor.next_lt (by simp [hr])
    · cases h

theorem bind_eq_ok {ε α β : Type} {x : Except ε α} {f : α → Except ε β} {b : β}
    (h : (x >>= f) = .ok b) : ∃ a, x = .ok a ∧ f a = .ok b := by
  cases x with
  | error e => cases h
  | ok a => exact ⟨a, rfl, h⟩

theorem genericArgument_le {outer type : String}
    (h : genericArgument outer c = .ok (type, d)) : d.rest.length ≤ c.rest.length := by
  unfold genericArgument at h
  split at h
  · obtain ⟨⟨inner, c₁⟩, h₁, h⟩ := bind_eq_ok h
    have l₀ := c.next_le
    have l₁ := identifier_lt h₁
    dsimp only at h
    split at h
    · obtain ⟨c₂, h₂, h⟩ := bind_eq_ok h
      have l₂ := expect_lt h₂
      have l₃ := c₁.next_le
      cases h
      omega
    · obtain ⟨c₂, h₂, h⟩ := bind_eq_ok h
      have l₂ := expect_lt h₂
      cases h
      omega
  · cases h
    exact Nat.le_refl _

theorem typeName_lt {type : String} (h : typeName c = .ok (type, d)) :
    d.rest.length < c.rest.length := by
  obtain ⟨⟨outer, c₁⟩, h₁, h₂⟩ := bind_eq_ok h
  have l₁ := identifier_lt h₁
  have l₂ := genericArgument_le h₂
  omega

theorem arrayLength_le {count : UInt32} (h : arrayLength c = .ok (count, d)) :
    d.rest.length ≤ c.rest.length := by
  unfold arrayLength at h
  split at h
  · split at h
    · cases h
    · split at h
      · cases h
      · obtain ⟨c₁, h₁, h⟩ := bind_eq_ok h
        have l₁ := expect_lt h₁
        have l₂ := c.next_le
        have l₃ := c.next.next_le
        cases h
        omega
  · cases h
    exact Nat.le_refl _

theorem typedMember_lt {m : Member}
    (h : typedMember name annotations c = .ok (m, d)) : d.rest.length < c.rest.length := by
  obtain ⟨⟨type, c₁⟩, h₁, h⟩ := bind_eq_ok h
  obtain ⟨⟨count, c₂⟩, h₂, h⟩ := bind_eq_ok h
  have l₁ := typeName_lt h₁
  have l₂ := arrayLength_le h₂
  cases h
  omega

theorem field_lt {m : Member} (h : field c = .ok (m, d)) :
    d.rest.length < c.rest.length := by
  obtain ⟨⟨name, c₁⟩, h₁, h⟩ := bind_eq_ok h
  obtain ⟨c₂, h₂, h⟩ := bind_eq_ok h
  have l₁ := identifier_lt h₁
  have l₂ := expect_lt h₂
  have l₃ := typedMember_lt h
  omega

theorem localVariable_lt (h : localVariable c = .ok (node, d)) :
    d.rest.length < c.rest.length := by
  obtain ⟨⟨name, c₁⟩, h₁, h⟩ := bind_eq_ok h
  obtain ⟨c₂, h₂, h⟩ := bind_eq_ok h
  obtain ⟨⟨type, c₃⟩, h₃, h⟩ := bind_eq_ok h
  have l₁ := identifier_lt h₁
  have l₂ := expect_lt h₂
  have l₃ := typeName_lt h₃
  cases h
  omega

/-! ## Expressions -/

/-- Whether an expression ends as a statement does, or as an argument in brackets. -/
inductive Stop where
  | statement
  | argument
  deriving Repr, DecidableEq

/-- Whether a token ends an expression. -/
def Stop.holds : Stop → String → Bool
  | .statement, token => token = ";" || token = "\x7d"
  | .argument, token => token = "," || token = ")" || token = ";"

/-- What is found where an expression goes on. -/
inductive Element where
  | stop
  | atom (a : Atom) (after : Cursor)
  | call (callee : String) (after : Cursor)

/-- Whether a sign at this place belongs to a number: there is no operand in front of it. -/
def signPosition (prior : Option Atom) : Bool :=
  match prior with
  | none => true
  | some a => a.shape != .operand

def Cursor.seesNumber (c : Cursor) : Bool :=
  match c.rest with
  | [] => false
  | token :: _ => isNumericLiteral token

/-- Reads what stands next in an expression: its end, an atom or the start of a call. -/
def element (stop : Stop) (prior : Option Atom) (c : Cursor) : Except ParseError Element :=
  match c.rest with
  | [] => .error (.ended .expression)
  | token :: _ =>
    if stop.holds token then .ok .stop
    else if token = "let" then do
      let (node, after) ← localVariable c.next
      return .atom ⟨.operand node, token, c.index⟩ after
    else if token = "return" then
      if prior.isSome then .error (c.fail .lateReturn)
      else .ok (.atom ⟨.ret, token, c.index⟩ c.next)
    else if (token = "-" || token = "+") && signPosition prior && c.next.seesNumber then
      let value := if token = "-" then "-" ++ c.next.token else c.next.token
      .ok (.atom ⟨.operand (.constant value), token, c.index⟩ c.next.next)
    else if 0 < bindingPower token then .ok (.atom ⟨.operator token, token, c.index⟩ c.next)
    else if isLiteral token then
      .ok (.atom ⟨.operand (.constant token), token, c.index⟩ c.next)
    else if isIdentifier token then
      if c.next.sees "(" then .ok (.call token c.next.next)
      else .ok (.atom ⟨.operand (.ident token), token, c.index⟩ c.next)
    else .error (c.fail (.notExpression token))

theorem element_lt {stop : Stop} {prior : Option Atom} {e : Element}
    (h : element stop prior c = .ok e) :
    match e with
    | .stop => c.rest ≠ []
    | .atom _ after => after.rest.length < c.rest.length
    | .call _ after => after.rest.length < c.rest.length := by
  unfold element at h
  split at h
  · cases h
  · next hr =>
    have hc : c.rest ≠ [] := by simp [hr]
    have l₁ := Cursor.next_lt hc
    have l₂ := c.next.next_le
    split at h
    · cases h; exact hc
    split at h
    · obtain ⟨⟨node, after⟩, h₁, h⟩ := bind_eq_ok h
      have l₃ := localVariable_lt h₁
      cases h
      dsimp only
      omega
    split at h
    · split at h
      · cases h
      · cases h; exact l₁
    split at h
    · cases h; dsimp only; omega
    split at h
    · cases h; exact l₁
    split at h
    · cases h; exact l₁
    split at h
    · split at h
      · cases h; dsimp only; omega
      · cases h; exact l₁
    · cases h

mutual

/-- Reads the atoms of an expression up to its end, which is not taken. -/
def atoms (stop : Stop) (prior : Option Atom) (c : Cursor) :
    Except ParseError (List Atom × { d : Cursor // d.rest.length ≤ c.rest.length }) :=
  match h : element stop prior c with
  | .error e => .error e
  | .ok .stop => .ok ([], ⟨c, Nat.le_refl _⟩)
  | .ok (.atom a after) =>
    have := element_lt h
    match atoms stop (some a) after with
    | .error e => .error e
    | .ok (more, ⟨d, hd⟩) => .ok (a :: more, ⟨d, by omega⟩)
  | .ok (.call callee after) =>
    have := element_lt h
    if after.sees ")" then
      have := after.next_le
      let a : Atom := ⟨.operand (.call callee []), callee, c.index⟩
      match atoms stop (some a) after.next with
      | .error e => .error e
      | .ok (more, ⟨d, hd⟩) => .ok (a :: more, ⟨d, by omega⟩)
    else
      match arguments callee after with
      | .error e => .error e
      | .ok (args, ⟨closed, hclosed⟩) =>
        let a : Atom := ⟨.operand (.call callee args), callee, c.index⟩
        match atoms stop (some a) closed with
        | .error e => .error e
        | .ok (more, ⟨d, hd⟩) => .ok (a :: more, ⟨d, by omega⟩)
termination_by (c.rest.length, 0)

/-- Reads the arguments of a call and its closing bracket. -/
def arguments (callee : String) (c : Cursor) :
    Except ParseError (List Node × { d : Cursor // d.rest.length ≤ c.rest.length }) :=
  match atoms .argument none c with
  | .error e => .error e
  | .ok (as, ⟨d, hd⟩) =>
    match assemble c.token c.index as with
    | .error e => .error e
    | .ok arg =>
      if hr : d.rest = [] then .error (.ended .expression)
      else
        have := Cursor.next_lt hr
        if d.sees "," then
          match arguments callee d.next with
          | .error e => .error e
          | .ok (args, ⟨after, hafter⟩) => .ok (arg :: args, ⟨after, by omega⟩)
        else if d.sees ")" then .ok ([arg], ⟨d.next, by omega⟩)
        else .error (d.fail (.openCall callee))
termination_by (c.rest.length, 1)

end

/-- Reads an expression up to its end. -/
def expression (stop : Stop) (c : Cursor) : Except ParseError (Node × Cursor) := do
  let (as, ⟨d, _⟩) ← atoms stop none c
  let node ← assemble c.token c.index as
  return (node, d)

/-- Reads an expression and its semicolon. -/
def statement (c : Cursor) : Except ParseError (Node × Cursor) := do
  let (node, d) ← expression .statement c
  let d ← expect ";" d
  return (node, d)

theorem expression_le {stop : Stop}
    (h : expression stop c = .ok (node, d)) : d.rest.length ≤ c.rest.length := by
  obtain ⟨⟨as, ⟨d', hd⟩⟩, _, h⟩ := bind_eq_ok h
  obtain ⟨n, _, h⟩ := bind_eq_ok h
  cases h
  exact hd

theorem statement_lt (h : statement c = .ok (node, d)) :
    d.rest.length < c.rest.length := by
  obtain ⟨⟨n, d₁⟩, h₁, h⟩ := bind_eq_ok h
  obtain ⟨d₂, h₂, h⟩ := bind_eq_ok h
  have l₁ := expression_le h₁
  have l₂ := expect_lt h₂
  cases h
  omega

/-! ## Declarations -/

/-- Reads the fields of a struct and its closing brace. A comma may follow the last field. -/
def fields (struct : String) (c : Cursor) : Except ParseError (List Member × Cursor) :=
  if c.rest = [] then .error (.ended (.struct struct))
  else if c.sees "\x7d" then .ok ([], c.next)
  else
    match h : field c with
    | .error e => .error e
    | .ok (first, d) =>
      have := field_lt h
      have := d.next_le
      if d.rest = [] then .error (.ended (.struct struct))
      else if d.sees "," then
        match fields struct d.next with
        | .error e => .error e
        | .ok (more, after) => .ok (first :: more, after)
      else if d.sees "\x7d" then .ok ([first], d.next)
      else .error (d.fail (.fieldEnd struct first.name))
termination_by c.rest.length

/-- Reads the statements of a function and its closing brace. -/
def statements (function : String) (c : Cursor) : Except ParseError (List Node × Cursor) :=
  if c.rest = [] then .error (.ended (.function function))
  else if c.sees "\x7d" then .ok ([], c.next)
  else
    match h : statement c with
    | .error e => .error e
    | .ok (first, d) =>
      have := statement_lt h
      match statements function d with
      | .error e => .error e
      | .ok (more, after) => .ok (first :: more, after)
termination_by c.rest.length

/-- Reads a struct after its keyword. -/
def structBody (name : String) (annotations : List String) (c : Cursor) :
    Except ParseError (Node × Cursor) := do
  let c ← expect "\x7b" c
  let (members, c) ← fields name c
  return (.struct ⟨name, members, annotations⟩, c)

/-- Reads a function after its keyword. Its list of parameters has to be empty. -/
def functionBody (name : String) (annotations : List String) (c : Cursor) :
    Except ParseError (Node × Cursor) := do
  let c ← expect "(" c
  if c.rest ≠ [] && !c.sees ")" then .error (c.fail (.parameters name))
  else
    let c ← expect ")" c
    let c ← expect "->" c
    let (returns, c) ← typeName c
    let c ← expect "\x7b" c
    let (body, c) ← statements name c
    return (.function name [] returns body annotations, c)

/-- Reads a typed value and its semicolon. -/
def memberBody (name : String) (annotations : List String) (c : Cursor) :
    Except ParseError (Node × Cursor) := do
  let (decl, c) ← typedMember name annotations c
  let c ← expect ";" c
  return (.member decl, c)

/-- Reads a declaration after its name and colon. -/
def declarationBody (name : String) (annotations : List String) (c : Cursor) :
    Except ParseError (Node × Cursor) :=
  if c.sees "struct" then structBody name annotations c.next
  else if c.sees "fn" then functionBody name annotations c.next
  else memberBody name annotations c

/-- Reads a tag in square brackets. -/
def tagBody (c : Cursor) : Except ParseError (String × Cursor) := do
  let c ← expect "[" c
  let (tag, c) ← identifier .tag c
  let c ← expect "]" c
  return (tag, c)

/-- What stands in a scope: a tag for the next declaration, or a declaration. -/
inductive Item where
  | tag (text : String)
  | declaration (node : Node)

/-- Reads a tag or a declaration, which gets the tags before it. -/
def item (tags : List String) (c : Cursor) : Except ParseError (Item × Cursor) :=
  if c.sees "#" then do
    let (tag, d) ← tagBody c.next
    return (.tag tag, d)
  else if isIdentifier c.token then
    if c.next.rest = [] then .error (.ended (.member c.token))
    else if c.next.sees ":" then do
      let (node, d) ← declarationBody c.token tags c.next.next
      return (.declaration node, d)
    else .error (c.fail (.noDeclaration c.token))
  else .error (c.fail (.noDeclaration c.token))

theorem fields_le {struct : String} {members : List Member}
    (h : fields struct c = .ok (members, d)) : d.rest.length ≤ c.rest.length := by
  fun_induction fields struct c generalizing members with
  | case1 => cases h
  | case2 => cases h; exact Cursor.next_le _
  | case3 => cases h
  | case4 => cases h
  | case5 => cases h
  | case6 c _ _ first e hf moved stepped _ _ more after hm ih =>
    cases h
    have := ih hm
    omega
  | case7 c _ _ first e hf moved stepped _ _ _ => cases h; omega
  | case8 => cases h

theorem statements_le {function : String} {body : List Node}
    (h : statements function c = .ok (body, d)) : d.rest.length ≤ c.rest.length := by
  fun_induction statements function c generalizing body with
  | case1 => cases h
  | case2 => cases h; exact Cursor.next_le _
  | case3 => cases h
  | case4 => cases h
  | case5 c _ _ first e hf moved more after hm ih =>
    cases h
    have := ih hm
    omega

theorem structBody_le
    (h : structBody name annotations c = .ok (node, d)) : d.rest.length ≤ c.rest.length := by
  obtain ⟨c₁, h₁, h⟩ := bind_eq_ok h
  obtain ⟨⟨members, c₂⟩, h₂, h⟩ := bind_eq_ok h
  have l₁ := expect_lt h₁
  have l₂ := fields_le h₂
  cases h
  omega

theorem functionBody_le
    (h : functionBody name annotations c = .ok (node, d)) : d.rest.length ≤ c.rest.length := by
  obtain ⟨c₁, h₁, h⟩ := bind_eq_ok h
  split at h
  · cases h
  · obtain ⟨c₂, h₂, h⟩ := bind_eq_ok h
    obtain ⟨c₃, h₃, h⟩ := bind_eq_ok h
    obtain ⟨⟨returns, c₄⟩, h₄, h⟩ := bind_eq_ok h
    obtain ⟨c₅, h₅, h⟩ := bind_eq_ok h
    obtain ⟨⟨body, c₆⟩, h₆, h⟩ := bind_eq_ok h
    have l₁ := expect_lt h₁
    have l₂ := expect_lt h₂
    have l₃ := expect_lt h₃
    have l₄ := typeName_lt h₄
    have l₅ := expect_lt h₅
    have l₆ := statements_le h₆
    cases h
    omega

theorem memberBody_le
    (h : memberBody name annotations c = .ok (node, d)) : d.rest.length ≤ c.rest.length := by
  obtain ⟨⟨decl, c₁⟩, h₁, h⟩ := bind_eq_ok h
  obtain ⟨c₂, h₂, h⟩ := bind_eq_ok h
  have l₁ := typedMember_lt h₁
  have l₂ := expect_lt h₂
  cases h
  omega

theorem declarationBody_le
    (h : declarationBody name annotations c = .ok (node, d)) :
    d.rest.length ≤ c.rest.length := by
  have l₀ := c.next_le
  unfold declarationBody at h
  split at h
  · have l₁ := structBody_le h
    omega
  split at h
  · have l₁ := functionBody_le h
    omega
  · exact memberBody_le h

theorem tagBody_le {tag : String} (h : tagBody c = .ok (tag, d)) :
    d.rest.length ≤ c.rest.length := by
  obtain ⟨c₁, h₁, h⟩ := bind_eq_ok h
  obtain ⟨⟨name, c₂⟩, h₂, h⟩ := bind_eq_ok h
  obtain ⟨c₃, h₃, h⟩ := bind_eq_ok h
  have l₁ := expect_lt h₁
  have l₂ := identifier_lt h₂
  have l₃ := expect_lt h₃
  cases h
  omega

theorem item_lt {tags : List String} {i : Item} (hc : c.rest ≠ [])
    (h : item tags c = .ok (i, d)) : d.rest.length < c.rest.length := by
  have l₀ := Cursor.next_lt hc
  have l₁ := c.next.next_le
  unfold item at h
  split at h
  · obtain ⟨⟨tag, c₁⟩, h₁, h⟩ := bind_eq_ok h
    have l₃ := tagBody_le h₁
    cases h
    omega
  split at h
  · split at h
    · cases h
    split at h
    · obtain ⟨⟨node, c₁⟩, h₁, h⟩ := bind_eq_ok h
      have l₃ := declarationBody_le h₁
      cases h
      omega
    · cases h
  · cases h

/-- Reads all declarations. Tags must be followed by one. -/
def declarations (tags : List String) (c : Cursor) : Except ParseError (List Node) :=
  if hc : c.rest = [] then
    match tags with
    | [] => .ok []
    | tag :: _ => .error (.ended (.tag tag))
  else
    match h : item tags c with
    | .error e => .error e
    | .ok (.tag tag, d) =>
      have := item_lt hc h
      declarations (tags ++ [tag]) d
    | .ok (.declaration node, d) =>
      have := item_lt hc h
      match declarations [] d with
      | .error e => .error e
      | .ok more => .ok (node :: more)
termination_by c.rest.length

/-- Parses the tokens of a program. -/
def parse (tokens : List String) : Except ParseError Scope :=
  (declarations [] ⟨0, tokens⟩).map Scope.root

end Shader.Program
