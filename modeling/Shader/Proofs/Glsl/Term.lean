import Shader.Proofs.Glsl.Wording

/-!
# Terms

A term is an expression of a resolved tree, with what its handles refer to in their places. Its
text and its words can be told from the term alone: an operand is put in brackets if it is itself an
operation and its operator would be grouped differently. A call of an intrinsic whose body is one
expression is written as that expression, without brackets of its own.
-/

namespace Shader.Glsl

open Arena Program

/-- An expression of a resolved tree. -/
inductive Term where
  | ident (name : String)
  | constant (text : String)
  | call (callee : String) (args : List Term)
  | access (left right : Term)
  | operation (op : Operator) (left right : Term)
  /-- A call of an intrinsic, with the expression that takes its place. -/
  | inlined (body : Term)

namespace Term

/-! ## Terms of a tree -/

/-- The term stands at the handle and is at most `depth` deep. A name is not one of a literal. -/
def AtDepth (t : Tree) : Nat → Handle → Term → Prop
  | 0, _, _ => False
  | depth + 1, h, e =>
    match e with
    | .ident name => ∃ source, t.node? h = some (.ident name source) ∧
        ∀ name body, t.node? source ≠ some (.literal name body)
    | .constant text => t.node? h = some (.constant text)
    | .call callee args => ∃ target hs, t.node? h = some (.call callee target hs) ∧
        List.Forall₂ (AtDepth t depth) hs args
    | .access left right => ∃ l r, t.node? h = some (.access l r) ∧ AtDepth t depth l left ∧
        AtDepth t depth r right
    | .operation op left right => ∃ l r, t.node? h = some (.binary op l r) ∧
        AtDepth t depth l left ∧ AtDepth t depth r right
    | .inlined body => ∃ intrinsic element,
        t.node? h = some (.intrinsicCall intrinsic [element]) ∧ AtDepth t depth element body

/-- The term stands at the handle. No expression is deeper than its tree has nodes. -/
def At (t : Tree) (h : Handle) (e : Term) : Prop := AtDepth t (t.size + 1) h e

/-! ## Texts and words -/

/-- Whether the term is put in brackets as an operand: it is an operation that needs them. -/
def isBracketed (parent : Operator) (isRight : Bool) : Term → Bool
  | .operation child _ _ => needsBrackets child parent isRight
  | _ => false

def enclose (brackets : Bool) (text : String) : String :=
  if brackets then "(" ++ text ++ ")" else text

def encloseWords (brackets : Bool) (ws : List String) : List String :=
  if brackets then "(" :: (ws ++ [")"]) else ws

mutual

def text (s : Spacing) : Term → String
  | .ident name => name
  | .constant text => text
  | .call callee args =>
    spelling callee ++ "(" ++ ("," ++ s.gap).intercalate (texts s args) ++ ")"
  | .access left right => left.text s ++ "." ++ right.text s
  | .operation op left right =>
    Glsl.operation s op (enclose (left.isBracketed op false) (left.text s))
      (enclose (right.isBracketed op true) (right.text s))
  | .inlined body => body.text s

def texts (s : Spacing) : List Term → List String
  | [] => []
  | e :: es => e.text s :: texts s es

end

mutual

def words : Term → List String
  | .ident name => [name]
  | .constant text => constantTokens text
  | .call callee args => spelling callee :: "(" :: commaWords (wordLists args)
  | .access left right => left.words ++ "." :: right.words
  | .operation op left right =>
    encloseWords (left.isBracketed op false) left.words ++
      op.symbol :: encloseWords (right.isBracketed op true) right.words
  | .inlined body => body.words

def wordLists : List Term → List (List String)
  | [] => []
  | e :: es => e.words :: wordLists es

end

mutual

/-- The tree that a term stands for, with the types that are called spelled as in the output. A call
of an intrinsic stands for what takes its place. -/
def node : Term → Program.Node
  | .ident name => .ident name
  | .constant text => .constant text
  | .call callee args => .call (spelling callee) (nodes args)
  | .access left right => .access left.node right.node
  | .operation op left right => .binary op.symbol left.node right.node
  | .inlined body => body.node

def nodes : List Term → List Program.Node
  | [] => []
  | e :: es => e.node :: nodes es

end

theorem texts_eq_map (s : Spacing) (es : List Term) : texts s es = es.map (text s) := by
  induction es with
  | nil => rfl
  | cons e es ih => rw [texts, ih, List.map_cons]

theorem wordLists_eq_map (es : List Term) : wordLists es = es.map words := by
  induction es with
  | nil => rfl
  | cons e es ih => rw [wordLists, ih, List.map_cons]

theorem nodes_eq_map (es : List Term) : nodes es = es.map node := by
  induction es with
  | nil => rfl
  | cons e es ih => rw [nodes, ih, List.map_cons]

/-! ## The text at a handle -/

section Texts

variable {t : Tree} {depth : Nat} {h : Handle} {e : Term}

theorem AtDepth.operandText_eq (he : AtDepth t depth h e) (parent : Operator) (isRight : Bool)
    (text : String) :
    operandText t parent isRight h text = enclose (e.isBracketed parent isRight) text := by
  cases depth with
  | zero => exact he.elim
  | succ depth =>
    unfold operandText
    cases e with
    | ident =>
      obtain ⟨source, hnode, -⟩ := he
      rw [hnode]
      rfl
    | constant =>
      rw [show t.node? h = _ from he]
      rfl
    | inlined =>
      obtain ⟨intrinsic, element, hnode, -⟩ := he
      rw [hnode]
      rfl
    | _ =>
      obtain ⟨_, _, hnode, -⟩ := he
      rw [hnode]
      rfl

theorem mapM_of_forall₂ {f : Handle → Except GenerateError String} {g : Term → String}
    {hs : List Handle} {es : List Term} (h : List.Forall₂ (fun h e => f h = .ok (g e)) hs es) :
    hs.mapM f = .ok (es.map g) := by
  induction h with
  | nil => rfl
  | cons hfirst _ ih =>
    rw [List.mapM_cons, hfirst, ih]
    rfl

theorem AtDepth.exprTextFrom_eq (he : AtDepth t depth h e) (s : Spacing) :
    exprTextFrom t s depth h = .ok (e.text s) := by
  induction depth generalizing h e with
  | zero => exact he.elim
  | succ depth ih =>
    rw [exprTextFrom]
    cases e with
    | ident name =>
      obtain ⟨source, hnode, hsource⟩ := he
      rw [hnode, text]
      dsimp only
      split
      · rename_i hliteral
        exact absurd hliteral (hsource _ _)
      · rfl
    | constant => rw [show t.node? h = _ from he, text]
    | call callee args =>
      obtain ⟨target, hs, hnode, hargs⟩ := he
      rw [hnode, text, texts_eq_map]
      dsimp only
      rw [mapM_of_forall₂ (hargs.imp fun _ _ harg => ih harg)]
      rfl
    | access left right =>
      obtain ⟨l, r, hnode, hleft, hright⟩ := he
      rw [hnode, text]
      dsimp only
      rw [ih hleft, ih hright]
      rfl
    | operation op left right =>
      obtain ⟨l, r, hnode, hleft, hright⟩ := he
      rw [hnode, text]
      dsimp only
      rw [ih hleft, ih hright, ← hleft.operandText_eq, ← hright.operandText_eq]
      rfl
    | inlined body =>
      obtain ⟨intrinsic, element, hnode, hbody⟩ := he
      rw [hnode, text]
      dsimp only
      rw [List.mapM_cons, List.mapM_nil, ih hbody]
      exact congrArg Except.ok (by simp [String.join])

/-- The text of an expression is that of the term that stands there, in any tree. -/
theorem exprText_of_at (he : At t h e) (s : Spacing) : exprText t s h = .ok (e.text s) :=
  he.exprTextFrom_eq s

end Texts

/-! ## Terms from a source -/

open Text Lexeme

/-- The word can be cut out of some source. -/
def IsSourceWord (word : String) : Prop := ∃ source ws, Shader.words source = .ok ws ∧ word ∈ ws

theorem IsSourceWord.isLexed {word : String} (h : IsSourceWord word) : IsLexed word := by
  obtain ⟨source, ws, hws, hmem⟩ := h
  exact (words_eq_ok_iff.mp hws).isLexed word hmem

/-- The term can stand to the right of a point: it is a name or a call. -/
def IsField : Term → Prop
  | .ident _ => True
  | .call .. => True
  | _ => False

/-- The terms over the operators of the language whose names and literals come from a source. To
the right of a point there is a name or a call. -/
inductive IsTerm : Term → Prop
  | ident {name : String} (hname : IsName name) (hword : IsSourceWord name) : IsTerm (.ident name)
  | constant {text : String} (htext : IsConstant text)
      (hwords : ∀ word ∈ constantTokens text, IsSourceWord word) : IsTerm (.constant text)
  | call {callee : String} {args : List Term} (hcallee : IsName (spelling callee))
      (hword : IsSourceWord (spelling callee)) (hargs : ∀ arg ∈ args, IsTerm arg) :
      IsTerm (.call callee args)
  | access {left right : Term} (hleft : IsTerm left) (hright : IsTerm right)
      (hfield : right.IsField) : IsTerm (.access left right)
  | operation {op : Operator} {left right : Term} (hop : op ∈ Operator.all) (hleft : IsTerm left)
      (hright : IsTerm right) : IsTerm (.operation op left right)
  | inlined {body : Term} (hbody : IsTerm body) : IsTerm (.inlined body)

theorem notMem_enclose {brackets : Bool} {text : String} {rest : Source}
    (h : ∀ rest, front (Source.ofString text ++ rest) ∉ ['>', '=', '/', '*']) :
    front (Source.ofString (enclose brackets text) ++ rest) ∉ ['>', '=', '/', '*'] := by
  cases brackets with
  | false => exact h rest
  | true =>
    rw [enclose, if_pos rfl]
    simp only [ofString_append, List.append_assoc]
    change '(' ∉ _
    decide

theorem IsTerm.front_notMem (s : Spacing) {e : Term} (h : IsTerm e) (rest : Source) :
    front (Source.ofString (e.text s) ++ rest) ∉ ['>', '=', '/', '*'] := by
  induction h generalizing rest with
  | ident hname => exact Begins.notMem (Or.inl (front_name hname.1 rest))
  | constant htext hwords =>
    exact (begins_constant htext (fun word hword => (hwords word hword).isLexed) rest).notMem
  | call hcallee =>
    rw [text]
    simp only [ofString_append, List.append_assoc]
    exact Begins.notMem (Or.inl (front_name hcallee.1 _))
  | access hleft hright hfield ihl ihr =>
    rw [text]
    simp only [ofString_append, List.append_assoc]
    exact ihl _
  | @operation op left right hop hleft hright ihl ihr =>
    obtain ⟨a, b, -, -, htext⟩ := operation_spaced s op
      (enclose (left.isBracketed op false) (left.text s))
      (enclose (right.isBracketed op true) (right.text s))
    rw [text, htext, ofString_append, List.append_assoc]
    exact notMem_enclose ihl
  | inlined hbody ih => exact ih rest

/-- The text is read as the words before what may follow a name or a number. -/
def LexesAs (text : String) (ws : List String) : Prop :=
  ∀ (rest : Source) (later : List String), Follows rest → Lexes rest later →
    Lexes (Source.ofString text ++ rest) (ws ++ later)

theorem LexesAs.enclose {text : String} {ws : List String} (h : LexesAs text ws)
    (brackets : Bool) : LexesAs (enclose brackets text) (encloseWords brackets ws) := by
  intro rest later hrest hlater
  cases brackets with
  | false => exact h rest later hrest hlater
  | true =>
    have hclosed := @lexes_punctuation ")" ')' _ _ rfl rfl hlater
    have hinner := h _ _ (follows_cons (by decide)) hclosed
    have hopen := @lexes_punctuation "(" '(' _ _ rfl rfl hinner
    rw [Term.enclose, encloseWords, if_pos rfl, if_pos rfl]
    simp only [ofString_append, List.append_assoc, List.cons_append]
    exact hopen

theorem mem_symbols_of_operator {op : Operator} (h : op ∈ Operator.all) :
    op.symbol ∈ symbols ∧ op.symbol ≠ "." := by
  have hall : ∀ op ∈ Operator.all, op.symbol ∈ symbols ∧ op.symbol ≠ "." := by decide
  exact hall op h

theorem IsTerm.front_field (s : Spacing) {e : Term} (h : IsTerm e) (hfield : e.IsField)
    (rest : Source) : startsIdentifier (front (Source.ofString (e.text s) ++ rest)) = true := by
  cases h with
  | ident hname => exact front_name hname.1 rest
  | call hcallee =>
    rw [text]
    simp only [ofString_append, List.append_assoc]
    exact front_name hcallee.1 _
  | _ => exact hfield.elim

theorem IsTerm.lexesAs (s : Spacing) {e : Term} (h : IsTerm e) : LexesAs (e.text s) e.words := by
  induction h with
  | ident hname hword =>
    intro rest later hrest hlater
    rw [text, words]
    exact lexes_name hname.1 hword.isLexed hrest hlater
  | constant htext hwords =>
    have hback := isReadBack_constant s htext fun word hword => (hwords word hword).isLexed
    intro rest later hrest hlater
    have hread := hback rest later hrest hlater
    rw [sourceText, sourceWords] at hread
    rw [text, words]
    exact hread
  | call hcallee hword hargs ih =>
    intro rest later hrest hlater
    have hread := @lexes_punctuation "(" '(' _ _ rfl rfl (lexes_commas s ih hlater)
    rw [text, words, texts_eq_map, wordLists_eq_map]
    simp only [ofString_append, List.append_assoc, List.cons_append]
    exact lexes_name hcallee.1 hword.isLexed (follows_cons (by decide)) hread
  | access hleft hright hfield ihl ihr =>
    intro rest later hrest hlater
    have hfront := hright.front_field s hfield rest
    have hread := @lexes_punctuation "." '.' _ _ rfl rfl (ihr _ _ hrest hlater)
    rw [text, words]
    simp only [ofString_append, List.append_assoc, List.cons_append]
    exact ihl _ _ ⟨rfl, rfl, fun _ => hfront⟩ hread
  | @operation op left right hop hleft hright ihl ihr =>
    intro rest later hrest hlater
    obtain ⟨a, b, ha, hb, htext⟩ := operation_spaced s op
      (enclose (left.isBracketed op false) (left.text s))
      (enclose (right.isBracketed op true) (right.text s))
    obtain ⟨hmem, hpoint⟩ := mem_symbols_of_operator hop
    have hfront := notMem_gap hb
      (@notMem_enclose (right.isBracketed op true) _ rest (hright.front_notMem s))
    have hread := lexes_symbol hmem hfront
      (lexes_gap hb (ihr.enclose (right.isBracketed op true) _ _ hrest hlater))
    rw [text, words, htext]
    simp only [ofString_append, List.append_assoc, List.cons_append]
    exact ihl.enclose _ _ _ (follows_gap ha (follows_symbol hmem hpoint _)) (lexes_gap ha hread)
  | inlined hbody ih => exact ih

theorem IsTerm.words_text (s : Spacing) {e : Term} (h : IsTerm e) :
    Shader.words (Source.ofString (e.text s)) = .ok e.words := by
  rw [words_eq_ok_iff]
  have hread := h.lexesAs s [] [] ⟨by decide, by decide, fun hpoint => by cases hpoint⟩ .done
  rwa [List.append_nil, List.append_nil] at hread

end Term

end Shader.Glsl
