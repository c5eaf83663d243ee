import Shader.Proofs.Glsl.Body
import Shader.Proofs.Glsl.Minify
import Shader.Proofs.Grammar.RoundTrip
import Shader.Proofs.Token.Lexing

/-!
# The words of a body

The text of an expression is read back as the tokens of that expression, with types in their GLSL
spelling: a declaration of a variable loses its keyword and its colon, and what is called is
spelled as a type would be.
-/

namespace Shader.Program

variable {node : Node}

mutual

/-- Whether no literal stands to the right of a point. -/
def Node.NamesFields : Node → Prop
  | .function _ _ _ statements _ => AllNameFields statements
  | .access left right => left.NamesFields ∧ right.NamesFields ∧ ∀ text, right ≠ .constant text
  | .binary _ left right => left.NamesFields ∧ right.NamesFields
  | .call _ args => AllNameFields args
  | .ret (some value) => value.NamesFields
  | _ => True

/-- Whether no literal stands to the right of a point in any of the trees. -/
def AllNameFields : List Node → Prop
  | [] => True
  | node :: rest => node.NamesFields ∧ AllNameFields rest

end

theorem AllNameFields.of_mem {nodes : List Node} (h : AllNameFields nodes) (hmem : node ∈ nodes) :
    node.NamesFields := by
  induction nodes with
  | nil => cases hmem
  | cons first rest ih =>
    rcases List.mem_cons.mp hmem with rfl | hmem
    · exact h.1
    · exact ih h.2 hmem

theorem head_constantTokens {text : String} (h : IsConstant text) :
    ∃ token more, constantTokens text = token :: more ∧ token ≠ "(" := by
  cases h with
  | plain htext =>
    exact ⟨text, [], constantTokens_of_isLiteral htext, ne_of_isLiteral htext (by decide)⟩
  | negative => exact ⟨"-", _, constantTokens_negative _, by decide⟩

theorem IsValue.head {node : Node} (h : IsValue node) :
    ∃ token more, node.tokens = token :: more ∧ token ≠ "(" := by
  cases h with
  | ident hname => exact ⟨_, [], by rw [Node.tokens], ne_of_isIdentifier hname.1 (by decide)⟩
  | constant htext =>
    rw [Node.tokens]
    exact head_constantTokens htext
  | localVar => exact ⟨"let", _, by rw [Node.tokens], by decide⟩
  | call hcallee => exact ⟨_, _, by rw [Node.tokens], ne_of_isIdentifier hcallee.1 (by decide)⟩
  | access hleft | binary _ _ hleft =>
    obtain ⟨token, more, htokens, hne⟩ := hleft.head
    exact ⟨token, _, by rw [Node.tokens, htokens, List.cons_append], hne⟩

theorem IsExpression.head {node : Node} (h : IsExpression node) :
    ∃ token more, node.tokens = token :: more ∧ token ≠ "(" := by
  cases h with
  | value hnode => exact hnode.head
  | leave => exact ⟨"return", [], by rw [Node.tokens], by decide⟩
  | leaveWith => exact ⟨"return", _, by rw [Node.tokens], by decide⟩

theorem IsExpression.head_append (h : IsExpression node) (tail : List String) :
    (node.tokens ++ tail).head? ≠ some "(" := by
  obtain ⟨token, more, htokens, hne⟩ := h.head
  rw [htokens]
  simpa using hne

end Shader.Program

namespace Shader.Glsl

open Program

variable {gap inner name number outer symbol text token type : String} {rest : Source}
  {args statements : List Program.Node} {left node right : Program.Node} {later : List String}

def glslTokens : List String → List String
  | [] => []
  | "let" :: name :: ":" :: _ :: "<" :: inner :: "*" :: ">" :: rest =>
    inner :: name :: glslTokens rest
  | "let" :: name :: ":" :: _ :: "<" :: inner :: ">" :: rest =>
    spelling inner :: name :: glslTokens rest
  | "let" :: name :: ":" :: type :: rest => spelling type :: name :: glslTokens rest
  | token :: rest =>
    (if rest.head? = some "(" then spelling token else token) :: glslTokens rest

theorem glslTokens_cons {rest : List String} (h : token ≠ "let") :
    glslTokens (token :: rest) =
      (if rest.head? = some "(" then spelling token else token) :: glslTokens rest := by
  rw [glslTokens]
  all_goals
    intros
    contradiction

theorem glslTokens_keep {rest : List String} (h : token ≠ "let")
    (hrest : rest.head? ≠ some "(") : glslTokens (token :: rest) = token :: glslTokens rest := by
  rw [glslTokens_cons h, if_neg hrest]

theorem typeSpelling_plain (h : isIdentifier name = true) : typeSpelling name = spelling name := by
  rw [typeSpelling, splitInstance?_of_isIdentifier h]

theorem typeSpelling_generic (houter : isIdentifier outer = true)
    (hinner : isIdentifier inner = true) :
    typeSpelling (outer ++ "<" ++ inner ++ ">") = spelling inner := by
  rw [typeSpelling, splitInstance?_append houter]
  simp [isPointer_of_isIdentifier hinner]

theorem typeSpelling_pointer (houter : isIdentifier outer = true) :
    typeSpelling (outer ++ "<" ++ inner ++ "*>") = inner := by
  have hassoc : outer ++ "<" ++ inner ++ "*>" = outer ++ "<" ++ (inner ++ "*") ++ ">" := by
    simp only [String.append_assoc]
    rfl
  rw [hassoc, typeSpelling, splitInstance?_append houter]
  simp

theorem glslTokens_let {rest : List String} (htype : IsTypeName type) (hrest : Closes rest) :
    glslTokens ("let" :: name :: ":" :: (typeTokens type ++ rest)) =
      typeSpelling type :: name :: glslTokens rest := by
  cases htype with
  | plain htype =>
    rw [typeTokens_plain htype, typeSpelling_plain htype, List.singleton_append, glslTokens]
    · rintro inner more rfl
      exact hrest.1 rfl
    · rintro inner more rfl
      exact hrest.1 rfl
  | generic houter hinner =>
    rw [typeTokens_generic houter hinner, typeSpelling_generic houter hinner]
    rfl
  | pointer houter hinner =>
    rw [typeTokens_pointer houter, typeSpelling_pointer houter]
    rfl

/-! ## Words of expressions -/

mutual

def sourceWords : Program.Node → List String
  | .ident name => [name]
  | .constant text => constantTokens text
  | .localVar name type => [typeSpelling type, name]
  | .call callee args => spelling callee :: "(" :: argumentWords args
  | .access left right => sourceWords left ++ "." :: sourceWords right
  | .binary symbol left right => sourceWords left ++ symbol :: sourceWords right
  | .ret none => ["return"]
  | .ret (some value) => "return" :: sourceWords value
  | _ => []

def argumentWords : List Program.Node → List String
  | [] => [")"]
  | [last] => sourceWords last ++ [")"]
  | first :: more => sourceWords first ++ "," :: argumentWords more

end

/-- Whether the tokens of an expression are rewritten to its words before what closes it. -/
def IsRewritten (node : Program.Node) : Prop :=
  ∀ rest, Closes rest → glslTokens (node.tokens ++ rest) = sourceWords node ++ glslTokens rest

theorem ne_let_of_isName (h : IsName name) : name ≠ "let" := by
  rintro rfl
  exact absurd h.2 (by decide)

theorem head_argumentTokens (h : ∀ arg ∈ args, IsExpression arg) (rest : List String) :
    (argumentTokens args ++ rest).head? ≠ some "(" := by
  cases args with
  | nil => simp [argumentTokens]
  | cons first more =>
    rw [argumentTokens, List.append_assoc]
    exact (h first (.head _)).head_append _

theorem closes_punctuation {rest : List String} (h : token ∈ [")", ",", ";"]) :
    Closes (token :: rest) := by
  simp only [List.mem_cons, List.not_mem_nil, or_false] at h
  rcases h with rfl | rfl | rfl <;> simp [Closes]

theorem glslTokens_arguments {rest : List String}
    (hexpr : ∀ arg ∈ args, IsExpression arg) (hargs : ∀ arg ∈ args, IsRewritten arg)
    (hrest : rest.head? ≠ some "(") :
    glslTokens (argumentTokens args ++ rest) = argumentWords args ++ glslTokens rest := by
  have hclosed : glslTokens (")" :: rest) = ")" :: glslTokens rest :=
    glslTokens_keep (by decide) hrest
  induction args with
  | nil => rw [argumentTokens, argumentWords, List.singleton_append, hclosed, List.singleton_append]
  | cons first more ih =>
    have hfirst := hargs first (.head _)
    cases more with
    | nil =>
      rw [argumentTokens, laterArgumentTokens, argumentWords, List.append_assoc,
        List.singleton_append, hfirst _ (closes_punctuation (by simp)), hclosed, List.append_assoc,
        List.singleton_append]
    | cons second more =>
      obtain ⟨-, hexprs⟩ := List.forall_mem_cons.mp hexpr
      have hmore := ih hexprs (List.forall_mem_cons.mp hargs).2
      rw [argumentTokens, laterArgumentTokens_of_ne_nil (List.cons_ne_nil _ _), argumentWords,
        List.append_assoc, List.cons_append, hfirst _ (closes_punctuation (by simp)),
        glslTokens_keep (by decide) (head_argumentTokens hexprs rest), hmore, List.append_assoc,
        List.cons_append]
      exact List.cons_ne_nil _ _

theorem glslTokens_operation {rest : List String}
    (hsymbol : 0 < bindingPower symbol) (hright : IsValue right) (hl : IsRewritten left)
    (hr : IsRewritten right) (hrest : Closes rest) :
    glslTokens (left.tokens ++ symbol :: right.tokens ++ rest) =
      sourceWords left ++ symbol :: sourceWords right ++ glslTokens rest := by
  have hlet : symbol ≠ "let" := by
    rintro rfl
    exact absurd hsymbol (by decide)
  rw [List.append_assoc, List.cons_append, hl _ (closes_of_bindingPower hsymbol),
    glslTokens_keep hlet ((IsExpression.value hright).head_append rest), hr rest hrest]
  simp

theorem glslTokens_constant (h : IsConstant text) {rest : List String}
    (hrest : rest.head? ≠ some "(") :
    glslTokens (constantTokens text ++ rest) = constantTokens text ++ glslTokens rest := by
  cases h with
  | plain htext =>
    rw [constantTokens_of_isLiteral htext]
    exact glslTokens_keep (ne_of_isLiteral htext (by decide)) hrest
  | @negative number hnumber =>
    have hliteral := isLiteral_of_isNumericLiteral hnumber
    have hhead : (number :: rest).head? ≠ some "(" := by
      simpa using ne_of_isLiteral hliteral (by decide)
    rw [constantTokens_negative]
    change glslTokens ("-" :: number :: rest) = _
    rw [glslTokens_keep (by decide) hhead,
      glslTokens_keep (ne_of_isLiteral hliteral (by decide)) hrest]
    rfl

mutual

theorem isRewritten_of_isValue {node : Program.Node} : IsValue node → IsRewritten node
  | .ident hname, rest, hrest => by
    rw [Node.tokens, sourceWords, List.singleton_append,
      glslTokens_keep (ne_let_of_isName hname) hrest.2]
    rfl
  | .constant htext, rest, hrest => by
    rw [Node.tokens, sourceWords, glslTokens_constant htext hrest.2]
  | .localVar _ htype, rest, hrest => by
    rw [Node.tokens, sourceWords, List.cons_append, List.cons_append, List.cons_append,
      glslTokens_let htype hrest]
    rfl
  | .call hcallee hargs, rest, hrest => by
    have hall := fun arg harg => isRewritten_of_isExpression (hargs arg harg)
    rw [Node.tokens, sourceWords, List.cons_append, List.cons_append,
      glslTokens_cons (ne_let_of_isName hcallee), List.head?_cons, if_pos rfl,
      glslTokens_keep (by decide) (head_argumentTokens hargs rest),
      glslTokens_arguments hargs hall hrest.2]
    rfl
  | .access hleft hright _, rest, hrest => by
    rw [Node.tokens, sourceWords, glslTokens_operation (by decide) hright
      (isRewritten_of_isValue hleft) (isRewritten_of_isValue hright) hrest]
  | .binary hsymbol _ hleft hright _, rest, hrest => by
    rw [Node.tokens, sourceWords, glslTokens_operation hsymbol hright
      (isRewritten_of_isValue hleft) (isRewritten_of_isValue hright) hrest]

theorem isRewritten_of_isExpression {node : Program.Node} : IsExpression node → IsRewritten node
  | .value hnode, rest, hrest => isRewritten_of_isValue hnode rest hrest
  | .leave, rest, hrest => by
    rw [Node.tokens, sourceWords, List.singleton_append, glslTokens_keep (by decide) hrest.2]
    rfl
  | .leaveWith hvalue, rest, hrest => by
    rw [Node.tokens, sourceWords, List.cons_append,
      glslTokens_keep (by decide) ((IsExpression.value hvalue).head_append rest),
      isRewritten_of_isValue hvalue rest hrest]
    rfl

end

/-! ## Names and fronts -/

open Text Lexeme

/-- A name that can be cut out of a source. -/
structure IsLexedName (name : String) : Prop where
  identifier : isIdentifier name = true
  lexed : IsLexed name

theorem IsLexedName.spelling {name : String} (h : IsLexedName name) :
    IsLexedName (spelling name) := by
  have hall : ∀ p ∈ typeSpellings, isIdentifier p.2 = true ∧
      p.2.toList.all fun c => startsIdentifier c = true ∨ isAsciiDigit c = true := by decide
  unfold Glsl.spelling spelling?
  cases hfind : typeSpellings.find? (·.1 = name) with
  | none => exact h
  | some p =>
    obtain ⟨hid, hchars⟩ := hall p (List.mem_of_find?_eq_some hfind)
    refine ⟨hid, fun _ => List.all_iff_forall_prop.mp hchars, fun hnumber => ?_⟩
    exact absurd (isNumericLiteral_of_isIdentifier hid) (Bool.ne_false_iff.mpr hnumber)

theorem isLexedName_typeSpelling (htype : IsTypeName type)
    (hlexed : ∀ token ∈ typeTokens type, IsLexed token) : IsLexedName (typeSpelling type) := by
  cases htype with
  | plain hname =>
    rw [typeTokens_plain hname] at hlexed
    rw [typeSpelling_plain hname]
    exact IsLexedName.spelling ⟨hname, hlexed _ (by simp)⟩
  | generic houter hinner =>
    rw [typeTokens_generic houter hinner] at hlexed
    rw [typeSpelling_generic houter hinner]
    exact IsLexedName.spelling ⟨hinner, hlexed _ (by simp)⟩
  | pointer houter hinner =>
    rw [typeTokens_pointer houter] at hlexed
    rw [typeSpelling_pointer houter]
    exact ⟨hinner, hlexed _ (by simp)⟩

@[simp]
theorem ofString_append (a b : String) :
    Source.ofString (a ++ b) = Source.ofString a ++ Source.ofString b := by
  simp [Source.ofString, String.toList_append]

theorem front_name (h : isIdentifier name = true) (rest : Source) :
    startsIdentifier (front (Source.ofString name ++ rest)) = true := by
  obtain ⟨c, cs, hc, hstart, -⟩ := isIdentifier_cons h
  rw [Source.ofString, hc]
  exact hstart

theorem front_number (h : isNumericLiteral number = true)
    (hlexed : IsLexed number) (rest : Source) :
    isAsciiDigit (front (Source.ofString number ++ rest)) = true := by
  obtain ⟨c, cs, hc, hdigit⟩ := (hlexed.number h).head
  rw [Source.ofString, hc]
  exact hdigit

/-- An operand stands in front. -/
def Begins (rest : Source) : Prop :=
  startsIdentifier (front rest) = true ∨ isAsciiDigit (front rest) = true ∨ front rest = '-'

theorem Begins.notMem (h : Begins rest) : front rest ∉ ['>', '=', '/', '*'] := by
  intro hmem
  have hall : ∀ c ∈ ['>', '=', '/', '*'], startsIdentifier c = false ∧ isAsciiDigit c = false ∧
      c ≠ '-' := List.all_iff_forall_prop.mp (by decide)
  obtain ⟨hname, hdigit, hminus⟩ := hall _ hmem
  rcases h with h | h | h
  · rw [hname] at h
    cases h
  · rw [hdigit] at h
    cases h
  · exact hminus h

theorem begins_constant (h : IsConstant text)
    (hlexed : ∀ token ∈ constantTokens text, IsLexed token) (rest : Source) :
    Begins (Source.ofString text ++ rest) := by
  cases h with
  | plain htext =>
    rw [constantTokens_of_isLiteral htext] at hlexed
    simp only [isLiteral, Bool.or_eq_true, decide_eq_true_eq] at htext
    rcases htext with (rfl | rfl) | hnumber
    · exact Or.inl (front_name (by decide) rest)
    · exact Or.inl (front_name (by decide) rest)
    · exact Or.inr (Or.inl (front_number hnumber (hlexed _ (by simp)) rest))
  | negative =>
    rw [ofString_append]
    exact Or.inr (Or.inr rfl)

theorem exists_operator (hsymbol : 0 < bindingPower symbol) (haccess : symbol ≠ ".") :
    ∃ op, Arena.Operator.ofSymbol? symbol = some op := by
  have hall : ∀ t ∈ operatorSymbols, t ≠ "." → (Arena.Operator.ofSymbol? t).isSome = true := by
    decide
  exact Option.isSome_iff_exists.mp (hall symbol (mem_operatorSymbols hsymbol) haccess)

theorem Spacing.gap_mem (s : Spacing) : s.gap ∈ ["", " "] := by
  unfold Spacing.gap
  split <;> simp

theorem operation_spaced (s : Spacing) (op : Arena.Operator) (left right : String) :
    ∃ a b, a ∈ ["", " "] ∧ b ∈ ["", " "] ∧
      operation s op left right = left ++ (a ++ (op.symbol ++ (b ++ right))) := by
  have hgap := s.gap_mem
  unfold operation
  split
  · exact ⟨"", " ", by simp, by simp, by simp [String.append_assoc]⟩
  · exact ⟨s.gap, s.gap, hgap, hgap, by simp only [String.append_assoc]⟩

theorem sourceText_binary (s : Spacing)
    (hsymbol : 0 < bindingPower symbol) (haccess : symbol ≠ ".") :
    ∃ a b, a ∈ ["", " "] ∧ b ∈ ["", " "] ∧ sourceText s (.binary symbol left right) =
      sourceText s left ++ (a ++ (symbol ++ (b ++ sourceText s right))) := by
  obtain ⟨op, hop⟩ := exists_operator hsymbol haccess
  rw [sourceText, hop, ← (ofSymbol?_spec hop).1]
  exact operation_spaced ..

theorem begins_value (s : Spacing) {node : Program.Node} (h : IsValue node)
    (hlexed : ∀ token ∈ node.tokens, IsLexed token) (rest : Source) :
    Begins (Source.ofString (sourceText s node) ++ rest) := by
  cases h with
  | ident hname =>
    rw [sourceText]
    exact Or.inl (front_name hname.1 rest)
  | constant htext =>
    rw [Node.tokens] at hlexed
    rw [sourceText]
    exact begins_constant htext hlexed rest
  | localVar hname htype =>
    rw [Node.tokens] at hlexed
    have htype := isLexedName_typeSpelling htype fun token htoken => hlexed token (by simp [htoken])
    rw [sourceText, ofString_append, ofString_append, List.append_assoc, List.append_assoc]
    exact Or.inl (front_name htype.identifier _)
  | call hcallee hargs =>
    rw [Node.tokens] at hlexed
    have hname : IsLexedName _ := ⟨hcallee.1, hlexed _ (.head _)⟩
    rw [sourceText]
    simp only [ofString_append, List.append_assoc]
    exact Or.inl (front_name hname.spelling.identifier _)
  | access hleft =>
    rw [Node.tokens] at hlexed
    rw [sourceText]
    simp only [ofString_append, List.append_assoc]
    exact begins_value s hleft (fun token htoken => hlexed token (by simp [htoken])) _
  | binary hsymbol haccess hleft =>
    obtain ⟨a, b, -, -, htext⟩ := sourceText_binary s hsymbol haccess
    rw [Node.tokens] at hlexed
    rw [htext, ofString_append, List.append_assoc]
    exact begins_value s hleft (fun token htoken => hlexed token (by simp [htoken])) _

/-- What stands to the right of a point is a name, a call or a declaration, unless it is a
literal. -/
theorem front_field (s : Spacing) (h : IsValue right) (hgroups : Groups "." left right)
    (hconstant : ∀ text, right ≠ .constant text) (hlexed : ∀ token ∈ right.tokens, IsLexed token)
    (rest : Source) :
    startsIdentifier (front (Source.ofString (sourceText s right) ++ rest)) = true := by
  have hpower : bindingPower "." < right.power := hgroups.2
  cases h with
  | ident hname =>
    rw [sourceText]
    exact front_name hname.1 rest
  | constant => exact absurd rfl (hconstant _)
  | localVar hname htype =>
    rw [Node.tokens] at hlexed
    have htype := isLexedName_typeSpelling htype fun token htoken => hlexed token (by simp [htoken])
    rw [sourceText]
    simp only [ofString_append, List.append_assoc]
    exact front_name htype.identifier _
  | call hcallee hargs =>
    rw [Node.tokens] at hlexed
    have hname : IsLexedName _ := ⟨hcallee.1, hlexed _ (.head _)⟩
    rw [sourceText]
    simp only [ofString_append, List.append_assoc]
    exact front_name hname.spelling.identifier _
  | access => exact absurd hpower (Nat.lt_irrefl _)
  | binary => exact absurd hpower (Nat.not_lt.mpr (bindingPower_le _))

/-! ## Reading the text of an expression -/

theorem lexes_gap (hgap : gap ∈ ["", " "]) (h : Lexes rest later) :
    Lexes (Source.ofString gap ++ rest) later := by
  simp only [List.mem_cons, List.not_mem_nil, or_false] at hgap
  rcases hgap with rfl | rfl
  · exact h
  · exact lexes_blank (Or.inl rfl) h

theorem follows_cons {c : Char}
    (h : startsIdentifier c = false ∧ isAsciiDigit c = false ∧ c ≠ '.') :
    Follows (.char c :: rest) :=
  ⟨h.1, h.2.1, fun hpoint => absurd hpoint h.2.2⟩

theorem follows_gap (hgap : gap ∈ ["", " "]) (h : Follows rest) :
    Follows (Source.ofString gap ++ rest) := by
  simp only [List.mem_cons, List.not_mem_nil, or_false] at hgap
  rcases hgap with rfl | rfl
  · exact h
  · exact follows_cons (by decide)

theorem notMem_gap (hgap : gap ∈ ["", " "]) (h : front rest ∉ ['>', '=', '/', '*']) :
    front (Source.ofString gap ++ rest) ∉ ['>', '=', '/', '*'] := by
  simp only [List.mem_cons, List.not_mem_nil, or_false] at hgap
  rcases hgap with rfl | rfl
  · exact h
  · change ' ' ∉ _
    decide

theorem follows_symbol (h : symbol ∈ symbols) (hpoint : symbol ≠ ".") (rest : Source) :
    Follows (Source.ofString symbol ++ rest) := by
  simp only [symbols, List.mem_cons, List.not_mem_nil, or_false] at h
  rcases h with rfl | rfl | rfl | rfl | rfl | rfl | rfl | rfl | rfl | rfl | rfl | rfl
  case inr.inr.inr.inr.inr.inr.inr.inl => exact absurd rfl hpoint
  all_goals exact follows_cons (by decide)

theorem mem_symbols_of_bindingPower (h : 0 < bindingPower symbol) : symbol ∈ symbols := by
  have hall : ∀ t ∈ operatorSymbols, t ∈ symbols := by decide
  exact hall symbol (mem_operatorSymbols h)

/-- Whether the text of an expression is read back as its words before what follows it. -/
def IsReadBack (s : Spacing) (node : Program.Node) : Prop :=
  ∀ (rest : Source) (later : List String), Follows rest → Lexes rest later →
    Lexes (Source.ofString (sourceText s node) ++ rest) (sourceWords node ++ later)

theorem isReadBack_constant (s : Spacing) (h : IsConstant text)
    (hlexed : ∀ token ∈ constantTokens text, IsLexed token) : IsReadBack s (.constant text) := by
  intro rest later hrest hlater
  rw [sourceText, sourceWords]
  cases h with
  | plain htext =>
    rw [constantTokens_of_isLiteral htext] at hlexed ⊢
    have hlexed := hlexed text (.head _)
    simp only [isLiteral, Bool.or_eq_true, decide_eq_true_eq] at htext
    rcases htext with (rfl | rfl) | hnumber
    · exact lexes_name (by decide) hlexed hrest hlater
    · exact lexes_name (by decide) hlexed hrest hlater
    · exact lexes_number hnumber hlexed hrest hlater
  | negative hnumber =>
    rw [constantTokens_negative] at hlexed ⊢
    have hlexed := hlexed _ (.tail _ (.head _))
    have hbegins : Begins (Source.ofString _ ++ rest) :=
      Or.inr (Or.inl (front_number hnumber hlexed rest))
    rw [ofString_append, List.append_assoc]
    exact lexes_symbol (by decide) hbegins.notMem (lexes_number hnumber hlexed hrest hlater)

theorem isReadBack_localVar (s : Spacing) (hname : IsLexedName name)
    (htype : IsLexedName (typeSpelling type)) : IsReadBack s (.localVar name type) := by
  intro rest later hrest hlater
  have hlater := lexes_name hname.identifier hname.lexed hrest hlater
  rw [sourceText, sourceWords]
  simp only [ofString_append, List.append_assoc]
  exact lexes_name htype.identifier htype.lexed (follows_cons (by decide))
    (lexes_blank (Or.inl rfl) hlater)

theorem isReadBack_binary (s : Spacing) (hsymbol : 0 < bindingPower symbol) (haccess : symbol ≠ ".")
    (hright : IsValue right) (hlexed : ∀ token ∈ right.tokens, IsLexed token)
    (hl : IsReadBack s left) (hr : IsReadBack s right) :
    IsReadBack s (.binary symbol left right) := by
  intro rest later hrest hlater
  obtain ⟨a, b, ha, hb, htext⟩ := sourceText_binary s hsymbol haccess
  have hmem := mem_symbols_of_bindingPower hsymbol
  have hbegins := begins_value s hright hlexed rest
  have hlater := lexes_symbol hmem (notMem_gap hb hbegins.notMem)
    (lexes_gap hb (hr _ _ hrest hlater))
  rw [htext, sourceWords]
  simp only [ofString_append, List.append_assoc, List.cons_append]
  exact hl _ _ (follows_gap ha (follows_symbol hmem haccess _)) (lexes_gap ha hlater)

theorem isReadBack_access (s : Spacing) (hright : IsValue right) (hgroups : Groups "." left right)
    (hconstant : ∀ text, right ≠ .constant text) (hlexed : ∀ token ∈ right.tokens, IsLexed token)
    (hl : IsReadBack s left) (hr : IsReadBack s right) : IsReadBack s (.access left right) := by
  intro rest later hrest hlater
  have hfront := front_field s hright hgroups hconstant hlexed rest
  have hlater := @lexes_punctuation "." '.' _ _ rfl rfl (hr _ _ hrest hlater)
  rw [sourceText, sourceWords]
  simp only [ofString_append, List.append_assoc, List.cons_append]
  exact hl _ _ ⟨rfl, rfl, fun _ => hfront⟩ hlater

/-- The words of arguments with the commas between them and the closing bracket. -/
def commaWords : List (List String) → List String
  | [] => [")"]
  | [last] => last ++ [")"]
  | first :: more => first ++ "," :: commaWords more

theorem commaWords_cons {first : List String} {more : List (List String)} (h : more ≠ []) :
    commaWords (first :: more) = first ++ "," :: commaWords more := by
  rw [commaWords]
  exact h

theorem lexes_commas {α : Type} (s : Spacing) {text : α → String} {ws : α → List String}
    {args : List α}
    (hargs : ∀ arg ∈ args, ∀ (rest : Source) (later : List String), Follows rest →
      Lexes rest later → Lexes (Source.ofString (text arg) ++ rest) (ws arg ++ later))
    (hlater : Lexes rest later) :
    Lexes (Source.ofString (("," ++ s.gap).intercalate (args.map text)) ++
      (Source.ofString ")" ++ rest)) (commaWords (args.map ws) ++ later) := by
  have hclosed := @lexes_punctuation ")" ')' _ _ rfl rfl hlater
  have hgap := s.gap_mem
  induction args with
  | nil => exact hclosed
  | cons first more ih =>
    obtain ⟨hfirst, hmore⟩ := List.forall_mem_cons.mp hargs
    cases more with
    | nil =>
      rw [List.map_singleton, List.map_singleton, String.intercalate_singleton, commaWords,
        List.append_assoc]
      exact hfirst _ _ (follows_cons (by decide)) hclosed
    | cons second more =>
      have hlater := @lexes_punctuation "," ',' _ _ rfl rfl (lexes_gap hgap (ih hmore))
      rw [List.map_cons] at hlater
      rw [List.map_cons, List.map_cons, String.intercalate_cons_cons, List.map_cons,
        commaWords_cons (by simp)]
      simp only [ofString_append, List.append_assoc, List.cons_append]
      exact hfirst _ _ (follows_cons (by decide)) hlater

theorem sourceTexts_eq_map (s : Spacing) (args : List Program.Node) :
    sourceTexts s args = args.map (sourceText s) := by
  induction args with
  | nil => rfl
  | cons first more ih => rw [sourceTexts, ih, List.map_cons]

theorem argumentWords_eq_commaWords (args : List Program.Node) :
    argumentWords args = commaWords (args.map sourceWords) := by
  induction args with
  | nil => rw [argumentWords, List.map_nil, commaWords]
  | cons first more ih =>
    cases more with
    | nil => rw [argumentWords, List.map_singleton, commaWords]
    | cons second more =>
      rw [argumentWords, ih, @List.map_cons _ _ sourceWords first, commaWords_cons (by simp)]
      exact List.cons_ne_nil _ _

theorem lexes_arguments (s : Spacing) (hargs : ∀ arg ∈ args, IsReadBack s arg)
    (hlater : Lexes rest later) :
    Lexes (Source.ofString (("," ++ s.gap).intercalate (sourceTexts s args)) ++
      (Source.ofString ")" ++ rest)) (argumentWords args ++ later) := by
  rw [sourceTexts_eq_map, argumentWords_eq_commaWords]
  exact lexes_commas s hargs hlater

theorem isReadBack_call (s : Spacing) {callee : String} (hcallee : IsLexedName callee)
    (hargs : ∀ arg ∈ args, IsReadBack s arg) : IsReadBack s (.call callee args) := by
  intro rest later hrest hlater
  have hname := hcallee.spelling
  have hlater := @lexes_punctuation "(" '(' _ _ rfl rfl (lexes_arguments s hargs hlater)
  rw [sourceText, sourceWords]
  simp only [ofString_append, List.append_assoc, List.cons_append]
  exact lexes_name hname.identifier hname.lexed (follows_cons (by decide)) hlater

mutual

theorem isReadBack_of_isValue (s : Spacing) {node : Program.Node} :
    IsValue node → node.NamesFields → (∀ token ∈ node.tokens, IsLexed token) → IsReadBack s node
  | .ident hname, _, hlexed => by
    intro rest later hrest hlater
    rw [Node.tokens] at hlexed
    rw [sourceText, sourceWords]
    exact lexes_name hname.1 (hlexed _ (.head _)) hrest hlater
  | .constant htext, _, hlexed => by
    rw [Node.tokens] at hlexed
    exact isReadBack_constant s htext hlexed
  | .localVar hname htype, _, hlexed => by
    rw [Node.tokens] at hlexed
    have htype := isLexedName_typeSpelling htype fun token htoken => hlexed token (by simp [htoken])
    exact isReadBack_localVar s ⟨hname, hlexed _ (by simp)⟩ htype
  | .call hcallee hargs, hfields, hlexed => by
    rw [Node.NamesFields] at hfields
    rw [Node.tokens] at hlexed
    refine isReadBack_call s ⟨hcallee.1, hlexed _ (.head _)⟩ fun arg harg => ?_
    refine isReadBack_of_isExpression s (hargs arg harg) (hfields.of_mem harg)
      fun token htoken => ?_
    have hmem := tokens_subset_argumentTokens harg htoken
    exact hlexed token (by simp [hmem])
  | .access hleft hright hgroups, hfields, hlexed => by
    rw [Node.NamesFields] at hfields
    rw [Node.tokens] at hlexed
    have hl := isReadBack_of_isValue s hleft hfields.1 fun token h => hlexed token (by simp [h])
    have hr := isReadBack_of_isValue s hright hfields.2.1 fun token h => hlexed token (by simp [h])
    exact isReadBack_access s hright hgroups hfields.2.2 (fun token h => hlexed token (by simp [h]))
      hl hr
  | .binary hsymbol haccess hleft hright _, hfields, hlexed => by
    rw [Node.NamesFields] at hfields
    rw [Node.tokens] at hlexed
    have hl := isReadBack_of_isValue s hleft hfields.1 fun token h => hlexed token (by simp [h])
    have hr := isReadBack_of_isValue s hright hfields.2 fun token h => hlexed token (by simp [h])
    exact isReadBack_binary s hsymbol haccess hright (fun token h => hlexed token (by simp [h]))
      hl hr

theorem isReadBack_of_isExpression (s : Spacing) {node : Program.Node} :
    IsExpression node → node.NamesFields → (∀ token ∈ node.tokens, IsLexed token) →
      IsReadBack s node
  | .value hnode, hfields, hlexed => isReadBack_of_isValue s hnode hfields hlexed
  | .leave, _, hlexed => by
    intro rest later hrest hlater
    rw [Node.tokens] at hlexed
    rw [sourceText, sourceWords]
    exact lexes_name (by decide) (hlexed _ (.head _)) hrest hlater
  | .leaveWith hvalue, hfields, hlexed => by
    intro rest later hrest hlater
    rw [Node.NamesFields] at hfields
    rw [Node.tokens] at hlexed
    have hv := isReadBack_of_isValue s hvalue hfields fun token h => hlexed token (by simp [h])
    have hword := @lexes_name "return" (.char ' ' :: (Source.ofString (sourceText s _) ++ rest)) _
      (by decide) (hlexed _ (.head _)) (follows_cons (by decide))
      (lexes_blank (Or.inl rfl) (hv _ _ hrest hlater))
    rw [sourceText, sourceWords, ofString_append]
    exact hword

end

/-! ## Statements -/

/-- The text is not empty and does not close a statement. -/
def IsOpen (text : String) : Prop := text ≠ "" ∧ isClosed text = false

theorem IsOpen.append (h : IsOpen text) (before : String) : IsOpen (before ++ text) := by
  refine ⟨?_, ?_⟩
  · rw [Ne, String.append_eq_empty_iff]
    exact fun hempty => h.1 hempty.2
  · rw [isClosed_append, if_neg h.1, h.2]

theorem isOpen_of_chars (hne : text ≠ "") (h : ∀ c ∈ text.toList, c ≠ ';' ∧ c ≠ '\x7d') :
    IsOpen text := by
  refine ⟨hne, ?_⟩
  unfold isClosed
  rw [Bool.or_eq_false_iff, decide_eq_false_iff_not, decide_eq_false_iff_not]
  exact ⟨fun hlast => (h _ (List.mem_of_getLast? hlast)).1 rfl,
    fun hlast => (h _ (List.mem_of_getLast? hlast)).2 rfl⟩

theorem isOpen_name (h : isIdentifier name = true) : IsOpen name := by
  refine isOpen_of_chars (ne_of_isIdentifier h (by decide)) fun c hc => ⟨?_, ?_⟩
  · rintro rfl
    exact notMem_of_isIdentifier h (by decide) hc
  · rintro rfl
    exact notMem_of_isIdentifier h (by decide) hc

theorem isOpen_number (h : isNumericLiteral number = true) (hlexed : IsLexed number) :
    IsOpen number := by
  have hne : number ≠ "" := by
    rintro rfl
    exact absurd h (by decide)
  refine isOpen_of_chars hne fun c hc => ⟨?_, ?_⟩
  · rintro rfl
    exact absurd ((hlexed.number h).chars _ hc) (by decide)
  · rintro rfl
    exact absurd ((hlexed.number h).chars _ hc) (by decide)

theorem isOpen_constant (h : IsConstant text)
    (hlexed : ∀ token ∈ constantTokens text, IsLexed token) : IsOpen text := by
  cases h with
  | plain htext =>
    rw [constantTokens_of_isLiteral htext] at hlexed
    simp only [isLiteral, Bool.or_eq_true, decide_eq_true_eq] at htext
    rcases htext with (rfl | rfl) | hnumber
    · exact isOpen_name (by decide)
    · exact isOpen_name (by decide)
    · exact isOpen_number hnumber (hlexed _ (.head _))
  | negative hnumber =>
    rw [constantTokens_negative] at hlexed
    exact (isOpen_number hnumber (hlexed _ (by simp))).append "-"

theorem isOpen_value (s : Spacing) {node : Program.Node} (h : IsValue node)
    (hlexed : ∀ token ∈ node.tokens, IsLexed token) : IsOpen (sourceText s node) := by
  cases h with
  | ident hname =>
    rw [sourceText]
    exact isOpen_name hname.1
  | constant htext =>
    rw [Node.tokens] at hlexed
    rw [sourceText]
    exact isOpen_constant htext hlexed
  | localVar hname =>
    rw [sourceText]
    exact (isOpen_name hname).append _
  | call =>
    rw [sourceText]
    exact IsOpen.append ⟨by decide, by decide⟩ _
  | access _ hright =>
    rw [Node.tokens] at hlexed
    rw [sourceText]
    exact (isOpen_value s hright fun token h => hlexed token (by simp [h])).append _
  | binary hsymbol haccess _ hright =>
    obtain ⟨a, b, -, -, htext⟩ := sourceText_binary s hsymbol haccess
    rw [Node.tokens] at hlexed
    rw [htext]
    have hopen := isOpen_value s hright fun token h => hlexed token (by simp [h])
    exact (((hopen.append b).append _).append a).append _

theorem isOpen_expression (s : Spacing) (h : IsExpression node)
    (hlexed : ∀ token ∈ node.tokens, IsLexed token) : IsOpen (sourceText s node) := by
  cases h with
  | value hnode => exact isOpen_value s hnode hlexed
  | leave =>
    rw [sourceText]
    exact isOpen_name (by decide)
  | leaveWith hvalue =>
    rw [Node.tokens] at hlexed
    rw [sourceText]
    exact (isOpen_value s hvalue fun token h => hlexed token (by simp [h])).append _

theorem statementLines_cons (h : IsOpen text) (more : List String) :
    statementLines (text :: more) = ⟨1, text ++ ";"⟩ :: statementLines more := by
  unfold statementLines
  rw [List.filter_cons_of_pos (by simpa using h.1), List.map_cons, terminated_eq, h.2,
    if_neg Bool.false_ne_true]

theorem lexes_indent {n : Nat} (h : Lexes rest later) :
    Lexes (Source.ofString (String.join (List.replicate n "    ")) ++ rest) later := by
  induction n with
  | zero => exact h
  | succ n ih =>
    have hblank : (' ' : Char) = ' ' ∨ ' ' = '\n' := Or.inl rfl
    rw [List.replicate_succ, String.join_cons, ofString_append, List.append_assoc]
    exact lexes_blank hblank (lexes_blank hblank (lexes_blank hblank (lexes_blank hblank ih)))

theorem lexes_line (s : Spacing) (h : IsReadBack s node) (hlater : Lexes rest later) :
    Lexes (Source.ofString (Line.render s ⟨1, sourceText s node ++ ";"⟩) ++ rest)
      (sourceWords node ++ ";" :: later) := by
  have hclosed {rest : Source} (hlater : Lexes rest later) :
      Lexes (Source.ofString (sourceText s node ++ ";") ++ rest)
        (sourceWords node ++ ";" :: later) := by
    rw [ofString_append, List.append_assoc]
    exact h _ _ (follows_cons (by decide)) (@lexes_punctuation ";" ';' _ _ rfl rfl hlater)
  unfold Line.render
  split
  · exact hclosed hlater
  · rw [ofString_append, ofString_append, List.append_assoc, List.append_assoc]
    exact lexes_indent (hclosed (lexes_blank (Or.inr rfl) hlater))

/-- The text of a body is read back as the words of its statements. -/
theorem lexes_statements (s : Spacing) (hexpr : ∀ node ∈ statements, IsExpression node)
    (hfields : AllNameFields statements)
    (hlexed : ∀ node ∈ statements, ∀ token ∈ node.tokens, IsLexed token) :
    Lexes (Source.ofString (renderLines s (statementLines (sourceTexts s statements))))
      (statements.flatMap fun node => sourceWords node ++ [";"]) := by
  induction statements with
  | nil => exact .done
  | cons first more ih =>
    obtain ⟨hfirst, hmore⟩ := List.forall_mem_cons.mp hexpr
    obtain ⟨hlexed, hlexed'⟩ := List.forall_mem_cons.mp hlexed
    have hread := isReadBack_of_isExpression s hfirst hfields.1 hlexed
    have hline := lexes_line s hread (ih hmore hfields.2 hlexed')
    rw [sourceTexts, statementLines_cons (isOpen_expression s hfirst hlexed), renderLines,
      List.map_cons, String.join_cons, ofString_append, List.flatMap_cons, List.append_assoc]
    exact hline

theorem glslTokens_statements (hexpr : ∀ node ∈ statements, IsExpression node) :
    glslTokens (statements.flatMap fun node => node.tokens ++ [";"]) =
      statements.flatMap fun node => sourceWords node ++ [";"] := by
  induction statements with
  | nil => rfl
  | cons first more ih =>
    obtain ⟨hfirst, hmore⟩ := List.forall_mem_cons.mp hexpr
    have hhead : (more.flatMap fun node => node.tokens ++ [";"]).head? ≠ some "(" := by
      cases more with
      | nil => simp
      | cons next later =>
        rw [List.flatMap_cons, List.append_assoc]
        exact (hmore next (.head _)).head_append _
    rw [List.flatMap_cons, List.flatMap_cons, List.append_assoc, List.singleton_append,
      isRewritten_of_isExpression hfirst _ (closes_punctuation (by simp)),
      glslTokens_keep (by decide) hhead, ih hmore]
    simp

end Shader.Glsl
