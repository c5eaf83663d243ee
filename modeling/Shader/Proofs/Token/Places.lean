import Mathlib.Data.List.Forall2
import Shader.Proofs.Token.Lossless

/-!
# Places of tokens

A token is reported with a line and a column. Main statement: the line is that of its first symbol,
and the column is that of its first symbol moved left by the bytes that its text has in excess of
its symbols. So both are true for every token of ASCII characters, whatever stands before it.
-/

namespace Shader

open Text Lexeme

variable {rest source text : Source} {tokens : List Token} {token : Token} {p : Position}

/-- A token stands in a source: the symbols before it and its own symbols. -/
structure Site where
  before : Source
  text : Source

/-- The symbols of the token with their places in the source. -/
def Site.symbols (site : Site) : List (Symbol × Nat) := site.text.zipIdx site.before.length

/-- The token stands at the site. -/
structure Token.StandsAt (source : Source) (token : Token) (site : Site) : Prop where
  source : ∃ rest, source = site.before ++ site.text ++ rest
  text : Source.ofString token.text = site.text
  position : token.position = Token.place (.behind site.before) site.text

theorem filter_symbols (htext : ∀ s ∈ text, s.isLegal = true ∧ s.isBlank = false) (i : Nat) :
    (text.zipIdx i).filter (!·.1.isBlank) = text.zipIdx i := by
  refine List.filter_eq_self.mpr fun x hx => ?_
  have hmem := List.mem_map_of_mem (f := Prod.fst) hx
  rw [List.zipIdx_map_fst] at hmem
  rw [(htext _ hmem).2]
  rfl

/-- The tokens stand one after another where the scan for comments finds their symbols. -/
theorem exists_sites {before : Source} (hsource : source = before ++ rest)
    (hp : p = Position.behind before) (hrun : tokenizeFrom source p rest = .ok tokens) :
    ∃ sites, List.Forall₂ (Token.StandsAt source) tokens sites ∧
      (codeFrom .code before.length rest).filter (!·.1.isBlank) = sites.flatMap Site.symbols := by
  fun_induction tokenizeFrom source p rest generalizing before tokens with
  | case1 =>
    cases hrun
    exact ⟨[], .nil, rfl⟩
  | case2 => cases hrun
  | case3 p s more extent hclass ih =>
    have hsplit : source = (before ++ s :: more.take extent) ++ more.drop extent := by
      simp [hsource]
    obtain ⟨sites, hall, hcode⟩ := ih hsplit (by rw [hp, behind_append]) hrun
    refine ⟨sites, hall, ?_⟩
    have hlength : before.length + (1 + (more.take extent).length) =
        (before ++ s :: more.take extent).length := by
      simp
      omega
    have hcut := hclass ▸ cuts_classify s more
    cases hcut with
    | line hs hmore =>
      subst hs
      rw [codeFrom_lineComment hmore, ← Nat.add_assoc, codeFrom_drop, Nat.add_assoc, hlength]
      exact hcode
    | block hs hmore =>
      subst hs
      rw [codeFrom_blockComment hmore, ← Nat.add_assoc, codeFrom_drop, Nat.add_assoc, hlength]
      exact hcode
    | blank hs =>
      have hslash : s ≠ .char '/' := by
        rintro rfl
        cases hs
      rw [codeFrom_cons hslash, List.filter_cons_of_neg (by simp [hs])]
      simpa using hcode
  | case4 p s more extent hclass text later hlater =>
    rename_i ih
    cases hrun
    have hsplit : source = (before ++ text) ++ more.drop extent := by simp [hsource, text]
    obtain ⟨sites, hall, hcode⟩ := ih hsplit (by rw [hp, behind_append]) hlater
    obtain ⟨htext, hfirst⟩ := codeFrom_token hclass before.length
    refine ⟨⟨before, text⟩ :: sites, .cons ⟨⟨_, hsplit⟩, ?_, by rw [hp]⟩ hall, ?_⟩
    · exact ofString_shown fun s hs => (htext s hs).1
    · rw [List.length_append] at hcode
      rw [hfirst, List.filter_append, filter_symbols htext, hcode, List.flatMap_cons]
      rfl
  | case5 => cases hrun

theorem width_eq_length (htext : ∀ s ∈ text, s.width = 1) : text.width = text.length := by
  induction text with
  | nil => rfl
  | cons s text ih =>
    rw [Source.width, htext s (.head _), ih fun s hs => htext s (.tail _ hs), List.length_cons,
      Nat.add_comm]

/-- Where the text is of ASCII characters, the place is that of its first symbol. -/
theorem place_of_ascii (p : Position) (text : String)
    (hascii : ∀ c ∈ text.toList, c.toNat < 128) : Token.place p (.ofString text) = p := by
  have hwidth : (Source.ofString text).width = (Source.ofString text).length := by
    refine width_eq_length fun s hs => ?_
    obtain ⟨c, hc, rfl⟩ := List.mem_map.mp hs
    exact Char.utf8Size_eq_one_iff.mpr (Nat.le_of_lt_succ (hascii c hc))
  rw [Token.place, hwidth, Int.add_sub_cancel]

/-- Every token of a source stands at a site of its own, and the sites hold all symbols outside
comments and blanks in their order. The line of a token is one more than the number of line ends
before it. Its column is one more than the number of symbols between the last line end and the
token, less the difference of its bytes and symbols; so a token of ASCII characters has the place of
its first symbol. -/
theorem tokenize_positions (source : Source) (tokens : List Token)
    (h : tokenize source = .ok tokens) :
    ∃ sites : List Site,
      (codeOf source).filter (!·.1.isBlank) = sites.flatMap Site.symbols ∧
      List.Forall₂ (fun (token : Token) (site : Site) =>
        (∃ rest, source = site.before ++ site.text ++ rest) ∧
        Source.ofString token.text = site.text ∧
        token.position.line = 1 + site.before.count (.char '\n') ∧
        token.position.column =
          1 + (site.before.reverse.takeWhile fun s => s ≠ .char '\n').length -
            (site.text.width - site.text.length : Int) ∧
        ((∀ c ∈ token.text.toList, c.toNat < 128) →
          token.position = Position.behind site.before)) tokens sites := by
  obtain ⟨sites, hall, hcode⟩ := exists_sites (List.nil_append source).symm rfl h
  refine ⟨sites, hcode, hall.imp fun token site hsite => ?_⟩
  refine ⟨hsite.source, hsite.text, ?_, ?_, fun hascii => ?_⟩
  · rw [hsite.position, Token.place, Position.behind]
    dsimp only
    omega
  · rw [hsite.position, Token.place, Position.behind]
    dsimp only
    omega
  · rw [hsite.position, ← hsite.text, place_of_ascii _ _ hascii]

/-- A comment over two lines moves the line, and a letter of two bytes moves its own column only. -/
theorem tokenize_positions_sample :
    let source := Source.ofString "/* /*\n*/ é */ x\n é y"
    let tokens : List Token := [⟨"x", ⟨2, 9⟩⟩, ⟨"é", ⟨3, 1⟩⟩, ⟨"y", ⟨3, 4⟩⟩]
    tokenize source = .ok tokens ∧ ∃ sites : List Site,
      sites.flatMap Site.symbols = [(.char 'x', 14), (.char 'é', 17), (.char 'y', 19)] ∧
      List.Forall₂ (fun (token : Token) (site : Site) =>
        Source.ofString token.text = site.text ∧
          token.position.line = 1 + site.before.count (.char '\n')) tokens sites := by
  intro source tokens
  have hrun : tokenize source = .ok tokens := by decide +kernel
  obtain ⟨sites, hcode, hall⟩ := tokenize_positions source tokens hrun
  refine ⟨hrun, sites, hcode ▸ by decide +kernel, hall.imp fun token site hsite => ?_⟩
  exact ⟨hsite.2.1, hsite.2.2.1⟩

end Shader
