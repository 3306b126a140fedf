import CssText.Proofs.Parse.Recovery
import CssText.Proofs.Sheet.Assembly
import CssText.Proofs.Sheet.Positions

/-!
# A broken declaration stays in its rule

Text in front of a declaration list costs a rule nothing but itself: if its brackets close in
it, the declarations behind its semicolon are read as if they stood alone, and it adds one of
its own at most (`parse_recovers`). The exception are openers that are not counted. A brace
that is lost in this way lets the next right brace end the rule (`parse_spills`).
-/

namespace CssText

/-- A rule for the elements `a`, cut before and after its semicolon and its braces. -/
def ruleParts (x y : Bytes) : List Bytes :=
  [ascii "a\x7b", x, ascii ";", y, ascii "\x7d"]

namespace Declaration

/--
In the text `x` nothing that could end a declaration follows an opener that the reader loses.
-/
def Harmless (limit : Nat) (x : Bytes) : Prop :=
  ∀ i ∈ (parseList limit x).issues, i.losesOpener = true →
    ∀ l ∈ Lexeme.ofText x, i.place.start < l.start →
      l.kind ≠ .semicolon ∧ l.kind ≠ .rightBrace

theorem Harmless.harmlessIn {limit : Nat} {x : Bytes} (h : Harmless limit x) :
    ∀ i ∈ (parseList limit x).issues, Parse.HarmlessIn (Lexeme.ofText x) i := by
  intro i hi hloses rest hrest m hm
  have horder := (Parse.ascending_ofText limit x).mono hrest
  have hmem := hrest.subset (List.mem_cons_of_mem i.place hm)
  refine h i hi hloses m hmem ?_
  exact (List.pairwise_cons.mp horder).1 m (List.mem_append_left _ hm)

end Declaration

namespace Parse

theorem ruleSelectors_type {bounds : Bounds} {name brace : Lexeme} {block : List Lexeme}
    (hlimit : 0 < bounds.limit) (hname : name.kind = .ident) (hbrace : brace.kind = .leftBrace) :
    ruleSelectors bounds (name :: brace :: block) =
      { value := some [.type name.value], issues := [], rest := brace :: block } := by
  rcases Nat.exists_eq_succ_of_ne_zero (Nat.ne_of_gt hlimit) with ⟨depth, hdepth⟩
  have hfront : (bounds.front (name :: brace :: block)).kind ≠ .leftBrace := by
    rw [show bounds.front (name :: brace :: block) = name from rfl, hname]
    exact Kind.noConfusion
  have hdrop : dropBlank (brace :: block) = brace :: block :=
    dropBlank_self (by rw [hbrace]; rfl) block
  have hsimple : simple bounds depth (name :: brace :: block) =
      { value := .type name.value, issues := [], rest := brace :: block } := by
    rw [simple.eq_def, dropInsignificant_self (by rw [hname]; rfl)]
    simp only [hname]
    rfl
  have hlink : link? (brace :: block) = none := by
    rw [link?, hdrop]
    exact if_pos (by rw [hbrace]; rfl)
  rw [ruleSelectors, if_neg hfront, alternatives_eq, hdepth, chain, hsimple]
  simp only [hlink, hdrop, alternativesAfter, hbrace, if_true]

theorem rules_type {bounds : Bounds} {name opener close : Lexeme} {block : List Lexeme}
    (hlimit : 0 < bounds.limit) (hname : name.kind = .ident) (hopener : opener.kind = .leftBrace)
    (hblock : (declarations bounds true block).rest = [close]) (hclose : close.kind = .rightBrace) :
    (rules bounds (name :: opener :: block)).value =
      [.style { selectors := [.type name.value]
                declarations := (declarations bounds true block).value }] := by
  have hsignificant : opener.kind.isInsignificant = false := by
    rw [hopener]
    rfl
  have hrule := styleRule_eq (ruleSelectors_type hlimit hname hopener)
    (dropInsignificant_self hsignificant block) hopener hblock hclose
  rw [rules_eq, dropInsignificant_self (by rw [hname]; rfl), rulesAfter, hname]
  simp only [hrule, rules_eq bounds [], dropInsignificant, List.dropWhile_nil, rulesAfter]
  rfl

theorem declarations_braced {limit : Nat} {bounds : Bounds} {y : Bytes} {brace : Lexeme}
    (hlimit : bounds.limit = limit) (hbrace : brace.kind = .rightBrace)
    (hstart : brace.start = y.length) (hy : (Declaration.parseList limit y).errors = []) :
    (declarations bounds true (Lexeme.ofText y ++ [brace])).value.map Declaration.bare =
        (Declaration.parseList limit y).value.map Declaration.bare ∧
      (declarations bounds true (Lexeme.ofText y ++ [brace])).rest = [brace] := by
  have hrun : (Lexeme.ofText y).map (Shift.mk 0 0).lexeme = Lexeme.ofText y := List.map_id _
  have hbraced : Frame.Braced
      { inner := Bounds.ofText limit y, outer := bounds, move := ⟨0, 0⟩, after := [brace],
        limit := hlimit } :=
    ⟨brace, [], rfl, hbrace, hstart⟩
  have hread := hbraced.declarations (Lexeme.ofText y) (List.map_eq_nil_iff.mp hy)
  rw [Frame.run, hrun] at hread
  rw [hread, List.map_map]
  refine ⟨List.map_congr_left fun d _ => ?_, rfl⟩
  show (Shift.declaration ⟨0, 0⟩ d).bare = d.bare
  rw [Declaration.bare, Shift.declaration, List.map_map]
  rfl

end Parse

theorem Lexeme.ofText_ruleParts {x y : Bytes}
    (h : Token.ofText (ruleParts x y).flatten = (ruleParts x y).flatMap Token.ofText) :
    ∃ name brace block, ofText (ruleParts x y).flatten = name :: brace :: block ∧
      name.kind = .ident ∧ name.value = ascii "a" ∧ brace.kind = .leftBrace ∧
      tokens block = Token.ofText x ++ Token.plain .semicolon [Byte.semicolon] ::
        (Token.ofText y ++ [Token.plain .rightBrace [Byte.rightBrace]]) := by
  have hopen : Token.ofText (ascii "a\x7b") =
      [Token.plain .ident (ascii "a"), Token.plain .leftBrace [Byte.leftBrace]] := by
    decide +kernel
  have hsemicolon : Token.ofText (ascii ";") = [Token.plain .semicolon [Byte.semicolon]] := by
    decide +kernel
  have hclose : Token.ofText (ascii "\x7d") = [Token.plain .rightBrace [Byte.rightBrace]] := by
    decide +kernel
  have htokens : tokens (ofText (ruleParts x y).flatten) =
      Token.plain .ident (ascii "a") :: Token.plain .leftBrace [Byte.leftBrace] ::
        (Token.ofText x ++ Token.plain .semicolon [Byte.semicolon] ::
          (Token.ofText y ++ [Token.plain .rightBrace [Byte.rightBrace]])) := by
    refine h.trans ?_
    simp only [ruleParts, List.flatMap_cons, List.flatMap_nil, hopen, hsemicolon, hclose]
    rfl
  rcases List.map_eq_cons_iff.mp htokens with ⟨name, after, hwhole, hname, hafter⟩
  rcases List.map_eq_cons_iff.mp hafter with ⟨brace, block, rfl, hbrace, hblock⟩
  exact ⟨name, brace, block, hwhole, congrArg Token.kind hname, congrArg Token.value hname,
    congrArg Token.kind hbrace, hblock⟩

namespace Parse

theorem declarations_of_parts {limit : Nat} {bounds : Bounds} {x y : Bytes} {block : List Lexeme}
    (hbounds : bounds.bare = (Bounds.ofText limit x).bare)
    (hx : isSealed [] (Lexeme.kinds (Lexeme.ofText x)) = true)
    (hy : (Declaration.parseList limit y).errors = [])
    (hharmless : Declaration.Harmless limit x)
    (hblock : Lexeme.tokens block =
      Token.ofText x ++ Token.plain .semicolon [Byte.semicolon] ::
        (Token.ofText y ++ [Token.plain .rightBrace [Byte.rightBrace]])) :
    (declarations bounds true block).value.map Declaration.bare =
        (Declaration.parseList limit x).value.map Declaration.bare ++
          (Declaration.parseList limit y).value.map Declaration.bare ∧
      ∃ close, (declarations bounds true block).rest = [close] ∧ close.kind = .rightBrace := by
  -- the block is read as the lexemes of its parts are, each where it stands alone
  let semicolon : Lexeme := Lexeme.mark .semicolon Byte.semicolon
  let brace : Lexeme := { Lexeme.mark .rightBrace Byte.rightBrace with start := y.length }
  have htokens : Lexeme.tokens block =
      Lexeme.tokens (Lexeme.ofText x ++ semicolon :: (Lexeme.ofText y ++ [brace])) := by
    rw [hblock, Lexeme.tokens, List.map_append, List.map_cons, List.map_append]
    rfl
  have hbare := bareReading_declarations hbounds true htokens
  have hends : EndsDeclaration (semicolon :: (Lexeme.ofText y ++ [brace])) := by
    rintro m ⟨⟩
    rfl
  have hfirst :=
    (declarations_append (Bounds.ofText limit x) hx hharmless.harmlessIn).2 true _ hends
  have hmore := @declarations_braced limit (Bounds.ofText limit x) y brace rfl rfl rfl hy
  constructor
  · have hvalue := (congrArg Reading.value hbare).trans hfirst.1
    rw [List.tail_cons, hmore.1] at hvalue
    exact hvalue
  · have hrest := congrArg Reading.rest hbare
    rw [bareReading, bareReading, hfirst.2, List.tail_cons, hmore.2] at hrest
    rcases List.map_eq_singleton_iff.mp hrest with ⟨close, hclose, hkind⟩
    exact ⟨close, hclose, congrArg (fun l : Lexeme => l.kind) hkind⟩

end Parse

namespace Sheet

/--
A text `x` that closes its brackets, and in which no semicolon stands outside of them, stays in
the rule: whether it is read or fails, the rule has one declaration of it at most, namely what
is read of it alone, and after it the declarations `y`. This needs every opener to be counted
behind which `x` still has a semicolon or a right brace.
-/
theorem parse_recovers {limit : Nat} {x y : Bytes} (hlimit : 1 ≤ limit)
    (hx : Parse.isSealed [] (Lexeme.kinds (Lexeme.ofText x)) = true)
    (hy : (Declaration.parseList limit y).errors = [])
    (hparts : Token.ofText (ruleParts x y).flatten = (ruleParts x y).flatMap Token.ofText)
    (hharmless : Declaration.Harmless limit x) :
    ∃ rule, (parse limit (ruleParts x y).flatten).value = [.style rule] ∧
      rule.selectors = [.type (ascii "a")] ∧
      (Declaration.parseList limit x).value.length ≤ 1 ∧
      rule.declarations.map Declaration.bare =
        (Declaration.parseList limit x).value.map Declaration.bare ++
          (Declaration.parseList limit y).value.map Declaration.bare := by
  rcases Lexeme.ofText_ruleParts hparts with
    ⟨name, opener, block, hwhole, hname, hvalue, hopener, hblock⟩
  let bounds : Bounds := Bounds.ofText limit (ruleParts x y).flatten
  have hbounds : bounds.bare = (Bounds.ofText limit x).bare := rfl
  rcases Parse.declarations_of_parts hbounds hx hy hharmless hblock with
    ⟨hdeclarations, close, hrest, hclose⟩
  have hrules := @Parse.rules_type bounds name opener close block hlimit hname hopener hrest hclose
  rw [← hwhole, hvalue] at hrules
  have hlength := (Parse.declarations_append (Bounds.ofText limit x) hx hharmless.harmlessIn).1
  exact ⟨_, hrules, rfl, hlength, hdeclarations⟩

/-- A bracket that is too deep is lost here, but nothing behind it could end the declaration. -/
theorem parse_recovers_nested :
    (1 ≤ 1 ∧
      Parse.isSealed [] (Lexeme.kinds (Lexeme.ofText (ascii "x:\x7b;\x7d([])"))) = true ∧
      (Declaration.parseList 1 (ascii "y:z")).errors = [] ∧
      Token.ofText (ruleParts (ascii "x:\x7b;\x7d([])") (ascii "y:z")).flatten =
        (ruleParts (ascii "x:\x7b;\x7d([])") (ascii "y:z")).flatMap Token.ofText ∧
      Declaration.Harmless 1 (ascii "x:\x7b;\x7d([])")) ∧
    ∃ rule, (parse 1 (ruleParts (ascii "x:\x7b;\x7d([])") (ascii "y:z")).flatten).value =
        [.style rule] ∧
      rule.selectors = [.type (ascii "a")] ∧
      (Declaration.parseList 1 (ascii "x:\x7b;\x7d([])")).value.length ≤ 1 ∧
      rule.declarations.map Declaration.bare =
        (Declaration.parseList 1 (ascii "x:\x7b;\x7d([])")).value.map Declaration.bare ++
          (Declaration.parseList 1 (ascii "y:z")).value.map Declaration.bare := by
  have hx : Parse.isSealed [] (Lexeme.kinds (Lexeme.ofText (ascii "x:\x7b;\x7d([])"))) = true := by
    decide +kernel
  have hy : (Declaration.parseList 1 (ascii "y:z")).errors = [] := by
    decide +kernel
  have hparts : Token.ofText (ruleParts (ascii "x:\x7b;\x7d([])") (ascii "y:z")).flatten =
      (ruleParts (ascii "x:\x7b;\x7d([])") (ascii "y:z")).flatMap Token.ofText := by
    decide +kernel
  have hharmless : Declaration.Harmless 1 (ascii "x:\x7b;\x7d([])") := by
    unfold Declaration.Harmless
    decide +kernel
  exact ⟨⟨Nat.le_refl 1, hx, hy, hparts, hharmless⟩,
    parse_recovers (Nat.le_refl 1) hx hy hparts hharmless⟩

/--
A brace that is too deep is not counted, so the one that closes it ends the rule, and the
declarations behind it are lost.
-/
theorem parse_spills :
    ¬ ∀ (limit : Nat) (x y : Bytes), 1 ≤ limit →
      Parse.isSealed [] (Lexeme.kinds (Lexeme.ofText x)) = true →
      (Declaration.parseList limit y).errors = [] →
      Token.ofText (ruleParts x y).flatten = (ruleParts x y).flatMap Token.ofText →
      ∃ rule found, (parse limit (ruleParts x y).flatten).value = [.style rule] ∧
        rule.selectors = [.type (ascii "a")] ∧ found.length ≤ 1 ∧
        rule.declarations.map Declaration.bare =
          found ++ (Declaration.parseList limit y).value.map Declaration.bare := by
  intro h
  have hx : Parse.isSealed [] (Lexeme.kinds (Lexeme.ofText (ascii "x:(\x7b\x7d)"))) = true := by
    decide +kernel
  have hy : (Declaration.parseList 1 (ascii "y:z")).errors = [] := by
    decide +kernel
  have hparts : Token.ofText (ruleParts (ascii "x:(\x7b\x7d)") (ascii "y:z")).flatten =
      (ruleParts (ascii "x:(\x7b\x7d)") (ascii "y:z")).flatMap Token.ofText := by
    decide +kernel
  have hone : (Declaration.parseList 1 (ascii "y:z")).value.length = 1 := by
    decide +kernel
  have hnone : (styleRules
      (parse 1 (ruleParts (ascii "x:(\x7b\x7d)") (ascii "y:z")).flatten).value).all
        (fun rule => rule.declarations.isEmpty) = true := by
    decide +kernel
  rcases h 1 _ _ (Nat.le_refl 1) hx hy hparts with ⟨rule, found, hrules, -, -, hdeclarations⟩
  have hrule : styleRules [.style rule] = [rule] := rfl
  rw [hrules, hrule, List.all_cons, List.all_nil, Bool.and_true, List.isEmpty_iff] at hnone
  have hlength := congrArg List.length hdeclarations
  rw [hnone, List.length_append, List.length_map, List.length_map, hone] at hlength
  cases hlength

end Sheet

end CssText
