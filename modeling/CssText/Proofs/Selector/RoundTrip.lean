import CssText.Proofs.Selector.WellFormed
import CssText.Proofs.Token.Adjacent

/-!
# Printed selectors are read back

A selector is read back from its text in front of any text that does not run on into it.
A simple selector leaves exactly what follows it, whatever that is (`simple_text`); a chain
takes one step for each operand (`chain_text`), and a group one chain for each alternative.
-/

namespace CssText

open Token

/-!
## What may follow

A name before an edge is an identifier of its own, and a dot before a name is no part of a
number.
-/

namespace Selector

def isEdge (b : UInt8) : Bool :=
  !isNameByte b && b ≠ Byte.backslash && b ≠ Byte.leftParen && b ≠ Byte.greater

/-- The text after a selector does not run on into it. -/
structure Ends (s : Selector) (after : Bytes) : Prop where
  name : s.endsInName = true → ∀ b ∈ after.head?, isEdge b = true
  universal : s = .universal → after.head? ≠ some Byte.equals

def Stops (after : Bytes) : Prop :=
  after = [] ∨ (∃ bs, after = Byte.comma :: bs) ∨
    ∃ bs, after = Byte.space :: Byte.leftBrace :: bs

theorem reads_name {name after : Bytes} (hn : IsName name)
    (h : ∀ b ∈ after.head?, isEdge b = true) :
    Reads (Escape.identifier name ++ after) (plain .ident name) after := by
  apply reads_ident hn.ne_nil hn.not_zero
  cases after with
  | nil =>
      constructor
      · rfl
      · constructor
        · intro hhead
          cases hhead
        · intro _ hhead
          cases hhead
  | cons b bs =>
      have hb := h b rfl
      simp only [isEdge, Bool.and_eq_true, Bool.not_eq_true', decide_eq_true_eq] at hb
      rcases hb with ⟨⟨⟨hname, hbackslash⟩, hparen⟩, hgreater⟩
      constructor
      · exact continuesName_cons hname hbackslash bs
      · constructor
        · intro hhead
          exact hparen (Option.some.inj hhead)
        · intro _ hhead
          exact hgreater (Option.some.inj hhead)

theorem reads_id {name after : Bytes} (hn : IsName name)
    (h : ∀ b ∈ after.head?, isEdge b = true) :
    Reads (Byte.numberSign :: (Escape.name name ++ after)) (plain .hash name) after := by
  have hcontinues : continuesName after = false := by
    cases after with
    | nil => rfl
    | cons b bs =>
        have hb := h b rfl
        simp only [isEdge, Bool.and_eq_true, Bool.not_eq_true', decide_eq_true_eq] at hb
        exact continuesName_cons hb.1.1.1 hb.1.1.2 bs
  have hformed : Formed (plain .hash name) := Formed.name rfl hn.ne_nil hn.not_zero
  exact hformed.reads_toCss hcontinues

def isSymbol (b : UInt8) : Bool :=
  b = Byte.asterisk || b = Byte.dot || b = Byte.greater || b = Byte.plus || b = Byte.tilde ||
    b = Byte.equals

theorem symbol_spec : ∀ b : UInt8, isSymbol b = true →
    isBlank b = false ∧ isQuote b = false ∧ punctuation? b = none ∧ isFront b = false ∧
      b ≠ Byte.slash ∧ b ≠ Byte.numberSign ∧ b ≠ Byte.commercialAt ∧ b ≠ Byte.less :=
  forall_byte (by decide +kernel)

theorem reads_symbol {b : UInt8} {after : Bytes} (hb : isSymbol b = true)
    (hequals : after.head? ≠ some Byte.equals) (hn : Numeral.scan? (b :: after) = none) :
    Reads (b :: after) (plain .delim [b]) after := by
  rcases symbol_spec b hb with ⟨hblank, hquote, hp, hfront, hslash, hhash, hat, hless⟩
  apply Reads.delim
  constructor
  · exact hblank
  · exact hquote
  · exact hp
  · rw [matchOperator?, if_pos hequals]
  · exact hn
  · rw [← Bool.not_eq_true]
    intro hs
    simp only [isFront, Bool.or_eq_false_iff, decide_eq_false_iff_not] at hfront
    rcases front_of_startsIdentifier hs with h | h | h
    · rw [hfront.1.1] at h
      cases h
    · exact hfront.1.2 h
    · exact hfront.2 h
  · exact fun h => absurd h hslash
  · exact fun h => absurd h hhash
  · exact fun h => absurd h hat
  · exact fun h => absurd h hless

theorem head_identifier {name : Bytes} (hn : IsName name) (after : Bytes) :
    ∃ b bs, Escape.identifier name ++ after = b :: bs ∧ isFront b = true := by
  have hstart := startsIdentifier_identifier hn.ne_nil hn.not_zero after
  cases h : Escape.identifier name ++ after with
  | nil =>
      rw [h] at hstart
      cases hstart
  | cons b bs =>
      rw [h] at hstart
      refine ⟨b, bs, rfl, ?_⟩
      rcases front_of_startsIdentifier hstart with hb | rfl | rfl
      · rw [isFront, hb]
        rfl
      · rfl
      · rfl

theorem reads_dot {name : Bytes} (hn : IsName name) (after : Bytes) :
    Reads (Byte.dot :: (Escape.identifier name ++ after)) (plain .delim [Byte.dot])
      (Escape.identifier name ++ after) := by
  have hstart := startsIdentifier_identifier hn.ne_nil hn.not_zero after
  have hdigit := not_digit_of_startsIdentifier hstart
  apply reads_symbol rfl
  · intro hequals
    rcases head_identifier hn after with ⟨b, bs, htext, hb⟩
    rw [htext, List.head?_cons, Option.some.injEq] at hequals
    subst hequals
    cases hb
  · have hscan := Numeral.scan?_dot (Escape.identifier name ++ after)
    rw [hdigit] at hscan
    exact Option.isNone_iff_eq_none.mp (Option.isSome_eq_false_iff.mp hscan)

theorem reads_asterisk {after : Bytes} (h : after.head? ≠ some Byte.equals) :
    Reads (Byte.asterisk :: after) (plain .delim [Byte.asterisk]) after :=
  reads_symbol rfl h (Numeral.scan?_eq_none_of_not_opens rfl after)

end Selector

/-!
## Simple selectors
-/

namespace Parse

/-- What is read of a selector and what it leaves, when its text stands before `after`. -/
def Gives (r : Reading Selector) (s : Selector) (after : Bytes) : Prop :=
  ∃ s' rest, r = accept s' rest ∧ s'.Alike s ∧ Lexeme.Covers rest after

open Selector Lexeme

variable {bounds : Bounds} {depth : Nat} {ts : List Lexeme} {after : Bytes}

theorem simple_universal (hts : Covers ts (Byte.asterisk :: after))
    (h : after.head? ≠ some Byte.equals) : Gives (simple bounds depth ts) .universal after := by
  rcases hts.cons (reads_asterisk h) with ⟨l, rest, rfl, hl, hrest⟩
  have hk : l.kind = .delim := congrArg Token.kind hl
  have hd : l.isDelim Byte.asterisk = true := by
    rw [hl]
    rfl
  refine ⟨.universal, rest, ?_, Alike.leaf rfl, hrest⟩
  rw [simple.eq_def, dropInsignificant_self (by rw [hk]; rfl)]
  simp only [hk, hd, if_true]

theorem simple_type {name : Bytes} (hn : IsName name)
    (hts : Covers ts (Escape.identifier name ++ after))
    (h : ∀ b ∈ after.head?, isEdge b = true) :
    Gives (simple bounds depth ts) (.type name) after := by
  rcases hts.cons (reads_name hn h) with ⟨l, rest, rfl, hl, hrest⟩
  have hk : l.kind = .ident := congrArg Token.kind hl
  have hv : l.value = name := congrArg Token.value hl
  refine ⟨.type name, rest, ?_, Alike.leaf rfl, hrest⟩
  rw [simple.eq_def, dropInsignificant_self (by rw [hk]; rfl)]
  simp only [hk, hv]

theorem simple_id {name : Bytes} (hn : IsName name)
    (hts : Covers ts (Byte.numberSign :: (Escape.name name ++ after)))
    (h : ∀ b ∈ after.head?, isEdge b = true) :
    Gives (simple bounds depth ts) (.id name) after := by
  rcases hts.cons (reads_id hn h) with ⟨l, rest, rfl, hl, hrest⟩
  have hk : l.kind = .hash := congrArg Token.kind hl
  have hv : l.value = name := congrArg Token.value hl
  refine ⟨.id name, rest, ?_, Alike.leaf rfl, hrest⟩
  rw [simple.eq_def, dropInsignificant_self (by rw [hk]; rfl)]
  simp only [hk, hv]

theorem simple_class {name : Bytes} (hn : IsName name)
    (hts : Covers ts (Byte.dot :: (Escape.identifier name ++ after)))
    (h : ∀ b ∈ after.head?, isEdge b = true) :
    Gives (simple bounds depth ts) (.className name) after := by
  rcases hts.cons (reads_dot hn after) with ⟨dot, ls, rfl, hdot, hls⟩
  rcases hls.cons (reads_name hn h) with ⟨l, rest, rfl, hl, hrest⟩
  have hk : dot.kind = .delim := congrArg Token.kind hdot
  have hasterisk : dot.isDelim Byte.asterisk = false := by
    rw [hdot]
    rfl
  have hd : dot.isDelim Byte.dot = true := by
    rw [hdot]
    rfl
  have hkl : l.kind = .ident := congrArg Token.kind hl
  have hv : l.value = name := congrArg Token.value hl
  refine ⟨.className name, rest, ?_, Alike.leaf rfl, hrest⟩
  rw [simple.eq_def, dropInsignificant_self (by rw [hk]; rfl)]
  simp only [hk, hasterisk, hd, if_true, className, hkl, hv, Bool.false_eq_true, if_false]

theorem simple_pseudoClass {name : Bytes} (hn : IsName name)
    (hts : Covers ts (Byte.colon :: (Escape.identifier name ++ after)))
    (h : ∀ b ∈ after.head?, isEdge b = true) :
    Gives (simple bounds depth ts) (.pseudoClass name) after := by
  rcases hts.cons (Reads.punctuation rfl) with ⟨colon, ls, rfl, hcolon, hls⟩
  rcases hls.cons (reads_name hn h) with ⟨l, rest, rfl, hl, hrest⟩
  have hk : colon.kind = .colon := congrArg Token.kind hcolon
  have hkl : l.kind = .ident := congrArg Token.kind hl
  have hv : l.value = name := congrArg Token.value hl
  refine ⟨.pseudoClass name, rest, ?_, Alike.leaf rfl, hrest⟩
  rw [simple.eq_def, dropInsignificant_self (by rw [hk]; rfl)]
  simp only [hk, hkl, hv, if_true]

/-!
## Attribute selectors
-/

theorem simple_present {name : Bytes} (hn : IsName name)
    (hts : Covers ts (Byte.leftBracket :: (Escape.identifier name ++ Byte.rightBracket :: after))) :
    Gives (simple bounds depth ts) (.attr name .present none) after := by
  have hedge : ∀ b ∈ (Byte.rightBracket :: after).head?, isEdge b = true := by
    rintro _ ⟨⟩
    rfl
  rcases hts.cons (Reads.punctuation rfl) with ⟨bracket, ls, rfl, hbracket, hls⟩
  rcases hls.cons (reads_name hn hedge) with ⟨l, ms, rfl, hl, hms⟩
  rcases hms.cons (Reads.punctuation rfl) with ⟨close, rest, rfl, hclose, hrest⟩
  have hk : bracket.kind = .leftBracket := congrArg Token.kind hbracket
  have hkl : l.kind = .ident := congrArg Token.kind hl
  have hv : l.value = name := congrArg Token.value hl
  have hkc : close.kind = .rightBracket := congrArg Token.kind hclose
  refine ⟨.attr name .present none, rest, ?_, Alike.leaf rfl, hrest⟩
  rw [simple.eq_def, dropInsignificant_self (by rw [hk]; rfl)]
  simp only [hk, attributeSelector, dropBlank_self (l := l) (by rw [hkl]; rfl),
    dropBlank_self (l := close) (by rw [hkc]; rfl), hkl, hkc, hv, if_true]

theorem reads_test {test : AttributeTest} (h : test ≠ .present) (after : Bytes) :
    ∃ t, Reads (test.symbol ++ Byte.doubleQuote :: after) t (Byte.doubleQuote :: after) ∧
      t.kind ≠ .rightBracket ∧ t.kind.isBlank = false ∧
      ∀ l : Lexeme, l.toToken = t → attributeTest? l = some test := by
  have hoperator {b : UInt8} {kind : Kind} (hsymbol : test.symbol = [b, Byte.equals])
      (hm : matchOperator? b [Byte.equals] = some kind) (hk : kind ≠ .rightBracket)
      (hblank : kind.isBlank = false)
      (ht : ∀ l : Lexeme, l.kind = kind → attributeTest? l = some test) :
      ∃ t, Reads (test.symbol ++ Byte.doubleQuote :: after) t (Byte.doubleQuote :: after) ∧
        t.kind ≠ .rightBracket ∧ t.kind.isBlank = false ∧
        ∀ l : Lexeme, l.toToken = t → attributeTest? l = some test := by
    rw [hsymbol]
    exact ⟨_, Reads.operator hm, hk, hblank, fun l hl => ht l (congrArg Token.kind hl)⟩
  cases test with
  | present => exact absurd rfl h
  | equals =>
      refine ⟨plain .delim [Byte.equals], ?_, by decide, rfl, ?_⟩
      · exact reads_symbol rfl (fun h => by cases h) (Numeral.scan?_eq_none_of_not_opens rfl _)
      · intro l hl
        rw [attributeTest?, hl]
        rfl
  | includes =>
      apply hoperator rfl rfl (by decide) rfl
      intro l hl
      rw [attributeTest?, hl]
  | dash =>
      apply hoperator rfl rfl (by decide) rfl
      intro l hl
      rw [attributeTest?, hl]
  | startsWith =>
      apply hoperator rfl rfl (by decide) rfl
      intro l hl
      rw [attributeTest?, hl]
  | endsWith =>
      apply hoperator rfl rfl (by decide) rfl
      intro l hl
      rw [attributeTest?, hl]
  | contains =>
      apply hoperator rfl rfl (by decide) rfl
      intro l hl
      rw [attributeTest?, hl]

theorem edge_symbol {test : AttributeTest} (h : test ≠ .present) (after : Bytes) :
    ∀ b ∈ (test.symbol ++ after).head?, isEdge b = true := by
  cases test with
  | present => exact absurd rfl h
  | _ =>
      rintro _ ⟨⟩
      rfl

theorem simple_attr {name value : Bytes} {test : AttributeTest} (hn : IsName name)
    (ht : test ≠ .present)
    (hts : Covers ts (Byte.leftBracket :: (Escape.identifier name ++ (test.symbol ++
      ((plain .string value).toCss ++ Byte.rightBracket :: after))))) :
    Gives (simple bounds depth ts) (.attr name test value) after := by
  have hstring : Reads ((plain .string value).toCss ++ Byte.rightBracket :: after)
      (plain .string value) (Byte.rightBracket :: after) :=
    (Formed.string value).reads_toCss trivial
  rcases hts.cons (Reads.punctuation rfl) with ⟨bracket, ls, rfl, hbracket, hls⟩
  rcases hls.cons (reads_name hn (edge_symbol ht _)) with ⟨l, ms, rfl, hl, hms⟩
  rcases reads_test ht _ with ⟨t, hreads, hbracket', hblank, htest⟩
  rcases hms.cons hreads with ⟨op, os, rfl, hop, hos⟩
  rcases hos.cons hstring with ⟨v, vs, rfl, hv, hvs⟩
  rcases hvs.cons (Reads.punctuation rfl) with ⟨close, rest, rfl, hclose, hrest⟩
  have hk : bracket.kind = .leftBracket := congrArg Token.kind hbracket
  have hkl : l.kind = .ident := congrArg Token.kind hl
  have hname : l.value = name := congrArg Token.value hl
  have hko : op.kind = t.kind := congrArg Token.kind hop
  have hkv : v.kind = .string := congrArg Token.kind hv
  have hvalue : v.value = value := congrArg Token.value hv
  have hkc : close.kind = .rightBracket := congrArg Token.kind hclose
  refine ⟨.attr name test value, rest, ?_, Alike.leaf rfl, hrest⟩
  rw [simple.eq_def, dropInsignificant_self (by rw [hk]; rfl)]
  simp only [hk, attributeSelector, dropBlank_self (l := l) (by rw [hkl]; rfl),
    dropBlank_self (l := op) (by rw [hko]; exact hblank), hkl, hko, hbracket', htest op hop,
    if_true, if_false, attributeValue, dropBlank_self (l := v) (by rw [hkv]; rfl), hkv,
    isAttributeValue, dropBlank_self (l := close) (by rw [hkc]; rfl), hkc, hname, hvalue]
  rfl

/-!
## Functional pseudo-classes

Arguments that close their parentheses and hold no brace are read whole.
-/

theorem arguments_append {nesting : Nat} {args : List Lexeme} {close : Lexeme}
    (hp : parensClose nesting (kinds args) = true)
    (hb : ∀ kind ∈ kinds args, cutsArguments kind = false) (hc : close.kind = .rightParen)
    (rest : List Lexeme) :
    arguments nesting (args ++ close :: rest) = (some args, rest) := by
  induction args generalizing nesting with
  | nil =>
      have hzero : nesting = 0 := of_decide_eq_true hp
      rw [List.nil_append, arguments_cons, hc, hzero]
      rfl
  | cons l args ih =>
      rw [kinds, List.map_cons, parensClose, Bool.and_eq_true] at hp
      have hl : cutsArguments l.kind = false := hb l.kind List.mem_cons_self
      have hopen : ¬ (l.kind = .rightParen ∧ nesting = 0) := by
        rintro ⟨hkind, hzero⟩
        rw [hkind, hzero] at hp
        cases hp.1
      rw [List.cons_append, arguments_cons, hl, if_neg Bool.false_ne_true, if_neg hopen,
        ih hp.2 fun kind hk => hb kind (List.mem_cons_of_mem l.kind hk)]
      rfl

end Parse

theorem exists_cons_of_beq {α : Type} [BEq α] {xs ys : List α} {y : α}
    (h : (xs == y :: ys) = true) :
    ∃ x xs', xs = x :: xs' ∧ (x == y) = true ∧ (xs' == ys) = true := by
  cases xs with
  | nil => cases h
  | cons x xs =>
      rw [List.cons_beq_cons, Bool.and_eq_true] at h
      exact ⟨x, xs, rfl, h⟩

theorem exists_append_of_beq {α : Type} [BEq α] {xs ys zs : List α}
    (h : (xs == ys ++ zs) = true) :
    ∃ as bs, xs = as ++ bs ∧ (as == ys) = true ∧ (bs == zs) = true := by
  induction ys generalizing xs with
  | nil => exact ⟨[], xs, rfl, rfl, h⟩
  | cons y ys ih =>
      rcases exists_cons_of_beq h with ⟨x, xs', rfl, hx, hxs⟩
      rcases ih hxs with ⟨as, bs, rfl, has, hbs⟩
      refine ⟨x :: as, bs, rfl, ?_, hbs⟩
      rw [List.cons_beq_cons, hx, has]
      rfl

namespace Parse

open Selector Lexeme

variable {bounds : Bounds} {depth : Nat} {ts : List Lexeme} {after : Bytes}

theorem simple_call {name : Bytes} {args : List Lexeme} (hcall : IsCall name args)
    (hts : Covers ts (text (.pseudoFunction name args) ++ after)) :
    Gives (simple bounds depth ts) (.pseudoFunction name args) after := by
  rcases exists_cons_of_beq hcall.tokens with ⟨c, cs, hwhole, hc, hcs⟩
  rcases exists_cons_of_beq hcs with ⟨f, fs, rfl, hf, hfs⟩
  rcases exists_append_of_beq hfs with ⟨mids, vs, rfl, hmids, hvs⟩
  rcases exists_cons_of_beq hvs with ⟨t, us, rfl, ht, hus⟩
  have hnil : us = [] := by
    cases us with
    | nil => rfl
    | cons u us => cases hus
  rw [hnil] at hwhole
  have hkc := (Token.spelled_of_same hc).1
  have hkf := (Token.spelled_of_same hf).1
  have hname := (Token.spelled_of_same hf).2.1
  have hkt := (Token.spelled_of_same ht).1
  have hpunctuation : isPunctuation t.kind = true := by
    rw [hkt]
    rfl
  have hsplit : Token.ofText (text (.pseudoFunction name args)) = (c :: f :: mids) ++ [t] :=
    hwhole
  rw [Covers, Token.ofText_append hsplit hpunctuation, hsplit, List.append_assoc] at hts
  rcases List.map_eq_cons_iff.mp hts with ⟨colon, ls, rfl, rfl, hls⟩
  rcases List.map_eq_cons_iff.mp hls with ⟨call, ms, rfl, rfl, hms⟩
  rcases List.map_eq_append_iff.mp hms with ⟨args', ns, rfl, rfl, hns⟩
  rcases List.map_eq_cons_iff.mp hns with ⟨close, rest, rfl, rfl, hrest⟩
  have hargs : (args' == args) = true := by
    rw [← tokens_beq_tokens]
    exact hmids
  have hkinds := kinds_eq_of_beq hargs
  have htrim : Lexeme.trim args' = args' := by
    apply trim_eq_self
    · rw [hkinds]
      exact hcall.first
    · rw [hkinds]
      exact hcall.last
  have hrun : arguments 0 (args' ++ close :: rest) = (some args', rest) := by
    apply arguments_append
    · rw [hkinds]
      exact hcall.parens
    · rw [hkinds]
      exact hcall.braces
    · exact hkt
  refine ⟨.pseudoFunction name args', rest, ?_, Alike.call name hargs, hrest⟩
  rw [simple.eq_def, dropInsignificant_self (by rw [hkc]; rfl)]
  simp only [hkc, hkf, hname, hcall.not_negation, pseudoFunction, hrun, htrim, plain,
    reduceCtorEq, if_false, if_true]

/-!
## Negations

Only the letters of `not` are taken for it.
-/

theorem isName_of_negation {name : Bytes} (h : lowerCase name = ascii "not") : IsName name where
  ne_nil := by
    rintro rfl
    cases h
  not_zero := by
    intro hzero
    have hmem : (0 : UInt8) ∈ ascii "not" := by
      rw [← h]
      exact List.mem_map.mpr ⟨0, hzero, rfl⟩
    revert hmem
    decide

theorem simple_negation {name : Bytes} {inner : Selector} (hn : lowerCase name = ascii "not")
    (hts : Covers ts (text (.negation name inner) ++ after))
    (hinner : ∀ ls, Covers ls (inner.text ++ Byte.rightParen :: after) →
      Gives (simple bounds depth ls) inner (Byte.rightParen :: after)) :
    Gives (simple bounds (depth + 1) ts) (.negation name inner) after := by
  have hname := isName_of_negation hn
  have hurl : callsUrl name (inner.text ++ Byte.rightParen :: after) = false := by
    rw [callsUrl, hn]
    rfl
  have hcall := reads_function hname.ne_nil hname.not_zero hurl
  have htext : text (.negation name inner) ++ after = Byte.colon :: (Escape.identifier name ++
      Byte.leftParen :: (inner.text ++ Byte.rightParen :: after)) := by
    simp only [text, List.append_assoc, List.cons_append, List.nil_append]
  rw [htext] at hts
  rcases hts.cons (Reads.punctuation rfl) with ⟨colon, ls, rfl, hcolon, hls⟩
  rcases hls.cons hcall with ⟨call, ms, rfl, hl, hms⟩
  rcases hinner ms hms with ⟨inner', ns, hread, halike, hns⟩
  rcases hns.cons (Reads.punctuation rfl) with ⟨close, rest, rfl, hclose, hrest⟩
  have hk : colon.kind = .colon := congrArg Token.kind hcolon
  have hkl : call.kind = .function := congrArg Token.kind hl
  have hv : call.value = name := congrArg Token.value hl
  have hkc : close.kind = .rightParen := congrArg Token.kind hclose
  refine ⟨.negation name inner', rest, ?_, Alike.negation name halike, hrest⟩
  rw [simple.eq_def, dropInsignificant_self (by rw [hk]; rfl)]
  simp only [hk, hkl, hv, hn, hread, negation, accept,
    dropBlank_self (l := close) (by rw [hkc]; rfl), hkc, reduceCtorEq, if_false, if_true]

variable (bounds) in
/-- A simple selector is read back and leaves what follows it. -/
theorem simple_text {s : Selector} (hs : s.WellFormed) (hsimple : s.isSimple = true)
    (hd : s.nesting ≤ depth) (hafter : s.Ends after) (hts : Covers ts (s.text ++ after)) :
    Gives (simple bounds depth ts) s after := by
  induction s generalizing depth ts after with
  | missing => exact absurd hs id
  | nothing => exact absurd hs id
  | universal => exact simple_universal hts (hafter.universal rfl)
  | type name => exact simple_type hs hts (hafter.name rfl)
  | id name => exact simple_id hs hts (hafter.name rfl)
  | className name => exact simple_class hs hts (hafter.name rfl)
  | pseudoClass name => exact simple_pseudoClass hs hts (hafter.name rfl)
  | attr name test value =>
      rcases hs with ⟨hn, hvalue⟩
      by_cases ht : test = .present
      · subst ht
        have hnone : value = none := by
          cases value with
          | none => rfl
          | some v => exact absurd rfl (hvalue.mp rfl)
        subst hnone
        apply simple_present hn
        simpa [text] using hts
      · rcases Option.isSome_iff_exists.mp (hvalue.mpr ht) with ⟨v, rfl⟩
        apply simple_attr hn ht
        have htext : text (.attr name test (some v)) = Byte.leftBracket ::
            Escape.identifier name ++ test.symbol ++ (plain .string v).toCss ++
            [Byte.rightBracket] := by
          cases test with
          | present => exact absurd rfl ht
          | _ => rfl
        rw [htext] at hts
        simpa using hts
  | pseudoFunction name args => exact simple_call hs hts
  | negation name inner ih =>
      rcases hs with ⟨hn, hsimple, hinner⟩
      cases depth with
      | zero => exact absurd hd (Nat.not_succ_le_zero inner.nesting)
      | succ depth =>
          apply simple_negation hn hts
          intro ls hls
          apply ih hinner hsimple (Nat.le_of_succ_le_succ hd) ?_ hls
          constructor
          · rintro _ _ ⟨⟩
            rfl
          · rintro _ ⟨⟩
  | combine how left right => cases hsimple

end Parse
/-!
## Chains

The text of a well-formed selector begins with no byte that would change the token before it, and
the operands of a well-formed combination do not run together. Some combinators are written with
white space only, others with a sign between spaces; the space in front of a simple selector or of
a block does not count.
-/

namespace Selector

theorem head_text {s : Selector} (hs : s.WellFormed) (after : Bytes) :
    ∃ b bs, s.text ++ after = b :: bs ∧ isBlank b = false ∧ b ≠ Byte.equals ∧
      (s.beginsWithType = false → isEdge b = true) := by
  induction s generalizing after with
  | missing => exact False.elim hs
  | nothing => exact False.elim hs
  | type name =>
      rcases head_identifier hs after with ⟨b, bs, htext, hb⟩
      rcases class_of_isFront b hb with ⟨-, hblank, -, -, hequals, -⟩
      exact ⟨b, bs, htext, hblank, hequals, fun h => by cases h⟩
  | attr name test value =>
      cases test with
      | _ => exact ⟨Byte.leftBracket, _, rfl, rfl, by decide, fun _ => rfl⟩
  | combine how left right ihl ihr =>
      rcases hs with ⟨hsimple, hl, -, -⟩
      rcases ihl hl (how.symbol ++ (right.text ++ after)) with
        ⟨b, bs, htext, hblank, hequals, hedge⟩
      refine ⟨b, bs, ?_, hblank, hequals, ?_⟩
      · rw [← htext, text, List.append_assoc, List.append_assoc]
      · intro htype
        apply hedge
        cases left with
        | type name => cases htype
        | combine how' left' right' => cases hsimple
        | _ => rfl
  | universal => exact ⟨_, _, rfl, rfl, by decide, fun _ => rfl⟩
  | id name => exact ⟨_, _, rfl, rfl, by decide, fun _ => rfl⟩
  | className name => exact ⟨_, _, rfl, rfl, by decide, fun _ => rfl⟩
  | pseudoClass name => exact ⟨_, _, rfl, rfl, by decide, fun _ => rfl⟩
  | pseudoFunction name args => exact ⟨_, _, rfl, rfl, by decide, fun _ => rfl⟩
  | negation name inner => exact ⟨_, _, rfl, rfl, by decide, fun _ => rfl⟩

theorem ends_of_edge {b : UInt8} (hedge : isEdge b = true) (hequals : b ≠ Byte.equals)
    (s : Selector) (bs : Bytes) : s.Ends (b :: bs) where
  name _ := by
    rintro _ ⟨⟩
    exact hedge
  universal _ := by
    rintro ⟨⟩
    exact hequals rfl

theorem ends_left {how : Combinator} {left right : Selector}
    (hs : (combine how left right).WellFormed) (after : Bytes) :
    left.Ends (how.symbol ++ (right.text ++ after)) := by
  rcases hs with ⟨-, -, hr, hapart⟩
  rcases head_text hr after with ⟨b, bs, htext, -, hequals, hedge⟩
  cases how with
  | compound =>
      rw [htext]
      constructor
      · rintro hname _ ⟨⟩
        exact hedge (hapart rfl hname)
      · rintro - ⟨⟩
        exact hequals rfl
  | _ => exact ends_of_edge (b := Byte.space) rfl (by decide) left _

def opensSelector (t : Token) : Bool :=
  t.kind = .ident || t.kind = .hash || t.kind = .leftBracket || t.kind = .colon ||
    t.isDelim Byte.asterisk || t.isDelim Byte.dot

theorem reads_text {s : Selector} (hs : s.WellFormed) {after : Bytes}
    (hafter : s.isSimple = true → s.Ends after) :
    ∃ t rest, Reads (s.text ++ after) t rest ∧ opensSelector t = true := by
  induction s generalizing after with
  | missing => exact False.elim hs
  | nothing => exact False.elim hs
  | universal => exact ⟨_, _, reads_asterisk ((hafter rfl).universal rfl), rfl⟩
  | type name => exact ⟨_, _, reads_name hs ((hafter rfl).name rfl), rfl⟩
  | id name => exact ⟨_, _, reads_id hs ((hafter rfl).name rfl), rfl⟩
  | className name => exact ⟨_, _, reads_dot hs after, rfl⟩
  | attr name test value =>
      cases test with
      | _ => exact ⟨_, _, Reads.punctuation rfl, rfl⟩
  | combine how left right ihl ihr =>
      rcases ihl hs.2.1 fun _ => ends_left hs after with ⟨t, rest, hreads, ht⟩
      refine ⟨t, rest, ?_, ht⟩
      rw [text, List.append_assoc, List.append_assoc]
      exact hreads
  | pseudoClass name => exact ⟨_, _, Reads.punctuation rfl, rfl⟩
  | pseudoFunction name args => exact ⟨_, _, Reads.punctuation rfl, rfl⟩
  | negation name inner => exact ⟨_, _, Reads.punctuation rfl, rfl⟩

theorem open_spec {t : Token} (h : opensSelector t = true) :
    t.kind.isInsignificant = false ∧ Parse.endsSelector t.kind = false ∧
      t.isDelim Byte.greater = false ∧ t.isDelim Byte.plus = false ∧
      t.isDelim Byte.tilde = false := by
  simp only [opensSelector, isDelim, Bool.or_eq_true, Bool.and_eq_true, decide_eq_true_eq] at h
  rcases h with ((((h | h) | h) | h) | ⟨h, hv⟩) | ⟨h, hv⟩
  · simp [h, isDelim, Kind.isInsignificant, Kind.isBlank, Parse.endsSelector]
  · simp [h, isDelim, Kind.isInsignificant, Kind.isBlank, Parse.endsSelector]
  · simp [h, isDelim, Kind.isInsignificant, Kind.isBlank, Parse.endsSelector]
  · simp [h, isDelim, Kind.isInsignificant, Kind.isBlank, Parse.endsSelector]
  · rw [isDelim, isDelim, isDelim, h, hv]
    decide
  · rw [isDelim, isDelim, isDelim, h, hv]
    decide

theorem reads_space {b : UInt8} (hb : isBlank b = false) (bs : Bytes) :
    Reads (Byte.space :: b :: bs) (plain .whitespace [Byte.space]) (b :: bs) := by
  have hspace : isBlank Byte.space = true := rfl
  have hreads : Reads (Byte.space :: b :: bs) _ _ := Reads.whitespace hspace
  rw [skipBlanks, List.takeWhile_cons, List.dropWhile_cons, hb] at hreads
  exact hreads

end Selector

namespace Parse

open Selector Lexeme

variable {bounds : Bounds} {depth : Nat} {ts : List Lexeme} {after : Bytes}

theorem covers_symbol {b c : UInt8} {text : Bytes} (hb : isSymbol b = true)
    (hn : Numeral.scan? (b :: Byte.space :: c :: text) = none) (hc : isBlank c = false)
    (hts : Covers ts (Byte.space :: b :: Byte.space :: c :: text)) :
    ∃ space mark space' ls, ts = space :: mark :: space' :: ls ∧ space.kind = .whitespace ∧
      mark.toToken = plain .delim [b] ∧ space'.kind = .whitespace ∧ Covers ls (c :: text) := by
  have hmark : Reads (b :: Byte.space :: c :: text) (plain .delim [b]) (Byte.space :: c :: text) :=
    reads_symbol hb (fun h => by cases h) hn
  rcases hts.cons (reads_space (symbol_spec b hb).1 _) with ⟨space, ls, rfl, hspace, hls⟩
  rcases hls.cons hmark with ⟨mark, ms, rfl, hm, hms⟩
  rcases hms.cons (reads_space hc _) with ⟨space', ns, rfl, hspace', hns⟩
  exact ⟨space, mark, space', ns, rfl, congrArg Token.kind hspace, hm,
    congrArg Token.kind hspace', hns⟩

theorem link_symbol {how : Combinator} {right : Selector} (hr : right.WellFormed)
    (hafter : right.isSimple = true → right.Ends after)
    (hts : Covers ts (how.symbol ++ (right.text ++ after))) :
    ∃ link, link? ts = some link ∧ link.how = how ∧
      ∃ ls, dropInsignificant link.rest = dropInsignificant ls ∧
        Covers ls (right.text ++ after) := by
  rcases reads_text hr hafter with ⟨t, rest, hreads, hopen⟩
  rcases open_spec hopen with ⟨hinsignificant, hends, hgreater, hplus, htilde⟩
  have hblank := Parse.not_blank_of_significant hinsignificant
  rcases head_text hr after with ⟨c, text, htext, hc, -, -⟩
  cases how with
  | compound =>
      rcases hts.cons hreads with ⟨l, ms, rfl, rfl, hms⟩
      refine ⟨⟨.compound, l, l :: ms⟩, ?_, rfl, l :: ms, rfl, hts⟩
      simp only [link?, dropBlank_self hblank, hends, hgreater, hplus, htilde,
        Bool.false_eq_true, if_false, List.takeWhile_cons, hblank, List.any_nil]
  | descendant =>
      rw [htext] at hts
      rcases hts.cons (reads_space hc text) with ⟨space, ls, rfl, hspace, hls⟩
      rw [← htext] at hls
      have hk : space.kind = .whitespace := congrArg Token.kind hspace
      rcases hls.cons hreads with ⟨l, ms, rfl, rfl, hms⟩
      refine ⟨⟨.descendant, l, l :: ms⟩, ?_, rfl, l :: ms, rfl, hls⟩
      simp only [link?, dropBlank_whitespace hk, dropBlank_self hblank, hends, hgreater, hplus,
        htilde, Bool.false_eq_true, if_false, List.takeWhile_cons, hk, Kind.isBlank, decide_true,
        Bool.true_or, if_true, List.any_cons]
  | child =>
      rw [htext] at hts ⊢
      rcases covers_symbol rfl (Numeral.scan?_eq_none_of_not_opens rfl _) hc hts with
        ⟨space, mark, space', ls, rfl, hspace, hmark, hspace', hls⟩
      refine ⟨⟨.child, mark, space' :: ls⟩, ?_, rfl, ls, dropInsignificant_whitespace hspace' ls,
        hls⟩
      rw [link?, dropBlank_whitespace hspace, dropBlank_self (by rw [hmark]; rfl)]
      simp only [hmark]
      rfl
  | adjacentSibling =>
      rw [htext] at hts ⊢
      rcases covers_symbol rfl (Numeral.scan?_sign_eq_none (Or.inl rfl) rfl) hc hts with
        ⟨space, mark, space', ls, rfl, hspace, hmark, hspace', hls⟩
      refine ⟨⟨.adjacentSibling, mark, space' :: ls⟩, ?_, rfl, ls,
        dropInsignificant_whitespace hspace' ls, hls⟩
      rw [link?, dropBlank_whitespace hspace, dropBlank_self (by rw [hmark]; rfl)]
      simp only [hmark]
      rfl
  | generalSibling =>
      rw [htext] at hts ⊢
      rcases covers_symbol rfl (Numeral.scan?_eq_none_of_not_opens rfl _) hc hts with
        ⟨space, mark, space', ls, rfl, hspace, hmark, hspace', hls⟩
      refine ⟨⟨.generalSibling, mark, space' :: ls⟩, ?_, rfl, ls,
        dropInsignificant_whitespace hspace' ls, hls⟩
      rw [link?, dropBlank_whitespace hspace, dropBlank_self (by rw [hmark]; rfl)]
      simp only [hmark]
      rfl

theorem dropBlank_block {bs : Bytes} (hts : Covers ts (Byte.space :: Byte.leftBrace :: bs)) :
    ∃ brace rest, dropBlank ts = brace :: rest ∧ brace.kind = .leftBrace := by
  rcases hts.cons (reads_space rfl bs) with ⟨space, ls, rfl, hspace, hls⟩
  rcases hls.cons (Reads.punctuation rfl) with ⟨brace, rest, rfl, hl, -⟩
  have hk : brace.kind = .leftBrace := congrArg Token.kind hl
  refine ⟨brace, rest, ?_, hk⟩
  rw [dropBlank_whitespace (congrArg Token.kind hspace), dropBlank_self (by rw [hk]; rfl)]

theorem link?_stops (h : Stops after) (hts : Covers ts after) : link? ts = none := by
  rcases h with rfl | ⟨bs, rfl⟩ | ⟨bs, rfl⟩
  · rw [hts.eq_nil]
    rfl
  · rcases hts.cons (Reads.punctuation rfl) with ⟨comma, ls, rfl, hl, -⟩
    have hk : comma.kind = .comma := congrArg Token.kind hl
    rw [link?, dropBlank_self (by rw [hk]; rfl)]
    simp only [hk]
    rfl
  · rcases dropBlank_block hts with ⟨brace, rest, hdrop, hk⟩
    rw [link?, hdrop]
    simp only [hk]
    rfl

theorem ends_of_stops (h : Stops after) (s : Selector) : s.Ends after := by
  rcases h with rfl | ⟨bs, rfl⟩ | ⟨bs, rfl⟩
  · constructor
    · rintro _ _ ⟨⟩
    · rintro _ ⟨⟩
  · exact ends_of_edge rfl (by decide) s bs
  · exact ends_of_edge rfl (by decide) s _

theorem simple_eq_of_dropInsignificant {ls : List Lexeme}
    (h : dropInsignificant ts = dropInsignificant ls) :
    simple bounds depth ts = simple bounds depth ls := by
  rw [simple.eq_def, h, ← simple.eq_def]

def GivesChain (r : Reading (Option Selector)) (s : Selector) (after : Bytes) : Prop :=
  ∃ s' rest, r = { value := some s', issues := [], rest := dropBlank rest } ∧ s'.Alike s ∧
    Lexeme.Covers rest after

theorem chain_simple {s : Selector} (hs : s.WellFormed) (hsimple : s.isSimple = true)
    (hd : s.nesting + 1 ≤ depth) (hafter : Stops after) {ls : List Lexeme}
    (hls : Covers ls (s.text ++ after)) (hts : dropInsignificant ts = dropInsignificant ls)
    (place : Lexeme) : GivesChain (chain bounds depth place ts) s after := by
  cases depth with
  | zero => exact absurd hd (Nat.not_succ_le_zero s.nesting)
  | succ depth =>
      rcases simple_text bounds hs hsimple (Nat.le_of_succ_le_succ hd)
        (ends_of_stops hafter s) hls with ⟨s', rest, hread, halike, hrest⟩
      refine ⟨s', rest, ?_, halike, hrest⟩
      rw [chain, simple_eq_of_dropInsignificant hts, hread]
      simp only [accept, link?_stops hafter hrest]

/-- A chain is read back operand by operand. -/
theorem chain_text {s : Selector} (hs : s.WellFormed) (hd : s.depth ≤ depth)
    (hafter : Stops after) {ls : List Lexeme} (hls : Covers ls (s.text ++ after))
    (hts : dropInsignificant ts = dropInsignificant ls) (place : Lexeme) :
    GivesChain (chain bounds depth place ts) s after := by
  induction s generalizing depth place ts ls with
  | combine how left right ihl ihr =>
      rw [Selector.depth, Nat.max_le] at hd
      cases depth with
      | zero => exact absurd hd.1 (Nat.not_succ_le_zero left.nesting)
      | succ depth =>
          rw [text, List.append_assoc, List.append_assoc] at hls
          have hends := ends_left hs after
          rcases hs with ⟨hsimple, hl, hr, -⟩
          rcases simple_text bounds hl hsimple (Nat.le_of_succ_le_succ hd.1)
            hends hls with ⟨left', rest, hread, hleft, hrest⟩
          rcases link_symbol hr (fun _ => ends_of_stops hafter right) hrest with
            ⟨link, hlink, hhow, ms, hdrop, hms⟩
          rcases ihr hr (Nat.le_of_succ_le_succ hd.2) hms hdrop link.place with
            ⟨right', end', hnext, hright, hend⟩
          refine ⟨.combine how left' right', end', ?_, Alike.combine how hleft hright, hend⟩
          rw [chain, simple_eq_of_dropInsignificant hts, hread]
          simp only [accept, hlink, hnext, hhow, Option.map_some, List.nil_append]
  | _ => exact chain_simple hs rfl hd hafter hls hts place

/-!
## Groups

The text of a group is that of its first chain and text that ends the chain. After the group
nothing is left or a block begins.
-/

def Closes (after : Bytes) : Prop :=
  after = [] ∨ ∃ bs, after = Byte.space :: Byte.leftBrace :: bs

theorem Closes.stops (h : Closes after) : Stops after :=
  h.imp id Or.inr

theorem dropBlank_closes (h : Closes after) (hts : Covers ts after) :
    dropBlank ts = [] ∨ ∃ l rest, dropBlank ts = l :: rest ∧ l.kind = .leftBrace := by
  rcases h with rfl | ⟨bs, rfl⟩
  · rw [hts.eq_nil]
    exact Or.inl rfl
  · exact Or.inr (dropBlank_block hts)

theorem groupText_cons (s : Selector) (more : SelectorGroup) (hafter : Closes after) :
    ∃ tail, SelectorGroup.text (s :: more) ++ after = s.text ++ tail ∧ Stops tail ∧
      (more = [] → tail = after) ∧
      (more ≠ [] → tail = Byte.comma :: Byte.space :: (SelectorGroup.text more ++ after)) := by
  cases more with
  | nil =>
      refine ⟨after, ?_, hafter.stops, fun _ => rfl, fun h => absurd rfl h⟩
      rw [SelectorGroup.text, List.map_singleton, List.intercalate_singleton]
  | cons s₂ more =>
      refine ⟨Byte.comma :: Byte.space :: (SelectorGroup.text (s₂ :: more) ++ after), ?_,
        Or.inr (Or.inl ⟨_, rfl⟩), fun h => absurd h (List.cons_ne_nil s₂ more), fun _ => rfl⟩
      rw [SelectorGroup.text, List.map_cons, List.map_cons, List.intercalate_cons_cons,
        List.append_assoc, List.append_assoc]
      rfl

variable (bounds) in
/-- A group is read back chain by chain, up to the block that may follow it. -/
theorem alternatives_text {s : Selector} {more : SelectorGroup}
    (hs : ∀ t ∈ s :: more, t.WellFormed) (hd : ∀ t ∈ s :: more, t.depth ≤ bounds.limit)
    (hafter : Closes after) (hts : Covers ts (SelectorGroup.text (s :: more) ++ after)) :
    ∃ group rest,
      alternatives bounds ts = { value := some group, issues := [], rest := dropBlank rest } ∧
      SelectorGroup.Same group (s :: more) ∧ Covers rest after := by
  induction more generalizing s ts with
  | nil =>
      rcases groupText_cons s [] hafter with ⟨tail, htext, hstops, htail, -⟩
      rw [htext, htail rfl] at hts
      rcases chain_text (hs s List.mem_cons_self) (hd s List.mem_cons_self) hafter.stops hts rfl
        (bounds.front ts) with ⟨s', rest, hread, halike, hrest⟩
      refine ⟨[s'], rest, ?_, SelectorGroup.same_cons halike SelectorGroup.same_nil, hrest⟩
      rw [alternatives_eq, hread]
      rcases dropBlank_closes hafter hrest with hnil | ⟨l, ls, hcons, hl⟩
      · simp only [alternativesAfter, hnil]
      · simp only [alternativesAfter, hcons, hl, if_true]
  | cons s₂ more ih =>
      rcases groupText_cons s (s₂ :: more) hafter with ⟨tail, htext, hstops, -, htail⟩
      rcases groupText_cons s₂ more hafter with ⟨tail₂, htext₂, hstops₂, -⟩
      have hs₂ : s₂.WellFormed := hs s₂ (List.mem_cons_of_mem s List.mem_cons_self)
      rw [htext] at hts
      rcases chain_text (hs s List.mem_cons_self) (hd s List.mem_cons_self) hstops hts rfl
        (bounds.front ts) with ⟨s', rest, hread, halike, hrest⟩
      rw [htail (List.cons_ne_nil s₂ more), htext₂] at hrest
      -- The comma, the space after it and the first lexeme of the next chain.
      rcases head_text hs₂ tail₂ with ⟨c, text, hc, hblank, -, -⟩
      rcases reads_text hs₂ (fun _ => ends_of_stops hstops₂ s₂) with ⟨t, bs, hreads, hopen⟩
      rcases hrest.cons (Reads.punctuation rfl) with ⟨comma, ls, rfl, hl, hls⟩
      rw [hc] at hls
      rcases hls.cons (reads_space hblank text) with ⟨space, ms, rfl, hspace, hms⟩
      rw [← hc] at hms
      rcases hms.cons hreads with ⟨l, ns, rfl, rfl, -⟩
      have hkc : comma.kind = .comma := congrArg Token.kind hl
      have hks : space.kind = .whitespace := congrArg Token.kind hspace
      rw [← htext₂] at hms
      rcases ih (fun t ht => hs t (List.mem_cons_of_mem s ht))
        (fun t ht => hd t (List.mem_cons_of_mem s ht)) hms with ⟨group, end', hmore, hsame, hend⟩
      refine ⟨s' :: group, end', ?_, SelectorGroup.same_cons halike hsame, hend⟩
      rw [alternatives_eq, hread]
      simp only [alternativesAfter, dropBlank_self (l := comma) (by rw [hkc]; rfl), hkc,
        dropInsignificant_whitespace hks, dropInsignificant_self (open_spec hopen).1, hmore,
        Option.map_some, List.nil_append, reduceCtorEq, if_false, if_true]

end Parse

namespace SelectorGroup

theorem exists_parse_text {limit : Nat} {group : SelectorGroup} (hne : group ≠ [])
    (hs : ∀ s ∈ group, s.WellFormed) (hd : ∀ s ∈ group, s.depth ≤ limit) :
    ∃ group', parse limit (text group) = { value := group', issues := [] } ∧
      Same group' group := by
  cases group with
  | nil => exact absurd rfl hne
  | cons s more =>
      have hts : Lexeme.Covers (Lexeme.ofText (text (s :: more))) (text (s :: more) ++ []) := by
        rw [List.append_nil]
        exact Lexeme.covers_ofText _
      rcases Parse.alternatives_text (Bounds.ofText limit (text (s :: more))) hs hd
        (Or.inl rfl) hts with ⟨group, rest, hread, hsame, hrest⟩
      refine ⟨group, ?_, hsame⟩
      rw [hrest.eq_nil] at hread
      rw [parse]
      simp only [hread]
      rfl

/--
A group of well-formed trees is read back from its text, without an issue, when the limit
allows for the depth of each of its chains.
-/
theorem parse_text {limit : Nat} {group : SelectorGroup} (hne : group ≠ [])
    (hs : ∀ s ∈ group, s.WellFormed) (hd : ∀ s ∈ group, s.depth ≤ limit) :
    (parse limit (text group)).errors = [] ∧ ((parse limit (text group)).value == group) = true := by
  rcases exists_parse_text hne hs hd with ⟨group', hparse, hsame⟩
  rw [hparse]
  exact ⟨rfl, hsame.beq⟩

/-- A name that needs an escape, a negation and a function with an argument. -/
def sampleGroup : SelectorGroup :=
  [.combine .descendant (.type (ascii "1")) (.negation (ascii "NOT") (.id (ascii "a"))),
    .pseudoFunction (ascii "lang") [{ kind := .ident, value := ascii "fr" }]]

theorem wellFormed_sampleGroup : ∀ s ∈ sampleGroup, s.WellFormed := by
  have hchain : (Selector.combine .descendant (.type (ascii "1"))
      (.negation (ascii "NOT") (.id (ascii "a")))).WellFormed := by
    refine ⟨rfl, ⟨by decide, by decide⟩, ⟨rfl, rfl, by decide, by decide⟩, ?_⟩
    intro how
    cases how
  have hcall : Selector.IsCall (ascii "lang") [{ kind := .ident, value := ascii "fr" }] := by
    constructor
    · decide
    · decide +kernel
    · rfl
    · decide
    · decide
    · decide
  intro s hs
  rcases List.mem_cons.mp hs with rfl | hs
  · exact hchain
  · rw [List.mem_singleton.mp hs]
    exact hcall

/-- The escape of the name `1` ends with a space, and the combinator keeps its own. -/
theorem parse_text_sampleGroup :
    ((∀ s ∈ sampleGroup, s.WellFormed) ∧ ∀ s ∈ sampleGroup, s.depth ≤ 3) ∧
      text sampleGroup = ascii "\\31  :NOT(#a), :lang(fr)" ∧
      (parse 3 (text sampleGroup)).errors = [] ∧
      ((parse 3 (text sampleGroup)).value == sampleGroup) = true := by
  have hd : ∀ s ∈ sampleGroup, s.depth ≤ 3 := by
    decide
  constructor
  · exact ⟨wellFormed_sampleGroup, hd⟩
  · constructor
    · decide +kernel
    · exact parse_text (by decide) wellFormed_sampleGroup hd

end SelectorGroup

end CssText
