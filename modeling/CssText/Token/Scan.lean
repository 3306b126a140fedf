import CssText.Token
import CssText.Token.Escape
import CssText.Number.Numeral

/-!
# Scanning one token

`Token.scan` reads the token at the front of a text that is not empty and returns it with
the rest of the text. Each scanner takes the bytes it decides on and leaves a suffix; the
last section shows that a token always takes at least one byte, which is what makes reading
a whole text end.
-/

namespace CssText
namespace Token

/-!
## Names

A name is a run of name bytes and escapes. What may begin an identifier is decided before it
is read, since a digit or a hyphen in front may also begin a number.
-/

def scanName : Bytes → Bytes × Bytes
  | [] => ([], [])
  | b :: bs =>
      if isNameByte b then
        let name := scanName bs
        (b :: name.1, name.2)
      else if Escape.starts (b :: bs) then
        let escape := Escape.read bs
        let name := scanName escape.2
        (escape.1 ++ name.1, name.2)
      else
        ([], b :: bs)
termination_by bs => bs.length
decreasing_by
  · simp only [List.length_cons]
    omega
  · have := (Escape.read_suffix bs).length_le
    simp only [List.length_cons]
    omega

/-- A name start, an escape, or a hyphen with one of them or another hyphen after it. -/
def startsIdentifier : Bytes → Bool
  | [] => false
  | b :: bs =>
      isNameStart b || Escape.starts (b :: bs) ||
        (b = Byte.hyphen &&
          ((bs.head?.map fun c => isNameStart c || c = Byte.hyphen).getD false ||
            Escape.starts bs))

/-!
## Comments and strings

The opening mark has been taken. Both run to the end of the input when nothing closes them;
a string also breaks off before an unescaped newline.
-/

def scanComment : Bytes → Bytes × Bytes
  | [] => ([], [])
  | [b] => ([b], [])
  | b :: c :: bs =>
      if b = Byte.asterisk && c = Byte.slash then
        ([], bs)
      else
        let comment := scanComment (c :: bs)
        (b :: comment.1, comment.2)

def scanString (quote : UInt8) : Bytes → Token × Bytes
  | [] => (plain .badString [], [])
  | b :: bs =>
      if b = quote then
        (plain .string [], bs)
      else if b = Byte.newline then
        (plain .badString [], b :: bs)
      else if b = Byte.backslash then
        match bs with
        | [] => (plain .badString [], [])
        | c :: cs =>
            if c = Byte.newline then
              scanString quote cs
            else
              let escape := Escape.read (c :: cs)
              let string := scanString quote escape.2
              ({ string.1 with value := escape.1 ++ string.1.value }, string.2)
      else
        let string := scanString quote bs
        ({ string.1 with value := b :: string.1.value }, string.2)
termination_by bs => bs.length
decreasing_by
  · simp only [List.length_cons]
    omega
  · have := (Escape.read_suffix (c :: cs)).length_le
    simp only [List.length_cons] at this ⊢
    omega
  · simp only [List.length_cons]
    omega

/-!
## Unquoted addresses

`url(` has been taken and blanks after it skipped. An address that breaks its grammar is
skipped to its closing parenthesis and kept as raw text.
-/

def skipBlanks (bs : Bytes) : Bytes :=
  bs.dropWhile isBlank

/-- The address, or nothing when it is broken, and the text after the byte that decided. -/
def scanAddress : Bytes → Option Bytes × Bytes
  | [] => (none, [])
  | b :: bs =>
      if b = Byte.rightParen then
        (some [], bs)
      else if isBlank b then
        match skipBlanks bs with
        | [] => (none, [])
        | c :: cs => if c = Byte.rightParen then (some [], cs) else (none, c :: cs)
      else if b = Byte.doubleQuote || b = Byte.singleQuote || b = Byte.leftParen ||
          isControl b then
        (none, bs)
      else if b = Byte.backslash then
        match bs with
        | [] => (none, [])
        | c :: cs =>
            if c = Byte.newline then
              (none, c :: cs)
            else
              let escape := Escape.read (c :: cs)
              let address := scanAddress escape.2
              (address.1.map (escape.1 ++ ·), address.2)
      else
        let address := scanAddress bs
        (address.1.map (b :: ·), address.2)
termination_by bs => bs.length
decreasing_by
  · have := (Escape.read_suffix (c :: cs)).length_le
    simp only [List.length_cons] at this ⊢
    omega
  · simp only [List.length_cons]
    omega

/-- Skip through the next closing parenthesis that no backslash protects. -/
def skipRemnants : Bytes → Bytes
  | [] => []
  | [_] => []
  | b :: c :: bs =>
      if b = Byte.rightParen then c :: bs
      else if b = Byte.backslash && c ≠ Byte.newline then skipRemnants bs
      else skipRemnants (c :: bs)

/-- An unquoted address; `whole` is the text from the start of the token. -/
def scanUrl (whole bs : Bytes) : Token × Bytes :=
  let address := scanAddress (skipBlanks bs)
  match address.1 with
  | some value => (plain .url value, address.2)
  | none =>
      let rest := skipRemnants address.2
      (plain .badUrl (upTo rest whole), rest)

/-!
## Tokens that begin with a name or a number
-/

def quotedAhead (bs : Bytes) : Bool :=
  ((skipBlanks bs).head?.map fun b => b = Byte.doubleQuote || b = Byte.singleQuote).getD false

def scanIdentLike (bs : Bytes) : Token × Bytes :=
  let name := scanName bs
  match name.2 with
  | [] => (plain .ident name.1, [])
  | b :: rest =>
      if b = Byte.leftParen then
        if lowerCase name.1 = ascii "url" && !quotedAhead rest then scanUrl bs rest
        else (plain .function name.1, rest)
      else
        (plain .ident name.1, b :: rest)

def scanNumeric (numeral : Numeral) (bs : Bytes) : Token × Bytes :=
  let number := numeral.value
  let isInteger := numeral.isInteger
  if startsIdentifier bs then
    let unit := scanName bs
    ({ kind := .dimension, value := numeral.text ++ unit.1, number, unit := unit.1,
       isInteger }, unit.2)
  else
    match bs with
    | b :: rest =>
        if b = Byte.percent then
          ({ kind := .percentage, value := numeral.text ++ [b], number, isInteger }, rest)
        else
          ({ kind := .number, value := numeral.text, number, isInteger }, b :: rest)
    | [] => ({ kind := .number, value := numeral.text, number, isInteger }, [])

/-!
## The first byte decides
-/

def punctuation? (b : UInt8) : Option Kind :=
  if b = Byte.leftParen then some .leftParen
  else if b = Byte.rightParen then some .rightParen
  else if b = Byte.comma then some .comma
  else if b = Byte.colon then some .colon
  else if b = Byte.semicolon then some .semicolon
  else if b = Byte.leftBracket then some .leftBracket
  else if b = Byte.rightBracket then some .rightBracket
  else if b = Byte.leftBrace then some .leftBrace
  else if b = Byte.rightBrace then some .rightBrace
  else none

def matchOperator? (b : UInt8) (bs : Bytes) : Option Kind :=
  if bs.head? ≠ some Byte.equals then none
  else if b = Byte.tilde then some .includeMatch
  else if b = Byte.bar then some .dashMatch
  else if b = Byte.caret then some .prefixMatch
  else if b = Byte.dollar then some .suffixMatch
  else if b = Byte.asterisk then some .substringMatch
  else none

def scanHash (bs : Bytes) : Token × Bytes :=
  if (bs.head?.map isNameByte).getD false || Escape.starts bs then
    let name := scanName bs
    (plain .hash name.1, name.2)
  else
    (plain .delim [Byte.numberSign], bs)

def scanAtKeyword (bs : Bytes) : Token × Bytes :=
  if startsIdentifier bs then
    let name := scanName bs
    (plain .atKeyword name.1, name.2)
  else
    (plain .delim [Byte.commercialAt], bs)

/-- What is left once the first byte is no mark of its own: a name, or the byte itself. -/
def scanOther (b : UInt8) (bs : Bytes) : Token × Bytes :=
  if b = Byte.hyphen && (ascii "->").isPrefixOf bs then
    (plain .cdc (ascii "-->"), bs.drop 2)
  else if b = Byte.less && (ascii "!--").isPrefixOf bs then
    (plain .cdo (ascii "<!--"), bs.drop 3)
  else if startsIdentifier (b :: bs) then
    scanIdentLike (b :: bs)
  else
    (plain .delim [b], bs)

def scan (b : UInt8) (bs : Bytes) : Token × Bytes :=
  if isBlank b then
    (plain .whitespace (b :: bs.takeWhile isBlank), skipBlanks bs)
  else if b = Byte.slash && bs.head? = some Byte.asterisk then
    let comment := scanComment bs.tail
    (plain .comment comment.1, comment.2)
  else if b = Byte.doubleQuote || b = Byte.singleQuote then
    scanString b bs
  else if b = Byte.numberSign then
    scanHash bs
  else if b = Byte.commercialAt then
    scanAtKeyword bs
  else
    match punctuation? b with
    | some kind => (plain kind [b], bs)
    | none =>
        match matchOperator? b bs with
        | some kind => (plain kind [b, Byte.equals], bs.tail)
        | none =>
            match Numeral.scan? (b :: bs) with
            | some (numeral, rest) => scanNumeric numeral rest
            | none => scanOther b bs

/-!
## What scanning leaves
-/

theorem scanName_suffix (bs : Bytes) : (scanName bs).2 <:+ bs := by
  fun_induction scanName bs with
  | case1 =>
      exact List.suffix_refl []
  | case2 b bs hb name ih =>
      exact ih.trans (List.suffix_cons b _)
  | case3 b bs hb he escape name ih =>
      exact (ih.trans (Escape.read_suffix bs)).trans (List.suffix_cons b _)
  | case4 b bs hb he =>
      exact List.suffix_refl _

theorem scanComment_suffix (bs : Bytes) : (scanComment bs).2 <:+ bs := by
  fun_induction scanComment bs with
  | case1 =>
      exact List.suffix_refl []
  | case2 b =>
      exact List.nil_suffix
  | case3 b c bs h =>
      exact (List.suffix_cons c bs).trans (List.suffix_cons b _)
  | case4 b c bs h comment ih =>
      exact ih.trans (List.suffix_cons b _)

theorem scanString_suffix (quote : UInt8) (bs : Bytes) : (scanString quote bs).2 <:+ bs := by
  fun_induction scanString quote bs with
  | case1 =>
      exact List.suffix_refl []
  | case2 bs =>
      exact List.suffix_cons quote bs
  | case3 bs h =>
      exact List.suffix_refl _
  | case4 h h' =>
      exact List.nil_suffix
  | case5 cs h h' ih =>
      exact (ih.trans (List.suffix_cons _ _)).trans (List.suffix_cons _ _)
  | case6 c cs hc escape string h h' ih =>
      exact (ih.trans (Escape.read_suffix (c :: cs))).trans (List.suffix_cons _ _)
  | case7 b bs h h' h'' string ih =>
      exact ih.trans (List.suffix_cons b _)

theorem skipBlanks_suffix (bs : Bytes) : skipBlanks bs <:+ bs :=
  List.dropWhile_suffix isBlank

theorem scanAddress_suffix (bs : Bytes) : (scanAddress bs).2 <:+ bs := by
  fun_induction scanAddress bs with
  | case1 =>
      exact List.suffix_refl []
  | case2 bs =>
      exact List.suffix_cons _ bs
  | case3 b bs h hb hs =>
      exact List.nil_suffix
  | case4 b bs h hb cs hs =>
      have hs' : Byte.rightParen :: cs <:+ bs := hs ▸ skipBlanks_suffix bs
      exact ((List.suffix_cons _ cs).trans hs').trans (List.suffix_cons b _)
  | case5 b bs h hb c cs hs hc =>
      have hs' : c :: cs <:+ bs := hs ▸ skipBlanks_suffix bs
      exact hs'.trans (List.suffix_cons b _)
  | case6 b bs h hb hq =>
      exact List.suffix_cons b bs
  | case7 h hb hq =>
      exact List.nil_suffix
  | case8 cs h hb hq =>
      exact List.suffix_cons _ _
  | case9 c cs hc escape address h hb hq ih =>
      exact (ih.trans (Escape.read_suffix (c :: cs))).trans (List.suffix_cons _ _)
  | case10 b bs h hb hq hs address ih =>
      exact ih.trans (List.suffix_cons b _)

theorem skipRemnants_suffix (bs : Bytes) : skipRemnants bs <:+ bs := by
  fun_induction skipRemnants bs with
  | case1 =>
      exact List.suffix_refl []
  | case2 b =>
      exact List.nil_suffix
  | case3 c bs =>
      exact List.suffix_cons _ _
  | case4 b c bs h h' ih =>
      exact (ih.trans (List.suffix_cons c _)).trans (List.suffix_cons b _)
  | case5 b c bs h h' ih =>
      exact ih.trans (List.suffix_cons b _)

theorem scanUrl_suffix (whole bs : Bytes) : (scanUrl whole bs).2 <:+ bs := by
  have ha := (scanAddress_suffix (skipBlanks bs)).trans (skipBlanks_suffix bs)
  simp only [scanUrl]
  split
  · exact ha
  · exact (skipRemnants_suffix _).trans ha

theorem scanIdentLike_suffix (bs : Bytes) :
    (scanIdentLike bs).2 <:+ (scanName bs).2 := by
  simp only [scanIdentLike]
  split
  · rename_i h
    exact h ▸ List.suffix_refl []
  · rename_i b rest h
    rw [h]
    split
    · split
      · exact (scanUrl_suffix bs rest).trans (List.suffix_cons b _)
      · exact List.suffix_cons b rest
    · exact List.suffix_refl _

theorem scanNumeric_suffix (numeral : Numeral) (bs : Bytes) :
    (scanNumeric numeral bs).2 <:+ bs := by
  simp only [scanNumeric]
  split
  · exact scanName_suffix bs
  · split
    · split
      · exact List.suffix_cons _ _
      · exact List.suffix_refl _
    · exact List.suffix_refl []

theorem scanHash_suffix (bs : Bytes) : (scanHash bs).2 <:+ bs := by
  simp only [scanHash]
  split
  · exact scanName_suffix bs
  · exact List.suffix_refl bs

theorem scanAtKeyword_suffix (bs : Bytes) : (scanAtKeyword bs).2 <:+ bs := by
  simp only [scanAtKeyword]
  split
  · exact scanName_suffix bs
  · exact List.suffix_refl bs

theorem scanName_cons_suffix {b : UInt8} {bs : Bytes} (h : startsIdentifier (b :: bs) = true) :
    (scanName (b :: bs)).2 <:+ bs := by
  rw [scanName]
  split
  · exact scanName_suffix bs
  · rename_i hb
    split
    · exact (scanName_suffix _).trans (Escape.read_suffix bs)
    · rename_i he
      simp only [isNameByte, Bool.or_eq_true, not_or] at hb
      simp only [startsIdentifier, Bool.or_eq_true, Bool.and_eq_true, decide_eq_true_eq] at h
      rcases h with (hn | hs) | ⟨hh, -⟩
      · exact absurd hn hb.1.1
      · exact absurd hs he
      · exact absurd (beq_iff_eq.mpr hh) hb.2

theorem scanOther_suffix (b : UInt8) (bs : Bytes) : (scanOther b bs).2 <:+ bs := by
  simp only [scanOther]
  split
  · exact List.drop_suffix 2 bs
  · split
    · exact List.drop_suffix 3 bs
    · split
      · rename_i h
        exact (scanIdentLike_suffix _).trans (scanName_cons_suffix h)
      · exact List.suffix_refl bs

theorem scan_suffix (b : UInt8) (bs : Bytes) : (scan b bs).2 <:+ bs := by
  rw [scan]
  split
  · exact skipBlanks_suffix bs
  split
  · exact (scanComment_suffix bs.tail).trans (List.tail_suffix bs)
  split
  · exact scanString_suffix b bs
  split
  · exact scanHash_suffix bs
  split
  · exact scanAtKeyword_suffix bs
  split
  · exact List.suffix_refl bs
  split
  · exact List.tail_suffix bs
  split
  · rename_i numeral rest h
    exact (scanNumeric_suffix numeral rest).trans
      (suffix_of_suffix_cons (Numeral.scan?_suffix h) (Numeral.length_lt_of_scan? h))
  · exact scanOther_suffix b bs

end Token
end CssText
