import CssText.Proofs.Number.Numeral
import CssText.Proofs.Token.Escape

/-!
# The token grammar as a relation

`Reads text t rest` says that the text begins with the token `t` and that `rest` follows
it, with one constructor for each form that a token can have. `reads_scan` and
`Reads.scan_eq` show that it is the graph of the scanner, so that later proofs argue about
forms of tokens and not about the order in which the scanner tries them.
-/

namespace CssText
namespace Token

def isQuote (b : UInt8) : Bool :=
  b = Byte.doubleQuote || b = Byte.singleQuote

/-- The byte `b` begins no longer token before the text `bs` and is not punctuation. -/
structure Stray (b : UInt8) (bs : Bytes) : Prop where
  blank : isBlank b = false
  quote : isQuote b = false
  punctuation : punctuation? b = none
  operator : matchOperator? b bs = none
  numeral : Numeral.scan? (b :: bs) = none
  identifier : startsIdentifier (b :: bs) = false
  comment : b = Byte.slash → bs.head? ≠ some Byte.asterisk
  hash : b = Byte.numberSign → continuesName bs = false
  keyword : b = Byte.commercialAt → startsIdentifier bs = false
  markup : b = Byte.less → (ascii "!--").isPrefixOf bs = false

/-- What an opening parenthesis after a name begins: an address if the name is `url`. -/
def callsUrl (name after : Bytes) : Bool :=
  lowerCase name = ascii "url" && !quotedAhead after

inductive Reads : Bytes → Token → Bytes → Prop where
  | whitespace {b : UInt8} {bs : Bytes} (hb : isBlank b = true) :
      Reads (b :: bs) (plain .whitespace (b :: bs.takeWhile isBlank)) (skipBlanks bs)
  | comment {bs value rest : Bytes} (hc : scanComment bs = (value, rest)) :
      Reads (Byte.slash :: Byte.asterisk :: bs) (plain .comment value) rest
  | string {quote : UInt8} {bs value rest : Bytes} (hq : isQuote quote = true)
      (hs : scanString quote bs = (plain .string value, rest)) :
      Reads (quote :: bs) (plain .string value) rest
  | badString {quote : UInt8} {bs value rest : Bytes} (hq : isQuote quote = true)
      (hs : scanString quote bs = (plain .badString value, rest)) :
      Reads (quote :: bs) (plain .badString value) rest
  | hash {bs name rest : Bytes} (hc : continuesName bs = true)
      (hn : scanName bs = (name, rest)) :
      Reads (Byte.numberSign :: bs) (plain .hash name) rest
  | atKeyword {bs name rest : Bytes} (hs : startsIdentifier bs = true)
      (hn : scanName bs = (name, rest)) :
      Reads (Byte.commercialAt :: bs) (plain .atKeyword name) rest
  | punctuation {b : UInt8} {bs : Bytes} {kind : Kind} (hp : punctuation? b = some kind) :
      Reads (b :: bs) (plain kind [b]) bs
  | operator {b : UInt8} {bs : Bytes} {kind : Kind}
      (ho : matchOperator? b (Byte.equals :: bs) = some kind) :
      Reads (b :: Byte.equals :: bs) (plain kind [b, Byte.equals]) bs
  | number {bs rest : Bytes} {n : Numeral} (hn : Numeral.scan? bs = some (n, rest))
      (hs : startsIdentifier rest = false) (hp : rest.head? ≠ some Byte.percent) :
      Reads bs { kind := .number, value := n.text, number := n.value, isInteger := n.isInteger }
        rest
  | percentage {bs rest : Bytes} {n : Numeral}
      (hn : Numeral.scan? bs = some (n, Byte.percent :: rest)) :
      Reads bs
        { kind := .percentage, value := n.text ++ [Byte.percent], number := n.value,
          isInteger := n.isInteger }
        rest
  | dimension {bs after unit rest : Bytes} {n : Numeral}
      (hn : Numeral.scan? bs = some (n, after)) (hs : startsIdentifier after = true)
      (hu : scanName after = (unit, rest)) :
      Reads bs
        { kind := .dimension, value := n.text ++ unit, number := n.value, unit,
          isInteger := n.isInteger }
        rest
  | cdc {bs : Bytes} : Reads (Byte.hyphen :: Byte.hyphen :: Byte.greater :: bs)
      (plain .cdc (ascii "-->")) bs
  | cdo {bs : Bytes} : Reads (Byte.less :: 0x21 :: Byte.hyphen :: Byte.hyphen :: bs)
      (plain .cdo (ascii "<!--")) bs
  | ident {bs name rest : Bytes} (hs : startsIdentifier bs = true)
      (hc : (ascii "-->").isPrefixOf bs = false) (hn : scanName bs = (name, rest))
      (hp : rest.head? ≠ some Byte.leftParen) :
      Reads bs (plain .ident name) rest
  | function {bs name rest : Bytes} (hs : startsIdentifier bs = true)
      (hn : scanName bs = (name, Byte.leftParen :: rest)) (hu : callsUrl name rest = false) :
      Reads bs (plain .function name) rest
  | url {bs name inside value rest : Bytes} (hs : startsIdentifier bs = true)
      (hn : scanName bs = (name, Byte.leftParen :: inside)) (hu : callsUrl name inside = true)
      (ha : scanAddress (skipBlanks inside) = (some value, rest)) :
      Reads bs (plain .url value) rest
  | badUrl {bs name inside after : Bytes} (hs : startsIdentifier bs = true)
      (hn : scanName bs = (name, Byte.leftParen :: inside)) (hu : callsUrl name inside = true)
      (ha : scanAddress (skipBlanks inside) = (none, after)) :
      Reads bs (plain .badUrl (upTo (skipRemnants after) bs)) (skipRemnants after)
  | delim {b : UInt8} {bs : Bytes} (hb : Stray b bs) : Reads (b :: bs) (plain .delim [b]) bs

theorem Reads.ne_nil {text rest : Bytes} {t : Token} (h : Reads text t rest) : text ≠ [] := by
  intro htext
  have hnumeral : Numeral.scan? text = none := by
    rw [htext]
    rfl
  have hstart : startsIdentifier text = false := by
    rw [htext]
    rfl
  cases h <;> simp_all

/-!
## The scanner follows the grammar
-/

theorem scanString_kind (quote : UInt8) (bs : Bytes) :
    ∃ value, (scanString quote bs).1 = plain .string value ∨
      (scanString quote bs).1 = plain .badString value := by
  fun_induction scanString quote bs with
  | case1 => exact ⟨[], Or.inr rfl⟩
  | case2 bs => exact ⟨[], Or.inl rfl⟩
  | case3 bs h => exact ⟨[], Or.inr rfl⟩
  | case4 h h' => exact ⟨[], Or.inr rfl⟩
  | case5 cs h h' ih => exact ih
  | case6 c cs hc escape string h h' ih =>
      rcases ih with ⟨value, hv | hv⟩
      · exact ⟨escape.1 ++ value, Or.inl (by simp [string, hv, plain])⟩
      · exact ⟨escape.1 ++ value, Or.inr (by simp [string, hv, plain])⟩
  | case7 b bs h h' h'' string ih =>
      rcases ih with ⟨value, hv | hv⟩
      · exact ⟨b :: value, Or.inl (by simp [string, hv, plain])⟩
      · exact ⟨b :: value, Or.inr (by simp [string, hv, plain])⟩

theorem reads_scanNumeric {bs after : Bytes} {n : Numeral}
    (hn : Numeral.scan? bs = some (n, after)) :
    Reads bs (scanNumeric n after).1 (scanNumeric n after).2 := by
  unfold scanNumeric
  split
  · rename_i hs
    exact Reads.dimension hn hs rfl
  · rename_i hs
    rw [Bool.not_eq_true] at hs
    split
    · rename_i b rest
      split
      · rename_i hb
        subst hb
        exact Reads.percentage hn
      · rename_i hb
        exact Reads.number hn hs (by simpa using hb)
    · exact Reads.number hn hs (by simp)

theorem reads_scanIdentLike {bs : Bytes} (hs : startsIdentifier bs = true)
    (hc : (ascii "-->").isPrefixOf bs = false) :
    Reads bs (scanIdentLike bs).1 (scanIdentLike bs).2 := by
  unfold scanIdentLike
  simp only
  split
  · rename_i hn
    exact Reads.ident hs hc (Prod.ext rfl hn) (by simp)
  · rename_i b rest hn
    split
    · rename_i hb
      subst hb
      have hname : scanName bs = ((scanName bs).1, Byte.leftParen :: rest) := Prod.ext rfl hn
      split
      · rename_i hu
        unfold scanUrl
        simp only
        split
        · rename_i value ha
          exact Reads.url hs hname hu (Prod.ext ha rfl)
        · rename_i ha
          exact Reads.badUrl hs hname hu (Prod.ext ha rfl)
      · rename_i hu
        exact Reads.function hs hname (by simpa [callsUrl] using hu)
    · rename_i hb
      exact Reads.ident hs hc (Prod.ext rfl hn) (by simpa using hb)

theorem front_of_startsIdentifier {b : UInt8} {bs : Bytes}
    (h : startsIdentifier (b :: bs) = true) :
    isNameStart b = true ∨ b = Byte.backslash ∨ b = Byte.hyphen := by
  simp only [startsIdentifier, Escape.starts_cons, Bool.or_eq_true, Bool.and_eq_true,
    decide_eq_true_eq] at h
  rcases h with (h | h) | h
  · exact Or.inl h
  · exact Or.inr (Or.inl h.1)
  · exact Or.inr (Or.inr h.1)

theorem scan?_eq_none_of_startsIdentifier {bs : Bytes} (h : startsIdentifier bs = true) :
    Numeral.scan? bs = none := by
  cases bs with
  | nil => rfl
  | cons b bs =>
      rcases front_of_startsIdentifier h with hb | hb | hb
      · apply Numeral.scan?_eq_none_of_not_opens
        grind [Numeral.opens, isNameStart, isDigit, isUpper, isLower]
      · subst hb
        exact Numeral.scan?_eq_none_of_not_opens rfl bs
      · subst hb
        apply Numeral.scan?_sign_eq_none (Or.inr rfl)
        cases bs with
        | nil => rfl
        | cons c cs =>
            have hc : isNameStart c = true ∨ c = Byte.hyphen ∨ c = Byte.backslash := by
              simp only [startsIdentifier, Escape.starts_cons] at h
              simp [isNameStart, isUpper, isLower] at h ⊢
              grind
            rw [beginsWith_cons]
            grind [isNameStart, isDigit, isUpper, isLower]

theorem matchOperator?_cons {b : UInt8} {bs : Bytes} {kind : Kind}
    (h : matchOperator? b bs = some kind) : ∃ cs, bs = Byte.equals :: cs := by
  unfold matchOperator? at h
  split at h
  · cases h
  · rename_i hhead
    exact List.head?_eq_some_iff.mp (Classical.not_not.mp hhead)

theorem matchOperator?_eq_none {b : UInt8} (h : matchOperator? b [Byte.equals] = none)
    (bs : Bytes) : matchOperator? b bs = none := by
  unfold matchOperator? at h ⊢
  split
  · rfl
  · exact h

def isFront (b : UInt8) : Bool :=
  isNameStart b || b = Byte.backslash || b = Byte.hyphen

/-- A byte that could only begin a token with a rule of its own for that byte. -/
def isQuiet (b : UInt8) : Bool :=
  !isBlank b && !isQuote b && (punctuation? b).isNone &&
    (matchOperator? b [Byte.equals]).isNone && !Numeral.opens b && !isFront b

theorem stray_of_isQuiet {b : UInt8} {bs : Bytes} (h : isQuiet b = true)
    (comment : b = Byte.slash → bs.head? ≠ some Byte.asterisk)
    (hash : b = Byte.numberSign → continuesName bs = false)
    (keyword : b = Byte.commercialAt → startsIdentifier bs = false)
    (markup : b = Byte.less → (ascii "!--").isPrefixOf bs = false) : Stray b bs := by
  simp only [isQuiet, isFront, Bool.and_eq_true, Bool.not_eq_true', Option.isNone_iff_eq_none,
    Bool.or_eq_false_iff, decide_eq_false_iff_not] at h
  obtain ⟨⟨⟨⟨⟨hblank, hquote⟩, hp⟩, ho⟩, hopens⟩, ⟨hstart, hback⟩, hhyphen⟩ := h
  refine ⟨hblank, hquote, hp, matchOperator?_eq_none ho bs,
    Numeral.scan?_eq_none_of_not_opens hopens bs, ?_, comment, hash, keyword, markup⟩
  rw [← Bool.not_eq_true]
  intro hs
  rcases front_of_startsIdentifier hs with hb | hb | hb
  · rw [hstart] at hb
    cases hb
  · exact hback hb
  · exact hhyphen hb

theorem stray_numberSign {bs : Bytes} (h : continuesName bs = false) :
    Stray Byte.numberSign bs :=
  stray_of_isQuiet rfl (fun hb => by cases hb) (fun _ => h) (fun hb => by cases hb)
    (fun hb => by cases hb)

theorem stray_commercialAt {bs : Bytes} (h : startsIdentifier bs = false) :
    Stray Byte.commercialAt bs :=
  stray_of_isQuiet rfl (fun hb => by cases hb) (fun hb => by cases hb) (fun _ => h)
    (fun hb => by cases hb)

/-- The token that the scanner finds is one that the grammar has there. -/
theorem reads_scan (b : UInt8) (bs : Bytes) :
    Reads (b :: bs) (scan b bs).1 (scan b bs).2 := by
  unfold scan
  split
  · rename_i hb
    exact Reads.whitespace hb
  rename_i hblank
  split
  · rename_i h
    simp only [Bool.and_eq_true, decide_eq_true_eq] at h
    obtain ⟨rfl, hhead⟩ := h
    obtain ⟨cs, rfl⟩ := List.head?_eq_some_iff.mp hhead
    exact Reads.comment rfl
  rename_i hcomment
  split
  · rename_i hq
    obtain ⟨value, hv | hv⟩ := scanString_kind b bs
    · rw [hv]
      exact Reads.string hq (Prod.ext hv rfl)
    · rw [hv]
      exact Reads.badString hq (Prod.ext hv rfl)
  rename_i hquote
  split
  · rename_i hb
    subst hb
    unfold scanHash
    split
    · rename_i hc
      exact Reads.hash hc rfl
    · rename_i hc
      exact Reads.delim (stray_numberSign (by simpa [continuesName, beginsWith] using hc))
  rename_i hhash
  split
  · rename_i hb
    subst hb
    unfold scanAtKeyword
    split
    · rename_i hs
      exact Reads.atKeyword hs rfl
    · rename_i hs
      exact Reads.delim (stray_commercialAt (by simpa using hs))
  rename_i hat
  split
  · rename_i kind hp
    exact Reads.punctuation hp
  rename_i hp
  split
  · rename_i kind ho
    obtain ⟨cs, rfl⟩ := matchOperator?_cons ho
    exact Reads.operator ho
  rename_i ho
  split
  · rename_i numeral rest hn
    exact reads_scanNumeric hn
  rename_i hn
  unfold scanOther
  split
  · rename_i h
    simp only [Bool.and_eq_true, decide_eq_true_eq, List.isPrefixOf_iff_prefix] at h
    obtain ⟨rfl, cs, rfl⟩ := h
    exact Reads.cdc
  rename_i hcdc
  split
  · rename_i h
    simp only [Bool.and_eq_true, decide_eq_true_eq, List.isPrefixOf_iff_prefix] at h
    obtain ⟨rfl, cs, rfl⟩ := h
    exact Reads.cdo
  rename_i hcdo
  split
  · rename_i hs
    apply reads_scanIdentLike hs
    have hsplit : ascii "-->" = Byte.hyphen :: ascii "->" := by
      rfl
    rw [hsplit, List.isPrefixOf_cons_cons, ← Bool.not_eq_true]
    intro h
    simp only [Bool.and_eq_true, beq_iff_eq] at h
    exact hcdc (by simp [← h.1, h.2])
  · rename_i hs
    exact Reads.delim ⟨by simpa using hblank, by simpa [isQuote] using hquote, hp, ho, hn,
      by simpa using hs, by simpa using hcomment, fun h => absurd h hhash,
      fun h => absurd h hat, by simpa [← List.isPrefixOf_iff_prefix] using hcdo⟩

/-!
## The grammar is deterministic

The bytes that names and numerals begin with have no rules of their own. An identifier is
scanned as a name, unless it is two hyphens that close a comment mark with the byte `>` behind
them.
-/

def isMark (b : UInt8) : Bool :=
  isBlank b || b = Byte.slash || isQuote b || b = Byte.numberSign || b = Byte.commercialAt

theorem scan_of_not_isMark {b : UInt8} (h : isMark b = false) (bs : Bytes) :
    scan b bs =
      match punctuation? b with
      | some kind => (plain kind [b], bs)
      | none =>
          match matchOperator? b bs with
          | some kind => (plain kind [b, Byte.equals], bs.tail)
          | none =>
              match Numeral.scan? (b :: bs) with
              | some (numeral, rest) => scanNumeric numeral rest
              | none => scanOther b bs := by
  simp only [isMark, isQuote, Bool.or_eq_false_iff, decide_eq_false_iff_not] at h
  obtain ⟨⟨⟨⟨hblank, hslash⟩, hdouble, hsingle⟩, hhash⟩, hat⟩ := h
  have hcomment : ¬ (b = Byte.slash && bs.head? = some Byte.asterisk) = true := by
    simp [hslash]
  have hquote : ¬ (b = Byte.doubleQuote || b = Byte.singleQuote) = true := by
    simp [hdouble, hsingle]
  rw [scan]
  exact (if_neg (by simp [hblank])).trans <| (if_neg hcomment).trans <|
    (if_neg hquote).trans <| (if_neg hhash).trans (if_neg hat)

def punctuationMarks : List (UInt8 × Kind) :=
  [(Byte.leftParen, .leftParen), (Byte.rightParen, .rightParen), (Byte.comma, .comma),
    (Byte.colon, .colon), (Byte.semicolon, .semicolon), (Byte.leftBracket, .leftBracket),
    (Byte.rightBracket, .rightBracket), (Byte.leftBrace, .leftBrace),
    (Byte.rightBrace, .rightBrace)]

theorem forall_punctuation {p : UInt8 → Kind → Prop}
    (h : ∀ m ∈ punctuationMarks, p m.1 m.2) : ∀ b, ∀ kind ∈ punctuation? b, p b kind := by
  intro b kind hk
  apply h (b, kind)
  unfold punctuation? at hk
  repeat' split at hk
  all_goals cases hk
  all_goals
    rename_i hb
    rw [hb]
    decide

def operatorMarks : List (UInt8 × Kind) :=
  [(Byte.tilde, .includeMatch), (Byte.bar, .dashMatch), (Byte.caret, .prefixMatch),
    (Byte.dollar, .suffixMatch), (Byte.asterisk, .substringMatch)]

theorem forall_operator {p : UInt8 → Kind → Prop} (h : ∀ m ∈ operatorMarks, p m.1 m.2) :
    ∀ b, ∀ kind ∈ matchOperator? b [Byte.equals], p b kind := by
  intro b kind hk
  apply h (b, kind)
  rw [matchOperator?, if_neg (by simp)] at hk
  repeat' split at hk
  all_goals cases hk
  all_goals
    rename_i hb
    rw [hb]
    decide

theorem not_isMark_of_punctuation : ∀ b : UInt8, ∀ kind ∈ punctuation? b, isMark b = false :=
  forall_punctuation (by decide)

theorem not_isMark_of_operator : ∀ b : UInt8, ∀ kind ∈ matchOperator? b [Byte.equals],
    isMark b = false ∧ punctuation? b = none :=
  forall_operator (by decide)

def beginsWord (b : UInt8) : Bool :=
  isFront b || Numeral.opens b

theorem not_isMark_of_beginsWord : ∀ b : UInt8, beginsWord b = true → isMark b = false :=
  forall_byte (by decide +kernel)

theorem class_of_beginsWord {b : UInt8} (h : beginsWord b = true) :
    isMark b = false ∧ punctuation? b = none ∧ matchOperator? b [Byte.equals] = none := by
  have hpunctuation : ∀ b, ∀ kind ∈ punctuation? b, beginsWord b = false :=
    forall_punctuation (by decide)
  have hoperator : ∀ b, ∀ kind ∈ matchOperator? b [Byte.equals], beginsWord b = false :=
    forall_operator (by decide)
  refine ⟨not_isMark_of_beginsWord b h, ?_, ?_⟩
  · rw [Option.eq_none_iff_forall_not_mem]
    intro kind hk
    rw [hpunctuation b kind hk] at h
    cases h
  · rw [Option.eq_none_iff_forall_not_mem]
    intro kind hk
    rw [hoperator b kind hk] at h
    cases h

theorem scan_of_numeral {b : UInt8} {bs rest : Bytes} {n : Numeral}
    (h : Numeral.scan? (b :: bs) = some (n, rest)) : scan b bs = scanNumeric n rest := by
  have hopens : Numeral.opens b = true := by
    rw [← Bool.not_eq_false]
    intro hb
    rw [Numeral.scan?_eq_none_of_not_opens hb] at h
    cases h
  obtain ⟨hmark, hp, ho⟩ := class_of_beginsWord (b := b) (by simp [beginsWord, hopens])
  rw [scan_of_not_isMark hmark, hp, matchOperator?_eq_none ho, h]

theorem scan_of_startsIdentifier {b : UInt8} {bs : Bytes}
    (h : startsIdentifier (b :: bs) = true) : scan b bs = scanOther b bs := by
  have hfront : isFront b = true := by
    simpa [isFront, or_assoc] using front_of_startsIdentifier h
  obtain ⟨hmark, hp, ho⟩ := class_of_beginsWord (b := b) (by simp [beginsWord, hfront])
  rw [scan_of_not_isMark hmark, hp, matchOperator?_eq_none ho,
    scan?_eq_none_of_startsIdentifier h]

theorem scan_eq_scanIdentLike {b : UInt8} {bs : Bytes} (h : startsIdentifier (b :: bs) = true)
    (hc : (ascii "-->").isPrefixOf (b :: bs) = false) :
    scan b bs = scanIdentLike (b :: bs) := by
  rw [scan_of_startsIdentifier h, scanOther, if_neg, if_neg, if_pos h]
  · intro hless
    simp only [Bool.and_eq_true, decide_eq_true_eq] at hless
    rcases front_of_startsIdentifier h with hb | hb | hb
    · rw [hless.1] at hb
      cases hb
    · rw [hless.1] at hb
      cases hb
    · rw [hless.1] at hb
      cases hb
  · intro harrow
    simp only [Bool.and_eq_true, decide_eq_true_eq] at harrow
    have hsplit : ascii "-->" = Byte.hyphen :: ascii "->" := by
      rfl
    rw [hsplit, harrow.1, List.isPrefixOf_cons_cons, harrow.2] at hc
    cases hc

theorem scanName_arrow (cs : Bytes) :
    scanName (ascii "-->" ++ cs) = (ascii "--", Byte.greater :: cs) := by
  have hspell : Spells (ascii "--") (ascii "--") :=
    (spells_nameByte (b := Byte.hyphen) rfl).append (spells_nameByte (b := Byte.hyphen) rfl)
  have hstop : continuesName (Byte.greater :: cs) = false :=
    continuesName_cons rfl (by decide) cs
  exact hspell.scanName_append hstop

theorem not_arrow_of_scanName {bs name after : Bytes} (hn : scanName bs = (name, after))
    (h : name = ascii "--" → after.head? ≠ some Byte.greater) :
    (ascii "-->").isPrefixOf bs = false := by
  rw [← Bool.not_eq_true]
  intro hahead
  obtain ⟨cs, rfl⟩ := List.isPrefixOf_iff_prefix.mp hahead
  rw [scanName_arrow] at hn
  obtain ⟨rfl, rfl⟩ := Prod.mk.inj hn
  exact h rfl rfl

theorem not_arrow_of_leftParen {bs name after : Bytes}
    (hn : scanName bs = (name, Byte.leftParen :: after)) :
    (ascii "-->").isPrefixOf bs = false := by
  apply not_arrow_of_scanName hn
  intro _ h
  cases h

theorem front_of_isQuote (b : UInt8) (h : isQuote b = true) :
    isBlank b = false ∧ b ≠ Byte.slash := by
  rw [isQuote, Bool.or_eq_true, decide_eq_true_eq, decide_eq_true_eq] at h
  rcases h with rfl | rfl <;> decide

theorem scan_quote {quote : UInt8} (hq : isQuote quote = true) (bs : Bytes) :
    scan quote bs = scanString quote bs := by
  obtain ⟨hblank, hslash⟩ := front_of_isQuote quote hq
  simp only [isQuote, Bool.or_eq_true, decide_eq_true_eq] at hq
  simp [scan, hblank, hslash, hq]

theorem scan_numberSign (bs : Bytes) : scan Byte.numberSign bs = scanHash bs := by
  have hslash : Byte.numberSign ≠ Byte.slash := by
    decide
  rw [scan, if_neg (by decide), if_neg (by simp [hslash]), if_neg (by decide), if_pos rfl]

theorem scan_commercialAt (bs : Bytes) : scan Byte.commercialAt bs = scanAtKeyword bs := by
  have hslash : Byte.commercialAt ≠ Byte.slash := by
    decide
  rw [scan, if_neg (by decide), if_neg (by simp [hslash]), if_neg (by decide),
    if_neg (by decide), if_pos rfl]

theorem scan_stray {b : UInt8} {bs : Bytes} (h : Stray b bs) :
    scan b bs = (plain .delim [b], bs) := by
  by_cases hhash : b = Byte.numberSign
  · have hname := h.hash hhash
    rw [continuesName, beginsWith] at hname
    rw [hhash, scan_numberSign, scanHash, if_neg (by simp [hname])]
  by_cases hat : b = Byte.commercialAt
  · rw [hat, scan_commercialAt, scanAtKeyword, if_neg (by simp [h.keyword hat])]
  have hquote := h.quote
  simp only [isQuote, Bool.or_eq_false_iff, decide_eq_false_iff_not] at hquote
  have harrow : b = Byte.hyphen → (ascii "->").isPrefixOf bs = false := by
    intro hb
    rw [← Bool.not_eq_true]
    intro hahead
    obtain ⟨cs, rfl⟩ := List.isPrefixOf_iff_prefix.mp hahead
    have hident := h.identifier
    rw [hb] at hident
    exact Bool.noConfusion hident
  rw [scan, if_neg (by simp [h.blank]), if_neg (by simpa using h.comment),
    if_neg (by simp [hquote]), if_neg hhash, if_neg hat, h.punctuation, h.operator, h.numeral]
  simp only
  rw [scanOther, if_neg (by simpa [← List.isPrefixOf_iff_prefix] using harrow),
    if_neg (by simpa [← List.isPrefixOf_iff_prefix] using h.markup),
    if_neg (by simp [h.identifier])]

/-- The grammar allows one token at the front of a text, which is the one the scanner finds. -/
theorem Reads.scan_eq {b : UInt8} {bs rest : Bytes} {t : Token} (h : Reads (b :: bs) t rest) :
    scan b bs = (t, rest) := by
  cases h with
  | whitespace hb => rw [scan, if_pos hb]
  | comment hc =>
      rw [scan, if_neg (by decide), if_pos (by simp), List.tail_cons, hc]
  | string hq hs => rw [scan_quote hq, hs]
  | badString hq hs => rw [scan_quote hq, hs]
  | hash hc hn =>
      rw [continuesName, beginsWith] at hc
      rw [scan_numberSign, scanHash, if_pos hc, hn]
  | atKeyword hs hn => rw [scan_commercialAt, scanAtKeyword, if_pos hs, hn]
  | punctuation hp =>
      rw [scan_of_not_isMark (not_isMark_of_punctuation b _ hp), hp]
  | operator ho =>
      have hoperator : matchOperator? b [Byte.equals] = some _ := ho
      obtain ⟨hmark, hp⟩ := not_isMark_of_operator b _ hoperator
      rw [scan_of_not_isMark hmark, hp, ho]
      rfl
  | number hn hs hp =>
      rw [scan_of_numeral hn, scanNumeric.eq_def, if_neg (by simp [hs])]
      cases rest with
      | nil => rfl
      | cons c cs =>
          simp only [List.head?_cons, ne_eq, Option.some.injEq] at hp
          simp [hp]
  | percentage hn =>
      have hs : startsIdentifier (Byte.percent :: rest) = false := by
        rw [← Bool.not_eq_true]
        intro h
        rcases front_of_startsIdentifier h with hb | hb | hb <;> cases hb
      rw [scan_of_numeral hn, scanNumeric.eq_def, if_neg (by simp [hs])]
      simp
  | dimension hn hs hu => rw [scan_of_numeral hn, scanNumeric.eq_def, if_pos hs, hu]
  | cdc =>
      have hs : startsIdentifier (Byte.hyphen :: Byte.hyphen :: Byte.greater :: rest) = true := by
        simp [startsIdentifier]
      rw [scan_of_startsIdentifier hs, scanOther, if_pos (by rfl)]
      rfl
  | cdo =>
      obtain ⟨hmark, hp, ho⟩ : isMark Byte.less = false ∧ punctuation? Byte.less = none ∧
          matchOperator? Byte.less [Byte.equals] = none := by
        decide
      rw [scan_of_not_isMark hmark, hp, matchOperator?_eq_none ho,
        Numeral.scan?_eq_none_of_not_opens rfl]
      rfl
  | ident hs hc hn hp =>
      rw [scan_eq_scanIdentLike hs hc, scanIdentLike, hn]
      cases rest with
      | nil => rfl
      | cons c cs =>
          simp only [List.head?_cons, ne_eq, Option.some.injEq] at hp
          simp only [if_neg hp]
  | function hs hn hu =>
      rw [scan_eq_scanIdentLike hs (not_arrow_of_leftParen hn), scanIdentLike, hn]
      rw [callsUrl] at hu
      simp [hu]
  | url hs hn hu ha =>
      rw [scan_eq_scanIdentLike hs (not_arrow_of_leftParen hn), scanIdentLike, hn]
      rw [callsUrl] at hu
      simp only [hu, if_true, scanUrl, ha]
  | badUrl hs hn hu ha =>
      rw [scan_eq_scanIdentLike hs (not_arrow_of_leftParen hn), scanIdentLike, hn]
      rw [callsUrl] at hu
      simp only [hu, if_true, scanUrl, ha]
  | delim hb => exact scan_stray hb

theorem Reads.exists_cons {text rest : Bytes} {t : Token} (h : Reads text t rest) :
    ∃ b bs, text = b :: bs ∧ scan b bs = (t, rest) := by
  obtain ⟨b, bs, rfl⟩ := List.exists_cons_of_ne_nil h.ne_nil
  exact ⟨b, bs, rfl, h.scan_eq⟩

theorem Reads.suffix {text rest : Bytes} {t : Token} (h : Reads text t rest) : rest <:+ text := by
  obtain ⟨b, bs, rfl, hscan⟩ := h.exists_cons
  have hsuffix := scan_suffix b bs
  rw [hscan] at hsuffix
  exact hsuffix.trans (List.suffix_cons b _)

theorem Reads.length_lt {text rest : Bytes} {t : Token} (h : Reads text t rest) :
    rest.length < text.length := by
  obtain ⟨b, bs, rfl, hscan⟩ := h.exists_cons
  have hlength := (scan_suffix b bs).length_le
  rw [hscan] at hlength
  exact Nat.lt_succ_of_le hlength

theorem upTo_append (w rest : Bytes) : upTo rest (w ++ rest) = w :=
  List.append_cancel_right (upTo_append_of_suffix (List.suffix_append w rest))

end Token
end CssText
