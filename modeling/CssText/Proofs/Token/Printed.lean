import CssText.Proofs.Token.Grammar
import CssText.Token.Printer

/-!
# Printed tokens are read back

`Formed` lists what the payload of a token may be, kind by kind. `Clear t rest` says that
the text `rest` does not run on into the printed form of `t`. The two together are enough:
`Formed.reads_toCss` reads the token back from its text and leaves `rest`.
-/

namespace CssText
namespace Token

def isNamed (kind : Kind) : Bool :=
  kind = .ident || kind = .function || kind = .atKeyword || kind = .hash

inductive Formed : Token → Prop where
  | name {kind : Kind} {value : Bytes} (hk : isNamed kind = true) (hne : value ≠ [])
      (h0 : 0 ∉ value) : Formed (plain kind value)
  | string (value : Bytes) : Formed (plain .string value)
  | badString (value : Bytes) : Formed (plain .badString value)
  | url {value : Bytes} (h0 : 0 ∉ value) : Formed (plain .url value)
  | badUrl {value : Bytes} (h : Reads value (plain .badUrl value) []) :
      Formed (plain .badUrl value)
  | number {n : Numeral} (hn : n.Formed) :
      Formed { kind := .number, value := n.text, number := n.value, isInteger := n.isInteger }
  | percentage {n : Numeral} (hn : n.Formed) :
      Formed { kind := .percentage, value := n.text ++ [Byte.percent], number := n.value,
               isInteger := n.isInteger }
  | dimension {n : Numeral} {unit : Bytes} (hn : n.Formed) (hne : unit ≠ []) (h0 : 0 ∉ unit) :
      Formed { kind := .dimension, value := n.text ++ unit, number := n.value, unit,
               isInteger := n.isInteger }
  | whitespace {value : Bytes} (hne : value ≠ []) (hb : ∀ b ∈ value, isBlank b = true) :
      Formed (plain .whitespace value)
  | comment {value : Bytes} (h : ¬ ascii "*/" <:+: value) : Formed (plain .comment value)
  | punctuation {b : UInt8} {kind : Kind} (hp : punctuation? b = some kind) :
      Formed (plain kind [b])
  | operator {b : UInt8} {kind : Kind} (ho : matchOperator? b [Byte.equals] = some kind) :
      Formed (plain kind [b, Byte.equals])
  | cdc : Formed (plain .cdc (ascii "-->"))
  | cdo : Formed (plain .cdo (ascii "<!--"))
  | delim (b : UInt8) : Formed (plain .delim [b])

def hasExponent (t : Token) : Bool :=
  t.numberText.any fun b => b = Byte.lowerE || b = Byte.upperE

/-- The raw text of the token is read as the token whatever follows it. -/
def Closed (t : Token) : Prop :=
  ∀ rest, Reads (t.value ++ rest) t rest

/-- The text `rest` does not run on into the printed form of the token. -/
def Clear (t : Token) (rest : Bytes) : Prop :=
  match t.kind with
  | .ident =>
      continuesName rest = false ∧ rest.head? ≠ some Byte.leftParen ∧
        (t.value = ascii "--" → rest.head? ≠ some Byte.greater)
  | .function => callsUrl t.value rest = false
  | .atKeyword | .hash => continuesName rest = false
  | .badString => rest = [] ∨ rest.head? = some Byte.newline
  | .badUrl => rest = [] ∨ t.Closed
  | .number =>
      startsIdentifier rest = false ∧ rest.head? ≠ some Byte.percent ∧
        beginsWith isDigit rest = false ∧
        (t.isInteger = true → (Numeral.scanFraction rest).1 = [])
  | .dimension =>
      continuesName rest = false ∧
        (t.unit.length = 1 → t.hasExponent = false →
          (Numeral.scanExponent (t.unit ++ rest)).1 = none)
  | .whitespace => beginsWith isBlank rest = false
  | .delim => Stray (t.value.headD 0) rest
  | _ => True

/-- The kinds of tokens that nothing can run on into. -/
def standsAlone (kind : Kind) : Bool :=
  match kind with
  | .ident | .function | .atKeyword | .hash | .badString | .badUrl | .number | .dimension
  | .whitespace | .delim => false
  | _ => true

theorem clear_of_standsAlone {t : Token} (h : standsAlone t.kind = true) (rest : Bytes) :
    Clear t rest := by
  unfold Clear
  cases hk : t.kind with
  | ident | function | atKeyword | hash | badString | badUrl | number | dimension
  | whitespace | delim =>
      rw [hk] at h
      cases h
  | _ => trivial

theorem standsAlone_of_punctuation : ∀ b : UInt8, ∀ kind ∈ punctuation? b,
    standsAlone kind = true :=
  forall_punctuation (by decide)

theorem standsAlone_of_operator : ∀ b : UInt8, ∀ kind ∈ matchOperator? b [Byte.equals],
    standsAlone kind = true :=
  forall_operator (by decide)

theorem Formed.value_of_delim {t : Token} (h : Formed t) (ht : t.kind = .delim) :
    t.value = [t.value.headD 0] := by
  cases h with
  | @name kind _ hk =>
      obtain rfl : kind = .delim := ht
      cases hk
  | @punctuation b kind hp =>
      obtain rfl : kind = .delim := ht
      cases standsAlone_of_punctuation b _ hp
  | @operator b kind ho =>
      obtain rfl : kind = .delim := ht
      cases standsAlone_of_operator b _ ho
  | delim b => rfl
  | _ => cases ht

/-!
## Numbers and their units

An exponent needs a digit after its letter, or after a sign. A printed unit never has one
there, so it is not taken for the exponent of its number.
-/

theorem not_digit_of_startsIdentifier {bs : Bytes} (h : startsIdentifier bs = true) :
    beginsWith isDigit bs = false := by
  cases bs with
  | nil => rfl
  | cons b bs =>
      have hfront := front_of_startsIdentifier h
      rw [beginsWith_cons]
      grind [isNameStart, isDigit, isUpper, isLower]

theorem scanFraction_of_startsIdentifier {bs : Bytes} (h : startsIdentifier bs = true) :
    (Numeral.scanFraction bs).1 = [] := by
  cases bs with
  | nil => rfl
  | cons b bs =>
      have hdot : b ≠ Byte.dot := by
        intro hb
        rw [hb] at h
        rcases front_of_startsIdentifier h with h | h | h <;> cases h
      simp [Numeral.scanFraction, hdot]

theorem scanExponent_of_ne {b : UInt8} (hl : b ≠ Byte.lowerE) (hu : b ≠ Byte.upperE)
    (bs : Bytes) : (Numeral.scanExponent (b :: bs)).1 = none := by
  simp [Numeral.scanExponent, hl, hu]

theorem scanExponent_of_not_startsIdentifier {bs : Bytes} (h : startsIdentifier bs = false) :
    (Numeral.scanExponent bs).1 = none := by
  cases bs with
  | nil => rfl
  | cons b bs =>
      have hstart : isNameStart b = false := by
        simp only [startsIdentifier, Bool.or_eq_false_iff] at h
        exact h.1.1
      apply scanExponent_of_ne
      · intro hb
        rw [hb] at hstart
        cases hstart
      · intro hb
        rw [hb] at hstart
        cases hstart

theorem scanExponent_eq_none {b : UInt8} {bs : Bytes} (hd : beginsWith isDigit bs = false)
    (hs : ∀ c cs, bs = c :: cs → c = Byte.plus ∨ c = Byte.hyphen → beginsWith isDigit cs = false) :
    (Numeral.scanExponent (b :: bs)).1 = none := by
  have hdigits : (Numeral.scanDigits (Numeral.scanSign bs).2).1 = [] := by
    apply takeWhile_eq_nil_of_not_beginsWith
    cases bs with
    | nil => rfl
    | cons c cs =>
        rw [Numeral.scanSign]
        split
        · rename_i hc
          exact hs c cs rfl (by simpa using hc)
        · exact hd
  simp [Numeral.scanExponent, hdigits]

theorem nameByte_cases (b : UInt8) :
    isNameByte b = true ∧ Escape.nameByte b = [b] ∨
      isNameByte b = false ∧ ∃ w, Escape.nameByte b = Byte.backslash :: w := by
  unfold Escape.nameByte
  split
  · rename_i h
    exact Or.inl ⟨h, rfl⟩
  · rename_i h
    refine Or.inr ⟨by simpa using h, ?_⟩
    split
    · exact ⟨_, rfl⟩
    · exact ⟨_, rfl⟩

theorem scanExponent_backslash (bs : Bytes) :
    (Numeral.scanExponent (Byte.backslash :: bs)).1 = none :=
  scanExponent_of_ne (by decide) (by decide) bs

theorem not_digit_name {u rest : Bytes} (hu : beginsWith isDigit u = false)
    (hr : continuesName rest = false) : beginsWith isDigit (Escape.name u ++ rest) = false := by
  cases u with
  | nil =>
      cases rest with
      | nil => rfl
      | cons c cs =>
          simp only [continuesName, beginsWith_cons, isNameByte, Bool.or_eq_false_iff] at hr
          exact hr.1.1.2
  | cons d u =>
      have hcons : Escape.name (d :: u) = Escape.nameByte d ++ Escape.name u := rfl
      rw [hcons]
      rcases nameByte_cases d with ⟨-, hd⟩ | ⟨-, w, hd⟩
      · rw [hd]
        exact hu
      · rw [hd]
        rfl

theorem scanExponent_unit {u rest : Bytes} (hne : u ≠ []) (h0 : 0 ∉ u)
    (hr : continuesName rest = false)
    (hu : u.length = 1 → (Numeral.scanExponent (u ++ rest)).1 = none) :
    (Numeral.scanExponent (Escape.unit u ++ rest)).1 = none := by
  match u with
  | [] => exact absurd rfl hne
  | [b] =>
      have hunit : Escape.unit [b] = Escape.identifier [b] := rfl
      rw [hunit, Escape.identifier]
      split
      · exact scanExponent_backslash _
      split
      · exact scanExponent_backslash _
      · rcases nameByte_cases b with ⟨-, hb⟩ | ⟨-, w, hb⟩
        · rw [hb]
          exact hu rfl
        · rw [hb]
          exact scanExponent_backslash _
  | b :: c :: u =>
      rw [Escape.unit]
      split
      · exact scanExponent_backslash _
      rename_i hlooks
      rw [Escape.identifier]
      split
      · exact scanExponent_backslash _
      split
      · rename_i h
        simp only [Bool.and_eq_true, decide_eq_true_eq] at h
        rw [h.1]
        exact scanExponent_of_ne (by decide) (by decide) _
      rename_i hdigit hhyphen
      rw [List.append_assoc]
      rcases nameByte_cases b with ⟨-, hb⟩ | ⟨-, w, hb⟩
      · rw [hb]
        by_cases hletter : b = Byte.lowerE ∨ b = Byte.upperE
        · simp only [Escape.looksLikeExponent, Bool.and_eq_true, Bool.or_eq_true,
            decide_eq_true_eq, not_and, not_or, Bool.not_eq_true] at hlooks
          obtain ⟨hc, hsign⟩ := hlooks hletter
          apply scanExponent_eq_none
          · exact not_digit_name hc hr
          · intro d ds hds hd
            have hcons : Escape.name (c :: u) = Escape.nameByte c ++ Escape.name u := rfl
            rw [hcons, List.append_assoc] at hds
            rcases nameByte_cases c with ⟨-, hcb⟩ | ⟨-, w, hcb⟩
            · rw [hcb] at hds
              obtain ⟨rfl, rfl⟩ := List.cons.inj hds
              exact not_digit_name (hsign hd) hr
            · rw [hcb] at hds
              obtain ⟨rfl, rfl⟩ := List.cons.inj hds
              rcases hd with hd | hd <;> cases hd
        · rw [not_or] at hletter
          exact scanExponent_of_ne hletter.1 hletter.2 _
      · rw [hb]
        exact scanExponent_backslash _

theorem stops_unit {n : Numeral} {u rest : Bytes} (hne : u ≠ []) (h0 : 0 ∉ u)
    (hs : startsIdentifier (Escape.unit u ++ rest) = true) (hr : continuesName rest = false)
    (hu : u.length = 1 → n.exponent = none → (Numeral.scanExponent (u ++ rest)).1 = none) :
    n.Stops (Escape.unit u ++ rest) where
  digit := not_digit_of_startsIdentifier hs
  fraction _ _ := scanFraction_of_startsIdentifier hs
  exponent he := scanExponent_unit hne h0 hr fun hlen => hu hlen he

theorem startsIdentifier_unit {u : Bytes} (hne : u ≠ []) (h0 : 0 ∉ u) (rest : Bytes) :
    startsIdentifier (Escape.unit u ++ rest) = true := by
  unfold Escape.unit
  split
  · exact absurd rfl hne
  · split
    · rw [List.append_assoc]
      exact startsIdentifier_of_starts (Escape.starts_hex _ _)
    · exact startsIdentifier_identifier hne h0 rest

/-!
## Reading back
-/

theorem reads_ident {value rest : Bytes} (hne : value ≠ []) (h0 : 0 ∉ value)
    (hc : Clear (plain .ident value) rest) :
    Reads (Escape.identifier value ++ rest) (plain .ident value) rest := by
  obtain ⟨hname, hparen, harrow⟩ := hc
  have hscan := (spells_identifier h0).scanName_append hname
  exact Reads.ident (startsIdentifier_identifier hne h0 rest)
    (not_arrow_of_scanName hscan harrow) hscan hparen

theorem reads_function {value rest : Bytes} (hne : value ≠ []) (h0 : 0 ∉ value)
    (hc : callsUrl value rest = false) :
    Reads (Escape.identifier value ++ Byte.leftParen :: rest) (plain .function value) rest := by
  have hparen : continuesName (Byte.leftParen :: rest) = false :=
    continuesName_cons rfl (by decide) rest
  exact Reads.function (startsIdentifier_identifier hne h0 _)
    ((spells_identifier h0).scanName_append hparen) hc

theorem continuesName_name {value rest : Bytes} (hne : value ≠ []) (h0 : 0 ∉ value) :
    continuesName (Escape.name value ++ rest) = true := by
  cases value with
  | nil => exact absurd rfl hne
  | cons b value =>
      have hb : b ≠ 0 := fun h => h0 (by simp [h])
      have hcons : Escape.name (b :: value) = Escape.nameByte b ++ Escape.name value := rfl
      rw [hcons, List.append_assoc]
      by_cases hname : isNameByte b = true
      · simp [Escape.nameByte, hname, continuesName]
      · have := starts_nameByte hb (by simpa using hname) (Escape.name value ++ rest)
        simp [continuesName, this]

theorem not_beginsWith_url (value rest : Bytes) :
    beginsWith (fun b => isBlank b || isQuote b)
      (Escape.url value ++ Byte.rightParen :: rest) = false := by
  cases value with
  | nil => rfl
  | cons b value =>
      have hcons : Escape.url (b :: value) = Escape.urlByte b ++ Escape.url value := rfl
      rw [hcons, List.append_assoc, Escape.urlByte]
      split
      · rfl
      rename_i hblank
      split
      · rfl
      · rename_i hspecial
        simp only [Bool.or_eq_true, decide_eq_true_eq, not_or] at hblank hspecial
        simp [hblank.1, isQuote, hspecial]

theorem reads_url {value : Bytes} (h0 : 0 ∉ value) (rest : Bytes) :
    Reads (ascii "url(" ++ Escape.url value ++ [Byte.rightParen] ++ rest)
      (plain .url value) rest := by
  have hinside := not_beginsWith_url value rest
  have haddress := scanAddress_url h0 rest
  revert hinside haddress
  have htext : ascii "url(" ++ Escape.url value ++ [Byte.rightParen] ++ rest =
      ascii "url" ++ Byte.leftParen :: (Escape.url value ++ Byte.rightParen :: rest) := by
    simp [ascii]
  rw [htext]
  generalize Escape.url value ++ Byte.rightParen :: rest = inside
  intro hinside haddress
  have hskip : skipBlanks inside = inside := by
    apply dropWhile_eq_self_of_not_beginsWith
    cases inside with
    | nil => rfl
    | cons b inside =>
        rw [beginsWith_cons, Bool.or_eq_false_iff] at hinside
        exact hinside.1
  have hquoted : quotedAhead inside = false := by
    rw [quotedAhead, hskip]
    cases inside with
    | nil => rfl
    | cons b inside =>
        rw [beginsWith_cons, Bool.or_eq_false_iff] at hinside
        exact hinside.2
  have hspell : Spells (ascii "url") (ascii "url") :=
    ((spells_nameByte (b := 0x75) rfl).append (spells_nameByte (b := 0x72) rfl)).append
      (spells_nameByte (b := 0x6C) rfl)
  have hparen : continuesName (Byte.leftParen :: inside) = false :=
    continuesName_cons rfl (by decide) inside
  refine Reads.url rfl (hspell.scanName_append hparen) ?_ (by rw [hskip, haddress])
  rw [callsUrl, hquoted]
  rfl

theorem reads_number {n : Numeral} {rest : Bytes} (hn : n.Formed)
    (hs : startsIdentifier rest = false) (hp : rest.head? ≠ some Byte.percent)
    (hd : beginsWith isDigit rest = false)
    (hf : n.isInteger = true → (Numeral.scanFraction rest).1 = []) :
    Reads (n.text ++ rest)
      { kind := .number, value := n.text, number := n.value, isInteger := n.isInteger } rest := by
  have hstops : n.Stops rest := by
    refine ⟨hd, ?_, fun _ => scanExponent_of_not_startsIdentifier hs⟩
    intro hfraction hexponent
    exact hf (by simp [Numeral.isInteger, hfraction, hexponent])
  exact Reads.number (Numeral.scan?_text_append hn hstops) hs hp

theorem reads_percentage {n : Numeral} (hn : n.Formed) (rest : Bytes) :
    Reads (n.text ++ [Byte.percent] ++ rest)
      { kind := .percentage, value := n.text ++ [Byte.percent], number := n.value,
        isInteger := n.isInteger } rest := by
  have hstops : n.Stops (Byte.percent :: rest) :=
    ⟨rfl, fun _ _ => rfl, fun _ => scanExponent_of_ne (by decide) (by decide) rest⟩
  rw [List.append_assoc]
  exact Reads.percentage (Numeral.scan?_text_append hn hstops)

theorem numberText_dimension (text unit : Bytes) (number : Binary64) (isInteger : Bool) :
    numberText { kind := .dimension, value := text ++ unit, number, unit, isInteger } = text := by
  have hlength : ¬ (text ++ unit).length < unit.length := by
    rw [List.length_append]
    omega
  rw [numberText, if_neg hlength]
  simp

theorem hasExponent_dimension {n : Numeral} {unit : Bytes} (hn : n.Formed) :
    hasExponent { kind := .dimension, value := n.text ++ unit, number := n.value, unit,
                  isInteger := n.isInteger } = n.exponent.isSome := by
  rw [hasExponent, numberText_dimension, Bool.eq_iff_iff, hn.isSome_exponent_iff,
    List.any_eq_true]
  simp only [Bool.or_eq_true, decide_eq_true_eq]

theorem reads_dimension {n : Numeral} {unit rest : Bytes} (hn : n.Formed) (hne : unit ≠ [])
    (h0 : 0 ∉ unit) (hr : continuesName rest = false)
    (hu : unit.length = 1 → n.exponent = none →
      (Numeral.scanExponent (unit ++ rest)).1 = none) :
    Reads (n.text ++ (Escape.unit unit ++ rest))
      { kind := .dimension, value := n.text ++ unit, number := n.value, unit,
        isInteger := n.isInteger } rest := by
  have hstart := startsIdentifier_unit hne h0 rest
  exact Reads.dimension (Numeral.scan?_text_append hn (stops_unit hne h0 hstart hr hu)) hstart
    ((spells_unit h0).scanName_append hr)

theorem scanComment_closed {value : Bytes} (h : ¬ ascii "*/" <:+: value) (rest : Bytes) :
    scanComment (value ++ (ascii "*/" ++ rest)) = (value, rest) := by
  induction value with
  | nil => exact scanComment_close rest
  | cons b value ih =>
      have hvalue : ¬ ascii "*/" <:+: value := fun hi => h (List.infix_cons hi)
      have ih := ih hvalue
      cases hcs : value ++ (ascii "*/" ++ rest) with
      | nil => simp [ascii] at hcs
      | cons c cs =>
          have hopen : ¬ (b = Byte.asterisk ∧ c = Byte.slash) := by
            rintro ⟨rfl, rfl⟩
            cases value with
            | nil => cases hcs
            | cons d value =>
                obtain ⟨rfl, -⟩ := List.cons.inj hcs
                exact h ⟨[], value, rfl⟩
          rw [hcs] at ih
          rw [List.cons_append, hcs, scanComment_byte hopen, ih]

theorem toCss_punctuation : ∀ b : UInt8, ∀ kind ∈ punctuation? b,
    (plain kind [b]).toCss = [b] :=
  forall_punctuation (by decide)

theorem toCss_operator : ∀ b : UInt8, ∀ kind ∈ matchOperator? b [Byte.equals],
    (plain kind [b, Byte.equals]).toCss = [b, Byte.equals] :=
  forall_operator (by decide)

theorem Formed.reads_toCss {t : Token} {rest : Bytes} (ht : Formed t) (hc : Clear t rest) :
    Reads (t.toCss ++ rest) t rest := by
  cases ht with
  | @name kind value hk hne h0 =>
      simp only [isNamed, Bool.or_eq_true, decide_eq_true_eq] at hk
      rcases hk with ((rfl | rfl) | rfl) | rfl
      · exact reads_ident hne h0 hc
      · simpa [toCss, plain] using reads_function hne h0 hc
      · exact Reads.atKeyword (startsIdentifier_identifier hne h0 rest)
          ((spells_identifier h0).scanName_append hc)
      · exact Reads.hash (continuesName_name hne h0) ((spells_name h0).scanName_append hc)
  | string value =>
      have hquote : isQuote Byte.doubleQuote = true := rfl
      have hreads := Reads.string hquote (scanString_closed value rest)
      simpa [toCss, plain] using hreads
  | badString value =>
      have hr : rest = [] ∨ ∃ bs, rest = Byte.newline :: bs :=
        Or.imp id List.head?_eq_some_iff.mp hc
      have hquote : isQuote Byte.doubleQuote = true := rfl
      exact Reads.badString hquote (scanString_broken value hr)
  | url h0 => exact reads_url h0 rest
  | badUrl h =>
      rcases hc with rfl | hclosed
      · rw [List.append_nil]
        exact h
      · exact hclosed rest
  | number hn =>
      obtain ⟨hs, hp, hd, hf⟩ := hc
      exact reads_number hn hs hp hd hf
  | percentage hn => exact reads_percentage hn rest
  | @dimension n unit hn hne h0 =>
      obtain ⟨hr, hu⟩ := hc
      rw [hasExponent_dimension hn] at hu
      have := reads_dimension hn hne h0 hr fun hlen he => hu hlen (by simp [he])
      rw [toCss, numberText_dimension, List.append_assoc]
      exact this
  | @whitespace value hne hb =>
      have hstop : beginsWith isBlank rest = false := hc
      cases value with
      | nil => exact absurd rfl hne
      | cons b value =>
          have hvalue : ∀ c ∈ value, isBlank c = true := fun c hcv => hb c (by simp [hcv])
          have hreads : Reads (b :: (value ++ rest)) _ _ := Reads.whitespace (hb b (by simp))
          rw [takeWhile_append_stop hvalue hstop, skipBlanks,
            dropWhile_append_stop hvalue hstop] at hreads
          exact hreads
  | @comment value h =>
      have := Reads.comment (scanComment_closed h rest)
      simpa [toCss, plain, ascii] using this
  | punctuation hp =>
      rw [toCss_punctuation _ _ hp]
      exact Reads.punctuation hp
  | operator ho =>
      rw [toCss_operator _ _ ho]
      exact Reads.operator ho
  | cdc => exact Reads.cdc
  | cdo => exact Reads.cdo
  | delim b => exact Reads.delim hc

end Token
end CssText
