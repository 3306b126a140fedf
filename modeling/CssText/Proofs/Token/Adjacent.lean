import CssText.Proofs.Token.Source
import CssText.Proofs.Token.Stream

/-!
# Neighbouring tokens

A scanner looks at most a few bytes past its token, and what it can see there is settled by
the tokens that follow (`Fronts`). So a token that is clear of one text is clear of every
text with the same next tokens (`Clear.transfer`), however these are written.
-/

namespace CssText

namespace Token

/-- The kinds whose text begins as an identifier does. -/
def beginsName (kind : Kind) : Bool :=
  kind = .ident || kind = .function || kind = .url || kind = .badUrl || kind = .cdc

/-- What the first token `t` of a text tells about the front of the text. -/
structure Fronts (t : Token) (text : Bytes) : Prop where
  identifier : startsIdentifier text = beginsName t.kind
  numeral : (Numeral.scan? text).isSome = t.kind.isNumeric
  /-- The first byte is the printed one, up to the choice of a quotation mark. -/
  head : beginsName t.kind = false →
    ∀ p : UInt8 → Bool, p Byte.singleQuote = p Byte.doubleQuote →
      beginsWith p text = beginsWith p t.toCss
  sign : t.kind.isNumeric = true → text.head? = some Byte.plus → text.take 2 = t.value.take 2

theorem fronts_of_byte {t : Token} {b : UInt8} (bs : Bytes) (hfront : isFront b = false)
    (hopens : Numeral.opens b = false) (hname : beginsName t.kind = false)
    (hnumeric : t.kind.isNumeric = false)
    (hhead : ∀ p : UInt8 → Bool, p Byte.singleQuote = p Byte.doubleQuote →
      p b = beginsWith p t.toCss) : Fronts t (b :: bs) where
  identifier := by
    rw [hname, ← Bool.not_eq_true]
    intro hs
    simp only [isFront, Bool.or_eq_false_iff, decide_eq_false_iff_not] at hfront
    rcases front_of_startsIdentifier hs with hb | hb | hb
    · rw [hfront.1.1] at hb
      cases hb
    · exact hfront.1.2 hb
    · exact hfront.2 hb
  numeral := by
    rw [Numeral.scan?_eq_none_of_not_opens hopens, hnumeric]
    rfl
  head _ := hhead
  sign h := by
    rw [hnumeric] at h
    cases h

theorem fronts_of_name {t : Token} {text : Bytes} (hs : startsIdentifier text = true)
    (hname : beginsName t.kind = true) (hnumeric : t.kind.isNumeric = false) :
    Fronts t text where
  identifier := hs.trans hname.symm
  numeral := by
    rw [scan?_eq_none_of_startsIdentifier hs, hnumeric]
    rfl
  head h := by
    rw [hname] at h
    cases h
  sign h := by
    rw [hnumeric] at h
    cases h

theorem fronts_of_numeral {t : Token} {text rest : Bytes} {n : Numeral}
    (hn : Numeral.scan? text = some (n, rest)) (hnumeric : t.kind.isNumeric = true)
    (hvalue : ∃ v, t.value = n.text ++ v) (hcss : ∃ v, t.toCss = n.text ++ v) :
    Fronts t text := by
  obtain ⟨hformed, rfl, -⟩ := Numeral.scan?_eq_some_iff.mp hn
  obtain ⟨v, hv⟩ := hvalue
  obtain ⟨u, hu⟩ := hcss
  have hname : beginsName t.kind = false := by
    simp only [Kind.isNumeric, Bool.or_eq_true, decide_eq_true_eq] at hnumeric
    rcases hnumeric with (hk | hk) | hk <;> rw [hk] <;> rfl
  have hne := hformed.text_ne_nil
  refine ⟨?_, by rw [hn, hnumeric]; rfl, ?_, ?_⟩
  · rw [hname, ← Bool.not_eq_true]
    intro hs
    rw [scan?_eq_none_of_startsIdentifier hs] at hn
    cases hn
  · intro _ p _
    rw [hu, beginsWith_append_of_ne_nil p _ hne, beginsWith_append_of_ne_nil p _ hne]
  · intro _ hplus
    have hlength := hformed.two_le_length (by
      rw [← hplus, List.head?_append, Option.or_of_isSome (by simpa using hne)])
    rw [hv, List.take_append_of_le_length hlength, List.take_append_of_le_length hlength]

theorem class_of_punctuation : ∀ b : UInt8, ∀ kind ∈ punctuation? b,
    isFront b = false ∧ Numeral.opens b = false ∧ beginsName kind = false ∧
      kind.isNumeric = false :=
  forall_punctuation (by decide)

theorem class_of_operator : ∀ b : UInt8, ∀ kind ∈ matchOperator? b [Byte.equals],
    isFront b = false ∧ Numeral.opens b = false ∧ beginsName kind = false ∧
      kind.isNumeric = false :=
  forall_operator (by decide)

theorem class_of_isBlank (b : UInt8) (h : isBlank b = true) :
    isFront b = false ∧ Numeral.opens b = false := by
  have hword : beginsWord b = false := by
    rw [← Bool.not_eq_true]
    intro hb
    have hmark := not_isMark_of_beginsWord b hb
    simp only [isMark, h, Bool.true_or] at hmark
    cases hmark
  exact Bool.or_eq_false_iff.mp hword

theorem Reads.fronts {text rest : Bytes} {t : Token} (h : Reads text t rest) :
    Fronts t text := by
  cases h with
  | @whitespace b bs hb =>
      obtain ⟨hfront, hopens⟩ := class_of_isBlank b hb
      exact fronts_of_byte bs hfront hopens rfl rfl fun p _ => rfl
  | comment hc => exact fronts_of_byte _ rfl rfl rfl rfl fun p _ => rfl
  | @string quote bs value rest hq hs =>
      simp only [isQuote, Bool.or_eq_true, decide_eq_true_eq] at hq
      rcases hq with rfl | rfl
      · exact fronts_of_byte _ rfl rfl rfl rfl fun p _ => rfl
      · exact fronts_of_byte _ rfl rfl rfl rfl fun p hp => hp
  | @badString quote bs value rest hq hs =>
      simp only [isQuote, Bool.or_eq_true, decide_eq_true_eq] at hq
      rcases hq with rfl | rfl
      · exact fronts_of_byte _ rfl rfl rfl rfl fun p _ => rfl
      · exact fronts_of_byte _ rfl rfl rfl rfl fun p hp => hp
  | hash hc hn => exact fronts_of_byte _ rfl rfl rfl rfl fun p _ => rfl
  | atKeyword hs hn => exact fronts_of_byte _ rfl rfl rfl rfl fun p _ => rfl
  | @punctuation b bs kind hp =>
      obtain ⟨hfront, hopens, hname, hnumeric⟩ := class_of_punctuation b kind hp
      refine fronts_of_byte _ hfront hopens hname hnumeric fun p _ => ?_
      rw [toCss_punctuation b kind hp]
      rfl
  | @operator b bs kind ho =>
      obtain ⟨hfront, hopens, hname, hnumeric⟩ := class_of_operator b kind ho
      refine fronts_of_byte _ hfront hopens hname hnumeric fun p _ => ?_
      rw [toCss_operator b kind ho]
      rfl
  | number hn hs hp =>
      exact fronts_of_numeral hn rfl ⟨[], by simp⟩ ⟨[], by simp [toCss]⟩
  | percentage hn => exact fronts_of_numeral hn rfl ⟨_, rfl⟩ ⟨_, rfl⟩
  | @dimension bs after unit rest n hn hs hu =>
      refine fronts_of_numeral hn rfl ⟨_, rfl⟩ ⟨Escape.unit unit, ?_⟩
      rw [toCss, numberText_dimension]
  | cdc => exact fronts_of_name (by simp [startsIdentifier]) rfl rfl
  | cdo => exact fronts_of_byte _ rfl rfl rfl rfl fun p _ => rfl
  | ident hs hc hn hp => exact fronts_of_name hs rfl rfl
  | function hs hn hu => exact fronts_of_name hs rfl rfl
  | url hs hn hu ha => exact fronts_of_name hs rfl rfl
  | badUrl hs hn hu ha => exact fronts_of_name hs rfl rfl
  | delim hb =>
      refine ⟨hb.identifier, ?_, fun _ p _ => rfl, fun h => by cases h⟩
      rw [hb.numeral]
      rfl

/-!
## Forms that a token settles

A token that begins with two hyphens is a name with two hyphens in front, unless it closes
markup.
-/

theorem Reads.exists_blank {text rest : Bytes} {t : Token} (h : Reads text t rest)
    (ht : t.kind = .whitespace) :
    ∃ b bs, text = b :: bs ∧ isBlank b = true ∧ rest = skipBlanks bs := by
  cases h with
  | whitespace hb => exact ⟨_, _, rfl, hb, rfl⟩
  | @punctuation b _ kind hp =>
      obtain rfl : kind = .whitespace := ht
      cases standsAlone_of_punctuation b _ hp
  | @operator b _ kind ho =>
      obtain rfl : kind = .whitespace := ht
      cases standsAlone_of_operator b _ ho
  | _ => cases ht

theorem Reads.text_delim {text rest : Bytes} {b : UInt8}
    (h : Reads text (plain .delim [b]) rest) : text = b :: rest := by
  generalize ht : plain .delim [b] = t at h
  cases h with
  | @punctuation c _ kind hp =>
      obtain rfl : .delim = kind := congrArg Token.kind ht
      cases standsAlone_of_punctuation c _ hp
  | @operator c _ kind ho =>
      obtain rfl : .delim = kind := congrArg Token.kind ht
      cases standsAlone_of_operator c _ ho
  | delim hb =>
      obtain ⟨rfl, -⟩ := List.cons.inj (congrArg Token.value ht)
      rfl
  | _ => cases congrArg Token.kind ht

theorem Reads.text_cdc {text rest value : Bytes} (h : Reads text (plain .cdc value) rest) :
    text = ascii "-->" ++ rest := by
  generalize ht : plain .cdc value = t at h
  cases h with
  | @punctuation c _ kind hp =>
      obtain rfl : .cdc = kind := congrArg Token.kind ht
      cases (class_of_punctuation c _ hp).2.2.1
  | @operator c _ kind ho =>
      obtain rfl : .cdc = kind := congrArg Token.kind ht
      cases (class_of_operator c _ ho).2.2.1
  | cdc => rfl
  | _ => cases congrArg Token.kind ht

theorem scanName_hyphens (z : Bytes) :
    scanName (ascii "--" ++ z) = (ascii "--" ++ (scanName z).1, (scanName z).2) := by
  show scanName (Byte.hyphen :: Byte.hyphen :: z) = _
  rw [scanName_nameByte rfl, scanName_nameByte rfl]
  rfl

theorem not_callsUrl_hyphens (name after : Bytes) :
    callsUrl (ascii "--" ++ name) after = false :=
  rfl

theorem Reads.of_hyphens {z rest : Bytes} {v : Token} (h : Reads (ascii "--" ++ z) v rest) :
    v = plain .cdc (ascii "-->") ∨
      (v.kind = .ident ∨ v.kind = .function) ∧ ascii "--" <+: v.value := by
  have hname : beginsName v.kind = true := by
    rw [← h.fronts.identifier]
    rfl
  have hscan := scanName_hyphens z
  generalize ascii "--" ++ z = text at h hscan
  cases h with
  | @punctuation c _ kind hp =>
      rw [plain, (class_of_punctuation c kind hp).2.2.1] at hname
      cases hname
  | @operator c _ kind ho =>
      rw [plain, (class_of_operator c kind ho).2.2.1] at hname
      cases hname
  | cdc => exact Or.inl rfl
  | ident hs hc hn hp =>
      rw [hscan] at hn
      obtain ⟨rfl, -⟩ := Prod.mk.inj hn
      exact Or.inr ⟨Or.inl rfl, List.prefix_append _ _⟩
  | function hs hn hu =>
      rw [hscan] at hn
      obtain ⟨rfl, -⟩ := Prod.mk.inj hn
      exact Or.inr ⟨Or.inr rfl, List.prefix_append _ _⟩
  | url hs hn hu ha =>
      rw [hscan] at hn
      obtain ⟨rfl, -⟩ := Prod.mk.inj hn
      rw [not_callsUrl_hyphens] at hu
      cases hu
  | badUrl hs hn hu ha =>
      rw [hscan] at hn
      obtain ⟨rfl, -⟩ := Prod.mk.inj hn
      rw [not_callsUrl_hyphens] at hu
      cases hu
  | _ => cases hname

/-!
## The same next token

What begins a name begins nothing else, and in front of an identifier both a backslash and a
hyphen begin one. The unit that a following sign could carry on is the letter of an exponent.
-/

section

variable {u : Token} {x y : Bytes}

theorem Fronts.beginsWith_eq (hx : Fronts u x) (hy : Fronts u y) {p : UInt8 → Bool}
    (hquote : p Byte.singleQuote = p Byte.doubleQuote)
    (hfront : ∀ b, isFront b = true → p b = false) : beginsWith p x = beginsWith p y := by
  have hnone : ∀ z, startsIdentifier z = true → beginsWith p z = false := by
    intro z hz
    cases z with
    | nil => cases hz
    | cons b bs =>
        apply hfront
        simpa [isFront, Bool.or_assoc, or_assoc] using front_of_startsIdentifier hz
  cases hname : beginsName u.kind with
  | false => rw [hx.head hname p hquote, hy.head hname p hquote]
  | true =>
      rw [hnone x (hx.identifier.trans hname), hnone y (hy.identifier.trans hname)]

theorem Fronts.startsIdentifier_eq (hx : Fronts u x) (hy : Fronts u y) :
    startsIdentifier x = startsIdentifier y :=
  hx.identifier.trans hy.identifier.symm

theorem class_of_isFront : ∀ b : UInt8, isFront b = true →
    isDigit b = false ∧ isBlank b = false ∧ isQuote b = false ∧ b ≠ Byte.dot ∧
      b ≠ Byte.equals ∧ b ≠ Byte.newline ∧ b ≠ 0 :=
  forall_byte (by decide +kernel)

theorem Fronts.isDigit_eq (hx : Fronts u x) (hy : Fronts u y) :
    beginsWith isDigit x = beginsWith isDigit y :=
  hx.beginsWith_eq hy rfl fun b hb => (class_of_isFront b hb).1

theorem Fronts.isBlank_eq (hx : Fronts u x) (hy : Fronts u y) :
    beginsWith isBlank x = beginsWith isBlank y :=
  hx.beginsWith_eq hy rfl fun b hb => (class_of_isFront b hb).2.1

theorem Fronts.isQuote_eq (hx : Fronts u x) (hy : Fronts u y) :
    beginsWith isQuote x = beginsWith isQuote y :=
  hx.beginsWith_eq hy rfl fun b hb => (class_of_isFront b hb).2.2.1

theorem Fronts.head?_eq (hx : Fronts u x) (hy : Fronts u y) {c : UInt8}
    (hc : isFront c = false) (hquote : isQuote c = false) :
    x.head? = some c ↔ y.head? = some c := by
  have hsome : ∀ z : Bytes, z.head? = some c ↔ beginsWith (fun b => b = c) z = true := by
    intro z
    cases z with
    | nil => simp
    | cons b bs => simp
  simp only [isQuote, Bool.or_eq_false_iff, decide_eq_false_iff_not] at hquote
  rw [hsome, hsome]
  rw [hx.beginsWith_eq hy]
  · simp [Ne.symm hquote.1, Ne.symm hquote.2]
  · intro b hb
    rw [decide_eq_false_iff_not]
    rintro rfl
    rw [hc] at hb
    cases hb

theorem Fronts.scanFraction_eq (hx : Fronts u x) (hy : Fronts u y) :
    (Numeral.scanFraction x).1 = [] ↔ (Numeral.scanFraction y).1 = [] := by
  have hdot : beginsWith (fun b => b = Byte.dot) x = beginsWith (fun b => b = Byte.dot) y :=
    hx.beginsWith_eq hy rfl fun b hb => decide_eq_false (class_of_isFront b hb).2.2.2.1
  rw [Numeral.scanFraction_eq_nil, Numeral.scanFraction_eq_nil, hdot, hx.numeral, hy.numeral]

theorem Fronts.continuesName (hx : Fronts u x) (hy : Fronts u y)
    (h : continuesName x = false) : continuesName y = false := by
  cases hs : startsIdentifier y with
  | true =>
      rw [← hx.startsIdentifier_eq hy] at hs
      rw [continuesName_of_startsIdentifier hs] at h
      cases h
  | false =>
      have hstarts : Escape.starts y = false := by
        rw [← Bool.not_eq_true]
        intro hstarts
        rw [startsIdentifier_of_starts hstarts] at hs
        cases hs
      have hname : beginsName u.kind = false := hy.identifier.symm.trans hs
      rw [Token.continuesName, Bool.or_eq_false_iff] at h ⊢
      rw [hy.head hname isNameByte rfl, ← hx.head hname isNameByte rfl]
      exact ⟨h.1, hstarts⟩

theorem startsIdentifier_backslash_cons (x : Bytes) :
    startsIdentifier (Byte.backslash :: x) =
      beginsWith (fun c => c ≠ Byte.newline && c ≠ 0) x := by
  have hstart : isNameStart Byte.backslash = false := rfl
  have hhyphen : Byte.backslash ≠ Byte.hyphen := by
    decide
  simp only [startsIdentifier, Escape.starts_cons, hstart, hhyphen, decide_true, decide_false,
    Bool.false_or, Bool.true_and, Bool.false_and, Bool.or_false]

theorem startsIdentifier_hyphen_cons (x : Bytes) :
    startsIdentifier (Byte.hyphen :: x) =
      (beginsWith (fun c => isNameStart c || c = Byte.hyphen) x || Escape.starts x) := by
  have hstart : isNameStart Byte.hyphen = false := rfl
  have hback : Byte.hyphen ≠ Byte.backslash := by
    decide
  simp only [startsIdentifier, Escape.starts_cons, hstart, hback, decide_true, decide_false,
    Bool.false_or, Bool.true_and, Bool.false_and]
  rfl

theorem startsIdentifier_before {b : UInt8} (hb : b = Byte.backslash ∨ b = Byte.hyphen)
    (h : startsIdentifier x = true) : startsIdentifier (b :: x) = true := by
  cases x with
  | nil => cases h
  | cons c x =>
      have hfront := front_of_startsIdentifier h
      rcases hb with rfl | rfl
      · rw [startsIdentifier_backslash_cons, beginsWith_cons]
        rcases hfront with hc | rfl | rfl
        · obtain ⟨-, -, -, -, -, hnewline, hzero⟩ := class_of_isFront c (by simp [isFront, hc])
          rw [decide_eq_true hnewline, decide_eq_true hzero]
          rfl
        · rfl
        · rfl
      · rw [startsIdentifier_hyphen_cons, beginsWith_cons]
        rcases hfront with hc | rfl | rfl
        · rw [hc]
          rfl
        · rw [startsIdentifier_backslash_cons] at h
          rw [Escape.starts_cons, h]
          rfl
        · rfl

theorem Fronts.startsIdentifier_cons (hx : Fronts u x) (hy : Fronts u y) {b : UInt8}
    (h : startsIdentifier (b :: x) = false) : startsIdentifier (b :: y) = false := by
  by_cases hb : b = Byte.backslash ∨ b = Byte.hyphen
  · have hname : beginsName u.kind = false := by
      rw [← hx.identifier, ← Bool.not_eq_true]
      intro hs
      rw [startsIdentifier_before hb hs] at h
      cases h
    have hstarts : Escape.starts y = false := by
      rw [← Bool.not_eq_true]
      intro hs
      have hidentifier := hy.identifier
      rw [startsIdentifier_of_starts hs, hname] at hidentifier
      cases hidentifier
    rcases hb with rfl | rfl
    · rw [startsIdentifier_backslash_cons] at h ⊢
      rw [hy.head hname _ rfl, ← hx.head hname _ rfl]
      exact h
    · rw [startsIdentifier_hyphen_cons, Bool.or_eq_false_iff] at h ⊢
      rw [hy.head hname _ rfl, ← hx.head hname _ rfl]
      exact ⟨h.1, hstarts⟩
  · rw [not_or] at hb
    simp only [startsIdentifier, Escape.starts_cons, hb.1, hb.2, decide_false, Bool.false_and,
      Bool.or_false] at h ⊢
    exact h

theorem Fronts.scan?_cons (hx : Fronts u x) (hy : Fronts u y) {b : UInt8}
    (h : Numeral.scan? (b :: x) = none) : Numeral.scan? (b :: y) = none := by
  have hdigit := hx.isDigit_eq hy
  rw [← Option.not_isSome_iff_eq_none, Bool.not_eq_true] at h ⊢
  cases hopens : Numeral.opens b with
  | false => rw [Numeral.scan?_eq_none_of_not_opens hopens]; rfl
  | true =>
      simp only [Numeral.opens, Bool.or_eq_true, decide_eq_true_eq] at hopens
      rcases hopens with ((hb | rfl) | hb) | hb
      · rw [Numeral.scan?_digit hb] at h
        cases h
      · rw [Numeral.scan?_dot] at h ⊢
        rw [← hdigit, h]
      · rw [Numeral.scan?_sign (Or.inl hb), Bool.or_eq_false_iff, Bool.not_eq_false',
          List.isEmpty_iff] at h ⊢
        exact ⟨hdigit.symm.trans h.1, (hx.scanFraction_eq hy).mp h.2⟩
      · rw [Numeral.scan?_sign (Or.inr hb), Bool.or_eq_false_iff, Bool.not_eq_false',
          List.isEmpty_iff] at h ⊢
        exact ⟨hdigit.symm.trans h.1, (hx.scanFraction_eq hy).mp h.2⟩

theorem exists_sign_of_scanExponent {b : UInt8} {rest : Bytes}
    (hname : continuesName rest = false)
    (h : (Numeral.scanExponent (b :: rest)).1.isSome = true) :
    (b = Byte.lowerE ∨ b = Byte.upperE) ∧
      ∃ d bs, rest = Byte.plus :: d :: bs ∧ isDigit d = true := by
  rw [Numeral.isSome_scanExponent, Bool.and_eq_true, Bool.or_eq_true, decide_eq_true_eq,
    decide_eq_true_eq] at h
  refine ⟨h.1, ?_⟩
  cases rest with
  | nil => cases h.2
  | cons c rest =>
      simp only [continuesName, beginsWith_cons, isNameByte, Bool.or_eq_false_iff,
        beq_eq_false_iff_ne] at hname
      obtain ⟨⟨⟨-, hdigit⟩, hhyphen⟩, -⟩ := hname
      by_cases hplus : c = Byte.plus
      · subst hplus
        have hd : beginsWith isDigit rest = true := h.2
        cases rest with
        | nil => cases hd
        | cons d bs => exact ⟨d, bs, rfl, hd⟩
      · have hsign : Numeral.scanSign (c :: rest) = ([], c :: rest) := by
          rw [Numeral.scanSign, if_neg (by simp [hplus, hhyphen])]
        rw [hsign, beginsWith_cons, hdigit] at h
        cases h.2

theorem Fronts.scanExponent (hx : Fronts u x) (hy : Fronts u y) {b : UInt8}
    (hname : Token.continuesName y = false)
    (h : (Numeral.scanExponent (b :: x)).1 = none) :
    (Numeral.scanExponent (b :: y)).1 = none := by
  rw [← Option.not_isSome_iff_eq_none] at h ⊢
  intro hsome
  obtain ⟨hletter, d, bs, rfl, hd⟩ := exists_sign_of_scanExponent hname hsome
  have hnumeric : u.kind.isNumeric = true := by
    rw [← hy.numeral, Numeral.scan?_sign (Or.inl rfl), beginsWith_cons, hd]
    rfl
  have hhead := (hx.head?_eq hy (c := Byte.plus) rfl rfl).mpr rfl
  have htake : x.take 2 = [Byte.plus, d] :=
    (hx.sign hnumeric hhead).trans (hy.sign hnumeric rfl).symm
  obtain ⟨v, rfl⟩ : [Byte.plus, d] <+: x := by
    rw [← htake]
    exact List.take_prefix 2 x
  apply h
  rw [Numeral.isSome_scanExponent, Bool.and_eq_true, Bool.or_eq_true, decide_eq_true_eq,
    decide_eq_true_eq]
  exact ⟨hletter, hd⟩

theorem Fronts.matchOperator?_eq (hx : Fronts u x) (hy : Fronts u y) (b : UInt8) :
    matchOperator? b x = matchOperator? b y := by
  have hequals := hx.head?_eq hy (c := Byte.equals) rfl rfl
  rw [matchOperator?, matchOperator?]
  simp only [ne_eq, hequals]

/-!
## The same next tokens
-/

variable {xs ys : List Token}

/-- The texts agree in their second token too, or nothing depends on it. -/
def Settled (u : Token) (xs ys : List Token) : Prop :=
  xs.head? = ys.head? ∨ u.kind ≠ .whitespace ∧ ∀ v ∈ ys.head?, beginsName v.kind = false

theorem skipBlanks_of_reads {text rest : Bytes} (h : Reads text u rest) :
    skipBlanks text = if u.kind = .whitespace then rest else text := by
  split
  · rename_i hkind
    obtain ⟨b, bs, rfl, hb, rfl⟩ := h.exists_blank hkind
    rw [skipBlanks, List.dropWhile_cons_of_pos hb]
    rfl
  · rename_i hkind
    apply dropWhile_eq_self_of_not_beginsWith
    rw [← Bool.not_eq_true]
    intro hblank
    obtain ⟨b, bs, rfl⟩ := List.exists_cons_of_ne_nil h.ne_nil
    have hreads : Reads (b :: bs) _ _ := Reads.whitespace hblank
    have hscan := hreads.scan_eq
    rw [h.scan_eq] at hscan
    exact hkind (congrArg Token.kind (Prod.mk.inj hscan).1)

theorem not_blank_of_reads {text rest : Bytes} {t : Token} (h : Reads text t rest)
    (ht : t.kind ≠ .whitespace) : beginsWith isBlank text = false := by
  have hskip := skipBlanks_of_reads h
  rw [if_neg ht] at hskip
  rw [← hskip]
  exact not_beginsWith_dropWhile isBlank text

theorem quotedAhead_eq (hx : ofText x = u :: xs) (hy : ofText y = u :: ys)
    (h : Settled u xs ys) : quotedAhead x = quotedAhead y := by
  obtain ⟨x', hreadsx, hxs⟩ := exists_reads_of_ofText hx
  obtain ⟨y', hreadsy, hys⟩ := exists_reads_of_ofText hy
  show beginsWith isQuote (skipBlanks x) = beginsWith isQuote (skipBlanks y)
  rw [skipBlanks_of_reads hreadsx, skipBlanks_of_reads hreadsy]
  by_cases hkind : u.kind = .whitespace
  · rw [if_pos hkind, if_pos hkind]
    rcases h with h | h
    · cases ys with
      | nil =>
          rw [List.head?_nil, List.head?_eq_none_iff] at h
          rw [ofText_eq_nil.mp (hxs.trans h), ofText_eq_nil.mp hys]
      | cons v ys =>
          obtain ⟨xs', rfl⟩ := List.head?_eq_some_iff.mp h
          obtain ⟨_, hvx, -⟩ := exists_reads_of_ofText hxs
          obtain ⟨_, hvy, -⟩ := exists_reads_of_ofText hys
          exact hvx.fronts.isQuote_eq hvy.fronts
    · exact absurd hkind h.1
  · rw [if_neg hkind, if_neg hkind]
    exact hreadsx.fronts.isQuote_eq hreadsy.fronts

theorem ofText_markup (h : (ascii "!--").isPrefixOf y = true) (hy : ofText y = u :: ys) :
    u = plain .delim [0x21] ∧
      ∃ v ∈ ys.head?, v = plain .cdc (ascii "-->") ∨
        (v.kind = .ident ∨ v.kind = .function) ∧ ascii "--" <+: v.value := by
  obtain ⟨z, rfl⟩ := List.isPrefixOf_iff_prefix.mp h
  have hstray : Stray 0x21 (ascii "--" ++ z) :=
    stray_of_isQuiet rfl (fun hb => by cases hb) (fun hb => by cases hb)
      (fun hb => by cases hb) (fun hb => by cases hb)
  have hreads : Reads (ascii "!--" ++ z) (plain .delim [0x21]) (ascii "--" ++ z) :=
    Reads.delim hstray
  rw [hreads.ofText_eq] at hy
  obtain ⟨rfl, rfl⟩ := List.cons.inj hy
  refine ⟨rfl, ?_⟩
  obtain ⟨v, rest, hv⟩ : ∃ v rest, Reads (ascii "--" ++ z) v rest :=
    ⟨_, _, reads_scan Byte.hyphen (Byte.hyphen :: z)⟩
  refine ⟨v, by rw [hv.ofText_eq]; rfl, ?_⟩
  exact hv.of_hyphens

theorem Stray.transfer {b : UInt8} (hx : ofText x = u :: xs) (hy : ofText y = u :: ys)
    (hsettled : Settled u xs ys)
    (hmarkup : b = Byte.less → u = plain .delim [0x21] → ∀ v ∈ ys.head?,
      v.kind = .ident ∨ v.kind = .function → ¬ ascii "--" <+: v.value)
    (h : Stray b x) : Stray b y := by
  obtain ⟨x', hreadsx, hxs⟩ := exists_reads_of_ofText hx
  obtain ⟨y', hreadsy, hys⟩ := exists_reads_of_ofText hy
  have hfx := hreadsx.fronts
  have hfy := hreadsy.fronts
  refine ⟨h.blank, h.quote, h.punctuation, ?_, hfx.scan?_cons hfy h.numeral, ?_, ?_, ?_, ?_, ?_⟩
  · rw [← hfx.matchOperator?_eq hfy]
    exact h.operator
  · exact hfx.startsIdentifier_cons hfy h.identifier
  · intro hb
    rw [ne_eq, ← hfx.head?_eq hfy rfl rfl]
    exact h.comment hb
  · intro hb
    exact hfx.continuesName hfy (h.hash hb)
  · intro hb
    rw [← hfx.startsIdentifier_eq hfy]
    exact h.keyword hb
  · intro hb
    rw [← Bool.not_eq_true]
    intro hahead
    obtain ⟨hu, v, hv, hcdc | ⟨hkind, hvalue⟩⟩ := ofText_markup hahead hy
    · subst hcdc
      rcases hsettled with hhead | ⟨-, hhead⟩
      · rw [← hhead] at hv
        obtain ⟨xs', rfl⟩ := List.head?_eq_some_iff.mp hv
        obtain ⟨_, hcdc, -⟩ := exists_reads_of_ofText hxs
        have hx' := hcdc.text_cdc
        have hx := (hu ▸ hreadsx).text_delim
        have hmarkup := h.markup hb
        rw [hx, hx'] at hmarkup
        cases hmarkup
      · cases hhead _ hv
    · exact hmarkup hb hu v hv hkind hvalue

theorem Clear.transfer {t : Token} (hx : ofText x = u :: xs) (hy : ofText y = u :: ys)
    (hsettled : Settled u xs ys)
    (hmarkup : t.kind = .delim → t.value.headD 0 = Byte.less → u = plain .delim [0x21] →
      ∀ v ∈ ys.head?, v.kind = .ident ∨ v.kind = .function → ¬ ascii "--" <+: v.value)
    (h : Clear t x) : Clear t y := by
  obtain ⟨x', hreadsx, -⟩ := exists_reads_of_ofText hx
  obtain ⟨y', hreadsy, -⟩ := exists_reads_of_ofText hy
  have hfx := hreadsx.fronts
  have hfy := hreadsy.fronts
  have hnex := hreadsx.ne_nil
  unfold Clear at h ⊢
  cases hk : t.kind with
  | ident =>
      rw [hk] at h
      obtain ⟨hname, hparen, harrow⟩ := h
      refine ⟨hfx.continuesName hfy hname, ?_, ?_⟩
      · rw [ne_eq, ← hfx.head?_eq hfy rfl rfl]
        exact hparen
      · intro hvalue
        rw [ne_eq, ← hfx.head?_eq hfy rfl rfl]
        exact harrow hvalue
  | function =>
      rw [hk] at h
      have hquoted := quotedAhead_eq hx hy hsettled
      simp only [callsUrl] at h ⊢
      rw [← hquoted]
      exact h
  | atKeyword =>
      rw [hk] at h
      exact hfx.continuesName hfy h
  | hash =>
      rw [hk] at h
      exact hfx.continuesName hfy h
  | badString =>
      rw [hk] at h
      have hnewline := h.resolve_left hnex
      exact Or.inr ((hfx.head?_eq hfy rfl rfl).mp hnewline)
  | badUrl =>
      rw [hk] at h
      exact Or.inr (h.resolve_left hnex)
  | number =>
      rw [hk] at h
      obtain ⟨hs, hpercent, hdigit, hfraction⟩ := h
      refine ⟨?_, ?_, ?_, ?_⟩
      · rw [← hfx.startsIdentifier_eq hfy]
        exact hs
      · rw [ne_eq, ← hfx.head?_eq hfy rfl rfl]
        exact hpercent
      · rw [← hfx.isDigit_eq hfy]
        exact hdigit
      · intro hinteger
        exact (hfx.scanFraction_eq hfy).mp (hfraction hinteger)
  | dimension =>
      rw [hk] at h
      obtain ⟨hname, hexponent⟩ := h
      have hname' := hfx.continuesName hfy hname
      refine ⟨hname', ?_⟩
      intro hlength hnone
      have hexponent := hexponent hlength hnone
      obtain ⟨b, hb⟩ := List.length_eq_one_iff.mp hlength
      rw [hb] at hexponent ⊢
      exact hfx.scanExponent hfy hname' hexponent
  | whitespace =>
      rw [hk] at h
      rw [← hfx.isBlank_eq hfy]
      exact h
  | delim =>
      rw [hk] at h
      exact Stray.transfer hx hy hsettled (hmarkup hk) h
  | _ => trivial

end

end Token
end CssText
