import CssText.Number.Numeral
import CssText.Proofs.Bytes
import Mathlib.Data.List.TakeWhile

/-!
# Numerals are found by longest match

`Numeral.scan?_eq_some_iff` describes the scanner without running it: it finds exactly the
well-formed numerals whose text stands in front and which nothing that follows could make
longer.
-/

namespace CssText

/-!
## Well-formed numerals

Only the letter of an exponent is a letter in a numeral, and only whole numbers are written
without a point and without an exponent.
-/

def IsSign (sign : Bytes) : Prop :=
  sign = [] ∨ sign = [Byte.plus] ∨ sign = [Byte.hyphen]

theorem IsSign.mem {sign : Bytes} (h : IsSign sign) {b : UInt8} (hb : b ∈ sign) :
    b = Byte.plus ∨ b = Byte.hyphen := by
  rcases h with rfl | rfl | rfl
  · cases hb
  · exact Or.inl (List.mem_singleton.mp hb)
  · exact Or.inr (List.mem_singleton.mp hb)

namespace Exponent

structure Formed (e : Exponent) : Prop where
  letter : e.letter = Byte.lowerE ∨ e.letter = Byte.upperE
  sign : IsSign e.sign
  digits : ∀ b ∈ e.digits, isDigit b = true
  nonempty : e.digits ≠ []

end Exponent

namespace Numeral

structure Formed (n : Numeral) : Prop where
  sign : IsSign n.sign
  whole : ∀ b ∈ n.whole, isDigit b = true
  fraction : ∀ b ∈ n.fraction, isDigit b = true
  nonempty : n.whole ≠ [] ∨ n.fraction ≠ []
  exponent : ∀ e ∈ n.exponent, e.Formed

def pointText (fraction : Bytes) : Bytes :=
  if fraction.isEmpty then [] else Byte.dot :: fraction

def exponentText (e : Option Exponent) : Bytes :=
  (e.map Exponent.text).getD []

theorem pointText_nil : pointText [] = [] :=
  rfl

theorem exponentText_none : exponentText none = [] :=
  rfl

theorem text_eq (n : Numeral) :
    n.text = n.sign ++ (n.whole ++ (pointText n.fraction ++ exponentText n.exponent)) := by
  simp [text, pointText, exponentText]

theorem Formed.mem_text {n : Numeral} (hn : n.Formed) {b : UInt8} (hb : b ∈ n.text) :
    isDigit b = true ∨ b = Byte.plus ∨ b = Byte.hyphen ∨ (b = Byte.dot ∧ n.fraction ≠ []) ∨
      ∃ e ∈ n.exponent, b = e.letter := by
  rw [text_eq, List.mem_append, List.mem_append, List.mem_append] at hb
  rcases hb with hb | hb | hb | hb
  · rcases hn.sign.mem hb with hb | hb
    · exact Or.inr (Or.inl hb)
    · exact Or.inr (Or.inr (Or.inl hb))
  · exact Or.inl (hn.whole b hb)
  · unfold pointText at hb
    split at hb
    · cases hb
    · rename_i hfraction
      rcases List.mem_cons.mp hb with hb | hb
      · exact Or.inr (Or.inr (Or.inr (Or.inl ⟨hb, by simpa using hfraction⟩)))
      · exact Or.inl (hn.fraction b hb)
  · cases he : n.exponent with
    | none =>
        rw [he] at hb
        cases hb
    | some e =>
        have hformed := hn.exponent e he
        rw [he] at hb
        rcases List.mem_cons.mp hb with hb | hb
        · exact Or.inr (Or.inr (Or.inr (Or.inr ⟨e, rfl, hb⟩)))
        rcases List.mem_append.mp hb with hb | hb
        · rcases hformed.sign.mem hb with hb | hb
          · exact Or.inr (Or.inl hb)
          · exact Or.inr (Or.inr (Or.inl hb))
        · exact Or.inl (hformed.digits b hb)

theorem Formed.dot_mem_text_iff {n : Numeral} (hn : n.Formed) :
    Byte.dot ∈ n.text ↔ n.fraction ≠ [] := by
  constructor
  · intro h
    rcases hn.mem_text h with h | h | h | ⟨-, hne⟩ | ⟨e, he, hdot⟩
    · exact absurd h (by decide)
    · exact absurd h (by decide)
    · exact absurd h (by decide)
    · exact hne
    · have hletter := (hn.exponent e he).letter
      rw [← hdot] at hletter
      exact absurd hletter (by decide)
  · intro hne
    simp [text_eq, pointText, hne]

theorem Formed.isSome_exponent_iff {n : Numeral} (hn : n.Formed) :
    n.exponent.isSome = true ↔ ∃ b ∈ n.text, b = Byte.lowerE ∨ b = Byte.upperE := by
  constructor
  · intro h
    rcases Option.isSome_iff_exists.mp h with ⟨e, he⟩
    exact ⟨e.letter, by simp [text_eq, he, exponentText, Exponent.text], (hn.exponent e he).letter⟩
  · rintro ⟨b, hb, hletter⟩
    rcases hn.mem_text hb with hdigit | rfl | rfl | ⟨rfl, -⟩ | ⟨e, he, -⟩
    · rcases hletter with rfl | rfl
      · exact absurd hdigit (by decide)
      · exact absurd hdigit (by decide)
    · exact absurd hletter (by decide)
    · exact absurd hletter (by decide)
    · exact absurd hletter (by decide)
    · exact Option.isSome_iff_exists.mpr ⟨e, he⟩

theorem Formed.isInteger_iff {n : Numeral} (hn : n.Formed) :
    n.isInteger = true ↔
      Byte.dot ∉ n.text ∧ Byte.lowerE ∉ n.text ∧ Byte.upperE ∉ n.text := by
  have hfraction : n.fraction = [] ↔ Byte.dot ∉ n.text := by
    rw [hn.dot_mem_text_iff, Classical.not_not]
  have hexponent : n.exponent.isNone = true ↔ Byte.lowerE ∉ n.text ∧ Byte.upperE ∉ n.text := by
    rw [← Option.not_isSome, Bool.not_eq_true', ← Bool.not_eq_true, hn.isSome_exponent_iff]
    constructor
    · intro h
      exact ⟨fun hb => h ⟨_, hb, Or.inl rfl⟩, fun hb => h ⟨_, hb, Or.inr rfl⟩⟩
    · rintro ⟨hlower, hupper⟩ ⟨b, hb, rfl | rfl⟩
      · exact hlower hb
      · exact hupper hb
  rw [isInteger, Bool.and_eq_true, List.isEmpty_iff, hfraction, hexponent]

/-- Nothing in front of `rest` could still belong to the numeral. -/
structure Stops (n : Numeral) (rest : Bytes) : Prop where
  digit : beginsWith isDigit rest = false
  fraction : n.fraction = [] → n.exponent = none → (scanFraction rest).1 = []
  exponent : n.exponent = none → (scanExponent rest).1 = none

/-!
## The parts
-/

theorem scanDigits_append_stop {digits rest : Bytes} (hd : ∀ b ∈ digits, isDigit b = true)
    (hr : beginsWith isDigit rest = false) : scanDigits (digits ++ rest) = (digits, rest) := by
  rw [scanDigits, takeWhile_append_stop hd hr, dropWhile_append_stop hd hr]

theorem scanSign_append {sign rest : Bytes} (hs : IsSign sign)
    (hr : beginsWith (fun b => b = Byte.plus || b = Byte.hyphen) rest = false) :
    scanSign (sign ++ rest) = (sign, rest) := by
  rcases hs with rfl | rfl | rfl
  · cases rest with
    | nil => rfl
    | cons b rest =>
        rw [beginsWith_cons] at hr
        simp [scanSign, hr]
  · rfl
  · rfl

theorem scanSign_isSign (bs : Bytes) : IsSign (scanSign bs).1 := by
  cases bs with
  | nil => exact Or.inl rfl
  | cons b bs =>
      simp only [scanSign, Bool.or_eq_true, decide_eq_true_eq]
      split
      · rename_i h
        rcases h with rfl | rfl
        · exact Or.inr (Or.inl rfl)
        · exact Or.inr (Or.inr rfl)
      · exact Or.inl rfl

theorem scanSign_append_snd (bs : Bytes) : (scanSign bs).1 ++ (scanSign bs).2 = bs := by
  cases bs with
  | nil => rfl
  | cons b bs =>
      rw [scanSign]
      split <;> rfl

theorem scanFraction_append_stop {digits rest : Bytes} (hd : ∀ b ∈ digits, isDigit b = true)
    (hne : digits ≠ []) (hr : beginsWith isDigit rest = false) :
    scanFraction (Byte.dot :: digits ++ rest) = (digits, rest) := by
  simp [scanFraction, scanDigits_append_stop hd hr, hne]

theorem scanFraction_eq_self {bs : Bytes} (h : (scanFraction bs).1 = []) :
    scanFraction bs = ([], bs) := by
  cases bs with
  | nil => rfl
  | cons b bs =>
      rw [scanFraction] at h ⊢
      split
      · rename_i hb
        rw [if_pos hb] at h
        simp [h] at hb
      · rfl

theorem scanExponent_append_stop {e : Exponent} {rest : Bytes} (he : e.Formed)
    (hr : beginsWith isDigit rest = false) : scanExponent (e.text ++ rest) = (some e, rest) := by
  have hhead :
      beginsWith (fun b => b = Byte.plus || b = Byte.hyphen) (e.digits ++ rest) = false := by
    rw [beginsWith_append_of_ne_nil _ _ he.nonempty]
    cases hds : e.digits with
    | nil => rfl
    | cons d ds =>
        have hd := he.digits d (by simp [hds])
        rw [beginsWith_cons]
        grind [isDigit]
  have hsign : scanSign (e.sign ++ (e.digits ++ rest)) = (e.sign, e.digits ++ rest) :=
    scanSign_append he.sign hhead
  have hdigits := scanDigits_append_stop he.digits hr
  have hletter := he.letter
  have hne := he.nonempty
  simp only [Exponent.text, List.cons_append, List.append_assoc, scanExponent, hsign, hdigits]
  simp [hletter, hne]

theorem scanExponent_eq_self {bs : Bytes} (h : (scanExponent bs).1 = none) :
    scanExponent bs = (none, bs) := by
  cases bs with
  | nil => rfl
  | cons b bs =>
      simp only [scanExponent] at h ⊢
      split
      · rename_i hb
        rw [if_pos hb] at h
        cases h
      · rfl

theorem scanFraction_formed (bs : Bytes) : ∀ b ∈ (scanFraction bs).1, isDigit b = true := by
  intro b hb
  cases bs with
  | nil => cases hb
  | cons c bs =>
      rw [scanFraction] at hb
      split at hb
      · exact List.mem_takeWhile_imp hb
      · cases hb

theorem scanFraction_append (bs : Bytes) :
    pointText (scanFraction bs).1 ++ (scanFraction bs).2 = bs := by
  cases bs with
  | nil => rfl
  | cons b bs =>
      rw [scanFraction]
      split
      · rename_i h
        simp only [Bool.and_eq_true, decide_eq_true_eq, Bool.not_eq_true'] at h
        simp [pointText, h.2, h.1, scanDigits_append]
      · rfl

theorem not_beginsWith_scanFraction {bs : Bytes} (h : beginsWith isDigit bs = false) :
    beginsWith isDigit (scanFraction bs).2 = false := by
  cases bs with
  | nil => rfl
  | cons b bs =>
      rw [scanFraction]
      split
      · exact not_beginsWith_dropWhile isDigit bs
      · exact h

theorem scanExponent_formed {bs : Bytes} {e : Exponent} (h : (scanExponent bs).1 = some e) :
    e.Formed := by
  cases bs with
  | nil => cases h
  | cons b bs =>
      simp only [scanExponent] at h
      split at h
      · rename_i hb
        simp only [Bool.and_eq_true, Bool.or_eq_true, decide_eq_true_eq, Bool.not_eq_true',
          List.isEmpty_eq_false_iff] at hb
        cases h
        exact ⟨hb.1, scanSign_isSign bs, fun d hd => List.mem_takeWhile_imp hd, hb.2⟩
      · cases h

theorem scanExponent_append (bs : Bytes) :
    exponentText (scanExponent bs).1 ++ (scanExponent bs).2 = bs := by
  cases bs with
  | nil => rfl
  | cons b bs =>
      simp only [scanExponent]
      split
      · simp [exponentText, Exponent.text, scanDigits_append, scanSign_append_snd]
      · rfl

theorem not_beginsWith_scanExponent {bs : Bytes} (h : beginsWith isDigit bs = false) :
    beginsWith isDigit (scanExponent bs).2 = false := by
  cases bs with
  | nil => rfl
  | cons b bs =>
      simp only [scanExponent]
      split
      · exact not_beginsWith_dropWhile isDigit _
      · exact h

/-!
## Longest match
-/

theorem formed_of_scan? {bs rest : Bytes} {n : Numeral} (h : scan? bs = some (n, rest)) :
    n.Formed ∧ bs = n.text ++ rest ∧ n.Stops rest := by
  simp only [scan?] at h
  split at h
  · cases h
  · rename_i hne
    obtain ⟨rfl, rfl⟩ := Prod.mk.inj (Option.some.inj h)
    have hstop := not_beginsWith_dropWhile isDigit (scanSign bs).2
    have hfraction := not_beginsWith_scanFraction hstop
    refine ⟨⟨scanSign_isSign bs, fun b hb => List.mem_takeWhile_imp hb, scanFraction_formed _,
      ?_, fun e he => scanExponent_formed he⟩, ?_, ?_, ?_, ?_⟩
    · simpa [Classical.or_iff_not_imp_left] using hne
    · simp only [text_eq, List.append_assoc, scanExponent_append, scanFraction_append,
        scanDigits_append, scanSign_append_snd]
    · exact not_beginsWith_scanExponent hfraction
    · intro hf he
      have hself := scanFraction_eq_self hf
      dsimp only at hf he ⊢
      rw [scanExponent_eq_self he, hself]
      exact hf
    · intro he
      simp only [scanExponent_eq_self he]

theorem scanSign_text_append {n : Numeral} (hn : n.Formed) (rest : Bytes) :
    scanSign (n.text ++ rest) = (n.sign, n.whole ++
      (pointText n.fraction ++
        (exponentText n.exponent ++ rest))) := by
  simp only [text_eq, List.append_assoc]
  apply scanSign_append hn.sign
  cases hw : n.whole with
  | cons d ds =>
      have hd := hn.whole d (by simp [hw])
      rw [List.cons_append, beginsWith_cons]
      grind [isDigit]
  | nil =>
      have hf : n.fraction ≠ [] := by
        rcases hn.nonempty with h | h
        · exact absurd hw h
        · exact h
      simp [pointText, hf, Byte.dot, Byte.plus, Byte.hyphen]

theorem scan?_text_append {n : Numeral} {rest : Bytes} (hn : n.Formed) (hr : n.Stops rest) :
    scan? (n.text ++ rest) = some (n, rest) := by
  have hexponent : scanExponent (exponentText n.exponent ++ rest) =
      (n.exponent, rest) := by
    cases he : n.exponent with
    | none => exact scanExponent_eq_self (hr.exponent he)
    | some e => exact scanExponent_append_stop (hn.exponent e he) hr.digit
  have hdigit : beginsWith isDigit (exponentText n.exponent ++ rest) = false := by
    cases he : n.exponent with
    | none => exact hr.digit
    | some e =>
        have hl := (hn.exponent e he).letter
        simp only [exponentText, Option.map_some, Option.getD_some, Exponent.text, List.cons_append,
          beginsWith_cons]
        grind [isDigit]
  have hfraction : scanFraction (pointText n.fraction ++
      (exponentText n.exponent ++ rest)) =
      (n.fraction, exponentText n.exponent ++ rest) := by
    by_cases hf : n.fraction = []
    · rw [hf]
      apply scanFraction_eq_self
      cases he : n.exponent with
      | none => exact hr.fraction hf he
      | some e =>
          have hl := (hn.exponent e he).letter
          have hdot : e.letter ≠ Byte.dot := by
            rcases hl with h | h
            · rw [h]
              decide
            · rw [h]
              decide
          simp [pointText, exponentText, Exponent.text, scanFraction, hdot]
    · have := scanFraction_append_stop hn.fraction hf hdigit
      simpa [pointText, hf] using this
  have hwhole : scanDigits (n.whole ++
      (pointText n.fraction ++
        (exponentText n.exponent ++ rest))) =
      (n.whole, pointText n.fraction ++
        (exponentText n.exponent ++ rest)) := by
    apply scanDigits_append_stop hn.whole
    by_cases hf : n.fraction = []
    · simpa [pointText, hf] using hdigit
    · simp [pointText, hf, isDigit, Byte.dot]
  have hne : ¬ (n.whole.isEmpty = true ∧ n.fraction.isEmpty = true) := by
    simpa [Classical.or_iff_not_imp_left] using hn.nonempty
  simp only [scan?, scanSign_text_append hn, hwhole, hfraction, hexponent, Bool.and_eq_true]
  rw [if_neg hne]

theorem scan?_eq_some_iff {bs rest : Bytes} {n : Numeral} :
    scan? bs = some (n, rest) ↔ n.Formed ∧ bs = n.text ++ rest ∧ n.Stops rest := by
  constructor
  · exact formed_of_scan?
  · rintro ⟨hn, rfl, hr⟩
    exact scan?_text_append hn hr

def opens (b : UInt8) : Bool :=
  isDigit b || b = Byte.dot || b = Byte.plus || b = Byte.hyphen

theorem Formed.beginsWith_opens {n : Numeral} (hn : n.Formed) (rest : Bytes) :
    beginsWith opens (n.text ++ rest) = true := by
  rw [text_eq]
  rcases hn.sign with hs | hs | hs
  · rw [hs]
    cases hw : n.whole with
    | cons d ds =>
        have hd := hn.whole d (by simp [hw])
        simp [opens, hd]
    | nil =>
        have hf : n.fraction ≠ [] := by
          rcases hn.nonempty with h | h
          · exact absurd hw h
          · exact h
        simp [pointText, hf, opens]
  · rw [hs]
    rfl
  · rw [hs]
    rfl

theorem scan?_eq_none_of_not_opens {b : UInt8} (h : opens b = false) (bs : Bytes) :
    scan? (b :: bs) = none := by
  cases hn : scan? (b :: bs) with
  | none => rfl
  | some x =>
      obtain ⟨hf, ht, -⟩ := formed_of_scan? hn
      have := hf.beginsWith_opens x.2
      rw [← ht, beginsWith_cons, h] at this
      cases this

/-- After a sign only a digit or a point can go on with a numeral. -/
theorem scan?_sign_eq_none {b : UInt8} {bs : Bytes} (hb : b = Byte.plus ∨ b = Byte.hyphen)
    (h : beginsWith (fun c => isDigit c || c = Byte.dot) bs = false) :
    scan? (b :: bs) = none := by
  have hsign : scanSign (b :: bs) = ([b], bs) := by
    simp [scanSign, hb]
  cases bs with
  | nil => simp [scan?, hsign, scanDigits, scanFraction]
  | cons c cs =>
      simp only [beginsWith_cons, Bool.or_eq_false_iff, decide_eq_false_iff_not] at h
      simp [scan?, hsign, scanDigits, scanFraction, h.1, h.2]

/-!
## Numerals that begin at a given byte
-/

theorem scanDigits_eq_nil {bs : Bytes} :
    (scanDigits bs).1 = [] ↔ beginsWith isDigit bs = false := by
  cases bs with
  | nil => simp [scanDigits]
  | cons b bs => simp [scanDigits, List.takeWhile_cons]

theorem scan?_digit {b : UInt8} (hb : isDigit b = true) (bs : Bytes) :
    (scan? (b :: bs)).isSome = true := by
  have hsign : scanSign (b :: bs) = ([], b :: bs) := by
    rw [scanSign, if_neg]
    grind [isDigit]
  simp [scan?, hsign, scanDigits, hb]

theorem scan?_dot (bs : Bytes) : (scan? (Byte.dot :: bs)).isSome = beginsWith isDigit bs := by
  have hsign : scanSign (Byte.dot :: bs) = ([], Byte.dot :: bs) := rfl
  have hwhole : scanDigits (Byte.dot :: bs) = ([], Byte.dot :: bs) := rfl
  cases hd : beginsWith isDigit bs with
  | false =>
      have hdigits := scanDigits_eq_nil.mpr hd
      simp [scan?, hsign, hwhole, scanFraction, hdigits]
  | true =>
      have hdigits : (scanDigits bs).1 ≠ [] := by
        rw [ne_eq, scanDigits_eq_nil, hd]
        simp
      simp [scan?, hsign, hwhole, scanFraction, hdigits]

theorem scan?_sign {b : UInt8} (hb : b = Byte.plus ∨ b = Byte.hyphen) (bs : Bytes) :
    (scan? (b :: bs)).isSome = (beginsWith isDigit bs || !(scanFraction bs).1.isEmpty) := by
  have hsign : scanSign (b :: bs) = ([b], bs) := by
    simp [scanSign, hb]
  cases hd : beginsWith isDigit bs with
  | false =>
      have hwhole : scanDigits bs = ([], bs) := by
        rw [scanDigits, takeWhile_eq_nil_of_not_beginsWith hd,
          dropWhile_eq_self_of_not_beginsWith hd]
      by_cases hf : (scanFraction bs).1 = []
      · simp [scan?, hsign, hwhole, hf]
      · simp [scan?, hsign, hwhole, hf]
  | true =>
      have hdigits : (scanDigits bs).1 ≠ [] := by
        rw [ne_eq, scanDigits_eq_nil, hd]
        simp
      simp [scan?, hsign, hdigits]

theorem scanFraction_eq_nil {bs : Bytes} :
    (scanFraction bs).1 = [] ↔
      ¬ (beginsWith (fun b => b = Byte.dot) bs = true ∧ (scan? bs).isSome = true) := by
  cases bs with
  | nil => simp [scanFraction]
  | cons b bs =>
      by_cases hb : b = Byte.dot
      · subst hb
        rw [scan?_dot, scanFraction]
        by_cases hd : beginsWith isDigit bs = true
        · have hdigits : (scanDigits bs).1 ≠ [] := by
            rw [ne_eq, scanDigits_eq_nil, hd]
            simp
          simp [hd, hdigits]
        · rw [Bool.not_eq_true] at hd
          simp [hd, scanDigits_eq_nil.mpr hd]
      · simp [scanFraction, hb]

theorem isSome_scanExponent (b : UInt8) (bs : Bytes) :
    (scanExponent (b :: bs)).1.isSome =
      ((b = Byte.lowerE || b = Byte.upperE) && beginsWith isDigit (scanSign bs).2) := by
  have hdigits : (scanDigits (scanSign bs).2).1 = [] ↔ _ := scanDigits_eq_nil
  rw [scanExponent]
  cases hd : beginsWith isDigit (scanSign bs).2 with
  | false =>
      rw [hd] at hdigits
      simp [hdigits]
  | true =>
      rw [hd] at hdigits
      have hne : (scanDigits (scanSign bs).2).1 ≠ [] := by
        simpa using hdigits
      by_cases hb : b = Byte.lowerE ∨ b = Byte.upperE
      · simp [hb, hne]
      · simp [hb]
        simpa using hb

theorem Formed.two_le_length {n : Numeral} (hn : n.Formed)
    (h : n.text.head? = some Byte.plus) : 2 ≤ n.text.length := by
  have hrest : (n.whole ++ (pointText n.fraction ++ exponentText n.exponent)).length ≠ 0 := by
    rcases hn.nonempty with hw | hf
    · simp [hw]
    · simp [pointText, hf]
  rcases hn.sign with hs | hs | hs
  · exfalso
    rw [text_eq, hs, List.nil_append] at h
    cases hw : n.whole with
    | cons d ds =>
        have hd := hn.whole d (by simp [hw])
        rw [hw] at h
        obtain rfl : d = Byte.plus := by
          simpa using h
        cases hd
    | nil =>
        have hf : n.fraction ≠ [] := by
          rcases hn.nonempty with h | h
          · exact absurd hw h
          · exact h
        rw [hw] at h
        simp only [pointText, List.isEmpty_iff, hf, if_false] at h
        cases h
  · rw [text_eq, hs, List.length_append]
    simp only [List.length_singleton]
    omega
  · rw [text_eq, hs] at h
    cases h

theorem Formed.text_ne_nil {n : Numeral} (hn : n.Formed) : n.text ≠ [] := by
  intro hnil
  have hopens := hn.beginsWith_opens []
  rw [hnil] at hopens
  cases hopens

end Numeral

/-!
## Values

Rounding never makes a NaN, so the value of a numeral equals itself.
-/

namespace Binary64

theorem magnitude_ofMagnitude (negative : Bool) {m : Nat} (hm : m ≤ infinite) :
    (ofMagnitude negative m).magnitude = m := by
  have hpow : Nat.pow 2 63 = 9223372036854775808 := rfl
  have hbound : infinite < 9223372036854775808 := by
    decide
  rw [ofMagnitude, magnitude, UInt64.toNat_ofNat', hpow]
  cases negative with
  | false =>
      rw [if_neg (by decide)]
      omega
  | true =>
      rw [if_pos rfl]
      omega

theorem not_isNaN_ofDecimal (negative : Bool) (coefficient digits : Nat) (exponent : Int) :
    (ofDecimal negative coefficient digits exponent).isNaN = false := by
  have hbound : ∀ m, m ≤ infinite → (ofMagnitude negative m).isNaN = false := by
    intro m hm
    rw [isNaN, magnitude_ofMagnitude negative hm, decide_eq_false_iff_not]
    omega
  rw [ofDecimal]
  apply hbound
  split
  · exact Nat.zero_le _
  split
  · exact Nat.le_refl _
  split
  · exact Nat.zero_le _
  · exact Nat.min_le_left _ _

theorem same_self {x : Binary64} (h : x.isNaN = false) : x.same x = true := by
  simp [same, h]

end Binary64

theorem Numeral.same_value (n : Numeral) : n.value.same n.value = true :=
  Binary64.same_self (Binary64.not_isNaN_ofDecimal _ _ _ _)

end CssText
