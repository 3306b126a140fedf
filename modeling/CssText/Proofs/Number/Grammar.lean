import CssText.Proofs.Number.Numeral
import Mathlib.Computability.RegularExpressions

/-!
# The regular expression of numerals

`Grammar.numeral` is the grammar of number texts as a regular expression. Its words are the
texts of the well-formed numerals, and the scanner finds the longest word that stands in front
of a text (`longest_of_scan?`), or nothing where none does (`isSome_scan?_iff`).
-/

namespace CssText
namespace Numeral
namespace Grammar

open RegularExpression (char star matches'_add matches'_mul matches'_char matches'_star
  matches'_zero matches'_epsilon)

def oneOf : Bytes → RegularExpression UInt8
  | [] => 0
  | b :: bs => char b + oneOf bs

def optional (r : RegularExpression UInt8) : RegularExpression UInt8 :=
  1 + r

def oneOrMore (r : RegularExpression UInt8) : RegularExpression UInt8 :=
  r * star r

def sign : RegularExpression UInt8 :=
  optional (oneOf [Byte.plus, Byte.hyphen])

def digits : RegularExpression UInt8 :=
  oneOrMore (oneOf (ascii "0123456789"))

def point : RegularExpression UInt8 :=
  char Byte.dot * digits

def exponent : RegularExpression UInt8 :=
  oneOf [Byte.lowerE, Byte.upperE] * (sign * digits)

def significand : RegularExpression UInt8 :=
  digits * optional point + point

/-- `[+-]?([0-9]+(\.[0-9]+)?|\.[0-9]+)([eE][+-]?[0-9]+)?` -/
def numeral : RegularExpression UInt8 :=
  sign * (significand * optional exponent)

/-!
## Its words
-/

variable {w : Bytes}

theorem mem_oneOf {bs : Bytes} : w ∈ (oneOf bs).matches' ↔ ∃ b ∈ bs, w = [b] := by
  induction bs with
  | nil =>
      rw [oneOf, matches'_zero]
      simp [Language.notMem_zero]
  | cons b bs ih =>
      rw [oneOf, matches'_add, Language.mem_add, ih, matches'_char, List.exists_mem_cons_iff]
      exact Iff.rfl

theorem mem_optional {r : RegularExpression UInt8} :
    w ∈ (optional r).matches' ↔ w = [] ∨ w ∈ r.matches' := by
  rw [optional, matches'_add, Language.mem_add, matches'_epsilon, Language.mem_one]

theorem mem_star_oneOf {bs : Bytes} : w ∈ (star (oneOf bs)).matches' ↔ ∀ b ∈ w, b ∈ bs := by
  rw [matches'_star, Language.mem_kstar]
  constructor
  · rintro ⟨pieces, rfl, hpieces⟩ b hb
    rcases List.mem_flatten.mp hb with ⟨piece, hpiece, hmem⟩
    rcases mem_oneOf.mp (hpieces piece hpiece) with ⟨c, hc, rfl⟩
    exact List.mem_singleton.mp hmem ▸ hc
  · intro h
    refine ⟨w.map fun b => [b], ?_, ?_⟩
    · induction w with
      | nil => rfl
      | cons b bs ih =>
          rw [List.map_cons, List.flatten_cons, ← ih fun c hc => h c (List.mem_cons_of_mem b hc)]
          rfl
    · intro piece hpiece
      rcases List.mem_map.mp hpiece with ⟨b, hb, rfl⟩
      exact mem_oneOf.mpr ⟨b, h b hb, rfl⟩

theorem mem_oneOrMore_oneOf {bs : Bytes} :
    w ∈ (oneOrMore (oneOf bs)).matches' ↔ w ≠ [] ∧ ∀ b ∈ w, b ∈ bs := by
  rw [oneOrMore, matches'_mul, Language.mem_mul]
  constructor
  · rintro ⟨first, hfirst, more, hmore, rfl⟩
    rcases mem_oneOf.mp hfirst with ⟨b, hb, rfl⟩
    refine ⟨List.cons_ne_nil b more, ?_⟩
    intro c hc
    rcases List.mem_cons.mp hc with rfl | hc
    · exact hb
    · exact mem_star_oneOf.mp hmore c hc
  · rintro ⟨hne, hall⟩
    obtain ⟨b, bs, rfl⟩ := List.exists_cons_of_ne_nil hne
    exact ⟨[b], mem_oneOf.mpr ⟨b, hall b List.mem_cons_self, rfl⟩, bs,
      mem_star_oneOf.mpr fun c hc => hall c (List.mem_cons_of_mem b hc), rfl⟩

theorem isDigit_iff : ∀ b : UInt8, isDigit b = true ↔ b ∈ ascii "0123456789" :=
  forall_byte (by decide +kernel)

theorem mem_sign : w ∈ sign.matches' ↔ IsSign w := by
  rw [sign, mem_optional, mem_oneOf, List.exists_mem_cons_iff, List.exists_mem_cons_iff]
  simp [IsSign]

theorem mem_digits : w ∈ digits.matches' ↔ w ≠ [] ∧ ∀ b ∈ w, isDigit b = true := by
  simp only [digits, mem_oneOrMore_oneOf, isDigit_iff]

theorem mem_point :
    w ∈ point.matches' ↔
      ∃ fraction, fraction ≠ [] ∧ (∀ b ∈ fraction, isDigit b = true) ∧
        w = Byte.dot :: fraction := by
  rw [point, matches'_mul, Language.mem_mul]
  constructor
  · rintro ⟨dot, hdot, fraction, hfraction, rfl⟩
    rw [matches'_char] at hdot
    obtain rfl : dot = [Byte.dot] := hdot
    exact ⟨fraction, (mem_digits.mp hfraction).1, (mem_digits.mp hfraction).2, rfl⟩
  · rintro ⟨fraction, hne, hall, rfl⟩
    exact ⟨[Byte.dot], rfl, fraction, mem_digits.mpr ⟨hne, hall⟩, rfl⟩

theorem mem_optional_point :
    w ∈ (optional point).matches' ↔
      ∃ fraction, (∀ b ∈ fraction, isDigit b = true) ∧ w = pointText fraction := by
  rw [mem_optional, mem_point]
  constructor
  · rintro (rfl | ⟨fraction, hne, hall, rfl⟩)
    · exact ⟨[], List.forall_mem_nil _, rfl⟩
    · exact ⟨fraction, hall, by simp [pointText, hne]⟩
  · rintro ⟨fraction, hall, rfl⟩
    by_cases hne : fraction = []
    · exact Or.inl (by simp [pointText, hne])
    · exact Or.inr ⟨fraction, hne, hall, by simp [pointText, hne]⟩

theorem mem_significand :
    w ∈ significand.matches' ↔
      ∃ whole fraction, (∀ b ∈ whole, isDigit b = true) ∧ (∀ b ∈ fraction, isDigit b = true) ∧
        (whole ≠ [] ∨ fraction ≠ []) ∧ w = whole ++ pointText fraction := by
  rw [significand, matches'_add, Language.mem_add, matches'_mul, Language.mem_mul, mem_point]
  constructor
  · rintro (⟨whole, hwhole, tail, htail, rfl⟩ | ⟨fraction, hne, hall, rfl⟩)
    · rcases mem_digits.mp hwhole with ⟨hne, hall⟩
      rcases mem_optional_point.mp htail with ⟨fraction, hfraction, rfl⟩
      exact ⟨whole, fraction, hall, hfraction, Or.inl hne, rfl⟩
    · exact ⟨[], fraction, List.forall_mem_nil _, hall, Or.inr hne, by simp [pointText, hne]⟩
  · rintro ⟨whole, fraction, hwhole, hfraction, hne, rfl⟩
    by_cases hw : whole = []
    · have hf : fraction ≠ [] := hne.resolve_left (not_not_intro hw)
      exact Or.inr ⟨fraction, hf, hfraction, by simp [pointText, hw, hf]⟩
    · exact Or.inl ⟨whole, mem_digits.mpr ⟨hw, hwhole⟩, pointText fraction,
        mem_optional_point.mpr ⟨fraction, hfraction, rfl⟩, rfl⟩

theorem mem_exponent : w ∈ exponent.matches' ↔ ∃ e : Exponent, e.Formed ∧ w = e.text := by
  rw [exponent, matches'_mul, matches'_mul, Language.mem_mul]
  constructor
  · rintro ⟨letter, hletter, power, hpower, rfl⟩
    rcases Language.mem_mul.mp hpower with ⟨sign, hsign, digits, hdigits, rfl⟩
    rcases mem_oneOf.mp hletter with ⟨b, hb, rfl⟩
    rcases mem_digits.mp hdigits with ⟨hne, hall⟩
    exact ⟨⟨b, sign, digits⟩, ⟨by simpa using hb, mem_sign.mp hsign, hall, hne⟩, rfl⟩
  · rintro ⟨e, he, rfl⟩
    exact ⟨[e.letter], mem_oneOf.mpr ⟨e.letter, by simpa using he.letter, rfl⟩,
      e.sign ++ e.digits, Language.mem_mul.mpr ⟨e.sign, mem_sign.mpr he.sign, e.digits,
        mem_digits.mpr ⟨he.nonempty, he.digits⟩, rfl⟩, rfl⟩

theorem mem_optional_exponent :
    w ∈ (optional exponent).matches' ↔
      ∃ e : Option Exponent, (∀ x ∈ e, x.Formed) ∧ w = exponentText e := by
  rw [mem_optional, mem_exponent]
  constructor
  · rintro (rfl | ⟨e, he, rfl⟩)
    · exact ⟨none, fun x hx => (by cases hx), rfl⟩
    · exact ⟨some e, fun x hx => Option.some.inj hx ▸ he, rfl⟩
  · rintro ⟨e, he, rfl⟩
    cases e with
    | none => exact Or.inl rfl
    | some e => exact Or.inr ⟨e, he e rfl, rfl⟩

theorem mem_numeral : w ∈ numeral.matches' ↔ ∃ n : Numeral, n.Formed ∧ n.text = w := by
  rw [numeral, matches'_mul, matches'_mul, Language.mem_mul]
  constructor
  · rintro ⟨sign, hsign, tail, htail, rfl⟩
    rcases Language.mem_mul.mp htail with ⟨number, hnumber, power, hpower, rfl⟩
    rcases mem_significand.mp hnumber with ⟨whole, fraction, hwhole, hfraction, hne, rfl⟩
    rcases mem_optional_exponent.mp hpower with ⟨e, he, rfl⟩
    refine ⟨⟨sign, whole, fraction, e⟩, ⟨mem_sign.mp hsign, hwhole, hfraction, hne, he⟩, ?_⟩
    rw [text_eq, List.append_assoc]
  · rintro ⟨n, hn, rfl⟩
    have hnumber : n.whole ++ pointText n.fraction ∈ significand.matches' :=
      mem_significand.mpr ⟨n.whole, n.fraction, hn.whole, hn.fraction, hn.nonempty, rfl⟩
    have hpower : exponentText n.exponent ∈ (optional exponent).matches' :=
      mem_optional_exponent.mpr ⟨n.exponent, hn.exponent, rfl⟩
    refine ⟨n.sign, mem_sign.mpr hn.sign, _, Language.mem_mul.mpr ⟨_, hnumber, _, hpower, rfl⟩, ?_⟩
    rw [text_eq, List.append_assoc]

end Grammar

/-!
## Longest match

A numeral that the text behind it does not stop can be made longer: a digit goes into its last
part, and a fraction or an exponent goes to a numeral that has none.
-/

/-- The longest word of a language that stands in front of the text. -/
structure LongestMatch (l : Language UInt8) (w text : Bytes) : Prop where
  mem : w ∈ l
  front : w <+: text
  longest : ∀ v ∈ l, v <+: text → v <+: w

theorem forall_mem_concat {ds : Bytes} {d : UInt8} (hds : ∀ b ∈ ds, isDigit b = true)
    (hd : isDigit d = true) : ∀ b ∈ ds ++ [d], isDigit b = true := by
  intro b hb
  rcases List.mem_append.mp hb with hb | hb
  · exact hds b hb
  · exact List.mem_singleton.mp hb ▸ hd

theorem Formed.exists_concat {m : Numeral} (hm : m.Formed) {d : UInt8} (hd : isDigit d = true) :
    ∃ n : Numeral, n.Formed ∧ n.text = m.text ++ [d] := by
  rcases m with ⟨sign, whole, fraction, exponent⟩
  cases exponent with
  | some e =>
      have he := hm.exponent e rfl
      refine ⟨⟨sign, whole, fraction, some ⟨e.letter, e.sign, e.digits ++ [d]⟩⟩,
        ⟨hm.sign, hm.whole, hm.fraction, hm.nonempty, ?_⟩, ?_⟩
      · rintro x ⟨⟩
        exact ⟨he.letter, he.sign, forall_mem_concat he.digits hd, by simp⟩
      · simp [text, Exponent.text]
  | none =>
      by_cases hf : fraction = []
      · refine ⟨⟨sign, whole ++ [d], [], none⟩,
          ⟨hm.sign, forall_mem_concat hm.whole hd, List.forall_mem_nil _, Or.inl (by simp),
            hm.exponent⟩, ?_⟩
        simp [text, hf]
      · refine ⟨⟨sign, whole, fraction ++ [d], none⟩,
          ⟨hm.sign, hm.whole, forall_mem_concat hm.fraction hd, Or.inr (by simp),
            hm.exponent⟩, ?_⟩
        simp [text, hf]

theorem Formed.exists_append_fraction {m : Numeral} (hm : m.Formed) (hf : m.fraction = [])
    (he : m.exponent = none) {rest : Bytes} (hne : (scanFraction rest).1 ≠ []) :
    ∃ n : Numeral, n.Formed ∧ n.text ++ (scanFraction rest).2 = m.text ++ rest := by
  refine ⟨{ m with fraction := (scanFraction rest).1 },
    ⟨hm.sign, hm.whole, scanFraction_formed rest, Or.inr hne, hm.exponent⟩, ?_⟩
  simp only [text_eq, hf, he, pointText_nil, exponentText_none, List.append_nil,
    List.append_assoc, scanFraction_append]

theorem Formed.exists_append_exponent {m : Numeral} (hm : m.Formed) (he : m.exponent = none)
    {rest : Bytes} {e : Exponent} (hscan : (scanExponent rest).1 = some e) :
    ∃ n : Numeral, n.Formed ∧ n.text ++ (scanExponent rest).2 = m.text ++ rest := by
  have happend := scanExponent_append rest
  rw [hscan] at happend
  refine ⟨{ m with exponent := some e },
    ⟨hm.sign, hm.whole, hm.fraction, hm.nonempty, ?_⟩, ?_⟩
  · rintro x ⟨⟩
    exact scanExponent_formed hscan
  · simp only [text_eq, he, exponentText_none, List.append_nil, List.append_assoc, happend]

theorem length_scanExponent_lt {rest : Bytes} {e : Exponent}
    (hscan : (scanExponent rest).1 = some e) :
    (scanExponent rest).2.length < rest.length := by
  have hlength := congrArg List.length (scanExponent_append rest)
  rw [hscan, List.length_append] at hlength
  have hpositive : 0 < (exponentText (some e)).length := Nat.zero_lt_succ _
  omega

theorem Formed.exists_longer {m : Numeral} (hm : m.Formed) {rest : Bytes}
    (hstops : ¬ m.Stops rest) :
    ∃ (n : Numeral) (rest' : Bytes), n.Formed ∧ n.text ++ rest' = m.text ++ rest ∧
      rest'.length < rest.length := by
  by_cases hdigit : beginsWith isDigit rest = true
  · cases rest with
    | nil => cases hdigit
    | cons d rest =>
        rcases hm.exists_concat hdigit with ⟨n, hn, htext⟩
        refine ⟨n, rest, hn, ?_, Nat.lt_succ_self _⟩
        rw [htext, List.append_assoc, List.singleton_append]
  rw [Bool.not_eq_true] at hdigit
  by_cases hfraction : m.fraction = [] ∧ m.exponent = none ∧ (scanFraction rest).1 ≠ []
  · rcases hfraction with ⟨hf, he, hne⟩
    rcases hm.exists_append_fraction hf he hne with ⟨n, hn, htext⟩
    exact ⟨n, _, hn, htext, length_scanFraction_lt hne⟩
  by_cases hexponent : m.exponent = none ∧ (scanExponent rest).1 ≠ none
  · rcases hexponent with ⟨he, hsome⟩
    rcases Option.ne_none_iff_exists'.mp hsome with ⟨e, hscan⟩
    rcases hm.exists_append_exponent he hscan with ⟨n, hn, htext⟩
    exact ⟨n, _, hn, htext, length_scanExponent_lt hscan⟩
  · have hf : m.fraction = [] → m.exponent = none → (scanFraction rest).1 = [] :=
      fun hnil hnone => Classical.not_not.mp fun hne => hfraction ⟨hnil, hnone, hne⟩
    have he : m.exponent = none → (scanExponent rest).1 = none :=
      fun hnone => Classical.not_not.mp fun hne => hexponent ⟨hnone, hne⟩
    exact absurd ⟨hdigit, hf, he⟩ hstops

/-- Scanning goes at least as far as any numeral in front. -/
theorem exists_scan?_of_formed {m : Numeral} (hm : m.Formed) (rest : Bytes) :
    ∃ n after, scan? (m.text ++ rest) = some (n, after) ∧ after.length ≤ rest.length := by
  induction hlength : rest.length using Nat.strongRecOn generalizing m rest with
  | ind k ih =>
      subst hlength
      by_cases hstops : m.Stops rest
      · exact ⟨m, rest, scan?_text_append hm hstops, Nat.le_refl _⟩
      · rcases hm.exists_longer hstops with ⟨n, rest', hn, htext, hlt⟩
        rcases ih rest'.length hlt hn rest' rfl with ⟨n', after, hscan, hle⟩
        exact ⟨n', after, htext ▸ hscan, hle.trans hlt.le⟩

theorem longest_of_scan? {text after : Bytes} {n : Numeral} (h : scan? text = some (n, after)) :
    LongestMatch Grammar.numeral.matches' n.text text := by
  rcases formed_of_scan? h with ⟨hn, rfl, -⟩
  refine ⟨Grammar.mem_numeral.mpr ⟨n, hn, rfl⟩, List.prefix_append n.text after, ?_⟩
  rintro v hv ⟨rest, hrest⟩
  rcases Grammar.mem_numeral.mp hv with ⟨m, hm, rfl⟩
  rcases exists_scan?_of_formed hm rest with ⟨n', after', hscan, hle⟩
  rw [hrest, h] at hscan
  cases hscan
  have hlength := congrArg List.length hrest
  simp only [List.length_append] at hlength
  exact List.prefix_of_prefix_length_le ⟨rest, hrest⟩ (List.prefix_append _ _) (by omega)

theorem isSome_scan?_iff {text : Bytes} :
    (scan? text).isSome = true ↔ ∃ w ∈ Grammar.numeral.matches', w <+: text := by
  constructor
  · intro h
    rcases Option.isSome_iff_exists.mp h with ⟨⟨n, after⟩, hscan⟩
    have hlongest := longest_of_scan? hscan
    exact ⟨n.text, hlongest.mem, hlongest.front⟩
  · rintro ⟨w, hw, rest, rfl⟩
    rcases Grammar.mem_numeral.mp hw with ⟨m, hm, rfl⟩
    rcases exists_scan?_of_formed hm rest with ⟨n, after, hscan, -⟩
    rw [hscan]
    rfl

end Numeral
end CssText
