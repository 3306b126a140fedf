import CssText.Proofs.Number.Grammar
import CssText.Proofs.Token.Cut
import CssText.Proofs.Token.Unescaped

/-!
# Numbers in a text

A lexeme is a number, a percentage or a dimension exactly where a word of the regular
expression of numerals stands at its place, and it takes the longest such word. What follows
the word tells the three apart (`tokenize_numeric`).
-/

namespace CssText

namespace Token

/--
What a numeral and the text behind it make: a dimension where an identifier begins, else a
percentage where a percent sign stands, else a number. `rest` is left for the next token.
-/
structure Measures (t : Token) (n : Numeral) (after rest : Bytes) : Prop where
  number : t.number = n.value
  isInteger : t.isInteger = true ↔
    Byte.dot ∉ n.text ∧ Byte.lowerE ∉ n.text ∧ Byte.upperE ∉ n.text
  dimension : startsIdentifier after = true →
    t.kind = .dimension ∧ scanName after = (t.unit, rest) ∧ t.value = n.text ++ t.unit
  percentage : startsIdentifier after = false → after.head? = some Byte.percent →
    t.kind = .percentage ∧ after = Byte.percent :: rest ∧ t.value = n.text ++ [Byte.percent]
  plain : startsIdentifier after = false → after.head? ≠ some Byte.percent →
    t.kind = .number ∧ after = rest ∧ t.value = n.text

theorem Reads.scanNumeric_eq {text after rest : Bytes} {t : Token} {n : Numeral}
    (h : Reads text t rest) (hn : Numeral.scan? text = some (n, after)) :
    scanNumeric n after = (t, rest) := by
  rcases h.exists_cons with ⟨b, bs, rfl, hscan⟩
  rw [← hscan, scan_of_numeral hn]

theorem isNumeric_scanNumeric (n : Numeral) (after : Bytes) :
    (scanNumeric n after).1.kind.isNumeric = true := by
  rw [scanNumeric.eq_def]
  split
  · rfl
  · split
    · split
      · rfl
      · rfl
    · rfl

theorem measures_scanNumeric {n : Numeral} (hn : n.Formed) (after : Bytes) :
    Measures (scanNumeric n after).1 n after (scanNumeric n after).2 := by
  cases hs : startsIdentifier after with
  | true =>
      rw [scanNumeric.eq_def, if_pos hs]
      exact ⟨rfl, hn.isInteger_iff, fun _ => ⟨rfl, rfl, rfl⟩, by simp [hs], by simp [hs]⟩
  | false =>
      rw [scanNumeric.eq_def, if_neg (by simp [hs])]
      cases after with
      | nil => exact ⟨rfl, hn.isInteger_iff, by simp [hs], by simp, fun _ _ => ⟨rfl, rfl, rfl⟩⟩
      | cons b bs =>
          by_cases hb : b = Byte.percent
          · simp only [hb, if_true]
            exact ⟨rfl, hn.isInteger_iff, by simp [← hb, hs], fun _ _ => ⟨rfl, rfl, rfl⟩, by simp⟩
          · simp only [if_neg hb]
            exact ⟨rfl, hn.isInteger_iff, by simp [hs], by simp [hb],
              fun _ _ => ⟨rfl, rfl, rfl⟩⟩

theorem Reads.isNumeric_iff {text rest : Bytes} {t : Token} (h : Reads text t rest) :
    t.kind.isNumeric = true ↔ ∃ w ∈ Numeral.Grammar.numeral.matches', w <+: text := by
  rw [← Numeral.isSome_scan?_iff, Option.isSome_iff_exists]
  constructor
  · intro ht
    rcases h.exists_numeral ht with ⟨n, after, -, hn, -⟩
    exact ⟨(n, after), hn⟩
  · rintro ⟨⟨n, after⟩, hn⟩
    have hkind := isNumeric_scanNumeric n after
    rw [h.scanNumeric_eq hn] at hkind
    exact hkind

theorem Reads.exists_measures {text rest : Bytes} {t : Token} (h : Reads text t rest)
    (ht : t.kind.isNumeric = true) :
    ∃ n after, n.Formed ∧ text = n.text ++ after ∧
      Numeral.LongestMatch Numeral.Grammar.numeral.matches' n.text text ∧
        Measures t n after rest := by
  rcases h.exists_numeral ht with ⟨n, after, -, hn, -⟩
  rcases Numeral.formed_of_scan? hn with ⟨hformed, htext, -⟩
  have hmeasures := measures_scanNumeric hformed after
  rw [h.scanNumeric_eq hn] at hmeasures
  exact ⟨n, after, hformed, htext, Numeral.longest_of_scan? hn, hmeasures⟩

end Token

namespace Lexeme

theorem reads_of_mem {css : Bytes} {l : Lexeme} (h : l ∈ ofText css) :
    Token.Reads (css.drop l.start) l.toToken (css.drop l.stop) := by
  rcases List.append_of_mem h with ⟨us, vs, hrun⟩
  have hwhole : (Cursor.between [] css).lexemes = us ++ l :: vs := hrun
  rcases Cursor.exists_cut hwhole with ⟨p, q, rfl, hq, -⟩
  have hne : q ≠ [] := by
    rintro rfl
    rw [Cursor.lexemes_between_nil] at hq
    cases hq
  rcases Token.exists_reads hne with ⟨w, t, rest, rfl, hreads⟩
  rw [List.nil_append, Cursor.lexemes_between hreads] at hq
  rcases List.cons.inj hq with ⟨rfl, -⟩
  rw [List.drop_left, ← List.append_assoc, List.drop_left]
  exact hreads

end Lexeme

/--
A token is numeric exactly where a numeral stands at its place. It takes the longest one, and
what follows decides whether it is a dimension, a percentage or a number.
-/
theorem tokenize_numeric (css : Bytes) :
    ∀ l ∈ tokenize css,
      (l.kind.isNumeric = true ↔
        ∃ w ∈ Numeral.Grammar.numeral.matches', w <+: css.drop l.start) ∧
      (l.kind.isNumeric = true →
        ∃ n after, n.Formed ∧ css.drop l.start = n.text ++ after ∧
          Numeral.LongestMatch Numeral.Grammar.numeral.matches' n.text (css.drop l.start) ∧
          Token.Measures l.toToken n after (css.drop l.stop)) := by
  intro l hl
  rcases List.mem_append.mp hl with hl | hl
  · have hreads := Lexeme.reads_of_mem hl
    exact ⟨hreads.isNumeric_iff, hreads.exists_measures⟩
  · rw [List.mem_singleton.mp hl]
    have hkind : ¬ (Lexeme.endOf css).kind.isNumeric = true := Bool.false_ne_true
    refine ⟨⟨fun h => absurd h hkind, ?_⟩, fun h => absurd h hkind⟩
    rintro ⟨w, hw, hfront⟩
    rcases Numeral.Grammar.mem_numeral.mp hw with ⟨n, hn, rfl⟩
    rw [show css.drop (Lexeme.endOf css).start = [] from List.drop_length, List.prefix_nil] at hfront
    exact absurd hfront hn.text_ne_nil

def signedMeasure : Lexeme :=
  { kind := .dimension, value := ascii "+.5e-3x", number := ⟨0x3F40624DD2F1A9FC⟩,
    unit := ascii "x", stop := 7 }

theorem tokenize_numeric_signed :
    signedMeasure ∈ tokenize (ascii "+.5e-3x") ∧ signedMeasure.kind.isNumeric = true ∧
      (∃ w ∈ Numeral.Grammar.numeral.matches', w <+: ascii "+.5e-3x") ∧
      ∃ n after, n.Formed ∧ ascii "+.5e-3x" = n.text ++ after ∧
        Numeral.LongestMatch Numeral.Grammar.numeral.matches' n.text (ascii "+.5e-3x") ∧
        Token.Measures signedMeasure.toToken n after [] := by
  have hhead : (tokenize (ascii "+.5e-3x")).head? = some signedMeasure := by decide +kernel
  have hmem := List.mem_of_mem_head? hhead
  rcases tokenize_numeric _ signedMeasure hmem with ⟨hiff, hmeasures⟩
  exact ⟨hmem, rfl, hiff.mp rfl, hmeasures rfl⟩

/-- A point and an exponent letter are left to the next token unless digits follow. -/
example : (tokenize (ascii "1.e5 1e+ 1..5")).map (fun l => (l.kind, l.value)) =
    [(.number, ascii "1"), (.delim, ascii "."), (.ident, ascii "e5"), (.whitespace, ascii " "),
      (.dimension, ascii "1e"), (.delim, ascii "+"), (.whitespace, ascii " "),
      (.number, ascii "1"), (.delim, ascii "."), (.number, ascii ".5"), (.endOfInput, [])] := by
  decide +kernel

end CssText
