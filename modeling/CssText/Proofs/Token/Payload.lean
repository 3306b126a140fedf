import CssText.Proofs.Token.RoundTrip

/-!
# Payloads are written and read back

A token that stands alone is printed so that its payload comes back whatever bytes are in it:
names and units need a byte and no zero byte, addresses no zero byte, and strings nothing at
all (`tokenize_toCss`). Nothing follows the token here, so all that could run on into its text
is its own payload, and of those only the name `url` in front of a parenthesis does.
-/

namespace CssText
namespace Token

/-- The text of the token holds that token and then ends. -/
def Restored (t : Token) : Prop :=
  (Lexeme.tokens (tokenize t.toCss) == [t, {}]) = true

theorem Formed.restored {t : Token} (ht : Formed t) (hc : Clear t []) : Restored t := by
  have hreads := ht.reads_toCss hc
  rw [List.append_nil] at hreads
  have hself : (t == t) = true := hreads.same_self
  have hend : (({} : Token) == {}) = true := by decide
  rw [Restored, Lexeme.tokens_tokenize, hreads.ofText_eq, ofText_nil, List.singleton_append,
    List.cons_beq_cons, hself]
  exact hend

/-!
## Names

The name `url` is no name of a function here: before a parenthesis it begins an address.
-/

variable {name : Bytes}

theorem restored_ident (hne : name ≠ []) (h0 : 0 ∉ name) : Restored (plain .ident name) := by
  apply (Formed.name rfl hne h0).restored
  constructor
  · rfl
  · constructor
    · rintro ⟨⟩
    · rintro _ ⟨⟩

theorem restored_atKeyword (hne : name ≠ []) (h0 : 0 ∉ name) :
    Restored (plain .atKeyword name) :=
  (Formed.name rfl hne h0).restored rfl

theorem restored_hash (hne : name ≠ []) (h0 : 0 ∉ name) : Restored (plain .hash name) :=
  (Formed.name rfl hne h0).restored rfl

theorem restored_function (hne : name ≠ []) (h0 : 0 ∉ name)
    (hurl : lowerCase name ≠ ascii "url") : Restored (plain .function name) := by
  apply (Formed.name rfl hne h0).restored
  show callsUrl name [] = false
  rw [callsUrl, decide_eq_false hurl]
  rfl

/-!
## Numbers with units

A unit of one letter is no exponent, since no digit follows it.
-/

def ofMeasure (n : Numeral) (unit : Bytes) : Token :=
  { kind := .dimension, value := n.text ++ unit, number := n.value, unit,
    isInteger := n.isInteger }

theorem scan?_text {n : Numeral} (hn : n.Formed) : Numeral.scan? n.text = some (n, []) := by
  have hstops : n.Stops [] := ⟨rfl, fun _ _ => rfl, fun _ => rfl⟩
  have hscan := Numeral.scan?_text_append hn hstops
  rw [List.append_nil] at hscan
  exact hscan

theorem scanExponent_singleton (b : UInt8) : (Numeral.scanExponent [b]).1 = none :=
  scanExponent_eq_none rfl fun _ _ h => absurd h (List.cons_ne_nil _ _).symm

theorem restored_dimension {n : Numeral} {unit : Bytes} (hn : n.Formed) (hne : unit ≠ [])
    (h0 : 0 ∉ unit) : Restored (ofMeasure n unit) := by
  apply (Formed.dimension hn hne h0).restored
  constructor
  · rfl
  · intro hlength _
    rcases List.length_eq_one_iff.mp hlength with ⟨b, hb⟩
    rw [List.append_nil, hb]
    exact scanExponent_singleton b

/-!
## All payloads
-/

/-- Whatever a token holds, its text is read as this token and nothing else. -/
theorem tokenize_toCss :
    (∀ name : Bytes, name ≠ [] → 0 ∉ name →
      Restored (plain .ident name) ∧ Restored (plain .atKeyword name) ∧
        Restored (plain .hash name) ∧
        (lowerCase name ≠ ascii "url" → Restored (plain .function name))) ∧
      (∀ value : Bytes, Restored (plain .string value)) ∧
      (∀ value : Bytes, 0 ∉ value → Restored (plain .url value)) ∧
      ∀ (n : Numeral) (unit : Bytes), n.Formed → unit ≠ [] → 0 ∉ unit →
        Numeral.scan? n.text = some (n, []) ∧ Restored (ofMeasure n unit) := by
  refine ⟨?_, ?_, ?_, ?_⟩
  · intro name hne h0
    exact ⟨restored_ident hne h0, restored_atKeyword hne h0, restored_hash hne h0,
      restored_function hne h0⟩
  · intro value
    exact (Formed.string value).restored trivial
  · intro value h0
    exact (Formed.url h0).restored trivial
  · intro n unit hn hne h0
    exact ⟨scan?_text hn, restored_dimension hn hne h0⟩

/-- A hyphen before a digit, a newline, a quotation mark and a byte outside ASCII. -/
def awkwardName : Bytes :=
  [0x2D, 0x37, 0x0A, 0x22, 0xFF]

def halfMillion : Numeral :=
  { sign := [], whole := [], fraction := ascii "5", exponent := some ⟨0x65, [], ascii "6"⟩ }

theorem formed_halfMillion : halfMillion.Formed := by
  constructor
  · exact Or.inl rfl
  · exact List.all_eq_true.mp rfl
  · exact List.all_eq_true.mp (by decide)
  · exact Or.inr (by decide)
  · rintro e ⟨⟩
    exact ⟨Or.inl rfl, Or.inl rfl, List.all_eq_true.mp (by decide), by decide⟩

theorem tokenize_toCss_awkward :
    (awkwardName ≠ [] ∧ 0 ∉ awkwardName ∧ lowerCase awkwardName ≠ ascii "url" ∧
        Restored (plain .function awkwardName) ∧ Restored (plain .url awkwardName)) ∧
      halfMillion.Formed ∧ ascii "e-3" ≠ [] ∧ 0 ∉ ascii "e-3" ∧
      Restored (ofMeasure halfMillion (ascii "e-3")) := by
  have hne : awkwardName ≠ [] := by decide
  have h0 : 0 ∉ awkwardName := by decide
  have hurl : lowerCase awkwardName ≠ ascii "url" := by decide +kernel
  have hunit : ascii "e-3" ≠ [] := by decide +kernel
  have hunit0 : 0 ∉ ascii "e-3" := by decide +kernel
  rcases tokenize_toCss with ⟨hnames, -, hurls, hunits⟩
  exact ⟨⟨hne, h0, hurl, (hnames awkwardName hne h0).2.2.2 hurl, hurls awkwardName h0⟩,
    formed_halfMillion, hunit, hunit0,
    (hunits halfMillion (ascii "e-3") formed_halfMillion hunit hunit0).2⟩

end Token
end CssText
