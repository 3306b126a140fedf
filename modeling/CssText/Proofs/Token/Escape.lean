import CssText.Proofs.Bytes
import CssText.Token.Scan

/-!
# Escapes are read back

What an escaper writes for one byte, the matching scanner reads as that byte and goes on
behind it. `Spells` says so for names; whole names, strings and addresses follow byte by
byte.
-/

namespace CssText
namespace Escape

/-!
## One escape

The space that closes a hexadecimal escape ends its digits and is taken with them.
-/

theorem starts_cons (b : UInt8) (bs : Bytes) :
    starts (b :: bs) =
      (b = Byte.backslash && beginsWith (fun c => c ≠ Byte.newline && c ≠ 0) bs) := by
  cases bs with
  | nil => simp [starts]
  | cons c cs => simp [starts, Bool.and_assoc]

@[simp] theorem starts_nil : starts [] = false :=
  rfl

theorem digit_spec : ∀ n : Nat, n < 16 →
    isHexDigit (hexDigits.digit n) = true ∧ hexDigitValue (hexDigits.digit n) = n := by
  decide

theorem read_digits {d : UInt8} {ds : Bytes} (hd : isHexDigit d = true)
    (hds : ∀ c ∈ ds, isHexDigit c = true) (hlen : ds.length ≤ 4) (rest : Bytes) :
    read (d :: ds ++ Byte.space :: rest) = (Utf8.encode (hexValue (d :: ds)), rest) := by
  have htake : ((ds ++ Byte.space :: rest).take 5).takeWhile isHexDigit = ds := by
    obtain ⟨k, hk⟩ : ∃ k, 5 - ds.length = k + 1 := ⟨4 - ds.length, by omega⟩
    rw [List.take_append, List.take_of_length_le (by omega), hk, List.take_succ_cons]
    exact takeWhile_append_stop hds rfl
  simp [read, hd, htake, dropBlank, isBlank]

theorem encode_byte {b : UInt8} (h0 : b ≠ 0) (h : b < 0x80) : Utf8.encode b.toNat = [b] := by
  have hlt : b.toNat < 0x80 := h
  have hne : b.toNat ≠ 0 := fun h => h0 (UInt8.toNat_inj.mp h)
  have hscalar : Utf8.isScalar b.toNat = true := by
    simp only [Utf8.isScalar, Bool.or_eq_true, decide_eq_true_eq]
    omega
  simp [Utf8.encode, Utf8.encodeScalar, hne, hscalar, hlt]

/-- Reading a hexadecimal escape, its backslash taken. -/
theorem read_hexDigits {b : UInt8} (h0 : b ≠ 0) (h : b < 0x80) (rest : Bytes) :
    read (hexDigits b ++ Byte.space :: rest) = ([b], rest) := by
  have hb := UInt8.toNat_lt b
  obtain ⟨hhigh, hhighValue⟩ := digit_spec (b.toNat / 16) (by omega)
  obtain ⟨hlow, hlowValue⟩ := digit_spec (b.toNat % 16) (by omega)
  unfold hexDigits
  split
  · rename_i hsmall
    have hmod : b.toNat % 16 = b.toNat := Nat.mod_eq_of_lt hsmall
    rw [hmod] at hlow hlowValue
    rw [read_digits hlow (by simp) (by simp)]
    simp [hexValue, hlowValue, encode_byte h0 h]
  · rw [read_digits hhigh (by simpa using hlow) (by simp)]
    have hvalue : b.toNat / 16 * 16 + b.toNat % 16 = b.toNat := by omega
    simp [hexValue, hhighValue, hlowValue, hvalue, encode_byte h0 h]

theorem read_cons {b : UInt8} (h : isHexDigit b = false) (rest : Bytes) :
    read (b :: rest) = ([b], rest) := by
  simp [read, h]

theorem hex_append (b : UInt8) (rest : Bytes) :
    hex b ++ rest = Byte.backslash :: (hexDigits b ++ Byte.space :: rest) := by
  simp [hex]

theorem beginsWith_hexDigits {f : UInt8 → Bool} (hf : ∀ d, isHexDigit d = true → f d = true)
    (b : UInt8) (rest : Bytes) : beginsWith f (hexDigits b ++ rest) = true := by
  have hb := UInt8.toNat_lt b
  unfold hexDigits
  split
  · rename_i hsmall
    exact hf _ (digit_spec b.toNat hsmall).1
  · exact hf _ (digit_spec (b.toNat / 16) (by omega)).1

theorem ne_of_isHexDigit {d : UInt8} (hd : isHexDigit d = true) : d ≠ Byte.newline ∧ d ≠ 0 := by
  constructor
  · grind [isHexDigit, isDigit]
  · grind [isHexDigit, isDigit]

theorem not_newline_hexDigits (b : UInt8) (rest : Bytes) :
    beginsWith (fun c => c ≠ Byte.newline) (hexDigits b ++ rest) = true :=
  beginsWith_hexDigits (fun _ hd => decide_eq_true (ne_of_isHexDigit hd).1) b rest

theorem starts_hex (b : UInt8) (rest : Bytes) : starts (hex b ++ rest) = true := by
  rw [hex_append, starts_cons, decide_eq_true rfl, Bool.true_and]
  refine beginsWith_hexDigits (fun d hd => ?_) b _
  simp [ne_of_isHexDigit hd]

end Escape

namespace Token

/-!
## Names
-/

/-- A name in progress goes on: a name byte or an escape stands in front. -/
def continuesName (bs : Bytes) : Bool :=
  beginsWith isNameByte bs || Escape.starts bs

theorem continuesName_cons {b : UInt8} (hn : isNameByte b = false) (hb : b ≠ Byte.backslash)
    (bs : Bytes) : continuesName (b :: bs) = false := by
  simp [continuesName, Escape.starts_cons, hn, hb]

theorem scanName_eq_self {bs : Bytes} (h : continuesName bs = false) :
    scanName bs = ([], bs) := by
  cases bs with
  | nil => rw [scanName]
  | cons b bs =>
      simp only [continuesName, beginsWith_cons, Bool.or_eq_false_iff] at h
      rw [scanName, h.1, h.2]
      rfl

theorem scanName_nameByte {b : UInt8} (hb : isNameByte b = true) (bs : Bytes) :
    scanName (b :: bs) = (b :: (scanName bs).1, (scanName bs).2) := by
  rw [scanName, if_pos hb]

theorem scanName_escape {b : UInt8} {bs : Bytes} (hb : isNameByte b = false)
    (hs : Escape.starts (b :: bs) = true) :
    scanName (b :: bs) =
      ((Escape.read bs).1 ++ (scanName (Escape.read bs).2).1,
        (scanName (Escape.read bs).2).2) := by
  rw [scanName, if_neg (by simp [hb]), if_pos hs]

theorem continuesName_scanName (bs : Bytes) : continuesName (scanName bs).2 = false := by
  fun_induction scanName bs with
  | case1 => rfl
  | case2 b bs hb name ih => exact ih
  | case3 b bs hb hs escape name ih => exact ih
  | case4 b bs hb hs => simp [continuesName, hb, hs]

theorem continuesName_of_startsIdentifier {bs : Bytes} (h : startsIdentifier bs = true) :
    continuesName bs = true := by
  cases bs with
  | nil => cases h
  | cons b bs =>
      simp only [startsIdentifier, Bool.or_eq_true] at h
      rw [continuesName, beginsWith_cons, Bool.or_eq_true]
      rcases h with (h | h) | h
      · exact Or.inl (by simp [isNameByte, h])
      · exact Or.inr h
      · simp only [Bool.and_eq_true, decide_eq_true_eq] at h
        exact Or.inl (by simp [isNameByte, h.1])

/-- The text `w` in a name stands for the bytes `n`. -/
def Spells (w n : Bytes) : Prop :=
  ∀ rest, scanName (w ++ rest) = (n ++ (scanName rest).1, (scanName rest).2)

theorem spells_nil : Spells [] [] := by
  intro rest
  rfl

theorem Spells.append {w v n m : Bytes} (hw : Spells w n) (hv : Spells v m) :
    Spells (w ++ v) (n ++ m) := by
  intro rest
  rw [List.append_assoc, hw, hv, List.append_assoc]

theorem spells_nameByte {b : UInt8} (h : isNameByte b = true) : Spells [b] [b] := by
  intro rest
  rw [List.singleton_append, scanName, if_pos h]
  rfl

theorem isNameByte_backslash : isNameByte Byte.backslash = false :=
  rfl

theorem spells_escape {w : Bytes} {b : UInt8}
    (hs : ∀ rest, Escape.starts (Byte.backslash :: w ++ rest) = true)
    (hr : ∀ rest, Escape.read (w ++ rest) = ([b], rest)) : Spells (Byte.backslash :: w) [b] := by
  intro rest
  have hstarts := hs rest
  rw [List.cons_append] at hstarts ⊢
  rw [scanName, isNameByte_backslash]
  simp [hstarts, hr]

theorem spells_hex {b : UInt8} (h0 : b ≠ 0) (h : b < 0x80) : Spells (Escape.hex b) [b] := by
  apply spells_escape
  · intro rest
    exact Escape.starts_hex b rest
  · intro rest
    simpa using Escape.read_hexDigits h0 h rest

theorem spells_backslash {b : UInt8} (h0 : b ≠ 0) (hn : b ≠ Byte.newline)
    (hx : isHexDigit b = false) : Spells [Byte.backslash, b] [b] := by
  apply spells_escape
  · intro rest
    simp [Escape.starts_cons, h0, hn]
  · intro rest
    exact Escape.read_cons hx rest

theorem spells_escapedByte {b : UInt8} (h0 : b ≠ 0) : Spells (Escape.nameByte b) [b] := by
  unfold Escape.nameByte
  split
  · rename_i h
    exact spells_nameByte h
  · rename_i hname
    split
    · rename_i h
      apply spells_hex h0
      grind [isControl, isBlank]
    · rename_i h
      apply spells_backslash h0
      · grind [isControl]
      · grind [isNameByte, isNameStart, isHexDigit, isDigit, isUpper, isLower]

theorem spells_name {n : Bytes} (h0 : 0 ∉ n) : Spells (Escape.name n) n := by
  induction n with
  | nil => exact spells_nil
  | cons b n ih =>
      rw [List.mem_cons, not_or] at h0
      exact (spells_escapedByte (Ne.symm h0.1)).append (ih h0.2)

theorem spells_identifier {n : Bytes} (h0 : 0 ∉ n) : Spells (Escape.identifier n) n := by
  match n with
  | [] => exact spells_nil
  | [b] =>
      have hb : b ≠ 0 := fun h => h0 (by simp [h])
      rw [Escape.identifier]
      split
      · exact spells_hex hb (by grind [isDigit])
      split
      · rename_i h
        subst h
        exact spells_backslash hb (by decide) rfl
      · exact spells_escapedByte hb
  | b :: c :: n =>
      have hb : b ≠ 0 := fun h => h0 (by simp [h])
      have hc : c ≠ 0 := fun h => h0 (by simp [h])
      have hn : 0 ∉ n := fun h => h0 (by simp [h])
      have hcn : 0 ∉ c :: n := fun h => h0 (List.mem_cons_of_mem b h)
      rw [Escape.identifier]
      split
      · exact (spells_hex hb (by grind [isDigit])).append (spells_name hcn)
      split
      · rename_i h
        simp only [Bool.and_eq_true, decide_eq_true_eq] at h
        have hhyphen : Spells [b] [b] := spells_nameByte (by simp [isNameByte, h.1])
        exact hhyphen.append ((spells_hex hc (by grind [isDigit])).append (spells_name hn))
      · exact (spells_escapedByte hb).append (spells_name hcn)

theorem spells_unit {u : Bytes} (h0 : 0 ∉ u) : Spells (Escape.unit u) u := by
  unfold Escape.unit
  split
  · exact spells_nil
  · rename_i b rest
    split
    · rename_i h
      have hb : b ≠ 0 := fun h => h0 (by simp [h])
      have hrest : 0 ∉ rest := fun h => h0 (List.mem_cons_of_mem b h)
      have hletter : b < 0x80 := by
        unfold Escape.looksLikeExponent at h
        grind
      exact (spells_hex hb hletter).append (spells_name hrest)
    · exact spells_identifier h0

theorem Spells.scanName_append {w n rest : Bytes} (hw : Spells w n)
    (hr : continuesName rest = false) : scanName (w ++ rest) = (n, rest) := by
  rw [hw, scanName_eq_self hr, List.append_nil]

/-!
## Identifiers begin as identifiers
-/

theorem startsIdentifier_of_starts {bs : Bytes} (h : Escape.starts bs = true) :
    startsIdentifier bs = true := by
  cases bs with
  | nil => cases h
  | cons b bs => simp [startsIdentifier, h]

theorem starts_nameByte {b : UInt8} (h0 : b ≠ 0) (h : isNameByte b = false) (rest : Bytes) :
    Escape.starts (Escape.nameByte b ++ rest) = true := by
  rw [Escape.nameByte, h]
  simp only [Bool.false_eq_true, if_false]
  split
  · exact Escape.starts_hex b rest
  · have hnewline : b ≠ Byte.newline := by
      grind [isControl]
    simp [Escape.starts_cons, h0, hnewline]

theorem startsIdentifier_nameByte {b : UInt8} (h0 : b ≠ 0) (hd : isDigit b = false)
    (hh : b ≠ Byte.hyphen) (rest : Bytes) :
    startsIdentifier (Escape.nameByte b ++ rest) = true := by
  by_cases hb : isNameByte b = true
  · have hstart : isNameStart b = true := by
      simpa [isNameByte, hd, hh] using hb
    simp [Escape.nameByte, hb, startsIdentifier, hstart]
  · exact startsIdentifier_of_starts (starts_nameByte h0 (by simpa using hb) rest)

theorem startsIdentifier_hyphen {c : UInt8} (h0 : c ≠ 0) (hd : isDigit c = false)
    (rest : Bytes) :
    startsIdentifier (Byte.hyphen :: (Escape.nameByte c ++ rest)) = true := by
  by_cases hc : isNameByte c = true
  · have hstart : isNameStart c = true ∨ c = Byte.hyphen := by
      simpa [isNameByte, hd] using hc
    rcases hstart with h | h
    · simp [Escape.nameByte, hc, startsIdentifier, h]
    · subst h
      simp [Escape.nameByte, isNameByte, startsIdentifier]
  · have := starts_nameByte h0 (by simpa using hc) rest
    simp [startsIdentifier, this]

theorem startsIdentifier_identifier {n : Bytes} (hne : n ≠ []) (h0 : 0 ∉ n) (rest : Bytes) :
    startsIdentifier (Escape.identifier n ++ rest) = true := by
  match n with
  | [] => exact absurd rfl hne
  | [b] =>
      have hb : b ≠ 0 := fun h => h0 (by simp [h])
      rw [Escape.identifier]
      split
      · exact startsIdentifier_of_starts (Escape.starts_hex b rest)
      rename_i hdigit
      split
      · rename_i h
        subst h
        exact startsIdentifier_of_starts rfl
      rename_i hhyphen
      exact startsIdentifier_nameByte hb (by simpa using hdigit) hhyphen rest
  | b :: c :: n =>
      have hb : b ≠ 0 := fun h => h0 (by simp [h])
      have hc : c ≠ 0 := fun h => h0 (by simp [h])
      rw [Escape.identifier]
      split
      · rw [List.append_assoc]
        exact startsIdentifier_of_starts (Escape.starts_hex b _)
      rename_i hdigit
      split
      · rename_i h
        simp only [Bool.and_eq_true, decide_eq_true_eq] at h
        have := Escape.starts_hex c (Escape.name n ++ rest)
        simp [startsIdentifier, h.1, this]
      rename_i h
      rw [List.append_assoc]
      by_cases hh : b = Byte.hyphen
      · subst hh
        have hcdigit : isDigit c = false := by
          simpa using h
        simpa [Escape.name, Escape.nameByte, isNameByte] using
          startsIdentifier_hyphen hc hcdigit (Escape.name n ++ rest)
      · exact startsIdentifier_nameByte hb (by simpa using hdigit) hh _

/-!
## Comments
-/

theorem scanComment_close (bs : Bytes) :
    scanComment (Byte.asterisk :: Byte.slash :: bs) = ([], bs) := by
  simp [scanComment]

theorem scanComment_byte {b c : UInt8} (h : ¬ (b = Byte.asterisk ∧ c = Byte.slash)) (bs : Bytes) :
    scanComment (b :: c :: bs) = (b :: (scanComment (c :: bs)).1, (scanComment (c :: bs)).2) := by
  rw [scanComment, if_neg (by simpa using h)]

/-!
## Strings
-/

theorem scanString_quote (quote : UInt8) (bs : Bytes) :
    scanString quote (quote :: bs) = (plain .string [], bs) := by
  rw [scanString.eq_def]
  simp

theorem scanString_newline {quote : UInt8} (hq : quote ≠ Byte.newline) (bs : Bytes) :
    scanString quote (Byte.newline :: bs) = (plain .badString [], Byte.newline :: bs) := by
  rw [scanString.eq_def]
  simp [Ne.symm hq]

theorem scanString_escape {quote : UInt8} {bs : Bytes} (hq : quote ≠ Byte.backslash)
    (hbs : beginsWith (fun c => c ≠ Byte.newline) bs = true) :
    scanString quote (Byte.backslash :: bs) =
      ({ (scanString quote (Escape.read bs).2).1 with
          value := (Escape.read bs).1 ++ (scanString quote (Escape.read bs).2).1.value },
        (scanString quote (Escape.read bs).2).2) := by
  cases bs with
  | nil => cases hbs
  | cons c cs =>
      rw [beginsWith_cons, decide_eq_true_eq] at hbs
      rw [scanString.eq_def]
      simp [Ne.symm hq, hbs, show Byte.backslash ≠ Byte.newline by decide]

theorem scanString_continued {quote : UInt8} (hq : quote ≠ Byte.backslash) (cs : Bytes) :
    scanString quote (Byte.backslash :: Byte.newline :: cs) = scanString quote cs := by
  rw [scanString.eq_def]
  simp [Ne.symm hq, show Byte.backslash ≠ Byte.newline by decide]

theorem scanString_byte {quote b : UInt8} (hq : b ≠ quote) (hn : b ≠ Byte.newline)
    (hb : b ≠ Byte.backslash) (bs : Bytes) :
    scanString quote (b :: bs) =
      ({ (scanString quote bs).1 with value := b :: (scanString quote bs).1.value },
        (scanString quote bs).2) := by
  rw [scanString.eq_def]
  simp [hq, hn, hb]

theorem scanString_stringByte (b : UInt8) (rest : Bytes) :
    scanString Byte.doubleQuote (Escape.stringByte b ++ rest) =
      ({ (scanString Byte.doubleQuote rest).1 with
          value := b :: (scanString Byte.doubleQuote rest).1.value },
        (scanString Byte.doubleQuote rest).2) := by
  unfold Escape.stringByte
  split
  · rename_i h
    have hne : b ≠ Byte.newline := by
      grind
    have hx : isHexDigit b = false := by
      grind [isHexDigit, isDigit]
    rw [List.cons_append, List.singleton_append, scanString_escape (by decide) (by simpa using hne),
      Escape.read_cons hx]
    rfl
  split
  · rename_i h
    rw [Escape.hex_append, scanString_escape (by decide) (Escape.not_newline_hexDigits b _),
      Escape.read_hexDigits (by grind) (by grind)]
    rfl
  · rename_i hspecial hblank
    simp only [Bool.or_eq_true, decide_eq_true_eq, not_or] at hspecial hblank
    exact scanString_byte hspecial.1 hblank.1.1 hspecial.2 rest

theorem scanString_string (value rest : Bytes) :
    scanString Byte.doubleQuote (Escape.string value ++ rest) =
      ({ (scanString Byte.doubleQuote rest).1 with
          value := value ++ (scanString Byte.doubleQuote rest).1.value },
        (scanString Byte.doubleQuote rest).2) := by
  induction value with
  | nil => rfl
  | cons b value ih =>
      have hcons : Escape.string (b :: value) = Escape.stringByte b ++ Escape.string value := rfl
      rw [hcons, List.append_assoc, scanString_stringByte, ih]
      rfl

theorem scanString_closed (value rest : Bytes) :
    scanString Byte.doubleQuote (Escape.string value ++ Byte.doubleQuote :: rest) =
      (plain .string value, rest) := by
  rw [scanString_string, scanString_quote]
  simp [plain]

theorem scanString_broken (value : Bytes) {rest : Bytes}
    (hr : rest = [] ∨ ∃ bs, rest = Byte.newline :: bs) :
    scanString Byte.doubleQuote (Escape.string value ++ rest) = (plain .badString value, rest) := by
  rw [scanString_string]
  rcases hr with rfl | ⟨bs, rfl⟩
  · rw [scanString.eq_def]
    simp [plain]
  · rw [scanString_newline (by decide)]
    simp [plain]

/-!
## Addresses
-/

theorem scanAddress_rightParen (bs : Bytes) :
    scanAddress (Byte.rightParen :: bs) = (some [], bs) := by
  rw [scanAddress.eq_def]
  simp

theorem scanAddress_blank {b : UInt8} (hb : isBlank b = true) (bs : Bytes) :
    scanAddress (b :: bs) =
      match skipBlanks bs with
      | [] => (none, [])
      | c :: cs => if c = Byte.rightParen then (some [], cs) else (none, c :: cs) := by
  have hparen : b ≠ Byte.rightParen := by
    rintro rfl
    cases hb
  rw [scanAddress.eq_def]
  exact (if_neg hparen).trans (if_pos hb)

/-- The bytes that break an address off. -/
def breaksAddress (b : UInt8) : Bool :=
  !isBlank b &&
    (b = Byte.doubleQuote || b = Byte.singleQuote || b = Byte.leftParen || isControl b)

theorem scanAddress_broken {b : UInt8} (hb : breaksAddress b = true) (bs : Bytes) :
    scanAddress (b :: bs) = (none, bs) := by
  simp only [breaksAddress, Bool.and_eq_true, Bool.not_eq_true'] at hb
  have hparen : b ≠ Byte.rightParen := by
    rintro rfl
    exact Bool.noConfusion hb.2
  rw [scanAddress.eq_def]
  dsimp only
  rw [if_neg hparen, if_neg (by simp [hb.1]), if_pos hb.2]

theorem scanAddress_newline (bs : Bytes) :
    scanAddress (Byte.backslash :: Byte.newline :: bs) = (none, Byte.newline :: bs) := by
  rw [scanAddress.eq_def]
  dsimp only
  rw [if_neg (by decide), if_neg (by decide), if_neg (by decide), if_pos rfl, if_pos rfl]

theorem scanAddress_escape {bs : Bytes}
    (hbs : beginsWith (fun c => c ≠ Byte.newline) bs = true) :
    scanAddress (Byte.backslash :: bs) =
      ((scanAddress (Escape.read bs).2).1.map ((Escape.read bs).1 ++ ·),
        (scanAddress (Escape.read bs).2).2) := by
  cases bs with
  | nil => cases hbs
  | cons c cs =>
      rw [beginsWith_cons, decide_eq_true_eq] at hbs
      rw [scanAddress.eq_def]
      dsimp only
      rw [if_neg (by decide), if_neg (by decide), if_neg (by decide), if_pos rfl, if_neg hbs]

def isAddressByte (b : UInt8) : Bool :=
  !isBlank b && !isControl b && b != Byte.rightParen && b != Byte.doubleQuote &&
    b != Byte.singleQuote && b != Byte.leftParen && b != Byte.backslash

theorem scanAddress_byte {b : UInt8} (h : isAddressByte b = true) (bs : Bytes) :
    scanAddress (b :: bs) = ((scanAddress bs).1.map (b :: ·), (scanAddress bs).2) := by
  simp only [isAddressByte, Bool.and_eq_true, Bool.not_eq_true', bne_iff_ne] at h
  obtain ⟨⟨⟨⟨⟨⟨hblank, hcontrol⟩, hright⟩, hdouble⟩, hsingle⟩, hleft⟩, hback⟩ := h
  rw [scanAddress.eq_def]
  simp [hblank, hcontrol, hright, hdouble, hsingle, hleft, hback]

theorem scanAddress_urlByte {b : UInt8} (h0 : b ≠ 0) (rest : Bytes) :
    scanAddress (Escape.urlByte b ++ rest) =
      ((scanAddress rest).1.map (b :: ·), (scanAddress rest).2) := by
  unfold Escape.urlByte
  split
  · rename_i h
    rw [Escape.hex_append, scanAddress_escape (Escape.not_newline_hexDigits b _),
      Escape.read_hexDigits h0 (by grind [isBlank, isControl])]
    rfl
  rename_i hblank
  split
  · rename_i h
    have hne : b ≠ Byte.newline := by
      grind
    have hx : isHexDigit b = false := by
      grind [isHexDigit, isDigit]
    rw [List.cons_append, List.singleton_append, scanAddress_escape (by simpa using hne),
      Escape.read_cons hx]
    rfl
  · rename_i h
    apply scanAddress_byte
    simp_all [isAddressByte]

theorem scanAddress_url {value : Bytes} (h0 : 0 ∉ value) (rest : Bytes) :
    scanAddress (Escape.url value ++ Byte.rightParen :: rest) = (some value, rest) := by
  induction value with
  | nil => exact scanAddress_rightParen rest
  | cons b value ih =>
      rw [List.mem_cons, not_or] at h0
      have hcons : Escape.url (b :: value) = Escape.urlByte b ++ Escape.url value := rfl
      rw [hcons, List.append_assoc, scanAddress_urlByte (Ne.symm h0.1), ih h0.2]
      rfl

end Token
end CssText
