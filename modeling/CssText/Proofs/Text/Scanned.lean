import CssText.Proofs.Text.Utf8
import CssText.Proofs.Token.Source
import CssText.Proofs.Token.Tiling
import Mathlib.Data.List.TakeWhile

/-!
# Scanning cuts no character

Scanners look at single bytes, and an escape takes only the first byte of a character that
stands for itself. `Whole` says what they keep all the same: the bytes of a character that
has been begun are completed in the payload, and what is left begins with a character. So
the tokens of a well-formed text have well-formed payloads and stand between its characters
(`encoded_tokenize`).
-/

namespace CssText

open Utf8 (Valid valid_of_isAscii)

theorem byte_spec : ∀ b : UInt8, b < 0x80 ∨
    isNameStart b = true ∧ isBlank b = false ∧ isHexDigit b = false ∧ isControl b = false ∧
      Token.isQuote b = false ∧ Token.punctuation? b = none ∧
      Token.matchOperator? b [Byte.equals] = none :=
  forall_byte (by decide +kernel)

theorem lt_of_not_isNameStart {b : UInt8} (h : isNameStart b = false) : b < 0x80 := by
  rcases byte_spec b with hb | hb
  · exact hb
  · rw [hb.1] at h
    cases h

theorem lt_of_not_isNameByte {b : UInt8} (h : isNameByte b = false) : b < 0x80 := by
  rw [isNameByte, Bool.or_eq_false_iff, Bool.or_eq_false_iff] at h
  exact lt_of_not_isNameStart h.1.1

theorem lt_of_isBlank {b : UInt8} (h : isBlank b = true) : b < 0x80 := by
  rcases byte_spec b with hb | ⟨-, hb, -⟩
  · exact hb
  · rw [hb] at h
    cases h

theorem lt_of_isHexDigit {b : UInt8} (h : isHexDigit b = true) : b < 0x80 := by
  rcases byte_spec b with hb | ⟨-, -, hb, -⟩
  · exact hb
  · rw [hb] at h
    cases h

theorem lt_of_isDigit {b : UInt8} (h : isDigit b = true) : b < 0x80 := by
  apply lt_of_isHexDigit
  rw [isHexDigit, h]
  rfl

theorem lt_of_isControl {b : UInt8} (h : isControl b = true) : b < 0x80 := by
  rcases byte_spec b with hb | ⟨-, -, -, hb, -⟩
  · exact hb
  · rw [hb] at h
    cases h

theorem lt_of_isQuote {b : UInt8} (h : Token.isQuote b = true) : b < 0x80 := by
  rcases byte_spec b with hb | ⟨-, -, -, -, hb, -⟩
  · exact hb
  · rw [hb] at h
    cases h

theorem lt_of_punctuation {b : UInt8} {kind : Kind} (h : Token.punctuation? b = some kind) :
    b < 0x80 := by
  rcases byte_spec b with hb | ⟨-, -, -, -, -, hb, -⟩
  · exact hb
  · rw [hb] at h
    cases h

theorem lt_of_operator {b : UInt8} {kind : Kind}
    (h : Token.matchOperator? b [Byte.equals] = some kind) : b < 0x80 := by
  rcases byte_spec b with hb | ⟨-, -, -, -, -, -, hb⟩
  · exact hb
  · rw [hb] at h
    cases h

theorem isAscii_of_mem {p : UInt8 → Bool} (hp : ∀ {b}, p b = true → b < 0x80) {bs : Bytes}
    (h : ∀ b ∈ bs, p b = true) : Utf8.isAscii bs = true := by
  rw [Utf8.isAscii, List.all_eq_true]
  intro b hb
  exact decide_eq_true (hp (h b hb))

namespace Escape

theorem valid_dropBlank {bs : Bytes} (h : Valid bs) : Valid (dropBlank bs) := by
  cases bs with
  | nil => exact h
  | cons b bs =>
      rw [dropBlank]
      split
      · rename_i hb
        exact h.of_cons (lt_of_isBlank hb)
      · exact h

theorem valid_read {bs : Bytes} (h : Valid bs) : Valid ((read bs).1 ++ (read bs).2) := by
  cases bs with
  | nil => exact Utf8.valid_replacement.append Utf8.valid_nil
  | cons b bs =>
      rw [read]
      split
      · rename_i hb
        apply (Utf8.valid_encode _).append
        apply valid_dropBlank
        have hmore : (bs.take 5).takeWhile isHexDigit <+: bs :=
          (List.takeWhile_prefix _).trans (List.take_prefix 5 bs)
        rcases hmore with ⟨rest, hrest⟩
        have hascii : Utf8.isAscii ((bs.take 5).takeWhile isHexDigit) = true :=
          isAscii_of_mem lt_of_isHexDigit fun c hc => List.mem_takeWhile_imp hc
        generalize (bs.take 5).takeWhile isHexDigit = more at hrest hascii ⊢
        subst hrest
        rw [List.drop_left]
        exact (h.of_cons (lt_of_isHexDigit hb)).of_isAscii_append hascii
      · exact h

end Escape

namespace Token

/--
Of the text `bs` the payload `out` has been read and `rest` has been left. The characters that
were begun with the bytes `p` before are whole again in the payload.
-/
def Whole (bs out rest : Bytes) : Prop :=
  ∀ p, Valid (p ++ bs) → Valid (p ++ out) ∧ Valid rest

section

variable {b : UInt8} {bs out rest : Bytes}

theorem Whole.valid (h : Whole bs out rest) (hbs : Valid bs) : Valid out ∧ Valid rest :=
  h [] hbs

theorem whole_stop (h : beginsWith Utf8.isContinuation bs = false) : Whole bs [] bs := by
  intro p hp
  rw [List.append_nil]
  exact hp.of_append h

theorem whole_nil : Whole [] [] [] :=
  whole_stop rfl

theorem Whole.keep (b : UInt8) (h : Whole bs out rest) : Whole (b :: bs) (b :: out) rest := by
  intro p hp
  rw [List.append_cons] at hp ⊢
  exact h (p ++ [b]) hp

theorem Whole.drop (hb : b < 0x80) (h : Whole bs out rest) : Whole (b :: bs) out rest := by
  intro p hp
  rcases hp.of_middle hb with ⟨hbefore, hbs⟩
  rcases h.valid hbs with ⟨hout, hrest⟩
  exact ⟨hbefore.append hout, hrest⟩

/-- A byte that ends the payload and is no part of it. -/
theorem whole_close (hb : b < 0x80) (bs : Bytes) : Whole (b :: bs) [] bs := by
  intro p hp
  rw [List.append_nil]
  exact hp.of_middle hb

theorem Whole.escape (h : Whole (Escape.read bs).2 out rest) :
    Whole (Byte.backslash :: bs) ((Escape.read bs).1 ++ out) rest := by
  intro p hp
  rcases hp.of_middle (b := Byte.backslash) (by decide) with ⟨hbefore, hbs⟩
  rcases h (Escape.read bs).1 (Escape.valid_read hbs) with ⟨hout, hrest⟩
  exact ⟨hbefore.append hout, hrest⟩

end

/-!
## Names, comments and strings
-/

theorem eq_backslash_of_starts {b : UInt8} {bs : Bytes} (h : Escape.starts (b :: bs) = true) :
    b = Byte.backslash := by
  rw [Escape.starts_cons, Bool.and_eq_true, decide_eq_true_eq] at h
  exact h.1

theorem scanName_whole (bs : Bytes) : Whole bs (scanName bs).1 (scanName bs).2 := by
  fun_induction scanName bs with
  | case1 => exact whole_nil
  | case2 b bs hb name ih => exact ih.keep b
  | case3 b bs hb hs escape name ih =>
      obtain rfl := eq_backslash_of_starts hs
      exact ih.escape
  | case4 b bs hb hs =>
      rw [Bool.not_eq_true] at hb
      exact whole_stop (Utf8.not_isContinuation_of_lt (lt_of_not_isNameByte hb))

theorem scanComment_whole (bs : Bytes) : Whole bs (scanComment bs).1 (scanComment bs).2 := by
  fun_induction scanComment bs with
  | case1 => exact whole_nil
  | case2 b => exact whole_nil.keep b
  | case3 b c bs h =>
      rw [Bool.and_eq_true, decide_eq_true_eq, decide_eq_true_eq] at h
      rw [h.1, h.2]
      exact (whole_close (by decide) bs).drop (by decide)
  | case4 b c bs h comment ih => exact ih.keep b

theorem scanString_whole {quote : UInt8} (hq : quote < 0x80) (bs : Bytes) :
    Whole bs (scanString quote bs).1.value (scanString quote bs).2 := by
  fun_induction scanString quote bs with
  | case1 => exact whole_nil
  | case2 bs => exact whole_close hq bs
  | case3 bs h => exact whole_stop rfl
  | case4 h h' => exact whole_nil.drop (by decide)
  | case5 cs h h' ih => exact (ih.drop (by decide)).drop (by decide)
  | case6 c cs hc escape string h h' ih => exact ih.escape
  | case7 b bs h h' h'' string ih => exact ih.keep b

/-!
## Addresses

The bytes of an address count up to the byte that decided, whether they are kept or not.
-/

theorem valid_skipBlanks {bs : Bytes} (h : Valid bs) : Valid (skipBlanks bs) := by
  have hblanks : Utf8.isAscii (bs.takeWhile isBlank) = true :=
    isAscii_of_mem lt_of_isBlank fun b hb => List.mem_takeWhile_imp hb
  have hsplit : bs.takeWhile isBlank ++ skipBlanks bs = bs := List.takeWhile_append_dropWhile
  rw [← hsplit] at h
  exact h.of_isAscii_append hblanks

theorem whole_blank {b : UInt8} (hb : isBlank b = true) (bs : Bytes) :
    Whole (b :: bs) [] (skipBlanks bs) := by
  intro p hp
  rcases hp.of_middle (lt_of_isBlank hb) with ⟨hbefore, hbs⟩
  rw [List.append_nil]
  exact ⟨hbefore, valid_skipBlanks hbs⟩

theorem Whole.trans_nil {bs mid out rest : Bytes} (h : Whole bs [] mid) (h' : Whole mid out rest) :
    Whole bs out rest := by
  intro p hp
  rcases h p hp with ⟨hbefore, hmid⟩
  rcases h'.valid hmid with ⟨hout, hrest⟩
  rw [List.append_nil] at hbefore
  exact ⟨hbefore.append hout, hrest⟩

/-- The bytes of an address up to the byte that decided, whether they are kept or not. -/
theorem scanAddress_whole (bs : Bytes) :
    ∃ value, Whole bs value (scanAddress bs).2 ∧ ∀ kept ∈ (scanAddress bs).1, kept = value := by
  have hnone (value : Bytes) : ∀ kept ∈ (none : Option Bytes), kept = value := by
    intro kept h
    cases h
  fun_induction scanAddress bs with
  | case1 => exact ⟨[], whole_nil, hnone []⟩
  | case2 bs =>
      refine ⟨[], whole_close (by decide) bs, ?_⟩
      rintro _ ⟨⟩
      rfl
  | case3 b bs hb hblank hs => exact ⟨[], hs ▸ whole_blank hblank bs, hnone []⟩
  | case4 b bs hb hblank cs hs =>
      have hwhole := whole_blank hblank bs
      rw [hs] at hwhole
      refine ⟨[], hwhole.trans_nil (whole_close (by decide) cs), ?_⟩
      rintro _ ⟨⟩
      rfl
  | case5 b bs hb hblank c cs hs hc => exact ⟨[], hs ▸ whole_blank hblank bs, hnone []⟩
  | case6 b bs hb hblank hq =>
      have hlt : b < 0x80 := by
        simp only [Bool.or_eq_true, decide_eq_true_eq] at hq
        rcases hq with ((rfl | rfl) | rfl) | hq
        · decide
        · decide
        · decide
        · exact lt_of_isControl hq
      exact ⟨[], whole_close hlt bs, hnone []⟩
  | case7 hb hblank hq => exact ⟨[], whole_nil.drop (by decide), hnone []⟩
  | case8 cs hb hblank hq => exact ⟨[], (whole_stop rfl).drop (by decide), hnone []⟩
  | case9 c cs hc escape address hb hblank hq ih =>
      rcases ih with ⟨value, hwhole, hvalue⟩
      refine ⟨escape.1 ++ value, hwhole.escape, ?_⟩
      intro kept hkept
      rcases Option.map_eq_some_iff.mp hkept with ⟨more, hmore, rfl⟩
      rw [hvalue more hmore]
  | case10 b bs hb hblank hq hs address ih =>
      rcases ih with ⟨value, hwhole, hvalue⟩
      refine ⟨b :: value, hwhole.keep b, ?_⟩
      intro kept hkept
      rcases Option.map_eq_some_iff.mp hkept with ⟨more, hmore, rfl⟩
      rw [hvalue more hmore]

theorem skipRemnants_whole (bs : Bytes) : ∃ skipped, Whole bs skipped (skipRemnants bs) := by
  fun_induction skipRemnants bs with
  | case1 => exact ⟨[], whole_nil⟩
  | case2 b => exact ⟨[b], whole_nil.keep b⟩
  | case3 c bs => exact ⟨[], whole_close (by decide) (c :: bs)⟩
  | case4 b c bs h h' ih =>
      rcases ih with ⟨skipped, hwhole⟩
      exact ⟨b :: c :: skipped, (hwhole.keep c).keep b⟩
  | case5 b c bs h h' ih =>
      rcases ih with ⟨skipped, hwhole⟩
      exact ⟨b :: skipped, hwhole.keep b⟩

end Token

/-!
## Escaped payloads
-/

namespace Escape

theorem written_spec : ∀ b : UInt8, Utf8.isAscii (hex b) = true ∧
    if b < 0x80 then
      Utf8.isAscii (nameByte b) = true ∧ Utf8.isAscii (stringByte b) = true ∧
        Utf8.isAscii (urlByte b) = true
    else nameByte b = [b] ∧ stringByte b = [b] ∧ urlByte b = [b] :=
  forall_byte (by decide +kernel)

theorem valid_hex (b : UInt8) : Valid (hex b) :=
  valid_of_isAscii (written_spec b).1

theorem written_of_lt {b : UInt8} (hb : b < 0x80) : Utf8.isAscii (nameByte b) = true ∧
    Utf8.isAscii (stringByte b) = true ∧ Utf8.isAscii (urlByte b) = true := by
  have hspec := (written_spec b).2
  rw [if_pos hb] at hspec
  exact hspec

theorem written_of_not_lt {b : UInt8} (hb : ¬ b < 0x80) :
    nameByte b = [b] ∧ stringByte b = [b] ∧ urlByte b = [b] := by
  have hspec := (written_spec b).2
  rw [if_neg hb] at hspec
  exact hspec

section

variable {bs : Bytes} (h : Valid bs)
include h

theorem valid_name : Valid (name bs) :=
  h.flatMap (fun _ hb => (written_of_not_lt hb).1) fun _ hb =>
    valid_of_isAscii (written_of_lt hb).1

theorem valid_string : Valid (string bs) :=
  h.flatMap (fun _ hb => (written_of_not_lt hb).2.1) fun _ hb =>
    valid_of_isAscii (written_of_lt hb).2.1

theorem valid_url : Valid (url bs) :=
  h.flatMap (fun _ hb => (written_of_not_lt hb).2.2) fun _ hb =>
    valid_of_isAscii (written_of_lt hb).2.2

theorem valid_identifier : Valid (identifier bs) := by
  have hname := valid_name h
  unfold identifier
  split
  · exact Utf8.valid_nil
  · rename_i b
    split
    · exact valid_hex b
    · split
      · rename_i hb
        rw [hb]
        exact valid_of_isAscii (by decide)
      · rw [name, List.flatMap_singleton] at hname
        exact hname
  · rename_i b c bs
    split
    · rename_i hdigit
      exact (valid_hex b).append (valid_name (h.of_cons (lt_of_isDigit hdigit)))
    · split
      · rename_i hhyphen
        rw [Bool.and_eq_true, decide_eq_true_eq] at hhyphen
        have hb : b < 0x80 := by
          rw [hhyphen.1]
          decide
        have hrest := (h.of_cons hb).of_cons (lt_of_isDigit hhyphen.2)
        exact ((valid_hex c).append (valid_name hrest)).cons hb
      · exact hname

theorem valid_unit : Valid (unit bs) := by
  unfold unit
  split
  · exact Utf8.valid_nil
  · rename_i b rest
    split
    · rename_i hlooks
      have hb : b < 0x80 := by
        cases rest with
        | nil => cases hlooks
        | cons c rest =>
            simp only [looksLikeExponent, Bool.and_eq_true, Bool.or_eq_true,
              decide_eq_true_eq] at hlooks
            rcases hlooks.1 with rfl | rfl <;> decide
      exact (valid_hex b).append (valid_name (h.of_cons hb))
    · exact valid_identifier h

end

end Escape

/-!
## Tokens
-/

theorem Numeral.Formed.isAscii_text {n : Numeral} (hn : n.Formed) :
    Utf8.isAscii n.text = true := by
  rw [Utf8.isAscii, List.all_eq_true]
  intro b hb
  apply decide_eq_true
  rcases hn.mem_text hb with hdigit | rfl | rfl | ⟨rfl, -⟩ | ⟨e, he, rfl⟩
  · exact lt_of_isDigit hdigit
  · decide
  · decide
  · decide
  · rcases (hn.exponent e he).letter with h | h <;> rw [h] <;> decide

namespace Token

structure Encoded (t : Token) : Prop where
  value : Valid t.value
  unit : Valid t.unit
  css : Valid t.toCss

theorem encoded_plain (kind : Kind) {value : Bytes} (h : Valid value) :
    Encoded (plain kind value) where
  value := h
  unit := Utf8.valid_nil
  css := by
    cases kind with
    | ident => exact Escape.valid_identifier h
    | function => exact (Escape.valid_identifier h).append (valid_of_isAscii (by decide))
    | atKeyword => exact (Escape.valid_identifier h).cons (by decide)
    | hash => exact (Escape.valid_name h).cons (by decide)
    | string =>
        exact ((Escape.valid_string h).cons (by decide)).append (valid_of_isAscii (by decide))
    | badString => exact (Escape.valid_string h).cons (by decide)
    | url =>
        exact ((valid_of_isAscii (by decide)).append (Escape.valid_url h)).append
          (valid_of_isAscii (by decide))
    | badUrl | number | percentage | whitespace | delim => exact h
    | dimension =>
        have hvalue : (plain .dimension value).numberText = value := List.take_length
        rw [toCss, hvalue]
        exact h.append Utf8.valid_nil
    | comment =>
        exact ((valid_of_isAscii (by decide)).append h).append (valid_of_isAscii (by decide))
    | _ => exact valid_of_isAscii rfl

theorem Stray.lt {b : UInt8} {bs : Bytes} (h : Stray b bs) : b < 0x80 := by
  have hstart := h.identifier
  rw [startsIdentifier, Bool.or_eq_false_iff, Bool.or_eq_false_iff] at hstart
  exact lt_of_not_isNameStart hstart.1.1

/-- The token at the front of a well-formed text is well-formed, and so is what it leaves. -/
theorem Reads.encoded {text rest : Bytes} {t : Token} (h : Reads text t rest)
    (htext : Valid text) : Encoded t ∧ Valid rest := by
  have hname {bs name rest : Bytes} (hn : scanName bs = (name, rest)) (hbs : Valid bs) :
      Valid name ∧ Valid rest := by
    have hwhole := scanName_whole bs
    rw [hn] at hwhole
    exact hwhole.valid hbs
  have hnumeral {bs rest : Bytes} {n : Numeral} (hn : Numeral.scan? bs = some (n, rest))
      (hbs : Valid bs) : Valid n.text ∧ Valid rest := by
    rcases Numeral.formed_of_scan? hn with ⟨hformed, rfl, -⟩
    exact ⟨valid_of_isAscii hformed.isAscii_text,
      hbs.of_isAscii_append hformed.isAscii_text⟩
  cases h with
  | @whitespace b bs hb =>
      have hrest := valid_skipBlanks (htext.of_cons (lt_of_isBlank hb))
      have hsplit : b :: bs = b :: bs.takeWhile isBlank ++ skipBlanks bs :=
        congrArg (b :: ·) List.takeWhile_append_dropWhile.symm
      rw [hsplit] at htext
      exact ⟨encoded_plain _ (htext.of_append_left hrest), hrest⟩
  | @comment bs value rest hc =>
      have hwhole := scanComment_whole bs
      rw [hc] at hwhole
      rcases hwhole.valid ((htext.of_cons (by decide)).of_cons (by decide)) with ⟨hvalue, hrest⟩
      exact ⟨encoded_plain _ hvalue, hrest⟩
  | @string quote bs value rest hq hs | @badString quote bs value rest hq hs =>
      have hlt := lt_of_isQuote hq
      have hwhole := scanString_whole hlt bs
      rw [hs] at hwhole
      rcases hwhole.valid (htext.of_cons hlt) with ⟨hvalue, hrest⟩
      exact ⟨encoded_plain _ hvalue, hrest⟩
  | hash hc hn =>
      rcases hname hn (htext.of_cons (by decide)) with ⟨hvalue, hrest⟩
      exact ⟨encoded_plain _ hvalue, hrest⟩
  | atKeyword hs hn =>
      rcases hname hn (htext.of_cons (by decide)) with ⟨hvalue, hrest⟩
      exact ⟨encoded_plain _ hvalue, hrest⟩
  | @punctuation b bs kind hp =>
      have hlt := lt_of_punctuation hp
      exact ⟨encoded_plain _ (Utf8.valid_byte hlt), htext.of_cons hlt⟩
  | @operator b bs kind ho =>
      have hoperator : matchOperator? b [Byte.equals] = some kind := ho
      have hlt := lt_of_operator hoperator
      exact ⟨encoded_plain _ ((Utf8.valid_byte (by decide)).cons hlt),
        (htext.of_cons hlt).of_cons (by decide)⟩
  | number hn hs hp =>
      rcases hnumeral hn htext with ⟨hvalue, hrest⟩
      exact ⟨⟨hvalue, Utf8.valid_nil, hvalue⟩, hrest⟩
  | percentage hn =>
      rcases hnumeral hn htext with ⟨hvalue, hrest⟩
      have hpercent := hvalue.append (Utf8.valid_byte (b := Byte.percent) (by decide))
      exact ⟨⟨hpercent, Utf8.valid_nil, hpercent⟩, hrest.of_cons (by decide)⟩
  | dimension hn hs hu =>
      rcases hnumeral hn htext with ⟨hvalue, hafter⟩
      rcases hname hu hafter with ⟨hunit, hrest⟩
      refine ⟨⟨hvalue.append hunit, hunit, ?_⟩, hrest⟩
      rw [toCss, numberText_dimension]
      exact hvalue.append (Escape.valid_unit hunit)
  | cdc => exact ⟨encoded_plain _ (valid_of_isAscii (by decide)),
      ((htext.of_cons (by decide)).of_cons (by decide)).of_cons (by decide)⟩
  | cdo => exact ⟨encoded_plain _ (valid_of_isAscii (by decide)),
      (((htext.of_cons (by decide)).of_cons (by decide)).of_cons (by decide)).of_cons (by decide)⟩
  | ident hs hc hn hp =>
      rcases hname hn htext with ⟨hvalue, hrest⟩
      exact ⟨encoded_plain _ hvalue, hrest⟩
  | function hs hn hu =>
      rcases hname hn htext with ⟨hvalue, hrest⟩
      exact ⟨encoded_plain _ hvalue, hrest.of_cons (by decide)⟩
  | url hs hn hu ha =>
      rcases hname hn htext with ⟨-, hinside⟩
      rcases scanAddress_whole (skipBlanks _) with ⟨value, hwhole, hkept⟩
      rw [ha] at hwhole hkept
      obtain rfl := hkept _ rfl
      rcases hwhole.valid (valid_skipBlanks (hinside.of_cons (by decide))) with ⟨hvalue, hrest⟩
      exact ⟨encoded_plain _ hvalue, hrest⟩
  | @badUrl bs name inside after hs hn hu ha =>
      rcases hname hn htext with ⟨-, hinside⟩
      rcases scanAddress_whole (skipBlanks inside) with ⟨value, hwhole, -⟩
      rw [ha] at hwhole
      have hafter := (hwhole.valid (valid_skipBlanks (hinside.of_cons (by decide)))).2
      rcases skipRemnants_whole after with ⟨skipped, hskipped⟩
      have hrest := (hskipped.valid hafter).2
      rcases reads_badUrl hs hn hu ha with ⟨w, rfl, -⟩
      rw [upTo_append]
      exact ⟨encoded_plain _ (htext.of_append_left hrest), hrest⟩
  | delim hb => exact ⟨encoded_plain _ (Utf8.valid_byte hb.lt), htext.of_cons hb.lt⟩

theorem isAscii_name (kind : Kind) : Utf8.isAscii kind.name = true := by
  cases kind <;> decide

theorem Encoded.describe {t : Token} (h : Encoded t) : Valid t.describe := by
  have hquoted : Valid (t.kind.name ++ [Byte.space, Byte.doubleQuote] ++ t.value ++
      [Byte.doubleQuote]) :=
    (((valid_of_isAscii (isAscii_name t.kind)).append
      (valid_of_isAscii (by decide))).append h.value).append
        (valid_of_isAscii (by decide))
  have hmark : Valid (Byte.singleQuote :: t.toCss ++ [Byte.singleQuote]) :=
    (h.css.cons (by decide)).append (valid_of_isAscii (by decide))
  unfold Token.describe
  split
  · exact valid_of_isAscii (isAscii_name t.kind)
  · exact valid_of_isAscii (isAscii_name t.kind)
  all_goals first
    | exact hquoted
    | exact hmark

end Token

/-!
## Places
-/

namespace Cursor

theorem encoded_between {read rest : Bytes} (hread : Valid read) (hrest : Valid rest) :
    ∀ l ∈ (between read rest).lexemes, l.toToken.Encoded ∧
      Utf8.IsBoundary (read ++ rest) l.start ∧ Utf8.IsBoundary (read ++ rest) l.stop := by
  induction rest using Token.text_induction generalizing read with
  | nil =>
      intro l hl
      rw [lexemes_between_nil] at hl
      cases hl
  | reads w t rest h ih =>
      rcases h.encoded hrest with ⟨ht, hafter⟩
      have hw := hrest.of_append_left hafter
      intro l hl
      rw [lexemes_between h] at hl
      rcases List.mem_cons.mp hl with rfl | hl
      · refine ⟨ht, Utf8.isBoundary_length hread hrest, ?_⟩
        rw [← List.append_assoc]
        exact Utf8.isBoundary_length (hread.append hw) hafter
      · rw [← List.append_assoc]
        exact ih (hread.append hw) hafter l hl

end Cursor

/-- The tokens of a well-formed text are well-formed and stand between its characters. -/
theorem encoded_tokenize {css : Bytes} (h : Valid css) :
    ∀ l ∈ tokenize css, l.toToken.Encoded ∧
      Utf8.IsBoundary css l.start ∧ Utf8.IsBoundary css l.stop := by
  intro l hl
  rcases List.mem_append.mp hl with hl | hl
  · exact Cursor.encoded_between Utf8.valid_nil h l hl
  · rw [List.mem_singleton.mp hl]
    have hend := Utf8.isBoundary_length h Utf8.valid_nil
    rw [List.append_nil] at hend
    exact ⟨⟨Utf8.valid_nil, Utf8.valid_nil, Utf8.valid_nil⟩, hend, hend⟩

end CssText
