import CssText.Proofs.Token.Local
import Mathlib.Data.List.TakeWhile

/-!
# What scanning makes of a text

Every token that is read is formed, an unquoted address with a zero byte excepted
(`Reads.formed`). What follows a token in its own text is mostly clear of it as well; what
an escape in the text can still spoil is named in `Reads.clear`.
-/

namespace CssText

namespace Escape

theorem zero_ne_ofNat {n : Nat} (h0 : 0 < n) (h : n < 256) : (0 : UInt8) ≠ UInt8.ofNat n := by
  intro heq
  have hvalue := congrArg UInt8.toNat heq
  rw [UInt8.toNat_ofNat_of_lt' h] at hvalue
  exact absurd hvalue (Nat.ne_of_lt h0)

theorem zero_not_mem_encodeScalar {n : Nat} (h0 : n ≠ 0) (h : Utf8.isScalar n = true) :
    0 ∉ Utf8.encodeScalar n := by
  have hbound : n ≤ 0x10FFFF := by
    simp only [Utf8.isScalar, Bool.or_eq_true, Bool.and_eq_true, decide_eq_true_eq] at h
    omega
  unfold Utf8.encodeScalar
  split
  · rename_i hn
    simp only [List.mem_singleton]
    exact zero_ne_ofNat (by omega) (by omega)
  split
  · rename_i hn
    simp only [List.mem_cons, List.not_mem_nil, or_false, not_or]
    exact ⟨zero_ne_ofNat (by omega) (by omega), zero_ne_ofNat (by omega) (by omega)⟩
  split
  · rename_i hn
    simp only [List.mem_cons, List.not_mem_nil, or_false, not_or]
    exact ⟨zero_ne_ofNat (by omega) (by omega), zero_ne_ofNat (by omega) (by omega),
      zero_ne_ofNat (by omega) (by omega)⟩
  · simp only [List.mem_cons, List.not_mem_nil, or_false, not_or]
    exact ⟨zero_ne_ofNat (by omega) (by omega), zero_ne_ofNat (by omega) (by omega),
      zero_ne_ofNat (by omega) (by omega), zero_ne_ofNat (by omega) (by omega)⟩

theorem zero_not_mem_encode (n : Nat) : 0 ∉ Utf8.encode n := by
  unfold Utf8.encode
  split
  · decide
  · rename_i h
    simp only [Bool.or_eq_true, decide_eq_true_eq, Bool.not_eq_true', not_or,
      Bool.not_eq_false] at h
    exact zero_not_mem_encodeScalar h.1 h.2

theorem encode_ne_nil (n : Nat) : Utf8.encode n ≠ [] := by
  have hscalar : ∀ n, Utf8.encodeScalar n ≠ [] := by
    intro n
    unfold Utf8.encodeScalar
    split
    · simp
    split
    · simp
    split <;> simp
  unfold Utf8.encode
  split
  · exact hscalar _
  · exact hscalar n

theorem read_payload {b : UInt8} {bs : Bytes} (h : starts (b :: bs) = true) :
    0 ∉ (read bs).1 ∧ (read bs).1 ≠ [] := by
  cases bs with
  | nil =>
      rw [starts_cons] at h
      simp at h
  | cons c cs =>
      rw [read]
      split
      · exact ⟨zero_not_mem_encode _, encode_ne_nil _⟩
      · rw [starts_cons] at h
        simp only [beginsWith_cons, Bool.and_eq_true, decide_eq_true_eq] at h
        exact ⟨by simpa using Ne.symm h.2.2, by simp⟩

end Escape

namespace Token

theorem zero_not_mem_scanName (bs : Bytes) : 0 ∉ (scanName bs).1 := by
  fun_induction scanName bs with
  | case1 => simp
  | case2 b bs hb name ih =>
      have hne : (0 : UInt8) ≠ b := by
        rintro rfl
        cases hb
      simp only [List.mem_cons, not_or]
      exact ⟨hne, ih⟩
  | case3 b bs hb hs escape name ih =>
      rw [List.mem_append, not_or]
      exact ⟨(Escape.read_payload hs).1, ih⟩
  | case4 b bs hb hs => simp

theorem scanName_ne_nil {bs : Bytes} (h : continuesName bs = true) : (scanName bs).1 ≠ [] := by
  cases bs with
  | nil => cases h
  | cons b bs =>
      by_cases hb : isNameByte b = true
      · rw [scanName_nameByte hb]
        simp
      · rw [Bool.not_eq_true] at hb
        have hs : Escape.starts (b :: bs) = true := by
          simpa [continuesName, hb] using h
        rw [scanName_escape hb hs]
        intro hnil
        exact (Escape.read_payload hs).2 (List.append_eq_nil_iff.mp hnil).1

theorem name_of_scanName {bs name rest : Bytes} (hc : continuesName bs = true)
    (hn : scanName bs = (name, rest)) :
    name ≠ [] ∧ 0 ∉ name ∧ continuesName rest = false := by
  obtain ⟨rfl, rfl⟩ := Prod.mk.inj hn
  exact ⟨scanName_ne_nil hc, zero_not_mem_scanName bs, continuesName_scanName bs⟩

theorem head_scanComment {c d : UInt8} {bs value : Bytes}
    (h : (scanComment (c :: bs)).1 = d :: value) : d = c := by
  cases bs with
  | nil => exact (List.cons.inj h).1.symm
  | cons e bs =>
      by_cases hopen : c = Byte.asterisk ∧ e = Byte.slash
      · obtain ⟨rfl, rfl⟩ := hopen
        rw [scanComment_close] at h
        cases h
      · rw [scanComment_byte hopen] at h
        exact (List.cons.inj h).1.symm

theorem not_infix_scanComment (bs : Bytes) : ¬ ascii "*/" <:+: (scanComment bs).1 := by
  fun_induction scanComment bs with
  | case1 => decide
  | case2 b =>
      intro h
      have := h.length_le
      simp [ascii] at this
  | case3 b c bs h =>
      show ¬ ascii "*/" <:+: []
      decide
  | case4 b c bs hopen comment ih =>
      intro h
      rcases List.infix_cons_iff.mp h with hahead | hinside
      · obtain ⟨value, hvalue⟩ := hahead
        obtain ⟨rfl, hcomment⟩ := List.cons.inj hvalue
        obtain rfl := head_scanComment hcomment.symm
        exact hopen (by decide)
      · exact ih hinside

theorem rest_of_badString {quote : UInt8} {bs value rest : Bytes}
    (h : scanString quote bs = (plain .badString value, rest)) :
    rest = [] ∨ rest.head? = some Byte.newline := by
  obtain ⟨htoken, rfl⟩ := Prod.mk.inj h
  have hkind : (scanString quote bs).1.kind = .badString := by
    rw [htoken]
    rfl
  clear h htoken
  fun_induction scanString quote bs with
  | case1 => exact Or.inl rfl
  | case2 bs => cases hkind
  | case3 bs h => exact Or.inr rfl
  | case4 h h' => exact Or.inl rfl
  | case5 cs h h' ih => exact ih hkind
  | case6 c cs hc escape string h h' ih => exact ih hkind
  | case7 b bs h h' h'' string ih => exact ih hkind

/-- The raw text of a broken address is one by itself, and one before every text unless the
input ended first. -/
theorem reads_badUrl {bs name inside after : Bytes} (hs : startsIdentifier bs = true)
    (hn : scanName bs = (name, Byte.leftParen :: inside)) (hu : callsUrl name inside = true)
    (ha : scanAddress (skipBlanks inside) = (none, after)) :
    ∃ w, bs = w ++ skipRemnants after ∧ Reads w (plain .badUrl w) [] ∧
      (skipRemnants after = [] ∨ ∀ rest, Reads (w ++ rest) (plain .badUrl w) rest) := by
  by_cases hrest : skipRemnants after = []
  · have h := Reads.badUrl hs hn hu ha
    obtain ⟨w, hw⟩ := h.suffix
    rw [← hw, upTo_append, hrest, List.append_nil] at h
    exact ⟨w, hw.symm, h, Or.inl hrest⟩
  obtain ⟨r, hafter, hr⟩ := exists_skipRemnants rfl hrest
  generalize skipRemnants after = q at hafter ⊢
  subst hafter
  have hstop (rest : Bytes) : Shows (Byte.rightParen :: q) (Byte.rightParen :: rest) :=
    Shows.stop rfl q rest
  obtain ⟨v, rfl, -⟩ := (hstop q).exists_address ha
  rw [← List.cons_append] at hn
  have hname := scanName_suffix bs
  rw [hn] at hname
  obtain ⟨p, rfl⟩ := eq_append_of_suffix hname
  have hreads : ∀ rest, Reads (p ++ [Byte.rightParen] ++ rest)
      (plain .badUrl (p ++ [Byte.rightParen])) rest := by
    intro rest
    have h := hstop rest
    obtain ⟨v', hv, haddress⟩ := h.exists_address ha
    obtain rfl := List.append_cancel_right hv
    have hbad := Reads.badUrl (h.startsIdentifier hn hs) (h.scanName hn)
      ((h.append v).callsUrl hu) haddress
    have hsplit : p ++ Byte.rightParen :: rest = p ++ [Byte.rightParen] ++ rest := by
      simp
    rw [hr, hsplit, upTo_append] at hbad
    exact hbad
  refine ⟨p ++ [Byte.rightParen], by simp, ?_, Or.inr hreads⟩
  have hnil := hreads []
  rw [List.append_nil] at hnil
  exact hnil

theorem Reads.formed {text rest : Bytes} {t : Token} (h : Reads text t rest)
    (hurl : t.kind = .url → 0 ∉ t.value) : Formed t := by
  cases h with
  | whitespace hb =>
      refine Formed.whitespace (by simp) ?_
      intro c hc
      rcases List.mem_cons.mp hc with rfl | hc
      · exact hb
      · exact List.mem_takeWhile_imp hc
  | @comment bs value rest hc =>
      have hvalue := not_infix_scanComment bs
      rw [hc] at hvalue
      exact Formed.comment hvalue
  | string hq hs => exact Formed.string _
  | badString hq hs => exact Formed.badString _
  | hash hc hn =>
      obtain ⟨hne, h0, -⟩ := name_of_scanName hc hn
      exact Formed.name rfl hne h0
  | atKeyword hs hn =>
      obtain ⟨hne, h0, -⟩ := name_of_scanName (continuesName_of_startsIdentifier hs) hn
      exact Formed.name rfl hne h0
  | punctuation hp => exact Formed.punctuation hp
  | operator ho => exact Formed.operator ho
  | number hn hs hp => exact Formed.number (Numeral.formed_of_scan? hn).1
  | percentage hn => exact Formed.percentage (Numeral.formed_of_scan? hn).1
  | dimension hn hs hu =>
      obtain ⟨hne, h0, -⟩ := name_of_scanName (continuesName_of_startsIdentifier hs) hu
      exact Formed.dimension (Numeral.formed_of_scan? hn).1 hne h0
  | cdc => exact Formed.cdc
  | cdo => exact Formed.cdo
  | ident hs hc hn hp =>
      obtain ⟨hne, h0, -⟩ := name_of_scanName (continuesName_of_startsIdentifier hs) hn
      exact Formed.name rfl hne h0
  | function hs hn hu =>
      obtain ⟨hne, h0, -⟩ := name_of_scanName (continuesName_of_startsIdentifier hs) hn
      exact Formed.name rfl hne h0
  | url hs hn hu ha => exact Formed.url (hurl rfl)
  | badUrl hs hn hu ha =>
      obtain ⟨w, rfl, hw, -⟩ := reads_badUrl hs hn hu ha
      rw [upTo_append]
      exact Formed.badUrl hw
  | delim hb => exact Formed.delim _

theorem Reads.continuesName_dimension {text rest : Bytes} {t : Token} (h : Reads text t rest)
    (ht : t.kind = .dimension) : continuesName rest = false := by
  cases h with
  | @punctuation b _ kind hp =>
      obtain rfl : kind = .dimension := ht
      cases standsAlone_of_punctuation b _ hp
  | @operator b _ kind ho =>
      obtain rfl : kind = .dimension := ht
      cases standsAlone_of_operator b _ ho
  | dimension hn hs hu => exact (name_of_scanName (continuesName_of_startsIdentifier hs) hu).2.2
  | _ => cases ht

theorem Reads.clear {text rest : Bytes} {t : Token} (h : Reads text t rest)
    (harrow : t = plain .ident (ascii "--") → rest.head? ≠ some Byte.greater)
    (hexponent : t.kind = .dimension → t.unit.length = 1 → t.hasExponent = false →
      (Numeral.scanExponent (t.unit ++ rest)).1 = none) :
    Clear t rest := by
  cases h with
  | whitespace hb => exact not_beginsWith_dropWhile isBlank _
  | comment hc => trivial
  | string hq hs => trivial
  | badString hq hs => exact rest_of_badString hs
  | hash hc hn => exact (name_of_scanName hc hn).2.2
  | atKeyword hs hn => exact (name_of_scanName (continuesName_of_startsIdentifier hs) hn).2.2
  | punctuation hp =>
      exact clear_of_standsAlone (standsAlone_of_punctuation _ _ hp) _
  | operator ho =>
      exact clear_of_standsAlone (standsAlone_of_operator _ _ ho) _
  | number hn hs hp =>
      have hstops := (Numeral.formed_of_scan? hn).2.2
      refine ⟨hs, hp, hstops.digit, ?_⟩
      intro hinteger
      simp only [Numeral.isInteger, Bool.and_eq_true, List.isEmpty_iff,
        Option.isNone_iff_eq_none] at hinteger
      exact hstops.fraction hinteger.1 hinteger.2
  | percentage hn => trivial
  | dimension hn hs hu =>
      exact ⟨(name_of_scanName (continuesName_of_startsIdentifier hs) hu).2.2,
        hexponent rfl⟩
  | cdc => trivial
  | cdo => trivial
  | ident hs hc hn hp =>
      refine ⟨(name_of_scanName (continuesName_of_startsIdentifier hs) hn).2.2, hp, ?_⟩
      intro hvalue
      exact harrow (congrArg (plain .ident) hvalue)
  | function hs hn hu => exact hu
  | url hs hn hu ha => trivial
  | badUrl hs hn hu ha =>
      obtain ⟨w, hbs, -, hw⟩ := reads_badUrl hs hn hu ha
      rw [hbs, upTo_append]
      exact hw
  | delim hb => exact hb

end Token
end CssText
