import CssText.Proofs.Bytes
import CssText.Text.Utf8
import Mathlib.Data.List.Basic

/-!
# Well-formed texts

`Utf8.Valid` says that bytes are the encoding of some characters, in the encoding that the
standard library gives a character. The sequence of a character is either one ASCII byte or
begins with a byte that continues nothing and goes on with continuation bytes only. So a
text may be cut in front of every byte that is no continuation (`Valid.of_append`), in
front of and behind every ASCII byte in particular.
-/

namespace CssText
namespace Utf8

def ofChars (cs : List Char) : Bytes :=
  cs.flatMap String.utf8EncodeChar

/-- No overlong forms, no surrogates and nothing past U+10FFFF. -/
def Valid (bs : Bytes) : Prop :=
  ∃ cs, ofChars cs = bs

theorem ofChars_append (cs ds : List Char) : ofChars (cs ++ ds) = ofChars cs ++ ofChars ds :=
  List.flatMap_append

theorem valid_nil : Valid [] :=
  ⟨[], rfl⟩

theorem Valid.append {xs ys : Bytes} (hx : Valid xs) (hy : Valid ys) : Valid (xs ++ ys) := by
  rcases hx with ⟨cs, rfl⟩
  rcases hy with ⟨ds, rfl⟩
  exact ⟨cs ++ ds, ofChars_append cs ds⟩

theorem valid_flatMap {α : Type} {f : α → Bytes} {xs : List α} (h : ∀ x ∈ xs, Valid (f x)) :
    Valid (xs.flatMap f) := by
  induction xs with
  | nil => exact valid_nil
  | cons x xs ih =>
      rw [List.flatMap_cons]
      exact (h x List.mem_cons_self).append (ih fun y hy => h y (List.mem_cons_of_mem x hy))

/-!
## The sequence of a character

A scalar value is written here as the standard library writes its character. So every number is
written as some character, if only as the replacement character.
-/

theorem isContinuation_ofNat {n : Nat} (h : n < 256) :
    isContinuation (UInt8.ofNat n) = (decide (0x80 ≤ n) && decide (n < 0xC0)) := by
  have hle : (0x80 ≤ UInt8.ofNat n) ↔ 0x80 ≤ n := by
    rw [UInt8.le_iff_toNat_le, UInt8.toNat_ofNat_of_lt' h]
    rfl
  have hlt : (UInt8.ofNat n < 0xC0) ↔ n < 0xC0 := by
    rw [UInt8.lt_iff_toNat_lt, UInt8.toNat_ofNat_of_lt' h]
    rfl
  rw [isContinuation, decide_eq_decide.mpr hle, decide_eq_decide.mpr hlt]

theorem encodeScalar_cons {n : Nat} (h : n ≤ 0x10FFFF) :
    ∃ b tail, encodeScalar n = b :: tail ∧ isContinuation b = false ∧
      (∀ d ∈ tail, isContinuation d = true) ∧ (b < 0x80 → tail = []) := by
  have hlead {m : Nat} (hm : 0xC0 ≤ m) (hm' : m < 256) :
      isContinuation (UInt8.ofNat m) = false := by
    rw [isContinuation_ofNat hm', decide_eq_false (Nat.not_lt.mpr hm), Bool.and_false]
  have htail (m : Nat) : isContinuation (UInt8.ofNat (0x80 + m % 0x40)) = true := by
    have hm : m % 0x40 < 0x40 := Nat.mod_lt m (by decide)
    rw [isContinuation_ofNat (by omega), decide_eq_true (by omega), decide_eq_true (by omega)]
    rfl
  have hlong {m : Nat} (hm : 0xC0 ≤ m) (hm' : m < 256) : ¬ UInt8.ofNat m < 0x80 := by
    rw [UInt8.lt_iff_toNat_lt, UInt8.toNat_ofNat_of_lt' hm']
    exact Nat.not_lt.mpr (Nat.le_trans (by decide) hm)
  unfold encodeScalar
  split
  · refine ⟨_, [], rfl, ?_, ?_, fun _ => rfl⟩
    · rw [isContinuation_ofNat (by omega), decide_eq_false (by omega), Bool.false_and]
    · intro d hd
      cases hd
  split
  · refine ⟨_, _, rfl, hlead (by omega) (by omega), ?_, ?_⟩
    · intro d hd
      rw [List.mem_singleton.mp hd]
      exact htail n
    · intro hb
      exact absurd hb (hlong (by omega) (by omega))
  split
  · refine ⟨_, _, rfl, hlead (by omega) (by omega), ?_, ?_⟩
    · intro d hd
      simp only [List.mem_cons, List.not_mem_nil, or_false] at hd
      rcases hd with rfl | rfl <;> exact htail _
    · intro hb
      exact absurd hb (hlong (by omega) (by omega))
  · refine ⟨_, _, rfl, hlead (by omega) (by omega), ?_, ?_⟩
    · intro d hd
      simp only [List.mem_cons, List.not_mem_nil, or_false] at hd
      rcases hd with rfl | rfl | rfl <;> exact htail _
    · intro hb
      exact absurd hb (hlong (by omega) (by omega))

theorem toNat_isScalar (c : Char) : isScalar c.val.toNat = true := by
  have hvalid : c.val.toNat < 0xD800 ∨ 0xDFFF < c.val.toNat ∧ c.val.toNat < 0x110000 := c.valid
  simp only [isScalar, Bool.or_eq_true, Bool.and_eq_true, decide_eq_true_eq]
  omega

theorem le_of_isScalar {n : Nat} (h : isScalar n = true) : n ≤ 0x10FFFF := by
  simp only [isScalar, Bool.or_eq_true, Bool.and_eq_true, decide_eq_true_eq] at h
  omega

theorem utf8EncodeChar_eq (c : Char) : String.utf8EncodeChar c = encodeScalar c.val.toNat := by
  have hle := le_of_isScalar (toNat_isScalar c)
  unfold String.utf8EncodeChar encodeScalar
  generalize c.val.toNat = n at hle
  by_cases h1 : n < 0x80
  · rw [if_pos h1, if_pos (show n ≤ 127 by omega)]
  rw [if_neg h1, if_neg (show ¬ n ≤ 127 by omega)]
  by_cases h2 : n < 0x800
  · rw [if_pos h2, if_pos (show n ≤ 2047 by omega), Nat.mod_eq_of_lt (show n / 64 < 32 by omega),
      Nat.add_comm _ 192, Nat.add_comm _ 128]
  rw [if_neg h2, if_neg (show ¬ n ≤ 2047 by omega)]
  by_cases h3 : n < 0x10000
  · rw [if_pos h3, if_pos (show n ≤ 65535 by omega),
      Nat.mod_eq_of_lt (show n / 4096 < 16 by omega), Nat.add_comm _ 224, Nat.add_comm _ 128,
      Nat.add_comm _ 128]
  · rw [if_neg h3, if_neg (show ¬ n ≤ 65535 by omega),
      Nat.mod_eq_of_lt (show n / 262144 < 8 by omega), Nat.add_comm _ 240, Nat.add_comm _ 128,
      Nat.add_comm _ 128, Nat.add_comm _ 128]

theorem exists_char {n : Nat} (h : isScalar n = true) :
    ∃ c, String.utf8EncodeChar c = encodeScalar n := by
  have hvalid : n.isValidChar := by
    simp only [isScalar, Bool.or_eq_true, Bool.and_eq_true, decide_eq_true_eq] at h
    show n < 0xD800 ∨ 0xDFFF < n ∧ n < 0x110000
    omega
  exact ⟨Char.ofNatAux n hvalid, utf8EncodeChar_eq _⟩

theorem valid_char (c : Char) : Valid (String.utf8EncodeChar c) :=
  ⟨[c], by rw [ofChars, List.flatMap_singleton]⟩

theorem valid_encodeScalar {n : Nat} (h : isScalar n = true) : Valid (encodeScalar n) := by
  rcases exists_char h with ⟨c, hc⟩
  exact hc ▸ valid_char c

theorem valid_replacement : Valid replacement :=
  valid_encodeScalar rfl

theorem valid_encode (n : Nat) : Valid (encode n) := by
  unfold encode
  split
  · exact valid_replacement
  · rename_i h
    rw [Bool.or_eq_true, not_or, Bool.not_eq_true', Bool.not_eq_false] at h
    exact valid_encodeScalar h.2

/-!
## ASCII bytes
-/

theorem exists_char_of_lt {b : UInt8} (h : b < 0x80) : ∃ c, String.utf8EncodeChar c = [b] := by
  have hlt : b.toNat < 0x80 := UInt8.lt_iff_toNat_lt.mp h
  have hscalar : isScalar b.toNat = true := by
    simp only [isScalar, Bool.or_eq_true, decide_eq_true_eq]
    omega
  have hchar := exists_char hscalar
  rw [encodeScalar, if_pos hlt, UInt8.ofNat_toNat] at hchar
  exact hchar

theorem valid_byte {b : UInt8} (h : b < 0x80) : Valid [b] := by
  rcases exists_char_of_lt h with ⟨c, hc⟩
  exact hc ▸ valid_char c

theorem Valid.cons {b : UInt8} {bs : Bytes} (hb : b < 0x80) (h : Valid bs) : Valid (b :: bs) :=
  (valid_byte hb).append h

def isAscii (bs : Bytes) : Bool :=
  bs.all fun b => b < 0x80

theorem valid_of_isAscii {bs : Bytes} (h : isAscii bs = true) : Valid bs := by
  induction bs with
  | nil => exact valid_nil
  | cons b bs ih =>
      simp only [isAscii, List.all_cons, Bool.and_eq_true, decide_eq_true_eq] at h
      exact (ih h.2).cons h.1

theorem isAscii_append (xs ys : Bytes) : isAscii (xs ++ ys) = (isAscii xs && isAscii ys) :=
  List.all_append

/-!
## Cutting

In a well-formed text, what stands in front of a well-formed rest is well-formed too, and so is
what stands on either side of an ASCII byte.
-/

theorem Valid.of_append {xs ys : Bytes} (h : Valid (xs ++ ys))
    (hy : beginsWith isContinuation ys = false) : Valid xs ∧ Valid ys := by
  rcases h with ⟨cs, hcs⟩
  induction cs generalizing xs with
  | nil =>
      rcases List.append_eq_nil_iff.mp hcs.symm with ⟨rfl, rfl⟩
      exact ⟨valid_nil, valid_nil⟩
  | cons c cs ih =>
      rcases encodeScalar_cons (le_of_isScalar (toNat_isScalar c)) with
        ⟨b, tail, hencode, hb, htail, -⟩
      rw [← utf8EncodeChar_eq] at hencode
      have hc : Valid (b :: tail) := hencode ▸ valid_char c
      rw [ofChars, List.flatMap_cons, hencode] at hcs
      cases xs with
      | nil =>
          rw [List.nil_append] at hcs
          exact ⟨valid_nil, hcs ▸ hc.append ⟨cs, rfl⟩⟩
      | cons x xs =>
          obtain ⟨rfl, hinside⟩ := List.cons.inj hcs
          rcases List.append_eq_append_iff.mp hinside with ⟨more, rfl, hmore⟩ | ⟨cut, htailcut, rfl⟩
          · rcases ih hmore with ⟨hxs, hys⟩
            exact ⟨hc.append hxs, hys⟩
          · cases cut with
            | nil =>
                rw [List.append_nil] at htailcut
                rw [← htailcut]
                exact ⟨hc, ⟨cs, rfl⟩⟩
            | cons d cut =>
                have hd := htail d (by simp [htailcut])
                rw [List.cons_append, beginsWith_cons, hd] at hy
                cases hy

theorem Valid.head_ne {bs : Bytes} (h : Valid bs) : beginsWith isContinuation bs = false := by
  rcases h with ⟨cs, rfl⟩
  cases cs with
  | nil => rfl
  | cons c cs =>
      rcases encodeScalar_cons (le_of_isScalar (toNat_isScalar c)) with ⟨b, tail, hencode, hb, -⟩
      rw [← utf8EncodeChar_eq] at hencode
      rw [ofChars, List.flatMap_cons, hencode]
      exact hb

theorem Valid.of_append_left {xs ys : Bytes} (h : Valid (xs ++ ys)) (hy : Valid ys) : Valid xs :=
  (h.of_append hy.head_ne).1

theorem not_isContinuation_of_lt {b : UInt8} (h : b < 0x80) : isContinuation b = false := by
  rw [isContinuation, decide_eq_false (UInt8.not_le.mpr h), Bool.false_and]

theorem Valid.of_middle {xs ys : Bytes} {b : UInt8} (h : Valid (xs ++ b :: ys)) (hb : b < 0x80) :
    Valid xs ∧ Valid ys := by
  rcases h.of_append (not_isContinuation_of_lt hb) with ⟨hxs, hys⟩
  have hcut : ys = [] ∨ beginsWith isContinuation ys = false := by
    rcases hys with ⟨cs, hcs⟩
    cases cs with
    | nil => cases hcs
    | cons c cs =>
        rcases encodeScalar_cons (le_of_isScalar (toNat_isScalar c)) with
          ⟨d, tail, hencode, -, -, htail⟩
        rw [← utf8EncodeChar_eq] at hencode
        rw [ofChars, List.flatMap_cons, hencode] at hcs
        rcases List.cons.inj hcs with ⟨rfl, rfl⟩
        rw [htail hb]
        exact Or.inr (Valid.head_ne ⟨cs, rfl⟩)
  rcases hcut with rfl | hcut
  · exact ⟨hxs, valid_nil⟩
  · exact ⟨hxs, (@Valid.of_append [b] ys hys hcut).2⟩

theorem Valid.of_cons {b : UInt8} {bs : Bytes} (h : Valid (b :: bs)) (hb : b < 0x80) : Valid bs :=
  (@Valid.of_middle [] bs b h hb).2

theorem Valid.of_isAscii_append {xs ys : Bytes} (h : Valid (xs ++ ys)) (hx : isAscii xs = true) :
    Valid ys := by
  induction xs with
  | nil => exact h
  | cons x xs ih =>
      simp only [isAscii, List.all_cons, Bool.and_eq_true, decide_eq_true_eq] at hx
      exact ih (h.of_cons hx.1) hx.2

/-- A map of bytes that keeps those past ASCII and writes characters for the others. -/
theorem Valid.flatMap {f : UInt8 → Bytes} {bs : Bytes} (h : Valid bs)
    (hkeep : ∀ b, ¬ b < 0x80 → f b = [b]) (hwrite : ∀ b, b < 0x80 → Valid (f b)) :
    Valid (bs.flatMap f) := by
  rcases h with ⟨cs, rfl⟩
  rw [ofChars, List.flatMap_assoc]
  apply valid_flatMap
  intro c _
  rcases encodeScalar_cons (le_of_isScalar (toNat_isScalar c)) with
    ⟨b, tail, hencode, -, htail, hone⟩
  rw [← utf8EncodeChar_eq] at hencode
  by_cases hb : b < 0x80
  · rw [hencode, hone hb, List.flatMap_singleton]
    exact hwrite b hb
  · have hall : ∀ d ∈ b :: tail, f d = [d] := by
      intro d hd
      rcases List.mem_cons.mp hd with rfl | hd
      · exact hkeep d hb
      · apply hkeep
        intro hlt
        have hcontinues := htail d hd
        rw [not_isContinuation_of_lt hlt] at hcontinues
        cases hcontinues
    rw [hencode, flatMap_eq_self hall]
    exact hencode ▸ valid_char c

/-- The offset stands between two characters of the text, or at one of its ends. -/
def IsBoundary (bs : Bytes) (n : Nat) : Prop :=
  ∃ cs ds, ofChars (cs ++ ds) = bs ∧ (ofChars cs).length = n

theorem isBoundary_length {xs ys : Bytes} (hx : Valid xs) (hy : Valid ys) :
    IsBoundary (xs ++ ys) xs.length := by
  rcases hx with ⟨cs, rfl⟩
  rcases hy with ⟨ds, rfl⟩
  exact ⟨cs, ds, ofChars_append cs ds, rfl⟩

/-!
## Repaired texts

A well-formed sequence is the encoding of the value that it carries, so whatever is decoded
becomes well-formed.
-/

theorem toNat_of_isContinuation {b : UInt8} (h : isContinuation b = true) :
    b.toNat = 0x80 + b.toNat % 0x40 := by
  rw [isContinuation, Bool.and_eq_true, decide_eq_true_eq, decide_eq_true_eq] at h
  have hle : 0x80 ≤ b.toNat := UInt8.le_iff_toNat_le.mp h.1
  have hlt : b.toNat < 0xC0 := UInt8.lt_iff_toNat_lt.mp h.2
  omega

theorem ofNat_of_isContinuation {b : UInt8} (h : isContinuation b = true) {n : Nat}
    (hn : n % 0x40 = b.toNat % 0x40) : UInt8.ofNat (0x80 + n % 0x40) = b := by
  rw [hn, ← toNat_of_isContinuation h, UInt8.ofNat_toNat]

theorem lead?_eq (b : UInt8) :
    lead? b =
      if b.toNat < 0x80 then some ⟨0, 0, b.toNat⟩
      else if b.toNat < 0xC0 then none
      else if b.toNat < 0xE0 then some ⟨1, 0x80, b.toNat - 0xC0⟩
      else if b.toNat < 0xF0 then some ⟨2, 0x800, b.toNat - 0xE0⟩
      else if b.toNat < 0xF8 then some ⟨3, 0x10000, b.toNat - 0xF0⟩
      else none := by
  simp only [lead?, UInt8.lt_iff_toNat_lt]
  rfl

theorem encodeScalar_extend {b : UInt8} {lead : Lead} {tail : Bytes} (hlead : lead? b = some lead)
    (hlength : tail.length = lead.tail) (htail : ∀ d ∈ tail, isContinuation d = true)
    (hleast : lead.least ≤ extend lead.payload tail) :
    encodeScalar (extend lead.payload tail) = b :: tail := by
  have hb := UInt8.toNat_lt b
  have hbyte {n : Nat} (hn : n = b.toNat) : UInt8.ofNat n = b := by
    rw [hn, UInt8.ofNat_toNat]
  rw [lead?_eq] at hlead
  split at hlead
  · cases hlead
    obtain rfl := List.length_eq_zero_iff.mp hlength
    rename_i h
    show encodeScalar b.toNat = [b]
    rw [encodeScalar, if_pos h, UInt8.ofNat_toNat]
  split at hlead
  · cases hlead
  split at hlead
  · cases hlead
    rcases List.length_eq_one_iff.mp hlength with ⟨c, rfl⟩
    have hc := htail c (by simp)
    have hn : c.toNat % 0x40 < 0x40 := Nat.mod_lt _ (by decide)
    simp only [extend, List.foldl_cons, List.foldl_nil] at hleast ⊢
    rw [encodeScalar, if_neg (by omega), if_pos (by omega), hbyte (by omega),
      ofNat_of_isContinuation hc (by omega)]
  split at hlead
  · cases hlead
    rcases List.length_eq_two.mp hlength with ⟨c, d, rfl⟩
    have hc := htail c (by simp)
    have hd := htail d (by simp)
    have hn : c.toNat % 0x40 < 0x40 := Nat.mod_lt _ (by decide)
    have hm : d.toNat % 0x40 < 0x40 := Nat.mod_lt _ (by decide)
    simp only [extend, List.foldl_cons, List.foldl_nil] at hleast ⊢
    rw [encodeScalar, if_neg (by omega), if_neg (by omega), if_pos (by omega), hbyte (by omega),
      ofNat_of_isContinuation hc (by omega), ofNat_of_isContinuation hd (by omega)]
  split at hlead
  · cases hlead
    rcases List.length_eq_three.mp hlength with ⟨c, d, e, rfl⟩
    have hc := htail c (by simp)
    have hd := htail d (by simp)
    have he := htail e (by simp)
    have hn : c.toNat % 0x40 < 0x40 := Nat.mod_lt _ (by decide)
    have hm : d.toNat % 0x40 < 0x40 := Nat.mod_lt _ (by decide)
    have hk : e.toNat % 0x40 < 0x40 := Nat.mod_lt _ (by decide)
    simp only [extend, List.foldl_cons, List.foldl_nil] at hleast ⊢
    rw [encodeScalar, if_neg (by omega), if_neg (by omega), if_neg (by omega), hbyte (by omega),
      ofNat_of_isContinuation hc (by omega), ofNat_of_isContinuation hd (by omega),
      ofNat_of_isContinuation he (by omega)]
  · cases hlead

theorem exists_char_of_tailLength? {b : UInt8} {bs : Bytes} {n : Nat}
    (h : tailLength? (b :: bs) = some n) : ∃ c, String.utf8EncodeChar c = b :: bs.take n := by
  rw [tailLength?] at h
  split at h
  · cases h
  · rename_i lead hlead
    simp only at h
    split at h
    · rename_i hsequence
      obtain rfl := Option.some.inj h
      simp only [Bool.and_eq_true, decide_eq_true_eq, List.all_eq_true] at hsequence
      obtain ⟨⟨⟨hlength, htail⟩, hleast⟩, hscalar⟩ := hsequence
      rw [← encodeScalar_extend hlead hlength htail hleast]
      exact exists_char hscalar
    · cases h

theorem valid_repair (bs : Bytes) : Valid (repair bs) := by
  fun_induction repair bs with
  | case1 => exact valid_nil
  | case2 b bs n h ih =>
      rcases exists_char_of_tailLength? h with ⟨c, hc⟩
      exact (hc ▸ valid_char c).append ih
  | case3 b bs h ih => exact valid_replacement.append ih

theorem valid_decode (bs : Bytes) : Valid (decode bs) := by
  unfold decode
  split
  · exact valid_repair _
  · exact valid_repair bs

end Utf8
end CssText
