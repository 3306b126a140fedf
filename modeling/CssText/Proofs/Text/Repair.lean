import CssText.Proofs.Text.Utf8
import Mathlib.Data.List.TakeWhile

/-!
# What decoding keeps and what it replaces

`Repaired` says what the repair of a text is without regard to how it is found: every
character keeps its bytes, and a broken stretch, which is a byte that begins no character
and all continuation bytes right after it, gives way to one U+FFFD. Each text has one repair,
and it is the one that the reader computes (`repaired_iff`).
-/

namespace CssText
namespace Utf8

def StartsChar (bs : Bytes) : Prop :=
  ∃ c, String.utf8EncodeChar c <+: bs

inductive Repaired : Bytes → Bytes → Prop where
  | nil : Repaired [] []
  | kept {bs out : Bytes} (c : Char) (h : Repaired bs out) :
      Repaired (String.utf8EncodeChar c ++ bs) (String.utf8EncodeChar c ++ out)
  | broken {b : UInt8} {tail bs out : Bytes} (hb : ¬ StartsChar (b :: (tail ++ bs)))
      (htail : ∀ d ∈ tail, isContinuation d = true) (hbs : beginsWith isContinuation bs = false)
      (h : Repaired bs out) :
      Repaired (b :: (tail ++ bs)) (String.utf8EncodeChar '\uFFFD' ++ out)

/-!
## The reader finds characters

The first byte of a character announces the others and the value that they carry.
-/

theorem exists_cons_utf8EncodeChar (c : Char) :
    ∃ b tail, String.utf8EncodeChar c = b :: tail := by
  rcases encodeScalar_cons (le_of_isScalar (toNat_isScalar c)) with ⟨b, tail, hencode, -⟩
  rw [← utf8EncodeChar_eq] at hencode
  exact ⟨b, tail, hencode⟩

theorem exists_lead {n : Nat} (h : n ≤ 0x10FFFF) :
    ∃ b tail lead, encodeScalar n = b :: tail ∧ lead? b = some lead ∧
      lead.tail = tail.length ∧ lead.least ≤ n ∧ extend lead.payload tail = n := by
  have hbyte {m : Nat} (hm : m < 256) : (UInt8.ofNat m).toNat = m := UInt8.toNat_ofNat_of_lt' hm
  have hbits (m : Nat) : (UInt8.ofNat (0x80 + m % 0x40)).toNat % 0x40 = m % 0x40 := by
    have hm : m % 0x40 < 0x40 := Nat.mod_lt m (by decide)
    rw [hbyte (by omega)]
    omega
  unfold encodeScalar
  by_cases h1 : n < 0x80
  · rw [if_pos h1]
    refine ⟨_, [], ⟨0, 0, n⟩, rfl, ?_, rfl, Nat.zero_le n, rfl⟩
    rw [lead?_eq, hbyte (by omega), if_pos h1]
  rw [if_neg h1]
  by_cases h2 : n < 0x800
  · rw [if_pos h2]
    refine ⟨_, _, ⟨1, 0x80, n / 0x40⟩, rfl, ?_, rfl, Nat.le_of_not_lt h1, ?_⟩
    · rw [lead?_eq, hbyte (by omega), if_neg (by omega), if_neg (by omega), if_pos (by omega),
        Nat.add_sub_cancel_left]
    · simp only [extend, List.foldl_cons, List.foldl_nil, hbits]
      omega
  rw [if_neg h2]
  by_cases h3 : n < 0x10000
  · rw [if_pos h3]
    refine ⟨_, _, ⟨2, 0x800, n / 0x1000⟩, rfl, ?_, rfl, Nat.le_of_not_lt h2, ?_⟩
    · rw [lead?_eq, hbyte (by omega), if_neg (by omega), if_neg (by omega), if_neg (by omega),
        if_pos (by omega), Nat.add_sub_cancel_left]
    · simp only [extend, List.foldl_cons, List.foldl_nil, hbits]
      omega
  · rw [if_neg h3]
    refine ⟨_, _, ⟨3, 0x10000, n / 0x40000⟩, rfl, ?_, rfl, Nat.le_of_not_lt h3, ?_⟩
    · rw [lead?_eq, hbyte (by omega), if_neg (by omega), if_neg (by omega), if_neg (by omega),
        if_neg (by omega), if_pos (by omega), Nat.add_sub_cancel_left]
    · simp only [extend, List.foldl_cons, List.foldl_nil, hbits]
      omega

theorem tailLength?_of_char {c : Char} {b : UInt8} {tail : Bytes}
    (hc : String.utf8EncodeChar c = b :: tail) (bs : Bytes) :
    tailLength? (b :: (tail ++ bs)) = some tail.length := by
  have hle := le_of_isScalar (toNat_isScalar c)
  rw [utf8EncodeChar_eq] at hc
  rcases exists_lead hle with ⟨b', tail', lead, hencode, hlead, hlength, hleast, hvalue⟩
  rcases encodeScalar_cons hle with ⟨b'', tail'', hencode', -, htail, -⟩
  rw [hc] at hencode hencode'
  obtain ⟨rfl, rfl⟩ := List.cons.inj hencode
  obtain ⟨rfl, rfl⟩ := List.cons.inj hencode'
  rw [tailLength?]
  simp only [hlead, hlength, List.take_left, hvalue, toNat_isScalar]
  rw [if_pos]
  simpa using ⟨htail, hleast⟩

theorem tailLength?_eq_none_iff {b : UInt8} {bs : Bytes} :
    tailLength? (b :: bs) = none ↔ ¬ StartsChar (b :: bs) := by
  constructor
  · rintro h ⟨c, rest, hc⟩
    rcases exists_cons_utf8EncodeChar c with ⟨b', tail, hencode⟩
    rw [hencode, List.cons_append] at hc
    obtain ⟨rfl, rfl⟩ := List.cons.inj hc
    rw [tailLength?_of_char hencode] at h
    cases h
  · intro h
    cases hlength : tailLength? (b :: bs) with
    | none => rfl
    | some n =>
        rcases exists_char_of_tailLength? hlength with ⟨c, hc⟩
        exact absurd ⟨c, hc ▸ List.cons_prefix_cons.mpr ⟨rfl, List.take_prefix n bs⟩⟩ h

/-!
## The repair of a text
-/

theorem repair_nil : repair [] = [] := by
  rw [repair]

theorem repair_char_append (c : Char) (bs : Bytes) :
    repair (String.utf8EncodeChar c ++ bs) = String.utf8EncodeChar c ++ repair bs := by
  rcases exists_cons_utf8EncodeChar c with ⟨b, tail, hc⟩
  rw [hc, List.cons_append, repair, tailLength?_of_char hc]
  simp only [List.take_left, List.drop_left]

theorem replacement_eq : replacement = String.utf8EncodeChar '\uFFFD' :=
  (utf8EncodeChar_eq '\uFFFD').symm

theorem repair_broken_append {b : UInt8} {tail bs : Bytes} (hb : ¬ StartsChar (b :: (tail ++ bs)))
    (htail : ∀ d ∈ tail, isContinuation d = true)
    (hbs : beginsWith isContinuation bs = false) :
    repair (b :: (tail ++ bs)) = String.utf8EncodeChar '\uFFFD' ++ repair bs := by
  rw [repair, tailLength?_eq_none_iff.mpr hb, dropWhile_append_stop htail hbs, replacement_eq]

theorem repaired_repair (bs : Bytes) : Repaired bs (repair bs) := by
  fun_induction repair bs with
  | case1 => exact Repaired.nil
  | case2 b bs n h ih =>
      rcases exists_char_of_tailLength? h with ⟨c, hc⟩
      have hkept := Repaired.kept c ih
      rw [hc, List.cons_append, List.take_append_drop] at hkept
      exact hkept
  | case3 b bs h ih =>
      have hsplit := List.takeWhile_append_dropWhile (p := isContinuation) (l := bs)
      have hb := tailLength?_eq_none_iff.mp h
      rw [← hsplit] at hb
      have hbroken := Repaired.broken hb (fun d hd => List.mem_takeWhile_imp hd)
        (not_beginsWith_dropWhile isContinuation bs) ih
      rw [hsplit, ← replacement_eq] at hbroken
      exact hbroken

theorem repaired_iff {bs out : Bytes} : Repaired bs out ↔ repair bs = out := by
  constructor
  · intro h
    induction h with
    | nil => exact repair_nil
    | kept c _ ih => rw [repair_char_append, ih]
    | broken hb htail hbs _ ih => rw [repair_broken_append hb htail hbs, ih]
  · rintro rfl
    exact repaired_repair bs

theorem repair_of_valid {bs : Bytes} (h : Valid bs) : repair bs = bs := by
  rcases h with ⟨cs, rfl⟩
  induction cs with
  | nil => exact repair_nil
  | cons c cs ih =>
      rw [ofChars, List.flatMap_cons, repair_char_append]
      exact congrArg (String.utf8EncodeChar c ++ ·) ih

/-!
## ASCII bytes stay

A broken stretch holds no ASCII byte, and neither does what replaces it.
-/

def asciiBytes (bs : Bytes) : Bytes :=
  bs.filter fun b => b < 0x80

theorem asciiBytes_append (xs ys : Bytes) :
    asciiBytes (xs ++ ys) = asciiBytes xs ++ asciiBytes ys :=
  List.filter_append xs ys

theorem startsChar_of_lt {b : UInt8} (hb : b < 0x80) (bs : Bytes) : StartsChar (b :: bs) := by
  rcases exists_char_of_lt hb with ⟨c, hc⟩
  exact ⟨c, hc ▸ List.prefix_append [b] bs⟩

theorem asciiBytes_of_isContinuation {tail : Bytes}
    (htail : ∀ d ∈ tail, isContinuation d = true) : asciiBytes tail = [] := by
  apply List.filter_eq_nil_iff.mpr
  intro d hd hlt
  have hcontinues := htail d hd
  rw [not_isContinuation_of_lt (of_decide_eq_true hlt)] at hcontinues
  cases hcontinues

theorem Repaired.asciiBytes_eq {bs out : Bytes} (h : Repaired bs out) :
    asciiBytes out = asciiBytes bs := by
  induction h with
  | nil => rfl
  | kept c _ ih => rw [asciiBytes_append, asciiBytes_append, ih]
  | @broken b tail bs out hb htail _ _ ih =>
      have hlt : ¬ b < 0x80 := fun hlt => hb (startsChar_of_lt hlt _)
      have hb : asciiBytes (b :: (tail ++ bs)) = asciiBytes (tail ++ bs) :=
        List.filter_cons_of_neg (by simpa using hlt)
      have hnone : asciiBytes (String.utf8EncodeChar '\uFFFD') = [] := by decide
      rw [hb, asciiBytes_append, asciiBytes_append, asciiBytes_of_isContinuation htail, hnone, ih]

/-!
## Decoding
-/

/-- What follows one byte order mark in front, or the whole text where there is none. -/
def withoutMark (bs : Bytes) : Bytes :=
  (bs.dropPrefix? byteOrderMark).getD bs

theorem withoutMark_append (t : Bytes) : withoutMark (byteOrderMark ++ t) = t := by
  have hdrop : (byteOrderMark ++ t).dropPrefix? byteOrderMark = some t :=
    List.dropPrefix?_eq_some_iff.mpr ⟨byteOrderMark, rfl, beq_self_eq_true _⟩
  rw [withoutMark, hdrop, Option.getD_some]

theorem withoutMark_eq_self {bs : Bytes} (h : ¬ byteOrderMark <+: bs) :
    withoutMark bs = bs := by
  cases hdrop : bs.dropPrefix? byteOrderMark with
  | none => rw [withoutMark, hdrop, Option.getD_none]
  | some t =>
      rcases List.dropPrefix?_eq_some_iff.mp hdrop with ⟨mark, rfl, hmark⟩
      rw [beq_iff_eq.mp hmark] at h
      exact absurd (List.prefix_append byteOrderMark t) h

theorem decode_eq (bs : Bytes) : decode bs = repair (withoutMark bs) := by
  by_cases h : byteOrderMark <+: bs
  · rcases h with ⟨t, rfl⟩
    rw [decode, if_pos (List.isPrefixOf_iff_prefix.mpr (List.prefix_append _ t)), List.drop_left,
      withoutMark_append]
  · rw [decode, if_neg (mt List.isPrefixOf_iff_prefix.mp h), withoutMark_eq_self h]

theorem asciiBytes_withoutMark (bs : Bytes) : asciiBytes (withoutMark bs) = asciiBytes bs := by
  by_cases h : byteOrderMark <+: bs
  · rcases h with ⟨t, rfl⟩
    have hmark : asciiBytes byteOrderMark = [] := by decide
    rw [withoutMark_append, asciiBytes_append, hmark, List.nil_append]
  · rw [withoutMark_eq_self h]

/--
Whatever is decoded becomes well-formed, and what is well-formed stays as it is, save for one
byte order mark in front. All else is repaired stretch by stretch, so that no ASCII byte is
lost or made.
-/
theorem decode_repairs (bs : Bytes) :
    Valid (decode bs) ∧
      (Valid bs → ¬ byteOrderMark <+: bs → decode bs = bs) ∧
      (∀ t, Valid t → bs = byteOrderMark ++ t → decode bs = t) ∧
      (∀ out, Repaired (withoutMark bs) out ↔ decode bs = out) ∧
      asciiBytes (decode bs) = asciiBytes bs := by
  refine ⟨valid_decode bs, ?_, ?_, ?_, ?_⟩
  · intro hvalid hmark
    rw [decode_eq, withoutMark_eq_self hmark, repair_of_valid hvalid]
  · rintro t hvalid rfl
    rw [decode_eq, withoutMark_append, repair_of_valid hvalid]
  · intro out
    rw [decode_eq, repaired_iff]
  · rw [decode_eq, (repaired_repair _).asciiBytes_eq, asciiBytes_withoutMark]

theorem decode_repairs_accented :
    Valid [0xC3, 0xA9, 0x7B] ∧ ¬ byteOrderMark <+: [0xC3, 0xA9, 0x7B] ∧
      decode [0xC3, 0xA9, 0x7B] = [0xC3, 0xA9, 0x7B] ∧
      decode (byteOrderMark ++ [0xC3, 0xA9, 0x7B]) = [0xC3, 0xA9, 0x7B] := by
  have hvalid : Valid [0xC3, 0xA9, 0x7B] := ⟨['é', '\x7b'], by decide⟩
  have hmark : ¬ byteOrderMark <+: [0xC3, 0xA9, 0x7B] := by decide
  exact ⟨hvalid, hmark, (decode_repairs _).2.1 hvalid hmark,
    (decode_repairs _).2.2.1 _ hvalid rfl⟩

/-- An overlong form, a surrogate and a sequence that is cut off by a brace. -/
example : decode [0xC0, 0xAF, 0x61, 0xED, 0xA0, 0x80, 0xF0, 0x9F, 0x98, 0x7D] =
    [0xEF, 0xBF, 0xBD, 0x61, 0xEF, 0xBF, 0xBD, 0xEF, 0xBF, 0xBD, 0x7D] := by
  decide +kernel

end Utf8
end CssText
