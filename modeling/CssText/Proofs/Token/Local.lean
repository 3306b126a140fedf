import CssText.Proofs.Token.Printed
import Mathlib.Data.List.Infix

/-!
# A token depends only on the text it looks at

Past a token a scanner looks for what would make it longer. It does not find that where the
text is cut short behind the token, and punctuation stops every look ahead. So a token is read
in the same way if the text behind it is cut short, or goes on in another way behind its first
stop byte (`Reads.of_shows`). In this module the text `s` stands in place of `x` and shows
nothing that was not there (`Shows`), and `p` is the text in front of it.
-/

namespace CssText
namespace Token

def isStop (b : UInt8) : Bool :=
  (punctuation? b).isSome

theorem class_of_isStop (c : UInt8) (h : isStop c = true) :
    isBlank c = false ∧ isNameByte c = false ∧ Numeral.opens c = false ∧ isQuote c = false := by
  have hall : ∀ b, ∀ kind ∈ punctuation? b,
      isBlank b = false ∧ isNameByte b = false ∧ Numeral.opens b = false ∧ isQuote b = false :=
    forall_punctuation (by decide)
  rcases Option.isSome_iff_exists.mp h with ⟨kind, hkind⟩
  exact hall c kind hkind

theorem ne_of_isStop {b c : UInt8} (hc : isStop c = true) (hb : isStop b = false) : c ≠ b := by
  rintro rfl
  rw [hc] at hb
  cases hb

/-- Nothing follows, or the byte `c` comes first. -/
def Halts (c : UInt8) (s : Bytes) : Prop :=
  ∀ b ∈ s.head?, b = c

theorem halts_cons (c : UInt8) (q : Bytes) : Halts c (c :: q) := by
  intro b hb
  exact (Option.some.inj hb).symm

theorem halts_nil (c : UInt8) : Halts c [] := by
  intro b hb
  cases hb

/-- Up to its end or its first stop byte the text `s` is the beginning of `x`. -/
inductive Shows : Bytes → Bytes → Prop where
  | nil (x : Bytes) : Shows x []
  | stop {c : UInt8} (hc : isStop c = true) (x s : Bytes) : Shows (c :: x) (c :: s)
  | cons (b : UInt8) {x s : Bytes} (h : Shows x s) : Shows (b :: x) (b :: s)

section

variable {c : UInt8} {p q r s x : Bytes}

theorem Halts.shows (hs : Halts c s) (hc : isStop c = true) (q : Bytes) : Shows (c :: q) s := by
  cases s with
  | nil => exact Shows.nil _
  | cons b s =>
      obtain rfl := hs b rfl
      exact Shows.stop hc q s

theorem Shows.append (h : Shows x s) (p : Bytes) : Shows (p ++ x) (p ++ s) := by
  induction p with
  | nil => exact h
  | cons b p ih => exact Shows.cons b ih

theorem Shows.eq_nil (h : Shows [] s) : s = [] := by
  cases h
  rfl

/-!
## Looking ahead
-/

theorem Shows.not_beginsWith (h : Shows x s) {f : UInt8 → Bool} (hx : beginsWith f x = false) :
    beginsWith f s = false := by
  cases h with
  | nil => rfl
  | stop => exact hx
  | cons => exact hx

theorem Shows.head?_ne (h : Shows x s) {b : UInt8} (hx : x.head? ≠ some b) :
    s.head? ≠ some b := by
  cases h with
  | nil =>
      intro hb
      cases hb
  | stop => exact hx
  | cons => exact hx

theorem Shows.not_isPrefixOf (h : Shows x s) {w : Bytes} (hw : w.any isStop = false)
    (hx : w.isPrefixOf x = false) : w.isPrefixOf s = false := by
  induction h generalizing w with
  | nil x =>
      cases w with
      | nil => exact hx
      | cons b w => rfl
  | stop hc x s =>
      cases w with
      | nil => exact hx
      | cons b w =>
          rw [List.any_cons, Bool.or_eq_false_iff] at hw
          rw [List.isPrefixOf_cons_cons, beq_false_of_ne (Ne.symm (ne_of_isStop hc hw.1)),
            Bool.false_and]
  | cons b h ih =>
      cases w with
      | nil => exact hx
      | cons d w =>
          rw [List.any_cons, Bool.or_eq_false_iff] at hw
          rw [List.isPrefixOf_cons_cons, Bool.and_eq_false_iff] at hx ⊢
          exact hx.imp_right (ih hw.2)

theorem Shows.not_starts (h : Shows x s) (hx : Escape.starts x = false) :
    Escape.starts s = false := by
  cases h with
  | nil => rfl
  | stop hc =>
      rw [Escape.starts_cons, decide_eq_false (ne_of_isStop hc rfl), Bool.false_and]
  | cons b h =>
      rw [Escape.starts_cons, Bool.and_eq_false_iff] at hx ⊢
      exact hx.imp_right h.not_beginsWith

theorem Shows.not_continuesName (h : Shows x s) (hx : continuesName x = false) :
    continuesName s = false := by
  rw [continuesName, Bool.or_eq_false_iff] at hx ⊢
  exact ⟨h.not_beginsWith hx.1, h.not_starts hx.2⟩

theorem not_startsIdentifier_of_isStop (hc : isStop c = true) (s : Bytes) :
    startsIdentifier (c :: s) = false := by
  have hname : isNameByte c = false := (class_of_isStop c hc).2.1
  have hback : c ≠ Byte.backslash := ne_of_isStop hc rfl
  simp only [isNameByte, Bool.or_eq_false_iff, beq_eq_false_iff_ne] at hname
  simp [startsIdentifier, Escape.starts_cons, hback, hname.1.1, hname.2]

theorem Shows.not_startsIdentifier (h : Shows x s) (hx : startsIdentifier x = false) :
    startsIdentifier s = false := by
  cases h with
  | nil => rfl
  | stop hc => exact not_startsIdentifier_of_isStop hc _
  | cons b h =>
      simp only [startsIdentifier, Bool.or_eq_false_iff, Bool.and_eq_false_iff] at hx ⊢
      constructor
      · exact ⟨hx.1.1, (Shows.cons b h).not_starts hx.1.2⟩
      · exact hx.2.imp_right fun hx => ⟨h.not_beginsWith hx.1, h.not_starts hx.2⟩

theorem Shows.matchOperator?_none (h : Shows x s) {b : UInt8}
    (hx : matchOperator? b x = none) : matchOperator? b s = none := by
  by_cases hequals : x.head? = some Byte.equals
  · rw [matchOperator?, if_neg (Classical.not_not.mpr hequals)] at hx
    rw [matchOperator?]
    split
    · rfl
    · exact hx
  · rw [matchOperator?, if_pos (h.head?_ne hequals)]

theorem quotedAhead_blank {b : UInt8} (hb : isBlank b = true) (bs : Bytes) :
    quotedAhead (b :: bs) = quotedAhead bs := by
  rw [quotedAhead, skipBlanks, List.dropWhile_cons_of_pos hb]
  rfl

theorem quotedAhead_cons {b : UInt8} (hb : isBlank b = false) (bs : Bytes) :
    quotedAhead (b :: bs) = isQuote b := by
  rw [quotedAhead, skipBlanks, List.dropWhile_cons, hb]
  rfl

theorem Shows.not_quotedAhead (h : Shows x s) (hx : quotedAhead x = false) :
    quotedAhead s = false := by
  induction h with
  | nil => rfl
  | stop hc x s =>
      rcases class_of_isStop _ hc with ⟨hblank, -, -, hquote⟩
      rw [quotedAhead_cons hblank, hquote]
  | cons b h ih =>
      cases hb : isBlank b with
      | true =>
          rw [quotedAhead_blank hb] at hx ⊢
          exact ih hx
      | false =>
          rw [quotedAhead_cons hb] at hx ⊢
          exact hx

theorem Shows.callsUrl (h : Shows x s) {name : Bytes} (hx : callsUrl name x = true) :
    callsUrl name s = true := by
  rw [Token.callsUrl, Bool.and_eq_true, Bool.not_eq_true'] at hx ⊢
  exact ⟨hx.1, h.not_quotedAhead hx.2⟩

theorem quotedAhead_stop (hc : isStop c = true) (h : quotedAhead (r ++ c :: q) = true)
    (s : Bytes) : quotedAhead (r ++ s) = true := by
  induction r with
  | nil =>
      rcases class_of_isStop c hc with ⟨hblank, -, -, hquote⟩
      rw [List.nil_append, quotedAhead_cons hblank, hquote] at h
      cases h
  | cons b r ih =>
      rw [List.cons_append] at h ⊢
      cases hb : isBlank b with
      | true =>
          rw [quotedAhead_blank hb] at h ⊢
          exact ih h
      | false =>
          rw [quotedAhead_cons hb] at h ⊢
          exact h

/-!
## Numerals
-/

theorem Shows.scanSign (h : Shows x s) :
    Shows (Numeral.scanSign x).2 (Numeral.scanSign s).2 := by
  cases h with
  | nil => exact Shows.nil _
  | stop hc x s =>
      have hplus := ne_of_isStop (b := Byte.plus) hc rfl
      have hhyphen := ne_of_isStop (b := Byte.hyphen) hc rfl
      simp only [Numeral.scanSign, hplus, hhyphen, decide_false, Bool.or_false,
        Bool.false_eq_true, if_false]
      exact Shows.stop hc x s
  | cons b h =>
      rw [Numeral.scanSign, Numeral.scanSign]
      split
      · exact h
      · exact Shows.cons b h

theorem Shows.scanFraction_nil (h : Shows x s) (hx : (Numeral.scanFraction x).1 = []) :
    (Numeral.scanFraction s).1 = [] := by
  cases h with
  | nil => rfl
  | stop hc x s => simp [Numeral.scanFraction, ne_of_isStop (b := Byte.dot) hc rfl]
  | cons b h =>
      by_cases hb : b = Byte.dot
      · subst hb
        rw [Numeral.scanFraction_eq_nil, Numeral.scan?_dot] at hx ⊢
        intro hs
        apply hx
        refine ⟨rfl, ?_⟩
        rw [← Bool.not_eq_false]
        intro hdigit
        rw [h.not_beginsWith hdigit] at hs
        cases hs.2
      · simp [Numeral.scanFraction, hb]

theorem Shows.scanExponent_none (h : Shows x s) (hx : (Numeral.scanExponent x).1 = none) :
    (Numeral.scanExponent s).1 = none := by
  cases h with
  | nil => rfl
  | stop hc x s => exact scanExponent_of_ne (ne_of_isStop hc rfl) (ne_of_isStop hc rfl) s
  | cons b h =>
      rw [← Option.not_isSome_iff_eq_none, Bool.not_eq_true, Numeral.isSome_scanExponent,
        Bool.and_eq_false_iff] at hx ⊢
      exact hx.imp_right h.scanSign.not_beginsWith

theorem Shows.scan?_none (h : Shows x s) (hx : Numeral.scan? x = none) :
    Numeral.scan? s = none := by
  cases h with
  | nil => rfl
  | stop hc x s => exact Numeral.scan?_eq_none_of_not_opens (class_of_isStop _ hc).2.2.1 s
  | @cons b x s h =>
      rw [← Option.not_isSome_iff_eq_none, Bool.not_eq_true] at hx ⊢
      cases hopens : Numeral.opens b with
      | false => rw [Numeral.scan?_eq_none_of_not_opens hopens]; rfl
      | true =>
          have hsign (hb : b = Byte.plus ∨ b = Byte.hyphen) :
              (Numeral.scan? (b :: s)).isSome = false := by
            rw [Numeral.scan?_sign hb, Bool.or_eq_false_iff, Bool.not_eq_false',
              List.isEmpty_iff] at hx ⊢
            exact ⟨h.not_beginsWith hx.1, h.scanFraction_nil hx.2⟩
          simp only [Numeral.opens, Bool.or_eq_true, decide_eq_true_eq] at hopens
          rcases hopens with ((hb | rfl) | hb) | hb
          · rw [Numeral.scan?_digit hb] at hx
            cases hx
          · rw [Numeral.scan?_dot] at hx ⊢
            exact h.not_beginsWith hx
          · exact hsign (Or.inl hb)
          · exact hsign (Or.inr hb)

theorem Shows.stops (h : Shows x s) {n : Numeral} (hx : n.Stops x) : n.Stops s where
  digit := h.not_beginsWith hx.digit
  fraction hf he := h.scanFraction_nil (hx.fraction hf he)
  exponent he := h.scanExponent_none (hx.exponent he)

theorem Shows.scan?_some (h : Shows x s) {n : Numeral}
    (hn : Numeral.scan? (p ++ x) = some (n, r ++ x)) :
    Numeral.scan? (p ++ s) = some (n, r ++ s) := by
  obtain ⟨hformed, htext, hstops⟩ := Numeral.scan?_eq_some_iff.mp hn
  rw [← List.append_assoc] at htext
  obtain rfl := List.append_cancel_right htext
  rw [List.append_assoc]
  exact Numeral.scan?_text_append hformed ((h.append r).stops hstops)

/-!
## Tokens that end
-/

theorem Shows.stray (h : Shows x s) {b : UInt8} (hx : Stray b x) : Stray b s where
  blank := hx.blank
  quote := hx.quote
  punctuation := hx.punctuation
  operator := h.matchOperator?_none hx.operator
  numeral := (Shows.cons b h).scan?_none hx.numeral
  identifier := (Shows.cons b h).not_startsIdentifier hx.identifier
  comment hb := h.head?_ne (hx.comment hb)
  hash hb := h.not_continuesName (hx.hash hb)
  keyword hb := h.not_startsIdentifier (hx.keyword hb)
  markup hb := h.not_isPrefixOf rfl (hx.markup hb)

/-- Nothing runs on into a printed token that did not before, but a function may lose the
quotation mark behind it. -/
theorem Shows.clear (h : Shows x s) {t : Token} (hx : Clear t x) (ht : t.kind ≠ .function) :
    Clear t s := by
  unfold Clear at hx ⊢
  cases hk : t.kind with
  | ident =>
      rw [hk] at hx
      exact ⟨h.not_continuesName hx.1, h.head?_ne hx.2.1, fun hv => h.head?_ne (hx.2.2 hv)⟩
  | function => exact absurd hk ht
  | atKeyword =>
      rw [hk] at hx
      exact h.not_continuesName hx
  | hash =>
      rw [hk] at hx
      exact h.not_continuesName hx
  | badString =>
      rw [hk] at hx
      cases h with
      | nil => exact Or.inl rfl
      | stop => exact Or.inr (hx.resolve_left (List.cons_ne_nil _ _))
      | cons => exact Or.inr (hx.resolve_left (List.cons_ne_nil _ _))
  | badUrl =>
      rw [hk] at hx
      rcases hx with rfl | hclosed
      · exact Or.inl h.eq_nil
      · exact Or.inr hclosed
  | number =>
      rw [hk] at hx
      exact ⟨h.not_startsIdentifier hx.1, h.head?_ne hx.2.1, h.not_beginsWith hx.2.2.1,
        fun hi => h.scanFraction_nil (hx.2.2.2 hi)⟩
  | dimension =>
      rw [hk] at hx
      exact ⟨h.not_continuesName hx.1,
        fun hl hn => (h.append t.unit).scanExponent_none (hx.2 hl hn)⟩
  | whitespace =>
      rw [hk] at hx
      exact h.not_beginsWith hx
  | delim =>
      rw [hk] at hx
      exact h.stray hx
  | _ => trivial

/-!
## Blanks

What a scanner leaves is what it left before if it stops at the end of `p` or earlier. It
cannot have stopped later, since `x` is what was left then.
-/

theorem ne_append_of_suffix {b : UInt8} {y : Bytes} (hy : y <:+ x) : y ≠ r ++ b :: x := by
  rintro rfl
  have := hy.length_le
  simp only [List.length_append, List.length_cons] at this
  omega

theorem eq_append_of_suffix {y : Bytes} (hy : r ++ q <:+ y) : ∃ p', y = p' ++ q := by
  obtain ⟨w, rfl⟩ := hy
  exact ⟨w ++ r, by rw [List.append_assoc]⟩

theorem Shows.dropWhile (h : Shows x s) {f : UInt8 → Bool}
    (hd : (p ++ x).dropWhile f = r ++ x) :
    (p ++ s).dropWhile f = r ++ s ∧ (p ++ s).takeWhile f = (p ++ x).takeWhile f := by
  induction p with
  | nil =>
      have hx : beginsWith f x = false := by
        cases x with
        | nil => rfl
        | cons b x =>
            rw [← Bool.not_eq_true]
            intro hb
            have hb : f b = true := hb
            rw [List.nil_append, List.dropWhile_cons_of_pos hb] at hd
            exact ne_append_of_suffix (List.dropWhile_suffix f) hd
      have hs := h.not_beginsWith hx
      rw [List.nil_append, dropWhile_eq_self_of_not_beginsWith hx] at hd
      obtain rfl : r = [] := List.self_eq_append_left.mp hd
      rw [List.nil_append, List.nil_append, dropWhile_eq_self_of_not_beginsWith hs,
        takeWhile_eq_nil_of_not_beginsWith hs, takeWhile_eq_nil_of_not_beginsWith hx]
      exact ⟨rfl, rfl⟩
  | cons b p ih =>
      rw [List.cons_append, List.dropWhile_cons] at hd
      rw [List.cons_append, List.cons_append, List.dropWhile_cons, List.takeWhile_cons,
        List.takeWhile_cons]
      split at hd
      · rename_i hb
        rw [if_pos hb, if_pos hb, if_pos hb, (ih hd).2]
        exact ⟨(ih hd).1, rfl⟩
      · rename_i hb
        rw [if_neg hb, if_neg hb, if_neg hb]
        rw [← List.cons_append] at hd ⊢
        rw [List.append_cancel_right hd]
        exact ⟨rfl, rfl⟩

theorem skipBlanks_append (h : skipBlanks p ≠ []) (x : Bytes) :
    skipBlanks (p ++ x) = skipBlanks p ++ x := by
  rw [skipBlanks, List.dropWhile_append, if_neg]
  · rfl
  · rw [List.isEmpty_iff]
    exact h

theorem skipBlanks_append_nil (h : skipBlanks p = []) (x : Bytes) :
    skipBlanks (p ++ x) = skipBlanks x := by
  rw [skipBlanks, List.dropWhile_append, if_pos]
  · rfl
  · rw [List.isEmpty_iff]
    exact h

/-!
## Escapes

An escape that leaves what follows takes a byte before it.
-/

theorem read_cons_suffix (b : UInt8) (bs : Bytes) : (Escape.read (b :: bs)).2 <:+ bs := by
  rw [Escape.read]
  split
  · exact (Escape.dropBlank_suffix _).trans (List.drop_suffix _ bs)
  · exact List.suffix_refl bs

theorem takeWhile_take_eq_nil_iff {f : UInt8 → Bool} {n : Nat} :
    (x.take (n + 1)).takeWhile f = [] ↔ beginsWith f x = false := by
  cases x with
  | nil => exact iff_of_true rfl rfl
  | cons b x =>
      rw [List.take_succ_cons, List.takeWhile_cons, beginsWith_cons]
      cases f b with
      | false => exact iff_of_true rfl rfl
      | true => exact iff_of_false (List.cons_ne_nil b _) Bool.noConfusion

theorem Shows.takeWhile_take (h : Shows x s) {f : UInt8 → Bool} {n : Nat}
    (hlength : (((p ++ x).take n).takeWhile f).length ≤ p.length) :
    ((p ++ s).take n).takeWhile f = ((p ++ x).take n).takeWhile f := by
  induction p generalizing n with
  | nil =>
      have hx := List.length_eq_zero_iff.mp (Nat.le_zero.mp hlength)
      rw [hx]
      cases n with
      | zero => rfl
      | succ n =>
          exact takeWhile_take_eq_nil_iff.mpr (h.not_beginsWith (takeWhile_take_eq_nil_iff.mp hx))
  | cons b p ih =>
      cases n with
      | zero => rfl
      | succ n =>
          rw [List.cons_append, List.take_succ_cons, List.takeWhile_cons] at hlength ⊢
          rw [List.cons_append, List.take_succ_cons, List.takeWhile_cons]
          split
          · rename_i hf
            rw [if_pos hf, List.length_cons] at hlength
            rw [ih (Nat.le_of_succ_le_succ hlength)]
          · rfl

theorem Shows.dropBlank (h : Shows x s) (hd : Escape.dropBlank (p ++ x) = r ++ x) :
    Escape.dropBlank (p ++ s) = r ++ s := by
  cases p with
  | nil =>
      have hx : beginsWith isBlank x = false := by
        cases x with
        | nil => rfl
        | cons b x =>
            rw [← Bool.not_eq_true]
            intro hb
            have hb : isBlank b = true := hb
            rw [List.nil_append, Escape.dropBlank, if_pos hb] at hd
            exact ne_append_of_suffix (List.suffix_refl x) hd
      have hself {t : Bytes} (ht : beginsWith isBlank t = false) : Escape.dropBlank t = t := by
        cases t with
        | nil => rfl
        | cons b t =>
            have hb : isBlank b = false := ht
            rw [Escape.dropBlank, if_neg (by rw [hb]; exact Bool.false_ne_true)]
      rw [List.nil_append, hself hx] at hd
      obtain rfl : r = [] := List.self_eq_append_left.mp hd
      exact hself (h.not_beginsWith hx)
  | cons b p =>
      rw [List.cons_append, Escape.dropBlank] at hd ⊢
      split at hd
      · rename_i hb
        rw [if_pos hb, List.append_cancel_right hd]
      · rename_i hb
        rw [← List.cons_append] at hd
        rw [if_neg hb, ← List.cons_append, List.append_cancel_right hd]

theorem Shows.read (h : Shows x s) {v : Bytes} (hr : Escape.read (p ++ x) = (v, r ++ x)) :
    Escape.read (p ++ s) = (v, r ++ s) := by
  cases p with
  | nil =>
      cases x with
      | nil => exact h.eq_nil ▸ hr
      | cons b x =>
          have hsuffix := read_cons_suffix b x
          rw [List.nil_append] at hr
          rw [hr] at hsuffix
          exact absurd rfl (ne_append_of_suffix hsuffix)
  | cons b p =>
      rw [List.cons_append, Escape.read] at hr ⊢
      split
      · rename_i hb
        rw [if_pos hb] at hr
        obtain ⟨hv, hrest⟩ := Prod.mk.inj hr
        -- The digits end before `x`, or the escape would have taken some of it.
        have hlength : (((p ++ x).take 5).takeWhile isHexDigit).length ≤ p.length := by
          have hdrop := (Escape.dropBlank_suffix
            ((p ++ x).drop (((p ++ x).take 5).takeWhile isHexDigit).length)).length_le
          have htake := (List.takeWhile_prefix isHexDigit (l := (p ++ x).take 5)).length_le
          rw [hrest] at hdrop
          simp only [List.length_append, List.length_drop, List.length_take] at hdrop htake
          omega
        rw [List.drop_append_of_le_length hlength] at hrest
        simp only [h.takeWhile_take hlength, List.drop_append_of_le_length hlength, hv,
          h.dropBlank hrest]
      · rename_i hb
        rw [if_neg hb] at hr
        obtain ⟨rfl, hrest⟩ := Prod.mk.inj hr
        rw [List.append_cancel_right hrest]

theorem Shows.exists_read (h : Shows x s) {f : UInt8 → Bool} (hf : beginsWith f (p ++ x) = true)
    (hr : r ++ x <:+ (Escape.read (p ++ x)).2) :
    beginsWith f (p ++ s) = true ∧ ∃ v w, w.length ≤ p.length ∧
      Escape.read (p ++ x) = (v, w ++ x) ∧ Escape.read (p ++ s) = (v, w ++ s) := by
  obtain ⟨w, hw⟩ := eq_append_of_suffix hr
  have hread : Escape.read (p ++ x) = ((Escape.read (p ++ x)).1, w ++ x) := Prod.ext rfl hw
  have hlength := (Escape.read_suffix (p ++ x)).length_le
  rw [hw] at hlength
  simp only [List.length_append] at hlength
  constructor
  · cases p with
    | nil =>
        cases x with
        | nil => cases hf
        | cons b x => exact absurd hw (ne_append_of_suffix (read_cons_suffix b x))
    | cons b p => exact hf
  · exact ⟨_, w, by omega, hread, h.read hread⟩

/-!
## Names

A name that leaves all of the text does not go on, and an escape at the front of a name that
was read is one in the other text.
-/

theorem not_continuesName_of_scanName {name : Bytes} (hn : scanName x = (name, r ++ x)) :
    continuesName x = false := by
  have hends := continuesName_scanName x
  have hlength := (scanName_suffix x).length_le
  rw [hn, List.length_append] at hlength
  obtain rfl : r = [] := List.length_eq_zero_iff.mp (by omega)
  rw [hn] at hends
  exact hends

theorem Shows.scanName (h : Shows x s) {name : Bytes}
    (hn : Token.scanName (p ++ x) = (name, r ++ x)) :
    Token.scanName (p ++ s) = (name, r ++ s) := by
  induction hlength : p.length using Nat.strongRecOn generalizing p name with
  | ind n ih =>
      subst hlength
      by_cases hstop : continuesName (p ++ x) = false
      · rw [scanName_eq_self hstop] at hn
        obtain ⟨rfl, hr⟩ := Prod.mk.inj hn
        obtain rfl := List.append_cancel_right hr
        exact scanName_eq_self ((h.append p).not_continuesName hstop)
      cases p with
      | nil => exact absurd (not_continuesName_of_scanName hn) hstop
      | cons b p =>
          simp only [List.cons_append] at hn hstop ⊢
          by_cases hb : isNameByte b = true
          · rw [scanName_nameByte hb] at hn ⊢
            obtain ⟨rfl, hr⟩ := Prod.mk.inj hn
            rw [ih p.length (Nat.lt_succ_self _) (Prod.ext rfl hr) rfl]
          · rw [Bool.not_eq_true] at hb
            have hstarts : Escape.starts (b :: (p ++ x)) = true := by
              simpa [continuesName, hb] using hstop
            rw [scanName_escape hb hstarts] at hn
            obtain ⟨rfl, hr⟩ := Prod.mk.inj hn
            rw [Escape.starts_cons, Bool.and_eq_true] at hstarts
            obtain ⟨hnext, v, w, hw, hread, hread'⟩ :=
              h.exists_read hstarts.2 (hr ▸ scanName_suffix _)
            have hstarts' : Escape.starts (b :: (p ++ s)) = true := by
              rw [Escape.starts_cons, hstarts.1, hnext]
              rfl
            rw [scanName_escape hb hstarts']
            rw [hread] at hr ⊢
            rw [hread', ih w.length (Nat.lt_succ_of_le hw) (Prod.ext rfl hr) rfl]

theorem Shows.starts (h : Shows x s) {name : Bytes}
    (hn : Token.scanName (p ++ x) = (name, r ++ x)) (hstarts : Escape.starts (p ++ x) = true) :
    Escape.starts (p ++ s) = true := by
  cases p with
  | nil =>
      have hnot := not_continuesName_of_scanName hn
      rw [Token.continuesName, hstarts, Bool.or_true] at hnot
      cases hnot
  | cons b p =>
      simp only [List.cons_append] at hn hstarts ⊢
      have hsplit := hstarts
      rw [Escape.starts_cons, Bool.and_eq_true, decide_eq_true_eq] at hsplit
      have hname : isNameByte b = false := by
        rw [hsplit.1]
        rfl
      rw [scanName_escape hname hstarts] at hn
      have hnext := (h.exists_read hsplit.2 ((Prod.mk.inj hn).2 ▸ scanName_suffix _)).1
      rw [Escape.starts_cons, hnext, decide_eq_true hsplit.1]
      rfl

theorem Shows.continuesName (h : Shows x s) {name : Bytes}
    (hn : Token.scanName (p ++ x) = (name, r ++ x)) (hx : Token.continuesName (p ++ x) = true) :
    Token.continuesName (p ++ s) = true := by
  cases p with
  | nil =>
      rw [List.nil_append] at hx hn
      rw [not_continuesName_of_scanName hn] at hx
      cases hx
  | cons b p =>
      rw [Token.continuesName, Bool.or_eq_true] at hx ⊢
      exact hx.imp_right (h.starts hn)

theorem Shows.startsIdentifier (h : Shows x s) {name : Bytes}
    (hn : Token.scanName (p ++ x) = (name, r ++ x))
    (hx : Token.startsIdentifier (p ++ x) = true) : Token.startsIdentifier (p ++ s) = true := by
  cases p with
  | nil =>
      rw [List.nil_append] at hx hn
      have hcontinues := continuesName_of_startsIdentifier hx
      rw [not_continuesName_of_scanName hn] at hcontinues
      cases hcontinues
  | cons b p =>
      have hescape := h.starts hn
      simp only [List.cons_append] at hn hescape ⊢
      simp only [List.cons_append, Token.startsIdentifier, Bool.or_eq_true, Bool.and_eq_true,
        decide_eq_true_eq] at hx ⊢
      rcases hx with (hx | hx) | ⟨rfl, hx⟩
      · exact Or.inl (Or.inl hx)
      · exact Or.inl (Or.inr (hescape hx))
      · refine Or.inr ⟨rfl, ?_⟩
        rw [scanName_nameByte rfl] at hn
        have hrest : Token.scanName (p ++ x) = ((Token.scanName (p ++ x)).1, r ++ x) :=
          Prod.ext rfl (Prod.mk.inj hn).2
        cases p with
        | nil =>
            rw [List.nil_append] at hrest hx
            have hnot := not_continuesName_of_scanName hrest
            rw [Token.continuesName, Bool.or_eq_false_iff] at hnot
            rcases hx with hx | hx
            · cases x with
              | nil => cases hx
              | cons d x =>
                  have hd : isNameStart d = true ∨ d = Byte.hyphen := by
                    simpa using hx
                  have hbyte : isNameByte d = false := hnot.1
                  rcases hd with hd | rfl
                  · rw [isNameByte, hd] at hbyte
                    cases hbyte
                  · cases hbyte
            · rw [hnot.2] at hx
              cases hx
        | cons d p => exact hx.imp_right (h.starts hrest)

/-!
## Comments, strings and addresses

A string that leaves the whole text stands at its end or at a newline, and an address that does
has no text before it. Remnants that something follows end with a parenthesis.
-/

theorem scanComment_cons_suffix (b : UInt8) (bs : Bytes) : (scanComment (b :: bs)).2 <:+ bs := by
  cases bs with
  | nil => exact List.nil_suffix
  | cons c bs =>
      by_cases hopen : b = Byte.asterisk ∧ c = Byte.slash
      · obtain ⟨rfl, rfl⟩ := hopen
        rw [scanComment_close]
        exact List.suffix_cons _ bs
      · rw [scanComment_byte hopen]
        exact scanComment_suffix (c :: bs)

theorem Shows.scanComment (h : Shows x s) {value : Bytes}
    (hx : Token.scanComment (p ++ x) = (value, r ++ x)) :
    Token.scanComment (p ++ s) = (value, r ++ s) := by
  cases x with
  | nil => exact h.eq_nil ▸ hx
  | cons d x =>
      have htaken : (Token.scanComment (d :: x)).2 ≠ r ++ d :: x :=
        ne_append_of_suffix (scanComment_cons_suffix d x)
      induction p generalizing value with
      | nil => exact absurd (Prod.mk.inj hx).2 htaken
      | cons b p ih =>
          cases p with
          | nil =>
              rw [List.cons_append, List.nil_append] at hx
              by_cases hopen : b = Byte.asterisk ∧ d = Byte.slash
              · obtain ⟨rfl, rfl⟩ := hopen
                rw [scanComment_close] at hx
                exact absurd (Prod.mk.inj hx).2 (ne_append_of_suffix (List.suffix_refl x))
              · rw [scanComment_byte hopen] at hx
                exact absurd (Prod.mk.inj hx).2 htaken
          | cons c p =>
              simp only [List.cons_append] at hx ih ⊢
              by_cases hopen : b = Byte.asterisk ∧ c = Byte.slash
              · obtain ⟨rfl, rfl⟩ := hopen
                rw [scanComment_close] at hx ⊢
                obtain ⟨rfl, hr⟩ := Prod.mk.inj hx
                rw [List.append_cancel_right hr]
              · rw [scanComment_byte hopen] at hx ⊢
                obtain ⟨rfl, hr⟩ := Prod.mk.inj hx
                rw [ih (Prod.ext rfl hr)]

theorem scanString_cons_suffix (quote : UInt8) {b : UInt8} (hb : b ≠ Byte.newline) (bs : Bytes) :
    (scanString quote (b :: bs)).2 <:+ bs := by
  rw [scanString.eq_def]
  simp only [if_neg hb]
  split
  · exact List.suffix_refl bs
  · split
    · split
      · exact List.nil_suffix
      · split
        · exact (scanString_suffix quote _).trans (List.suffix_cons _ _)
        · exact (scanString_suffix quote _).trans (Escape.read_suffix _)
    · exact scanString_suffix quote bs

theorem newline_of_not_beginsWith
    (h : ¬ beginsWith (fun d => d ≠ Byte.newline) (p ++ x) = true) :
    (∃ p', p = Byte.newline :: p') ∨ p = [] ∧ (x = [] ∨ ∃ x', x = Byte.newline :: x') := by
  cases p with
  | nil =>
      right
      cases x with
      | nil => exact ⟨rfl, Or.inl rfl⟩
      | cons d x =>
          obtain rfl : d = Byte.newline := by
            simpa using h
          exact ⟨rfl, Or.inr ⟨x, rfl⟩⟩
  | cons d p =>
      obtain rfl : d = Byte.newline := by
        simpa using h
      exact Or.inl ⟨p, rfl⟩

theorem Shows.scanString_self (h : Shows x s) {quote : UInt8} (hq : quote ≠ Byte.newline)
    {t : Token} (hx : Token.scanString quote x = (t, r ++ x)) :
    Token.scanString quote s = (t, r ++ s) := by
  cases x with
  | nil => exact h.eq_nil ▸ hx
  | cons b x =>
      by_cases hb : b = Byte.newline
      · subst hb
        rw [scanString_newline hq] at hx
        obtain ⟨rfl, hr⟩ := Prod.mk.inj hx
        obtain rfl : r = [] := List.self_eq_append_left.mp hr
        cases h with
        | nil => rw [List.nil_append, Token.scanString]
        | stop hc => cases hc
        | cons => exact scanString_newline hq _
      · have hsuffix := scanString_cons_suffix quote hb x
        rw [hx] at hsuffix
        exact absurd rfl (ne_append_of_suffix hsuffix)

theorem Shows.scanString (h : Shows x s) {quote : UInt8} (hq : isQuote quote = true) {t : Token}
    (hx : Token.scanString quote (p ++ x) = (t, r ++ x)) :
    Token.scanString quote (p ++ s) = (t, r ++ s) := by
  have hq' : quote ≠ Byte.newline ∧ quote ≠ Byte.backslash := by
    constructor
    · rintro rfl
      cases hq
    · rintro rfl
      cases hq
  induction hn : p.length using Nat.strongRecOn generalizing p t with
  | ind n ih =>
      subst hn
      cases p with
      | nil => exact h.scanString_self hq'.1 hx
      | cons b p =>
          simp only [List.cons_append] at hx ⊢
          by_cases hb : b = quote
          · subst hb
            rw [scanString_quote] at hx ⊢
            obtain ⟨rfl, hr⟩ := Prod.mk.inj hx
            rw [List.append_cancel_right hr]
          by_cases hb' : b = Byte.newline
          · subst hb'
            rw [scanString_newline hq'.1] at hx ⊢
            obtain ⟨rfl, hr⟩ := Prod.mk.inj hx
            rw [← List.cons_append] at hr
            rw [← List.append_cancel_right hr]
            rfl
          by_cases hb'' : b = Byte.backslash
          · subst hb''
            by_cases hbs : beginsWith (fun d => d ≠ Byte.newline) (p ++ x) = true
            · rw [scanString_escape hq'.2 hbs] at hx
              obtain ⟨rfl, hr⟩ := Prod.mk.inj hx
              obtain ⟨hnext, v, w, hw, hread, hread'⟩ :=
                h.exists_read hbs (hr ▸ scanString_suffix quote _)
              rw [scanString_escape hq'.2 hnext]
              rw [hread] at hr ⊢
              rw [hread', ih w.length (Nat.lt_succ_of_le hw) (Prod.ext rfl hr) rfl]
            · rcases newline_of_not_beginsWith hbs with ⟨p, rfl⟩ | ⟨rfl, rfl | ⟨x, rfl⟩⟩
              · simp only [List.cons_append] at hx ⊢
                rw [scanString_continued hq'.2] at hx ⊢
                exact ih p.length (by simp only [List.length_cons]; omega) hx rfl
              · exact h.eq_nil ▸ hx
              · rw [List.nil_append, scanString_continued hq'.2] at hx
                have hsuffix := scanString_suffix quote x
                rw [hx] at hsuffix
                exact absurd rfl (ne_append_of_suffix hsuffix)
          · rw [scanString_byte hb hb' hb''] at hx ⊢
            obtain ⟨rfl, hr⟩ := Prod.mk.inj hx
            rw [ih p.length (Nat.lt_succ_self _) (Prod.ext rfl hr) rfl]

theorem addressByte_cases : ∀ b : UInt8,
    b = Byte.rightParen ∨ isBlank b = true ∨ breaksAddress b = true ∨ b = Byte.backslash ∨
      isAddressByte b = true :=
  forall_byte (by decide +kernel)

theorem scanAddress_cons_suffix (b : UInt8) (bs : Bytes) : (scanAddress (b :: bs)).2 <:+ bs := by
  rcases addressByte_cases b with rfl | hb | hb | rfl | hb
  · rw [scanAddress_rightParen]
  · have hskip := skipBlanks_suffix bs
    rw [scanAddress_blank hb]
    split
    · exact List.nil_suffix
    · rename_i c cs hblanks
      rw [hblanks] at hskip
      split
      · exact (List.suffix_cons c cs).trans hskip
      · exact hskip
  · rw [scanAddress_broken hb]
  · cases bs with
    | nil =>
        rw [scanAddress.eq_def]
        exact List.nil_suffix
    | cons c bs =>
        by_cases hc : c = Byte.newline
        · rw [hc, scanAddress_newline]
        · rw [scanAddress_escape (by simpa using hc)]
          exact (scanAddress_suffix _).trans (Escape.read_suffix (c :: bs))
  · rw [scanAddress_byte hb]
    exact scanAddress_suffix bs

theorem eq_nil_of_scanAddress {value : Option Bytes}
    (hx : scanAddress (skipBlanks x) = (value, r ++ x)) : x = [] := by
  cases x with
  | nil => rfl
  | cons b x =>
      exfalso
      have hsuffix : (scanAddress (skipBlanks (b :: x))).2 <:+ x := by
        cases hb : isBlank b with
        | true =>
            rw [skipBlanks, List.dropWhile_cons_of_pos hb]
            exact (scanAddress_suffix _).trans (skipBlanks_suffix x)
        | false =>
            rw [skipBlanks, List.dropWhile_cons, hb]
            exact scanAddress_cons_suffix b x
      rw [hx] at hsuffix
      exact ne_append_of_suffix hsuffix rfl

/-- Behind blanks only a parenthesis ends an address. -/
def addressEnd (bs : Bytes) : Option Bytes × Bytes :=
  match skipBlanks bs with
  | [] => (none, [])
  | c :: cs => if c = Byte.rightParen then (some [], cs) else (none, c :: cs)

theorem Shows.addressEnd (h : Shows x s) {value : Option Bytes}
    (hx : Token.addressEnd (p ++ x) = (value, r ++ x)) :
    Token.addressEnd (p ++ s) = (value, r ++ s) := by
  rw [Token.addressEnd] at hx ⊢
  by_cases hp : skipBlanks p = []
  · have hsuffix := skipBlanks_suffix x
    have hnot : beginsWith isBlank (skipBlanks x) = false := not_beginsWith_dropWhile isBlank x
    rw [skipBlanks_append_nil hp] at hx ⊢
    cases hblanks : skipBlanks x with
    | nil =>
        rw [hblanks] at hx
        obtain ⟨rfl, hr⟩ := Prod.mk.inj hx
        obtain ⟨rfl, rfl⟩ := List.append_eq_nil_iff.mp hr.symm
        obtain rfl := h.eq_nil
        rfl
    | cons d ds =>
        rw [hblanks] at hx hsuffix hnot
        have hlength := hsuffix.length_le
        simp only at hx
        split at hx
        · have hr := congrArg List.length (Prod.mk.inj hx).2
          simp only [List.length_append, List.length_cons] at hr hlength
          omega
        · rename_i hparen
          obtain ⟨rfl, hr⟩ := Prod.mk.inj hx
          have hx : d :: ds = x := hsuffix.eq_of_length_le (by
            rw [hr, List.length_append]
            omega)
          subst hx
          obtain rfl : r = [] := List.self_eq_append_left.mp hr
          have hs := h.not_beginsWith hnot
          rw [skipBlanks, dropWhile_eq_self_of_not_beginsWith hs]
          cases h with
          | nil => rfl
          | stop => exact if_neg hparen
          | cons => exact if_neg hparen
  · rw [skipBlanks_append hp] at hx ⊢
    obtain ⟨d, ds, hblanks⟩ := List.exists_cons_of_ne_nil hp
    simp only [hblanks, List.cons_append] at hx ⊢
    split at hx
    · rename_i hparen
      obtain ⟨rfl, hr⟩ := Prod.mk.inj hx
      rw [if_pos hparen, List.append_cancel_right hr]
    · rename_i hparen
      obtain ⟨rfl, hr⟩ := Prod.mk.inj hx
      rw [← List.cons_append] at hr
      rw [if_neg hparen, ← List.cons_append, List.append_cancel_right hr]

theorem Shows.scanAddress (h : Shows x s) {value : Option Bytes}
    (hx : Token.scanAddress (p ++ x) = (value, r ++ x)) :
    Token.scanAddress (p ++ s) = (value, r ++ s) := by
  induction hn : p.length using Nat.strongRecOn generalizing p value with
  | ind n ih =>
      subst hn
      cases p with
      | nil =>
          cases x with
          | nil => exact h.eq_nil ▸ hx
          | cons b x =>
              have hsuffix := scanAddress_cons_suffix b x
              rw [List.nil_append] at hx
              rw [hx] at hsuffix
              exact absurd rfl (ne_append_of_suffix hsuffix)
      | cons b p =>
          simp only [List.cons_append] at hx ⊢
          rcases addressByte_cases b with rfl | hb | hb | rfl | hb
          · rw [scanAddress_rightParen] at hx ⊢
            obtain ⟨rfl, hr⟩ := Prod.mk.inj hx
            rw [List.append_cancel_right hr]
          · rw [scanAddress_blank hb] at hx ⊢
            exact h.addressEnd hx
          · rw [scanAddress_broken hb] at hx ⊢
            obtain ⟨rfl, hr⟩ := Prod.mk.inj hx
            rw [List.append_cancel_right hr]
          · by_cases hbs : beginsWith (fun d => d ≠ Byte.newline) (p ++ x) = true
            · rw [scanAddress_escape hbs] at hx
              obtain ⟨rfl, hr⟩ := Prod.mk.inj hx
              obtain ⟨hnext, v, w, hw, hread, hread'⟩ :=
                h.exists_read hbs (hr ▸ scanAddress_suffix _)
              rw [scanAddress_escape hnext]
              rw [hread] at hr ⊢
              rw [hread', ih w.length (Nat.lt_succ_of_le hw) (Prod.ext rfl hr) rfl]
            · rcases newline_of_not_beginsWith hbs with ⟨p, rfl⟩ | ⟨rfl, rfl | ⟨x, rfl⟩⟩
              · simp only [List.cons_append] at hx ⊢
                rw [scanAddress_newline] at hx ⊢
                obtain ⟨rfl, hr⟩ := Prod.mk.inj hx
                rw [← List.cons_append] at hr
                rw [← List.cons_append, List.append_cancel_right hr]
              · exact h.eq_nil ▸ hx
              · rw [List.nil_append, scanAddress_newline] at hx
                obtain ⟨rfl, hr⟩ := Prod.mk.inj hx
                obtain rfl : r = [] := List.self_eq_append_left.mp hr
                cases h with
                | nil =>
                    rw [Token.scanAddress.eq_def]
                    rfl
                | stop hc => cases hc
                | cons => exact scanAddress_newline _
          · rw [scanAddress_byte hb] at hx ⊢
            obtain ⟨rfl, hr⟩ := Prod.mk.inj hx
            rw [ih p.length (Nat.lt_succ_self _) (Prod.ext rfl hr) rfl]

theorem skipRemnants_rightParen (bs : Bytes) : skipRemnants (Byte.rightParen :: bs) = bs := by
  cases bs with
  | nil => rfl
  | cons c bs => rw [skipRemnants, if_pos rfl]

theorem skipRemnants_escape {c : UInt8} (hc : c ≠ Byte.newline) (bs : Bytes) :
    skipRemnants (Byte.backslash :: c :: bs) = skipRemnants bs := by
  rw [skipRemnants, if_neg (by decide), if_pos (by simp [hc])]

theorem skipRemnants_byte {b : UInt8} {bs : Bytes} (hb : b ≠ Byte.rightParen)
    (hs : b = Byte.backslash → bs.head? = some Byte.newline) :
    skipRemnants (b :: bs) = skipRemnants bs := by
  cases bs with
  | nil => rfl
  | cons c bs =>
      have hescape : ¬ (b = Byte.backslash ∧ c ≠ Byte.newline) := fun h =>
        h.2 (Option.some.inj (hs h.1))
      rw [skipRemnants, if_neg hb, if_neg (by simpa using hescape)]

theorem skipRemnants_cons_suffix (b : UInt8) (bs : Bytes) : skipRemnants (b :: bs) <:+ bs := by
  cases bs with
  | nil => exact List.nil_suffix
  | cons c bs =>
      rw [skipRemnants]
      split
      · exact List.suffix_refl _
      split
      · exact (skipRemnants_suffix bs).trans (List.suffix_cons c _)
      · exact skipRemnants_suffix (c :: bs)

theorem Shows.skipRemnants (h : Shows x s) (hx : Token.skipRemnants (p ++ x) = r ++ x) :
    Token.skipRemnants (p ++ s) = r ++ s := by
  cases x with
  | nil => exact h.eq_nil ▸ hx
  | cons c x =>
      have htaken : ∀ y : Bytes, y <:+ x → y ≠ r ++ c :: x := fun _ => ne_append_of_suffix
      induction hn : p.length using Nat.strongRecOn generalizing p with
      | ind n ih =>
          subst hn
          match p with
          | [] => exact absurd hx (htaken _ (skipRemnants_cons_suffix c x))
          | [b] =>
              simp only [List.cons_append, List.nil_append] at hx ⊢
              by_cases hparen : b = Byte.rightParen
              · subst hparen
                rw [skipRemnants_rightParen] at hx ⊢
                obtain rfl : r = [] := List.self_eq_append_left.mp hx
                rfl
              by_cases hescape : b = Byte.backslash ∧ c ≠ Byte.newline
              · obtain ⟨rfl, hc⟩ := hescape
                rw [skipRemnants_escape hc] at hx
                exact absurd hx (htaken _ (skipRemnants_suffix x))
              · have hbyte (hb : b = Byte.backslash) : (c :: x).head? = some Byte.newline :=
                  congrArg some (Classical.not_not.mp fun hc => hescape ⟨hb, hc⟩)
                rw [skipRemnants_byte hparen hbyte] at hx
                exact absurd hx (htaken _ (skipRemnants_cons_suffix c x))
          | b :: d :: p =>
              simp only [List.cons_append] at hx ⊢
              by_cases hparen : b = Byte.rightParen
              · subst hparen
                rw [skipRemnants_rightParen] at hx ⊢
                obtain rfl : d :: p = r := List.append_cancel_right hx
                rfl
              by_cases hescape : b = Byte.backslash ∧ d ≠ Byte.newline
              · obtain ⟨rfl, hd⟩ := hescape
                rw [skipRemnants_escape hd] at hx ⊢
                exact ih p.length (by simp only [List.length_cons]; omega) hx rfl
              · have hbyte (y : Bytes) (hb : b = Byte.backslash) :
                    (d :: y).head? = some Byte.newline :=
                  congrArg some (Classical.not_not.mp fun hd => hescape ⟨hb, hd⟩)
                rw [skipRemnants_byte hparen (hbyte _)] at hx ⊢
                exact ih (d :: p).length (Nat.lt_succ_self _) hx rfl

theorem exists_skipRemnants {x rest : Bytes} (h : skipRemnants x = rest) (hne : rest ≠ []) :
    ∃ w, x = w ++ Byte.rightParen :: rest ∧
      ∀ rest', skipRemnants (w ++ Byte.rightParen :: rest') = rest' := by
  fun_induction skipRemnants x with
  | case1 => exact absurd h.symm hne
  | case2 b => exact absurd h.symm hne
  | case3 c bs => exact ⟨[], by rw [h]; rfl, skipRemnants_rightParen⟩
  | case4 b c bs hb hs ih =>
      obtain ⟨w, rfl, hw⟩ := ih h
      simp only [Bool.and_eq_true, decide_eq_true_eq] at hs
      refine ⟨b :: c :: w, rfl, ?_⟩
      intro rest'
      rw [hs.1]
      exact (skipRemnants_escape hs.2 _).trans (hw rest')
  | case5 b c bs hb hs ih =>
      obtain ⟨w, hx, hw⟩ := ih h
      refine ⟨b :: w, by rw [hx]; rfl, ?_⟩
      intro rest'
      have hescape : b = Byte.backslash →
          (w ++ Byte.rightParen :: rest').head? = some Byte.newline := by
        intro hback
        have hnewline : c = Byte.newline := by
          simpa [hback] using hs
        rw [List.head?_append, List.head?_cons,
          ← List.head?_cons (a := Byte.rightParen) (l := rest), ← List.head?_append, ← hx,
          hnewline]
        rfl
      exact (skipRemnants_byte hb hescape).trans (hw rest')

/-!
## Tokens
-/

theorem Shows.exists_address (h : Shows x s) {inside : Bytes} {value : Option Bytes}
    (hx : Token.scanAddress (skipBlanks inside) = (value, r ++ x)) :
    ∃ v, inside = v ++ x ∧ Token.scanAddress (skipBlanks (v ++ s)) = (value, r ++ s) := by
  have hsuffix := (scanAddress_suffix (skipBlanks inside)).trans (skipBlanks_suffix inside)
  rw [hx] at hsuffix
  obtain ⟨v, rfl⟩ := eq_append_of_suffix hsuffix
  refine ⟨v, rfl, ?_⟩
  by_cases hv : skipBlanks v = []
  · rw [skipBlanks_append_nil hv] at hx
    obtain rfl := eq_nil_of_scanAddress hx
    obtain rfl := h.eq_nil
    rw [skipBlanks_append_nil hv]
    exact hx
  · rw [skipBlanks_append hv] at hx ⊢
    exact h.scanAddress hx

/-- A token is the same before every text that shows no more than the one that followed it. A
function needs the quotation mark that came after it. -/
theorem Reads.of_shows {t : Token} (hread : Reads (p ++ x) t (r ++ x)) (h : Shows x s)
    (hquote : t.kind = .function → quotedAhead (r ++ x) = true → quotedAhead (r ++ s) = true) :
    Reads (p ++ s) t (r ++ s) := by
  obtain ⟨taken, htaken⟩ := hread.suffix
  rw [← List.append_assoc] at htaken
  obtain rfl := List.append_cancel_right htaken
  have hp : taken ++ r ≠ [] := by
    intro hnil
    have hlength := hread.length_lt
    rw [hnil, List.nil_append, List.length_append] at hlength
    omega
  obtain ⟨b, p, hcons⟩ := List.exists_cons_of_ne_nil hp
  rw [hcons] at hread ⊢
  generalize hfront : b :: p ++ x = front at hread
  generalize hback : r ++ x = back at hread
  cases hread with
  | whitespace hb =>
      obtain ⟨rfl, rfl⟩ : b = _ ∧ p ++ x = _ := List.cons.inj hfront
      obtain ⟨hdrop, htake⟩ := h.dropWhile hback.symm
      rw [← htake, ← hdrop]
      exact Reads.whitespace hb
  | @comment bs value _ hcomment =>
      rw [← hback] at hcomment
      obtain ⟨v, rfl⟩ := eq_append_of_suffix ((Prod.mk.inj hcomment).2 ▸ scanComment_suffix bs)
      have hpre : b :: p = Byte.slash :: Byte.asterisk :: v := List.append_cancel_right hfront
      rw [hpre]
      exact Reads.comment (h.scanComment hcomment)
  | string hq hstring =>
      obtain ⟨rfl, rfl⟩ : b = _ ∧ p ++ x = _ := List.cons.inj hfront
      rw [← hback] at hstring
      exact Reads.string hq (h.scanString hq hstring)
  | badString hq hstring =>
      obtain ⟨rfl, rfl⟩ : b = _ ∧ p ++ x = _ := List.cons.inj hfront
      rw [← hback] at hstring
      exact Reads.badString hq (h.scanString hq hstring)
  | hash hcontinues hn =>
      obtain ⟨rfl, rfl⟩ : b = _ ∧ p ++ x = _ := List.cons.inj hfront
      rw [← hback] at hn
      exact Reads.hash (h.continuesName hn hcontinues) (h.scanName hn)
  | atKeyword hstart hn =>
      obtain ⟨rfl, rfl⟩ : b = _ ∧ p ++ x = _ := List.cons.inj hfront
      rw [← hback] at hn
      exact Reads.atKeyword (h.startsIdentifier hn hstart) (h.scanName hn)
  | punctuation hpunctuation =>
      obtain ⟨rfl, rfl⟩ : b = _ ∧ p ++ x = _ := List.cons.inj hfront
      obtain rfl := List.append_cancel_right hback
      exact Reads.punctuation hpunctuation
  | @operator d _ kind ho =>
      subst hback
      have hpre : b :: p = d :: Byte.equals :: r := List.append_cancel_right hfront
      rw [hpre]
      exact Reads.operator ho
  | number hn hstart hpercent =>
      subst hfront hback
      have hends := h.append r
      exact Reads.number (h.scan?_some hn) (hends.not_startsIdentifier hstart)
        (hends.head?_ne hpercent)
  | percentage hn =>
      subst hfront hback
      rw [← List.cons_append] at hn
      exact Reads.percentage (h.scan?_some hn)
  | dimension hn hstart hu =>
      subst hfront hback
      obtain ⟨w, rfl⟩ := eq_append_of_suffix ((Prod.mk.inj hu).2 ▸ scanName_suffix _)
      exact Reads.dimension (h.scan?_some hn) (h.startsIdentifier hu hstart) (h.scanName hu)
  | cdc =>
      subst hback
      have hpre : b :: p = ascii "-->" ++ r := List.append_cancel_right hfront
      rw [hpre]
      exact Reads.cdc
  | cdo =>
      subst hback
      have hpre : b :: p = ascii "<!--" ++ r := List.append_cancel_right hfront
      rw [hpre]
      exact Reads.cdo
  | ident hstart harrow hn hparen =>
      subst hfront hback
      exact Reads.ident (h.startsIdentifier hn hstart) ((h.append _).not_isPrefixOf rfl harrow)
        (h.scanName hn) ((h.append r).head?_ne hparen)
  | function hstart hn hu =>
      subst hfront hback
      rw [callsUrl, Bool.and_eq_false_iff, Bool.not_eq_false'] at hu
      rw [← List.cons_append] at hn
      apply Reads.function (h.startsIdentifier hn hstart) (h.scanName hn)
      rw [callsUrl, Bool.and_eq_false_iff, Bool.not_eq_false']
      exact hu.imp_right (hquote rfl)
  | @url _ name inside _ _ hstart hn hu ha =>
      subst hfront hback
      obtain ⟨v, rfl, haddress⟩ := h.exists_address ha
      rw [← List.cons_append] at hn
      exact Reads.url (h.startsIdentifier hn hstart) (h.scanName hn) ((h.append v).callsUrl hu)
        haddress
  | @badUrl _ name inside after hstart hn hu ha =>
      subst hfront
      obtain ⟨w, rfl⟩ := eq_append_of_suffix (hback ▸ skipRemnants_suffix after)
      obtain ⟨v, rfl, haddress⟩ := h.exists_address ha
      rw [← List.cons_append] at hn
      have hreads := Reads.badUrl (h.startsIdentifier hn hstart) (h.scanName hn)
        ((h.append v).callsUrl hu) haddress
      rw [h.skipRemnants hback.symm, ← hcons, List.append_assoc, upTo_append] at hreads
      rw [← hback, ← hcons, List.append_assoc, List.append_assoc, upTo_append]
      exact hreads
  | delim hb =>
      obtain ⟨rfl, rfl⟩ : b = _ ∧ p ++ x = _ := List.cons.inj hfront
      obtain rfl := List.append_cancel_right hback
      exact Reads.delim ((h.append _).stray hb)

/-- A token that leaves a stop byte is the same before every text that the byte begins, and
at the end of the text. -/
theorem Reads.of_stop (hc : isStop c = true) {t : Token}
    (h : Reads (p ++ c :: q) t (r ++ c :: q)) (hs : Halts c s) : Reads (p ++ s) t (r ++ s) :=
  h.of_shows (hs.shows hc q) fun _ hquote => quotedAhead_stop hc hquote s

end

end Token
end CssText
