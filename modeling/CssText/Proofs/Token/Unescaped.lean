import CssText.Proofs.Token.Portable

/-!
# Texts without escapes

A text that holds no backslash spells its names as they are, and nothing in it is kept apart
by an escape. So every run of its tokens is read back from its printed form in front of the
bytes that end all tokens, if only the last token of the run does not ask for more.
-/

namespace CssText
namespace Token

def Unescaped (text : Bytes) : Prop :=
  Byte.backslash ∉ text

theorem Unescaped.suffix {text rest : Bytes} (h : Unescaped text) (hs : rest <:+ text) :
    Unescaped rest := by
  intro hmem
  exact h (hs.subset hmem)

theorem Unescaped.head_ne {b : UInt8} {bs : Bytes} (h : Unescaped (b :: bs)) :
    b ≠ Byte.backslash := by
  rintro rfl
  exact h List.mem_cons_self

theorem Unescaped.starts {text : Bytes} (h : Unescaped text) : Escape.starts text = false := by
  cases text with
  | nil => rfl
  | cons b bs => rw [Escape.starts_cons, decide_eq_false h.head_ne, Bool.false_and]

/-!
## Names

A name that is spelled out needs no escapes, so it is printed as it stands in the text.
-/

theorem scanName_unescaped {bs : Bytes} (h : Unescaped bs) :
    (scanName bs).1 ++ (scanName bs).2 = bs ∧ ∀ b ∈ (scanName bs).1, isNameByte b = true := by
  induction bs with
  | nil =>
      rw [scanName]
      constructor
      · rfl
      · intro b hb
        cases hb
  | cons b bs ih =>
      by_cases hb : isNameByte b = true
      · rcases ih (h.suffix (List.suffix_cons b bs)) with ⟨happend, hall⟩
        rw [scanName_nameByte hb]
        constructor
        · rw [List.cons_append, happend]
        · intro c hc
          rcases List.mem_cons.mp hc with rfl | hc
          · exact hb
          · exact hall c hc
      · have hstop : continuesName (b :: bs) = false := by
          rw [continuesName, beginsWith_cons, h.starts, Bool.or_false]
          exact Bool.eq_false_iff.mpr hb
        rw [scanName_eq_self hstop]
        constructor
        · rfl
        · intro c hc
          cases hc

theorem digit_spec : ∀ b : UInt8, isDigit b = true → (isNameStart b || b = Byte.hyphen) = false :=
  forall_byte (by decide +kernel)

theorem name_eq_self {name : Bytes} (h : ∀ b ∈ name, isNameByte b = true) :
    Escape.name name = name :=
  flatMap_eq_self fun b hb => if_pos (h b hb)

theorem identifier_scanName {bs : Bytes} (h : Unescaped bs) (hs : startsIdentifier bs = true) :
    Escape.identifier (scanName bs).1 = (scanName bs).1 := by
  have hne := scanName_ne_nil (continuesName_of_startsIdentifier hs)
  have hend := continuesName_scanName bs
  have hdigit := not_digit_of_startsIdentifier hs
  rcases scanName_unescaped h with ⟨happend, hall⟩
  cases hname : (scanName bs).1 with
  | nil => exact absurd hname hne
  | cons b name =>
      rw [hname] at happend hall
      rw [← happend, List.cons_append] at h hs hdigit
      have hb : isDigit b = false := hdigit
      have hbyte : Escape.nameByte b = [b] := if_pos (hall b List.mem_cons_self)
      have htail : ∀ c ∈ name, isNameByte c = true := by
        intro c hc
        exact hall c (List.mem_cons_of_mem b hc)
      have hunescaped := h.suffix (List.suffix_cons b _)
      cases name with
      | nil =>
          have hhyphen : b ≠ Byte.hyphen := by
            rintro rfl
            rw [List.nil_append] at hs hunescaped
            rw [startsIdentifier_hyphen_cons, hunescaped.starts, Bool.or_false] at hs
            rw [continuesName, Bool.or_eq_false_iff] at hend
            cases hrest : (scanName bs).2 with
            | nil =>
                rw [hrest] at hs
                cases hs
            | cons c cs =>
                rw [hrest, beginsWith_cons] at hs hend
                rw [isNameByte, Bool.or_eq_false_iff, Bool.or_eq_false_iff] at hend
                rw [hend.1.1.1, Bool.false_or, decide_eq_true_eq] at hs
                rw [hs] at hend
                cases hend.1.2
          simp only [Escape.identifier, hb, hhyphen, hbyte, Bool.false_eq_true, if_false]
      | cons c name =>
          have hhyphen : (b = Byte.hyphen && isDigit c) = false := by
            rw [Bool.and_eq_false_iff, decide_eq_false_iff_not]
            by_cases hb : b = Byte.hyphen
            · right
              rw [hb, List.cons_append, startsIdentifier_hyphen_cons] at hs
              rw [List.cons_append] at hunescaped
              rw [hunescaped.starts, Bool.or_false, beginsWith_cons] at hs
              rw [← Bool.not_eq_true]
              intro hc
              rw [digit_spec c hc] at hs
              cases hs
            · left
              exact hb
          simp only [Escape.identifier, hb, hhyphen, hbyte, Bool.false_eq_true, if_false,
            name_eq_self htail, List.singleton_append]

theorem Reads.scanName {text rest : Bytes} {t : Token} (h : Reads text t rest)
    (ht : t.kind = .ident ∨ t.kind = .function) :
    startsIdentifier text = true ∧ t.value = (scanName text).1 ∧
      (t.kind = .ident → rest = (Token.scanName text).2) := by
  cases h with
  | @punctuation c _ kind hp =>
      exfalso
      have hname := (class_of_punctuation c kind hp).2.2.1
      rcases ht with rfl | rfl <;> cases hname
  | @operator c _ kind ho =>
      exfalso
      have hname := (class_of_operator c kind ho).2.2.1
      rcases ht with rfl | rfl <;> cases hname
  | ident hs hc hn hp =>
      rw [hn]
      exact ⟨hs, rfl, fun _ => rfl⟩
  | function hs hn hu =>
      rw [hn]
      exact ⟨hs, rfl, fun h => by cases h⟩
  | _ =>
      exfalso
      rcases ht with ht | ht <;> cases ht

theorem Reads.begins_value {text rest : Bytes} {t : Token} (h : Reads text t rest)
    (hu : Unescaped text) (ht : t.kind = .ident ∨ t.kind = .function) : t.value <+: text := by
  rw [(h.scanName ht).2.1]
  exact ⟨_, (scanName_unescaped hu).1⟩

theorem Reads.text_ident {text rest : Bytes} {t : Token} (h : Reads text t rest)
    (hu : Unescaped text) (ht : t.kind = .ident) : text = t.value ++ rest := by
  rcases h.scanName (Or.inl ht) with ⟨-, hvalue, hrest⟩
  rw [hvalue, hrest ht, (scanName_unescaped hu).1]

theorem Reads.identifier_eq {text rest : Bytes} {t : Token} (h : Reads text t rest)
    (hu : Unescaped text) (ht : t.kind = .ident ∨ t.kind = .atKeyword) :
    Escape.identifier t.value = t.value := by
  rcases ht with ht | ht
  · rcases h.scanName (Or.inl ht) with ⟨hs, hvalue, -⟩
    rw [hvalue, identifier_scanName hu hs]
  · cases h with
    | @punctuation c _ kind hp =>
        obtain rfl : kind = .atKeyword := ht
        cases standsAlone_of_punctuation c _ hp
    | @operator c _ kind ho =>
        obtain rfl : kind = .atKeyword := ht
        cases standsAlone_of_operator c _ ho
    | atKeyword hs hn =>
        have hname := identifier_scanName (hu.suffix (List.suffix_cons _ _)) hs
        rw [hn] at hname
        exact hname
    | _ => cases ht

/-!
## Neighbours

Without escapes nothing has kept two tokens apart that run together: after a name no other
name begins, and the plus sign of a number stands in the text with the digit after it.
-/

theorem Reads.text_isDelim {text rest : Bytes} {t : Token} {b : UInt8} (h : Reads text t rest)
    (ht : t.isDelim b = true) : text = b :: rest := by
  rw [isDelim, Bool.and_eq_true, decide_eq_true_eq, decide_eq_true_eq] at ht
  cases h with
  | @punctuation c _ kind hp =>
      obtain rfl : kind = .delim := ht.1
      cases standsAlone_of_punctuation c _ hp
  | @operator c _ kind ho =>
      obtain rfl : kind = .delim := ht.1
      cases standsAlone_of_operator c _ ho
  | @delim c _ hc =>
      obtain rfl : c = b := (List.cons.inj ht.2).1
      rfl
  | _ => cases ht.1

theorem Reads.exists_numeral {text rest : Bytes} {t : Token} (h : Reads text t rest)
    (ht : t.kind.isNumeric = true) :
    ∃ n after w, Numeral.scan? text = some (n, after) ∧ t.value = n.text ++ w := by
  cases h with
  | @punctuation c _ kind hp =>
      exfalso
      have hnumeric := (class_of_punctuation c kind hp).2.2.2
      rw [plain, hnumeric] at ht
      cases ht
  | @operator c _ kind ho =>
      exfalso
      have hnumeric := (class_of_operator c kind ho).2.2.2
      rw [plain, hnumeric] at ht
      cases ht
  | @number _ _ n hn hs hp => exact ⟨n, _, [], hn, (List.append_nil _).symm⟩
  | @percentage _ _ n hn => exact ⟨n, _, _, hn, rfl⟩
  | @dimension _ _ _ _ n hn hs hu => exact ⟨n, _, _, hn, rfl⟩
  | _ => cases ht

theorem Reads.begins_sign {text rest : Bytes} {t : Token} {d : UInt8} (h : Reads text t rest)
    (ht : t.kind.isNumeric = true) (hvalue : [Byte.plus, d] <+: t.value) :
    [Byte.plus, d] <+: text := by
  rcases h.exists_numeral ht with ⟨n, after, w, hn, hw⟩
  rcases Numeral.formed_of_scan? hn with ⟨hformed, rfl, -⟩
  rw [hw] at hvalue
  have hplus : n.text.head? = some Byte.plus := by
    rcases List.exists_cons_of_ne_nil hformed.text_ne_nil with ⟨c, bs, hcons⟩
    rw [hcons, List.cons_append, List.cons_prefix_cons] at hvalue
    rw [hcons, hvalue.1]
    rfl
  have hinside : [Byte.plus, d] <+: n.text :=
    List.prefix_of_prefix_length_le hvalue (List.prefix_append _ _)
      (hformed.two_le_length hplus)
  exact hinside.trans (List.prefix_append _ _)

theorem not_blurs_of_unescaped {text : Bytes} (hu : Unescaped text) : ¬ Blurs (ofText text) := by
  intro hblurs
  generalize hts : ofText text = ts at hblurs
  cases hblurs with
  | @arrow t u us ht hvalue hgreater =>
      rcases exists_reads_of_ofText hts with ⟨rest, hreads, hrest⟩
      rcases exists_reads_of_ofText hrest with ⟨rest', hreads', -⟩
      have htext := hreads.text_ident hu ht
      rw [hvalue, hreads'.text_isDelim hgreater] at htext
      have hcdc : Reads text (plain .cdc (ascii "-->")) rest' := htext ▸ Reads.cdc
      rw [hcdc.ofText_eq] at hts
      rw [← (List.cons.inj hts).1] at ht
      cases ht
  | @markup t u v us ht hmark hkind hvalue =>
      rcases exists_reads_of_ofText hts with ⟨rest, hreads, hrest⟩
      rcases exists_reads_of_ofText hrest with ⟨rest', hreads', hrest'⟩
      rcases exists_reads_of_ofText hrest' with ⟨rest'', hreads'', -⟩
      have htext := hreads.text_isDelim ht
      have htext' := hreads'.text_isDelim hmark
      rw [htext'] at htext
      have hunescaped : Unescaped rest' := by
        apply hu.suffix
        rw [htext]
        exact (List.suffix_cons _ _).trans (List.suffix_cons _ _)
      rcases hvalue.trans (hreads''.begins_value hunescaped hkind) with ⟨z, hz⟩
      rw [← hz] at htext
      have hcdo : Reads text (plain .cdo (ascii "<!--")) z := htext ▸ Reads.cdo
      rw [hcdo.ofText_eq] at hts
      rw [← (List.cons.inj hts).1] at ht
      cases ht
  | @exponent t u us ht hunit hnone hnumeric d hd hvalue =>
      rcases exists_reads_of_ofText hts with ⟨rest, hreads, hrest⟩
      rcases exists_reads_of_ofText hrest with ⟨rest', hreads', -⟩
      rcases hreads'.begins_sign hnumeric hvalue with ⟨z, hz⟩
      cases hreads with
      | @punctuation c _ kind hp =>
          obtain rfl : kind = .dimension := ht
          cases standsAlone_of_punctuation c _ hp
      | @operator c _ kind ho =>
          obtain rfl : kind = .dimension := ht
          cases standsAlone_of_operator c _ ho
      | @dimension _ after unit _ n hn hs hname =>
          rcases Numeral.formed_of_scan? hn with ⟨hformed, rfl, hstops⟩
          have happend := (scanName_unescaped (hu.suffix (List.suffix_append _ after))).1
          rw [hname] at happend
          have hexponent : n.exponent = none := by
            rw [hasExponent_dimension hformed] at hnone
            exact Option.isNone_iff_eq_none.mp (Option.isSome_eq_false_iff.mp hnone)
          have hscan := hstops.exponent hexponent
          have hsome : (Numeral.scanExponent (unit ++ rest)).1.isSome = true := by
            rw [← hz]
            rcases hunit with rfl | rfl
            · rw [List.singleton_append, Numeral.isSome_scanExponent]
              exact hd
            · rw [List.singleton_append, Numeral.isSome_scanExponent]
              exact hd
          rw [happend, hscan] at hsome
          cases hsome
      | _ => cases ht

theorem clear_of_unescaped {text rest : Bytes} {t : Token} (hu : Unescaped text)
    (h : Reads text t rest) : Clear t rest := by
  apply clear_of_not_blurs h
  rw [← h.ofText_eq]
  exact not_blurs_of_unescaped hu

theorem not_beginsName_after {text : Bytes} {t u : Token} {us : List Token}
    (hu : Unescaped text) (h : ofText text = t :: u :: us)
    (ht : t.kind = .ident ∨ t.kind = .hash) : beginsName u.kind = false := by
  rcases exists_reads_of_ofText h with ⟨rest, hreads, hrest⟩
  rcases exists_reads_of_ofText hrest with ⟨rest', hreads', -⟩
  have hclear := clear_of_unescaped hu hreads
  have hname : continuesName rest = false := by
    rcases ht with ht | ht
    · rw [Clear, ht] at hclear
      exact hclear.1
    · rw [Clear, ht] at hclear
      exact hclear
  rw [← hreads'.fronts.identifier, ← Bool.not_eq_true]
  intro hs
  rw [continuesName_of_startsIdentifier hs] at hname
  cases hname

theorem not_whitespace_after {text : Bytes} {t u : Token} {us : List Token}
    (hu : Unescaped text) (h : ofText text = t :: u :: us) (ht : t.kind = .whitespace) :
    u.kind ≠ .whitespace := by
  rcases exists_reads_of_ofText h with ⟨rest, hreads, hrest⟩
  rcases exists_reads_of_ofText hrest with ⟨rest', hreads', -⟩
  have hclear := clear_of_unescaped hu hreads
  rw [Clear, ht] at hclear
  intro hkind
  rcases hreads'.exists_blank hkind with ⟨b, bs, rfl, hb, -⟩
  have hblank : isBlank b = false := hclear
  rw [hb] at hblank
  cases hblank

/-!
## Addresses
-/

theorem zero_not_mem_scanAddress {bs : Bytes} (hu : Unescaped bs) :
    ∀ value ∈ (scanAddress bs).1, 0 ∉ value := by
  fun_induction scanAddress bs with
  | case1 =>
      intro value h
      cases h
  | case2 bs =>
      rintro _ ⟨⟩
      exact List.not_mem_nil
  | case3 b bs hb hblank hs =>
      intro value h
      cases h
  | case4 b bs hb hblank cs hs =>
      rintro _ ⟨⟩
      exact List.not_mem_nil
  | case5 b bs hb hblank c cs hs hc =>
      intro value h
      cases h
  | case6 b bs hb hblank hq =>
      intro value h
      cases h
  | case7 hb hblank hq => exact absurd rfl hu.head_ne
  | case8 cs hb hblank hq => exact absurd rfl hu.head_ne
  | case9 c cs hc escape address hb hblank hq ih => exact absurd rfl hu.head_ne
  | case10 b bs hb hblank hq hs address ih =>
      intro value h
      rcases Option.map_eq_some_iff.mp h with ⟨more, hmore, rfl⟩
      have hne : (0 : UInt8) ≠ b := by
        rintro rfl
        exact hq rfl
      rw [List.mem_cons, not_or]
      exact ⟨hne, ih (hu.suffix (List.suffix_cons b bs)) more hmore⟩

theorem Reads.zero_not_mem_url {text rest : Bytes} {t : Token} (h : Reads text t rest)
    (hu : Unescaped text) (ht : t.kind = .url) : 0 ∉ t.value := by
  cases h with
  | @punctuation c _ kind hp =>
      obtain rfl : kind = .url := ht
      cases (class_of_punctuation c _ hp).2.2.1
  | @operator c _ kind ho =>
      obtain rfl : kind = .url := ht
      cases (class_of_operator c _ ho).2.2.1
  | url hs hn hcalls ha =>
      have hinside := scanName_suffix text
      rw [hn] at hinside
      have hsuffix := (skipBlanks_suffix _).trans ((List.suffix_cons _ _).trans hinside)
      have hvalue := zero_not_mem_scanAddress (hu.suffix hsuffix)
      rw [ha] at hvalue
      exact hvalue _ rfl
  | _ => cases ht

theorem zero_not_mem_url {text : Bytes} {t : Token} (hu : Unescaped text) (h : t ∈ ofText text)
    (ht : t.kind = .url) : 0 ∉ t.value := by
  rcases List.append_of_mem h with ⟨us, vs, htext⟩
  rcases exists_suffix_of_ofText htext with ⟨rest, hsuffix, hrest⟩
  rcases exists_reads_of_ofText hrest with ⟨rest', hreads, -⟩
  exact hreads.zero_not_mem_url (hu.suffix hsuffix) ht

/-!
## Printed runs
-/

/-- What was cut out of a text without escapes can be moved, unless it ends with a broken
string. -/
theorem portable_of_unescaped {text : Bytes} {ts vs : List Token} (hu : Unescaped text)
    (htext : ofText text = ts ++ vs) (hlast : ∀ t ∈ ts.getLast?, t.kind ≠ .badString) :
    Portable ts := by
  constructor
  · rintro us ⟨pre, rfl⟩ hblurs
    rw [List.append_assoc] at htext
    rcases exists_suffix_of_ofText htext with ⟨rest, hsuffix, hrest⟩
    apply not_blurs_of_unescaped (hu.suffix hsuffix)
    rcases hblurs.exists_front with ⟨front, hfront, -, hmore⟩
    rw [hrest]
    exact hmore _ (hfront.trans (List.prefix_append us vs))
  · intro t ht hurl
    apply zero_not_mem_url hu _ hurl
    rw [htext]
    exact List.mem_append_left vs ht
  · intro t ht
    rcases List.getLast?_eq_some_iff.mp ht with ⟨init, rfl⟩
    rw [List.append_assoc] at htext
    rcases exists_suffix_of_ofText htext with ⟨here, hsuffix, hhere⟩
    rcases exists_reads_of_ofText hhere with ⟨rest, hreads, -⟩
    rw [endsLine, decide_eq_false (hlast t ht), Bool.false_or, ← Bool.not_eq_true]
    intro hdelim
    have hunescaped := hu.suffix hsuffix
    rw [hreads.text_isDelim hdelim] at hunescaped
    exact hunescaped.head_ne rfl

end Token
end CssText
