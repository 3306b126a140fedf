import CssText.Proofs.Token.Adjacent

/-!
# Breaks

White space, a semicolon and a closing parenthesis end every token in front of them, unless it
is white space itself, and are no part of it. So a token that is clear of its own text is clear
of them too (`Clear.before_break`). Only a broken string and a lone backslash ask for more: they
stand in front of a line break and nothing else.
-/

namespace CssText
namespace Token

def isBreak (b : UInt8) : Bool :=
  isBlank b || b = Byte.semicolon || b = Byte.rightParen

/-- The tokens that stand at the end of a line or of the text only. -/
def endsLine (t : Token) : Bool :=
  t.kind = .badString || t.isDelim Byte.backslash

theorem break_spec : ∀ b : UInt8, isBreak b = true →
    isNameByte b = false ∧ isFront b = false ∧ Numeral.opens b = false ∧
      b ≠ Byte.leftParen ∧ b ≠ Byte.greater ∧ b ≠ Byte.percent ∧ b ≠ Byte.equals ∧
      b ≠ Byte.asterisk ∧ b ≠ 0x21 :=
  forall_byte (by decide +kernel)

theorem not_startsIdentifier {b : UInt8} (h : isFront b = false) (bs : Bytes) :
    startsIdentifier (b :: bs) = false := by
  simp only [isFront, Bool.or_eq_false_iff, decide_eq_false_iff_not] at h
  rw [← Bool.not_eq_true]
  intro hs
  rcases front_of_startsIdentifier hs with hb | hb | hb
  · rw [h.1.1] at hb
    cases hb
  · exact h.1.2 hb
  · exact h.2 hb

section

variable {t : Token} {b c : UInt8} {rest : Bytes}

theorem not_opens_spec : ∀ b : UInt8, Numeral.opens b = false →
    (isDigit b || b = Byte.dot) = false ∧ b ≠ Byte.plus ∧ b ≠ Byte.hyphen :=
  forall_byte (by decide +kernel)

theorem scan?_before_break (hb : isBreak b = true)
    (h : Numeral.scan? (c :: rest) = none) (after : Bytes) :
    Numeral.scan? (c :: b :: after) = none := by
  rcases break_spec b hb with ⟨-, -, hopens, -⟩
  rcases not_opens_spec b hopens with ⟨hdigit, -, -⟩
  cases hc : Numeral.opens c with
  | false => exact Numeral.scan?_eq_none_of_not_opens hc _
  | true =>
      simp only [Numeral.opens, Bool.or_eq_true, decide_eq_true_eq] at hc
      rcases hc with ((hc | rfl) | hc) | hc
      · have hsome := Numeral.scan?_digit hc rest
        rw [h] at hsome
        cases hsome
      · rw [← Option.not_isSome_iff_eq_none, Numeral.scan?_dot, beginsWith_cons,
          (Bool.or_eq_false_iff.mp hdigit).1]
        exact Bool.false_ne_true
      · exact Numeral.scan?_sign_eq_none (Or.inl hc) hdigit
      · exact Numeral.scan?_sign_eq_none (Or.inr hc) hdigit

theorem startsIdentifier_before_break (hb : isBreak b = true)
    (hc : c = Byte.backslash → b = Byte.newline)
    (h : startsIdentifier (c :: rest) = false) (after : Bytes) :
    startsIdentifier (c :: b :: after) = false := by
  rcases break_spec b hb with ⟨-, hfront, -⟩
  by_cases hbackslash : c = Byte.backslash
  · rw [hbackslash, hc hbackslash]
    rfl
  by_cases hhyphen : c = Byte.hyphen
  · simp only [isFront, Bool.or_eq_false_iff, decide_eq_false_iff_not] at hfront
    rw [hhyphen, startsIdentifier_hyphen_cons, beginsWith_cons, hfront.1.1,
      decide_eq_false hfront.2, Escape.starts_cons, decide_eq_false hfront.1.2]
    rfl
  · apply not_startsIdentifier
    rw [startsIdentifier, Bool.or_eq_false_iff, Bool.or_eq_false_iff] at h
    rw [isFront, h.1.1, decide_eq_false hbackslash, decide_eq_false hhyphen]
    rfl

theorem Stray.before_break (h : Stray c rest) (hb : isBreak b = true)
    (hc : c = Byte.backslash → b = Byte.newline) (after : Bytes) : Stray c (b :: after) := by
  rcases break_spec b hb with ⟨hname, hfront, -, -, -, -, hequals, hasterisk, hmark⟩
  have hbackslash : b ≠ Byte.backslash := by
    rintro rfl
    cases hfront
  constructor
  · exact h.blank
  · exact h.quote
  · exact h.punctuation
  · rw [matchOperator?, if_pos]
    intro hhead
    exact hequals (Option.some.inj hhead)
  · exact scan?_before_break hb h.numeral after
  · exact startsIdentifier_before_break hb hc h.identifier after
  · intro _ hhead
    exact hasterisk (Option.some.inj hhead)
  · intro _
    exact continuesName_cons hname hbackslash after
  · intro _
    exact not_startsIdentifier hfront after
  · intro _
    rw [← Bool.not_eq_true]
    intro hahead
    rcases List.isPrefixOf_iff_prefix.mp hahead with ⟨z, hz⟩
    exact hmark (List.cons.inj hz).1.symm

theorem Clear.before_break {after : Bytes} (h : Clear t rest) (hformed : Formed t)
    (hb : isBreak b = true) (hrest : t.kind = .badUrl → rest ≠ [])
    (hspace : t.kind ≠ .whitespace)
    (hcalls : t.kind = .function → callsUrl t.value (b :: after) = false)
    (hline : t.endsLine = true → b = Byte.newline) : Clear t (b :: after) := by
  rcases break_spec b hb with ⟨hname, hfront, hopens, hparen, hgreater, hpercent, -⟩
  rcases not_opens_spec b hopens with ⟨hdigit, hplus, hhyphen⟩
  have hbackslash : b ≠ Byte.backslash := by
    rintro rfl
    cases hfront
  have hcontinues := continuesName_cons hname hbackslash after
  rw [Bool.or_eq_false_iff, decide_eq_false_iff_not] at hdigit
  unfold Clear at h ⊢
  cases hk : t.kind with
  | ident =>
      constructor
      · exact hcontinues
      · constructor
        · intro hhead
          exact hparen (Option.some.inj hhead)
        · intro _ hhead
          exact hgreater (Option.some.inj hhead)
  | whitespace => exact absurd hk hspace
  | function => exact hcalls hk
  | badString =>
      right
      rw [hline (by rw [endsLine, hk]; rfl)]
      rfl
  | atKeyword => exact hcontinues
  | hash => exact hcontinues
  | badUrl =>
      rw [hk] at h
      exact Or.inr (h.resolve_left (hrest hk))
  | number =>
      constructor
      · exact not_startsIdentifier hfront after
      · constructor
        · intro hhead
          exact hpercent (Option.some.inj hhead)
        · constructor
          · exact hdigit.1
          · intro _
            rw [Numeral.scanFraction_eq_nil, beginsWith_cons]
            intro hdot
            exact hdigit.2 (of_decide_eq_true hdot.1)
  | dimension =>
      constructor
      · exact hcontinues
      · intro hlength _
        rcases List.length_eq_one_iff.mp hlength with ⟨d, hd⟩
        have hsign : Numeral.scanSign (b :: after) = ([], b :: after) := by
          rw [Numeral.scanSign, if_neg (by simp [hplus, hhyphen])]
        rw [hd, List.singleton_append, ← Option.not_isSome_iff_eq_none,
          Numeral.isSome_scanExponent, hsign, beginsWith_cons, hdigit.1, Bool.and_false]
        exact Bool.false_ne_true
  | delim =>
      rw [hk] at h
      apply h.before_break hb
      intro hvalue
      apply hline
      rw [endsLine, isDelim, hk, hformed.value_of_delim hk, hvalue]
      rfl
  | _ => trivial

end

/-!
## White space for what separates tokens

What separates two tokens begins with a line break only if it is white space. So white space
can stand for all of it: a token that ends a line still has its line break, and an address in
quotation marks still follows its function.
-/

section

variable {t g w : Token} {text rest : Bytes}

theorem Reads.unique {rest' : Bytes} (h : Reads text t rest) (h' : Reads text g rest') :
    t = g := by
  have htokens := h.ofText_eq
  rw [h'.ofText_eq] at htokens
  exact (List.cons.inj htokens).1.symm

theorem Reads.kind_of_quote (h : Reads text t rest) (hq : beginsWith isQuote text = true) :
    t.kind = .string ∨ t.kind = .badString := by
  rcases h.exists_cons with ⟨b, bs, rfl, hscan⟩
  rw [scan_quote hq] at hscan
  rcases scanString_kind b bs with ⟨value, hvalue | hvalue⟩
  · rw [hscan] at hvalue
    exact Or.inl (congrArg Token.kind hvalue)
  · rw [hscan] at hvalue
    exact Or.inr (congrArg Token.kind hvalue)

theorem Reads.quote_of_kind (h : Reads text t rest)
    (hk : t.kind = .string ∨ t.kind = .badString) : beginsWith isQuote text = true := by
  have hname : beginsName t.kind = false := by
    rcases hk with hk | hk <;> rw [hk] <;> rfl
  rw [h.fronts.head hname isQuote rfl, toCss]
  rcases hk with hk | hk <;> rw [hk] <;> rfl

theorem Reads.not_quote (h : Reads text t rest) (ht : t.kind.isInsignificant = true) :
    beginsWith isQuote text = false := by
  rw [← Bool.not_eq_true]
  intro hq
  rcases h.kind_of_quote hq with hk | hk
  · rw [hk] at ht
    cases ht
  · rw [hk] at ht
    cases ht

theorem Reads.newline {bs : Bytes} (h : Reads (Byte.newline :: bs) t rest) :
    t.kind = .whitespace ∧ t.value.head? = some Byte.newline := by
  have hblank : Reads (Byte.newline :: bs) _ _ := Reads.whitespace rfl
  rw [h.unique hblank]
  exact ⟨rfl, rfl⟩

theorem Reads.zero {bs : Bytes} (h : Reads (0 :: bs) t rest) : t.kind = .delim := by
  have hdelim : Reads (0 :: bs) (plain .delim [0]) bs :=
    Reads.delim <| stray_of_isQuiet rfl (fun hb => by cases hb) (fun hb => by cases hb)
      (fun hb => by cases hb) (fun hb => by cases hb)
  rw [h.unique hdelim]
  rfl

theorem Clear.newline {rest' : Bytes} (h : Clear t rest) (hline : t.endsLine = true)
    (hg : Reads rest g rest') (hkind : g.kind.isInsignificant = true) :
    g.kind = .whitespace ∧ g.value.head? = some Byte.newline := by
  rcases hg.exists_cons with ⟨b, bs, rfl, -⟩
  suffices hb : b = Byte.newline by
    rw [hb] at hg
    exact hg.newline
  rw [endsLine, Bool.or_eq_true, decide_eq_true_eq, isDelim, Bool.and_eq_true,
    decide_eq_true_eq, decide_eq_true_eq] at hline
  rcases hline with hk | ⟨hk, hvalue⟩
  · rw [Clear, hk] at h
    exact Option.some.inj (h.resolve_left (List.cons_ne_nil b bs))
  · rw [Clear, hk] at h
    have hstray : Stray (t.value.headD 0) (b :: bs) := h
    have hidentifier := hstray.identifier
    rw [hvalue, List.headD_cons, startsIdentifier_backslash_cons, beginsWith_cons,
      Bool.and_eq_false_iff, decide_eq_false_iff_not, decide_eq_false_iff_not, Decidable.not_not,
      Decidable.not_not] at hidentifier
    rcases hidentifier with hb | hb
    · exact hb
    · rw [hb] at hg
      rw [hg.zero] at hkind
      cases hkind

theorem not_quotedAhead {gs xs : List Token} (hrest : ofText rest = g :: gs ++ xs)
    (hgs : ∀ m ∈ g :: gs, m.kind.isInsignificant = true)
    (hlone : gs = [] → g.kind ≠ .whitespace) : quotedAhead rest = false := by
  rcases exists_reads_of_ofText hrest with ⟨rest', hreads, hrest'⟩
  show beginsWith isQuote (skipBlanks rest) = false
  rw [skipBlanks_of_reads hreads]
  split
  · rename_i hk
    cases gs with
    | nil => exact absurd hk (hlone rfl)
    | cons m gs =>
        rcases exists_reads_of_ofText hrest' with ⟨rest'', hreads', -⟩
        exact hreads'.not_quote (hgs m (List.mem_cons_of_mem g List.mem_cons_self))
  · exact hreads.not_quote (hgs g List.mem_cons_self)

/-- White space can stand for all that separated a token from the next one. -/
theorem Clear.before_blank {gs xs : List Token} {b : UInt8} (h : Clear t rest)
    (hformed : Formed t) (hspace : t.kind ≠ .whitespace) (hrest : ofText rest = g :: gs ++ xs)
    (hgs : ∀ m ∈ g :: gs, m.kind.isInsignificant = true)
    (hlone : gs = [] → g.kind ≠ .whitespace) (hb : isBlank b = true)
    (hfirst : g.kind = .whitespace → g.value.head? = some b) (after : Bytes) :
    Clear t (b :: after) := by
  rcases exists_reads_of_ofText hrest with ⟨rest', hreads, -⟩
  have hbreak : isBreak b = true := by
    rw [isBreak, hb]
    rfl
  apply h.before_break hformed hbreak
  · intro _
    exact hreads.ne_nil
  · exact hspace
  · intro hk
    rw [Clear, hk] at h
    have hcalls : callsUrl t.value rest = false := h
    rw [callsUrl, not_quotedAhead hrest hgs hlone, Bool.not_false, Bool.and_true] at hcalls
    rw [callsUrl, hcalls, Bool.false_and]
  · intro hline
    rcases h.newline hline hreads (hgs g List.mem_cons_self) with ⟨hk, hnewline⟩
    rw [hfirst hk] at hnewline
    exact Option.some.inj hnewline

theorem Formed.exists_blank (h : Formed w) (hk : w.kind = .whitespace) :
    ∃ b bs, w.toCss = b :: bs ∧ w.value = b :: bs ∧ isBlank b = true := by
  cases h with
  | @whitespace value hne hall =>
      rcases List.exists_cons_of_ne_nil hne with ⟨b, bs, rfl⟩
      exact ⟨b, bs, rfl, rfl, hall b List.mem_cons_self⟩
  | @name kind _ hnamed =>
      obtain rfl : kind = .whitespace := hk
      cases hnamed
  | @punctuation c kind hp =>
      obtain rfl : kind = .whitespace := hk
      cases standsAlone_of_punctuation c _ hp
  | @operator c kind ho =>
      obtain rfl : kind = .whitespace := hk
      cases standsAlone_of_operator c _ ho
  | _ => cases hk

end

end Token
end CssText
