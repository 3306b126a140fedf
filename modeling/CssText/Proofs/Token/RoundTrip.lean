import CssText.Proofs.Token.Breaks

/-!
# Printed runs of tokens

A run of tokens that was read from a text is read back from its printed form
(`ofText_serialize_append`), inside a longer text too. Printing can only go wrong where an
escape of the source kept two tokens apart: `Blurs` lists those neighbours. What separated two
tokens may have become other white space before the run is printed (`Respaced`).
-/

namespace CssText
namespace Token

/-- Tokens that only an escape can have kept from running together. -/
inductive Blurs : List Token → Prop where
  | arrow {t u : Token} (us : List Token) (ht : t.kind = .ident) (hvalue : t.value = ascii "--")
      (hu : u.isDelim Byte.greater = true) : Blurs (t :: u :: us)
  | markup {t u v : Token} (us : List Token) (ht : t.isDelim Byte.less = true)
      (hu : u.isDelim 0x21 = true) (hv : v.kind = .ident ∨ v.kind = .function)
      (hvalue : ascii "--" <+: v.value) : Blurs (t :: u :: v :: us)
  | exponent {t u : Token} (us : List Token) (ht : t.kind = .dimension)
      (hunit : t.unit = [Byte.lowerE] ∨ t.unit = [Byte.upperE]) (hnone : t.hasExponent = false)
      (hu : u.kind.isNumeric = true) {d : UInt8} (hd : isDigit d = true)
      (hvalue : [Byte.plus, d] <+: u.value) : Blurs (t :: u :: us)

theorem reads_greater (bs : Bytes) :
    Reads (Byte.greater :: bs) (plain .delim [Byte.greater]) bs :=
  Reads.delim <| stray_of_isQuiet rfl (fun hb => by cases hb) (fun hb => by cases hb)
    (fun hb => by cases hb) (fun hb => by cases hb)

theorem clear_of_not_blurs {text rest : Bytes} {t : Token} (h : Reads text t rest)
    (hblurs : ¬ Blurs (t :: ofText rest)) : Clear t rest := by
  apply h.clear
  · intro ht hgreater
    obtain ⟨bs, rfl⟩ := List.head?_eq_some_iff.mp hgreater
    rw [(reads_greater bs).ofText_eq] at hblurs
    subst ht
    exact hblurs (Blurs.arrow _ rfl rfl rfl)
  · intro hkind hlength hnone
    obtain ⟨b, hunit⟩ := List.length_eq_one_iff.mp hlength
    rw [hunit, List.singleton_append, ← Option.not_isSome_iff_eq_none]
    intro hsome
    obtain ⟨hletter, d, bs, rfl, hd⟩ :=
      exists_sign_of_scanExponent (h.continuesName_dimension hkind) hsome
    obtain ⟨u, r, hu⟩ : ∃ u r, Reads (Byte.plus :: d :: bs) u r :=
      ⟨_, _, reads_scan Byte.plus (d :: bs)⟩
    rw [hu.ofText_eq] at hblurs
    have hnumeric : u.kind.isNumeric = true := by
      rw [← hu.fronts.numeral, Numeral.scan?_sign (Or.inl rfl), beginsWith_cons, hd]
      rfl
    have hvalue : [Byte.plus, d] <+: u.value := by
      have htake : [Byte.plus, d] = u.value.take 2 := hu.fronts.sign hnumeric rfl
      rw [htake]
      exact List.take_prefix 2 u.value
    refine hblurs (Blurs.exponent _ hkind ?_ hnone hnumeric hd hvalue)
    rw [hunit]
    rcases hletter with rfl | rfl
    · exact Or.inl rfl
    · exact Or.inr rfl

def separates (kind : Kind) : Bool :=
  kind.isInsignificant || isPunctuation kind

theorem not_separates_of_isDelim {t : Token} {b : UInt8} (h : t.isDelim b = true) :
    separates t.kind = false := by
  rw [isDelim, Bool.and_eq_true, decide_eq_true_eq] at h
  rw [h.1]
  rfl

theorem not_separates_of_isNumeric {kind : Kind} (h : kind.isNumeric = true) :
    separates kind = false := by
  cases kind <;> first | rfl | cases h

/-- What runs together at the front of a run does so whatever follows, and nothing in it keeps
neighbours apart. -/
theorem Blurs.exists_front {run : List Token} (h : Blurs run) :
    ∃ front, front <+: run ∧ (∀ t ∈ front, separates t.kind = false) ∧
      ∀ more, front <+: more → Blurs more := by
  cases h with
  | @arrow t u us ht hvalue hu =>
      have hname : separates t.kind = false := by
        rw [ht]
        rfl
      refine ⟨[t, u], List.prefix_append [t, u] us, ?_, ?_⟩
      · simp [hname, not_separates_of_isDelim hu]
      · rintro _ ⟨more, rfl⟩
        exact Blurs.arrow more ht hvalue hu
  | @markup t u v us ht hu hv hvalue =>
      have hname : separates v.kind = false := by
        rcases hv with hv | hv <;> rw [hv] <;> rfl
      refine ⟨[t, u, v], List.prefix_append [t, u, v] us, ?_, ?_⟩
      · simp [not_separates_of_isDelim ht, not_separates_of_isDelim hu, hname]
      · rintro _ ⟨more, rfl⟩
        exact Blurs.markup more ht hu hv hvalue
  | @exponent t u us ht hunit hnone hu d hd hvalue =>
      have hdimension : separates t.kind = false := by
        rw [ht]
        rfl
      refine ⟨[t, u], List.prefix_append [t, u] us, ?_, ?_⟩
      · simp [hdimension, not_separates_of_isNumeric hu]
      · rintro _ ⟨more, rfl⟩
        exact Blurs.exponent more ht hunit hnone hu hd hvalue

/-!
## White space in a printed run

The tokens in front of the first white space are kept, so neighbours that run together have
been kept together, and what was clear of the text behind it is clear of the printed run there.
-/

/--
The run `us` is the run `ts`, but for stretches of white space, comments and markup brackets
that have become one token of white space. White space that begins a stretch keeps its first
byte, and white space that is kept stands before the token that it stood before.
-/
inductive Respaced : List Token → List Token → Prop where
  | nil : Respaced [] []
  | keep {t : Token} {ts us : List Token} (ht : t.kind = .whitespace → ts.head? = us.head?)
      (h : Respaced ts us) : Respaced (t :: ts) (t :: us)
  | gap {g w u : Token} {gs ts us : List Token}
      (hgs : ∀ m ∈ g :: gs, m.kind.isInsignificant = true)
      (hlone : gs = [] → g.kind ≠ .whitespace) (hformed : Formed w) (hw : w.kind = .whitespace)
      (hfirst : g.kind = .whitespace → w.value.head? = g.value.head?) (hu : u.kind ≠ .whitespace)
      (h : Respaced ts (u :: us)) : Respaced (g :: gs ++ ts) (w :: u :: us)

theorem Respaced.refl (ts : List Token) : Respaced ts ts := by
  induction ts with
  | nil => exact Respaced.nil
  | cons t ts ih => exact Respaced.keep (fun _ => rfl) ih

section

variable {text after : Bytes} {t u : Token} {ts us vs : List Token}

theorem Respaced.prefix_append {front : List Token} (h : Respaced ts us)
    (hfront : ∀ t ∈ front, t.kind.isInsignificant = false) (hts : front <+: ts ++ vs) :
    front <+: us ++ vs := by
  induction h generalizing front with
  | nil => exact hts
  | keep ht h ih =>
      cases front with
      | nil => exact List.nil_prefix
      | cons t front =>
          rw [List.cons_append, List.cons_prefix_cons] at hts ⊢
          exact ⟨hts.1, ih (fun u hu => hfront u (List.mem_cons_of_mem t hu)) hts.2⟩
  | gap hgs hlone hformed hw hfirst hu h ih =>
      cases front with
      | nil => exact List.nil_prefix
      | cons t front =>
          rw [List.cons_append, List.cons_append, List.cons_prefix_cons] at hts
          have hg := hgs _ List.mem_cons_self
          rw [← hts.1, hfront t List.mem_cons_self] at hg
          cases hg

theorem Respaced.blurs (h : Respaced ts us) (hblurs : Blurs (ts ++ vs)) : Blurs (us ++ vs) := by
  rcases hblurs.exists_front with ⟨front, hfront, hkinds, hmore⟩
  apply hmore
  apply h.prefix_append _ hfront
  intro t ht
  exact (Bool.or_eq_false_iff.mp (hkinds t ht)).1

/-- The printed run can be parted from the text `after`, where the run was followed by `vs`. -/
def Parts (t : Token) (vs : List Token) (after : Bytes) : Prop :=
  after = [] ∧ vs = [] ∨
    Clear t after ∧ t.kind ≠ .whitespace ∧
      ∀ v ∈ (ofText after).head?, beginsName v.kind = false

theorem Respaced.settled (h : Respaced ts us) (hu : u.kind = .whitespace → ts.head? = us.head?)
    (hlast : us = [] → Parts u vs after) : Settled u (ts ++ vs) (us ++ ofText after) := by
  cases h with
  | nil =>
      rcases hlast rfl with ⟨rfl, rfl⟩ | ⟨-, hkind, hhead⟩
      · exact Or.inl (by rw [ofText_nil])
      · exact Or.inr ⟨hkind, hhead⟩
  | keep ht h => exact Or.inl rfl
  | gap hgs hlone hformed hw =>
      by_cases hkind : u.kind = .whitespace
      · exact Or.inl (hu hkind)
      · refine Or.inr ⟨hkind, ?_⟩
        rintro _ ⟨⟩
        rw [hw]
        rfl

theorem Respaced.clear {rest : Bytes} (h : Respaced ts us) (hclear : Clear t rest)
    (hformed : Formed t) (hrest : ofText rest = ts ++ vs)
    (ht : t.kind = .whitespace → ts.head? = us.head?)
    (hblurs : ¬ Blurs (t :: us ++ vs)) (hlast : ∀ v ∈ (t :: us).getLast?, Parts v vs after)
    (hafter : ofText (serialize us ++ after) = us ++ ofText after) :
    Clear t (serialize us ++ after) := by
  cases h with
  | nil =>
      rcases hlast t rfl with ⟨rfl, rfl⟩ | ⟨hafter, -⟩
      · rw [ofText_eq_nil.mp hrest] at hclear
        exact hclear
      · exact hafter
  | @keep u ts us hu h =>
      apply hclear.transfer hrest hafter
      · apply h.settled hu
        rintro rfl
        exact hlast u rfl
      · intro hk hvalue hmark v hv hkind hhyphens
        have hless : t.isDelim Byte.less = true := by
          rw [isDelim, hk, hformed.value_of_delim hk, hvalue]
          rfl
        cases us with
        | nil =>
            rcases hlast u rfl with ⟨rfl, rfl⟩ | ⟨-, -, hhead⟩
            · rw [ofText_nil] at hv
              cases hv
            · have hname := hhead v hv
              rcases hkind with hkind | hkind <;> rw [hkind] at hname <;> cases hname
        | cons w us =>
            obtain rfl : w = v := Option.some.inj hv
            exact hblurs (Blurs.markup _ hless (by rw [hmark]; rfl) hkind hhyphens)
  | @gap g w u gs ts us hgs hlone hw hblank hfirst hu h =>
      rcases hw.exists_blank hblank with ⟨b, bs, htext, hvalue, hb⟩
      have hspace : t.kind ≠ .whitespace := by
        intro hk
        rcases exists_reads_of_ofText hrest with ⟨rest', hreads, -⟩
        obtain rfl : g = w := Option.some.inj (ht hk)
        rcases hreads.exists_blank hblank with ⟨c, cs, rfl, hc, -⟩
        rw [Clear, hk] at hclear
        have hnot : isBlank c = false := hclear
        rw [hc] at hnot
        cases hnot
      rw [serialize, List.flatMap_cons, htext, List.append_assoc, List.cons_append]
      rw [List.append_assoc] at hrest
      refine hclear.before_blank hformed hspace hrest hgs hlone hb ?_ _
      intro hk
      rw [← hfirst hk, hvalue]
      rfl

/--
A run of the tokens of a text is read back from its printed form, whatever becomes of the
white space in it, if nothing in it runs together and its last token can be parted from the
text that follows.
-/
theorem Respaced.ofText_serialize (h : Respaced ts us) (htext : ofText text = ts ++ vs)
    (hblurs : ∀ ws, ws <:+ us → ws ≠ [] → ¬ Blurs (ws ++ vs))
    (hurl : ∀ t ∈ us, t.kind = .url → 0 ∉ t.value)
    (hlast : ∀ t ∈ us.getLast?, Parts t vs after) :
    ofText (serialize us ++ after) = us ++ ofText after := by
  induction h generalizing text with
  | nil => rfl
  | @keep t ts us ht h ih =>
      rcases exists_reads_of_ofText htext with ⟨rest, hreads, hrest⟩
      have hformed := hreads.formed (hurl t List.mem_cons_self)
      have hself := hblurs _ (List.suffix_refl _) (List.cons_ne_nil t us)
      have hclear : Clear t rest := by
        apply clear_of_not_blurs hreads
        rw [hrest]
        exact fun hsource => hself ((Respaced.keep ht h).blurs hsource)
      have hafter : ofText (serialize us ++ after) = us ++ ofText after := by
        apply ih hrest
        · exact fun ws hws => hblurs ws (hws.trans (List.suffix_cons t us))
        · exact fun u hu => hurl u (List.mem_cons_of_mem t hu)
        · exact fun u hu => hlast u (by rw [List.getLast?_cons, Option.mem_def.mp hu]; rfl)
      have hprinted := hformed.reads_toCss (h.clear hclear hformed hrest ht hself hlast hafter)
      rw [serialize, List.flatMap_cons, List.append_assoc]
      exact hprinted.ofText_eq.trans (congrArg (t :: ·) hafter)
  | @gap g w u gs ts us hgs hlone hformed hw hfirst hu h ih =>
      rw [List.append_assoc] at htext
      rcases exists_suffix_of_ofText htext with ⟨rest, -, hrest⟩
      have hafter : ofText (serialize (u :: us) ++ after) = u :: us ++ ofText after := by
        apply ih hrest
        · exact fun ws hws => hblurs ws (hws.trans (List.suffix_cons w _))
        · exact fun v hv => hurl v (List.mem_cons_of_mem w hv)
        · exact fun v hv => hlast v (by rw [List.getLast?_cons, Option.mem_def.mp hv]; rfl)
      have hclear : Clear w (serialize (u :: us) ++ after) := by
        rcases exists_reads_of_ofText hafter with ⟨_, hreads, -⟩
        rw [Clear, hw]
        exact not_blank_of_reads hreads hu
      have hprinted := hformed.reads_toCss hclear
      rw [serialize, List.flatMap_cons, List.append_assoc]
      exact hprinted.ofText_eq.trans (congrArg (w :: ·) hafter)

theorem ofText_serialize_append (htext : ofText text = ts ++ vs)
    (hblurs : ∀ us, us <:+ ts ++ vs → ¬ Blurs us)
    (hurl : ∀ t ∈ ts, t.kind = .url → 0 ∉ t.value)
    (hlast : ∀ t ∈ ts.getLast?, Parts t vs after) :
    ofText (serialize ts ++ after) = ts ++ ofText after := by
  apply (Respaced.refl ts).ofText_serialize htext _ hurl hlast
  rintro ws ⟨pre, rfl⟩ -
  apply hblurs
  rw [List.append_assoc]
  exact List.suffix_append pre _

end

/-!
## The whole text

No number of a text is a NaN, so every token of it equals itself.
-/

theorem Reads.same_self {text rest : Bytes} {t : Token} (h : Reads text t rest) :
    t.same t = true := by
  have hzero : Binary64.zero.same Binary64.zero = true := by
    decide
  have hnumber : t.number.same t.number = true := by
    cases h with
    | number hn hs hp => exact Numeral.same_value _
    | percentage hn => exact Numeral.same_value _
    | dimension hn hs hu => exact Numeral.same_value _
    | _ => exact hzero
  simp only [same, decide_true, Bool.true_and, Bool.and_true]
  exact hnumber

theorem same_self_of_mem {text : Bytes} {t : Token} (h : t ∈ ofText text) : t.same t = true := by
  induction text using text_induction with
  | nil =>
      rw [ofText_nil] at h
      cases h
  | reads w u rest hreads ih =>
      rw [hreads.ofText_eq] at h
      rcases List.mem_cons.mp h with rfl | h
      · exact hreads.same_self
      · exact ih h

end Token

namespace Lexeme

theorem beq_of_tokens_eq {run run' : List Lexeme} (htokens : tokens run = tokens run')
    (h : ∀ t ∈ tokens run, t.same t = true) : (run == run') = true := by
  induction run generalizing run' with
  | nil =>
      cases run' with
      | nil => rfl
      | cons l run' => cases htokens
  | cons l run ih =>
      cases run' with
      | nil => cases htokens
      | cons l' run' =>
          obtain ⟨hl, hrun⟩ : l.toToken = l'.toToken ∧ tokens run = tokens run' :=
            List.cons.inj htokens
          have hself : l.toToken.same l.toToken = true := h _ List.mem_cons_self
          have hsame : (l == l') = true := by
            rw [hl] at hself
            show l.toToken.same l'.toToken = true
            rw [hl]
            exact hself
          rw [List.cons_beq_cons, hsame, ih hrun fun t ht => h t (List.mem_cons_of_mem _ ht)]
          rfl

theorem tokens_tokenize (css : Bytes) :
    tokens (tokenize css) = Token.ofText css ++ [default] := by
  rw [tokenize, tokens, List.map_append]
  rfl

end Lexeme

/-- The run has none of the neighbours that only an escape kept apart, and no address with a
zero byte. -/
structure Spared (ts : List Token) : Prop where
  arrow : ∀ t u : Token, t.kind = .ident → t.value = ascii "--" →
    u.isDelim Byte.greater = true → ¬ [t, u] <:+: ts
  markup : ∀ t u v : Token, t.isDelim Byte.less = true → u.isDelim 0x21 = true →
    v.kind = .ident ∨ v.kind = .function → ascii "--" <+: v.value → ¬ [t, u, v] <:+: ts
  exponent : ∀ t u : Token, t.kind = .dimension → t.unit = ascii "e" ∨ t.unit = ascii "E" →
    u.kind.isNumeric = true → (∃ d, isDigit d = true ∧ [Byte.plus, d] <+: u.value) →
    ¬ [t, u] <:+: ts
  url : ∀ t ∈ ts, t.kind = .url → 0 ∉ t.value

theorem Spared.not_blurs {ts us : List Token} (h : Spared ts) (hus : us <:+: ts) :
    ¬ Token.Blurs us := by
  intro hblurs
  cases hblurs with
  | @arrow t u us ht hvalue hu =>
      exact h.arrow t u ht hvalue hu (((List.prefix_append [t, u] us).isInfix).trans hus)
  | @markup t u v us ht hu hv hvalue =>
      exact h.markup t u v ht hu hv hvalue (((List.prefix_append [t, u, v] us).isInfix).trans hus)
  | @exponent t u us ht hunit hnone hu d hd hvalue =>
      exact h.exponent t u ht hunit hu ⟨d, hd, hvalue⟩
        (((List.prefix_append [t, u] us).isInfix).trans hus)

/-- Printing the tokens of a text and scanning them again gives equal tokens. -/
theorem tokenize_serialize_tokenize (css : Bytes)
    (h : Spared (Lexeme.tokens (tokenize css))) :
    (tokenize (Lexeme.serialize (tokenize css)) == tokenize css) = true := by
  rw [Lexeme.tokens_tokenize] at h
  have hprinted : Lexeme.serialize (tokenize css) = Token.serialize (Token.ofText css) := by
    rw [Lexeme.serialize, Lexeme.tokens_tokenize, Token.serialize, List.flatMap_append]
    exact List.append_nil _
  have hread : Token.ofText (Token.serialize (Token.ofText css)) = Token.ofText css := by
    have hblurs : ∀ us, us <:+ Token.ofText css ++ [] → ¬ Token.Blurs us := by
      intro us hus
      rw [List.append_nil] at hus
      exact h.not_blurs (hus.isInfix.trans (List.prefix_append _ _).isInfix)
    have hround := Token.ofText_serialize_append (List.append_nil _).symm hblurs
      (fun t ht => h.url t (List.mem_append_left _ ht)) (fun t _ => Or.inl ⟨rfl, rfl⟩)
    rw [List.append_nil, Token.ofText_nil, List.append_nil] at hround
    exact hround
  apply Lexeme.beq_of_tokens_eq
  · rw [Lexeme.tokens_tokenize, Lexeme.tokens_tokenize, hprinted, hread]
  · intro t ht
    rw [Lexeme.tokens_tokenize, hprinted, hread, List.mem_append] at ht
    rcases ht with ht | ht
    · exact Token.same_self_of_mem ht
    · rw [List.mem_singleton.mp ht]
      decide

/-- Escapes in a name and in a unit, and single quotation marks. -/
theorem tokenize_serialize_tokenize_escaped :
    Spared (Lexeme.tokens (tokenize (ascii "a\\62 :1e\\33 'x'"))) ∧
      (tokenize (Lexeme.serialize (tokenize (ascii "a\\62 :1e\\33 'x'"))) ==
        tokenize (ascii "a\\62 :1e\\33 'x'")) = true := by
  have hspared : Spared (Lexeme.tokens (tokenize (ascii "a\\62 :1e\\33 'x'"))) := by
    have hall : (Lexeme.tokens (tokenize (ascii "a\\62 :1e\\33 'x'"))).all (fun t =>
        t.value != ascii "--" && !t.isDelim Byte.less && t.unit != ascii "e" &&
          t.unit != ascii "E" && t.kind != .url) = true := by
      decide +kernel
    simp only [List.all_eq_true, Bool.and_eq_true, bne_iff_ne, Bool.not_eq_true'] at hall
    constructor
    · intro t u _ hvalue _ hinside
      exact (hall t (hinside.subset (by simp))).1.1.1.1 hvalue
    · intro t u v hless _ _ _ hinside
      have ht := (hall t (hinside.subset (by simp))).1.1.1.2
      rw [hless] at ht
      cases ht
    · intro t u _ hunit _ _ hinside
      obtain ⟨⟨⟨-, hlower⟩, hupper⟩, -⟩ := hall t (hinside.subset (by simp))
      exact hunit.elim hlower hupper
    · intro t ht hurl
      exact absurd hurl (hall t ht).2
  exact ⟨hspared, tokenize_serialize_tokenize _ hspared⟩

end CssText
