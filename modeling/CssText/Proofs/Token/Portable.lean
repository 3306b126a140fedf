import CssText.Proofs.Token.RoundTrip
import Mathlib.Data.List.Infix

/-!
# Runs that can be moved

A run of tokens that was cut out of its text is read back from its printed form if nothing in
it runs together (`Legible`). It can be printed in another place if its last token does not ask
for the end of a line either (`Portable`): it is then read back in front of every byte that
ends tokens (`Steady`).
-/

namespace CssText
namespace Token

/-- The printed run is read back in front of the bytes that end tokens. -/
def Steady (ts : List Token) : Prop :=
  ∀ b after, isBreak b = true → ofText (serialize ts ++ b :: after) = ts ++ ofText (b :: after)

structure Portable (ts : List Token) : Prop where
  apart : ∀ us, us <:+ ts → ¬ Blurs us
  url : ∀ t ∈ ts, t.kind = .url → 0 ∉ t.value
  last : ∀ t ∈ ts.getLast?, t.endsLine = false

/-- Nothing in the run runs together where it is printed, and no address has a zero byte. -/
structure Legible (ts : List Token) : Prop where
  apart : ∀ us, us <:+ ts → ¬ Blurs us
  url : ∀ t ∈ ts, t.kind = .url → 0 ∉ t.value

/-!
## Deciding
-/

def blurs : List Token → Bool
  | t :: u :: us =>
      (t.kind = .ident && t.value = ascii "--" && u.isDelim Byte.greater) ||
        (t.isDelim Byte.less && u.isDelim 0x21 && us.head?.any fun v =>
          (v.kind = .ident || v.kind = .function) && (ascii "--").isPrefixOf v.value) ||
        (t.kind = .dimension && (t.unit = [Byte.lowerE] || t.unit = [Byte.upperE]) &&
          !t.hasExponent && u.kind.isNumeric && u.value.head? = some Byte.plus &&
          beginsWith isDigit u.value.tail)
  | _ => false

theorem blurs_iff {ts : List Token} : Blurs ts ↔ blurs ts = true := by
  constructor
  · intro h
    cases h with
    | arrow us ht hvalue hu => simp [blurs, ht, hvalue, hu]
    | markup us ht hu hv hvalue =>
        have hprefix := List.isPrefixOf_iff_prefix.mpr hvalue
        simp [blurs, ht, hu, hv, hprefix]
    | exponent us ht hunit hnone hu hd hvalue =>
        rcases hvalue with ⟨more, hmore⟩
        simp [blurs, ht, hunit, hnone, hu, ← hmore, hd]
  · intro h
    match ts with
    | t :: u :: us =>
        simp only [blurs, Bool.or_eq_true, Bool.and_eq_true, decide_eq_true_eq,
          Bool.not_eq_true'] at h
        rcases h with (⟨⟨ht, hvalue⟩, hu⟩ | ⟨⟨ht, hu⟩, hmark⟩) | h
        · exact Blurs.arrow us ht hvalue hu
        · cases us with
          | nil => cases hmark
          | cons v us =>
              simp only [List.head?_cons, Option.any_some, Bool.and_eq_true, Bool.or_eq_true,
                decide_eq_true_eq, List.isPrefixOf_iff_prefix] at hmark
              exact Blurs.markup us ht hu hmark.1 hmark.2
        · rcases h with ⟨⟨⟨⟨⟨ht, hunit⟩, hnone⟩, hu⟩, hplus⟩, hdigit⟩
          rcases List.head?_eq_some_iff.mp hplus with ⟨more, hmore⟩
          rw [hmore, List.tail_cons] at hdigit
          cases more with
          | nil => cases hdigit
          | cons d more =>
              refine Blurs.exponent us ht hunit hnone hu hdigit ?_
              rw [hmore]
              exact List.prefix_append [Byte.plus, d] more

instance : DecidablePred Blurs :=
  fun _ => decidable_of_iff _ blurs_iff.symm

instance (ts : List Token) : Decidable (Legible ts) :=
  decidable_of_iff
    ((∀ us ∈ ts.tails, ¬ Blurs us) ∧ ∀ t ∈ ts, t.kind = .url → 0 ∉ t.value)
    ⟨fun ⟨apart, url⟩ => ⟨fun us hus => apart us ((List.mem_tails us ts).mpr hus), url⟩,
      fun h => ⟨fun us hus => h.apart us ((List.mem_tails us ts).mp hus), h.url⟩⟩

theorem portable_iff {ts : List Token} :
    Portable ts ↔ Legible ts ∧ ∀ t ∈ ts.getLast?, t.endsLine = false := by
  constructor
  · intro h
    exact ⟨⟨h.apart, h.url⟩, h.last⟩
  · intro h
    exact ⟨h.1.apart, h.1.url, h.2⟩

instance (ts : List Token) : Decidable (Portable ts) :=
  decidable_of_iff _ portable_iff.symm

/-!
## Printing

A run that was cut out of its text is printed, whatever became of the white space in it. The
last token was clear of the text behind the run, and what keeps neighbours apart keeps the run
apart from what follows it.
-/

section

variable {text : Bytes} {ss ts vs : List Token}

theorem Blurs.of_append (h : Blurs (ts ++ vs))
    (hvs : ∀ v ∈ vs.head?, separates v.kind = true) : Blurs ts := by
  rcases h.exists_front with ⟨front, hfront, hkinds, hmore⟩
  apply hmore
  rcases List.prefix_or_prefix_of_prefix hfront (List.prefix_append ts vs) with hinside | ⟨us, rfl⟩
  · exact hinside
  · rw [List.prefix_append_right_inj] at hfront
    cases us with
    | nil => simp
    | cons u us =>
        rcases hfront with ⟨more, rfl⟩
        have hu := hkinds u (List.mem_append_right ts List.mem_cons_self)
        rw [hvs u rfl] at hu
        cases hu

theorem Respaced.getLast?_eq (h : Respaced ss ts) : ss.getLast? = ts.getLast? := by
  induction h with
  | nil => rfl
  | keep ht h ih => rw [List.getLast?_cons, List.getLast?_cons, ih]
  | gap hgs hlone hformed hw hfirst hu h ih =>
      rw [List.getLast?_append, ih, List.getLast?_cons_cons]
      rfl

theorem Legible.not_blurs (h : Legible ts) (hvs : ∀ v ∈ vs.head?, separates v.kind = true) :
    ∀ us, us <:+ ts → us ≠ [] → ¬ Blurs (us ++ vs) := by
  intro us hus _ hblurs
  exact h.apart us hus (hblurs.of_append hvs)

theorem Legible.last_clear (h : Legible ts) (hspace : Respaced ss ts)
    (htext : ofText text = ss ++ vs) (hvs : ∀ v ∈ vs.head?, separates v.kind = true) {t : Token}
    (ht : t ∈ ts.getLast?) : ∃ here rest, Reads here t rest ∧ ofText rest = vs ∧ Clear t rest := by
  have hsource : ss.getLast? = some t := hspace.getLast?_eq.trans ht
  rcases List.getLast?_eq_some_iff.mp hsource with ⟨init, rfl⟩
  rw [List.append_assoc] at htext
  rcases exists_suffix_of_ofText htext with ⟨here, -, hhere⟩
  rcases exists_reads_of_ofText hhere with ⟨rest, hreads, hrest⟩
  refine ⟨here, rest, hreads, hrest, ?_⟩
  apply clear_of_not_blurs hreads
  rw [hrest]
  apply h.not_blurs hvs [t] _ (List.cons_ne_nil t [])
  rcases List.getLast?_eq_some_iff.mp ht with ⟨front, rfl⟩
  exact List.suffix_append front [t]

theorem Legible.ofText_serialize (h : Legible ts) (hspace : Respaced ss ts)
    (htext : ofText text = ss ++ vs) (hvs : ∀ v ∈ vs.head?, separates v.kind = true)
    (hkind : ∀ t ∈ ts.getLast?, t.kind ≠ .function ∧ t.kind ≠ .whitespace) :
    ofText (serialize ts) = ts := by
  have hprinted : ofText (serialize ts ++ []) = ts ++ ofText [] := by
    apply hspace.ofText_serialize htext (h.not_blurs hvs) h.url
    intro t ht
    right
    rcases h.last_clear hspace htext hvs ht with ⟨here, rest, -, -, hclear⟩
    rcases hkind t ht with ⟨hfunction, hwhitespace⟩
    refine ⟨(Shows.nil rest).clear hclear hfunction, hwhitespace, ?_⟩
    rw [ofText_nil]
    rintro _ ⟨⟩
  rw [List.append_nil, ofText_nil, List.append_nil] at hprinted
  exact hprinted

theorem not_beginsName_break {b : UInt8} (hb : isBreak b = true) (after : Bytes) :
    ∀ v ∈ (ofText (b :: after)).head?, beginsName v.kind = false := by
  intro v hv
  rcases List.head?_eq_some_iff.mp hv with ⟨us, hus⟩
  rcases exists_reads_of_ofText hus with ⟨rest, hreads, -⟩
  rw [← hreads.fronts.identifier]
  exact not_startsIdentifier (break_spec b hb).2.1 after

/--
A run that was cut out of its text is steady if it can be moved, whatever became of the white
space in it. It may be followed by anything that keeps neighbours apart, or by nothing.
-/
theorem Portable.steady (h : Portable ts) (hspace : Respaced ss ts)
    (htext : ofText text = ss ++ vs) (hvs : ∀ v ∈ vs.head?, separates v.kind = true)
    (hkind : ∀ t ∈ ts.getLast?, t.kind ≠ .function ∧ t.kind ≠ .whitespace)
    (hend : vs = [] → ∀ t ∈ ts.getLast?, t.kind ≠ .badUrl) : Steady ts := by
  intro b after hb
  have hlegible := (portable_iff.mp h).1
  apply hspace.ofText_serialize htext (hlegible.not_blurs hvs) h.url
  intro t ht
  right
  rcases hlegible.last_clear hspace htext hvs ht with ⟨here, rest, hreads, hrest, hclear⟩
  have hmem := List.mem_of_getLast? ht
  rcases hkind t ht with ⟨hfunction, hwhitespace⟩
  refine ⟨hclear.before_break (hreads.formed (h.url t hmem)) hb ?_ hwhitespace ?_ ?_,
    hwhitespace, not_beginsName_break hb after⟩
  · rintro hk rfl
    exact hend (hrest.symm.trans ofText_nil) t ht hk
  · intro hk
    exact absurd hk hfunction
  · intro hline
    rw [h.last t ht] at hline
    cases hline

end

end Token
end CssText
