import CssText.Proofs.Parse.Sourced

/-!
# Collapsed values

A value keeps its lexemes but for what separates them: each stretch of white space, comments
and markup brackets becomes one lexeme. So a collapsed value is accepted when the written one
is, white space stands alone in it, and it is read back from its printed form.
-/

namespace CssText
namespace Parse

open Token
open Lexeme (kinds tokens Sourced Trimmed)

theorem insignificant_cases {kind : Kind} (h : kind.isInsignificant = true) :
    kind = .whitespace ∨ kind = .comment ∨ kind = .cdo ∨ kind = .cdc := by
  simpa [Kind.isInsignificant, Kind.isBlank, or_assoc] using h

theorem kinds_cons (l : Lexeme) (run : List Lexeme) : kinds (l :: run) = l.kind :: kinds run :=
  rfl

/-!
## Stretches
-/

section

variable {l m : Lexeme} {gap rest : List Lexeme}

/-- A run begins with a lexeme that is kept, or with a stretch that ends before one, or it is
such a stretch. -/
theorem collapse_induction {motive : List Lexeme → Prop} (nil : motive [])
    (keep : ∀ l rest, l.kind.isInsignificant = false → motive rest → motive (l :: rest))
    (gap : ∀ l gap m rest, (∀ n ∈ l :: gap, n.kind.isInsignificant = true) →
      m.kind.isInsignificant = false → motive (m :: rest) → motive (l :: (gap ++ m :: rest)))
    (last : ∀ l gap, (∀ n ∈ l :: gap, n.kind.isInsignificant = true) → motive (l :: gap))
    (run : List Lexeme) : motive run := by
  fun_induction collapse run with
  | case1 => exact nil
  | case2 l rest hl stretch ih =>
      have hsplit : stretch ++ dropInsignificant rest = rest := List.takeWhile_append_dropWhile
      have hstretch : ∀ n ∈ l :: stretch, n.kind.isInsignificant = true := by
        intro n hn
        rcases List.mem_cons.mp hn with rfl | hn
        · exact hl
        · exact List.all_eq_true.mp List.all_takeWhile n hn
      have hnot := List.head?_dropWhile_not (fun l : Lexeme => l.kind.isInsignificant) rest
      cases hrest : dropInsignificant rest with
      | nil =>
          rw [hrest, List.append_nil] at hsplit
          rw [← hsplit]
          exact last l stretch hstretch
      | cons m more =>
          rw [hrest] at hsplit ih
          rw [dropInsignificant] at hrest
          rw [hrest] at hnot
          rw [← hsplit]
          exact gap l stretch m more hstretch hnot ih
  | case3 l rest hl ih => exact keep l rest (Bool.not_eq_true _ ▸ hl) ih

theorem collapse_cons (hl : l.kind.isInsignificant = false) (rest : List Lexeme) :
    collapse (l :: rest) = l :: collapse rest := by
  rw [collapse, if_neg (by rw [hl]; exact Bool.false_ne_true)]

theorem collapse_gap (hgap : ∀ n ∈ l :: gap, n.kind.isInsignificant = true)
    (hm : m.kind.isInsignificant = false) :
    collapse (l :: (gap ++ m :: rest)) =
      gap.foldl widen (separator l) :: collapse (m :: rest) := by
  have hinner : ∀ n ∈ gap, n.kind.isInsignificant = true :=
    fun n hn => hgap n (List.mem_cons_of_mem l hn)
  have htake : ((gap ++ m :: rest).takeWhile fun n => n.kind.isInsignificant) = gap := by
    rw [List.takeWhile_append_of_pos hinner, List.takeWhile_cons, hm]
    exact List.append_nil gap
  have hdrop : dropInsignificant (gap ++ m :: rest) = m :: rest := by
    rw [dropInsignificant, List.dropWhile_append_of_pos hinner]
    exact dropInsignificant_self hm rest
  rw [collapse, if_pos (hgap l List.mem_cons_self)]
  simp only [htake, hdrop]

theorem collapse_last (hgap : ∀ n ∈ l :: gap, n.kind.isInsignificant = true) :
    collapse (l :: gap) = [gap.foldl widen (separator l)] := by
  have hinner : ∀ n ∈ gap, n.kind.isInsignificant = true :=
    fun n hn => hgap n (List.mem_cons_of_mem l hn)
  have htake : (gap.takeWhile fun n => n.kind.isInsignificant) = gap :=
    List.takeWhile_eq_self_iff.mpr hinner
  have hdrop : dropInsignificant gap = [] := List.dropWhile_eq_nil_iff.mpr hinner
  rw [collapse, if_pos (hgap l List.mem_cons_self)]
  simp only [htake, hdrop, collapse]

theorem kind_stretch (l : Lexeme) (gap : List Lexeme) :
    (gap.foldl widen (separator l)).kind = .whitespace := by
  have hwiden (space : Lexeme) : (gap.foldl widen space).kind = space.kind := by
    induction gap generalizing space with
    | nil => rfl
    | cons n gap ih =>
        rw [List.foldl_cons, ih]
        unfold widen
        split <;> rfl
  rw [hwiden, separator]
  split
  · assumption
  · rfl

end

/-!
## Kinds

What separates lexemes does not count for the brackets of a value.
-/

theorem balances_insignificant {kind : Kind} (h : kind.isInsignificant = true) (limit : Nat)
    (opened : List Bracket) (ks : List Kind) :
    balances limit opened (kind :: ks) = balances limit opened ks := by
  rw [balances]
  rcases insignificant_cases h with rfl | rfl | rfl | rfl <;>
    cases opened with
    | nil => rfl
    | cons b opened => cases b <;> rfl

theorem balances_stretch {gap : List Lexeme} (hgap : ∀ n ∈ gap, n.kind.isInsignificant = true)
    (limit : Nat) (opened : List Bracket) (rest : List Lexeme) :
    balances limit opened (kinds (gap ++ rest)) = balances limit opened (kinds rest) := by
  induction gap with
  | nil => rfl
  | cons n gap ih =>
      rw [List.cons_append, kinds_cons, balances_insignificant (hgap n List.mem_cons_self)]
      exact ih fun m hm => hgap m (List.mem_cons_of_mem n hm)

theorem balances_collapse (limit : Nat) (opened : List Bracket) (run : List Lexeme) :
    balances limit opened (kinds (collapse run)) = balances limit opened (kinds run) := by
  have hspace (l : Lexeme) (gap : List Lexeme) :
      (gap.foldl widen (separator l)).kind.isInsignificant = true := by
    rw [kind_stretch]
    rfl
  induction run using collapse_induction generalizing opened with
  | nil => rw [collapse]
  | keep l rest hl ih =>
      rw [collapse_cons hl, kinds_cons, kinds_cons, balances, balances]
      simp only [ih]
  | gap l gap m rest hgap hm ih =>
      rw [collapse_gap hgap hm, kinds_cons, balances_insignificant (hspace l gap), ih,
        ← List.cons_append, balances_stretch hgap]
  | last l gap hgap =>
      have hstretch := balances_stretch hgap limit opened []
      rw [List.append_nil] at hstretch
      rw [collapse_last hgap, hstretch, kinds_cons, balances_insignificant (hspace l gap)]

theorem balances_terms (limit : Nat) (run : List Lexeme) :
    balances limit [] (kinds (terms run)) = balances limit [] (kinds run) := by
  rw [terms, ← balances_significant, significant_trim, balances_significant, balances_collapse]

theorem tidy_collapse (run : List Lexeme) : tidy (kinds (collapse run)) = true := by
  induction run using collapse_induction with
  | nil => rw [collapse]; rfl
  | keep l rest hl ih =>
      rw [collapse_cons hl, kinds_cons, tidy, hl]
      exact ih
  | gap l gap m rest hgap hm ih =>
      rw [collapse_cons hm, kinds_cons] at ih
      rw [collapse_gap hgap hm, collapse_cons hm, kinds_cons, kinds_cons, tidy, kind_stretch,
        Bool.and_eq_true]
      refine ⟨?_, ih⟩
      rw [List.head?_cons, Option.map_some, hm]
      rfl
  | last l gap hgap =>
      rw [collapse_last hgap, kinds_cons, tidy, kind_stretch]
      rfl

/-!
## Printed values

White space that is widened stays white space and keeps its first bytes, so a stretch becomes a
token that can be printed.
-/

section

variable {l : Lexeme} {gap : List Lexeme}

theorem widen_plain {space : Lexeme} {v : Bytes} (hspace : space.toToken = plain .whitespace v)
    (hv : ∀ b ∈ v, isBlank b = true)
    (hgap : ∀ n ∈ gap, n.kind.isInsignificant = true ∧ Formed n.toToken) :
    ∃ more, (gap.foldl widen space).toToken = plain .whitespace (v ++ more) ∧
      ∀ b ∈ v ++ more, isBlank b = true := by
  induction gap generalizing space v with
  | nil => exact ⟨[], by rw [List.append_nil]; exact hspace, by rw [List.append_nil]; exact hv⟩
  | cons n gap ih =>
      have hrest := fun m hm => hgap m (List.mem_cons_of_mem n hm)
      rcases hgap n List.mem_cons_self with ⟨hkind, hformed⟩
      rw [List.foldl_cons]
      by_cases hn : n.kind = .whitespace
      · have hwiden : (widen space n).toToken = plain .whitespace (v ++ n.value) := by
          rw [widen, if_pos hn]
          show { space.toToken with value := space.toToken.value ++ n.value } = _
          rw [hspace]
          rfl
        have hall : ∀ b ∈ v ++ n.value, isBlank b = true := by
          intro b hb
          exact (List.mem_append.mp hb).elim (hv b) ((hformed.eq_plain hkind).2 hn b)
        rcases ih hwiden hall hrest with ⟨more, hmore, hblanks⟩
        rw [List.append_assoc] at hmore hblanks
        exact ⟨n.value ++ more, hmore, hblanks⟩
      · have hwiden : widen space n = space := if_neg hn
        rw [hwiden]
        exact ih hspace hv hrest

/-- A stretch becomes a token that can be printed, and white space in front of it keeps its
first byte. -/
theorem formed_stretch
    (hgap : ∀ n ∈ l :: gap, n.kind.isInsignificant = true ∧ Formed n.toToken) :
    Formed (gap.foldl widen (separator l)).toToken ∧
      (l.kind = .whitespace →
        (gap.foldl widen (separator l)).value.head? = l.value.head?) := by
  have hrest := fun n hn => hgap n (List.mem_cons_of_mem l hn)
  rcases hgap l List.mem_cons_self with ⟨hl, hformed⟩
  rcases hformed.eq_plain hl with ⟨hplain, hblank⟩
  by_cases hk : l.kind = .whitespace
  · have hself : separator l = l := if_pos hk
    have hspace : l.toToken = plain .whitespace l.value := by
      rw [hk] at hplain
      exact hplain
    rcases hformed.exists_blank hk with ⟨b, bs, -, hvalue, -⟩
    have hvalue : l.value = b :: bs := hvalue
    rcases widen_plain hspace (hblank hk) hrest with ⟨more, hmore, hblanks⟩
    rw [hself, hmore]
    constructor
    · apply Formed.whitespace _ hblanks
      rw [hvalue]
      exact List.cons_ne_nil _ _
    · intro _
      show (l.value ++ more).head? = _
      rw [hvalue]
      rfl
  · have hspace : (separator l).toToken = plain .whitespace [Byte.space] := by
      rw [separator, if_neg hk]
      show { l.toToken with kind := .whitespace, value := [Byte.space] } = _
      rw [hplain]
      rfl
    have hblank : ∀ b ∈ [Byte.space], isBlank b = true := by
      intro b hb
      rw [List.mem_singleton.mp hb]
      rfl
    rcases widen_plain hspace hblank hrest with ⟨more, hmore, hblanks⟩
    rw [hmore]
    exact ⟨Formed.whitespace (List.cons_ne_nil _ _) hblanks, fun h => absurd h hk⟩

end

variable {run : List Lexeme}

/-- A run that does not end with white space is collapsed lexeme by lexeme. -/
theorem respaced_collapse
    (hformed : ∀ n ∈ run, n.kind.isInsignificant = true → Formed n.toToken)
    (hend : ∀ n ∈ run.getLast?, n.kind.isInsignificant = false) :
    Respaced (tokens run) (tokens (collapse run)) := by
  have hne {l : Lexeme} (hl : l.kind.isInsignificant = false) : l.kind ≠ .whitespace := by
    intro hk
    rw [hk] at hl
    cases hl
  induction run using collapse_induction with
  | nil =>
      rw [collapse]
      exact Respaced.nil
  | keep l rest hl ih =>
      rw [collapse_cons hl]
      apply Respaced.keep
      · exact fun hk => absurd hk (hne hl)
      · apply ih
        · exact fun n hn => hformed n (List.mem_cons_of_mem l hn)
        · intro n hn
          apply hend n
          rw [List.getLast?_cons, Option.mem_def.mp hn]
          rfl
  | gap l gap m rest hgap hm ih =>
      have hmem {n : Lexeme} (hn : n ∈ l :: gap) : n ∈ l :: (gap ++ m :: rest) := by
        rw [← List.cons_append]
        exact List.mem_append_left _ hn
      rcases formed_stretch fun n hn => ⟨hgap n hn, hformed n (hmem hn) (hgap n hn)⟩ with
        ⟨hspace, hfirst⟩
      have hinner : Respaced (tokens (m :: rest)) (tokens (m :: collapse rest)) := by
        rw [← collapse_cons hm]
        apply ih
        · intro n hn
          exact hformed n (List.mem_cons_of_mem l (List.mem_append_right gap hn))
        · intro n hn
          apply hend n
          rw [List.getLast?_cons, List.getLast?_append, Option.mem_def.mp hn]
          rfl
      have htokens : tokens (l :: (gap ++ m :: rest)) =
          l.toToken :: tokens gap ++ tokens (m :: rest) := by
        rw [← List.cons_append]
        exact List.map_append
      rw [collapse_gap hgap hm, collapse_cons hm, htokens]
      by_cases hlone : gap = [] ∧ l.kind = .whitespace
      · have hself : gap.foldl widen (separator l) = l := by
          rw [hlone.1]
          exact if_pos hlone.2
        rw [hself, hlone.1]
        exact Respaced.keep (fun _ => rfl) hinner
      · apply Respaced.gap _ _ hspace (kind_stretch l gap) hfirst (hne hm) hinner
        · intro t ht
          obtain ⟨n, hn, rfl⟩ : ∃ n ∈ l :: gap, n.toToken = t := List.mem_map.mp ht
          exact hgap n hn
        · intro hnil hk
          exact hlone ⟨List.map_eq_nil_iff.mp hnil, hk⟩
  | last l gap hgap =>
      obtain ⟨n, hn⟩ : ∃ n, (l :: gap).getLast? = some n :=
        ⟨_, List.getLast?_eq_some_getLast (List.cons_ne_nil l gap)⟩
      have hnot := hend n hn
      rw [hgap n (List.mem_of_getLast? hn)] at hnot
      cases hnot

/-!
## Trimmed values

The terms of a value are what is left of it without separators at the ends, collapsed. They stand
in the text of the value but for the white space between them.
-/

theorem collapse_end (run : List Lexeme) :
    ∃ core post, run = core ++ post ∧ (∀ n ∈ post, n.kind.isInsignificant = true) ∧
      (∀ n ∈ core.getLast?, n.kind.isInsignificant = false) ∧
      ∃ spaces, collapse run = collapse core ++ spaces ∧ ∀ n ∈ spaces, n.kind = .whitespace := by
  induction run using collapse_induction with
  | nil => exact ⟨[], [], rfl, by simp, by simp, [], by simp, by simp⟩
  | keep l rest hl ih =>
      rcases ih with ⟨core, post, rfl, hpost, hend, spaces, hspaces, hwhite⟩
      refine ⟨l :: core, post, rfl, hpost, ?_, spaces, ?_, hwhite⟩
      · cases core with
        | nil =>
            rintro _ ⟨⟩
            exact hl
        | cons m core => exact hend
      · rw [collapse_cons hl, collapse_cons hl, hspaces]
        rfl
  | gap l gap m rest hgap hm ih =>
      rcases ih with ⟨core, post, hcore, hpost, hend, spaces, hspaces, hwhite⟩
      cases core with
      | nil =>
          rw [List.nil_append] at hcore
          have hnot := hpost m (by rw [← hcore]; exact List.mem_cons_self)
          rw [hm] at hnot
          cases hnot
      | cons m' core =>
          obtain ⟨rfl, rfl⟩ := List.cons.inj hcore
          refine ⟨l :: (gap ++ m :: core), post, by simp, hpost, ?_, spaces, ?_, hwhite⟩
          · intro n hn
            apply hend n
            rw [List.getLast?_cons, List.getLast?_append, List.getLast?_cons] at hn
            rw [List.getLast?_cons]
            exact hn
          · rw [collapse_gap hgap hm, collapse_gap hgap hm, hspaces]
            rfl
  | last l gap hgap =>
      rw [collapse_last hgap]
      refine ⟨[], l :: gap, rfl, hgap, by simp, [_], by rw [collapse]; rfl, ?_⟩
      intro n hn
      rw [List.mem_singleton.mp hn]
      exact kind_stretch l gap

theorem collapse_front (run : List Lexeme) :
    ∃ spaces, collapse run = spaces ++ collapse (dropInsignificant run) ∧
      ∀ n ∈ spaces, n.kind = .whitespace := by
  cases run with
  | nil => exact ⟨[], rfl, by simp⟩
  | cons l rest =>
      cases hl : l.kind.isInsignificant with
      | false => exact ⟨[], by rw [dropInsignificant_self hl]; rfl, by simp⟩
      | true =>
          have hdrop : dropInsignificant (l :: rest) = dropInsignificant rest :=
            List.dropWhile_cons_of_pos hl
          rw [hdrop, collapse, if_pos hl]
          refine ⟨[_], rfl, ?_⟩
          intro n hn
          rw [List.mem_singleton.mp hn]
          exact kind_stretch l _

theorem getLast?_collapse (h : ∀ n ∈ run.getLast?, n.kind.isInsignificant = false) :
    (collapse run).getLast? = run.getLast? := by
  induction run using collapse_induction with
  | nil => rw [collapse]
  | keep l rest hl ih =>
      rw [collapse_cons hl, List.getLast?_cons, List.getLast?_cons, ih]
      intro n hn
      apply h n
      rw [List.getLast?_cons, Option.mem_def.mp hn]
      rfl
  | gap l gap m rest hgap hm ih =>
      have hlast : (l :: (gap ++ m :: rest)).getLast? = (m :: rest).getLast? := by
        rw [List.getLast?_cons, List.getLast?_append, List.getLast?_cons]
        rfl
      rw [hlast] at h ⊢
      rw [collapse_gap hgap hm, List.getLast?_cons, ih h, List.getLast?_cons]
      rfl
  | last l gap hgap =>
      have hlast := List.getLast?_eq_some_getLast (List.cons_ne_nil l gap)
      have hnot := h _ hlast
      rw [hgap _ (List.mem_of_getLast? hlast)] at hnot
      cases hnot

theorem trimmed_collapse (hfirst : ∀ n ∈ run.head?, n.kind.isInsignificant = false)
    (hlast : ∀ n ∈ run.getLast?, n.kind.isInsignificant = false) : Trimmed (collapse run) := by
  constructor
  · cases run with
    | nil =>
        rw [collapse]
        rintro _ ⟨⟩
    | cons l rest =>
        have hl := hfirst l rfl
        rw [collapse_cons hl]
        rintro _ ⟨⟩
        exact not_blank_of_significant hl
  · intro kind hkind
    rw [kinds, List.getLast?_map, getLast?_collapse hlast] at hkind
    rcases Option.map_eq_some_iff.mp hkind with ⟨n, hn, rfl⟩
    exact not_blank_of_significant (hlast n hn)

theorem terms_eq_collapse (run : List Lexeme) :
    ∃ core post, dropInsignificant run = core ++ post ∧
      (∀ n ∈ post, n.kind.isInsignificant = true) ∧
      (∀ n ∈ core.getLast?, n.kind.isInsignificant = false) ∧ terms run = collapse core := by
  rcases collapse_front run with ⟨pre, hpre, hfront⟩
  rcases collapse_end (dropInsignificant run) with
    ⟨core, post, hcore, hpost, hend, spaces, hspaces, hback⟩
  have hfirst : ∀ n ∈ core.head?, n.kind.isInsignificant = false := by
    intro n hn
    have hnot := List.head?_dropWhile_not (fun l : Lexeme => l.kind.isInsignificant) run
    rw [dropInsignificant] at hcore
    rw [hcore, List.head?_append, Option.mem_def.mp hn] at hnot
    exact hnot
  refine ⟨core, post, hcore, hpost, hend, ?_⟩
  rw [terms, hpre, hspaces, ← List.append_assoc]
  exact Lexeme.trim_between (Lexeme.blank_of_whitespace hfront)
    (Lexeme.blank_of_whitespace hback) (trimmed_collapse hfirst hend)

theorem exists_core (h : ∀ n ∈ run, n.kind.isInsignificant = true → Formed n.toToken) :
    ∃ core post, core ++ post <:+ run ∧ (∀ n ∈ post, n.kind.isInsignificant = true) ∧
      terms run = collapse core ∧ Respaced (tokens core) (tokens (terms run)) := by
  rcases terms_eq_collapse run with ⟨core, post, hcore, hpost, hend, hterms⟩
  have hsuffix : core ++ post <:+ run := hcore ▸ dropInsignificant_suffix run
  refine ⟨core, post, hsuffix, hpost, hterms, ?_⟩
  rw [hterms]
  apply respaced_collapse _ hend
  exact fun n hn => h n (hsuffix.subset (List.mem_append_left post hn))

/-- The terms of a value stand in its text, but for the white space between them. -/
theorem terms_source {after : List Lexeme} (h : Sourced (run ++ after))
    (hafter : ∀ l ∈ after.head?, separates l.kind = true) :
    ∃ text ss vs, Token.ofText text = ss ++ vs ∧ (∀ v ∈ vs.head?, separates v.kind = true) ∧
      Respaced ss (tokens (terms run)) := by
  have hformed : ∀ n ∈ run, n.kind.isInsignificant = true → Formed n.toToken :=
    fun n hn => h.formed_of_mem (List.mem_append_left after hn)
  rcases exists_core hformed with ⟨core, post, hsuffix, hpost, -, hrespaced⟩
  have hsource : Sourced (core ++ (post ++ after)) := by
    apply h.suffix
    rw [← List.append_assoc]
    exact List.suffix_append_self_iff.mpr hsuffix
  rcases hsource with ⟨text, hcovers⟩
  rw [Lexeme.Covers, tokens, List.map_append] at hcovers
  exact ⟨text, tokens core, _, hcovers.symm, Lexeme.separates_head hpost hafter, hrespaced⟩

theorem last_terms_ne_whitespace {t : Token} (ht : t ∈ (tokens (terms run)).getLast?) :
    t.kind ≠ .whitespace := by
  intro hspace
  have hnot := (Lexeme.trimmed_trim (collapse run)).last _ (Lexeme.kind_getLast? ht)
  rw [hspace] at hnot
  cases hnot

theorem steady_terms {after : List Lexeme} (h : Sourced (run ++ after))
    (hafter : ∀ l ∈ after.head?, separates l.kind = true)
    (hrun : Token.Portable (tokens (terms run)))
    (hlast : ∀ kind ∈ (kinds (terms run)).getLast?, kind ≠ .function ∧ kind ≠ .badUrl) :
    Steady (tokens (terms run)) := by
  rcases terms_source h hafter with ⟨text, ss, vs, htext, hvs, hrespaced⟩
  apply hrun.steady hrespaced htext hvs
  · intro t ht
    exact ⟨(hlast _ (Lexeme.kind_getLast? ht)).1, last_terms_ne_whitespace ht⟩
  · intro _ t ht
    exact (hlast _ (Lexeme.kind_getLast? ht)).2

theorem ofText_serialize_terms {after : List Lexeme} (h : Sourced (run ++ after))
    (hafter : ∀ l ∈ after.head?, separates l.kind = true)
    (hrun : Token.Legible (tokens (terms run)))
    (hlast : ∀ kind ∈ (kinds (terms run)).getLast?, kind ≠ .function) :
    Token.ofText (Lexeme.serialize (terms run)) = tokens (terms run) := by
  rcases terms_source h hafter with ⟨text, ss, vs, htext, hvs, hrespaced⟩
  apply hrun.ofText_serialize hrespaced htext hvs
  intro t ht
  exact ⟨hlast _ (Lexeme.kind_getLast? ht), last_terms_ne_whitespace ht⟩

theorem tidy_terms (h : ∀ n ∈ run, n.kind.isInsignificant = true → Formed n.toToken) :
    tidy (kinds (terms run)) = true := by
  rcases exists_core h with ⟨core, post, -, -, hterms, -⟩
  rw [hterms]
  exact tidy_collapse core

end Parse
end CssText
