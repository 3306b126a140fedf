import CssText.Proofs.Parse.Collapse
import CssText.Proofs.Parse.Nesting
import Mathlib.Data.List.DropRight
import Mathlib.Data.List.SplitBy

/-!
# The normal form of values

The values that are accepted are those of the grammar of brackets, and the terms of a value
are its normal form: nothing that separates is left at its ends, every stretch that separates
is one lexeme of white space, and the other lexemes are as they were (`balanced_terms_iff`).
The normal form cuts a value into its stretches and does not look ahead as the reader does.
-/

namespace CssText
namespace Parse

open Lexeme (kinds)

/-!
## The form
-/

def inStretch (l m : Lexeme) : Bool :=
  l.kind.isInsignificant && m.kind.isInsignificant

def spaces (run : List Lexeme) : List Lexeme :=
  run.filter fun l => l.kind = .whitespace

/-- A stretch as one lexeme. It has the white space of the stretch, and one more space in front
if it begins with something else. -/
def joined : List Lexeme → Lexeme
  | [] => default
  | l :: gap =>
      if l.kind.isInsignificant then
        { l with
          kind := .whitespace
          value := (if l.kind = .whitespace then [] else [Byte.space]) ++
            (spaces (l :: gap)).flatMap fun m => m.value
          stop := ((spaces (l :: gap)).getLast?.getD l).stop }
      else l

def stripped (run : List Lexeme) : List Lexeme :=
  (dropInsignificant run).rdropWhile fun l => l.kind.isInsignificant

def normalForm (value : List Lexeme) : List Lexeme :=
  ((stripped value).splitBy inStretch).map joined

/-!
## Stretches

All the white space of a stretch is added to the lexeme in front, so collapsing a run makes one
lexeme of each of its stretches.
-/

section

variable {l : Lexeme} {gap : List Lexeme}

theorem spaces_cons_of_ne (h : l.kind ≠ .whitespace) (gap : List Lexeme) :
    spaces (l :: gap) = spaces gap :=
  List.filter_cons_of_neg (by simpa using h)

theorem spaces_cons_of_eq (h : l.kind = .whitespace) (gap : List Lexeme) :
    spaces (l :: gap) = l :: spaces gap :=
  List.filter_cons_of_pos (by simpa using h)

theorem foldl_widen (space : Lexeme) (gap : List Lexeme) :
    gap.foldl widen space =
      { space with
        value := space.value ++ (spaces gap).flatMap fun m => m.value
        stop := ((spaces gap).getLast?.getD space).stop } := by
  induction gap generalizing space with
  | nil =>
      rw [spaces, List.filter_nil, List.flatMap_nil, List.append_nil]
      rfl
  | cons n gap ih =>
      rw [List.foldl_cons, ih]
      by_cases hn : n.kind = .whitespace
      · have hwiden : widen space n =
            { space with value := space.value ++ n.value, stop := n.stop } := if_pos hn
        rw [hwiden, spaces_cons_of_eq hn, List.flatMap_cons, List.getLast?_cons,
          List.append_assoc]
        cases (spaces gap).getLast? <;> rfl
      · have hwiden : widen space n = space := if_neg hn
        rw [hwiden, spaces_cons_of_ne hn]

theorem joined_stretch (hl : l.kind.isInsignificant = true) (gap : List Lexeme) :
    joined (l :: gap) = gap.foldl widen (separator l) := by
  rw [foldl_widen, joined, if_pos hl]
  by_cases hk : l.kind = .whitespace
  · have hself : separator l = l := if_pos hk
    rw [hself, if_pos hk, spaces_cons_of_eq hk, List.getLast?_cons, List.flatMap_cons, hk]
    rfl
  · have hspace : separator l = { l with kind := .whitespace, value := [Byte.space] } :=
      if_neg hk
    rw [hspace, if_neg hk, spaces_cons_of_ne hk]
    cases (spaces gap).getLast? <;> rfl

theorem joined_single (hl : l.kind.isInsignificant = false) : joined [l] = l := by
  rw [joined, hl]
  rfl

theorem splitBy_stretch (h : ∀ n ∈ l :: gap, n.kind.isInsignificant = true) :
    (l :: gap).splitBy inStretch = [l :: gap] := by
  apply List.splitBy_of_isChain (List.cons_ne_nil l gap)
  apply List.Pairwise.isChain
  apply List.pairwise_of_forall_mem_list
  intro m hm n hn
  rw [inStretch, h m hm, h n hn]
  rfl

end

theorem collapse_eq_map_joined (run : List Lexeme) :
    collapse run = (run.splitBy inStretch).map joined := by
  induction run using collapse_induction with
  | nil =>
      rw [collapse]
      rfl
  | keep l rest hl ih =>
      have hsplit : (l :: rest).splitBy inStretch = [l] :: rest.splitBy inStretch := by
        apply List.splitBy_append (l := [l])
        intro m hm n _
        obtain rfl : l = m := Option.some.inj hm
        rw [inStretch, hl, Bool.false_and]
      rw [collapse_cons hl, hsplit, List.map_cons, joined_single hl, ih]
  | gap l gap m rest hgap hm ih =>
      have hsplit : (l :: (gap ++ m :: rest)).splitBy inStretch =
          (l :: gap) :: (m :: rest).splitBy inStretch := by
        rw [← List.cons_append, List.splitBy_append_cons, splitBy_stretch hgap]
        · rfl
        · intro n _
          rw [inStretch, hm, Bool.and_false]
      rw [collapse_gap hgap hm, hsplit, List.map_cons,
        joined_stretch (hgap l List.mem_cons_self), ih]
  | last l gap hgap =>
      rw [collapse_last hgap, splitBy_stretch hgap, List.map_singleton,
        joined_stretch (hgap l List.mem_cons_self)]

section

variable {run post : List Lexeme}

theorem rdropWhile_separators (hpost : ∀ n ∈ post, n.kind.isInsignificant = true) :
    (run ++ post).rdropWhile (fun l => l.kind.isInsignificant) =
      run.rdropWhile fun l => l.kind.isInsignificant := by
  have hback : ∀ n ∈ post.reverse, n.kind.isInsignificant = true :=
    fun n hn => hpost n (List.mem_reverse.mp hn)
  rw [List.rdropWhile, List.reverse_append, List.dropWhile_append_of_pos hback]
  rfl

theorem stripped_append (hpost : ∀ n ∈ post, n.kind.isInsignificant = true) :
    stripped (run ++ post) = stripped run := by
  rw [stripped, stripped, dropInsignificant, dropInsignificant, List.dropWhile_append]
  split
  · rename_i hempty
    rw [List.isEmpty_iff.mp hempty, List.dropWhile_eq_nil_iff.mpr hpost]
  · exact rdropWhile_separators hpost

end

/-- The terms of a value are its normal form. -/
theorem terms_eq_normalForm (value : List Lexeme) : terms value = normalForm value := by
  rcases terms_eq_collapse value with ⟨core, post, hcore, hpost, hend, hterms⟩
  have hstripped : stripped value = core := by
    rw [stripped, hcore, rdropWhile_separators hpost, List.rdropWhile_eq_self_iff]
    intro hne
    rw [hend _ (List.getLast?_eq_some_getLast hne)]
    exact Bool.false_ne_true
  rw [normalForm, hstripped, hterms, collapse_eq_map_joined]

theorem terms_append {value post : List Lexeme}
    (hpost : ∀ n ∈ post, n.kind.isInsignificant = true) :
    terms (value ++ post) = terms value := by
  rw [terms_eq_normalForm, terms_eq_normalForm, normalForm, normalForm, stripped_append hpost]

/-- A value ends with its last term but for what separates lexemes, and a value without terms
is nothing but that. -/
theorem exists_last_term (run : List Lexeme) :
    ∃ value post, run = value ++ post ∧ (∀ n ∈ post, n.kind.isInsignificant = true) ∧
      (∀ l ∈ (terms value).getLast?, value.getLast? = some l) ∧
      (terms value = [] → post = []) := by
  rcases terms_eq_collapse run with ⟨core, post, hcore, hpost, hend, hterms⟩
  by_cases hnil : core = []
  · have hnone : terms run = [] := by
      rw [hterms, hnil, collapse]
    refine ⟨run, [], (List.append_nil run).symm, by simp, ?_, fun _ => rfl⟩
    rw [hnone]
    rintro _ ⟨⟩
  · have hsplit : run = run.takeWhile (fun l => l.kind.isInsignificant) ++ core ++ post := by
      rw [List.append_assoc, ← hcore]
      exact List.takeWhile_append_dropWhile.symm
    have hlast := getLast?_collapse hend
    refine ⟨_, post, hsplit, hpost, ?_⟩
    rw [← terms_append hpost, ← hsplit, hterms, List.getLast?_append_of_ne_nil _ hnil, hlast]
    constructor
    · exact fun l hl => hl
    · intro hcollapse
      rw [hcollapse] at hlast
      exact absurd (List.getLast?_eq_none_iff.mp hlast.symm) hnil

/-!
## Accepted values
-/

/-- A value is accepted up to what ends it if its brackets balance. -/
theorem balanced_iff {bounds : Bounds} {opened : List Bracket} {ts run rest : List Lexeme} :
    balanced bounds opened ts = (.ok run, rest) ↔
      ts = run ++ rest ∧ balances bounds.limit opened (kinds run) = true ∧
        ∀ l ∈ rest.head?, endsValue l.kind = true := by
  constructor
  · intro h
    have hv : (balanced bounds opened ts).1 = .ok run := congrArg Prod.fst h
    have hrest : (balanced bounds opened ts).2 = rest := congrArg Prod.snd h
    have happend := balanced_append hv
    have hstop := balanced_stop hv
    rw [hrest] at happend hstop
    exact ⟨happend, balances_of_balanced hv, hstop⟩
  · intro h
    rcases h with ⟨rfl, hbalances, hstop⟩
    exact balanced_of_balances hbalances hstop

/-- Reading a value succeeds on the values of the grammar, up to what ends them, and gives
their normal forms. -/
theorem balanced_terms_iff {bounds : Bounds} {ts run rest : List Lexeme} :
    ((balanced bounds [] ts).1.map terms = .ok run ∧ (balanced bounds [] ts).2 = rest) ↔
      ∃ value, ts = value ++ rest ∧ (∀ l ∈ rest.head?, endsValue l.kind = true) ∧
        Nests admitsInValue none bounds.limit (kinds value) ∧ run = normalForm value := by
  constructor
  · intro h
    rcases h with ⟨hv, hrest⟩
    cases hvalue : (balanced bounds [] ts).1 with
    | error fault =>
        rw [hvalue] at hv
        cases hv
    | ok value =>
        rw [hvalue] at hv
        have hread : balanced bounds [] ts = (.ok value, rest) := Prod.ext hvalue hrest
        rcases balanced_iff.mp hread with ⟨happend, hbalances, hstop⟩
        have hterms : terms value = run := Except.ok.inj hv
        exact ⟨value, happend, hstop, balances_iff_nests.mp hbalances,
          hterms ▸ terms_eq_normalForm value⟩
  · intro h
    rcases h with ⟨value, happend, hstop, hnests, rfl⟩
    have hread : balanced bounds [] ts = (.ok value, rest) :=
      balanced_iff.mpr ⟨happend, balances_iff_nests.mpr hnests, hstop⟩
    rw [hread]
    constructor
    · exact congrArg Except.ok (terms_eq_normalForm value)
    · rfl

end Parse
end CssText
