import CssText.Proofs.Parse.Kinds

/-!
# Runs of nested brackets

Values and the parts of at-rules share a grammar: a bracket runs up to the first closer of its
own at its own level, brackets stand in brackets up to some depth, and what else may stand
directly inside of one is a matter of the language (`Nests`). The readers do not descend into
brackets but keep a stack of those that are open. What such a reader accepts are the runs of
the grammar (`nests_iff`), and with it the values and parts that are read
(`balances_iff_nests`, `closes_iff_nests`).
-/

namespace CssText

theorem Bracket.ofOpener?_closer (b : Bracket) : Bracket.ofOpener? b.closer = none := by
  cases b <;> rfl

namespace Parse

open Lexeme (kinds)

/--
The run nests its brackets at most `depth` deep. What stands directly inside the bracket
`around`, or outside of all brackets, is what `admits` allows there. It may be a closer, but
not the one of `around`.
-/
inductive Nests (admits : Option Bracket → Kind → Bool) :
    Option Bracket → Nat → List Kind → Prop where
  | nil (around : Option Bracket) (depth : Nat) : Nests admits around depth []
  | single {around : Option Bracket} {depth : Nat} {kind : Kind} {rest : List Kind}
      (hplain : Bracket.ofOpener? kind = none)
      (hcloser : around.map Bracket.closer ≠ some kind) (hadmits : admits around kind = true)
      (more : Nests admits around depth rest) : Nests admits around depth (kind :: rest)
  | block {around : Option Bracket} {depth : Nat} {kind : Kind} {b : Bracket}
      {inner rest : List Kind} (hopens : Bracket.ofOpener? kind = some b)
      (hadmits : admits around kind = true) (inside : Nests admits (some b) depth inner)
      (more : Nests admits around (depth + 1) rest) :
      Nests admits around (depth + 1) (kind :: (inner ++ b.closer :: rest))

/-- Whether the kinds close the brackets `opened` and all that they open themselves. -/
def nests (admits : Option Bracket → Kind → Bool) (limit : Nat) :
    List Bracket → List Kind → Bool
  | opened, [] => opened.isEmpty
  | opened, kind :: rest =>
      if opened.head?.map Bracket.closer = some kind then nests admits limit opened.tail rest
      else
        admits opened.head? kind &&
          match Bracket.ofOpener? kind with
          | none => nests admits limit opened rest
          | some b => opened.length < limit && nests admits limit (b :: opened) rest

section

variable {admits : Option Bracket → Kind → Bool} {limit : Nat} {opened : List Bracket}
  {ks : List Kind}

/-!
## What is accepted nests
-/

/--
The kinds go on inside the open brackets, the innermost first: a run and its closer for each
bracket, and a last run outside of all of them.
-/
def Fills (admits : Option Bracket → Kind → Bool) (limit : Nat) :
    List Bracket → List Kind → Prop
  | [], ks => Nests admits none limit ks
  | b :: outer, ks =>
      ∃ inner rest, ks = inner ++ b.closer :: rest ∧
        Nests admits (some b) (limit - (b :: outer).length) inner ∧ Fills admits limit outer rest

/-- What can stand before every run of the innermost bracket can stand before this one. -/
theorem Fills.append (h : Fills admits limit opened ks) {front : List Kind}
    (hfront : ∀ run, Nests admits opened.head? (limit - opened.length) run →
      Nests admits opened.head? (limit - opened.length) (front ++ run)) :
    Fills admits limit opened (front ++ ks) := by
  cases opened with
  | nil => exact hfront ks h
  | cons b outer =>
      rcases h with ⟨inner, rest, rfl, hinner, hrest⟩
      exact ⟨front ++ inner, rest, (List.append_assoc front inner _).symm, hfront inner hinner,
        hrest⟩

theorem Fills.block {kind : Kind} {b : Bracket} (hopens : Bracket.ofOpener? kind = some b)
    (hadmits : admits opened.head? kind = true) (hdepth : opened.length < limit)
    (h : Fills admits limit (b :: opened) ks) : Fills admits limit opened (kind :: ks) := by
  rcases h with ⟨inner, rest, rfl, hinner, hrest⟩
  have hlevel : limit - opened.length = limit - (b :: opened).length + 1 := by
    rw [List.length_cons]
    omega
  have hblock : Fills admits limit opened (kind :: (inner ++ [b.closer]) ++ rest) := by
    apply hrest.append
    intro run hrun
    rw [hlevel] at hrun ⊢
    rw [List.cons_append, List.append_assoc]
    exact Nests.block hopens hadmits hinner hrun
  rw [List.cons_append, List.append_assoc] at hblock
  exact hblock

theorem fills_of_nests (h : nests admits limit opened ks = true) :
    Fills admits limit opened ks := by
  induction ks generalizing opened with
  | nil =>
      cases opened with
      | nil => exact Nests.nil none limit
      | cons b outer => cases h
  | cons kind ks ih =>
      rw [nests] at h
      split at h
      · rename_i hclose
        cases opened with
        | nil => cases hclose
        | cons b outer =>
            cases hclose
            exact ⟨[], ks, rfl, Nests.nil (some b) _, ih h⟩
      · rename_i hclose
        rw [Bool.and_eq_true] at h
        cases hopens : Bracket.ofOpener? kind with
        | none =>
            simp only [hopens] at h
            rw [← List.singleton_append]
            apply (ih h.2).append
            intro run hrun
            exact Nests.single hopens hclose h.1 hrun
        | some b =>
            simp only [hopens, Bool.and_eq_true, decide_eq_true_eq] at h
            exact Fills.block hopens h.1 h.2.1 (ih h.2.2)

/-!
## What nests is accepted
-/

/-- A run of the innermost bracket leaves the open brackets as they were. -/
theorem Nests.nests_append {around : Option Bracket} {depth : Nat} {run : List Kind}
    (h : Nests admits around depth run) (haround : opened.head? = around)
    (hdepth : depth + opened.length ≤ limit) (rest : List Kind) :
    nests admits limit opened (run ++ rest) = nests admits limit opened rest := by
  induction h generalizing opened rest with
  | nil around depth => rfl
  | single hplain hcloser hadmits more ih =>
      rw [← haround] at hcloser hadmits
      rw [List.cons_append, nests, if_neg hcloser, hadmits, hplain]
      exact ih haround hdepth rest
  | @block around depth kind b inner run hopens hadmits inside more ihinside ihmore =>
      have hcloser : opened.head?.map Bracket.closer ≠ some kind := by
        intro hclose
        rcases Option.map_eq_some_iff.mp hclose with ⟨outer, -, rfl⟩
        rw [Bracket.ofOpener?_closer] at hopens
        cases hopens
      have hlength : opened.length < limit := by omega
      have hinside : nests admits limit (b :: opened) (inner ++ b.closer :: (run ++ rest)) =
          nests admits limit (b :: opened) (b.closer :: (run ++ rest)) := by
        apply ihinside rfl
        rw [List.length_cons]
        omega
      rw [← haround] at hadmits
      rw [List.cons_append, List.append_assoc, List.cons_append, nests, if_neg hcloser, hadmits,
        hopens]
      simp only [hlength, decide_true, Bool.true_and]
      rw [hinside, nests, List.head?_cons, Option.map_some, if_pos rfl]
      exact ihmore haround hdepth rest

theorem nests_iff : nests admits limit [] ks = true ↔ Nests admits none limit ks := by
  constructor
  · exact fills_of_nests
  · intro h
    have hrun : nests admits limit [] (ks ++ []) = nests admits limit [] [] :=
      h.nests_append rfl (Nat.le_refl limit) []
    rw [List.append_nil] at hrun
    rw [hrun]
    rfl

/-!
## Values
-/

def isCloser (kind : Kind) : Bool :=
  kind = .rightParen || kind = .rightBracket || kind = .rightBrace

/-- A value holds no closer that closes nothing, nothing broken, and semicolons in brackets
only. -/
def admitsInValue (around : Option Bracket) (kind : Kind) : Bool :=
  !isCloser kind && kind ≠ .badString && kind ≠ .badUrl && (around.isSome || kind ≠ .semicolon)

theorem admitsInValue_opener {kind : Kind} {b : Bracket}
    (h : Bracket.ofOpener? kind = some b) (around : Option Bracket) :
    admitsInValue around kind = true ∧ endsValue kind = false := by
  cases kind <;> first
    | cases h; done
    | cases around <;> exact ⟨rfl, rfl⟩

theorem admitsInValue_plain {kind : Kind} (h : Bracket.ofOpener? kind = none)
    (bounds : Bounds) (opened : List Bracket) :
    admitsInValue opened.head? kind =
      (!(opened.isEmpty && endsValue kind) && (objection? bounds opened kind).isNone) := by
  cases kind <;> first
    | cases h; done
    | cases opened <;> rfl

theorem balances_eq_nests (limit : Nat) (opened : List Bracket) (ks : List Kind) :
    balances limit opened ks = nests admitsInValue limit opened ks := by
  induction ks generalizing opened with
  | nil => rfl
  | cons kind ks ih =>
      rw [balances, nests]
      simp only [ih]
      cases hopens : Bracket.ofOpener? kind with
      | none =>
          have hopened : openedBy kind opened = opened := by
            rw [openedBy, hopens]
          rw [admitsInValue_plain hopens { limit, final := default }, hopened]
          cases hend : opened.isEmpty && endsValue kind with
          | false => rfl
          | true =>
              rw [Bool.and_eq_true, List.isEmpty_iff] at hend
              rw [hend.1]
              rfl
      | some b =>
          have hopened : openedBy kind opened = b :: opened := by
            rw [openedBy, hopens]
          have hsome : (Bracket.ofOpener? kind).isSome = true := by
            rw [hopens]
            rfl
          rcases admitsInValue_opener hopens opened.head? with ⟨hadmits, hends⟩
          rw [hadmits, hends, hopened, objection?_opener hsome]
          by_cases hlimit : limit ≤ opened.length
          · simp [hlimit, Nat.not_lt.mpr hlimit]
          · simp [hlimit, Nat.not_le.mp hlimit]

theorem balances_iff_nests : balances limit [] ks = true ↔ Nests admitsInValue none limit ks := by
  rw [balances_eq_nests, nests_iff]

/-!
## Headers and blocks
-/

/-- A part of an at-rule holds everything but what ends it, and that too in brackets. -/
def admitsInPart (ends : Kind → Bool) (around : Option Bracket) (kind : Kind) : Bool :=
  around.isSome || !ends kind

theorem closes_eq_nests (limit : Nat) (around : List Bracket) (ends : Kind → Bool)
    (opened : List Bracket) (ks : List Kind) :
    closes limit around ends opened ks =
      nests (admitsInPart ends) (limit - around.length) opened ks := by
  induction ks generalizing opened with
  | nil => rfl
  | cons kind ks ih =>
      have hlength : (opened.length + around.length < limit) =
          (opened.length < limit - around.length) :=
        propext Nat.lt_sub_iff_add_lt.symm
      rw [closes, nests]
      simp only [ih, hlength, admitsInPart]
      cases opened with
      | nil => cases hends : ends kind <;> rfl
      | cons b outer => rfl

theorem closes_iff_nests {around : List Bracket} {ends : Kind → Bool} :
    closes limit around ends [] ks = true ↔
      Nests (admitsInPart ends) none (limit - around.length) ks := by
  rw [closes_eq_nests, nests_iff]

end

end Parse
end CssText
