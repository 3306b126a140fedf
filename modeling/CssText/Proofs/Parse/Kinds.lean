import CssText.Proofs.Parse.Runs
import CssText.Proofs.Selector.WellFormed

/-!
# Runs by their kinds

Whether a value or a part of an at-rule is accepted depends on the kinds of its lexemes and
on nothing else, and white space does not matter for it. Each reader of runs has a test of
kinds here that it passes exactly the runs it accepts.
-/

namespace CssText

namespace Lexeme

structure Trimmed (run : List Lexeme) : Prop where
  first : ∀ kind ∈ (kinds run).head?, kind.isBlank = false
  last : ∀ kind ∈ (kinds run).getLast?, kind.isBlank = false

theorem head_dropBlank (run : List Lexeme) :
    ∀ kind ∈ (kinds (Parse.dropBlank run)).head?, kind.isBlank = false := by
  have hnot := List.head?_dropWhile_not (fun l : Lexeme => l.kind.isBlank) run
  intro kind hkind
  rw [kinds, List.head?_map] at hkind
  rcases Option.map_eq_some_iff.mp hkind with ⟨l, hl, rfl⟩
  rw [Parse.dropBlank] at hl
  rw [hl] at hnot
  exact hnot

theorem dropBlank_append {run : List Lexeme} {l : Lexeme} (h : l.kind.isBlank = false)
    (rest : List Lexeme) :
    Parse.dropBlank (run ++ l :: rest) = Parse.dropBlank run ++ l :: rest := by
  rw [Parse.dropBlank, List.dropWhile_append]
  split
  · rename_i hnil
    rw [List.isEmpty_iff] at hnil
    rw [Parse.dropBlank, hnil]
    exact Parse.dropBlank_self h rest
  · rfl

theorem trimmed_trim (run : List Lexeme) : Trimmed (trim run) := by
  constructor
  · have hback := List.dropWhile_suffix (fun l : Lexeme => l.kind.isBlank)
      (l := (run.dropWhile fun l => l.kind.isBlank).reverse)
    have hfront := List.reverse_prefix.mpr hback
    rw [List.reverse_reverse] at hfront
    rcases hfront with ⟨post, hpost⟩
    intro kind hkind
    apply head_dropBlank run
    rw [Parse.dropBlank, ← hpost, kinds, List.map_append, List.head?_append]
    exact congrArg (Option.or · _) hkind
  · rw [trim, kinds, List.map_reverse, List.getLast?_reverse]
    exact head_dropBlank _

theorem dropBlank_eq_trim (run : List Lexeme) :
    ∃ post, Parse.dropBlank run = trim run ++ post ∧ ∀ l ∈ post, l.kind.isBlank = true := by
  have hsplit := List.takeWhile_append_dropWhile (p := fun l : Lexeme => l.kind.isBlank)
    (l := (Parse.dropBlank run).reverse)
  have hall := List.all_takeWhile (p := fun l : Lexeme => l.kind.isBlank)
    (l := (Parse.dropBlank run).reverse)
  have hwhole := congrArg List.reverse hsplit
  rw [List.reverse_append, List.reverse_reverse] at hwhole
  refine ⟨_, hwhole.symm, ?_⟩
  intro l hl
  exact List.all_eq_true.mp hall l (List.mem_reverse.mp hl)

end Lexeme

namespace Parse

open Lexeme (kinds)

def significant (ks : List Kind) : List Kind :=
  ks.filter fun kind => !kind.isBlank

theorem blank_cases {kind : Kind} (h : kind.isBlank = true) :
    kind = .whitespace ∨ kind = .comment := by
  simpa [Kind.isBlank] using h

theorem significant_blank {kind : Kind} (h : kind.isBlank = true) (ks : List Kind) :
    significant (kind :: ks) = significant ks := by
  rw [significant, List.filter_cons, h]
  rfl

theorem significant_cons {kind : Kind} (h : kind.isBlank = false) (ks : List Kind) :
    significant (kind :: ks) = kind :: significant ks := by
  rw [significant, List.filter_cons, h]
  rfl

theorem significant_trim (run : List Lexeme) :
    significant (kinds (Lexeme.trim run)) = significant (kinds run) := by
  have hdrop (run : List Lexeme) :
      significant (kinds (run.dropWhile fun l => l.kind.isBlank)) = significant (kinds run) := by
    induction run with
    | nil => rfl
    | cons l run ih =>
        rw [List.dropWhile_cons]
        split
        · rename_i h
          rw [ih]
          exact (significant_blank h _).symm
        · rfl
  have hreverse (run : List Lexeme) :
      significant (kinds run.reverse) = (significant (kinds run)).reverse := by
    rw [kinds, List.map_reverse, significant, List.filter_reverse]
    rfl
  rw [Lexeme.trim, hreverse, hdrop, hreverse, List.reverse_reverse, hdrop]

/-!
## Arguments

Arguments that are closed run up to their closing parenthesis, and neither they nor what is kept
of them hold a brace. A function at the end of a run is not closed in it.
-/

theorem arguments_spec {nesting : Nat} {ts args : List Lexeme}
    (h : (arguments nesting ts).1 = some args) :
    (∃ close, ts = args ++ close :: (arguments nesting ts).2 ∧ close.kind = .rightParen) ∧
      Selector.parensClose nesting (kinds args) = true ∧
      ∀ kind ∈ kinds args, cutsArguments kind = false := by
  induction ts generalizing nesting args with
  | nil =>
      rw [arguments] at h
      cases h
  | cons l rest ih =>
      rw [arguments_cons] at h ⊢
      split at h
      · cases h
      · rename_i hcuts
        rw [Bool.not_eq_true] at hcuts
        split at h
        · rename_i hclose
          cases h
          rw [if_neg (by rw [hcuts]; exact Bool.false_ne_true), if_pos hclose]
          constructor
          · exact ⟨l, rfl, hclose.1⟩
          · constructor
            · rw [hclose.2]
              rfl
            · intro kind hkind
              cases hkind
        · rename_i hclose
          rcases Option.map_eq_some_iff.mp h with ⟨more, hmore, rfl⟩
          rcases ih hmore with ⟨⟨close, happend, hkind⟩, hparens, hbraces⟩
          rw [if_neg (by rw [hcuts]; exact Bool.false_ne_true), if_neg hclose]
          constructor
          · exact ⟨close, congrArg (l :: ·) happend, hkind⟩
          · constructor
            · rw [kinds, List.map_cons, Selector.parensClose]
              simp only [Bool.and_eq_true, Bool.not_eq_true', Bool.and_eq_false_iff,
                decide_eq_false_iff_not]
              constructor
              · exact Classical.not_and_iff_not_or_not.mp hclose
              · exact hparens
            · intro kind hkind
              rcases List.mem_cons.mp hkind with rfl | hkind
              · exact hcuts
              · exact hbraces kind hkind

theorem parensClose_significant (nesting : Nat) (ks : List Kind) :
    Selector.parensClose nesting (significant ks) = Selector.parensClose nesting ks := by
  induction ks generalizing nesting with
  | nil => rfl
  | cons kind ks ih =>
      cases h : kind.isBlank with
      | false => rw [significant_cons h, Selector.parensClose, Selector.parensClose, ih]
      | true =>
          rw [significant_blank h, ih, Selector.parensClose]
          rcases blank_cases h with rfl | rfl <;> rfl

theorem arguments_trim {ts args : List Lexeme} (h : (arguments 0 ts).1 = some args) :
    Selector.parensClose 0 (kinds (Lexeme.trim args)) = true ∧
      ∀ kind ∈ kinds (Lexeme.trim args), cutsArguments kind = false := by
  rcases arguments_spec h with ⟨-, hparens, hbraces⟩
  constructor
  · rw [← parensClose_significant, significant_trim, parensClose_significant]
    exact hparens
  · intro kind hkind
    rcases List.mem_map.mp hkind with ⟨l, hl, rfl⟩
    exact hbraces l.kind (List.mem_map_of_mem ((Lexeme.trim_infix_self args).subset hl))

theorem parensClose_function (nesting : Nat) (ks : List Kind) :
    Selector.parensClose nesting (ks ++ [.function]) = false := by
  induction ks generalizing nesting with
  | nil => rfl
  | cons kind ks ih => rw [List.cons_append, Selector.parensClose, ih, Bool.and_false]

theorem parensClose_last {nesting : Nat} {ks : List Kind}
    (h : Selector.parensClose nesting ks = true) : ∀ kind ∈ ks.getLast?, kind ≠ .function := by
  rintro kind hkind rfl
  rcases List.getLast?_eq_some_iff.mp hkind with ⟨init, rfl⟩
  rw [parensClose_function] at h
  cases h

/-!
## Values

An accepted value is read up to what ends it. What is refused at the end of a value is refused
behind every run, so no value ends with a function or a broken address.
-/

/-- The kinds of a value that is accepted inside the brackets `opened`. -/
def balances (limit : Nat) : List Bracket → List Kind → Bool
  | opened, [] => opened.isEmpty
  | opened, kind :: rest =>
      if opened.isEmpty && endsValue kind then false
      else if opened.head?.map Bracket.closer = some kind then balances limit opened.tail rest
      else
        (objection? { limit, final := default } opened kind).isNone &&
          balances limit (openedBy kind opened) rest

theorem objection?_limit (bounds : Bounds) (opened : List Bracket) (kind : Kind) :
    objection? { limit := bounds.limit, final := default } opened kind =
      objection? bounds opened kind := by
  unfold objection?
  rfl

theorem objection?_opener {kind : Kind} (h : (Bracket.ofOpener? kind).isSome = true)
    (bounds : Bounds) (opened : List Bracket) :
    objection? bounds opened kind =
      if bounds.limit ≤ opened.length then some (.tooDeep bounds.limit) else none := by
  cases kind <;> first
    | exact absurd h (by decide)
    | simp [objection?, Bracket.ofOpener?]

theorem balances_significant (limit : Nat) (opened : List Bracket) (ks : List Kind) :
    balances limit opened (significant ks) = balances limit opened ks := by
  induction ks generalizing opened with
  | nil => rfl
  | cons kind ks ih =>
      cases h : kind.isBlank with
      | false =>
          rw [significant_cons h, balances, balances]
          simp only [ih]
      | true =>
          rw [significant_blank h, ih, balances]
          rcases blank_cases h with rfl | rfl
          · cases opened with
            | nil => rfl
            | cons b opened => cases b <;> rfl
          · cases opened with
            | nil => rfl
            | cons b opened => cases b <;> rfl

theorem balanced_of_balances {bounds : Bounds} {opened : List Bracket} {run rest : List Lexeme}
    (h : balances bounds.limit opened (kinds run) = true)
    (hrest : ∀ l ∈ rest.head?, endsValue l.kind = true) :
    balanced bounds opened (run ++ rest) = (.ok run, rest) := by
  induction run generalizing opened with
  | nil =>
      cases opened with
      | cons b opened => cases h
      | nil =>
          cases rest with
          | nil => rfl
          | cons l rest =>
              rw [List.nil_append, balanced, hrest l rfl]
              rfl
  | cons m run ih =>
      rw [kinds, List.map_cons, balances] at h
      rw [List.cons_append, balanced]
      split at h
      · cases h
      · rename_i hend
        rw [if_neg hend]
        split at h
        · rename_i hclose
          rw [if_pos hclose, ih h]
          rfl
        · rename_i hclose
          rw [Bool.and_eq_true, objection?_limit] at h
          rw [if_neg hclose, Option.isNone_iff_eq_none.mp h.1]
          simp only [ih h.2]
          rfl

theorem balances_of_balanced {bounds : Bounds} {opened : List Bracket} {ts run : List Lexeme}
    (h : (balanced bounds opened ts).1 = .ok run) :
    balances bounds.limit opened (kinds run) = true := by
  induction ts generalizing opened run with
  | nil =>
      cases opened with
      | nil =>
          cases h
          rfl
      | cons b opened => cases h
  | cons l rest ih =>
      rw [balanced] at h
      split at h
      · rename_i hend
        cases h
        rw [Bool.and_eq_true] at hend
        exact hend.1
      · rename_i hend
        split at h
        · rename_i hclose
          cases hmore : (balanced bounds opened.tail rest).1 with
          | error fault =>
              simp only [hmore] at h
              cases h
          | ok more =>
              simp only [hmore] at h
              cases h
              rw [kinds, List.map_cons, balances, if_neg hend, if_pos hclose]
              exact ih hmore
        · rename_i hclose
          split at h
          · cases h
          · rename_i hobjection
            cases hmore : (balanced bounds (openedBy l.kind opened) rest).1 with
            | error fault =>
                simp only [hmore] at h
                cases h
            | ok more =>
                simp only [hmore] at h
                cases h
                rw [kinds, List.map_cons, balances, if_neg hend, if_neg hclose,
                  objection?_limit, hobjection]
                exact ih hmore

theorem balanced_stop {bounds : Bounds} {opened : List Bracket} {ts run : List Lexeme}
    (h : (balanced bounds opened ts).1 = .ok run) :
    ∀ l ∈ (balanced bounds opened ts).2.head?, endsValue l.kind = true := by
  refine balanced_induction
    (motive := fun _ r => ∀ run, r.1 = .ok run → ∀ l ∈ r.2.head?, endsValue l.kind = true)
    opened ts ?finish ?missing ?stop ?take ?refuse run h
  case finish =>
    intro run _ l hl
    cases hl
  case missing =>
    intro b opened run hrun
    cases hrun
  case stop =>
    intro l rest hl run _ m hm
    cases hm
    exact hl
  case take =>
    intro l rest more ih run hrun
    rcases exists_of_map_ok hrun with ⟨run', hrun', -⟩
    exact ih run' hrun'
  case refuse =>
    intro l rest opened complaint hcomplaint run hrun
    cases hrun

theorem balances_append {limit : Nat} {kind : Kind}
    (h : ∀ opened, balances limit opened [kind] = false) (opened : List Bracket)
    (ks : List Kind) : balances limit opened (ks ++ [kind]) = false := by
  induction ks generalizing opened with
  | nil => exact h opened
  | cons k ks ih =>
      rw [List.cons_append, balances]
      split
      · rfl
      · split
        · exact ih _
        · rw [ih, Bool.and_false]

theorem balances_last {limit : Nat} {ks : List Kind} (h : balances limit [] ks = true) :
    ∀ kind ∈ ks.getLast?, kind ≠ .function ∧ kind ≠ .badUrl := by
  intro kind hkind
  rcases List.getLast?_eq_some_iff.mp hkind with ⟨init, rfl⟩
  constructor
  · rintro rfl
    rw [balances_append] at h
    · cases h
    · intro opened
      cases opened with
      | nil => exact Bool.and_false _
      | cons b opened => cases b <;> exact Bool.and_false _
  · rintro rfl
    rw [balances_append] at h
    · cases h
    · intro opened
      cases opened with
      | nil => rfl
      | cons b opened => cases b <;> rfl

/-- White space stands by itself in the run, and nothing else in it is insignificant. -/
def tidy : List Kind → Bool
  | [] => true
  | kind :: rest =>
      (!kind.isInsignificant ||
        (kind = .whitespace && !(rest.head?.map Kind.isInsignificant).getD false)) && tidy rest

theorem collapse_eq_self {run : List Lexeme} (h : tidy (kinds run) = true) :
    collapse run = run := by
  induction run with
  | nil => rw [collapse]
  | cons l run ih =>
      rw [kinds, List.map_cons, tidy, Bool.and_eq_true] at h
      rcases h with ⟨hl, hrun⟩
      rw [collapse]
      split
      · rename_i hinsignificant
        rw [hinsignificant, Bool.not_true, Bool.false_or, Bool.and_eq_true,
          decide_eq_true_eq] at hl
        rcases hl with ⟨hkind, hnext⟩
        have hseparator : separator l = l := if_pos hkind
        cases run with
        | nil =>
            rw [hseparator]
            simp only [List.takeWhile_nil, List.foldl_nil]
            exact congrArg (l :: ·) (ih hrun)
        | cons m run =>
            have hm : m.kind.isInsignificant = false := by
              simpa using hnext
            simp only [List.takeWhile_cons, hm, Bool.false_eq_true, if_false, List.foldl_nil,
              hseparator, dropInsignificant_self hm, ih hrun]
      · rw [ih hrun]

/-- White space in front of a trimmed and tidy value is dropped, and no more. -/
theorem terms_of_tidy {space : Lexeme} {run : List Lexeme} (hs : space.kind = .whitespace)
    (h : tidy (kinds run) = true) (hf : ∀ kind ∈ (kinds run).head?, kind.isBlank = false)
    (hl : ∀ kind ∈ (kinds run).getLast?, kind.isBlank = false) : terms (space :: run) = run := by
  have htidy : tidy (kinds (space :: run)) = true := by
    rw [kinds, List.map_cons, tidy, hs]
    cases run with
    | nil => rfl
    | cons m run =>
        have hblank : m.kind.isBlank = false := hf m.kind rfl
        have hm : m.kind.isInsignificant = false := by
          rw [kinds, List.map_cons, tidy, Bool.and_eq_true, Bool.or_eq_true] at h
          rcases h.1 with h | h
          · simpa using h
          · rw [Bool.and_eq_true, decide_eq_true_eq] at h
            rw [h.1] at hblank
            cases hblank
        rw [List.map_cons, List.head?_cons, Option.map_some, hm]
        exact h
  rw [terms, collapse_eq_self htidy]
  have htrim : Lexeme.trim (space :: run) = Lexeme.trim run := by
    rw [Lexeme.trim, List.dropWhile_cons, hs]
    rfl
  rw [htrim, trim_eq_self hf hl]

/-!
## Headers and blocks

A closed run is read up to the lexeme that ends it.
-/

/-- The kinds of a run in which every bracket is closed and none is too deep. -/
def closes (limit : Nat) (around : List Bracket) (ends : Kind → Bool) :
    List Bracket → List Kind → Bool
  | opened, [] => opened.isEmpty
  | opened, kind :: rest =>
      if opened.isEmpty && ends kind then false
      else if opened.head?.map Bracket.closer = some kind then
        closes limit around ends opened.tail rest
      else
        match Bracket.ofOpener? kind with
        | none => closes limit around ends opened rest
        | some b =>
            opened.length + around.length < limit && closes limit around ends (b :: opened) rest

theorem closes_significant {limit : Nat} {around : List Bracket} {ends : Kind → Bool}
    (hends : ∀ kind : Kind, kind.isBlank = true → ends kind = false) (opened : List Bracket)
    (ks : List Kind) :
    closes limit around ends opened (significant ks) = closes limit around ends opened ks := by
  induction ks generalizing opened with
  | nil => rfl
  | cons kind ks ih =>
      cases h : kind.isBlank with
      | false =>
          rw [significant_cons h, closes, closes]
          simp only [ih]
      | true =>
          rw [significant_blank h, ih, closes, hends kind h, Bool.and_false]
          rcases blank_cases h with rfl | rfl
          · cases opened with
            | nil => rfl
            | cons b opened => cases b <;> rfl
          · cases opened with
            | nil => rfl
            | cons b opened => cases b <;> rfl

theorem components_of_closes {bounds : Bounds} {around : List Bracket} {ends : Kind → Bool}
    {opened : List Bracket} {run : List Lexeme} {l : Lexeme}
    (h : closes bounds.limit around ends opened (kinds run) = true) (hl : ends l.kind = true)
    (rest : List Lexeme) :
    components bounds around ends opened (run ++ l :: rest) =
      { value := some run, issues := [], rest := l :: rest } := by
  induction run generalizing opened with
  | nil =>
      cases opened with
      | cons b opened => cases h
      | nil =>
          rw [List.nil_append, components, hl]
          rfl
  | cons m run ih =>
      rw [kinds, List.map_cons, closes] at h
      rw [List.cons_append, components]
      split at h
      · cases h
      · rename_i hend
        rw [if_neg hend]
        split at h
        · rename_i hclose
          rw [if_pos hclose, ih h]
          rfl
        · rename_i hclose
          rw [if_neg hclose]
          cases hopen : Bracket.ofOpener? m.kind with
          | none =>
              simp only [hopen] at h
              simp only [ih h, Option.map_some]
          | some b =>
              simp only [hopen, Bool.and_eq_true, decide_eq_true_eq] at h
              simp only [if_pos h.1, ih h.2, Option.map_some]

theorem components_stop {bounds : Bounds} {around : List Bracket} {ends : Kind → Bool}
    {opened : List Bracket} {ts run : List Lexeme}
    (h : (components bounds around ends opened ts).value = some run) :
    ∃ l rest, (components bounds around ends opened ts).rest = l :: rest ∧
      ends l.kind = true := by
  refine components_induction
    (motive := fun _ r => ∀ run, r.value = some run →
      ∃ l rest, r.rest = l :: rest ∧ ends l.kind = true)
    opened ts ?missing ?stop ?take ?refuse run h
  case missing =>
    intro opened run hrun
    cases hrun
  case stop =>
    intro l rest hl run _
    exact ⟨l, rest, rfl, hl⟩
  case take =>
    intro l rest more ih run hrun
    rcases Option.map_eq_some_iff.mp hrun with ⟨run', hrun', -⟩
    exact ih run' hrun'
  case refuse =>
    intro l rest run hrun
    cases hrun

theorem closes_of_components {bounds : Bounds} {around : List Bracket} {ends : Kind → Bool}
    {opened : List Bracket} {ts run : List Lexeme}
    (h : (components bounds around ends opened ts).value = some run) :
    closes bounds.limit around ends opened (kinds run) = true := by
  induction ts generalizing opened run with
  | nil => cases h
  | cons l rest ih =>
      rw [components] at h
      split at h
      · rename_i hend
        cases h
        rw [Bool.and_eq_true] at hend
        exact hend.1
      · rename_i hend
        split at h
        · rename_i hclose
          rcases Option.map_eq_some_iff.mp h with ⟨more, hmore, rfl⟩
          rw [kinds, List.map_cons, closes, if_neg hend, if_pos hclose]
          exact ih hmore
        · rename_i hclose
          split at h
          · rename_i hopen
            rcases Option.map_eq_some_iff.mp h with ⟨more, hmore, rfl⟩
            rw [kinds, List.map_cons, closes, if_neg hend, if_neg hclose, hopen]
            exact ih hmore
          · rename_i b hopen
            split at h
            · rename_i hlimit
              rcases Option.map_eq_some_iff.mp h with ⟨more, hmore, rfl⟩
              rw [kinds, List.map_cons, closes, if_neg hend, if_neg hclose, hopen]
              simp only [hlimit, decide_true, Bool.true_and]
              exact ih hmore
            · cases h

theorem closes_function (limit : Nat) (around : List Bracket) (ends : Kind → Bool)
    (opened : List Bracket) (ks : List Kind) :
    closes limit around ends opened (ks ++ [.function]) = false := by
  induction ks generalizing opened with
  | nil =>
      cases opened with
      | nil => cases h : ends .function <;> simp [closes, h, Bracket.ofOpener?]
      | cons b opened => cases b <;> exact Bool.and_false _
  | cons kind ks ih =>
      rw [List.cons_append, closes]
      split
      · rfl
      · split
        · exact ih _
        · split
          · exact ih _
          · rw [ih, Bool.and_false]

theorem closes_last {limit : Nat} {around opened : List Bracket} {ends : Kind → Bool}
    {ks : List Kind} (h : closes limit around ends opened ks = true) :
    ∀ kind ∈ ks.getLast?, kind ≠ .function := by
  rintro kind hkind rfl
  rcases List.getLast?_eq_some_iff.mp hkind with ⟨init, rfl⟩
  rw [closes_function] at h
  cases h

end Parse
end CssText
