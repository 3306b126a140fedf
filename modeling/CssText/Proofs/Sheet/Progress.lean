import CssText.Proofs.Parse.Turns
import CssText.Proofs.Sheet.Positions

/-!
# Reading comes to an end

Whatever stands in a text and whatever fails in it, every turn of a loop leaves the reader
further down, and there are no more turns than the text has tokens (`parse_progress`). In a
sheet the turns inside of a rule count as well. They are paid for by the lexemes that the rule
passes over, and its opening brace pays for the rule itself. A rule that fails has no such
brace; then it has failed at its first lexeme, or past a selector, or at the end of the input.
-/

namespace CssText
namespace Parse

/-!
## What pays for the turns of a rule

Selectors that fail pay for one turn more, unless no chain fits the limit, and the brace that
closes a block has paid for the last turn in it. So a rule pays for its own turn, unless it fails
at the end or before any loop of it began.
-/

section

variable {bounds : Bounds} {ts rest : List Lexeme}

theorem selectorTurns_le (hts : Unended ts) :
    selectorTurns bounds ts + (ruleSelectors bounds ts).rest.length ≤ ts.length := by
  unfold selectorTurns ruleSelectors
  split
  · exact Nat.le_of_eq (Nat.zero_add _)
  · exact length_groupTurns_le hts

theorem selectorTurns_none (hts : Unended ts) (hv : (ruleSelectors bounds ts).value = none) :
    selectorTurns bounds ts + (ruleSelectors bounds ts).rest.length < ts.length ∨
      selectorTurns bounds ts = 0 := by
  unfold ruleSelectors at hv
  unfold selectorTurns ruleSelectors
  split at hv
  · cases hv
  · rename_i hbrace
    rw [if_neg hbrace, if_neg hbrace]
    by_cases hlimit : bounds.limit = 0
    · right
      have hfirst : (chain bounds bounds.limit (bounds.front ts) ts).value = none := by
        rw [hlimit, chain]
      rw [groupTurns_none hfirst]
      rfl
    · exact Or.inl (length_groupTurns_lt hts hlimit hv)

theorem length_blockTurns_le (selectors : SelectorGroup) (ts : List Lexeme) :
    ((declarationLoop bounds true).turns ts).length +
      (ruleBody bounds selectors ts).rest.length ≤ ts.length := by
  have hturns := length_declaration_turns_le bounds true ts
  unfold ruleBody
  simp only
  rcases declarations_stop bounds ts with hnil | ⟨l, rest, hrest, hl⟩
  · rw [hnil] at hturns ⊢
    exact hturns
  · have hsignificant : l.kind.isInsignificant = false := by
      rw [hl]
      rfl
    rw [hrest] at hturns ⊢
    simp only [dropInsignificant_self hsignificant, hl, if_true]
    exact hturns

theorem ruleTurns_le (hts : Unended ts) :
    ruleTurns bounds ts + 1 + (styleRule bounds ts).rest.length ≤ ts.length ∨
      ((styleRule bounds ts).rest = [] ∧ ruleTurns bounds ts ≤ ts.length) ∨
      ruleTurns bounds ts = 0 := by
  have hle := @selectorTurns_le bounds ts hts
  have hnone := @selectorTurns_none bounds ts hts
  unfold ruleTurns styleRule blockTurns
  simp only
  rcases hselectors : ruleSelectors bounds ts with ⟨value, issues, after⟩
  rw [hselectors] at hle hnone
  cases value with
  | none =>
      simp only at hle hnone ⊢
      rcases hnone trivial with hlt | hzero
      · left
        omega
      · exact Or.inr (Or.inr hzero)
  | some group =>
      simp only at hle ⊢
      have hdrop := (dropInsignificant_suffix after).length_le
      cases hafter : dropInsignificant after with
      | nil =>
          refine Or.inr (Or.inl ⟨rfl, ?_⟩)
          simp only
          omega
      | cons l rest =>
          rw [hafter, List.length_cons] at hdrop
          left
          simp only
          by_cases hbrace : l.kind = .leftBrace
          · have hblock := @length_blockTurns_le bounds group rest
            rw [if_pos hbrace, if_pos hbrace]
            simp only
            omega
          · rw [if_neg hbrace, if_neg hbrace]
            simp only
            omega

end

/-- Each turn of a sheet is paid for, only the last one may need the end of the input. -/
theorem sheetBody_paid {bounds : Bounds} {ts : List Lexeme} {turn : Turn Rule}
    (hts : Unended ts) (horder : Ascending bounds ts) (h : sheetBody bounds ts = some turn) :
    turn.inner + 1 + turn.rest.length ≤ ts.length ∨
      (turn.rest = [] ∧ turn.inner ≤ ts.length) := by
  have hpassed := (sheetBody_passed bounds h).2
  have hplain (hinner : turn.inner = 0) :
      turn.inner + 1 + turn.rest.length ≤ ts.length ∨
        (turn.rest = [] ∧ turn.inner ≤ ts.length) := by
    left
    omega
  unfold sheetBody at h
  split at h
  · cases h
  · rename_i l rest
    have hturn := Option.some.inj h
    split at hturn
    · exact hplain (hturn ▸ rfl)
    · split at hturn
      · exact hplain (hturn ▸ rfl)
      · split at hturn
        · exact hplain (hturn ▸ rfl)
        · subst hturn
          simp only
          have hresume := resume_suffix_after horder (styleRule_suffix bounds (l :: rest))
          have hafter : (if (styleRule bounds (l :: rest)).value.isSome
              then (styleRule bounds (l :: rest)).rest
              else resume bounds l rest (styleRule bounds (l :: rest)).rest) <:+
                (styleRule bounds (l :: rest)).rest := by
            split
            · exact List.suffix_refl _
            · exact hresume
          rcases @ruleTurns_le bounds _ hts with hle | ⟨hnil, hle⟩ | hzero
          · have := hafter.length_le
            left
            omega
          · rw [hnil] at hafter
            rw [hnil]
            exact Or.inr ⟨List.suffix_nil.mp (hnil ▸ hafter), hle⟩
          · exact hplain hzero

/-!
## Texts
-/

namespace Loop

/--
A loop over the lexemes of a text: it takes no turn where the lexemes that are left are `done`
and one everywhere else, and each turn leaves it further down in the text.
-/
structure Advances {α : Type} (loop : Loop α) (bounds : Bounds) (ts : List Lexeme)
    (done : List Lexeme → Prop) : Prop where
  stops : ∀ us, us <:+ ts → (loop.body us = none ↔ done us)
  moves : ∀ us turn, us <:+ ts → loop.body us = some turn →
    (bounds.front us).start < (bounds.front turn.rest).start

theorem advances {α : Type} {loop : Loop α} {bounds : Bounds} {ts : List Lexeme}
    {done : List Lexeme → Prop} (horder : Ascending bounds ts)
    (hdone : ∀ us, loop.body us = none ↔ done us) : loop.Advances bounds ts done where
  stops us _ := hdone us
  moves _ _ hus hturn := (loop.passed hturn).front_lt (horder.mono hus)

end Loop

theorem sheetBody_none {bounds : Bounds} (ts : List Lexeme) :
    sheetBody bounds ts = none ↔ ts = [] := by
  cases ts with
  | nil => exact iff_of_true rfl rfl
  | cons l rest => exact iff_of_false (Option.some_ne_none _) (List.cons_ne_nil _ _)

theorem commaBody_none {bounds : Bounds} (ts : List Lexeme) :
    commaBody bounds ts = none ↔ ∀ l ∈ ts.head?, l.kind = .leftBrace := by
  cases ts with
  | nil =>
      refine iff_of_true rfl ?_
      intro l hl
      cases hl
  | cons l rest =>
      rw [commaBody]
      by_cases hbrace : l.kind = .leftBrace
      · rw [if_pos hbrace]
        refine iff_of_true rfl ?_
        intro m hm
        cases hm
        exact hbrace
      · rw [if_neg hbrace]
        refine iff_of_false ?_ fun h => hbrace (h l rfl)
        split
        · exact Option.some_ne_none _
        · exact Option.some_ne_none _

/-- A turn of a group with which its loop does not end takes a comma. -/
theorem commaBody_goesOn {bounds : Bounds} {ts : List Lexeme} {turn : Turn Selector}
    (h : commaBody bounds ts = some turn) (hlast : turn.last = false) :
    ∃ l rest, ts = l :: rest ∧ l.kind = .comma ∧ turn.rest <:+ rest := by
  unfold commaBody at h
  split at h
  · cases h
  · rename_i l rest
    split at h
    · cases h
    · split at h
      · rename_i hcomma
        cases h
        exact ⟨l, rest, rfl, hcomma,
          (chain_suffix bounds _ _ _).trans (dropInsignificant_suffix rest)⟩
      · cases h
        cases hlast

theorem unended_ofText (css : Bytes) : Unended (Lexeme.ofText css) :=
  fun l hl => (Cursor.mem_between [] css l hl).1

end Parse

open Parse in
/--
How the loops run on a text. Each of them stops only where its production ends, each turn
moves forward, what is returned is what the turns found, and there are no more of them than
tokens, those in the rules of a sheet counted as well.
-/
structure Progress (limit : Nat) (css : Bytes) : Prop where
  sheet : (sheetLoop (Bounds.ofText limit css)).Advances (Bounds.ofText limit css)
    (Lexeme.ofText css) fun us => us = []
  declarations : ∀ inBlock, (declarationLoop (Bounds.ofText limit css) inBlock).Advances
    (Bounds.ofText limit css) (Lexeme.ofText css) fun us => dropBlank us = []
  commas : (commaLoop (Bounds.ofText limit css)).Advances (Bounds.ofText limit css)
    (Lexeme.ofText css) fun us => ∀ l ∈ us.head?, l.kind = .leftBrace
  /-- A turn of a group takes a comma, unless it is the last. -/
  comma : ∀ us turn, (commaLoop (Bounds.ofText limit css)).body us = some turn →
    turn.last = false → ∃ l rest, us = l :: rest ∧ l.kind = .comma ∧ turn.rest <:+ rest
  sheet_eq : Sheet.parse limit css =
    (sheetLoop (Bounds.ofText limit css)).gather (Lexeme.ofText css)
  /-- A list of declarations on its own or in a block of the text. -/
  declarations_eq : ∀ inBlock us,
    { value := (Parse.declarations (Bounds.ofText limit css) inBlock us).value
      issues := (Parse.declarations (Bounds.ofText limit css) inBlock us).issues } =
        (declarationLoop (Bounds.ofText limit css) inBlock).gather us
  parseList_eq : Declaration.parseList limit css =
    (declarationLoop (Bounds.ofText limit css) false).gather (Lexeme.ofText css)
  /-- A group on its own or in front of a block of the text. -/
  group_eq : ∀ us, us <:+ Lexeme.ofText css →
    alternatives (Bounds.ofText limit css) us =
      groupOf (chain (Bounds.ofText limit css) limit ((Bounds.ofText limit css).front us) us)
        (groupTurns (Bounds.ofText limit css) us)
  parseGroup_eq : SelectorGroup.parse limit css = endGroup (groupOf
    (chain (Bounds.ofText limit css) limit
      ((Bounds.ofText limit css).front (Lexeme.ofText css)) (Lexeme.ofText css))
    (groupTurns (Bounds.ofText limit css) (Lexeme.ofText css)))
  sheet_turns : (sheetLoop (Bounds.ofText limit css)).cost (Lexeme.ofText css) ≤
    (tokenize css).length
  declaration_turns :
    ((declarationLoop (Bounds.ofText limit css) false).turns (Lexeme.ofText css)).length ≤
      (tokenize css).length
  group_turns : (groupTurns (Bounds.ofText limit css) (Lexeme.ofText css)).length ≤
    (tokenize css).length

/-- Reading a text makes progress with every turn and ends, under whatever limit. -/
theorem parse_progress (limit : Nat) (css : Bytes) : Progress limit css := by
  have horder := Parse.ascending_ofText limit css
  have hunended := Parse.unended_ofText css
  have hlength : (tokenize css).length = (Lexeme.ofText css).length + 1 :=
    List.length_append
  constructor
  · exact Parse.Loop.advances horder Parse.sheetBody_none
  · intro inBlock
    exact Parse.Loop.advances horder fun us => Parse.declarationBody_none
  · exact Parse.Loop.advances horder Parse.commaBody_none
  · intro us turn hturn hlast
    exact Parse.commaBody_goesOn hturn hlast
  · exact (Parse.rules_turns _ _).symm
  · intro inBlock us
    exact (Parse.declarations_turns _ inBlock us).symm
  · exact (Parse.declarations_turns _ false _).symm
  · intro us hus
    exact Parse.alternatives_turns (hunended.mono hus)
  · exact congrArg Parse.endGroup (Parse.alternatives_turns hunended)
  · rw [hlength]
    refine Parse.Loop.cost_le ?_
    intro us turn hus hturn
    exact Parse.sheetBody_paid (hunended.mono hus) (horder.mono hus) hturn
  · rw [hlength]
    exact Nat.le_succ_of_le (Parse.Loop.length_turns_le _ _)
  · rw [hlength]
    have hle := @Parse.length_groupTurns_le (Bounds.ofText limit css) _ hunended
    omega

end CssText
