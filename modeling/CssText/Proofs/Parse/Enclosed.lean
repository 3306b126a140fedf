import CssText.Proofs.Parse.Kinds

/-!
# Reading inside a block that is closed

The brackets of a block nest properly, and a right brace closes it. A reader that fails in the
middle forgets brackets that are open around it, but it never believes in one that is not: its
brackets are a part of the true ones (`Enclosed`). So it cannot miss the brace, at which no
bracket is open, though it may stop before it (`declarations_enclosed`).
-/

namespace CssText
namespace Parse

def isNeutral (kind : Kind) : Bool :=
  (Bracket.ofOpener? kind).isNone && kind ≠ .rightBrace && kind ≠ .rightParen &&
    kind ≠ .rightBracket

/-- Inside the open brackets the lexemes nest properly, up to a brace that closes the block. -/
inductive Nested : List Bracket → List Lexeme → Prop where
  | brace {l : Lexeme} (hl : l.kind = .rightBrace) (rest : List Lexeme) : Nested [] (l :: rest)
  | close {b : Bracket} {outer : List Bracket} {l : Lexeme} {rest : List Lexeme}
      (hl : l.kind = b.closer) (more : Nested outer rest) : Nested (b :: outer) (l :: rest)
  | opener {b : Bracket} {outer : List Bracket} {l : Lexeme} {rest : List Lexeme}
      (hl : Bracket.ofOpener? l.kind = some b) (more : Nested (b :: outer) rest) :
      Nested outer (l :: rest)
  | neutral {outer : List Bracket} {l : Lexeme} {rest : List Lexeme}
      (hl : isNeutral l.kind = true) (more : Nested outer rest) : Nested outer (l :: rest)

/-- Brackets that a reader takes to be open are among those that are. -/
def Enclosed (opened : List Bracket) (ts : List Lexeme) : Prop :=
  ∃ outer, opened.Sublist outer ∧ Nested outer ts

variable {opened opened' outer : List Bracket} {l : Lexeme} {ts rest : List Lexeme}

theorem Enclosed.ne_nil (h : Enclosed opened ts) : ts ≠ [] := by
  rcases h with ⟨outer, -, h⟩
  cases h <;> exact List.cons_ne_nil _ _

theorem Enclosed.forget (h : Enclosed opened ts) (hs : opened'.Sublist opened) :
    Enclosed opened' ts := by
  rcases h with ⟨outer, hsub, h⟩
  exact ⟨outer, hs.trans hsub, h⟩

/-!
## One lexeme

A closer takes the innermost bracket away, if it takes any. So after each lexeme the reader still
knows no bracket that is not open.
-/

theorem openedAfter_opener {b : Bracket} (hl : Bracket.ofOpener? l.kind = some b)
    (opened : List Bracket) : openedAfter l.kind opened = b :: opened := by
  cases hk : l.kind <;> rw [hk] at hl <;> cases hl <;> rfl

theorem openedAfter_neutral (hl : isNeutral l.kind = true) (opened : List Bracket) :
    openedAfter l.kind opened = opened := by
  cases hk : l.kind <;> rw [hk] at hl <;> first | rfl | cases hl

theorem openedAfter_closer (b : Bracket) (opened : List Bracket) :
    openedAfter b.closer opened = (closeInnermost? b.closer opened).getD opened := by
  cases b <;> rfl

theorem closeInnermost?_sublist (closer : Kind) (opened : List Bracket) :
    ((closeInnermost? closer opened).getD opened).Sublist opened := by
  induction opened with
  | nil => exact List.Sublist.refl []
  | cons b opened ih =>
      rw [closeInnermost?]
      split
      · exact List.sublist_cons_self b opened
      · cases hmore : closeInnermost? closer opened with
        | none => exact List.Sublist.refl _
        | some inner =>
            rw [hmore] at ih
            exact ih.cons b

theorem closeInnermost?_enclosed {b : Bracket} (h : opened.Sublist (b :: outer)) :
    ((closeInnermost? b.closer opened).getD opened).Sublist outer := by
  rcases List.sublist_cons_iff.mp h with houter | ⟨inner, rfl, hinner⟩
  · exact (closeInnermost?_sublist b.closer opened).trans houter
  · rw [closeInnermost?, if_pos rfl]
    exact hinner

theorem Enclosed.step (h : Enclosed opened (l :: rest))
    (hl : ¬ (l.kind = .rightBrace ∧ closeInnermost? .rightBrace opened = none)) :
    Enclosed (openedAfter l.kind opened) rest := by
  rcases h with ⟨outer, hsub, h⟩
  cases h with
  | brace hbrace rest =>
      obtain rfl := List.sublist_nil.mp hsub
      exact absurd ⟨hbrace, rfl⟩ hl
  | @close b outer _ _ hclose more =>
      rw [hclose, openedAfter_closer]
      exact ⟨outer, closeInnermost?_enclosed hsub, more⟩
  | @opener b _ _ _ hopen more =>
      rw [openedAfter_opener hopen]
      exact ⟨b :: outer, hsub.cons_cons b, more⟩
  | neutral hneutral more =>
      rw [openedAfter_neutral hneutral]
      exact ⟨outer, hsub, more⟩

theorem Enclosed.pass (h : Enclosed opened (l :: rest))
    (hclose : opened.head?.map Bracket.closer ≠ some l.kind) (hl : l.kind ≠ .rightBrace) :
    Enclosed opened rest := by
  rcases h with ⟨outer, hsub, h⟩
  cases h with
  | brace hbrace rest => exact absurd hbrace hl
  | @close b outer _ _ hkind more =>
      refine ⟨outer, ?_, more⟩
      rcases List.sublist_cons_iff.mp hsub with hsub | ⟨inner, rfl, -⟩
      · exact hsub
      · exact absurd (congrArg some hkind.symm) hclose
  | @opener b _ _ _ hopen more => exact ⟨b :: outer, hsub.cons b, more⟩
  | neutral hneutral more => exact ⟨outer, hsub, more⟩

theorem Enclosed.neutral (h : Enclosed opened (l :: rest)) (hl : isNeutral l.kind = true) :
    Enclosed opened rest := by
  have hbrace : l.kind ≠ .rightBrace := by
    intro hk
    rw [hk] at hl
    cases hl
  have hstep := h.step fun hend => hbrace hend.1
  rw [openedAfter_neutral hl] at hstep
  exact hstep

/-!
## Declarations
-/

theorem isNeutral_of_isBlank {kind : Kind} (h : kind.isBlank = true) : isNeutral kind = true := by
  rcases blank_cases h with rfl | rfl <;> rfl

theorem isNeutral_of_separates {kind : Kind} (h : separatesDeclarations kind = true) :
    isNeutral kind = true := by
  cases kind <;> first | rfl | cases h

theorem Enclosed.dropBlank (h : Enclosed opened ts) : Enclosed opened (dropBlank ts) := by
  induction ts with
  | nil => exact h
  | cons l rest ih =>
      rw [Parse.dropBlank, List.dropWhile_cons]
      split
      · rename_i hl
        exact ih (h.neutral (isNeutral_of_isBlank hl))
      · exact h

theorem Enclosed.skipDeclaration (h : Enclosed opened ts) :
    Enclosed [] (skipDeclaration opened ts) := by
  induction ts generalizing opened with
  | nil => exact absurd rfl h.ne_nil
  | cons l rest ih =>
      rw [skipDeclaration_cons]
      split
      · rename_i hend
        rw [hend.2] at h
        exact h.neutral (by rw [hend.1]; rfl)
      · split
        · exact h.forget (List.nil_sublist opened)
        · rename_i hbrace
          exact ih (h.step hbrace)

/-- Where reading a value stops, only its own brackets are taken to be open. -/
def StopsEnclosed (result : Except Fault (List Lexeme)) (rest : List Lexeme) : Prop :=
  match result with
  | .ok _ => Enclosed [] rest
  | .error fault => Enclosed fault.opened rest

theorem StopsEnclosed.map {result : Except Fault (List Lexeme)}
    (h : StopsEnclosed result rest) (f : List Lexeme → List Lexeme) :
    StopsEnclosed (result.map f) rest := by
  cases result with
  | ok run => exact h
  | error fault => exact h

theorem neutral_or_opener {bounds : Bounds} (h : objection? bounds opened l.kind = none) :
    openedAfter l.kind opened = openedBy l.kind opened ∧ l.kind ≠ .rightBrace := by
  cases hk : l.kind <;> rw [hk] at h <;> first | exact ⟨rfl, Kind.noConfusion⟩ | cases h

theorem Enclosed.balanced (bounds : Bounds) (h : Enclosed opened ts) :
    StopsEnclosed (balanced bounds opened ts).1 (balanced bounds opened ts).2 := by
  induction ts generalizing opened with
  | nil => exact absurd rfl h.ne_nil
  | cons l rest ih =>
      rw [Parse.balanced]
      split
      · exact h.forget (List.nil_sublist opened)
      · split
        · rename_i hclose
          cases opened with
          | nil => cases hclose
          | cons b inner =>
              have hkind : b.closer = l.kind := Option.some.inj hclose
              have hmatch : closeInnermost? b.closer (b :: inner) = some inner := by
                rw [closeInnermost?, if_pos rfl]
              have hstep := h.step (by
                rintro ⟨hbrace, hnone⟩
                rw [← hbrace, ← hkind, hmatch] at hnone
                cases hnone)
              rw [← hkind, openedAfter_closer, hmatch] at hstep
              exact (ih hstep).map _
        · rename_i hclose
          split
          · rename_i complaint hobjection
            show Enclosed opened (passUnlessBrace l rest)
            rw [passUnlessBrace]
            split
            · exact h
            · rename_i hbrace
              exact h.pass hclose hbrace
          · rename_i hobjection
            rcases neutral_or_opener hobjection with ⟨hopened, hbrace⟩
            have hstep := h.step fun hend => hbrace hend.1
            rw [hopened] at hstep
            exact (ih hstep).map _

/-- Where reading a declaration stops, only brackets of its value are taken to be open. -/
theorem Enclosed.declaration (bounds : Bounds) (property : Lexeme) (h : Enclosed [] ts) :
    match Parse.declaration bounds property ts with
    | (.ok _, after) => Enclosed [] after
    | (.error fault, after) => Enclosed fault.opened after := by
  have hfront := h.dropBlank
  unfold Parse.declaration
  cases hts : Parse.dropBlank ts with
  | nil => exact absurd hts hfront.ne_nil
  | cons l rest =>
      rw [hts] at hfront
      simp only
      by_cases hcolon : l.kind = .colon
      · have hvalue := (hfront.neutral (by rw [hcolon]; rfl)).balanced bounds
        simp only [hcolon, if_true]
        cases hv : (Parse.balanced bounds [] rest).1 with
        | ok run =>
            rw [hv] at hvalue
            exact hvalue
        | error fault =>
            rw [hv] at hvalue
            exact hvalue
      · simp only [hcolon, if_false]
        show Enclosed [] (if endsValue l.kind then l :: rest else rest)
        split
        · exact hfront
        · rename_i hend
          have hbrace : l.kind ≠ .rightBrace := by
            intro hk
            rw [hk] at hend
            exact hend rfl
          exact hfront.pass (by rintro ⟨⟩) hbrace

/-- The declarations of a block that is closed leave a right brace. -/
theorem declarations_enclosed (bounds : Bounds) (h : Enclosed [] ts) :
    ∃ l rest, (declarations bounds true ts).rest = l :: rest ∧ l.kind = .rightBrace := by
  suffices hne : (declarations bounds true ts).rest ≠ [] by
    exact (declarations_stop bounds ts).resolve_left hne
  induction hn : ts.length using Nat.strongRecOn generalizing ts with
  | ind n ih =>
      subst hn
      have hfront := h.dropBlank
      rw [declarations_eq]
      cases hts : dropBlank ts with
      | nil => exact absurd hts hfront.ne_nil
      | cons l rest =>
          have hlt : rest.length < ts.length := length_lt_of_dropBlank hts
          rw [hts] at hfront
          rw [declarationsAfter]
          split
          · exact List.cons_ne_nil l rest
          · rename_i hbrace
            split
            · rename_i hsep
              exact ih _ hlt (hfront.neutral (isNeutral_of_separates hsep)) rfl
            · split
              · rename_i hid
                have hrest := hfront.neutral (by rw [hid]; rfl)
                have hdeclaration := hrest.declaration bounds l
                split
                · rename_i d after hd
                  rw [hd] at hdeclaration
                  exact ih _ (length_declaration_lt hlt hd) hdeclaration rfl
                · rename_i fault after hd
                  rw [hd] at hdeclaration
                  have hskip := (skipDeclaration_suffix fault.opened after).length_le
                  exact ih _ (Nat.lt_of_le_of_lt hskip (length_declaration_lt hlt hd))
                    hdeclaration.skipDeclaration rfl
              · have hskip := (skipDeclaration_cons_suffix hbrace [] rest).length_le
                exact ih _ (Nat.lt_of_le_of_lt hskip hlt) hfront.skipDeclaration rfl

/-!
## Blocks that were read without an issue
-/

theorem Nested.of_dropBlank (h : Nested outer (dropBlank ts)) : Nested outer ts := by
  induction ts with
  | nil => exact h
  | cons l rest ih =>
      rw [dropBlank, List.dropWhile_cons] at h
      split at h
      · rename_i hl
        exact Nested.neutral (isNeutral_of_isBlank hl) (ih h)
      · exact h

theorem nested_of_objection {bounds : Bounds} (hl : objection? bounds opened l.kind = none)
    (h : Nested (openedBy l.kind opened) rest) : Nested opened (l :: rest) := by
  cases hopen : Bracket.ofOpener? l.kind with
  | some b =>
      rw [openedBy, hopen] at h
      exact Nested.opener hopen h
  | none =>
      have hneutral : isNeutral l.kind = true := by
        cases hk : l.kind <;> rw [hk] at hl hopen <;> first | rfl | cases hl | cases hopen
      rw [openedBy, hopen] at h
      exact Nested.neutral hneutral h

theorem nested_of_balances {limit : Nat} {run after : List Lexeme}
    (h : balances limit opened (Lexeme.kinds run) = true) (hafter : Nested [] after) :
    Nested opened (run ++ after) := by
  induction run generalizing opened with
  | nil =>
      obtain rfl := List.isEmpty_iff.mp h
      exact hafter
  | cons l run ih =>
      rw [Lexeme.kinds, List.map_cons, balances] at h
      rw [List.cons_append]
      split at h
      · cases h
      · split at h
        · rename_i hclose
          cases opened with
          | nil => cases hclose
          | cons b inner => exact Nested.close (Option.some.inj hclose).symm (ih h)
        · rw [Bool.and_eq_true, Option.isNone_iff_eq_none] at h
          exact nested_of_objection h.1 (ih h.2)

theorem nested_of_declaration {bounds : Bounds} {property : Lexeme} {after : List Lexeme}
    {d : Declaration} (hd : declaration bounds property ts = (.ok d, after))
    (hafter : Nested [] after) : Nested [] ts := by
  rcases declaration_iff.mp hd with ⟨colon, rest, run, hts, hcolon, hvalue, -⟩
  have hv : (balanced bounds [] rest).1 = .ok run := congrArg Prod.fst hvalue
  have happend := balanced_append hv
  rw [hvalue] at happend
  have hnested := nested_of_balances (balances_of_balanced hv) hafter
  rw [← happend] at hnested
  have hneutral : isNeutral colon.kind = true := by
    rw [hcolon]
    rfl
  exact Nested.of_dropBlank (hts ▸ Nested.neutral hneutral hnested)

/-- A block that was read without an issue nests properly. -/
theorem nested_of_declarations {bounds : Bounds}
    (hi : (declarations bounds true ts).issues = [])
    (hrest : (declarations bounds true ts).rest ≠ []) : Nested [] ts := by
  induction hn : ts.length using Nat.strongRecOn generalizing ts with
  | ind n ih =>
      subst hn
      rw [declarations_eq] at hi hrest
      apply Nested.of_dropBlank
      cases hts : dropBlank ts with
      | nil =>
          rw [hts] at hrest
          exact absurd rfl hrest
      | cons l rest =>
          have hlt : rest.length < ts.length := length_lt_of_dropBlank hts
          rw [hts] at hi hrest
          simp only [declarationsAfter] at hi hrest
          by_cases hbrace : l.kind = .rightBrace
          · exact Nested.brace hbrace rest
          · simp only [hbrace, if_false] at hi hrest
            by_cases hsep : separatesDeclarations l.kind = true
            · simp only [hsep, if_true] at hi hrest
              exact Nested.neutral (isNeutral_of_separates hsep) (ih _ hlt hi hrest rfl)
            · simp only [hsep, Bool.false_eq_true, if_false] at hi hrest
              by_cases hid : l.kind = .ident
              · simp only [hid, if_true] at hi hrest
                have hneutral : isNeutral l.kind = true := by
                  rw [hid]
                  rfl
                rcases hd : declaration bounds l rest with ⟨result, after⟩
                rw [hd] at hi hrest
                cases result with
                | error fault => cases hi
                | ok d =>
                    have hmore := ih _ (length_declaration_lt hlt hd) hi hrest rfl
                    exact Nested.neutral hneutral (nested_of_declaration hd hmore)
              · simp only [hid, if_false] at hi
                cases hi

end Parse
end CssText
