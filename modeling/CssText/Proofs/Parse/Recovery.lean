import CssText.Proofs.Parse.Bare
import CssText.Proofs.Parse.Enclosed
import CssText.Proofs.Parse.Accepted
import Mathlib.Data.List.TakeWhile

/-!
# Going on after a broken declaration

A declaration that fails is skipped to the semicolon behind it. The reader gets there if it
knows which brackets are open where it broke off. It does, with one exception: an opener that
is refused, because it is nested too deep or stands in the place of a colon, is passed over
without being counted (`Issue.losesOpener`). Up to this exception a run whose brackets close in
it is read as one declaration or as none, and what follows its semicolon is read as if nothing
had been before it (`declarations_append`).
-/

namespace CssText

/-- An opener that is passed over without being counted among the open brackets. -/
def Issue.losesOpener (i : Issue) : Bool :=
  (Bracket.ofOpener? i.place.kind).isSome &&
    i.complaint ≠ .expected .declarationList .declaration

namespace Parse

open Lexeme (kinds)

/--
Every bracket of the run is closed in it by its own closer and in the right order, so are the
brackets `opened` before it, and no semicolon stands outside of brackets.
-/
def isSealed : List Bracket → List Kind → Bool
  | opened, [] => opened.isEmpty
  | opened, kind :: rest =>
      match Bracket.ofOpener? kind with
      | some b => isSealed (b :: opened) rest
      | none =>
          if isNeutral kind then
            !(opened.isEmpty && kind = .semicolon) && isSealed opened rest
          else
            opened.head?.map Bracket.closer = some kind && isSealed opened.tail rest

variable {bounds : Bounds} {opened outer : List Bracket} {run rest after : List Lexeme}
  {l : Lexeme} {fault : Fault}

theorem closer_ne_opener {b : Bracket} (h : Bracket.ofOpener? l.kind = some b) (c : Bracket) :
    l.kind ≠ c.closer := by
  intro hk
  rw [hk] at h
  cases c <;> cases h

theorem semicolon_ne_opener {b : Bracket} (h : Bracket.ofOpener? l.kind = some b) :
    l.kind ≠ .semicolon := by
  intro hk
  rw [hk] at h
  cases h

theorem closer_ne_neutral (h : isNeutral l.kind = true) (c : Bracket) : l.kind ≠ c.closer := by
  intro hk
  rw [hk] at h
  cases c <;> cases h

theorem openedBy_neutral (h : isNeutral l.kind = true) (opened : List Bracket) :
    openedBy l.kind opened = opened := by
  cases hk : l.kind <;> rw [hk] at h <;> first | rfl | cases h

theorem endsValue_of_ne_rightBrace {kind : Kind} (h : kind ≠ .rightBrace) :
    endsValue kind = decide (kind = .semicolon) := by
  rw [endsValue, decide_eq_false h, Bool.or_false]

theorem isSealed_cons (h : isSealed opened (kinds (l :: rest)) = true) :
    (∃ b, Bracket.ofOpener? l.kind = some b ∧ isSealed (b :: opened) (kinds rest) = true) ∨
      (isNeutral l.kind = true ∧ ¬ (l.kind = .semicolon ∧ opened = []) ∧
        isSealed opened (kinds rest) = true) ∨
      ∃ b outer, opened = b :: outer ∧ l.kind = b.closer ∧
        isSealed outer (kinds rest) = true := by
  rw [kinds, List.map_cons, isSealed] at h
  split at h
  · rename_i b hopen
    exact Or.inl ⟨b, hopen, h⟩
  · split at h
    · rename_i hneutral
      rw [Bool.and_eq_true] at h
      refine Or.inr (Or.inl ⟨hneutral, ?_, h.2⟩)
      rintro ⟨hsemicolon, rfl⟩
      simp [hsemicolon] at h
    · rw [Bool.and_eq_true, decide_eq_true_eq] at h
      cases opened with
      | nil => cases h.1
      | cons b outer => exact Or.inr (Or.inr ⟨b, outer, rfl, (Option.some.inj h.1).symm, h.2⟩)

theorem isSealed_neutral (h : isSealed opened (kinds (l :: rest)) = true)
    (hl : isNeutral l.kind = true) : isSealed opened (kinds rest) = true := by
  rcases isSealed_cons h with ⟨b, hopen, -⟩ | ⟨-, -, hrest⟩ | ⟨b, outer, -, hclose, -⟩
  · rw [isNeutral, hopen] at hl
    cases hl
  · exact hrest
  · exact absurd hclose (closer_ne_neutral hl b)

theorem isSealed_front (h : isSealed [] (kinds (l :: rest)) = true) :
    l.kind ≠ .semicolon ∧ l.kind ≠ .rightBrace := by
  rcases isSealed_cons h with ⟨b, hopen, -⟩ | ⟨hneutral, hsemicolon, -⟩ | ⟨b, outer, hnil, -, -⟩
  · exact ⟨semicolon_ne_opener hopen, closer_ne_opener hopen .curly⟩
  · exact ⟨fun hk => hsemicolon ⟨hk, rfl⟩, closer_ne_neutral hneutral .curly⟩
  · cases hnil

theorem dropBlank_append_of_nil (h : dropBlank run = []) (after : List Lexeme) :
    dropBlank (run ++ after) = dropBlank after :=
  List.dropWhile_append_of_pos (List.dropWhile_eq_nil_iff.mp h)

theorem isSealed_dropBlank (h : isSealed [] (kinds run) = true)
    (hrun : dropBlank run = l :: rest) : isSealed [] (kinds (l :: rest)) = true := by
  induction run with
  | nil => cases hrun
  | cons m run ih =>
      rw [dropBlank, List.dropWhile_cons] at hrun
      split at hrun
      · rename_i hblank
        exact ih (isSealed_neutral h (isNeutral_of_isBlank hblank)) hrun
      · cases hrun
        exact h

/-!
## Skipping

The reader gets past a run if it knows the brackets that are open there. A run without semicolons
and right braces is passed over whatever brackets are missed.
-/

theorem skipDeclaration_sealed (h : isSealed opened (kinds run) = true) (after : List Lexeme) :
    skipDeclaration opened (run ++ after) = skipDeclaration [] after := by
  induction run generalizing opened with
  | nil =>
      obtain rfl := List.isEmpty_iff.mp h
      rfl
  | cons l run ih =>
      rw [List.cons_append, skipDeclaration_cons]
      rcases isSealed_cons h with
        ⟨b, hopen, hmore⟩ | ⟨hneutral, hsemicolon, hmore⟩ | ⟨b, outer, rfl, hclose, hmore⟩
      · rw [if_neg (fun hl => semicolon_ne_opener hopen hl.1),
          if_neg (fun hl => closer_ne_opener hopen .curly hl.1), openedAfter_opener hopen]
        exact ih hmore
      · rw [if_neg hsemicolon, if_neg (fun hl => closer_ne_neutral hneutral .curly hl.1),
          openedAfter_neutral hneutral]
        exact ih hmore
      · have hmatch : closeInnermost? b.closer (b :: outer) = some outer := by
          rw [closeInnermost?, if_pos rfl]
        have hbrace : ¬ (l.kind = .rightBrace ∧
            closeInnermost? .rightBrace (b :: outer) = none) := by
          rintro ⟨hk, hnone⟩
          rw [← hk, hclose, hmatch] at hnone
          cases hnone
        rw [if_neg (fun hl => List.cons_ne_nil _ _ hl.2), if_neg hbrace, hclose,
          openedAfter_closer, hmatch]
        exact ih hmore

theorem skipDeclaration_quiet (h : isSealed outer (kinds run) = true)
    (hopened : opened.Sublist outer)
    (hquiet : ∀ m ∈ run, m.kind ≠ .semicolon ∧ m.kind ≠ .rightBrace) (after : List Lexeme) :
    skipDeclaration opened (run ++ after) = skipDeclaration [] after := by
  induction run generalizing opened outer with
  | nil =>
      obtain rfl := List.isEmpty_iff.mp h
      rw [List.sublist_nil.mp hopened]
      rfl
  | cons l run ih =>
      have hl := hquiet l List.mem_cons_self
      have hmore {opened outer : List Bracket} (h : isSealed outer (kinds run) = true)
          (hopened : opened.Sublist outer) :=
        ih h hopened fun m hm => hquiet m (List.mem_cons_of_mem l hm)
      rw [List.cons_append, skipDeclaration_cons, if_neg (fun hk => hl.1 hk.1),
        if_neg (fun hk => hl.2 hk.1)]
      rcases isSealed_cons h with
        ⟨b, hopen, hrest⟩ | ⟨hneutral, -, hrest⟩ | ⟨b, inner, rfl, hclose, hrest⟩
      · rw [openedAfter_opener hopen]
        exact hmore hrest (hopened.cons_cons b)
      · rw [openedAfter_neutral hneutral]
        exact hmore hrest hopened
      · rw [hclose, openedAfter_closer]
        exact hmore hrest (closeInnermost?_enclosed hopened)

def EndsDeclaration (after : List Lexeme) : Prop :=
  ∀ m ∈ after.head?, m.kind = .semicolon

theorem EndsDeclaration.skip (h : EndsDeclaration after) :
    skipDeclaration [] after = after.tail := by
  cases after with
  | nil => rfl
  | cons l after =>
      have hl : l.kind = .semicolon := h l rfl
      rw [skipDeclaration_cons, if_pos ⟨hl, rfl⟩]
      rfl

theorem EndsDeclaration.declarations (h : EndsDeclaration after) (inBlock : Bool) :
    declarations bounds inBlock after = declarations bounds inBlock after.tail := by
  cases after with
  | nil => rfl
  | cons l after =>
      have hl : l.kind = .semicolon := h l rfl
      rw [declarations_eq, dropBlank_self (by rw [hl]; rfl), declarationsAfter, hl]
      rfl

/-!
## Breaking off

A lexeme inside of a value that closes nothing is taken unless there is an objection. So a value
is read up to the end of the run or breaks off in it, and the same holds of a declaration.
-/

/--
How a reader breaks off in a run that closes its brackets, and leaves `rest` of it: it knows the
brackets that are open there, or it has lost the opener that it complains about.
-/
structure BreaksOff (run : List Lexeme) (fault : Fault) (rest : List Lexeme) : Prop where
  place : fault.issue.place :: rest <:+ run
  opened : ∃ outer, isSealed outer (kinds rest) = true ∧
    (fault.opened = outer ∨ (fault.issue.losesOpener = true ∧ fault.opened.Sublist outer))

theorem BreaksOff.of_suffix {run' : List Lexeme} (h : BreaksOff run fault rest)
    (hs : run <:+ run') : BreaksOff run' fault rest :=
  ⟨h.place.trans hs, h.opened⟩

/-- If the opener of the issue is lost, then nothing that ends a declaration follows in the run. -/
def HarmlessIn (run : List Lexeme) (i : Issue) : Prop :=
  i.losesOpener = true → ∀ rest, i.place :: rest <:+ run →
    ∀ m ∈ rest, m.kind ≠ .semicolon ∧ m.kind ≠ .rightBrace

theorem BreaksOff.skip (h : BreaksOff run fault rest) (hharmless : HarmlessIn run fault.issue)
    (after : List Lexeme) :
    skipDeclaration fault.opened (rest ++ after) = skipDeclaration [] after := by
  rcases h.opened with ⟨outer, hsealed, rfl | ⟨hloses, hopened⟩⟩
  · exact skipDeclaration_sealed hsealed after
  · exact skipDeclaration_quiet hsealed hopened (hharmless hloses rest h.place) after

theorem breaksOff_neutral (h : isSealed opened (kinds rest) = true) (complaint : Complaint) :
    BreaksOff (l :: rest) ⟨⟨complaint, l⟩, opened⟩ rest :=
  ⟨List.suffix_refl _, opened, h, Or.inl rfl⟩

theorem breaksOff_opener {b : Bracket} (hopen : Bracket.ofOpener? l.kind = some b)
    (h : isSealed (b :: opened) (kinds rest) = true) {complaint : Complaint}
    (hcomplaint : complaint ≠ .expected .declarationList .declaration) :
    BreaksOff (l :: rest) ⟨⟨complaint, l⟩, opened⟩ rest := by
  refine ⟨List.suffix_refl _, b :: opened, h, Or.inr ⟨?_, List.sublist_cons_self b opened⟩⟩
  rw [Issue.losesOpener, hopen, decide_eq_true hcomplaint]
  rfl

theorem breaksOff_front (h : isSealed [] (kinds (l :: rest)) = true) {complaint : Complaint}
    (hcomplaint : complaint ≠ .expected .declarationList .declaration) :
    BreaksOff (l :: rest) ⟨⟨complaint, l⟩, []⟩ rest := by
  rcases isSealed_cons h with ⟨b, hopen, hrest⟩ | ⟨-, -, hrest⟩ | ⟨b, outer, hnil, -, -⟩
  · exact breaksOff_opener hopen hrest hcomplaint
  · exact breaksOff_neutral hrest complaint
  · cases hnil

theorem balanced_inside (hend : (opened.isEmpty && endsValue l.kind) = false)
    (hclose : ∀ b : Bracket, l.kind ≠ b.closer) (rest : List Lexeme) :
    balanced bounds opened (l :: rest) =
      match objection? bounds opened l.kind with
      | some complaint => (.error ⟨⟨complaint, l⟩, opened⟩, rest)
      | none =>
          ((balanced bounds (openedBy l.kind opened) rest).1.map (l :: ·),
            (balanced bounds (openedBy l.kind opened) rest).2) := by
  have hhead : opened.head?.map Bracket.closer ≠ some l.kind := by
    cases opened with
    | nil => rintro ⟨⟩
    | cons b opened => exact fun h => hclose b (Option.some.inj h).symm
  have hpass : passUnlessBrace l rest = rest := if_neg (hclose .curly)
  rw [balanced, if_neg (Bool.eq_false_iff.mp hend), if_neg hhead]
  cases objection? bounds opened l.kind with
  | none => rfl
  | some complaint => simp only [hpass]

/-- A value is read up to the end of the run, or reading it breaks off in the run. -/
theorem balanced_sealed (bounds : Bounds) (h : isSealed opened (kinds run) = true) :
    (∀ after, (∀ m ∈ after.head?, endsValue m.kind = true) →
        balanced bounds opened (run ++ after) = (.ok run, after)) ∨
      ∃ fault rest, BreaksOff run fault rest ∧
        ∀ after, balanced bounds opened (run ++ after) = (.error fault, rest ++ after) := by
  induction run generalizing opened with
  | nil =>
      obtain rfl := List.isEmpty_iff.mp h
      left
      intro after hafter
      cases after with
      | nil => rfl
      | cons m after =>
          rw [List.nil_append, balanced, hafter m rfl]
          rfl
  | cons l run ih =>
      -- the brackets that are open behind the lexeme decide how reading goes on
      have hmore {opened' : List Bracket} (hrun : isSealed opened' (kinds run) = true)
          (htake : ∀ after, balanced bounds opened (l :: (run ++ after)) =
            ((balanced bounds opened' (run ++ after)).1.map (l :: ·),
              (balanced bounds opened' (run ++ after)).2)) :
          (∀ after, (∀ m ∈ after.head?, endsValue m.kind = true) →
              balanced bounds opened (l :: run ++ after) = (.ok (l :: run), after)) ∨
            ∃ fault rest, BreaksOff (l :: run) fault rest ∧
              ∀ after, balanced bounds opened (l :: run ++ after) =
                (.error fault, rest ++ after) := by
        rcases ih hrun with hread | ⟨fault, rest, hbreak, hread⟩
        · left
          intro after hafter
          rw [List.cons_append, htake, hread after hafter]
          rfl
        · refine Or.inr ⟨fault, rest, hbreak.of_suffix (List.suffix_cons l run), ?_⟩
          intro after
          rw [List.cons_append, htake, hread after]
          rfl
      rcases isSealed_cons h with
        ⟨b, hopen, hrun⟩ | ⟨hneutral, hsemicolon, hrun⟩ | ⟨b, outer, rfl, hclose, hrun⟩
      · have hend : (opened.isEmpty && endsValue l.kind) = false := by
          rw [endsValue_of_ne_rightBrace (closer_ne_opener hopen .curly),
            decide_eq_false (semicolon_ne_opener hopen), Bool.and_false]
        have hinside := @balanced_inside bounds opened l hend (closer_ne_opener hopen)
        rw [objection?_opener (by rw [hopen]; rfl), openedBy, hopen] at hinside
        by_cases hlimit : bounds.limit ≤ opened.length
        · rw [if_pos hlimit] at hinside
          exact Or.inr ⟨_, run, breaksOff_opener hopen hrun Complaint.noConfusion,
            fun after => hinside (run ++ after)⟩
        · rw [if_neg hlimit] at hinside
          exact hmore hrun fun after => hinside (run ++ after)
      · have hend : (opened.isEmpty && endsValue l.kind) = false := by
          rw [endsValue_of_ne_rightBrace (closer_ne_neutral hneutral .curly)]
          cases opened with
          | nil => exact decide_eq_false fun hk => hsemicolon ⟨hk, rfl⟩
          | cons b opened => rfl
        have hinside := @balanced_inside bounds opened l hend (closer_ne_neutral hneutral)
        rw [openedBy_neutral hneutral] at hinside
        cases hobject : objection? bounds opened l.kind with
        | some complaint =>
            rw [hobject] at hinside
            exact Or.inr ⟨_, run, breaksOff_neutral hrun complaint,
              fun after => hinside (run ++ after)⟩
        | none =>
            rw [hobject] at hinside
            exact hmore hrun fun after => hinside (run ++ after)
      · refine hmore hrun fun after => ?_
        rw [balanced, hclose]
        exact if_pos rfl

theorem declaration_sealed (bounds : Bounds) (property : Lexeme)
    (h : isSealed [] (kinds run) = true) :
    (∃ value, ∀ after, EndsDeclaration after →
        ∃ d, declaration bounds property (run ++ after) = (.ok d, after) ∧
          d.property = property.value ∧ d.terms = value) ∨
      (∀ after, EndsDeclaration after →
        ∃ i, declaration bounds property (run ++ after) = (.error ⟨i, []⟩, after)) ∨
      ∃ fault rest, BreaksOff run fault rest ∧
        ∀ after, declaration bounds property (run ++ after) = (.error fault, rest ++ after) := by
  cases hrun : dropBlank run with
  | nil =>
      refine Or.inr (Or.inl fun after hafter => ?_)
      rw [declaration, dropBlank_append_of_nil hrun]
      cases after with
      | nil => exact ⟨_, rfl⟩
      | cons l after =>
          have hl : l.kind = .semicolon := hafter l rfl
          rw [dropBlank_self (by rw [hl]; rfl)]
          simp only [hl]
          exact ⟨_, rfl⟩
  | cons l rest =>
      have hl := isSealed_dropBlank h hrun
      have hs : l :: rest <:+ run := hrun ▸ dropBlank_suffix run
      have hread (after : List Lexeme) : dropBlank (run ++ after) = l :: (rest ++ after) :=
        dropBlank_before hrun after
      by_cases hcolon : l.kind = .colon
      · have hrest := isSealed_neutral hl (by rw [hcolon]; rfl)
        rcases balanced_sealed bounds hrest with hvalue | ⟨fault, left, hbreak, hvalue⟩
        · refine Or.inl ⟨terms rest, fun after hafter => ?_⟩
          have hends : ∀ m ∈ after.head?, endsValue m.kind = true := by
            intro m hm
            rw [hafter m hm]
            rfl
          rw [declaration, hread]
          simp only [hcolon, if_true, hvalue after hends]
          exact ⟨_, rfl, rfl, rfl⟩
        · have hbreak := hbreak.of_suffix ((List.suffix_cons l rest).trans hs)
          refine Or.inr (Or.inr ⟨fault, left, hbreak, fun after => ?_⟩)
          rw [declaration, hread]
          simp only [hcolon, if_true, hvalue after]
          rfl
      · have hfront := isSealed_front hl
        have hcomplaint : Complaint.expected .declaration .colon ≠
            .expected .declarationList .declaration := by
          decide
        have hbreak := (breaksOff_front hl hcomplaint).of_suffix hs
        refine Or.inr (Or.inr ⟨_, rest, hbreak, fun after => ?_⟩)
        rw [declaration, hread]
        simp only [hcolon, if_false, endsValue_of_ne_rightBrace hfront.2, hfront.1,
          decide_false, Bool.false_eq_true]

/--
The run is read as the declarations `found`, and after the semicolon behind it reading goes on
as if it had begun there.
-/
def Holds (bounds : Bounds) (run : List Lexeme) (found : List Declaration) : Prop :=
  ∀ inBlock after, EndsDeclaration after →
    (declarations bounds inBlock (run ++ after)).value.map Declaration.bare =
        found.map Declaration.bare ++
          (declarations bounds inBlock after.tail).value.map Declaration.bare ∧
      (declarations bounds inBlock (run ++ after)).rest =
        (declarations bounds inBlock after.tail).rest

theorem exists_holds_of_ident (hrun : dropBlank run = l :: rest) (hid : l.kind = .ident)
    (hrest : isSealed [] (kinds rest) = true)
    (hharmless : ∀ i ∈ (declarations bounds false run).issues, HarmlessIn run i) :
    ∃ found, found.length ≤ 1 ∧ Holds bounds run found := by
  have hbrace : l.kind ≠ .rightBrace := by
    rw [hid]
    exact Kind.noConfusion
  have hsep : ¬ separatesDeclarations l.kind = true := by
    rw [hid]
    exact Bool.false_ne_true
  have hread (inBlock : Bool) (after : List Lexeme) :
      declarations bounds inBlock (run ++ after) =
        declarationsAfter bounds inBlock (l :: (rest ++ after)) := by
    rw [declarations_eq, dropBlank_before hrun]
  simp only [Holds, hread, declarationsAfter, if_neg hbrace, if_neg hsep, if_pos hid]
  rcases declaration_sealed bounds l hrest with
    ⟨value, hvalue⟩ | hend | ⟨fault, left, hbreak, hfault⟩
  · rcases hvalue [] (by rintro m ⟨⟩) with ⟨d, -, hproperty, hterms⟩
    refine ⟨[d], Nat.le_refl 1, fun inBlock after hafter => ?_⟩
    rcases hvalue after hafter with ⟨d', hd', hproperty', hterms'⟩
    have hsame : d'.bare = d.bare := by
      rw [Declaration.bare, Declaration.bare, hproperty, hproperty', hterms, hterms']
    simp only [hd', consDeclaration, List.map_cons, hsame, hafter.declarations]
    exact ⟨rfl, trivial⟩
  · refine ⟨[], Nat.zero_le 1, fun inBlock after hafter => ?_⟩
    rcases hend after hafter with ⟨i, hi⟩
    simp only [hi, hafter.skip]
    exact ⟨rfl, rfl⟩
  · have hissue : HarmlessIn run fault.issue := by
      have halone := hread false []
      rw [List.append_nil] at halone
      rw [halone, declarationsAfter, if_neg hbrace, if_neg hsep, if_pos hid, hfault []] at hharmless
      exact hharmless fault.issue List.mem_cons_self
    have hs : l :: rest <:+ run := hrun ▸ dropBlank_suffix run
    have hbreak := hbreak.of_suffix ((List.suffix_cons l rest).trans hs)
    refine ⟨[], Nat.zero_le 1, fun inBlock after hafter => ?_⟩
    simp only [hfault after, hbreak.skip hissue, hafter.skip]
    exact ⟨rfl, rfl⟩

/--
A run that closes its brackets holds one declaration at most. The only lexemes of the run that
are passed before the declaration are markup brackets, so the induction is on its length.
-/
theorem declarations_sealed (bounds : Bounds) (h : isSealed [] (kinds run) = true)
    (hharmless : ∀ i ∈ (declarations bounds false run).issues, HarmlessIn run i) :
    ∃ found, found.length ≤ 1 ∧ Holds bounds run found := by
  induction hn : run.length using Nat.strongRecOn generalizing run with
  | ind n ih =>
      subst hn
      cases hrun : dropBlank run with
      | nil =>
          refine ⟨[], Nat.zero_le 1, fun inBlock after hafter => ?_⟩
          rw [declarations_eq, dropBlank_append_of_nil hrun, ← declarations_eq,
            hafter.declarations]
          exact ⟨rfl, rfl⟩
      | cons l rest =>
          have hl := isSealed_dropBlank h hrun
          have hbrace : l.kind ≠ .rightBrace := (isSealed_front hl).2
          have hread (inBlock : Bool) (after : List Lexeme) :
              declarations bounds inBlock (run ++ after) =
                declarationsAfter bounds inBlock (l :: (rest ++ after)) := by
            rw [declarations_eq, dropBlank_before hrun]
          by_cases hsep : separatesDeclarations l.kind = true
          · have hskip (inBlock : Bool) (after : List Lexeme) :
                declarations bounds inBlock (run ++ after) =
                  declarations bounds inBlock (rest ++ after) := by
              rw [hread, declarationsAfter, if_neg hbrace, if_pos hsep]
            have halone := hskip false []
            rw [List.append_nil, List.append_nil] at halone
            have hs : rest <:+ run := suffix_of_dropBlank hrun
            rcases ih _ (length_lt_of_dropBlank hrun)
              (isSealed_neutral hl (isNeutral_of_separates hsep))
              (fun i hi hloses left hleft =>
                hharmless i (halone ▸ hi) hloses left (hleft.trans hs)) rfl
              with ⟨found, hfound, hholds⟩
            refine ⟨found, hfound, fun inBlock after hafter => ?_⟩
            rw [hskip]
            exact hholds inBlock after hafter
          · by_cases hid : l.kind = .ident
            · exact exists_holds_of_ident hrun hid (isSealed_neutral hl (by rw [hid]; rfl))
                hharmless
            · refine ⟨[], Nat.zero_le 1, fun inBlock after hafter => ?_⟩
              rw [hread, declarationsAfter, if_neg hbrace, if_neg hsep, if_neg hid,
                ← List.cons_append, skipDeclaration_sealed hl, hafter.skip]
              exact ⟨rfl, rfl⟩

/-- What such a run holds is what is read of it alone. -/
theorem declarations_append (bounds : Bounds) (h : isSealed [] (kinds run) = true)
    (hharmless : ∀ i ∈ (declarations bounds false run).issues, HarmlessIn run i) :
    (declarations bounds false run).value.length ≤ 1 ∧
      Holds bounds run (declarations bounds false run).value := by
  rcases declarations_sealed bounds h hharmless with ⟨found, hfound, hholds⟩
  have halone : (declarations bounds false run).value.map Declaration.bare =
      found.map Declaration.bare := by
    have hnil := (hholds false [] (by rintro m ⟨⟩)).1
    rw [List.append_nil] at hnil
    refine hnil.trans ?_
    rw [List.tail_nil, declarations_eq]
    exact List.append_nil _
  constructor
  · have hlength := congrArg List.length halone
    rw [List.length_map, List.length_map] at hlength
    exact hlength ▸ hfound
  · intro inBlock after hafter
    rw [halone]
    exact hholds inBlock after hafter

end Parse
end CssText
