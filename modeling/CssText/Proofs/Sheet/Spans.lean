import CssText.Proofs.Parse.Isolation
import CssText.Proofs.Parse.NormalForm
import CssText.Proofs.Sheet.Source
import CssText.Proofs.Token.Cut

/-!
# Where declarations stand

A declaration stands in its text from its property to its last term. The lexemes in between
are all that it was read from (`Declares`), and they can be cut out: a value closes what it
opens, so no function in it looks at what follows the cut. So a declaration is read from its
own part of the text, and those of one list stand one after the other (`parse_spans`).
-/

namespace CssText

open Lexeme (kinds Followed)

theorem Shift.lexeme_injective (p : Shift) : Function.Injective p.lexeme := by
  intro l m h
  cases l
  cases m
  simpa only [lexeme, Lexeme.mk.injEq, Nat.add_right_cancel_iff] using h

namespace Parse

/-!
## Lexemes of a declaration

In a value something stands behind each function, the parenthesis that closes it at the least.
So a declaration is read from its own lexemes, wherever they stand.
-/

/-- The run is a declaration, from the property to the last term of the value. -/
inductive Declares (limit : Nat) (property : Lexeme) (value : List Lexeme) :
    List Lexeme → Prop where
  | intro {gap : List Lexeme} {colon : Lexeme} (hproperty : property.kind = .ident)
      (hgap : ∀ l ∈ gap, l.kind.isBlank = true) (hcolon : colon.kind = .colon)
      (hvalue : balances limit [] (kinds value) = true)
      (hlast : ∀ l ∈ (terms value).getLast?, value.getLast? = some l) :
      Declares limit property value (property :: (gap ++ colon :: value))

section

variable {limit : Nat} {property : Lexeme} {value run : List Lexeme}

theorem followed_of_balances (h : balances limit [] (kinds run) = true) : Followed run := by
  rintro f more ⟨init, rfl⟩ hk
  by_contra hnone
  have hmore : significant (kinds more) = [] := by
    apply List.filter_eq_nil_iff.mpr
    intro kind hkind
    rcases List.mem_map.mp hkind with ⟨m, hm, rfl⟩
    have hspace : m.kind = .whitespace := by
      by_contra hm'
      exact hnone ⟨m, hm, hm'⟩
    rw [hspace]
    exact Bool.false_ne_true
  have hlast : significant (kinds (init ++ f :: more)) =
      significant (kinds init) ++ [Kind.function] := by
    rw [kinds, List.map_append, List.map_cons, hk, significant, List.filter_append,
      List.filter_cons_of_pos rfl]
    exact congrArg (fun ks => _ ++ Kind.function :: ks) hmore
  rw [← balances_significant, hlast] at h
  exact (balances_last h .function List.getLast?_concat).1 rfl

namespace Declares

theorem followed (h : Declares limit property value run) : Followed run := by
  cases h with
  | @intro gap colon hproperty hgap hcolon hvalue hlast =>
      have hblank : ∀ l ∈ gap, l.kind.isInsignificant = true :=
        fun l hl => insignificant_of_blank (hgap l hl)
      have hafter : balances limit [] (kinds (gap ++ colon :: value)) = true := by
        rw [balances_stretch hblank, kinds_cons, hcolon]
        exact hvalue
      have hrun : balances limit [] (kinds (property :: (gap ++ colon :: value))) = true := by
        rw [kinds_cons, hproperty]
        exact hafter
      exact followed_of_balances hrun

theorem head? (h : Declares limit property value run) : run.head? = some property := by
  cases h with
  | intro => rfl

theorem getLast? (h : Declares limit property value run) :
    ∀ l ∈ (terms value).getLast?, run.getLast? = some l := by
  intro l hl
  cases h with
  | intro hproperty hgap hcolon hvalue hlast =>
      rw [List.getLast?_cons, List.getLast?_append, List.getLast?_cons, hlast l hl]
      rfl

theorem read {bounds : Bounds} (h : Declares bounds.limit property value run) :
    declarations bounds false run =
      { value := [valued property value bounds.final], issues := [], rest := [] } := by
  cases h with
  | @intro gap colon hproperty hgap hcolon hvalue hlast =>
      have hbalanced : balanced bounds [] (value ++ []) = (.ok value, []) :=
        balanced_of_balances hvalue fun l hl => by cases hl
      rw [List.append_nil] at hbalanced
      have hread : declaration bounds property (gap ++ colon :: value) =
          (.ok (valued property value bounds.final), []) := by
        apply declaration_iff.mpr
        refine ⟨colon, value, value, ?_, hcolon, hbalanced, rfl⟩
        rw [dropBlank, List.dropWhile_append_of_pos hgap]
        exact dropBlank_self (by rw [hcolon]; rfl) value
      rw [declarations_eq, dropBlank_self (by rw [hproperty]; rfl), declarationsAfter, hproperty]
      simp only [hread, declarations_eq bounds false []]
      rfl

theorem of_map {p : Shift} (h : Declares limit property value (run.map p.lexeme)) :
    ∃ property' value', property = p.lexeme property' ∧ value = value'.map p.lexeme ∧
      Declares limit property' value' run := by
  generalize hmoved : run.map p.lexeme = moved at h
  cases h with
  | @intro gap colon hproperty hgap hcolon hvalue hlast =>
      rcases List.map_eq_cons_iff.mp hmoved with ⟨property', rest, rfl, rfl, hrest⟩
      rcases List.map_eq_append_iff.mp hrest with ⟨gap', rest', rfl, rfl, hrest'⟩
      rcases List.map_eq_cons_iff.mp hrest' with ⟨colon', value', rfl, rfl, rfl⟩
      refine ⟨property', value', rfl, rfl, Declares.intro hproperty ?_ hcolon ?_ ?_⟩
      · intro l hl
        exact hgap (p.lexeme l) (List.mem_map_of_mem hl)
      · rw [kinds, List.map_map] at hvalue
        exact hvalue
      · intro l hl
        have hmoved := hlast (p.lexeme l)
        rw [terms_relocated p.relocates, List.getLast?_map, List.getLast?_map,
          Option.mem_def.mp hl] at hmoved
        exact Option.map_injective p.lexeme_injective (hmoved rfl)

end Declares

end

/-- A declaration was read from its own lexemes. -/
theorem declares_of_declaration {bounds : Bounds} {property : Lexeme} {rest after : List Lexeme}
    {d : Declaration} (hk : property.kind = .ident)
    (h : declaration bounds property rest = (.ok d, after)) :
    ∃ value run post, property :: rest = run ++ post ∧ after <:+ post ∧
      Declares bounds.limit property value run ∧
      d = valued property value (bounds.front post) := by
  rcases declaration_iff.mp h with ⟨colon, ls, whole, hrest, hcolon, hvalue, rfl⟩
  rcases balanced_iff.mp hvalue with ⟨rfl, hbalances, -⟩
  rcases exists_last_term whole with ⟨value, post, rfl, hpost, hlast, hnone⟩
  have hsplit : rest = rest.takeWhile (fun l => l.kind.isBlank) ++
      colon :: (value ++ post ++ after) := by
    rw [← hrest]
    exact List.takeWhile_append_dropWhile.symm
  have hgap : ∀ l ∈ rest.takeWhile (fun l => l.kind.isBlank), l.kind.isBlank = true :=
    fun l hl => List.mem_takeWhile_imp (p := fun l : Lexeme => l.kind.isBlank) hl
  rw [← balances_terms, terms_append hpost, balances_terms] at hbalances
  refine ⟨value, _, post ++ after, ?_, List.suffix_append post after,
    Declares.intro hk hgap hcolon hbalances hlast, ?_⟩
  · rw [List.cons_append, List.append_assoc, List.cons_append, ← List.append_assoc value,
      ← hsplit]
  -- Where the value has no terms, the place where it stops is that of the lexeme behind it.
  · rw [valued, valued, terms_append hpost]
    cases hterms : terms value with
    | nil =>
        rw [hnone hterms]
        rfl
    | cons l ls => rw [List.getLast?_cons, Option.map_some, Option.getD_some, Option.getD_some]

end Parse

namespace Declaration

/-!
## Texts of declarations

A declaration is the whole of a part of its text, and the lexemes that it leaves begin behind
that part.
-/

def source (d : Declaration) (css : Bytes) : Bytes :=
  (css.drop d.start).take (d.stop - d.start)

/-- The declaration stands in the text, and it is the one that is read from its part of it. -/
structure Stands (limit : Nat) (css : Bytes) (d : Declaration) : Prop where
  start_lt_stop : d.start < d.stop
  stop_le : d.stop ≤ css.length
  errors : (parseList limit (d.source css)).errors = []
  value : ∃ d', (parseList limit (d.source css)).value = [d'] ∧ (d' == d) = true ∧
    d'.start = 0 ∧ d'.stop = d.stop - d.start

/-- The declaration is all that is read from the text, from its first byte to its last. -/
structure Whole (limit : Nat) (text : Bytes) (d : Declaration) : Prop where
  parse : parseList limit text = { value := [d], issues := [] }
  start_eq : d.start = 0
  stop_eq : d.stop = text.length

section

variable {limit : Nat} {css text : Bytes} {property : Lexeme} {value rest after : List Lexeme}
  {d : Declaration}

theorem whole_of_declares (h : Parse.Declares limit property value (Lexeme.ofText text)) :
    (Parse.valued property value (Lexeme.endOf text)).Whole limit text := by
  rcases Lexeme.ends_ofText text with ⟨hfirst, hend⟩
  constructor
  · have hread : Parse.Declares (Bounds.ofText limit text).limit property value
        (Lexeme.ofText text) := h
    rw [parseList, hread.read]
    rfl
  · exact hfirst property h.head?
  · rw [Parse.valued]
    cases hterms : (Parse.terms value).getLast? with
    | none => rfl
    | some l => exact hend l (h.getLast? l hterms)

theorem Whole.ne_nil (h : d.Whole limit text) : text ≠ [] := by
  rintro rfl
  have hparse := congrArg Parsed.value h.parse
  rw [parseList, show Lexeme.ofText [] = [] from Cursor.lexemes_nil 1 0,
    Parse.declarations_eq] at hparse
  cases hparse

theorem Whole.regular (h : d.Whole limit text) : d.Runs Lexeme.Regular := by
  have hmem : d ∈ (parseList limit text).value := by
    rw [h.parse]
    exact List.mem_singleton_self d
  have hruns := Parse.declarations_runs (Bounds.ofText limit text) false _ d hmem
  exact hruns.mono fun run hrun => (Lexeme.regular_ofText text).mono hrun.subset

theorem exists_whole (hs : property :: rest <:+ Lexeme.ofText css) (hk : property.kind = .ident)
    (h : Parse.declaration (Bounds.ofText limit css) property rest = (.ok d, after)) :
    ∃ a s b d', css = a ++ (s ++ b) ∧ d = (Shift.past a).declaration d' ∧ d'.Whole limit s ∧
      ∀ m ∈ after, (a ++ s).length ≤ m.start := by
  rcases Parse.declares_of_declaration hk h with
    ⟨value, run, post, hsplit, hafter, hdeclares, hd⟩
  rcases hs with ⟨pre, hpre⟩
  rw [hsplit] at hpre
  rcases Lexeme.exists_slice hpre.symm hdeclares.followed with ⟨a, s, b, rfl, rfl, hpost⟩
  rcases hdeclares.of_map with ⟨property', value', rfl, rfl, hinside⟩
  have hstop : (Bounds.front (Bounds.ofText limit (a ++ (s ++ b))) post).start =
      (Lexeme.endOf s).start + (Shift.past a).bytes := by
    rcases Cursor.isChain_between (a ++ s) b with ⟨hfirst, -⟩
    rw [hpost, List.append_assoc] at hfirst
    show _ = s.length + a.length
    rw [Nat.add_comm, ← List.length_append]
    apply hfirst
    cases post with
    | nil => rfl
    | cons l post => rfl
  have hmoved := hd.trans (Frame.valued_map (Shift.past a) property' value' hstop)
  refine ⟨a, s, b, _, rfl, hmoved, whole_of_declares hinside, ?_⟩
  intro m hm
  rw [← hpost] at hafter
  exact Cursor.le_start b _ _ m (hafter.subset hm)

theorem stands_of_whole {a s b : Bytes} (h : d.Whole limit s) :
    ((Shift.past a).declaration d).Stands limit (a ++ (s ++ b)) := by
  have hstart : ((Shift.past a).declaration d).start = a.length := by
    show d.start + a.length = a.length
    rw [h.start_eq, Nat.zero_add]
  have hstop : ((Shift.past a).declaration d).stop = a.length + s.length := by
    show d.stop + a.length = a.length + s.length
    rw [h.stop_eq, Nat.add_comm]
  have hsource : ((Shift.past a).declaration d).source (a ++ (s ++ b)) = s := by
    rw [source, hstart, hstop, Nat.add_sub_cancel_left, List.drop_left, List.take_left]
  constructor
  · rw [hstart, hstop]
    exact Nat.lt_add_of_pos_right (List.length_pos_iff.mpr h.ne_nil)
  · rw [hstop, ← List.append_assoc, ← List.length_append]
    exact (List.prefix_append (a ++ s) b).length_le
  · rw [hsource, h.parse]
    rfl
  · rw [hsource, h.parse, hstart, hstop, Nat.add_sub_cancel_left]
    exact ⟨d, rfl, (Shift.past a).beq_declaration h.regular, h.start_eq, h.stop_eq⟩

theorem stop_le_start (hs : property :: rest <:+ Lexeme.ofText css) (hk : property.kind = .ident)
    (h : Parse.declaration (Bounds.ofText limit css) property rest = (.ok d, after)) :
    ∀ m ∈ after, d.stop ≤ m.start := by
  rcases exists_whole hs hk h with ⟨a, s, b, d', -, rfl, hwhole, hafter⟩
  intro m hm
  show d'.stop + a.length ≤ m.start
  rw [hwhole.stop_eq, Nat.add_comm, ← List.length_append]
  exact hafter m hm

end

/--
The declarations of a list, or of a style rule of a sheet, stand in the text one after the
other, and each of them is read from its part of the text alone, at its beginning.
-/
theorem parse_spans {limit : Nat} {css : Bytes} {ds : List Declaration}
    (hds : ds = (parseList limit css).value ∨
      ∃ rule, Rule.style rule ∈ (Sheet.parse limit css).value ∧ ds = rule.declarations) :
    (∀ d ∈ ds, d.Stands limit css) ∧ ds.Pairwise fun d e => d.stop ≤ e.start := by
  rcases list_of_parse hds with ⟨inBlock, ts, hts, rfl⟩
  constructor
  · intro d hd
    rcases Parse.declarations_origin hd with ⟨property, rest, hs, hk, hvalue⟩
    rcases exists_whole (hs.trans hts) hk (Prod.ext hvalue rfl) with
      ⟨a, s, b, d', rfl, rfl, hwhole, -⟩
    exact stands_of_whole hwhole
  · apply Parse.declarations_pairwise
    intro property rest after d hs hk hvalue e he
    rcases Parse.declarations_origin he with ⟨next, more, hnext, -, hmore⟩
    rcases Parse.declaration_ok hmore with ⟨-, -, -, -, -, -, rfl⟩
    exact stop_le_start (hs.trans hts) hk hvalue next (hnext.subset List.mem_cons_self)

def spaced : Bytes :=
  ascii "b/**/: c /**/ ;x: ;?{;};y:f( 'q')/**/"

theorem parse_spans_spaced :
    ((parseList 1 spaced).value.map fun d => d.source spaced) =
        [ascii "b/**/: c", ascii "x: ", ascii "y:f( 'q')"] ∧
      (∀ d ∈ (parseList 1 spaced).value, d.Stands 1 spaced) ∧
      (parseList 1 spaced).value.Pairwise fun d e => d.stop ≤ e.start := by
  constructor
  · decide +kernel
  · exact parse_spans (Or.inl rfl)

end Declaration
end CssText
