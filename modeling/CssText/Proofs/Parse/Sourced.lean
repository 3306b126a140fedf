import CssText.Proofs.Parse.Kinds
import CssText.Proofs.Token.Portable
import Mathlib.Data.List.TakeWhile

/-!
# Lexemes of a text

The lexemes of a text have well-formed tokens, and a run that was cut out of them can be
printed in another place if its tokens allow for it. That holds of the contents of brackets,
from which the white space at the ends is trimmed (`steady_trim`), and of values, in which
every stretch of white space, comments and markup brackets becomes one lexeme (`steady_terms`).
-/

namespace CssText

open Token

namespace Token

theorem Formed.name_of_isNamed {t : Token} (h : Formed t) (ht : isNamed t.kind = true) :
    t.value ≠ [] ∧ 0 ∉ t.value := by
  have halone (kind : Kind) (hkind : standsAlone kind = true) : isNamed kind = false := by
    cases kind <;> first | rfl | cases hkind
  cases h with
  | name hk hne h0 => exact ⟨hne, h0⟩
  | @punctuation b kind hp =>
      rw [plain, halone kind (standsAlone_of_punctuation b kind hp)] at ht
      cases ht
  | @operator b kind ho =>
      rw [plain, halone kind (standsAlone_of_operator b kind ho)] at ht
      cases ht
  | _ => cases ht

theorem Formed.eq_plain {t : Token} (h : Formed t) (ht : t.kind.isInsignificant = true) :
    t = plain t.kind t.value ∧ (t.kind = .whitespace → ∀ b ∈ t.value, isBlank b = true) := by
  cases h with
  | whitespace hne hall => exact ⟨rfl, fun _ => hall⟩
  | @name kind _ hk =>
      refine ⟨rfl, ?_⟩
      rintro rfl
      cases hk
  | @punctuation b kind hp =>
      refine ⟨rfl, ?_⟩
      rintro rfl
      cases standsAlone_of_punctuation b _ hp
  | @operator b kind ho =>
      refine ⟨rfl, ?_⟩
      rintro rfl
      cases standsAlone_of_operator b _ ho
  | number | percentage | dimension => cases ht
  | _ =>
      refine ⟨rfl, ?_⟩
      rintro ⟨⟩

end Token

namespace Lexeme

/-!
## Sources
-/

def Sourced (ls : List Lexeme) : Prop :=
  ∃ text, Covers ls text

variable {l : Lexeme} {ls run post after : List Lexeme}

theorem sourced_ofText (text : Bytes) : Sourced (ofText text) :=
  ⟨text, covers_ofText text⟩

theorem Sourced.suffix (h : Sourced ls) (hs : after <:+ ls) : Sourced after := by
  rcases h with ⟨text, hcovers⟩
  rcases hs with ⟨pre, rfl⟩
  rw [Covers, tokens, List.map_append] at hcovers
  rcases exists_suffix_of_ofText hcovers.symm with ⟨rest, -, hrest⟩
  exact ⟨rest, hrest.symm⟩

theorem Sourced.tail (h : Sourced (l :: ls)) : Sourced ls :=
  h.suffix (List.suffix_cons l ls)

theorem Sourced.dropBlank (h : Sourced ls) (hl : Parse.dropBlank ls = l :: after) :
    Sourced (l :: after) :=
  h.suffix (hl ▸ Parse.dropBlank_suffix ls)

theorem Sourced.dropInsignificant (h : Sourced ls)
    (hl : Parse.dropInsignificant ls = l :: after) : Sourced (l :: after) :=
  h.suffix (hl ▸ Parse.dropInsignificant_suffix ls)

theorem Sourced.exists_reads (h : Sourced (l :: ls)) :
    ∃ text rest, Reads text l.toToken rest ∧ Covers ls rest := by
  rcases h with ⟨text, hcovers⟩
  rcases exists_reads_of_ofText hcovers.symm with ⟨rest, hreads, hrest⟩
  exact ⟨text, rest, hreads, hrest.symm⟩

theorem Sourced.formed (h : Sourced (l :: ls)) (hk : l.kind ≠ .url) : Formed l.toToken := by
  rcases h.exists_reads with ⟨text, rest, hreads, -⟩
  exact hreads.formed fun hurl => absurd hurl hk

theorem Sourced.formed_of_mem (h : Sourced ls) (hl : l ∈ ls)
    (hk : l.kind.isInsignificant = true) : Formed l.toToken := by
  rcases List.append_of_mem hl with ⟨pre, post, rfl⟩
  apply (h.suffix (List.suffix_append pre _)).formed
  intro hurl
  rw [hurl] at hk
  cases hk

theorem Sourced.isName (h : Sourced (l :: ls)) (hk : isNamed l.kind = true) :
    Selector.IsName l.value := by
  have hformed : Formed l.toToken := h.formed fun hurl => by
    rw [hurl] at hk
    cases hk
  rcases hformed.name_of_isNamed hk with ⟨hne, h0⟩
  exact ⟨hne, h0⟩

/-!
## Printed runs

What was cut off at the end of a run keeps it apart from what followed, and white space is all
that trimming takes away.
-/

def PrintsBefore (run : List Lexeme) (text : Bytes) : Prop :=
  Token.ofText (serialize run ++ text) = tokens run ++ Token.ofText text

theorem printsBefore_of_steady {run : List Lexeme} {text : Bytes} (h : Steady (tokens run))
    (htext : run ≠ [] → beginsWith isBreak text = true) : PrintsBefore run text := by
  cases run with
  | nil => rfl
  | cons l run =>
      cases text with
      | nil => cases htext (List.cons_ne_nil l run)
      | cons b after => exact h b after (htext (List.cons_ne_nil l run))

theorem separates_of_insignificant {kind : Kind} (h : kind.isInsignificant = true) :
    separates kind = true := by
  rw [separates, h]
  rfl

theorem separates_head (hpost : ∀ m ∈ post, m.kind.isInsignificant = true)
    (hafter : ∀ l ∈ after.head?, separates l.kind = true) :
    ∀ t ∈ (tokens (post ++ after)).head?, separates t.kind = true := by
  intro t ht
  rw [tokens, List.head?_map] at ht
  rcases Option.map_eq_some_iff.mp ht with ⟨l, hl, rfl⟩
  cases post with
  | nil => exact hafter l hl
  | cons m post =>
      obtain rfl : m = l := Option.some.inj hl
      exact separates_of_insignificant (hpost m List.mem_cons_self)

theorem kind_getLast? {run : List Lexeme} {t : Token} (ht : t ∈ (tokens run).getLast?) :
    t.kind ∈ (kinds run).getLast? := by
  rw [tokens, List.getLast?_map] at ht
  rcases Option.map_eq_some_iff.mp ht with ⟨l, hl, rfl⟩
  rw [kinds, List.getLast?_map, hl]
  rfl

theorem blank_of_whitespace {run : List Lexeme} (h : ∀ l ∈ run, l.kind = .whitespace) :
    ∀ l ∈ run, l.kind.isBlank = true := by
  intro l hl
  rw [h l hl]
  rfl

theorem trim_between {pre run post : List Lexeme} (hpre : ∀ l ∈ pre, l.kind.isBlank = true)
    (hpost : ∀ l ∈ post, l.kind.isBlank = true) (h : Trimmed run) :
    trim (pre ++ run ++ post) = run := by
  cases run with
  | nil =>
      rw [trim, List.append_nil, List.dropWhile_append_of_pos hpre,
        List.dropWhile_eq_nil_iff.mpr hpost]
      rfl
  | cons l run =>
      have hfirst : l.kind.isBlank = false := h.first l.kind rfl
      have hback : ∀ l ∈ post.reverse, l.kind.isBlank = true := by
        intro l hl
        exact hpost l (List.mem_reverse.mp hl)
      have htrim := Parse.trim_eq_self h.first h.last
      rw [trim, List.dropWhile_cons, hfirst] at htrim
      rw [trim, List.append_assoc, List.dropWhile_append_of_pos hpre, List.cons_append,
        List.dropWhile_cons, hfirst, if_neg Bool.false_ne_true, ← List.cons_append,
        List.reverse_append, List.dropWhile_append_of_pos hback]
      exact htrim

/-- A run in brackets can be printed without the white space around it. -/
theorem steady_trim (h : Sourced (run ++ l :: after)) (hl : separates l.kind = true)
    (hrun : Token.Portable (tokens (trim run)))
    (hlast : ∀ kind ∈ (kinds (trim run)).getLast?, kind ≠ .function) :
    Steady (tokens (trim run)) := by
  rcases dropBlank_eq_trim run with ⟨post, hpost, hblank⟩
  have hsource : Sourced (trim run ++ (post ++ l :: after)) := by
    apply h.suffix
    rw [← List.append_assoc, ← hpost]
    exact List.suffix_append_self_iff.mpr (Parse.dropBlank_suffix run)
  rcases hsource with ⟨text, hcovers⟩
  rw [Covers, tokens, List.map_append] at hcovers
  apply hrun.steady (Respaced.refl _) hcovers.symm
  · apply separates_head
    · exact fun m hm => Parse.insignificant_of_blank (hblank m hm)
    · rintro _ ⟨⟩
      exact hl
  · intro t ht
    have hkind := kind_getLast? ht
    refine ⟨hlast _ hkind, ?_⟩
    intro hspace
    have hnot := (trimmed_trim run).last _ hkind
    rw [hspace] at hnot
    cases hnot
  · intro hnil
    rw [List.map_eq_nil_iff] at hnil
    exact absurd hnil (List.append_ne_nil_of_right_ne_nil post (List.cons_ne_nil l after))

end Lexeme

end CssText
