import CssText.Proofs.Token.Tiling
import Mathlib.Data.List.TakeWhile

/-!
# Cutting a text behind a lexeme

A text can be cut where a lexeme ends. What stands before the cut is read as it was in the
whole text, since a token shows nothing new when the text behind it ends sooner
(`Token.Reads.of_shows`). Only a function looks far enough ahead to be taken for an address,
over blanks to a quotation mark, so something else has to follow each function before the cut
(`Lexeme.Followed`). So the text of a run of lexemes can be taken out of the whole
(`Lexeme.exists_slice`).
-/

namespace CssText

namespace Token

theorem kind_of_blanks {text : Bytes} (h : skipBlanks text = []) :
    ∀ t ∈ ofText text, t.kind = .whitespace := by
  cases text with
  | nil =>
      rw [ofText_nil]
      intro t ht
      cases ht
  | cons b bs =>
      have hall : ∀ c ∈ b :: bs, isBlank c = true := List.dropWhile_eq_nil_iff.mp h
      have hreads : Reads (b :: bs) (plain .whitespace (b :: bs.takeWhile isBlank))
          (skipBlanks bs) := Reads.whitespace (hall b List.mem_cons_self)
      have hrest : skipBlanks bs = [] :=
        List.dropWhile_eq_nil_iff.mpr fun c hc => hall c (List.mem_cons_of_mem b hc)
      rw [hrest] at hreads
      rw [hreads.ofText_eq, ofText_nil]
      intro t ht
      rw [List.mem_singleton.mp ht]
      rfl

theorem quotedAhead_of_append {p q : Bytes} (hp : skipBlanks p ≠ [])
    (h : quotedAhead (p ++ q) = true) : quotedAhead p = true := by
  rcases List.exists_cons_of_ne_nil hp with ⟨b, bs, hblanks⟩
  rw [quotedAhead, skipBlanks_append hp, hblanks] at h
  rw [quotedAhead, hblanks]
  exact h

end Token

namespace Lexeme

/-- More than white space stands behind every function. -/
def Followed (us : List Lexeme) : Prop :=
  ∀ f more, f :: more <:+ us → f.kind = .function → ∃ m ∈ more, m.kind ≠ .whitespace

theorem Followed.tail {u : Lexeme} {us : List Lexeme} (h : Followed (u :: us)) : Followed us :=
  fun f more hs => h f more (hs.trans (List.suffix_cons u us))

end Lexeme

namespace Cursor

open Token (Reads)

theorem lexemes_between_eq (read text : Bytes) :
    (between read text).lexemes = (Lexeme.ofText text).map (Shift.past read).lexeme := by
  have hshift := lexemes_shift (Shift.past read) text 1 0
  rw [Nat.zero_add] at hshift
  exact hshift

theorem kind_of_blanks {read text : Bytes} (h : Token.skipBlanks text = []) :
    ∀ l ∈ (between read text).lexemes, l.kind = .whitespace := by
  intro l hl
  rw [lexemes_between_eq] at hl
  rcases List.mem_map.mp hl with ⟨m, hm, rfl⟩
  exact Token.kind_of_blanks h m.toToken (List.mem_map_of_mem hm)

/-- A text falls in two behind each of its lexemes, and its first part can be read by itself. -/
theorem exists_cut {read text : Bytes} {us vs : List Lexeme}
    (h : (between read text).lexemes = us ++ vs) :
    ∃ p q, text = p ++ q ∧ (between (read ++ p) q).lexemes = vs ∧
      (Lexeme.Followed us → (between read p).lexemes = us) := by
  induction us generalizing read text with
  | nil =>
      refine ⟨[], text, rfl, ?_, ?_⟩
      · rw [List.append_nil]
        exact h
      · intro _
        exact lexemes_between_nil read
  | cons u us ih =>
      have hne : text ≠ [] := by
        rintro rfl
        rw [lexemes_between_nil] at h
        cases h
      rcases Token.exists_reads hne with ⟨w, t, rest, rfl, hreads⟩
      rw [lexemes_between hreads, List.cons_append] at h
      rcases List.cons.inj h with ⟨rfl, hrest⟩
      rcases ih hrest with ⟨p, q, rfl, hq, hp⟩
      refine ⟨w ++ p, q, (List.append_assoc w p q).symm, ?_, ?_⟩
      · rw [← List.append_assoc]
        exact hq
      · intro hfollowed
        have hinside := hp hfollowed.tail
        -- A function looks over blanks, so it looks past the cut if only blanks stand before it.
        have hquote : t.kind = .function → Token.quotedAhead (p ++ q) = true →
            Token.quotedAhead (p ++ []) = true := by
          intro hk hahead
          rw [List.append_nil]
          apply Token.quotedAhead_of_append _ hahead
          intro hblanks
          rcases hfollowed _ us (List.suffix_refl _) hk with ⟨m, hm, hkind⟩
          rw [← hinside] at hm
          exact hkind (kind_of_blanks hblanks m hm)
        rw [← List.append_assoc] at hreads
        have halone := hreads.of_shows (Token.Shows.nil q) hquote
        rw [List.append_nil, List.append_nil] at halone
        rw [lexemes_between halone, hinside]

end Cursor

namespace Lexeme

/-- A run of lexemes is read from its own text, which stands in the whole text at its place. -/
theorem exists_slice {css : Bytes} {pre us post : List Lexeme}
    (h : ofText css = pre ++ (us ++ post)) (hus : Followed us) :
    ∃ a s b, css = a ++ (s ++ b) ∧ us = (ofText s).map (Shift.past a).lexeme ∧
      (Cursor.between (a ++ s) b).lexemes = post := by
  have hwhole : (Cursor.between [] css).lexemes = pre ++ (us ++ post) := h
  rcases Cursor.exists_cut hwhole with ⟨a, rest, rfl, hrest, -⟩
  rcases Cursor.exists_cut hrest with ⟨s, b, rfl, hpost, hrun⟩
  refine ⟨a, s, b, rfl, ?_, hpost⟩
  rw [← Cursor.lexemes_between_eq]
  exact (hrun hus).symm

theorem ends_ofText (text : Bytes) :
    (∀ l ∈ (ofText text).head?, l.start = 0) ∧
      ∀ l ∈ (ofText text).getLast?, l.stop = text.length := by
  rcases Cursor.isChain_between [] text with ⟨hfirst, hchain⟩
  constructor
  · intro l hl
    apply hfirst l
    rw [List.head?_append]
    have hhead : (Cursor.between [] text).lexemes.head? = some l := hl
    rw [hhead]
    rfl
  · intro l hl
    rcases List.getLast?_eq_some_iff.mp hl with ⟨init, hinit⟩
    have hlexemes : (Cursor.between [] text).lexemes = init ++ [l] := hinit
    rw [hlexemes, List.append_assoc, List.isChain_append] at hchain
    exact (List.isChain_cons_cons.mp hchain.2.1).1

end Lexeme

end CssText
