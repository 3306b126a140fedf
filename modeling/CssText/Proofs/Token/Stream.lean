import CssText.Proofs.Token.Local
import CssText.Token.Stream

/-!
# The lexemes of a text

A text is empty or begins with a token; `text_induction` argues along its tokens. What is
read does not depend on where reading began, only the places move (`lexemes_shift`), and a
text that ends with punctuation can be read apart from what follows it (`ofText_append`).
-/

namespace CssText

namespace Token

theorem exists_reads {text : Bytes} (hne : text ≠ []) :
    ∃ w t rest, text = w ++ rest ∧ Reads (w ++ rest) t rest := by
  obtain ⟨b, bs, rfl⟩ := List.exists_cons_of_ne_nil hne
  have hreads := reads_scan b bs
  obtain ⟨w, hw⟩ := hreads.suffix
  refine ⟨w, (scan b bs).1, (scan b bs).2, hw.symm, ?_⟩
  rw [hw]
  exact hreads

theorem text_induction {motive : Bytes → Prop} (nil : motive [])
    (reads : ∀ w t rest, Reads (w ++ rest) t rest → motive rest → motive (w ++ rest)) :
    ∀ text, motive text := by
  intro text
  induction hn : text.length using Nat.strongRecOn generalizing text with
  | ind n ih =>
      subst hn
      by_cases hne : text = []
      · rw [hne]
        exact nil
      · obtain ⟨w, t, rest, rfl, hreads⟩ := exists_reads hne
        exact reads w t rest hreads (ih rest.length hreads.length_lt rest rfl)

def ofText (text : Bytes) : List Token :=
  Lexeme.tokens (Lexeme.ofText text)

end Token

namespace Cursor

theorem lexemes_nil (line offset : Nat) : lexemes { rest := [], line, offset } = [] := by
  rw [lexemes, dif_pos rfl]

theorem next_of_reads {w rest : Bytes} {t : Token} (h : Token.Reads (w ++ rest) t rest)
    (line offset : Nat) :
    next { rest := w ++ rest, line, offset } =
      ({ toToken := t, line, start := offset, stop := offset + w.length },
        { rest, line := line + w.count Byte.newline, offset := offset + w.length }) := by
  obtain ⟨b, bs, htext, hscan⟩ := h.exists_cons
  have hsuffix := Token.scan_suffix b bs
  rw [hscan] at hsuffix
  have htaken : b :: upTo rest bs = w := by
    have hwhole : b :: upTo rest bs ++ rest = w ++ rest := by
      rw [List.cons_append, upTo_append_of_suffix hsuffix, htext]
    exact List.append_cancel_right hwhole
  simp only [next, htext, hscan, advance, htaken]

theorem lexemes_of_reads {w rest : Bytes} {t : Token} (h : Token.Reads (w ++ rest) t rest)
    (line offset : Nat) :
    lexemes { rest := w ++ rest, line, offset } =
      { toToken := t, line, start := offset, stop := offset + w.length } ::
        lexemes
          { rest, line := line + w.count Byte.newline, offset := offset + w.length } := by
  rw [lexemes, dif_neg h.ne_nil]
  simp only [next_of_reads h]

theorem tokens_lexemes (text : Bytes) (line offset : Nat) :
    Lexeme.tokens (lexemes { rest := text, line, offset }) = Token.ofText text := by
  suffices h : ∀ line offset line' offset', Lexeme.tokens (lexemes { rest := text, line, offset }) =
      Lexeme.tokens (lexemes { rest := text, line := line', offset := offset' }) from
    h line offset 1 0
  induction text using Token.text_induction with
  | nil =>
      intro line offset line' offset'
      rw [lexemes_nil, lexemes_nil]
  | reads w t rest h ih =>
      intro line offset line' offset'
      rw [lexemes_of_reads h, lexemes_of_reads h]
      exact congrArg (t :: ·) (ih _ _ _ _)

end Cursor

namespace Token

@[simp] theorem ofText_nil : ofText [] = [] :=
  congrArg Lexeme.tokens (Cursor.lexemes_nil 1 0)

theorem Reads.ofText_eq {text rest : Bytes} {t : Token} (h : Reads text t rest) :
    ofText text = t :: ofText rest := by
  obtain ⟨w, rfl⟩ := h.suffix
  rw [ofText, Lexeme.ofText, Cursor.lexemes_of_reads h]
  exact congrArg (t :: ·) (Cursor.tokens_lexemes rest _ _)

theorem ofText_eq_nil {text : Bytes} : ofText text = [] ↔ text = [] := by
  constructor
  · intro h
    by_cases hne : text = []
    · exact hne
    · obtain ⟨w, t, rest, rfl, hreads⟩ := exists_reads hne
      rw [hreads.ofText_eq] at h
      cases h
  · rintro rfl
    exact ofText_nil

theorem exists_reads_of_ofText {text : Bytes} {t : Token} {us : List Token}
    (h : ofText text = t :: us) : ∃ rest, Reads text t rest ∧ ofText rest = us := by
  have hne : text ≠ [] := by
    rintro rfl
    rw [ofText_nil] at h
    cases h
  obtain ⟨w, u, rest, rfl, hreads⟩ := exists_reads hne
  rw [hreads.ofText_eq] at h
  obtain ⟨rfl, rfl⟩ := List.cons.inj h
  exact ⟨rest, hreads, rfl⟩

/-- The tokens of a text from some token on are those of the text from there on. -/
theorem exists_suffix_of_ofText {text : Bytes} {us vs : List Token}
    (h : ofText text = us ++ vs) : ∃ rest, rest <:+ text ∧ ofText rest = vs := by
  induction us generalizing text with
  | nil => exact ⟨text, List.suffix_refl text, h⟩
  | cons u us ih =>
      obtain ⟨rest, hreads, hrest⟩ := exists_reads_of_ofText h
      obtain ⟨rest', hsuffix, hvs⟩ := ih hrest
      exact ⟨rest', hsuffix.trans hreads.suffix, hvs⟩

def isPunctuation (kind : Kind) : Bool :=
  kind = .leftParen || kind = .rightParen || kind = .comma || kind = .colon ||
    kind = .semicolon || kind = .leftBracket || kind = .rightBracket || kind = .leftBrace ||
    kind = .rightBrace

theorem not_isPunctuation_of_operator : ∀ b : UInt8, ∀ kind ∈ matchOperator? b [Byte.equals],
    isPunctuation kind = false :=
  forall_operator (by decide)

theorem Reads.exists_punctuation {text rest : Bytes} {t : Token} (h : Reads text t rest)
    (ht : isPunctuation t.kind = true) :
    ∃ c, text = c :: rest ∧ isStop c = true ∧ ∀ after, Reads (c :: after) t after := by
  cases h with
  | @punctuation c _ kind hp =>
      refine ⟨c, rfl, ?_, fun after => Reads.punctuation hp⟩
      rw [isStop, hp]
      rfl
  | operator ho =>
      have hoperator : matchOperator? _ [Byte.equals] = some _ := ho
      rw [plain, not_isPunctuation_of_operator _ _ hoperator] at ht
      cases ht
  | _ => cases ht

theorem exists_stop {text : Bytes} {ts : List Token} {t : Token} (h : ofText text = ts ++ [t])
    (ht : isPunctuation t.kind = true) : ∃ p c, text = p ++ [c] ∧ isStop c = true := by
  induction text using text_induction generalizing ts with
  | nil =>
      rw [ofText_nil] at h
      cases ts <;> cases h
  | reads w u rest hreads ih =>
      rw [hreads.ofText_eq] at h
      cases ts with
      | nil =>
          obtain ⟨rfl, hrest⟩ := List.cons.inj h
          obtain ⟨c, htext, hc, -⟩ := hreads.exists_punctuation ht
          rw [ofText_eq_nil.mp hrest] at htext ⊢
          exact ⟨[], c, htext, hc⟩
      | cons v ts =>
          obtain ⟨rfl, hrest⟩ := List.cons.inj h
          obtain ⟨p, c, rfl, hc⟩ := ih hrest
          exact ⟨w ++ p, c, by rw [List.append_assoc], hc⟩

end Token

/-!
## Places

A text that ends with punctuation is read apart from what follows it.
-/

/-- A way down the text. -/
structure Shift where
  lines : Nat
  bytes : Nat

namespace Shift

def past (text : Bytes) : Shift :=
  ⟨text.count Byte.newline, text.length⟩

def lexeme (p : Shift) (l : Lexeme) : Lexeme :=
  { l with line := l.line + p.lines, start := l.start + p.bytes, stop := l.stop + p.bytes }

@[simp] theorem lexeme_toToken (p : Shift) (l : Lexeme) : (p.lexeme l).toToken = l.toToken :=
  rfl

end Shift

namespace Cursor

theorem lexemes_shift (p : Shift) (text : Bytes) (line offset : Nat) :
    lexemes { rest := text, line := line + p.lines, offset := offset + p.bytes } =
      (lexemes { rest := text, line, offset }).map p.lexeme := by
  induction text using Token.text_induction generalizing line offset with
  | nil => rw [lexemes_nil, lexemes_nil, List.map_nil]
  | reads w t rest h ih =>
      have hplace := ih (line + w.count Byte.newline) (offset + w.length)
      rw [Nat.add_right_comm line, Nat.add_right_comm offset] at hplace
      rw [lexemes_of_reads h, lexemes_of_reads h, List.map_cons, hplace]
      simp only [Shift.lexeme, Nat.add_right_comm offset]

theorem lexemes_append {text : Bytes} {ts : List Token} {t : Token}
    (h : Token.ofText text = ts ++ [t]) (ht : Token.isPunctuation t.kind = true)
    (after : Bytes) (line offset : Nat) :
    lexemes { rest := text ++ after, line, offset } =
      lexemes { rest := text, line, offset } ++
        lexemes { rest := after, line := line + text.count Byte.newline,
                  offset := offset + text.length } := by
  induction text using Token.text_induction generalizing ts line offset with
  | nil =>
      rw [Token.ofText_nil] at h
      cases ts <;> cases h
  | reads w u rest hreads ih =>
      rw [hreads.ofText_eq] at h
      have hafter : Token.Reads (w ++ (rest ++ after)) u (rest ++ after) := by
        cases ts with
        | nil =>
            obtain ⟨rfl, hrest⟩ := List.cons.inj h
            obtain ⟨c, htext, -, hc⟩ := hreads.exists_punctuation ht
            obtain rfl := Token.ofText_eq_nil.mp hrest
            rw [List.append_nil] at htext
            rw [htext]
            exact hc after
        | cons v ts =>
            obtain ⟨-, hrest⟩ := List.cons.inj h
            obtain ⟨p, c, rfl, hc⟩ := Token.exists_stop hrest ht
            rw [← List.append_assoc] at hreads
            have hstop := hreads.of_stop hc (Token.halts_cons c after)
            rw [List.append_assoc] at hstop
            rw [List.append_assoc]
            exact hstop
      rw [List.append_assoc, lexemes_of_reads hafter, lexemes_of_reads hreads, List.cons_append]
      congr 1
      cases ts with
      | nil =>
          obtain ⟨-, hrest⟩ := List.cons.inj h
          obtain rfl := Token.ofText_eq_nil.mp hrest
          rw [List.append_nil, List.nil_append, lexemes_nil, List.nil_append]
      | cons v ts =>
          obtain ⟨-, hrest⟩ := List.cons.inj h
          rw [ih hrest, List.count_append, List.length_append, Nat.add_assoc, Nat.add_assoc]

end Cursor

namespace Lexeme

theorem ofText_append {text : Bytes} {ts : List Token} {t : Token}
    (h : Token.ofText text = ts ++ [t]) (ht : Token.isPunctuation t.kind = true)
    (after : Bytes) :
    ofText (text ++ after) = ofText text ++ (ofText after).map (Shift.past text).lexeme := by
  rw [ofText, Cursor.lexemes_append h ht after 1 0]
  exact congrArg (ofText text ++ ·) (Cursor.lexemes_shift (Shift.past text) after 1 0)

end Lexeme

namespace Token

theorem ofText_append {text : Bytes} {ts : List Token} {t : Token}
    (h : ofText text = ts ++ [t]) (ht : isPunctuation t.kind = true) (after : Bytes) :
    ofText (text ++ after) = ofText text ++ ofText after := by
  rw [ofText, Lexeme.ofText_append h ht, Lexeme.tokens, List.map_append, List.map_map]
  rfl

end Token

/-!
## Lexemes of a text that stands elsewhere
-/

namespace Lexeme

/-- The lexemes are those of the text, wherever it stands. -/
def Covers (ls : List Lexeme) (text : Bytes) : Prop :=
  tokens ls = Token.ofText text

theorem covers_ofText (text : Bytes) : Covers (ofText text) text :=
  rfl

theorem Covers.eq_nil {ls : List Lexeme} (h : Covers ls []) : ls = [] := by
  rw [Covers, Token.ofText_nil] at h
  exact List.map_eq_nil_iff.mp h

theorem Covers.cons {ls : List Lexeme} {text rest : Bytes} {t : Token} (h : Covers ls text)
    (hr : Token.Reads text t rest) : ∃ l ms, ls = l :: ms ∧ l.toToken = t ∧ Covers ms rest := by
  rw [Covers, hr.ofText_eq, tokens, List.map_eq_cons_iff] at h
  rcases h with ⟨l, ms, hls, hl, hms⟩
  exact ⟨l, ms, hls, hl, hms⟩

end Lexeme

end CssText
