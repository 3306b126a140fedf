import CssText.Proofs.Parse.Clean
import CssText.Proofs.Selector.RoundTrip
import Mathlib.Data.List.Forall2

/-!
# Printed rules are read back

What a rule has to keep to, so that its text is read as the rule, and how reading then goes:
a run of lexemes by its kinds, a declaration up to its semicolon, a rule up to the end of its
text, whatever follows there.
-/

namespace CssText

open Token

namespace Token

theorem not_blank_punctuation : ∀ b : UInt8, ∀ kind ∈ punctuation? b, isBlank b = false :=
  forall_punctuation (by decide)

end Token

/-!
## Runs of lexemes

Blanks before other text are one lexeme of white space. The lexemes that are read of a text
equal themselves, so it is enough to know their tokens.
-/

namespace Lexeme

theorem Covers.blanks {ls : List Lexeme} {bs text : Bytes} (h : Covers ls (bs ++ text))
    (hne : bs ≠ []) (hbs : ∀ b ∈ bs, isBlank b = true)
    (htext : beginsWith isBlank text = false) :
    ∃ space ms, ls = space :: ms ∧ space.kind = .whitespace ∧ Covers ms text := by
  have hformed : Formed (plain .whitespace bs) := Formed.whitespace hne hbs
  rcases h.cons (hformed.reads_toCss htext) with ⟨space, ms, rfl, hspace, hms⟩
  exact ⟨space, ms, rfl, congrArg Token.kind hspace, hms⟩

theorem Covers.gap {ls : List Lexeme} {bs text : Bytes} (h : Covers ls (bs ++ text))
    (hbs : ∀ b ∈ bs, isBlank b = true) (htext : bs ≠ [] → beginsWith isBlank text = false) :
    ∃ spaces ms, ls = spaces ++ ms ∧ (∀ l ∈ spaces, l.kind = .whitespace) ∧ Covers ms text := by
  cases bs with
  | nil =>
      refine ⟨[], ls, rfl, ?_, h⟩
      intro l hl
      cases hl
  | cons b bs =>
      have hne := List.cons_ne_nil b bs
      rcases h.blanks hne hbs (htext hne) with ⟨space, ms, rfl, hspace, hms⟩
      refine ⟨[space], ms, rfl, ?_, hms⟩
      intro l hl
      rw [List.mem_singleton.mp hl]
      exact hspace

theorem Covers.run {ls run : List Lexeme} {text : Bytes} (h : Covers ls (serialize run ++ text))
    (hrun : PrintsBefore run text) :
    ∃ run' rest, ls = run' ++ rest ∧ tokens run' = tokens run ∧ Covers rest text := by
  rw [Covers, hrun] at h
  rcases List.map_eq_append_iff.mp h with ⟨run', rest, rfl, hrun', hrest⟩
  exact ⟨run', rest, rfl, hrun', hrest⟩

theorem kinds_eq_of_tokens {run run' : List Lexeme} (h : tokens run = tokens run') :
    kinds run = kinds run' := by
  have hkinds (run : List Lexeme) : kinds run = (tokens run).map Token.kind := by
    rw [tokens, List.map_map]
    rfl
  rw [hkinds, hkinds, h]

theorem Trimmed.not_blank {run : List Lexeme} {text : Bytes} (ht : Trimmed run)
    (hrun : PrintsBefore run text) (htext : run = [] → beginsWith isBlank text = false) :
    beginsWith isBlank (serialize run ++ text) = false := by
  cases run with
  | nil => exact htext rfl
  | cons l run =>
      rcases exists_reads_of_ofText hrun with ⟨rest, hreads, -⟩
      apply not_blank_of_reads hreads
      intro hkind
      have hl : l.kind.isBlank = false := ht.first l.kind rfl
      rw [hkind] at hl
      cases hl

theorem Covers.not_blank {l : Lexeme} {ls : List Lexeme} {text : Bytes}
    (h : Covers (l :: ls) text) (hl : l.kind ≠ .whitespace) : beginsWith isBlank text = false := by
  rcases exists_reads_of_ofText h.symm with ⟨rest, hreads, -⟩
  exact not_blank_of_reads hreads hl

theorem Covers.beq {ls run run' : List Lexeme} {text : Bytes} (h : Covers ls text)
    (hls : run' ⊆ ls) (hrun : tokens run' = tokens run) : (run' == run) = true := by
  apply beq_of_tokens_eq hrun
  intro t ht
  rcases List.mem_map.mp ht with ⟨l, hl, rfl⟩
  have hmem : l.toToken ∈ Token.ofText text := by
    rw [← h]
    exact List.mem_map_of_mem (hls hl)
  exact Token.same_self_of_mem hmem

end Lexeme

/-!
## Declarations

Declarations are read back up to the brace that closes their block.
-/

namespace Declaration

structure Printable (limit : Nat) (d : Declaration) : Prop where
  name : IsPlainName d.property
  steady : Steady (Lexeme.tokens d.terms)
  trimmed : Lexeme.Trimmed d.terms
  tidy : Parse.tidy (Lexeme.kinds d.terms) = true
  balances : Parse.balances limit [] (Lexeme.kinds d.terms) = true

structure Same (d d' : Declaration) : Prop where
  beq : (d == d') = true
  text : d.text = d'.text

theorem same_of_terms {d d' : Declaration} (hproperty : d.property = d'.property)
    (hterms : (d.terms == d'.terms) = true) : Same d d' where
  beq := by
    show (d.property == d'.property && d.terms == d'.terms) = true
    rw [hproperty, hterms, beq_self_eq_true]
    rfl
  text := by
    rw [text, text, valueText, valueText, hproperty, Lexeme.serialize_eq_of_beq hterms]

end Declaration

namespace Parse

open Selector Lexeme

variable {bounds : Bounds} {ts : List Lexeme} {after : Bytes}

theorem declaration_text {d : Declaration} (hd : d.Printable bounds.limit)
    (hts : Covers ts (d.text ++ Byte.semicolon :: after)) :
    ∃ property ls d' semicolon rest, ts = property :: ls ∧ property.kind = .ident ∧
      declaration bounds property ls = (.ok d', semicolon :: rest) ∧
      semicolon.kind = .semicolon ∧ d'.Same d ∧ Covers rest after := by
  have htext : d.text ++ Byte.semicolon :: after = Escape.identifier d.property ++ Byte.colon ::
      ([Byte.space] ++ (serialize d.terms ++ Byte.semicolon :: after)) := by
    rw [Declaration.text, Declaration.valueText, hd.name.plain]
    simp [ascii]
  have hedge : ∀ b ∈ (Byte.colon :: ([Byte.space] ++
      (serialize d.terms ++ Byte.semicolon :: after))).head?, isEdge b = true := by
    rintro _ ⟨⟩
    rfl
  have hprints : PrintsBefore d.terms (Byte.semicolon :: after) :=
    printsBefore_of_steady hd.steady fun _ => rfl
  have hblank := hd.trimmed.not_blank hprints fun _ => rfl
  have hspaces : ∀ b ∈ [Byte.space], isBlank b = true := by
    intro b hb
    rw [List.mem_singleton.mp hb]
    rfl
  rw [htext] at hts
  have hcovers := hts
  rcases hts.cons (reads_name hd.name.toIsName hedge) with ⟨property, ls, rfl, hp, hls⟩
  rcases hls.cons (Reads.punctuation rfl) with ⟨colon, ms, rfl, hcolon, hms⟩
  rcases hms.blanks (List.cons_ne_nil _ _) hspaces hblank with ⟨space, ns, rfl, hspace, hns⟩
  rcases hns.run hprints with ⟨run, os, rfl, hrun, hos⟩
  rcases hos.cons (Reads.punctuation rfl) with ⟨semicolon, rest, rfl, hl, hrest⟩
  have hkp : property.kind = .ident := congrArg Token.kind hp
  have hname : property.value = d.property := congrArg Token.value hp
  have hkc : colon.kind = .colon := congrArg Token.kind hcolon
  have hks : semicolon.kind = .semicolon := congrArg Token.kind hl
  have hkinds := kinds_eq_of_tokens hrun
  have hends : endsValue semicolon.kind = true := by
    rw [hks]
    rfl
  have hbalances : balances bounds.limit [] (kinds (space :: run)) = true := by
    rw [← balances_significant, kinds, List.map_cons, significant_blank (by rw [hspace]; rfl),
      balances_significant]
    show balances bounds.limit [] (kinds run) = true
    rw [hkinds]
    exact hd.balances
  have hterms : terms (space :: run) = run := by
    apply terms_of_tidy hspace
    · exact hkinds ▸ hd.tidy
    · exact hkinds ▸ hd.trimmed.first
    · exact hkinds ▸ hd.trimmed.last
  have hread : declaration bounds property (colon :: space :: (run ++ semicolon :: rest)) =
      (.ok { property := property.value, terms := run, start := property.start
             stop := (run.getLast?.map Lexeme.stop).getD semicolon.start },
        semicolon :: rest) := by
    have hstop : ∀ l ∈ (semicolon :: rest).head?, endsValue l.kind = true := by
      rintro _ ⟨⟩
      exact hends
    apply declaration_iff.mpr
    refine ⟨colon, _, space :: run, dropBlank_self (by rw [hkc]; rfl) _, hkc,
      balanced_of_balances hbalances hstop, ?_⟩
    rw [valued, hterms]
    rfl
  have hsub : run ⊆ property :: colon :: space :: (run ++ semicolon :: rest) := by
    intro l hl
    exact List.mem_cons_of_mem _ (List.mem_cons_of_mem _
      (List.mem_cons_of_mem _ (List.mem_append_left _ hl)))
  exact ⟨property, _, _, semicolon, rest, rfl, hkp, hread, hks,
    Declaration.same_of_terms hname (hcovers.beq hsub hrun), hrest⟩

theorem declaration_not_blank {d : Declaration} (hd : d.Printable bounds.limit) (after : Bytes) :
    beginsWith isBlank (d.text ++ Byte.semicolon :: after) = false := by
  have hts := covers_ofText (d.text ++ Byte.semicolon :: after)
  rcases declaration_text hd hts with ⟨property, ls, _, _, _, hls, hk, -⟩
  rw [hls] at hts
  apply hts.not_blank
  rw [hk]
  intro hwhitespace
  cases hwhitespace

theorem dropBlank_spaces {spaces : List Lexeme} (h : ∀ l ∈ spaces, l.kind = .whitespace) :
    dropBlank (spaces ++ ts) = dropBlank ts := by
  apply List.dropWhile_append_of_pos
  intro l hl
  rw [h l hl]
  rfl

theorem dropInsignificant_spaces {spaces : List Lexeme}
    (h : ∀ l ∈ spaces, l.kind = .whitespace) :
    dropInsignificant (spaces ++ ts) = dropInsignificant ts := by
  apply List.dropWhile_append_of_pos
  intro l hl
  rw [h l hl]
  rfl

def blockText (ds : List Declaration) : Bytes :=
  ds.flatMap fun d => [Byte.newline, Byte.space, Byte.space] ++ d.text ++ [Byte.semicolon]

theorem separator_blank {b : UInt8} (hb : b ∈ [Byte.newline, Byte.space, Byte.space]) :
    isBlank b = true := by
  simp only [List.mem_cons, List.not_mem_nil, or_false] at hb
  rcases hb with rfl | rfl | rfl <;> rfl

theorem declarations_text {ds : List Declaration} {gap : Bytes}
    (hds : ∀ d ∈ ds, d.Printable bounds.limit) (hgap : ∀ b ∈ gap, isBlank b = true)
    (hts : Covers ts (blockText ds ++ (gap ++ Byte.rightBrace :: after))) :
    ∃ ds' brace rest, declarations bounds true ts =
        { value := ds', issues := [], rest := brace :: rest } ∧
      brace.kind = .rightBrace ∧ List.Forall₂ Declaration.Same ds' ds ∧ Covers rest after := by
  induction ds generalizing ts with
  | nil =>
      rw [blockText, List.flatMap_nil, List.nil_append] at hts
      rcases hts.gap hgap (fun _ => rfl) with ⟨spaces, ls, rfl, hspaces, hls⟩
      rcases hls.cons (Reads.punctuation rfl) with ⟨brace, rest, rfl, hl, hrest⟩
      have hk : brace.kind = .rightBrace := congrArg Token.kind hl
      refine ⟨[], brace, rest, ?_, hk, List.Forall₂.nil, hrest⟩
      rw [declarations_eq, dropBlank_spaces hspaces, dropBlank_self (by rw [hk]; rfl),
        declarationsAfter, if_pos hk, if_pos rfl]
  | cons d ds ih =>
      have hd := hds d List.mem_cons_self
      have htext : blockText (d :: ds) ++ (gap ++ Byte.rightBrace :: after) =
          [Byte.newline, Byte.space, Byte.space] ++ (d.text ++
            Byte.semicolon :: (blockText ds ++ (gap ++ Byte.rightBrace :: after))) := by
        simp [blockText]
      rw [htext] at hts
      rcases hts.blanks (List.cons_ne_nil _ _) (fun b hb => separator_blank hb)
        (declaration_not_blank hd _) with ⟨space, ls, rfl, hspace, hls⟩
      rcases declaration_text hd hls with
        ⟨property, ms, d', semicolon, rest, rfl, hproperty, hread, hsemicolon, hsame, hrest⟩
      rcases ih (fun e he => hds e (List.mem_cons_of_mem d he)) hrest with
        ⟨ds', brace, end', hmore, hbrace, hsames, hend⟩
      have hskip : declarations bounds true (semicolon :: rest) =
          declarations bounds true rest := by
        rw [declarations_eq, dropBlank_self (by rw [hsemicolon]; rfl), declarationsAfter,
          hsemicolon]
        rfl
      refine ⟨d' :: ds', brace, end', ?_, hbrace, List.Forall₂.cons hsame hsames, hend⟩
      rw [declarations_eq, dropBlank_whitespace hspace,
        dropBlank_self (by rw [hproperty]; rfl), declarationsAfter, hproperty]
      simp only [hread, hskip, hmore, consDeclaration]
      rfl

end Parse

/-!
## At-rules

A part of an at-rule is read back up to the punctuation that ends it. The white space around it
is left to trimming.
-/

namespace AtRule

/-- A header or the contents of a block, closed inside the brackets `around`. -/
structure PrintablePart (limit : Nat) (around : List Bracket) (ends : Kind → Bool)
    (run : List Lexeme) : Prop where
  steady : Steady (Lexeme.tokens run)
  trimmed : Lexeme.Trimmed run
  closes : Parse.closes limit around ends [] (Lexeme.kinds run) = true

structure Printable (limit : Nat) (rule : AtRule) : Prop where
  keyword : IsPlainName rule.keyword
  header : PrintablePart limit [] Parse.endsHeader rule.header
  block : ∀ body ∈ rule.block, PrintablePart limit [.curly] Parse.endsBlock body

end AtRule

namespace Rule

structure Same (r r' : Rule) : Prop where
  beq : (r == r') = true
  text : r.text = r'.text

end Rule

namespace Lexeme

theorem isEmpty_eq_of_beq {run run' : List Lexeme} (h : (run == run') = true) :
    run.isEmpty = run'.isEmpty := by
  cases run with
  | nil =>
      cases run' with
      | nil => rfl
      | cons l' run' => cases h
  | cons l run =>
      cases run' with
      | nil => cases h
      | cons l' run' => rfl

end Lexeme

namespace AtRule

theorem same_of_parts {r r' : AtRule} (hkeyword : r.keyword = r'.keyword)
    (hheader : (r.header == r'.header) = true) (hblock : (r.block == r'.block) = true) :
    Rule.Same (.atRule r) (.atRule r') where
  beq := by
    show (r.keyword == r'.keyword && r.header == r'.header && r.block == r'.block) = true
    rw [hkeyword, hheader, hblock, beq_self_eq_true]
    rfl
  text := by
    show r.text = r'.text
    rw [text, text, hkeyword, Lexeme.isEmpty_eq_of_beq hheader,
      Lexeme.serialize_eq_of_beq hheader]
    congr 1
    cases hr : r.block with
    | none =>
        cases hr' : r'.block with
        | none => rfl
        | some body' =>
            rw [hr, hr'] at hblock
            cases hblock
    | some body =>
        cases hr' : r'.block with
        | none =>
            rw [hr, hr'] at hblock
            cases hblock
        | some body' =>
            rw [hr, hr'] at hblock
            have hbody : (body == body') = true := hblock
            simp only [Lexeme.isEmpty_eq_of_beq hbody, Lexeme.serialize_eq_of_beq hbody]

end AtRule

namespace Parse

open Selector Lexeme

variable {bounds : Bounds} {ts : List Lexeme} {after : Bytes}

theorem components_text {around : List Bracket} {ends : Kind → Bool} {run : List Lexeme}
    {pre post : Bytes} {e : UInt8} {kind : Kind}
    (hrun : AtRule.PrintablePart bounds.limit around ends run)
    (hends : ∀ kind : Kind, kind.isBlank = true → ends kind = false)
    (hpre : ∀ b ∈ pre, isBlank b = true) (hpost : ∀ b ∈ post, isBlank b = true)
    (hempty : run = [] → pre = [])
    (hbreak : run ≠ [] → beginsWith isBreak (post ++ e :: after) = true)
    (he : punctuation? e = some kind) (hkind : ends kind = true)
    (hts : Covers ts (pre ++ (serialize run ++ (post ++ e :: after)))) :
    ∃ run' l rest, components bounds around ends [] ts =
        { value := some run', issues := [], rest := l :: rest } ∧
      l.kind = kind ∧ (trim run' == run) = true ∧ Covers rest after := by
  have hprints := printsBefore_of_steady hrun.steady hbreak
  have hblank : pre ≠ [] →
      beginsWith isBlank (serialize run ++ (post ++ e :: after)) = false := by
    intro hne
    apply hrun.trimmed.not_blank hprints
    intro hnil
    exact absurd (hempty hnil) hne
  rcases hts.gap hpre hblank with ⟨spaces, ls, rfl, hspaces, hls⟩
  rcases hls.run hprints with ⟨inner, ms, rfl, hinner, hms⟩
  rcases hms.gap hpost (fun _ => not_blank_punctuation e kind he) with
    ⟨spaces', ns, rfl, hspaces', hns⟩
  rcases hns.cons (Reads.punctuation he) with ⟨l, rest, rfl, hl, hrest⟩
  have hk : l.kind = kind := congrArg Token.kind hl
  have htrimmed : Trimmed inner := by
    constructor
    · exact kinds_eq_of_tokens hinner ▸ hrun.trimmed.first
    · exact kinds_eq_of_tokens hinner ▸ hrun.trimmed.last
  have htrim := trim_between (blank_of_whitespace hspaces) (blank_of_whitespace hspaces')
    htrimmed
  have hcloses :
      closes bounds.limit around ends [] (kinds (spaces ++ inner ++ spaces')) = true := by
    rw [← closes_significant hends, ← significant_trim, htrim, closes_significant hends,
      kinds_eq_of_tokens hinner]
    exact hrun.closes
  refine ⟨spaces ++ inner ++ spaces', l, rest, ?_, hk, ?_, hrest⟩
  · have hread := components_of_closes hcloses (hk ▸ hkind) rest
    rw [List.append_assoc, List.append_assoc] at hread
    exact hread
  · rw [htrim]
    apply hts.beq _ hinner
    intro m hm
    exact List.mem_append_right _ (List.mem_append_left _ hm)

def lead (run : List Lexeme) : Bytes :=
  if run.isEmpty then [] else [Byte.space]

theorem blank_of_mem_lead {run : List Lexeme} {b : UInt8} (hb : b ∈ lead run) :
    isBlank b = true := by
  unfold lead at hb
  split at hb
  · cases hb
  · rw [List.mem_singleton.mp hb]
    rfl

theorem beginsWith_lead {run : List Lexeme} (h : run ≠ []) (text : Bytes) :
    beginsWith isBreak (lead run ++ text) = true := by
  cases run with
  | nil => exact absurd rfl h
  | cons l run => rfl

theorem lead_append (run : List Lexeme) (text : Bytes) :
    (if run.isEmpty then [] else Byte.space :: serialize run) ++ text =
      lead run ++ (serialize run ++ text) := by
  cases run with
  | nil => rfl
  | cons l run => rfl

theorem lead_append_lead (run : List Lexeme) (text : Bytes) :
    (if run.isEmpty then [] else Byte.space :: serialize run ++ [Byte.space]) ++ text =
      lead run ++ (serialize run ++ (lead run ++ text)) := by
  cases run with
  | nil => rfl
  | cons l run => simp [lead]

theorem not_continues_lead {b : UInt8} (hb : isNameByte b = false) (hne : b ≠ Byte.backslash)
    (run : List Lexeme) (text : Bytes) :
    continuesName (lead run ++ (serialize run ++ b :: text)) = false := by
  cases run with
  | nil => exact continuesName_cons hb hne text
  | cons l run => exact continuesName_cons rfl (by decide) _

theorem not_endsHeader_blank {kind : Kind} (h : kind.isBlank = true) :
    endsHeader kind = false := by
  rcases blank_cases h with rfl | rfl <;> rfl

theorem not_endsBlock_blank {kind : Kind} (h : kind.isBlank = true) :
    endsBlock kind = false := by
  rcases blank_cases h with rfl | rfl <;> rfl

theorem block_text {body : List Lexeme}
    (hbody : AtRule.PrintablePart bounds.limit [.curly] endsBlock body)
    (hts : Covers ts (lead body ++ (serialize body ++ (lead body ++
      Byte.rightBrace :: after)))) :
    ∃ body' rest, block bounds ts = { value := some body', issues := [], rest } ∧
      (body' == body) = true ∧ Covers rest after := by
  have hempty : body = [] → lead body = [] := by
    rintro rfl
    rfl
  rcases components_text hbody (fun _ => not_endsBlock_blank) (fun _ => blank_of_mem_lead)
    (fun _ => blank_of_mem_lead) hempty (fun hne => beginsWith_lead hne _) rfl rfl hts with
    ⟨run, l, rest, hread, -, hrun, hrest⟩
  refine ⟨trim run, rest, ?_, hrun, hrest⟩
  rw [block, hread]
  rfl

theorem atRule_text {rule : AtRule} (hr : rule.Printable bounds.limit)
    (hl : rule.block ≠ none → bounds.limit ≠ 0) (hts : Covers ts (rule.text ++ after)) :
    ∃ keyword ls rule' rest, ts = keyword :: ls ∧ keyword.kind = .atKeyword ∧
      atRule bounds keyword.value ls = { value := some rule', issues := [], rest } ∧
      Rule.Same (.atRule rule') (.atRule rule) ∧ Covers rest after := by
  rcases rule with ⟨name, header, body⟩
  have hname := hr.keyword
  have hformed : Formed (plain .atKeyword name) :=
    Formed.name rfl hname.ne_nil hname.not_zero
  have hkeyword (text : Bytes) (htext : continuesName text = false) :
      Reads (Byte.commercialAt :: (name ++ text)) (plain .atKeyword name) text := by
    have hreads := hformed.reads_toCss htext
    rw [toCss, plain, hname.plain] at hreads
    exact hreads
  have hempty : header = [] → lead header = [] := by
    rintro rfl
    rfl
  cases body with
  | none =>
      have htext : AtRule.text ⟨name, header, none⟩ ++ after = Byte.commercialAt :: (name ++
          (lead header ++ (serialize header ++ ([] ++ Byte.semicolon :: after)))) := by
        rw [← lead_append, AtRule.text]
        simp
      rw [htext] at hts
      rcases hts.cons (hkeyword _ (not_continues_lead rfl (by decide) header after)) with
        ⟨keyword, ls, rfl, hk, hls⟩
      have hvalue : keyword.value = name := congrArg Token.value hk
      rcases components_text hr.header (fun _ => not_endsHeader_blank)
        (fun _ => blank_of_mem_lead) (fun b hb => by cases hb) hempty (fun _ => rfl) rfl rfl hls
        with ⟨run, l, rest, hread, hsemicolon, hrun, hrest⟩
      refine ⟨keyword, ls, ⟨keyword.value, trim run, none⟩, rest, rfl,
        congrArg Token.kind hk, ?_, AtRule.same_of_parts hvalue hrun rfl, hrest⟩
      rw [atRule, hread]
      simp only [hsemicolon, if_true]
  | some body =>
      have htext : AtRule.text ⟨name, header, some body⟩ ++ after =
          Byte.commercialAt :: (name ++ (lead header ++ (serialize header ++ ([Byte.space] ++
            Byte.leftBrace :: (lead body ++ (serialize body ++ (lead body ++
              Byte.rightBrace :: after))))))) := by
        rw [← lead_append_lead, ← lead_append, AtRule.text]
        simp
      rw [htext] at hts
      rcases hts.cons (hkeyword _ (not_continues_lead rfl (by decide) header _)) with
        ⟨keyword, ls, rfl, hk, hls⟩
      have hvalue : keyword.value = name := congrArg Token.value hk
      have hspace : ∀ b ∈ [Byte.space], isBlank b = true := by
        intro b hb
        rw [List.mem_singleton.mp hb]
        rfl
      rcases components_text hr.header (fun _ => not_endsHeader_blank)
        (fun _ => blank_of_mem_lead) hspace hempty (fun _ => rfl) rfl rfl hls with
        ⟨run, l, ms, hread, hbrace, hrun, hms⟩
      rcases block_text (hr.block body rfl) hms with ⟨body', rest, hblock, hbody, hrest⟩
      refine ⟨keyword, ls, ⟨keyword.value, trim run, some body'⟩, rest, rfl,
        congrArg Token.kind hk, ?_, AtRule.same_of_parts hvalue hrun hbody, hrest⟩
      rw [atRule, hread]
      simp only [hbrace, hl (Option.some_ne_none body), hblock, if_false, reduceCtorEq,
        Option.map_some]

end Parse

/-!
## Style rules
-/

namespace StyleRule

structure Printable (limit : Nat) (rule : StyleRule) : Prop where
  selectors_ne_nil : rule.selectors ≠ []
  wellFormed : ∀ s ∈ rule.selectors, s.WellFormed
  depth : ∀ s ∈ rule.selectors, s.depth ≤ limit
  declarations : ∀ d ∈ rule.declarations, d.Printable limit

end StyleRule

namespace Declaration

theorem beq_of_forall {ds ds' : List Declaration} (h : List.Forall₂ Same ds ds') :
    (ds == ds') = true := by
  induction h with
  | nil => rfl
  | cons hd h ih =>
      rw [List.cons_beq_cons, hd.beq, ih]
      rfl

theorem blockText_eq_of_forall {ds ds' : List Declaration} (h : List.Forall₂ Same ds ds') :
    Parse.blockText ds = Parse.blockText ds' ∧ ds.isEmpty = ds'.isEmpty := by
  induction h with
  | nil =>
      constructor
      · rfl
      · rfl
  | cons hd h ih =>
      constructor
      · rw [Parse.blockText, Parse.blockText, List.flatMap_cons, List.flatMap_cons, hd.text]
        exact congrArg (_ ++ ·) ih.1
      · rfl

end Declaration

namespace StyleRule

def lineBreak (ds : List Declaration) : Bytes :=
  if ds.isEmpty then [] else [Byte.newline]

theorem text_append (rule : StyleRule) (after : Bytes) : rule.text ++ after =
    SelectorGroup.text rule.selectors ++ (Byte.space :: Byte.leftBrace ::
      (Parse.blockText rule.declarations ++ (lineBreak rule.declarations ++
        Byte.rightBrace :: after))) := by
  rw [text, Parse.blockText, lineBreak]
  simp

theorem same_of_parts {r r' : StyleRule}
    (hselectors : SelectorGroup.Same r.selectors r'.selectors)
    (hdeclarations : List.Forall₂ Declaration.Same r.declarations r'.declarations) :
    Rule.Same (.style r) (.style r') where
  beq := by
    show (r.selectors == r'.selectors && r.declarations == r'.declarations) = true
    rw [hselectors.beq, Declaration.beq_of_forall hdeclarations]
    rfl
  text := by
    show r.text = r'.text
    rcases Declaration.blockText_eq_of_forall hdeclarations with ⟨hblock, hempty⟩
    rw [← List.append_nil r.text, ← List.append_nil r'.text, text_append, text_append,
      hselectors.text_eq, hblock, lineBreak, lineBreak, hempty]

end StyleRule

namespace Parse

open Selector Lexeme

variable {bounds : Bounds} {ts : List Lexeme} {after : Bytes}

theorem ruleBody_text {ds : List Declaration} (hds : ∀ d ∈ ds, d.Printable bounds.limit)
    (hts : Covers ts (blockText ds ++ (StyleRule.lineBreak ds ++ Byte.rightBrace :: after)))
    (group : SelectorGroup) :
    ∃ ds' rest, ruleBody bounds group ts =
        { value := some ⟨group, ds'⟩, issues := [], rest } ∧
      List.Forall₂ Declaration.Same ds' ds ∧ Covers rest after := by
  have hgap : ∀ b ∈ StyleRule.lineBreak ds, isBlank b = true := by
    intro b hb
    unfold StyleRule.lineBreak at hb
    split at hb
    · cases hb
    · rw [List.mem_singleton.mp hb]
      rfl
  rcases declarations_text hds hgap hts with ⟨ds', brace, rest, hread, hbrace, hsame, hrest⟩
  refine ⟨ds', rest, ?_, hsame, hrest⟩
  rw [ruleBody, hread]
  simp only [dropInsignificant_self (l := brace) (by rw [hbrace]; rfl), hbrace, if_true]

theorem styleRule_text {rule : StyleRule} (hr : rule.Printable bounds.limit)
    (hts : Covers ts (rule.text ++ after)) :
    ∃ l ls rule' rest, ts = l :: ls ∧ opensSelector l.toToken = true ∧
      styleRule bounds ts = { value := some rule', issues := [], rest } ∧
      Rule.Same (.style rule') (.style rule) ∧ Covers rest after := by
  rcases rule with ⟨group, ds⟩
  rw [StyleRule.text_append] at hts
  cases group with
  | nil => exact absurd rfl hr.selectors_ne_nil
  | cons s more =>
      have hcloses : Closes (Byte.space :: Byte.leftBrace ::
          (blockText ds ++ (StyleRule.lineBreak ds ++ Byte.rightBrace :: after))) :=
        Or.inr ⟨_, rfl⟩
      rcases groupText_cons s more hcloses with ⟨tail, htail, hstops, -⟩
      rcases reads_text (hr.wellFormed s List.mem_cons_self) (fun _ => ends_of_stops hstops s) with
        ⟨t, bs, hreads, hopens⟩
      rcases alternatives_text bounds hr.wellFormed hr.depth hcloses hts with
        ⟨group', ms, hread, hgroup, hms⟩
      rcases hms.cons (reads_space rfl _) with ⟨space, ns, rfl, hspace, hns⟩
      rcases hns.cons (Reads.punctuation rfl) with ⟨brace, os, rfl, hl, hos⟩
      have hks : space.kind = .whitespace := congrArg Token.kind hspace
      have hkb : brace.kind = .leftBrace := congrArg Token.kind hl
      rcases ruleBody_text hr.declarations hos group' with ⟨ds', rest, hbody, hdeclarations, hrest⟩
      rw [htail] at hts
      rcases hts.cons hreads with ⟨l, ls, rfl, rfl, -⟩
      have hfront : ruleSelectors bounds (l :: ls) = alternatives bounds (l :: ls) := by
        rw [ruleSelectors, if_neg]
        intro hk
        have hends := (open_spec hopens).2.1
        rw [show l.kind = .leftBrace from hk] at hends
        cases hends
      refine ⟨l, ls, ⟨group', ds'⟩, rest, rfl, hopens, ?_,
        StyleRule.same_of_parts hgroup hdeclarations, hrest⟩
      rw [styleRule, hfront, hread, dropBlank_whitespace hks,
        dropBlank_self (by rw [hkb]; rfl)]
      simp only [dropInsignificant_self (l := brace) (by rw [hkb]; rfl), hkb, hbody, if_true,
        List.nil_append]

end Parse

/-!
## Sheets

One step of reading a sheet takes the text of one rule, so a sheet is read back rule by rule.
-/

namespace Rule

def Printable (limit : Nat) : Rule → Prop
  | style rule => rule.Printable limit
  | atRule rule => rule.Printable limit

end Rule

namespace Sheet

def tail (sheet : Sheet) : Bytes :=
  Byte.newline :: if sheet.isEmpty then [] else Byte.newline :: text sheet

theorem text_cons (r : Rule) (sheet : Sheet) : text (r :: sheet) = r.text ++ tail sheet := by
  cases sheet with
  | nil =>
      rw [text, List.map_singleton, List.intercalate_singleton]
      rfl
  | cons r' sheet =>
      rw [text, List.map_cons, List.map_cons, List.intercalate_cons_cons]
      simp [tail, text]

theorem tail_eq (sheet : Sheet) :
    ∃ gap, (∀ b ∈ gap, isBlank b = true) ∧ tail sheet = gap ++ text sheet := by
  cases sheet with
  | nil =>
      refine ⟨[Byte.newline], ?_, rfl⟩
      intro b hb
      rw [List.mem_singleton.mp hb]
      rfl
  | cons r sheet =>
      refine ⟨[Byte.newline, Byte.newline], ?_, rfl⟩
      intro b hb
      rw [List.mem_cons, List.mem_singleton, or_self] at hb
      rw [hb]
      rfl

theorem beq_of_forall {sheet sheet' : Sheet} (h : List.Forall₂ Rule.Same sheet sheet') :
    (sheet == sheet') = true := by
  induction h with
  | nil => rfl
  | cons hr h ih =>
      rw [List.cons_beq_cons, hr.beq, ih]
      rfl

theorem text_eq_of_forall {sheet sheet' : Sheet} (h : List.Forall₂ Rule.Same sheet sheet') :
    text sheet = text sheet' := by
  have hmap : (sheet.map fun r => r.text ++ [Byte.newline]) =
      sheet'.map fun r => r.text ++ [Byte.newline] := by
    induction h with
    | nil => rfl
    | cons hr h ih => rw [List.map_cons, List.map_cons, hr.text, ih]
  exact congrArg [Byte.newline].intercalate hmap

end Sheet

namespace Parse

open Selector Lexeme

variable {bounds : Bounds} {ts : List Lexeme} {after : Bytes}

theorem rules_step {rule : Rule} (hr : rule.Printable bounds.limit) (hl : bounds.limit ≠ 0)
    (hts : Covers ts (rule.text ++ after)) :
    ∃ rule' rest, rulesAfter bounds (dropInsignificant ts) =
        consRule (some rule') [] (rules bounds rest) ∧
      Rule.Same rule' rule ∧ Covers rest after ∧
      beginsWith isBlank (rule.text ++ after) = false := by
  cases rule with
  | style rule =>
      rcases styleRule_text hr hts with ⟨l, ls, rule', rest, rfl, hopens, hread, hsame, hrest⟩
      have hinsignificant := (open_spec hopens).1
      have hwhitespace : l.kind ≠ .whitespace := by
        intro hk
        rw [hk] at hinsignificant
        cases hinsignificant
      have hbrace : l.kind ≠ .rightBrace := by
        intro hk
        rw [opensSelector, isDelim, isDelim, hk] at hopens
        cases hopens
      have hkeyword : l.kind ≠ .atKeyword := by
        intro hk
        rw [opensSelector, isDelim, isDelim, hk] at hopens
        cases hopens
      refine ⟨.style rule', rest, ?_, hsame, hrest, hts.not_blank hwhitespace⟩
      rw [dropInsignificant_self hinsignificant, rulesAfter, if_neg hbrace, if_neg hkeyword]
      simp only [hread]
  | atRule rule =>
      rcases atRule_text hr (fun _ => hl) hts with
        ⟨l, ls, rule', rest, rfl, hk, hread, hsame, hrest⟩
      have hwhitespace : l.kind ≠ .whitespace := by
        rw [hk]
        intro h
        cases h
      refine ⟨.atRule rule', rest, ?_, hsame, hrest, hts.not_blank hwhitespace⟩
      rw [dropInsignificant_self (by rw [hk]; rfl), rulesAfter, hk, hread]
      rfl

variable (bounds) in
/-- A sheet is read back rule by rule. -/
theorem rules_text {sheet : Sheet} {gap : Bytes} (hs : ∀ r ∈ sheet, r.Printable bounds.limit)
    (hl : bounds.limit ≠ 0) (hgap : ∀ b ∈ gap, isBlank b = true)
    (hts : Covers ts (gap ++ Sheet.text sheet)) :
    ∃ sheet', rules bounds ts = { value := sheet', issues := [], rest := [] } ∧
      List.Forall₂ Rule.Same sheet' sheet := by
  induction sheet generalizing ts gap with
  | nil =>
      rcases hts.gap hgap (fun _ => rfl) with ⟨spaces, ls, rfl, hspaces, hls⟩
      refine ⟨[], ?_, List.Forall₂.nil⟩
      rw [rules_eq, dropInsignificant_spaces hspaces, hls.eq_nil]
      rfl
  | cons r sheet ih =>
      have hr := hs r List.mem_cons_self
      rw [Sheet.text_cons] at hts
      rcases rules_step hr hl (covers_ofText (r.text ++ Sheet.tail sheet)) with
        ⟨_, _, -, -, -, hblank⟩
      rcases hts.gap hgap (fun _ => hblank) with ⟨spaces, ls, rfl, hspaces, hls⟩
      rcases rules_step hr hl hls with ⟨r', rest, hread, hsame, hrest, -⟩
      rcases Sheet.tail_eq sheet with ⟨gap', hgap', htail⟩
      rw [htail] at hrest
      rcases ih (fun r' hr' => hs r' (List.mem_cons_of_mem r hr')) hgap' hrest with
        ⟨sheet', hrules, hsames⟩
      refine ⟨r' :: sheet', ?_, List.Forall₂.cons hsame hsames⟩
      rw [rules_eq, dropInsignificant_spaces hspaces, hread, hrules]
      rfl

end Parse

end CssText
