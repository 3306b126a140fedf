import CssText.Proofs.Parse.Accepted
import CssText.Proofs.Parse.Isolation
import CssText.Proofs.Token.Tiling

/-!
# A rule is read from its parts

A selector group and a declaration list that are read without an issue, each as a text of its
own, make a rule when braces are put around the declarations. The group then ends before a
brace and not at the end of the input, and so does the list, which leaves its brace to the rule.
-/

namespace CssText

namespace Frame

open Parse

variable (F : Frame)

/-- The right brace that closes a block stands where the part ends. -/
def Braced : Prop :=
  ∃ l more, F.after = l :: more ∧ l.kind = .rightBrace ∧
    l.start = F.inner.final.start + F.move.bytes

variable {F}

theorem Braced.front_start (h : F.Braced) (ts : List Lexeme) :
    (F.outer.front (F.run ts)).start = (F.inner.front ts).start + F.move.bytes := by
  cases ts with
  | nil =>
      rcases h with ⟨l, more, hafter, -, hstart⟩
      rw [run, hafter]
      exact hstart
  | cons t ts => rfl

theorem Braced.balanced (h : F.Braced) {ts run : List Lexeme}
    (hv : (Parse.balanced F.inner [] ts).1 = .ok run) :
    Parse.balanced F.outer [] (F.run ts) =
      (.ok (run.map F.move.lexeme), F.run (Parse.balanced F.inner [] ts).2) := by
  have hstop : ∃ l rest, F.run (Parse.balanced F.inner [] ts).2 = l :: rest ∧
      endsValue l.kind = true := by
    have hinner := balanced_stop hv
    cases hrest : (Parse.balanced F.inner [] ts).2 with
    | nil =>
        rcases h with ⟨l, more, hafter, hk, -⟩
        exact ⟨l, more, hafter, by rw [hk]; rfl⟩
    | cons l rest =>
        rw [hrest] at hinner
        exact ⟨F.move.lexeme l, F.run rest, rfl, hinner l rfl⟩
  rcases hstop with ⟨l, rest, hrest, hl⟩
  have hbalances : balances F.outer.limit [] (Lexeme.kinds (run.map F.move.lexeme)) = true := by
    have hkinds : Lexeme.kinds (run.map F.move.lexeme) = Lexeme.kinds run := by
      rw [Lexeme.kinds, List.map_map]
      rfl
    rw [hkinds, F.limit]
    exact balances_of_balanced hv
  have hsplit : F.run ts = run.map F.move.lexeme ++ l :: rest := by
    rw [← hrest, Frame.run, Frame.run, ← List.append_assoc, ← List.map_append,
      ← balanced_append hv]
  rw [hrest, hsplit]
  apply balanced_of_balances hbalances
  rintro _ ⟨⟩
  exact hl

theorem Braced.declaration (h : F.Braced) {property : Lexeme} {ts after : List Lexeme}
    {d : Declaration} (hd : Parse.declaration F.inner property ts = (.ok d, after)) :
    Parse.declaration F.outer (F.move.lexeme property) (F.run ts) =
      (.ok (F.move.declaration d), F.run after) := by
  rcases declaration_iff.mp hd with ⟨colon, rest, run, hts, hcolon, hvalue, rfl⟩
  have hread := h.balanced (congrArg Prod.fst hvalue)
  rw [hvalue] at hread
  apply declaration_iff.mpr
  exact ⟨F.move.lexeme colon, F.run rest, run.map F.move.lexeme, F.dropBlank_cons hts, hcolon,
    hread, (valued_map F.move property run (h.front_start after)).symm⟩

theorem Braced.dropBlank (h : F.Braced) {ts : List Lexeme} (hts : Parse.dropBlank ts = []) :
    Parse.dropBlank (F.run ts) = F.after := by
  rcases h with ⟨l, more, hafter, hk, -⟩
  have hblank : l.kind.isBlank = false := by
    rw [hk]
    rfl
  rw [Parse.dropBlank, F.dropWhile_after Kind.isBlank hts, hafter]
  exact dropBlank_self hblank more

/-- A list that is read without an issue is read in a block, up to its brace. -/
theorem Braced.declarations (h : F.Braced) (ts : List Lexeme)
    (hi : (Parse.declarations F.inner false ts).issues = []) :
    Parse.declarations F.outer true (F.run ts) =
      { value := (Parse.declarations F.inner false ts).value.map F.move.declaration
        issues := []
        rest := F.after } := by
  induction hn : ts.length using Nat.strongRecOn generalizing ts with
  | ind n ih =>
      subst hn
      rw [declarations_eq] at hi ⊢
      rw [declarations_eq]
      cases hts : Parse.dropBlank ts with
      | nil =>
          rw [h.dropBlank hts]
          rcases h with ⟨l, more, hafter, hk, -⟩
          simp only [hafter, declarationsAfter, hk, if_true]
          rfl
      | cons l rest =>
          have hlt : rest.length < ts.length := length_lt_of_dropBlank hts
          rw [hts] at hi
          rw [F.dropBlank_cons hts]
          simp only [declarationsAfter, Shift.lexeme_toToken] at hi ⊢
          by_cases hbrace : l.kind = .rightBrace
          · simp only [hbrace, if_true, Bool.false_eq_true, if_false] at hi
            cases hi
          · simp only [hbrace, if_false] at hi ⊢
            by_cases hsep : separatesDeclarations l.kind = true
            · simp only [hsep, if_true] at hi ⊢
              exact ih _ hlt rest hi rfl
            · simp only [hsep, Bool.false_eq_true, if_false] at hi ⊢
              by_cases hid : l.kind = .ident
              · simp only [hid, if_true] at hi ⊢
                rcases hd : Parse.declaration F.inner l rest with ⟨result, after⟩
                rw [hd] at hi
                cases result with
                | error fault => cases hi
                | ok d =>
                    have hmore := ih _ (length_declaration_lt hlt hd) after hi rfl
                    simp only [h.declaration hd, hmore]
                    rfl
              · simp only [hid, if_false] at hi
                cases hi

end Frame

/-!
## The lexemes of the whole rule

The lexemes of a rule are those of its selectors, a left brace and those of its block.
-/

namespace Shift

theorem selector_zero (s : Selector) : (Shift.mk 0 0).selector s = s := by
  induction s with
  | pseudoFunction name args => exact congrArg (Selector.pseudoFunction name) (List.map_id args)
  | negation name inner ih => exact congrArg (Selector.negation name) ih
  | combine how left right ihl ihr => rw [selector, ihl, ihr]
  | _ => rfl

theorem lexeme_past (a b : Bytes) (l : Lexeme) :
    (past a).lexeme ((past b).lexeme l) = (past (a ++ b)).lexeme l := by
  simp only [lexeme, past, List.count_append, List.length_append, Nat.add_comm, Nat.add_left_comm]

end Shift

namespace Lexeme

def mark (kind : Kind) (c : UInt8) : Lexeme :=
  { toToken := Token.plain kind [c], stop := 1 }

theorem ofText_mark {c : UInt8} {kind : Kind} (h : Token.punctuation? c = some kind)
    (rest : Bytes) :
    ofText (c :: rest) = mark kind c :: (ofText rest).map (Shift.past [c]).lexeme := by
  have hreads : Token.Reads ([c] ++ rest) (Token.plain kind [c]) rest :=
    Token.Reads.punctuation h
  have hlexemes := Cursor.lexemes_of_reads hreads 1 0
  rw [ofText]
  refine hlexemes.trans ?_
  exact congrArg (_ :: ·) (Cursor.lexemes_shift (Shift.past [c]) rest 1 0)

theorem exists_ofText {text : Bytes} {kind : Kind} {place : Nat} (hk : kind ≠ .endOfInput)
    (h : ∃ l ∈ tokenize text, l.kind = kind ∧ l.start = place) :
    ∃ l ∈ ofText text, l.start = place := by
  rcases h with ⟨l, hl, hkind, hstart⟩
  rcases List.mem_append.mp hl with hl | hl
  · exact ⟨l, hl, hstart⟩
  · rw [List.mem_singleton.mp hl] at hkind
    exact absurd hkind.symm hk

end Lexeme

def ruleText (s d : Bytes) : Bytes :=
  s ++ [Byte.leftBrace] ++ d ++ [Byte.rightBrace]

namespace Frame

def body (limit : Nat) (s d : Bytes) : Frame where
  inner := Bounds.ofText limit d
  outer := Bounds.ofText limit (ruleText s d)
  move := Shift.past (s ++ [Byte.leftBrace])
  after := [(Shift.past (s ++ [Byte.leftBrace] ++ d)).lexeme
    (Lexeme.mark .rightBrace Byte.rightBrace)]
  limit := rfl

theorem body_braced (limit : Nat) (s d : Bytes) : (body limit s d).Braced := by
  refine ⟨_, [], rfl, rfl, ?_⟩
  show 0 + (s ++ [Byte.leftBrace] ++ d).length = d.length + (s ++ [Byte.leftBrace]).length
  rw [List.length_append, Nat.zero_add, Nat.add_comm]

end Frame

theorem Lexeme.ofText_ruleText {s d : Bytes} (limit : Nat)
    (hopen : ∃ l ∈ tokenize (s ++ [Byte.leftBrace]), l.kind = .leftBrace ∧ l.start = s.length)
    (hclose : ∃ l ∈ tokenize (d ++ [Byte.rightBrace]),
      l.kind = .rightBrace ∧ l.start = d.length) :
    ofText (ruleText s d) = ofText s ++
      (Shift.past s).lexeme (mark .leftBrace Byte.leftBrace) ::
        (Frame.body limit s d).run (ofText d) := by
  have hbody : ofText (d ++ [Byte.rightBrace]) =
      ofText d ++ [(Shift.past d).lexeme (mark .rightBrace Byte.rightBrace)] := by
    rw [ofText_cut rfl (exists_ofText Kind.noConfusion hclose) (Token.halts_cons _ _),
      ofText_mark rfl]
    have hnil : ofText [] = [] := Cursor.lexemes_nil 1 0
    rw [hnil]
    rfl
  have hwhole : ruleText s d = s ++ Byte.leftBrace :: (d ++ [Byte.rightBrace]) := by
    rw [ruleText, List.append_assoc, List.append_assoc]
    rfl
  rw [hwhole, ofText_cut rfl (exists_ofText Kind.noConfusion hopen) (Token.halts_cons _ _),
    ofText_mark rfl, hbody]
  simp only [List.map_cons, List.map_append, List.map_map, Function.comp_def,
    Shift.lexeme_past, List.map_nil]
  rw [← List.append_assoc s]
  rfl

/-!
## The rule
-/

namespace SelectorGroup

theorem groupReads_of_parse {limit : Nat} {s : Bytes} (h : (parse limit s).errors = []) :
    Parse.GroupReads (Bounds.ofText limit s) (Lexeme.ofText s) (parse limit s).value [] := by
  have hissues : (parse limit s).issues = [] := List.map_eq_nil_iff.mp h
  unfold parse at hissues ⊢
  simp only at hissues ⊢
  have hi : (Parse.alternatives (Bounds.ofText limit s) (Lexeme.ofText s)).issues = [] := by
    split at hissues
    · exact hissues
    · split at hissues
      · exact hissues
      · exact absurd (List.append_eq_nil_iff.mp hissues).2 (List.cons_ne_nil _ _)
  rcases Parse.groupReads_of_alternatives hi with ⟨group, hgroup⟩
  have hbrace := hgroup.brace
  have hread := hgroup.alternatives_eq
  generalize (Parse.alternatives (Bounds.ofText limit s) (Lexeme.ofText s)).rest = rest
    at hgroup hbrace hread
  cases rest with
  | nil =>
      simp only [hread]
      exact hgroup
  | cons l rest =>
      have hl : l.kind.isBlank = false := by
        rw [hbrace l rfl]
        rfl
      simp only [hread, Parse.dropBlank_self hl] at hissues
      cases hissues

end SelectorGroup

namespace Parse

/-- A group in front of a block makes a rule with it. -/
theorem rules_styleRule {bounds bounds' : Bounds} {ts block : List Lexeme} {brace close : Lexeme}
    {group : SelectorGroup} {ds : List Declaration} (hlimit : bounds'.limit = bounds.limit)
    (hgroup : GroupReads bounds ts group []) (hbrace : brace.kind = .leftBrace)
    (hblock : declarations bounds' true block = { value := ds, issues := [], rest := [close] })
    (hclose : close.kind = .rightBrace) :
    rules bounds' (ts ++ brace :: block) =
      { value := [.style { selectors := group, declarations := ds }]
        issues := []
        rest := [] } := by
  have hdepth : ∀ s ∈ group, s.depth ≤ bounds'.limit := by
    rw [hlimit]
    exact hgroup.depth
  rcases hgroup.front with ⟨⟨l, more, hts, hl⟩, hfront⟩
  rw [hts] at hfront
  have hfollows : ∀ m ∈ (brace :: block).head?, m.kind = .leftBrace := by
    intro m hm
    cases hm
    exact hbrace
  have hread := (hfront.before bounds' hdepth hfollows).alternatives_eq
  have hkind (kind : Kind) (hk : beginsSelector kind = false) : l.kind ≠ kind := by
    rintro rfl
    rw [hl] at hk
    cases hk
  have hselectors : ruleSelectors bounds' (l :: (more ++ brace :: block)) =
      { value := some group, issues := [], rest := brace :: block } := by
    have hfirst : (bounds'.front (l :: (more ++ brace :: block))).kind ≠ .leftBrace :=
      hkind .leftBrace rfl
    rw [ruleSelectors, if_neg hfirst]
    exact hread
  have hsignificant : brace.kind.isInsignificant = false := by
    rw [hbrace]
    rfl
  have hrule := styleRule_eq hselectors (dropInsignificant_self hsignificant block) hbrace
    (congrArg Reading.rest hblock) hclose
  rw [hblock] at hrule
  rw [rules_eq, dropInsignificant_before hts, rulesAfter, if_neg (hkind .rightBrace rfl),
    if_neg (hkind .atKeyword rfl)]
  simp only [hrule, rules_eq bounds' [], dropInsignificant, List.dropWhile_nil, rulesAfter]
  rfl

end Parse

namespace Sheet

/--
A selector group and a declaration list that are read without an issue, and neither of which
runs on into the brace behind it, make a rule: the whole is read without an issue as a single
rule with these selectors and with these declarations, only further down.
-/
theorem parse_assembled (limit : Nat) (s d : Bytes)
    (hs : (SelectorGroup.parse limit s).errors = [])
    (hd : (Declaration.parseList limit d).errors = [])
    (hopen : ∃ l ∈ tokenize (s ++ [Byte.leftBrace]), l.kind = .leftBrace ∧ l.start = s.length)
    (hclose : ∃ l ∈ tokenize (d ++ [Byte.rightBrace]),
      l.kind = .rightBrace ∧ l.start = d.length) :
    (parse limit (s ++ [Byte.leftBrace] ++ d ++ [Byte.rightBrace])).errors = [] ∧
      ∃ rule, (parse limit (s ++ [Byte.leftBrace] ++ d ++ [Byte.rightBrace])).value =
          [.style rule] ∧
        rule.selectors = (SelectorGroup.parse limit s).value ∧
        (rule.selectors == (SelectorGroup.parse limit s).value) = true ∧
        rule.declarations = (Declaration.parseList limit d).value.map
          (Shift.past (s ++ [Byte.leftBrace])).declaration ∧
        (rule.declarations == (Declaration.parseList limit d).value) = true := by
  have hgroup := SelectorGroup.groupReads_of_parse hs
  have hblock := (Frame.body_braced limit s d).declarations (Lexeme.ofText d)
    (List.map_eq_nil_iff.mp hd)
  have hlimit : (Frame.body limit s d).outer.limit = (Bounds.ofText limit s).limit := rfl
  have hbrace : ((Shift.past s).lexeme (Lexeme.mark .leftBrace Byte.leftBrace)).kind =
      .leftBrace := rfl
  have hrules := Parse.rules_styleRule hlimit hgroup hbrace hblock rfl
  rw [← Lexeme.ofText_ruleText limit hopen hclose] at hrules
  have hparse : parse limit (ruleText s d) =
      { value := [.style
          { selectors := (SelectorGroup.parse limit s).value
            declarations := (Declaration.parseList limit d).value.map
              (Shift.past (s ++ [Byte.leftBrace])).declaration }]
        issues := [] } :=
    congrArg (fun r : Reading Sheet => Parsed.mk r.value r.issues) hrules
  rw [ruleText] at hparse
  rw [hparse]
  refine ⟨rfl, _, rfl, rfl, ?_, rfl, ?_⟩
  · have hself := Shift.map_beq fun t ht => (Shift.mk 0 0).selector_beq
      ((Parse.alternatives_runs (congrArg Reading.value hgroup.alternatives_eq) t ht).mono
        fun run hrun => (Lexeme.regular_ofText s).mono hrun.subset)
    rw [List.map_congr_left fun t _ => Shift.selector_zero t, List.map_id'] at hself
    exact hself
  · apply Shift.map_beq
    intro e he
    apply Shift.declaration_beq
    have hruns := Parse.declarations_runs (Bounds.ofText limit d) false (Lexeme.ofText d) e he
    exact hruns.mono fun run hrun => (Lexeme.regular_ofText d).mono hrun.subset

/-- Brackets keep the semicolons and the brace in them from ending anything. -/
theorem parse_assembled_brackets :
    ((SelectorGroup.parse 3 (ascii "a>b:x(;)")).errors = [] ∧
      (Declaration.parseList 3 (ascii "p:f([;\x7b\x7d]) q;r:s")).errors = []) ∧
    (parse 3 (ascii "a>b:x(;)" ++ [Byte.leftBrace] ++ ascii "p:f([;\x7b\x7d]) q;r:s" ++
        [Byte.rightBrace])).errors = [] ∧
      ∃ rule, (parse 3 (ascii "a>b:x(;)" ++ [Byte.leftBrace] ++
          ascii "p:f([;\x7b\x7d]) q;r:s" ++ [Byte.rightBrace])).value = [.style rule] ∧
        rule.selectors = (SelectorGroup.parse 3 (ascii "a>b:x(;)")).value ∧
        (rule.selectors == (SelectorGroup.parse 3 (ascii "a>b:x(;)")).value) = true ∧
        rule.declarations =
          (Declaration.parseList 3 (ascii "p:f([;\x7b\x7d]) q;r:s")).value.map
            (Shift.past (ascii "a>b:x(;)" ++ [Byte.leftBrace])).declaration ∧
        (rule.declarations ==
          (Declaration.parseList 3 (ascii "p:f([;\x7b\x7d]) q;r:s")).value) = true := by
  have hs : (SelectorGroup.parse 3 (ascii "a>b:x(;)")).errors = [] := by
    decide +kernel
  have hd : (Declaration.parseList 3 (ascii "p:f([;\x7b\x7d]) q;r:s")).errors = [] := by
    decide +kernel
  exact ⟨⟨hs, hd⟩, parse_assembled 3 _ _ hs hd (by decide +kernel) (by decide +kernel)⟩

end Sheet

end CssText
