import CssText.Proofs.Parse.Steps

/-!
# Readers walk forward

A reader sees the lexeme in front and nothing before it. It passes over it, or it raises an
issue about it and goes on from there. So its issues stand in the order of the text, however
often it fails and wherever it takes up reading again (`Walk.order`). Every production makes
such a walk from the lexemes it was given to those it leaves.
-/

namespace CssText
namespace Parse

/-- A walk through lexemes, the issues that are raised on it and the lexemes where it ends. -/
inductive Walk (bounds : Bounds) : List Lexeme → List Issue → List Lexeme → Prop where
  | stay (ts : List Lexeme) : Walk bounds ts [] ts
  | pass (l : Lexeme) {ts rest : List Lexeme} {issues : List Issue}
      (more : Walk bounds ts issues rest) : Walk bounds (l :: ts) issues rest
  | raise (complaint : Complaint) (ts : List Lexeme) {rest : List Lexeme} {issues : List Issue}
      (more : Walk bounds ts issues rest) :
      Walk bounds ts (⟨complaint, bounds.front ts⟩ :: issues) rest

variable {bounds : Bounds} {ts us rest : List Lexeme} {issues issues' : List Issue}

theorem Walk.trans (h : Walk bounds ts issues us) (h' : Walk bounds us issues' rest) :
    Walk bounds ts (issues ++ issues') rest := by
  induction h with
  | stay ts => exact h'
  | pass l more ih => exact Walk.pass l (ih h')
  | raise complaint ts more ih => exact Walk.raise complaint ts (ih h')

theorem Walk.of_suffix (h : rest <:+ ts) : Walk bounds ts [] rest := by
  rcases h with ⟨passed, rfl⟩
  induction passed with
  | nil => exact Walk.stay rest
  | cons l passed ih => exact Walk.pass l ih

theorem Walk.after (h : Walk bounds us issues rest) (hs : us <:+ ts) :
    Walk bounds ts issues rest :=
  (Walk.of_suffix hs).trans h

theorem Walk.before (h : Walk bounds ts issues us) (hs : rest <:+ us) :
    Walk bounds ts issues rest := by
  have hwalk := h.trans (Walk.of_suffix hs)
  rw [List.append_nil] at hwalk
  exact hwalk

theorem Walk.blame (complaint : Complaint) (ts : List Lexeme) (h : rest <:+ ts) :
    Walk bounds ts [⟨complaint, bounds.front ts⟩] rest :=
  Walk.raise complaint ts (Walk.of_suffix h)

/-!
## Where issues stand
-/

theorem front_mem (bounds : Bounds) (ts : List Lexeme) :
    bounds.front ts ∈ ts ++ [bounds.final] := by
  cases ts with
  | nil => exact List.mem_singleton_self _
  | cons l ts => exact List.mem_cons_self

theorem Walk.place_mem (h : Walk bounds ts issues rest) :
    ∀ i ∈ issues, i.place ∈ ts ++ [bounds.final] := by
  induction h with
  | stay ts =>
      intro i hi
      cases hi
  | pass l more ih =>
      intro i hi
      exact List.mem_cons_of_mem l (ih i hi)
  | raise complaint ts more ih =>
      intro i hi
      rcases List.mem_cons.mp hi with rfl | hi
      · exact front_mem bounds ts
      · exact ih i hi

/-- Every lexeme begins before those that follow it, and before the end of the input. -/
def Ascending (bounds : Bounds) (ts : List Lexeme) : Prop :=
  (ts ++ [bounds.final]).Pairwise fun l m => l.start < m.start

theorem Ascending.mono (h : Ascending bounds ts) (hs : rest <:+ ts) : Ascending bounds rest :=
  List.Pairwise.sublist (hs.sublist.append_right [bounds.final]) h

theorem Ascending.front_le (h : Ascending bounds ts) :
    ∀ l ∈ ts ++ [bounds.final], (bounds.front ts).start ≤ l.start := by
  intro l hl
  cases ts with
  | nil =>
      rw [List.mem_singleton.mp hl]
      exact Nat.le_refl _
  | cons m ts =>
      rcases List.mem_cons.mp hl with rfl | hl
      · exact Nat.le_refl _
      · exact Nat.le_of_lt ((List.pairwise_cons.mp h).1 l hl)

theorem Ascending.lt_front {l : Lexeme} (h : Ascending bounds (l :: ts)) (hs : rest <:+ ts) :
    l.start < (bounds.front rest).start := by
  have hmem := front_mem bounds rest
  have hsub := (hs.sublist.append_right [bounds.final]).subset hmem
  exact (List.pairwise_cons.mp h).1 _ hsub

/-- The issues of a walk stand one after the other, or at the same place. -/
theorem Walk.order (h : Walk bounds ts issues rest) (hts : Ascending bounds ts) :
    issues.Pairwise fun i j => i.place.start ≤ j.place.start := by
  induction h with
  | stay ts => exact List.Pairwise.nil
  | pass l more ih => exact ih (hts.mono (List.suffix_cons l _))
  | raise complaint ts more ih =>
      refine List.Pairwise.cons ?_ (ih hts)
      intro i hi
      exact hts.front_le i.place (more.place_mem i hi)

/-!
## Selectors

A chain walks from its place, which stands in front of it or before it.
-/

theorem reject_walk (production : Production) (wanted : Wanted) (ts : List Lexeme) :
    Walk bounds ts (reject bounds production wanted ts).issues
      (reject bounds production wanted ts).rest :=
  Walk.blame _ _ (passUnlessEnd_suffix ts)

theorem attributeSelector_walk (ts : List Lexeme) :
    Walk bounds ts (attributeSelector bounds ts).issues (attributeSelector bounds ts).rest := by
  rcases attributeSelector_cases bounds ts with
    ⟨wanted, us, hus, hread⟩ | ⟨name, after, test, value, rest, hts, -, hrest, -, -, hread⟩
  · rw [hread]
    exact (reject_walk _ _ us).after hus
  · rw [hread]
    exact Walk.of_suffix (hrest.trans (suffix_of_dropBlank hts))

theorem pseudoFunction_walk (name : Bytes) (ts : List Lexeme) :
    Walk bounds ts (pseudoFunction bounds name ts).issues
      (pseudoFunction bounds name ts).rest := by
  have hs := arguments_suffix 0 ts
  rcases pseudoFunction_cases bounds name ts with ⟨args, -, hread⟩ | hread
  · rw [hread]
    exact Walk.of_suffix hs
  · rw [hread]
    exact (Walk.blame _ _ (List.suffix_refl _)).after hs

theorem negation_walk (name : Bytes) {inner : Reading Selector}
    (h : Walk bounds ts inner.issues inner.rest) :
    Walk bounds ts (negation bounds name inner).issues (negation bounds name inner).rest := by
  rcases negation_cases bounds name inner with ⟨us, hus, hread⟩ | ⟨rest, hrest, hread⟩
  · rw [hread]
    exact h.trans ((reject_walk (.functionSelector name) .closeParen us).after hus)
  · rw [hread]
    exact h.before hrest

theorem className_walk (ts : List Lexeme) :
    Walk bounds ts (className bounds ts).issues (className bounds ts).rest := by
  rcases className_cases bounds ts with hread | ⟨name, rest, rfl, -, hread⟩
  · rw [hread]
    exact reject_walk _ _ ts
  · rw [hread]
    exact Walk.of_suffix (List.suffix_cons name rest)

theorem simple_walk (depth : Nat) (ts : List Lexeme) :
    Walk bounds ts (simple bounds depth ts).issues (simple bounds depth ts).rest := by
  fun_induction simple bounds depth ts with
  | case1 depth ts h => exact (reject_walk _ _ []).after List.nil_suffix
  | case2 depth ts l rest h hk => exact Walk.of_suffix (suffix_of_dropInsignificant h)
  | case3 depth ts l rest h hk => exact Walk.of_suffix (suffix_of_dropInsignificant h)
  | case4 depth ts l rest h hk =>
      exact (attributeSelector_walk rest).after (suffix_of_dropInsignificant h)
  | case5 depth ts l hk h => exact (reject_walk _ _ []).after List.nil_suffix
  | case6 depth ts l hk name rest hn h =>
      exact Walk.of_suffix ((List.suffix_cons name rest).trans (suffix_of_dropInsignificant h))
  | case7 ts l hk name rest hn hf hname h =>
      exact (Walk.blame _ (name :: rest) (List.suffix_cons name rest)).after
        (suffix_of_dropInsignificant h)
  | case8 ts l hk name rest hn hf hname depth h ih =>
      exact (negation_walk _ ih).after
        ((List.suffix_cons name rest).trans (suffix_of_dropInsignificant h))
  | case9 depth ts l hk name rest hn hf hname h =>
      exact (pseudoFunction_walk _ rest).after
        ((List.suffix_cons name rest).trans (suffix_of_dropInsignificant h))
  | case10 depth ts l hk name rest hn hf h =>
      exact (reject_walk _ _ _).after (suffix_of_dropInsignificant h)
  | case11 depth ts l rest h hd => exact Walk.of_suffix (suffix_of_dropInsignificant h)
  | case12 depth ts l rest h hd hd' =>
      exact (className_walk rest).after (suffix_of_dropInsignificant h)
  | case13 depth ts l rest h hd hd' =>
      exact (reject_walk _ _ _).after (h ▸ dropInsignificant_suffix ts)

theorem link?_place {link : Link} (h : link? ts = some link) :
    bounds.front (dropBlank ts) = link.place ∧ link.rest <:+ dropBlank ts := by
  unfold link? at h
  split at h
  · cases h
  · rename_i l rest hl
    rw [hl]
    repeat' split at h
    all_goals cases h
    all_goals first
      | exact ⟨rfl, List.suffix_refl _⟩
      | exact ⟨rfl, List.suffix_cons l rest⟩

theorem chain_walk (depth : Nat) {place : Lexeme} (hplace : bounds.front us = place)
    (hs : ts <:+ us) :
    Walk bounds us (chain bounds depth place ts).issues (chain bounds depth place ts).rest := by
  induction depth generalizing place us ts with
  | zero =>
      rw [← hplace]
      exact Walk.blame _ _ hs
  | succ depth ih =>
      have hfirst := (@simple_walk bounds depth ts).after hs
      unfold chain
      simp only
      split
      · exact hfirst.before (dropBlank_suffix _)
      · rename_i link hlink
        rcases @link?_place bounds _ _ hlink with ⟨hfront, hrest⟩
        exact hfirst.trans ((ih hfront hrest).after (dropBlank_suffix _))

theorem alternatives_walk (ts : List Lexeme) :
    Walk bounds ts (alternatives bounds ts).issues (alternatives bounds ts).rest := by
  have hchain (ts : List Lexeme) :
      Walk bounds ts (chain bounds bounds.limit (bounds.front ts) ts).issues
        (chain bounds bounds.limit (bounds.front ts) ts).rest :=
    chain_walk bounds.limit rfl (List.suffix_refl ts)
  fun_induction alternatives bounds ts with
  | case1 ts first hv => exact hchain ts
  | case2 ts first selector hv h => exact (hchain ts).before List.nil_suffix
  | case3 ts first selector hv l rest h hk => exact h ▸ hchain ts
  | case4 ts first selector hv l rest h hk hk' hlt more ih =>
      have hrest : dropInsignificant rest <:+ first.rest := by
        rw [h]
        exact (dropInsignificant_suffix rest).trans (List.suffix_cons l rest)
      exact (hchain ts).trans (ih.after hrest)
  | case5 ts first selector hv l rest h hk hk' =>
      have hfirst : Walk bounds ts first.issues (l :: rest) := h ▸ hchain ts
      exact hfirst.trans (Walk.blame _ (l :: rest) (List.suffix_cons l rest))

/-!
## At-rules
-/

theorem components_walk (around : List Bracket) (ends : Kind → Bool) (opened : List Bracket)
    (ts : List Lexeme) :
    Walk bounds ts (components bounds around ends opened ts).issues
      (components bounds around ends opened ts).rest := by
  refine components_induction (motive := fun ts r => Walk bounds ts r.issues r.rest)
    opened ts ?missing ?stop ?take ?refuse
  case missing =>
    intro opened
    exact Walk.blame _ [] List.nil_suffix
  case stop =>
    intro l rest hl
    exact Walk.stay (l :: rest)
  case take =>
    intro l rest more ih
    exact Walk.pass l ih
  case refuse =>
    intro l rest
    exact Walk.blame _ (l :: rest) (List.suffix_refl _)

theorem block_walk (ts : List Lexeme) :
    Walk bounds ts (block bounds ts).issues (block bounds ts).rest := by
  have hbody := @components_walk bounds [.curly] endsBlock [] ts
  unfold block
  simp only
  split
  · exact hbody
  · exact Walk.of_suffix ((List.tail_suffix _).trans (components_suffix _ _ _ _ ts))

theorem atRule_walk (keyword : Bytes) (ts : List Lexeme) :
    Walk bounds ts (atRule bounds keyword ts).issues (atRule bounds keyword ts).rest := by
  have hrun := @components_walk bounds [] endsHeader [] ts
  have hsuffix := components_suffix bounds [] endsHeader [] ts
  unfold atRule
  simp only
  split
  · rename_i header l rest hv hr
    rw [hr] at hsuffix
    have hrest := (List.suffix_cons l rest).trans hsuffix
    split
    · exact Walk.of_suffix hrest
    · split
      · exact (Walk.blame _ (l :: rest) (List.suffix_refl _)).after hsuffix
      · exact (block_walk rest).after hrest
  · exact hrun

/-!
## Declarations
-/

theorem balanced_walk (opened : List Bracket) (ts : List Lexeme) :
    ∀ fault, (balanced bounds opened ts).1 = .error fault →
      Walk bounds ts [fault.issue] (balanced bounds opened ts).2 := by
  refine balanced_induction
    (motive := fun ts r => ∀ fault, r.1 = .error fault → Walk bounds ts [fault.issue] r.2)
    opened ts ?finish ?missing ?stop ?take ?refuse
  case finish =>
    intro fault hfault
    cases hfault
  case missing =>
    intro b opened fault hfault
    cases hfault
    exact Walk.blame _ [] List.nil_suffix
  case stop =>
    intro l rest hl fault hfault
    cases hfault
  case take =>
    intro l rest more ih fault hfault
    exact Walk.pass l (ih fault (error_of_map hfault))
  case refuse =>
    intro l rest opened complaint hcomplaint fault hfault
    cases hfault
    exact Walk.blame _ (l :: rest) (passUnlessBrace_suffix l rest)

theorem declaration_walk {property : Lexeme} {fault : Fault} {after : List Lexeme}
    (hd : declaration bounds property ts = (.error fault, after)) :
    Walk bounds ts [fault.issue] after := by
  rcases declaration_error hd with ⟨colon, rest, hts, hvalue⟩ | ⟨hissue, hafter⟩
  · have hwalk := balanced_walk [] rest fault (congrArg Prod.fst hvalue)
    rw [hvalue] at hwalk
    exact hwalk.after (suffix_of_dropBlank hts)
  · rw [hissue]
    exact (Walk.blame _ _ hafter).after (dropBlank_suffix ts)

theorem declarations_walk (inBlock : Bool) (ts : List Lexeme) :
    Walk bounds ts (declarations bounds inBlock ts).issues
      (declarations bounds inBlock ts).rest := by
  fun_induction declarations bounds inBlock ts with
  | case1 ts h => exact Walk.of_suffix List.nil_suffix
  | case2 ts l rest h hlt hbrace hin => exact Walk.of_suffix (h ▸ dropBlank_suffix ts)
  | case3 ts l rest h hlt hbrace hin ih =>
      exact (Walk.raise _ (l :: rest) (Walk.pass l ih)).after (h ▸ dropBlank_suffix ts)
  | case4 ts l rest h hlt hbrace hsep ih => exact ih.after (suffix_of_dropBlank h)
  | case5 ts l rest h hlt hbrace hsep hid d after hd hlt' ih =>
      have hafter := declaration_suffix bounds l rest
      rw [hd] at hafter
      exact ih.after (hafter.trans (suffix_of_dropBlank h))
  | case6 ts l rest h hlt hbrace hsep hid fault after hd hlt' ih =>
      have hfault := (declaration_walk hd).after (suffix_of_dropBlank h)
      exact hfault.trans (ih.after (skipDeclaration_suffix fault.opened after))
  | case7 ts l rest h hlt hbrace hsep hid hlt' ih =>
      exact (Walk.raise _ (l :: rest)
        (ih.after (skipDeclaration_suffix [] (l :: rest)))).after (h ▸ dropBlank_suffix ts)

/-!
## Rules

A rule that failed is left where it broke off, or with its first lexeme.
-/

theorem ruleSelectors_walk (ts : List Lexeme) :
    Walk bounds ts (ruleSelectors bounds ts).issues (ruleSelectors bounds ts).rest := by
  unfold ruleSelectors
  split
  · exact Walk.stay ts
  · exact alternatives_walk ts

theorem ruleBody_walk (selectors : SelectorGroup) (ts : List Lexeme) :
    Walk bounds ts (ruleBody bounds selectors ts).issues
      (ruleBody bounds selectors ts).rest := by
  have hbody := @declarations_walk bounds true ts
  unfold ruleBody
  simp only
  split
  · exact hbody.trans ((Walk.blame _ [] (List.suffix_refl _)).after List.nil_suffix)
  · rename_i l rest h
    split
    · exact hbody.before (suffix_of_dropInsignificant h)
    · have hclosed := (closeBlocks_suffix 1 rest).trans (List.suffix_cons l rest)
      exact hbody.trans ((Walk.blame _ (l :: rest) hclosed).after
        (h ▸ dropInsignificant_suffix _))

theorem styleRule_walk (ts : List Lexeme) :
    Walk bounds ts (styleRule bounds ts).issues (styleRule bounds ts).rest := by
  have hselectors := @ruleSelectors_walk bounds ts
  unfold styleRule
  simp only
  split
  · exact hselectors
  · split
    · exact hselectors.trans
        ((Walk.blame _ [] (List.suffix_refl _)).after List.nil_suffix)
    · rename_i l rest h
      split
      · exact hselectors.trans ((ruleBody_walk _ rest).after (suffix_of_dropInsignificant h))
      · exact hselectors.trans ((Walk.blame _ (l :: rest) (List.suffix_cons l rest)).after
          (h ▸ dropInsignificant_suffix _))

theorem resume_suffix_after {l : Lexeme} {after : List Lexeme}
    (h : Ascending bounds (l :: rest)) (hs : after <:+ l :: rest) :
    resume bounds l rest after <:+ after := by
  unfold resume
  split
  · rename_i hstart
    rcases List.suffix_cons_iff.mp hs with rfl | hs
    · exact List.suffix_cons l rest
    · exact absurd hstart.symm (Nat.ne_of_lt (h.lt_front hs))
  · exact List.suffix_refl after

theorem rules_walk (hts : Ascending bounds ts) :
    Walk bounds ts (rules bounds ts).issues (rules bounds ts).rest := by
  fun_induction rules bounds ts with
  | case1 ts h => exact Walk.of_suffix List.nil_suffix
  | case2 ts l rest h hle hlt hbrace ih =>
      have hmore := ih (hts.mono (suffix_of_dropInsignificant h))
      exact (Walk.raise _ (l :: rest) (Walk.pass l hmore)).after
        (h ▸ dropInsignificant_suffix ts)
  | case3 ts l rest h hle hlt hbrace hat rule hlt' ih =>
      have hrest := suffix_of_dropInsignificant h
      have hmore := ih (hts.mono ((atRule_suffix bounds l.value rest).trans hrest))
      exact ((atRule_walk l.value rest).trans hmore).after hrest
  | case4 ts l rest h hle hlt hbrace hat rule style hv hlt' ih =>
      have hfront : l :: rest <:+ ts := h ▸ dropInsignificant_suffix ts
      have hmore := ih (hts.mono ((styleRule_suffix bounds (l :: rest)).trans hfront))
      exact ((styleRule_walk (l :: rest)).trans hmore).after hfront
  | case5 ts l rest h hle hlt hbrace hat rule hv after hlt' ih =>
      have hfront : l :: rest <:+ ts := h ▸ dropInsignificant_suffix ts
      have hrule := styleRule_suffix bounds (l :: rest)
      have hresume := resume_suffix_after (hts.mono hfront) hrule
      have hmore := ih (hts.mono (hresume.trans (hrule.trans hfront)))
      exact ((styleRule_walk (l :: rest)).trans (hmore.after hresume)).after hfront

end Parse

end CssText
