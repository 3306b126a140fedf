import CssText.Proofs.Parse.Runs
import CssText.Proofs.Token.Stream

/-!
# Selectors that can be printed

Not every tree is one that text can be read as: a name may be empty, a chain may lean left,
and two operands of a compound may run together. `WellFormed` collects what a tree has to
keep to. Trees that agree but for the places of their lexemes are `Alike`; they are equal
and have the same text.
-/

namespace CssText

namespace Selector

/-!
## Well-formed trees
-/

/-- A name that is not empty and survives reading, which replaces zero bytes. -/
structure IsName (name : Bytes) : Prop where
  ne_nil : name ≠ []
  not_zero : 0 ∉ name

/-- The parentheses of a run close each other when `nesting` of them are open before it. -/
def parensClose : Nat → List Kind → Bool
  | nesting, [] => nesting = 0
  | nesting, kind :: rest =>
      !(kind = .rightParen && nesting = 0) && parensClose (Parse.nestingAfter kind nesting) rest

def callTokens (name : Bytes) (args : List Lexeme) : List Token :=
  [Token.plain .colon [Byte.colon], Token.plain .function name] ++ Lexeme.tokens args ++
    [Token.plain .rightParen [Byte.rightParen]]

/-- A functional pseudo-class, other than a negation, the text of which is read as it. -/
structure IsCall (name : Bytes) (args : List Lexeme) : Prop where
  not_negation : lowerCase name ≠ ascii "not"
  tokens : (Token.ofText (text (.pseudoFunction name args)) == callTokens name args) = true
  parens : parensClose 0 (Lexeme.kinds args) = true
  braces : ∀ kind ∈ Lexeme.kinds args, Parse.cutsArguments kind = false
  first : ∀ kind ∈ (Lexeme.kinds args).head?, kind.isBlank = false
  last : ∀ kind ∈ (Lexeme.kinds args).getLast?, kind.isBlank = false

def endsInName : Selector → Bool
  | type _ | id _ | className _ | pseudoClass _ => true
  | _ => false

def beginsWithType : Selector → Bool
  | type _ => true
  | combine _ (type _) _ => true
  | _ => false

/--
A tree that text can be read as. A chain leans right, and where two of its operands follow
each other without a combinator the names in them do not touch.
-/
def WellFormed : Selector → Prop
  | missing | nothing => False
  | universal => True
  | type name | id name | className name | pseudoClass name => IsName name
  | attr name test value => IsName name ∧ (value.isSome = true ↔ test ≠ .present)
  | pseudoFunction name args => IsCall name args
  | negation name inner =>
      lowerCase name = ascii "not" ∧ inner.isSimple = true ∧ inner.WellFormed
  | combine how left right =>
      left.isSimple = true ∧ left.WellFormed ∧ right.WellFormed ∧
        (how = .compound → left.endsInName = true → right.beginsWithType = false)

def nesting : Selector → Nat
  | negation _ inner => inner.nesting + 1
  | _ => 0

/--
The greatest depth in a chain: the place of an operand, counted from one, and the negations
nested in it.
-/
def depth : Selector → Nat
  | combine _ left right => max (left.nesting + 1) (right.depth + 1)
  | s => s.nesting + 1

theorem depth_of_isSimple {s : Selector} (h : s.isSimple = true) : s.depth = s.nesting + 1 := by
  cases s with
  | combine how left right => cases h
  | _ => rfl

theorem depth_pos (s : Selector) : 0 < s.depth := by
  cases s with
  | combine how left right => exact Nat.lt_of_lt_of_le (Nat.succ_pos _) (Nat.le_max_left _ _)
  | _ => exact Nat.succ_pos _

def negationFree : Selector → Bool
  | negation _ _ => false
  | combine _ left right => left.negationFree && right.negationFree
  | _ => true

theorem nesting_of_negationFree {s : Selector} (h : s.negationFree = true) : s.nesting = 0 := by
  cases s with
  | negation name inner => cases h
  | _ => rfl

/-!
## Trees that are alike
-/

def isLeaf : Selector → Bool
  | pseudoFunction _ _ | negation _ _ | combine _ _ _ => false
  | _ => true

inductive Alike : Selector → Selector → Prop where
  | leaf {s : Selector} (h : s.isLeaf = true) : Alike s s
  | call (name : Bytes) {args args' : List Lexeme} (h : (args == args') = true) :
      Alike (.pseudoFunction name args) (.pseudoFunction name args')
  | negation (name : Bytes) {inner inner' : Selector} (h : Alike inner inner') :
      Alike (.negation name inner) (.negation name inner')
  | combine (how : Combinator) {left left' right right' : Selector} (hl : Alike left left')
      (hr : Alike right right') : Alike (.combine how left right) (.combine how left' right')

theorem beq_leaf {s : Selector} (h : s.isLeaf = true) : (s == s) = true := by
  cases s with
  | attr name test value =>
      show (name == name && (test == test && value == value)) = true
      rw [beq_self_eq_true, beq_self_eq_true, beq_self_eq_true]
      rfl
  | missing => rfl
  | universal => rfl
  | nothing => rfl
  | pseudoFunction name args => cases h
  | negation name inner => cases h
  | combine how left right => cases h
  | _ => exact beq_self_eq_true (α := Bytes) _

theorem Alike.beq {s s' : Selector} (h : Alike s s') : (s == s') = true := by
  induction h with
  | leaf h => exact beq_leaf h
  | @call name args args' h =>
      show (name == name && args == args') = true
      rw [h, beq_self_eq_true]
      rfl
  | @negation name inner inner' h ih =>
      show (name == name && inner == inner') = true
      rw [ih, beq_self_eq_true]
      rfl
  | @combine how left left' right right' hl hr ihl ihr =>
      show (how == how && (left == left' && right == right')) = true
      rw [ihl, ihr, beq_self_eq_true]
      rfl

end Selector

namespace Token

theorem spelled_of_same {t u : Token} (h : t.same u = true) :
    t.kind = u.kind ∧ t.value = u.value ∧ t.unit = u.unit := by
  simp only [same, Bool.and_eq_true, decide_eq_true_eq] at h
  exact ⟨h.1.1.1.1, h.1.1.1.2, h.1.2⟩

theorem toCss_eq_of_same {t u : Token} (h : t.same u = true) : t.toCss = u.toCss := by
  rcases spelled_of_same h with ⟨hkind, hvalue, hunit⟩
  rw [toCss, toCss, numberText, numberText, hkind, hvalue, hunit]

end Token

namespace Lexeme

theorem tokens_beq_tokens (run run' : List Lexeme) :
    (tokens run == tokens run') = (run == run') := by
  induction run generalizing run' with
  | nil =>
      cases run' with
      | nil => rfl
      | cons l' run' => rfl
  | cons l run ih =>
      cases run' with
      | nil => rfl
      | cons l' run' => exact congrArg (l.toToken == l'.toToken && ·) (ih run')

theorem kinds_eq_of_beq {run run' : List Lexeme} (h : (run == run') = true) :
    kinds run = kinds run' := by
  induction run generalizing run' with
  | nil =>
      cases run' with
      | nil => rfl
      | cons l' run' => cases h
  | cons l run ih =>
      cases run' with
      | nil => cases h
      | cons l' run' =>
          rw [List.cons_beq_cons, Bool.and_eq_true] at h
          rw [kinds, List.map_cons, (Token.spelled_of_same h.1).1]
          exact congrArg (l'.kind :: ·) (ih h.2)

theorem serialize_eq_of_beq {run run' : List Lexeme} (h : (run == run') = true) :
    serialize run = serialize run' := by
  induction run generalizing run' with
  | nil =>
      cases run' with
      | nil => rfl
      | cons l' run' => cases h
  | cons l run ih =>
      cases run' with
      | nil => cases h
      | cons l' run' =>
          rw [List.cons_beq_cons, Bool.and_eq_true] at h
          have hl : l.toToken.toCss = l'.toToken.toCss := Token.toCss_eq_of_same h.1
          have hrun : Token.serialize (tokens run) = Token.serialize (tokens run') := ih h.2
          show l.toToken.toCss ++ Token.serialize (tokens run) = _
          rw [hl, hrun]
          rfl

end Lexeme

namespace Selector

theorem Alike.text_eq {s s' : Selector} (h : Alike s s') : s.text = s'.text := by
  induction h with
  | leaf h => rfl
  | call name h => rw [text, text, Lexeme.serialize_eq_of_beq h]
  | negation name h ih => rw [text, text, ih]
  | combine how hl hr ihl ihr => rw [text, text, ihl, ihr]

end Selector

namespace SelectorGroup

structure Same (group group' : SelectorGroup) : Prop where
  beq : (group == group') = true
  texts : group.map Selector.text = group'.map Selector.text

theorem same_nil : Same [] [] :=
  ⟨rfl, rfl⟩

theorem same_cons {s s' : Selector} {group group' : SelectorGroup} (hs : s.Alike s')
    (h : Same group group') : Same (s :: group) (s' :: group') where
  beq := by
    rw [List.cons_beq_cons, hs.beq, h.beq]
    rfl
  texts := by
    rw [List.map_cons, List.map_cons, hs.text_eq, h.texts]

theorem Same.text_eq {group group' : SelectorGroup} (h : Same group group') :
    text group = text group' :=
  congrArg (ascii ", ").intercalate h.texts

end SelectorGroup

end CssText
