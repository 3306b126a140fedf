import CssText.Parse.Value
import CssText.Sheet

/-!
# Reading declarations

A declaration list is read declaration by declaration. One that fails raises an issue and is
skipped, and reading goes on behind it. In a block the list ends before the right brace;
otherwise it runs to the end of the input.
-/

namespace CssText
namespace Parse

def declaration (bounds : Bounds) (property : Lexeme) (ts : List Lexeme) :
    Except Fault Declaration × List Lexeme :=
  match dropBlank ts with
  | [] => (.error ⟨⟨.expected .declaration .colon, bounds.final⟩, []⟩, [])
  | l :: rest =>
      if l.kind = .colon then
        let value := balanced bounds [] rest
        let make (run : List Lexeme) : Declaration :=
          let terms := terms run
          { property := property.value
            terms
            start := property.start
            stop := (terms.getLast?.map Lexeme.stop).getD (bounds.front value.2).start }
        (value.1.map make, value.2)
      else
        (.error ⟨⟨.expected .declaration .colon, l⟩, []⟩,
          if endsValue l.kind then l :: rest else rest)

theorem declaration_suffix (bounds : Bounds) (property : Lexeme) (ts : List Lexeme) :
    (declaration bounds property ts).2 <:+ ts := by
  unfold declaration
  split
  · exact List.nil_suffix
  · rename_i l rest h
    split
    · exact (balanced_suffix bounds [] rest).trans (suffix_of_dropBlank h)
    · split
      · exact h ▸ dropBlank_suffix ts
      · exact suffix_of_dropBlank h

theorem length_declaration_lt {bounds : Bounds} {property : Lexeme} {ts rest after : List Lexeme}
    {result : Except Fault Declaration} (hlt : rest.length < ts.length)
    (hd : declaration bounds property rest = (result, after)) : after.length < ts.length := by
  have hle := (declaration_suffix bounds property rest).length_le
  rw [hd] at hle
  exact Nat.lt_of_le_of_lt hle hlt

def consDeclaration (d : Declaration) (more : Reading (List Declaration)) :
    Reading (List Declaration) :=
  { more with value := d :: more.value }

def consIssue {α : Type} (issue : Issue) (more : Reading α) : Reading α :=
  { more with issues := issue :: more.issues }

/-- The semicolons and markup brackets between declarations. -/
def separatesDeclarations (kind : Kind) : Bool :=
  kind = .semicolon || kind = .cdo || kind = .cdc

def declarations (bounds : Bounds) (inBlock : Bool) (ts : List Lexeme) :
    Reading (List Declaration) :=
  match h : dropBlank ts with
  | [] => { value := [], issues := [], rest := [] }
  | l :: rest =>
      have hlt : rest.length < ts.length := length_lt_of_dropBlank h
      if hbrace : l.kind = .rightBrace then
        if inBlock then
          { value := [], issues := [], rest := l :: rest }
        else
          consIssue ⟨.strayBrace .declarationList, l⟩ (declarations bounds inBlock rest)
      else if separatesDeclarations l.kind then
        declarations bounds inBlock rest
      else if l.kind = .ident then
        match hd : declaration bounds l rest with
        | (.ok d, after) =>
            have : after.length < ts.length := length_declaration_lt hlt hd
            consDeclaration d (declarations bounds inBlock after)
        | (.error fault, after) =>
            have : (skipDeclaration fault.opened after).length < ts.length :=
              Nat.lt_of_le_of_lt (skipDeclaration_suffix fault.opened after).length_le
                (length_declaration_lt hlt hd)
            consIssue fault.issue
              (declarations bounds inBlock (skipDeclaration fault.opened after))
      else
        have : (skipDeclaration [] (l :: rest)).length < ts.length :=
          Nat.lt_of_le_of_lt (skipDeclaration_cons_suffix hbrace [] rest).length_le hlt
        consIssue ⟨.expected .declarationList .declaration, l⟩
          (declarations bounds inBlock (skipDeclaration [] (l :: rest)))
termination_by ts.length

theorem declarations_suffix (bounds : Bounds) (inBlock : Bool) (ts : List Lexeme) :
    (declarations bounds inBlock ts).rest <:+ ts := by
  fun_induction declarations bounds inBlock ts with
  | case1 ts h =>
      exact List.nil_suffix
  | case2 ts l rest h hlt hbrace hin =>
      exact h ▸ dropBlank_suffix ts
  | case3 ts l rest h hlt hbrace hin ih =>
      exact ih.trans (suffix_of_dropBlank h)
  | case4 ts l rest h hlt hbrace hsep ih =>
      exact ih.trans (suffix_of_dropBlank h)
  | case5 ts l rest h hlt hbrace hsep hid d after hd hlt' ih =>
      have ha := declaration_suffix bounds l rest
      rw [hd] at ha
      exact (ih.trans ha).trans (suffix_of_dropBlank h)
  | case6 ts l rest h hlt hbrace hsep hid fault after hd hlt' ih =>
      have ha := declaration_suffix bounds l rest
      rw [hd] at ha
      exact ((ih.trans (skipDeclaration_suffix fault.opened after)).trans ha).trans
        (suffix_of_dropBlank h)
  | case7 ts l rest h hlt hbrace hsep hid hlt' ih =>
      exact (ih.trans (skipDeclaration_cons_suffix hbrace [] rest)).trans
        (suffix_of_dropBlank h)

end Parse

namespace Declaration

/-- Read a text that holds declarations only, such as a `style` attribute. -/
def parseList (limit : Nat) (css : Bytes) : Parsed (List Declaration) :=
  let reading := Parse.declarations (Bounds.ofText limit css) false (Lexeme.ofText css)
  { value := reading.value, issues := reading.issues }

end Declaration
end CssText
