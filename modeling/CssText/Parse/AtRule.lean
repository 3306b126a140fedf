import CssText.Parse.Bracket
import CssText.Parse.Reading
import CssText.Sheet

/-!
# Reading at-rules

An at-rule is a keyword, a header and then a semicolon or a block in braces. Header and
block are kept as they are, but brackets in them have to be closed: a bracket runs to the
first closer of its own at its own level, and closers of another kind in between are plain
lexemes.
-/

namespace CssText
namespace Parse

def unclosed : List Bracket → Complaint
  | [] => .expected .atRule .braceOrSemicolon
  | b :: _ => .expected b.production b.wanted

/--
The lexemes up to the first one that `ends` holds of outside all brackets, which is left
unread. The brackets `around` the run count towards the limit; `opened` are those opened in
it, the innermost first.
-/
def components (bounds : Bounds) (around : List Bracket) (ends : Kind → Bool) :
    List Bracket → List Lexeme → Reading (Option (List Lexeme))
  | opened, [] =>
      { value := none, issues := [⟨unclosed (opened ++ around), bounds.final⟩], rest := [] }
  | opened, l :: rest =>
      if opened.isEmpty && ends l.kind then
        { value := some [], issues := [], rest := l :: rest }
      else if opened.head?.map Bracket.closer = some l.kind then
        let more := components bounds around ends opened.tail rest
        { more with value := more.value.map (l :: ·) }
      else
        match Bracket.ofOpener? l.kind with
        | none =>
            let more := components bounds around ends opened rest
            { more with value := more.value.map (l :: ·) }
        | some b =>
            if opened.length + around.length < bounds.limit then
              let more := components bounds around ends (b :: opened) rest
              { more with value := more.value.map (l :: ·) }
            else
              { value := none, issues := [⟨.tooDeep bounds.limit, l⟩], rest := l :: rest }

def endsHeader (kind : Kind) : Bool :=
  kind = .semicolon || kind = .leftBrace

def endsBlock (kind : Kind) : Bool :=
  kind = .rightBrace

/-- The block of an at-rule and the brace that closes it, the opening one already taken. -/
def block (bounds : Bounds) (ts : List Lexeme) : Reading (Option (List Lexeme)) :=
  let body := components bounds [.curly] endsBlock [] ts
  match body.value with
  | none => body
  | some run => { value := some (Lexeme.trim run), issues := [], rest := body.rest.tail }

def atRule (bounds : Bounds) (keyword : Bytes) (ts : List Lexeme) : Reading (Option AtRule) :=
  let run := components bounds [] endsHeader [] ts
  match run.value, run.rest with
  | some header, l :: rest =>
      let header := Lexeme.trim header
      if l.kind = .semicolon then
        { value := some { keyword, header, block := none }, issues := [], rest }
      else if bounds.limit = 0 then
        { value := none, issues := [⟨.tooDeep bounds.limit, l⟩], rest := l :: rest }
      else
        let body := block bounds rest
        { body with value := body.value.map fun run => { keyword, header, block := some run } }
  | _, rest => { value := none, issues := run.issues, rest }

/-!
## What reading an at-rule leaves
-/

theorem components_suffix (bounds : Bounds) (around : List Bracket) (ends : Kind → Bool)
    (opened : List Bracket) (ts : List Lexeme) :
    (components bounds around ends opened ts).rest <:+ ts := by
  induction ts generalizing opened with
  | nil =>
      exact List.nil_suffix
  | cons l rest ih =>
      unfold components
      split
      · exact List.suffix_refl _
      · split
        · exact (ih opened.tail).trans (List.suffix_cons l rest)
        · split
          · exact (ih opened).trans (List.suffix_cons l rest)
          · split
            · exact (ih _).trans (List.suffix_cons l rest)
            · exact List.suffix_refl _

theorem block_suffix (bounds : Bounds) (ts : List Lexeme) : (block bounds ts).rest <:+ ts := by
  have hc := components_suffix bounds [.curly] endsBlock [] ts
  unfold block
  simp only
  split
  · exact hc
  · exact (List.tail_suffix _).trans hc

theorem atRule_suffix (bounds : Bounds) (keyword : Bytes) (ts : List Lexeme) :
    (atRule bounds keyword ts).rest <:+ ts := by
  have hc := components_suffix bounds [] endsHeader [] ts
  unfold atRule
  simp only
  split
  · rename_i header l rest hv hr
    rw [hr] at hc
    have hrest := (List.suffix_cons l rest).trans hc
    split
    · exact hrest
    · split
      · exact hc
      · exact (block_suffix bounds rest).trans hrest
  · exact hc

end Parse
end CssText
