import CssText.Command
import CssText.Proofs.Sheet.Positions
import CssText.Proofs.Text.Printed

/-!
# UTF-8 in, UTF-8 out

A well-formed text has well-formed tokens between its characters, and what is printed or
reported for it is well-formed. The command repairs its standard input before it is read, so
what it writes is well-formed whatever bytes it was given (`utf8_kept`).
-/

namespace CssText

open Utf8 (Valid valid_of_isAscii)

/-!
## One text
-/

structure Utf8.Kept (css : Bytes) : Prop where
  tokens : ∀ l ∈ tokenize css, Valid l.value ∧ Valid l.unit ∧
    IsBoundary css l.start ∧ IsBoundary css l.stop
  sheet : ∀ limit, Valid (Sheet.text (Sheet.parse limit css).value)
  listed : ∀ limit, ∀ d ∈ (Declaration.parseList limit css).value, Valid d.valueText
  ruled : ∀ limit rule, Rule.style rule ∈ (Sheet.parse limit css).value →
    ∀ d ∈ rule.declarations, Valid d.valueText
  sheetErrors : ∀ limit, ∀ e ∈ (Sheet.parse limit css).errors, Valid e.message
  listErrors : ∀ limit, ∀ e ∈ (Declaration.parseList limit css).errors, Valid e.message
  groupErrors : ∀ limit, ∀ e ∈ (SelectorGroup.parse limit css).errors, Valid e.message

section

variable {css : Bytes} (h : Valid css)
include h

theorem encoded_ofText : Lexeme.Encoded (Lexeme.ofText css) :=
  fun l hl => (encoded_tokenize h l (List.mem_append_left _ hl)).1

theorem valid_errors {limit : Nat} {issues : List Issue} {rest : List Lexeme}
    (hwalk : Parse.Walk (Bounds.ofText limit css) (Lexeme.ofText css) issues rest)
    (hc : ∀ i ∈ issues, i.complaint.Encoded) :
    ∀ e ∈ issues.map Issue.report, Valid e.message := by
  intro e he
  rcases List.mem_map.mp he with ⟨i, hi, rfl⟩
  exact Issue.valid_message (hc i hi) (encoded_tokenize h i.place (hwalk.place_mem i hi)).1

theorem valid_declaration_errors (limit : Nat) :
    ∀ e ∈ (Declaration.parseList limit css).errors, Valid e.message :=
  valid_errors h (Parse.declarations_walk false _) (Parse.declarations_encoded false _)

theorem valid_sheet_errors (limit : Nat) :
    ∀ e ∈ (Sheet.parse limit css).errors, Valid e.message :=
  valid_errors h (Parse.rules_walk (Parse.ascending_ofText limit css))
    (Parse.rules_encoded (encoded_ofText h))

theorem valid_group_errors (limit : Nat) :
    ∀ e ∈ (SelectorGroup.parse limit css).errors, Valid e.message := by
  have hwalk := @Parse.alternatives_walk (Bounds.ofText limit css) (Lexeme.ofText css)
  have hc := (@Parse.alternatives_encoded (Bounds.ofText limit css) _ (encoded_ofText h)).complaints
  unfold SelectorGroup.parse
  simp only
  split
  · exact valid_errors h hwalk hc
  · split
    · exact valid_errors h hwalk hc
    · rename_i l rest hrest
      have hend := @Parse.Walk.blame (Bounds.ofText limit css) _
        (.expected .selectorGroup .endOfInput) (l :: rest) (List.suffix_refl _)
      have hone : (Complaint.expected .selectorGroup .endOfInput).Encoded :=
        Parse.encoded_expected _ (by decide)
      exact valid_errors h (hwalk.trans (hend.after (hrest ▸ Parse.dropBlank_suffix _)))
        (List.forall_mem_append.mpr ⟨hc, List.forall_mem_singleton.mpr hone⟩)

theorem valid_sheet_text (limit : Nat) : Valid (Sheet.text (Sheet.parse limit css).value) := by
  apply Utf8.valid_intercalate (valid_of_isAscii (by decide))
  rw [List.forall_mem_map]
  intro rule hrule
  exact (Parse.rules_value_encoded (encoded_ofText h) rule hrule).text.append
    (valid_of_isAscii (by decide))

theorem valid_list_text (limit : Nat) :
    Valid (Declaration.listText (Declaration.parseList limit css).value) := by
  apply Utf8.valid_flatMap
  intro d hd
  exact (Parse.declarations_value_encoded (encoded_ofText h) d hd).text.append
    (valid_of_isAscii (by decide))

theorem kept_of_valid : Utf8.Kept css where
  tokens l hl := by
    rcases encoded_tokenize h l hl with ⟨ht, hstart, hstop⟩
    exact ⟨ht.value, ht.unit, hstart, hstop⟩
  sheet := valid_sheet_text h
  listed limit d hd := (Parse.declarations_value_encoded (encoded_ofText h) d hd).value
  ruled limit rule hrule d hd :=
    ((Parse.rules_value_encoded (encoded_ofText h) _ hrule).declarations rule rfl d hd).value
  sheetErrors := valid_sheet_errors h
  listErrors := valid_declaration_errors h
  groupErrors := valid_group_errors h

end

/-!
## Events
-/

structure Event.Encoded (e : Event) : Prop where
  component : Valid e.component
  stage : Valid e.stage
  message : Valid e.message
  source : Valid e.source

theorem Event.Encoded.text {e : Event} (h : e.Encoded) : Valid e.text := by
  have hdecimal (n : Nat) : Valid (decimal n) := valid_of_isAscii (isAscii_decimal n)
  have hplace : Valid e.placeText := by
    unfold Event.placeText
    split
    · split
      · exact Utf8.valid_nil
      · exact ((valid_of_isAscii (by decide)).append (hdecimal _)).append
          (valid_of_isAscii (by decide))
    · apply (h.source.append _).append (valid_of_isAscii (by decide))
      split
      · exact Utf8.valid_nil
      · exact (hdecimal _).cons (by decide)
  have hseverity : Utf8.isAscii e.severity.name = true := by cases e.severity <;> decide
  have hopen : Valid [Byte.leftBracket] := valid_of_isAscii (by decide)
  have hclose : Valid [Byte.rightBracket] := valid_of_isAscii (by decide)
  have hfront := ((hplace.append hopen).append (valid_of_isAscii hseverity)).append hclose
  apply (((hfront.append _).append _).append (valid_of_isAscii (by decide))).append h.message
  · split
    · exact Utf8.valid_nil
    · exact h.component.cons (by decide)
  · split
    · exact Utf8.valid_nil
    · exact h.stage.cons (by decide)

namespace Emitter

structure Encoded (e : Emitter) : Prop where
  source : Valid e.source
  told : ∀ d ∈ e.told, d.2.Encoded

theorem Encoded.emit {e : Emitter} {event : Event} (h : e.Encoded)
    (hevent : Event.Encoded { event with source := e.source }) : (e.emit event).Encoded := by
  unfold Emitter.emit
  split
  · exact h
  · constructor
    · exact h.source
    · intro d hd
      rcases List.mem_append.mp hd with hd | hd
      · rcases List.mem_map.mp (List.mem_reverse.mp hd) with ⟨k, -, rfl⟩
        exact hevent
      · exact h.told d hd

theorem Encoded.reportErrors {e : Emitter} {stage : Bytes} {errors : List ParseError}
    (h : e.Encoded) (hstage : Valid stage) (herrors : ∀ error ∈ errors, Valid error.message) :
    (e.reportErrors stage errors).Encoded := by
  have hcomponent : Valid grammarComponent := valid_of_isAscii (by decide)
  unfold Emitter.reportErrors
  induction errors generalizing e with
  | nil => exact h
  | cons error errors ih =>
      rw [List.foldl_cons]
      have hevent : Event.Encoded { warningOf stage error with source := e.source } :=
        ⟨hcomponent, hstage, herrors error List.mem_cons_self, h.source⟩
      exact ih (h.emit hevent) fun other hother => herrors other (List.mem_cons_of_mem _ hother)

end Emitter

/-!
## The command
-/

namespace Command

theorem valid_errorText {e : Emitter} (h : e.Encoded) : Valid (errorText e) := by
  apply Utf8.valid_flatMap
  intro event hevent
  rcases List.mem_filterMap.mp hevent with ⟨d, hd, hd'⟩
  split at hd'
  · cases hd'
    exact (h.told d (List.mem_reverse.mp hd)).text.append (valid_of_isAscii (by decide))
  · cases hd'

theorem encoded_emitter (quiet : Bool) : (emitter quiet [Byte.hyphen]).Encoded where
  source := show Valid (ascii "<stdin>") from valid_of_isAscii (by decide)
  told := List.forall_mem_nil _

theorem valid_process (stdin : Contents) (files : Files) (declarationsOnly quiet : Bool) :
    Valid (process stdin files declarationsOnly quiet [Byte.hyphen]).stdout ∧
      Valid (process stdin files declarationsOnly quiet [Byte.hyphen]).stderr := by
  have hstart := encoded_emitter quiet
  cases stdin with
  | none =>
      have hevent : Event.Encoded
          { loadFailure .unreadable with source := (emitter quiet [Byte.hyphen]).source } :=
        ⟨show Valid (ascii "source") from valid_of_isAscii (by decide),
          show Valid (ascii "load") from valid_of_isAscii (by decide),
          show Valid SourceError.unreadable.message from valid_of_isAscii (by decide),
          hstart.source⟩
      exact ⟨Utf8.valid_nil, valid_errorText (hstart.emit hevent)⟩
  | some bytes =>
      have hcss := Utf8.valid_decode bytes
      have hsummary {e : Emitter} (he : e.Encoded) (warnings : Nat) :
          (e.emit (summary warnings)).Encoded := by
        apply he.emit
        exact ⟨show Valid Emitter.grammarComponent from valid_of_isAscii (by decide),
          show Valid (ascii "summary") from valid_of_isAscii (by decide),
          (valid_of_isAscii (isAscii_decimal warnings)).append (valid_of_isAscii (by decide)),
          he.source⟩
      cases declarationsOnly with
      | true =>
          have hstage : Valid (ascii "declarations") := valid_of_isAscii (by decide)
          have hreported := hstart.reportErrors hstage (valid_declaration_errors hcss defaultLimit)
          exact ⟨valid_list_text hcss defaultLimit, valid_errorText (hsummary hreported _)⟩
      | false =>
          have hstage : Valid (ascii "stylesheet") := valid_of_isAscii (by decide)
          have hreported := hstart.reportErrors hstage (valid_sheet_errors hcss defaultLimit)
          exact ⟨valid_sheet_text hcss defaultLimit, valid_errorText (hsummary hreported _)⟩

end Command

/--
Well-formed text is read and printed as well-formed text; run on its standard input, the
command writes well-formed text whatever bytes it is given, and also if reading them fails.
-/
theorem utf8_kept :
    (∀ css, Valid css → Utf8.Kept css) ∧
      ∀ arguments declarationsOnly quiet,
        Command.request arguments = .process declarationsOnly quiet [Byte.hyphen] →
          ∀ (stdin : Contents) (files : Files),
            Valid (Command.run arguments stdin files).stdout ∧
              Valid (Command.run arguments stdin files).stderr := by
  constructor
  · intro css h
    exact kept_of_valid h
  · intro arguments declarationsOnly quiet hrequest stdin files
    rw [Command.run, hrequest]
    exact Command.valid_process stdin files declarationsOnly quiet

/-- An escape in front of a character of two bytes, and a byte that begins no character. -/
theorem utf8_kept_accented :
    Utf8.Kept (ascii "a\\" ++ [0xC3, 0xA9] ++ ascii ":b\\d800 ") ∧
      Valid (Command.run [ascii "--quiet", ascii "-"] (some [0xFF, 0x7D]) fun _ => none).stdout ∧
      Valid (Command.run [ascii "--quiet", ascii "-"] (some [0xFF, 0x7D]) fun _ => none).stderr := by
  rcases utf8_kept with ⟨hkept, hrun⟩
  have hcss : Valid (ascii "a\\" ++ [0xC3, 0xA9] ++ ascii ":b\\d800 ") :=
    ⟨"a\\é:b\\d800 ".toList, by decide +kernel⟩
  exact ⟨hkept _ hcss, hrun _ false true rfl _ _⟩

end CssText
