import FlowCanvas.Proofs.Lossless
import FlowCanvas.Proofs.TokenGrammar

/-!
# Layout between tokens

The tokens of a text can be put apart in any way. A blank behind a token ends it, whatever it is, so
the tokens are read again from their texts alone, with any blanks and comments between them.
-/

namespace FlowCanvas.Lexer

/-! ### Separators -/

/-- Blanks and comments, each comment ended by its line feed. -/
inductive Spacing : List Char → Prop
  | nil : Spacing []
  | blank {c : Char} {cs : List Char} (hc : Text.isLayoutBlank c) (h : Spacing cs) :
    Spacing (c :: cs)
  | comment {body cs : List Char} (hbody : IsComment body) (h : Spacing cs) :
    Spacing (body ++ '\n' :: cs)

/-- What keeps two tokens apart: a blank, and then blanks and comments. -/
inductive Separator : List Char → Prop
  | mk {c : Char} {cs : List Char} (hc : Text.isLayoutBlank c) (h : Spacing cs) :
    Separator (c :: cs)

/-- What is left of a comment, up to its line feed. -/
lemma gap_comment {body cs : List Char} (hline : '\n' ∉ body) (h : Gap false cs) :
    Gap true (body ++ '\n' :: cs) := by
  induction body with
  | nil => exact .newLine h
  | cons c body ih =>
    obtain ⟨hc, hbody⟩ := not_or.mp (List.mem_cons.not.mp hline)
    exact .comment (Ne.symm hc) (ih hbody)

lemma Spacing.gap {cs : List Char} (h : Spacing cs) : Gap false cs := by
  induction h with
  | nil => exact .nil
  | blank hc _ ih => exact .blank hc ih
  | comment hbody _ ih =>
    obtain ⟨⟨tail, rfl⟩ | ⟨tail, rfl⟩, hline⟩ := hbody
    · exact .hash (gap_comment (fun h => hline (List.mem_append_right _ h)) ih)
    · exact .slashes (gap_comment (fun h => hline (List.mem_append_right _ h)) ih)

lemma Separator.gap {cs : List Char} (h : Separator cs) : Gap false cs := by
  cases h with
  | mk hc h => exact .blank hc h.gap

/-- No token goes on with a blank. -/
lemma isBreak_of_isLayoutBlank {c : Char} (h : Text.isLayoutBlank c) : isBreak c := by
  simp only [Text.isLayoutBlank, Bool.or_eq_true, beq_iff_eq] at h
  rcases h with (((rfl | rfl) | rfl) | rfl) | rfl <;> decide

lemma Separator.safe {cs : List Char} (h : Separator cs) (rest : List Char) :
    Safe (cs ++ rest) := by
  cases h with
  | mk hc h =>
    intro d hd
    obtain rfl := Option.some.inj hd
    exact isBreak_of_isLayoutBlank hc

/-! ### Texts put apart -/

/-- The texts of tokens with a separator behind each of them but the last. -/
def separated (sep : ℕ → String) : Phrase → String
  | [] => ""
  | [t] => t.text
  | t :: u :: ts => t.text ++ (sep 0 ++ separated (fun i => sep (i + 1)) (u :: ts))

/-- A token that is read somewhere is read in front of everything that ends it. -/
lemma Starts.run {t : Token} {left rest : List Char} (h : Starts t.kind t.text.toList left)
    (hrest : Safe rest) : Run t.text.toList [(t.kind, t.text)] rest := by
  simpa using Run.token (h.tame (hrest.tame left))

/-- Tokens that can be read at all are read from their texts, however these are put apart. -/
lemma run_separated {ts : Phrase} (h : ∀ t ∈ ts, t.Lexed)
    {sep : ℕ → String} (hsep : ∀ i, i + 1 < ts.length → Separator (sep i).toList) :
    Run (separated sep ts).toList ts.lexemes [] := by
  fun_induction separated sep ts with
  | case1 => exact .nil []
  | case2 sep t =>
    obtain ⟨left, hstart⟩ := h t List.mem_cons_self
    exact hstart.run safe_nil
  | case3 sep t u ts ih =>
    obtain ⟨left, hstart⟩ := h t List.mem_cons_self
    have hfirst : Separator (sep 0).toList := hsep 0 (by simp)
    have hrest := ih (fun v hv => h v (List.mem_cons_of_mem t hv))
      (fun i hi => hsep (i + 1) (by simpa using hi))
    rw [String.toList_append, String.toList_append]
    refine (hstart.run ?_).append (hrest.gap hfirst.gap)
    rw [List.append_nil]
    exact hfirst.safe _

/-- Tokens do not depend on the layout between them. The texts of the tokens of a text, with any
separators between them, are read as tokens of the same kinds and texts. -/
theorem tokenize_separated {source : String} {ts : Phrase} (h : tokenize source = .ok ts)
    (sep : ℕ → String) (hsep : ∀ i, i + 1 < ts.length → Separator (sep i).toList) :
    ∃ us, tokenize (separated sep ts) = .ok us ∧ Phrase.lexemes us = ts.lexemes := by
  obtain ⟨cs, last, -, hscanned, -⟩ := scanned_of_tokenize h
  have hrun := run_separated (fun t ht => hscanned.mem ht) hsep
  exact tokenize_of_run (List.append_nil _).symm hrun rfl

/-- A range of numbers and a string with the marks of comments, with comments of both forms
between all of their tokens. -/
theorem tokenize_separated_range :
    let sep : ℕ → String := fun i => if i % 2 = 0 then "\t# 1\"\n" else " //\x27#\n\r"
    ∃ ts us : Phrase, tokenize "1..<2.5+\"//#\\\"\"" = .ok ts ∧ ts.length = 5 ∧
      (∀ i, i + 1 < ts.length → Separator (sep i).toList) ∧
      tokenize (separated sep ts) = .ok us ∧ us.lexemes = ts.lexemes := by
  intro sep
  have hcomment : IsComment "# 1\"".toList := ⟨.inl (by decide), by decide⟩
  have hcomment' : IsComment "//\x27#".toList := ⟨.inr (by decide), by decide⟩
  have hhash : Separator "\t# 1\"\n".toList := .mk rfl (.comment hcomment .nil)
  have hslashes : Separator " //\x27#\n\r".toList := .mk rfl (.comment hcomment' (.blank rfl .nil))
  have hread : (tokenize "1..<2.5+\"//#\\\"\"").toOption.any fun ts => ts.length = 5 := by
    decide +kernel
  obtain ⟨ts, hts, hlength⟩ := exists_ok_of_any hread
  have hsep : ∀ i, i + 1 < ts.length → Separator (sep i).toList := by
    intro i _
    dsimp only [sep]
    split_ifs
    · exact hhash
    · exact hslashes
  obtain ⟨us, hus, hlexemes⟩ := tokenize_separated hts sep hsep
  exact ⟨ts, us, hts, by simpa using hlength, hsep, hus, hlexemes⟩

end FlowCanvas.Lexer
