import FlowCanvas.Proofs.Lossless
import FlowCanvas.Proofs.Remains

/-!
# Indented tokens

A block puts its children on lines of their own and blanks in front of these lines. Between tokens
the blanks are layout, but in front of a line that starts inside of a string they are part of it.
So a block keeps the tokens of its children exactly if none of them holds a line feed, and every
block around it moves the lines of a string further to the right.
-/

namespace FlowCanvas

namespace Write

open Lexer

/-! ### Last lines -/

/-- What stands behind the last line feed of a text. -/
def lastLine (cs : List Char) : List Char := (cs.reverse.takeWhile (· != '\n')).reverse

lemma lastLine_append (front : List Char) {line : List Char} (h : '\n' ∉ line) :
    lastLine (front ++ '\n' :: line) = line := by
  have hline : ∀ c ∈ line.reverse, (c != '\n') = true := by
    intro c hc
    rw [bne_iff_ne]
    rintro rfl
    exact h (List.mem_reverse.mp hc)
  rw [lastLine, List.reverse_append, List.reverse_cons, List.append_assoc,
    List.takeWhile_append_of_pos hline]
  simp

lemma exists_lastLine {cs : List Char} (h : '\n' ∈ cs) :
    ∃ front line, cs = front ++ '\n' :: line ∧ '\n' ∉ line := by
  obtain ⟨line, front, hcs, hline⟩ := List.eq_append_cons_of_mem (List.mem_reverse.mpr h)
  refine ⟨front.reverse, line.reverse, ?_, by simpa using hline⟩
  rw [← List.reverse_reverse cs, hcs]
  simp

/-- Indentation starts anew behind a line feed. -/
lemma exists_indentFrom_append (start : Bool) (front ys : List Char) :
    ∃ front', indentFrom start (front ++ '\n' :: ys) = front' ++ '\n' :: indentFrom true ys := by
  induction front generalizing start with
  | nil => exact ⟨[], indentFrom_newLine start ys⟩
  | cons c front ih =>
    rw [List.cons_append]
    by_cases hline : c = '\n'
    · obtain ⟨front', hfront⟩ := ih true
      exact ⟨'\n' :: front', by rw [hline, indentFrom_newLine, hfront]; rfl⟩
    · by_cases hreturn : c = '\r' ∧ (front ++ '\n' :: ys).head? = some '\n'
      · obtain ⟨front', hfront⟩ := ih start
        exact ⟨front', by rw [hreturn.1, indentFrom_return _ hreturn.2, hfront]⟩
      · obtain ⟨front', hfront⟩ := ih false
        refine ⟨(if start then [' ', ' ', ' ', ' '] else []) ++ c :: front', ?_⟩
        rw [indentFrom_cons _ hline hreturn, hfront, List.append_assoc]
        rfl

/-- Each indentation makes the last line of a text longer. -/
lemma lastLine_iterate {cs : List Char} {c : Char} (h : '\n' ∈ cs) (hc : cs.getLast? = some c)
    (hline : c ≠ '\n') (k : ℕ) :
    '\n' ∈ (indentFrom false)^[k] cs ∧ ((indentFrom false)^[k] cs).getLast? = some c ∧
      (lastLine ((indentFrom false)^[k] cs)).length = (lastLine cs).length + 4 * k := by
  induction k with
  | zero => exact ⟨h, hc, rfl⟩
  | succ k ih =>
    rw [Function.iterate_succ_apply']
    obtain ⟨hmem, hlast, hlength⟩ := ih
    generalize (indentFrom false)^[k] cs = ds at hmem hlast hlength
    refine ⟨?_, getLast?_indentFrom hlast hline false, ?_⟩
    · obtain ⟨front, line, rfl, -⟩ := exists_lastLine hmem
      obtain ⟨front', hfront⟩ := exists_indentFrom_append false front line
      simp [hfront]
    · obtain ⟨front, line, rfl, hnot⟩ := exists_lastLine hmem
      obtain ⟨front', hfront⟩ := exists_indentFrom_append false front line
      -- the last line is not empty, so the blanks stand in front of it
      cases line with
      | nil =>
        rw [List.getLast?_concat] at hlast
        exact absurd (Option.some.inj hlast).symm hline
      | cons d line =>
        obtain ⟨hd, hrest⟩ := not_or.mp (List.mem_cons.not.mp hnot)
        have hreturn : ¬(d = '\r' ∧ line.head? = some '\n') := fun hhead =>
          hrest (List.mem_of_mem_head? hhead.2)
        have hindent : indentFrom true (d :: line) = [' ', ' ', ' ', ' '] ++ d :: line := by
          rw [indentFrom_cons _ (Ne.symm hd) hreturn, indentFrom_of_noLine hrest]
          rfl
        rw [lastLine_append front hnot] at hlength
        rw [hfront, hindent, lastLine_append front' (by simpa using hnot)]
        simp only [List.length_append, List.length_cons, List.length_nil] at hlength ⊢
        omega

/-! ### Lexemes at some depth -/

lemma indentLexeme_iterate (l : Lexeme) (k : ℕ) :
    indentLexeme^[k] l = (l.1, .ofList ((indentFrom false)^[k] l.2.toList)) := by
  induction k with
  | zero => simp
  | succ k ih =>
    rw [Function.iterate_succ_apply', ih, Function.iterate_succ_apply', indentLexeme,
      String.toList_ofList]

/-- A token that holds a line feed is another one at every other depth. -/
lemma indentLexeme_iterate_eq_iff {l : Lexeme} {left : List Char}
    (h : Starts l.1 l.2.toList left) (k : ℕ) :
    indentLexeme^[k] l = l ↔ k = 0 ∨ '\n' ∉ l.2.toList := by
  constructor
  · intro heq
    by_contra hnot
    obtain ⟨hk, hmem⟩ := not_or.mp hnot
    obtain ⟨c, hc, hblank⟩ := h.trimmed.last
    have hline : c ≠ '\n' := by
      rintro rfl
      exact absurd hblank (by decide)
    obtain ⟨-, -, hlength⟩ := lastLine_iterate (not_not.mp hmem) hc hline k
    have htext : (indentFrom false)^[k] l.2.toList = l.2.toList := by
      have hsnd := congrArg (fun l => l.2.toList) heq
      rwa [indentLexeme_iterate, String.toList_ofList] at hsnd
    rw [htext] at hlength
    omega
  · rintro (rfl | hnot)
    · rfl
    · exact Function.iterate_fixed (indentLexeme_of_noLine hnot) k

/-! ### Texts that end with a token -/

/-- A text that is read as given tokens, one at least, and that ends with the last of them. -/
structure EndsWithToken (text : String) (ts : Phrase) : Prop where
  scanned : scanAll text = .ok (ts, [])
  ne_nil : ts ≠ []

namespace EndsWithToken

variable {text : String} {ts : Phrase}

lemma run (h : EndsWithToken text ts) :
    Run text.toList ts.lexemes [] ∧ ∀ t ∈ ts, t.Lexed := by
  obtain ⟨xs, htext, hscanned, -⟩ := scanned_of_scan h.scanned le_rfl
  rw [List.append_nil] at htext
  rw [htext]
  exact ⟨hscanned.run, fun t ht => hscanned.mem ht⟩

lemma lexemes_ne_nil (h : EndsWithToken text ts) : ts.lexemes ≠ [] := by
  obtain ⟨t, us, rfl⟩ := List.exists_cons_of_ne_nil h.ne_nil
  simp

end EndsWithToken

lemma endsWithToken_of_run {text : String} {ls : List Lexeme} (h : Run text.toList ls [])
    (hne : ls ≠ []) : ∃ us, EndsWithToken text us ∧ us.lexemes = ls := by
  obtain ⟨us, hscan, hls⟩ := scan_of_run h rfl text.toList.length (by simp) .origin
  rw [List.append_nil] at hscan
  refine ⟨us, ⟨hscan, ?_⟩, hls⟩
  rintro rfl
  exact hne hls.symm

lemma last_of_run {cs rest : List Char} {ls : List Lexeme} (h : Run cs ls rest) (hne : ls ≠ []) :
    ∃ c, cs.getLast? = some c ∧ Text.isBlank c = false := by
  induction h with
  | nil => exact absurd rfl hne
  | @cons gap text cs rest kind ls _ hstart hrest ih =>
    obtain ⟨c, hc, hblank⟩ := hstart.trimmed.last
    cases hrest with
    | nil =>
      refine ⟨c, ?_, hblank⟩
      rw [List.append_nil, List.getLast?_append, hc]
      rfl
    | cons _ _ _ =>
      obtain ⟨d, hd, hblank'⟩ := ih (List.cons_ne_nil _ _)
      refine ⟨d, ?_, hblank'⟩
      rw [List.getLast?_append, List.getLast?_append, hd]
      rfl

/-- An indented text is read as the indented lexemes. -/
lemma EndsWithToken.indent {text : String} {ts : Phrase} (h : EndsWithToken text ts) :
    ∃ us, EndsWithToken (indent text) us ∧ us.lexemes = ts.lexemes.map indentLexeme := by
  have hrun := run_indentLexeme h.run.1 true
  rw [← indent_of_last (last_of_run h.run.1 h.lexemes_ne_nil)] at hrun
  exact endsWithToken_of_run hrun (by simpa using h.lexemes_ne_nil)

/-- At depth `k` a text is read as its lexemes at depth `k`. -/
lemma EndsWithToken.indent_iterate {text : String} {ts : Phrase} (h : EndsWithToken text ts)
    (k : ℕ) : ∃ us, EndsWithToken (Write.indent^[k] text) us ∧
      us.lexemes = ts.lexemes.map indentLexeme^[k] := by
  induction k with
  | zero => exact ⟨ts, h, (List.map_id _).symm⟩
  | succ k ih =>
    obtain ⟨us, hus, hlexemes⟩ := ih
    obtain ⟨vs, hvs, hlexemes'⟩ := hus.indent
    rw [Function.iterate_succ_apply']
    refine ⟨vs, hvs, ?_⟩
    rw [hlexemes', hlexemes, List.map_map, ← Function.iterate_succ']

/-! ### Blocks -/

/-- A child that was written as a text which ends with a token. -/
def WrittenAs (child : WrittenNode) (ts : Phrase) : Prop :=
  ∃ text, child.text = .ok text ∧ EndsWithToken text ts

lemma texts_of_writtenAs {children : List WrittenNode} {tss : List Phrase}
    (h : List.Forall₂ WrittenAs children tss) :
    ∃ list, texts children = .ok list ∧
      (∀ text ∈ list, ∃ c, text.toList.getLast? = some c ∧ Text.isBlank c = false) ∧
      List.Forall₂ (fun text ls => Run text ls [] ∧ ls ≠ []) (list.map String.toList)
        (tss.map Phrase.lexemes) ∧
      ∀ ts ∈ tss, ∀ t ∈ ts, t.Lexed := by
  induction h with
  | nil => exact ⟨[], rfl, by simp, .nil, by simp⟩
  | @cons child ts children tss hchild _ ih =>
    obtain ⟨text, htext, hends⟩ := hchild
    obtain ⟨list, hlist, hlast, hruns, hstarts⟩ := ih
    obtain ⟨hrun, hstart⟩ := hends.run
    refine ⟨text :: list, ?_, ?_, .cons ⟨hrun, hends.lexemes_ne_nil⟩ hruns, ?_⟩
    · rw [texts, htext, hlist]
      rfl
    · intro t ht
      rcases List.mem_cons.mp ht with rfl | ht
      · exact last_of_run hrun hends.lexemes_ne_nil
      · exact hlast t ht
    · intro us hus
      rcases List.mem_cons.mp hus with rfl | hus
      · exact hstart
      · exact hstarts us hus

lemma map_iterate_blockLexemes (lss : List (List Lexeme)) (k : ℕ) :
    (blockLexemes (lss.map (List.map indentLexeme))).map indentLexeme^[k] =
      blockLexemes (lss.map (List.map indentLexeme^[k + 1])) := by
  have hfixed (text : String) (h : '\n' ∉ text.toList) :
      indentLexeme^[k] (.punctuation, text) = (.punctuation, text) :=
    Function.iterate_fixed (indentLexeme_of_noLine h) k
  rw [blockLexemes, blockLexemes, List.map_cons, List.map_append, List.map_singleton,
    hfixed _ (by decide), hfixed _ (by decide), ← List.map_flatten, ← List.map_flatten,
    List.map_map, ← Function.iterate_succ]

lemma blockLexemes_eq_iff {tss : List Phrase} {f : Lexeme → Lexeme} :
    blockLexemes (tss.map fun ts => ts.lexemes.map f) = blockLexemes (tss.map Phrase.lexemes) ↔
      ∀ ts ∈ tss, ∀ l ∈ ts.lexemes, f l = l := by
  have hflatten : (tss.map fun ts => ts.lexemes.map f).flatten =
      (tss.map Phrase.lexemes).flatten.map f := by
    rw [List.map_flatten, List.map_map]
    rfl
  rw [blockLexemes, blockLexemes, List.cons_inj_right, List.append_left_inj, hflatten]
  constructor
  · intro h ts hts l hl
    have hall := List.map_inj_left.mp (h.trans (List.map_id _).symm)
    exact hall l (List.mem_flatten.mpr ⟨_, List.mem_map_of_mem hts, hl⟩)
  · intro h
    refine (List.map_congr_left fun l hl => ?_).trans (List.map_id _)
    obtain ⟨ls, hls, hl⟩ := List.mem_flatten.mp hl
    obtain ⟨ts, hts, rfl⟩ := List.mem_map.mp hls
    exact h ts hts l hl

/-- The tokens of a block with `k` blocks around it. They are a brace, the tokens of its children
and a brace, but each line that starts inside of a token has four blanks more in front of it for
every block. So they are the tokens of the children exactly if none of these, which can only be
strings, holds a line feed. -/
theorem body_tokens {children : List WrittenNode} {tss : List Phrase}
    (h : List.Forall₂ WrittenAs children tss) :
    ∃ pieces, body children = .ok pieces ∧ ∀ k, ∃ us,
      EndsWithToken (indent^[k] (Piece.render pieces)) us ∧
      us.lexemes = blockLexemes (tss.map fun ts => ts.lexemes.map indentLexeme^[k + 1]) ∧
      (us.lexemes = blockLexemes (tss.map Phrase.lexemes) ↔ ∀ ts ∈ tss, NoLines ts.lexemes) := by
  obtain ⟨list, hlist, hlast, hruns, hstarts⟩ := texts_of_writtenAs h
  refine ⟨_, by rw [body, hlist]; rfl, fun k => ?_⟩
  -- the text of the block
  have hwritten := writeOn_body hlast (show Piece.Unpadded [] by intro c hc; simp at hc) []
  have hclosed := Analysis.closed_blockText (list.map String.toList)
  rw [Piece.writeOn_nil, List.nil_append] at hwritten
  have hrender := Piece.render_eq (hwritten ▸ hclosed.unpadded)
  -- its tokens, here and at depth `k`
  have hrun := run_indentedBlock hruns []
  rw [← hwritten, ← hrender] at hrun
  obtain ⟨us, hus, hlexemes⟩ := endsWithToken_of_run hrun (by simp [blockLexemes])
  obtain ⟨vs, hvs, hlexemes'⟩ := hus.indent_iterate k
  have htokens : vs.lexemes =
      blockLexemes (tss.map fun ts => ts.lexemes.map indentLexeme^[k + 1]) := by
    rw [hlexemes', hlexemes, map_iterate_blockLexemes, List.map_map]
    rfl
  refine ⟨vs, hvs, htokens, ?_⟩
  rw [htokens, blockLexemes_eq_iff]
  refine forall₂_congr fun ts hts => forall₂_congr fun l hl => ?_
  obtain ⟨t, ht, rfl⟩ := List.mem_map.mp hl
  obtain ⟨left, hstart⟩ := hstarts ts hts t ht
  rw [indentLexeme_iterate_eq_iff hstart]
  simp

/-- A string over two lines gets blanks in front of its second one. -/
theorem body_tokens_string :
    ∃ ts pieces us, WrittenAs ⟨.newData, .ok "string s = \x60a\nb\x60;"⟩ ts ∧
      body [⟨.newData, .ok "string s = \x60a\nb\x60;"⟩] = .ok pieces ∧
      EndsWithToken (Piece.render pieces) us ∧
      us.lexemes ≠ blockLexemes [ts.lexemes] := by
  have hscan : (scanAll "string s = \x60a\nb\x60;").toOption.any fun r =>
      r.2 = [] ∧ r.1 ≠ [] ∧ r.1.any fun t => t.text.toList.contains '\n' := by
    decide +kernel
  obtain ⟨⟨ts, last⟩, hts, htest⟩ := exists_ok_of_any hscan
  simp only [decide_eq_true_eq] at htest
  obtain ⟨rfl, hne, hany⟩ := htest
  obtain ⟨t, ht, hline⟩ := List.any_eq_true.mp hany
  have hwritten : WrittenAs ⟨.newData, .ok "string s = \x60a\nb\x60;"⟩ ts := ⟨_, rfl, hts, hne⟩
  obtain ⟨pieces, hpieces, hdepths⟩ := body_tokens (.cons hwritten .nil)
  obtain ⟨us, hus, -, hiff⟩ := hdepths 0
  refine ⟨ts, pieces, us, hwritten, hpieces, hus, fun heq => ?_⟩
  have hlines := hiff.mp heq ts (List.mem_singleton_self ts)
  exact hlines _ (List.mem_map_of_mem ht) (by simpa using hline)

end Write

end FlowCanvas
