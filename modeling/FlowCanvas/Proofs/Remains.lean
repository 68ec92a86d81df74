import FlowCanvas.Proofs.Building
import FlowCanvas.Proofs.Reading
import FlowCanvas.Proofs.Rendering

/-!
# What a written statement keeps

`remains leaf s` is what is left of a statement when its node is written, given what is left of the
statements without blocks: unsupported statements are gone, an `else` with nothing left in it is
gone too, and one with a single `if` left in it becomes an `else if`. The text of the node is read
as exactly that, whatever follows it.
-/

namespace FlowCanvas

/-- A token without its layout and its place. -/
abbrev Lexeme := TokenKind × String

namespace Lexer

/-- A text that is read as given lexemes whatever follows it. -/
structure Reads (text : List Char) (ls : List Lexeme) : Prop where
  run : ∀ rest, Run text ls rest
  trimmed : Trimmed text

/-- A text that is read as given lexemes in front of something that ends every token. -/
structure Legible (text : List Char) (ls : List Lexeme) : Prop where
  run : ∀ rest, Safe rest → Run text ls rest
  trimmed : Trimmed text

/-- No lexeme holds a line feed. -/
def NoLines (ls : List Lexeme) : Prop := ∀ l ∈ ls, '\n' ∉ l.2.toList

lemma NoLines.append {ls ms : List Lexeme} (hl : NoLines ls) (hm : NoLines ms) :
    NoLines (ls ++ ms) := by
  intro l hmem
  rcases List.mem_append.mp hmem with h | h
  · exact hl l h
  · exact hm l h

lemma NoLines.cons {l : Lexeme} {ls : List Lexeme} (hl : '\n' ∉ l.2.toList) (hls : NoLines ls) :
    NoLines (l :: ls) := by
  intro m hmem
  rcases List.mem_cons.mp hmem with rfl | h
  · exact hl
  · exact hls m h

lemma safe_cons {c : Char} (h : isBreak c) (rest : List Char) : Safe (c :: rest) := by
  intro d hd
  obtain rfl := Option.some.inj hd
  exact h

lemma Legible.ne_nil {text : List Char} {ls : List Lexeme} (h : Legible text ls) : ls ≠ [] := by
  rintro rfl
  have hrun := h.run [] safe_nil
  cases hrun
  exact h.trimmed.ne_nil rfl

lemma Reads.legible {text : List Char} {ls : List Lexeme} (h : Reads text ls) :
    Legible text ls := ⟨fun rest _ => h.run rest, h.trimmed⟩

/-- A blank in front of a text changes nothing. -/
lemma Legible.space {text : List Char} {ls : List Lexeme} (h : Legible text ls)
    {rest : List Char} (hrest : Safe rest) : Run (' ' :: text) ls rest := by
  obtain ⟨l, ls, rfl⟩ := List.exists_cons_of_ne_nil h.ne_nil
  exact (h.run rest hrest).gap (.blank rfl .nil)

lemma starts_of_split {kind : TokenKind} {c : Char} {cs rest : List Char}
    (hblank : Text.isLayoutBlank c = false) (hhash : c ≠ '#') (hslash : c ≠ '/')
    (h : splitToken c (cs ++ rest) = .ok (kind, c :: cs, rest)) : Starts kind (c :: cs) rest :=
  ⟨(solid_cons_iff c (cs ++ rest)).mpr ⟨hblank, hhash, fun h => hslash h.1⟩, c, cs, rfl, h⟩

lemma run_semicolon (rest : List Char) : Run [';'] [(.punctuation, ";")] rest :=
  Run.token (starts_of_split (by decide) (by decide) (by decide) rfl)

lemma run_closeBrace (rest : List Char) : Run ['\x7d'] [(.punctuation, "\x7d")] rest :=
  Run.token (starts_of_split (by decide) (by decide) (by decide) rfl)

lemma run_openBrace (rest : List Char) : Run ['\x7b'] [(.punctuation, "\x7b")] ('\n' :: rest) :=
  Run.token (starts_of_split (by decide) (by decide) (by decide) rfl)

lemma run_equal (rest : List Char) : Run ['='] [(.punctuation, "=")] (' ' :: rest) :=
  Run.token (starts_of_split (by decide) (by decide) (by decide) rfl)

/-- A word ends in front of a break. -/
lemma run_word {m : Mark} (hm : m ∈ Mark.words) {rest : List Char} (hrest : Safe rest) :
    Run m.text.toList [(.identifier, m.text)] rest := by
  have hstart : Starts .identifier m.text.toList [' '] := by
    cases m <;> simp [Mark.words] at hm <;>
      exact starts_of_split (by decide) (by decide) (by decide) rfl
  simpa using Run.token (hstart.tame (hrest.tame _))

end Lexer

namespace Write

open Lexer

/-! ### Blocks -/

/-- The text of a block: every child on lines of its own. -/
def blockText (texts : List (List Char)) : List Char :=
  [' ', '\x7b'] ++ (texts.flatMap (fun text => '\n' :: indentFrom true text) ++ ['\n', '\x7d'])

/-- The lexemes of a block. -/
def blockLexemes (lss : List (List Lexeme)) : List Lexeme :=
  (.punctuation, "\x7b") :: (lss.flatten ++ [(.punctuation, "\x7d")])

lemma run_children {texts : List (List Char)} {lss : List (List Lexeme)}
    (h : List.Forall₂ (fun text ls => Run text ls [] ∧ ls ≠ []) texts lss) (rest : List Char) :
    Run (texts.flatMap (fun text => '\n' :: indentFrom true text) ++ ['\n', '\x7d'])
      ((lss.map (List.map indentLexeme)).flatten ++ [(.punctuation, "\x7d")]) rest := by
  have hline : Gap false ['\n'] := .blank rfl .nil
  induction h with
  | nil =>
    have hclose := (run_closeBrace rest).gap hline
    simpa using hclose
  | @cons text ls texts lss hread hothers ih =>
    obtain ⟨hrun, hne⟩ := hread
    obtain ⟨l, ls, rfl⟩ := List.exists_cons_of_ne_nil hne
    have hindent := run_indentLexeme hrun true
    have hsafe : Safe (texts.flatMap (fun text => '\n' :: indentFrom true text) ++
        ['\n', '\x7d'] ++ rest) := by
      cases texts with
      | nil => exact safe_cons (by decide) _
      | cons text texts => exact safe_cons (by decide) _
    have hchild := ((hindent.of_safe hsafe).gap hline).append ih
    simpa using hchild

/-- A block is read as its children between braces, with the blanks inside of their lexemes that
indentation puts there. -/
lemma run_indentedBlock {texts : List (List Char)} {lss : List (List Lexeme)}
    (h : List.Forall₂ (fun text ls => Run text ls [] ∧ ls ≠ []) texts lss) (rest : List Char) :
    Run (blockText texts) (blockLexemes (lss.map (List.map indentLexeme))) rest := by
  have hinner := run_children h rest
  have hnext : ∃ more, texts.flatMap (fun text => '\n' :: indentFrom true text) ++
      ['\n', '\x7d'] ++ rest = '\n' :: more := by
    cases texts with
    | nil => exact ⟨_, rfl⟩
    | cons text texts => exact ⟨_, rfl⟩
  obtain ⟨more, hmore⟩ := hnext
  have hbrace : Run [' ', '\x7b'] [(.punctuation, "\x7b")] (texts.flatMap
      (fun text => '\n' :: indentFrom true text) ++ ['\n', '\x7d'] ++ rest) := by
    rw [hmore]
    exact (run_openBrace more).gap (.blank rfl .nil)
  exact hbrace.append hinner

lemma map_indentLexeme {ls : List Lexeme} (h : NoLines ls) : ls.map indentLexeme = ls :=
  (List.map_congr_left fun l hl => indentLexeme_of_noLine (h l hl)).trans (List.map_id ls)

lemma run_blockText {texts : List (List Char)} {lss : List (List Lexeme)}
    (h : List.Forall₂ (fun text ls => Reads text ls ∧ NoLines ls) texts lss) (rest : List Char) :
    Run (blockText texts) (blockLexemes lss) rest := by
  have hlines : lss.map (List.map indentLexeme) = lss := by
    induction h with
    | nil => rfl
    | cons hread _ ih => rw [List.map_cons, map_indentLexeme hread.2, ih]
  have hreads := h.imp fun text ls hread =>
    And.intro (hread.1.run []) hread.1.legible.ne_nil
  have hrun := run_indentedBlock hreads rest
  rwa [hlines] at hrun

lemma getLast?_indentFrom {xs : List Char} {c : Char} (h : xs.getLast? = some c) (hc : c ≠ '\n')
    (start : Bool) : (indentFrom start xs).getLast? = some c := by
  induction xs generalizing start with
  | nil => simp at h
  | cons d xs ih =>
    cases hxs : xs.getLast? with
    | none =>
      obtain rfl := List.getLast?_eq_none_iff.mp hxs
      obtain rfl : d = c := by simpa using h
      rw [indentFrom_cons _ hc (by simp)]
      simp [List.getLast?_append, indentFrom]
    | some e =>
      rw [List.getLast?_cons, hxs] at h
      obtain rfl := Option.some.inj h
      by_cases hline : d = '\n'
      · rw [hline, indentFrom_newLine, List.getLast?_cons, ih hxs]
        rfl
      · by_cases hreturn : d = '\r' ∧ xs.head? = some '\n'
        · rw [hreturn.1, indentFrom_return _ hreturn.2]
          exact ih hxs start
        · rw [indentFrom_cons _ hline hreturn, List.getLast?_append, List.getLast?_cons, ih hxs]
          rfl

lemma unpadded_indentFrom {xs : List Char}
    (h : ∃ c, xs.getLast? = some c ∧ Text.isBlank c = false) (start : Bool) :
    Piece.Unpadded (indentFrom start xs) ∧ indentFrom start xs ≠ [] := by
  obtain ⟨c, hc, hblank⟩ := h
  have hspace : c ≠ ' ' := by
    rintro rfl
    exact absurd hblank (by decide)
  have hline : c ≠ '\n' := by
    rintro rfl
    exact absurd hblank (by decide)
  have hlast := getLast?_indentFrom hc hline start
  constructor
  · intro d hd
    rw [hlast] at hd
    obtain rfl := Option.some.inj hd
    exact ⟨hspace, hline⟩
  · intro hnil
    rw [hnil] at hlast
    simp at hlast

lemma indent_of_last {text : String}
    (h : ∃ c, text.toList.getLast? = some c ∧ Text.isBlank c = false) :
    (indent text).toList = indentFrom true text.toList := by
  refine indent_eq ?_
  obtain ⟨c, hc, hblank⟩ := h
  rw [hc]
  intro heq
  obtain rfl := Option.some.inj heq
  exact absurd hblank (by decide)

lemma writeOn_children {texts : List String}
    (h : ∀ text ∈ texts, ∃ c, text.toList.getLast? = some c ∧ Text.isBlank c = false)
    (xs : List Char) :
    Piece.writeOn (xs ++ ['\n']) (texts.flatMap fun text => [.raw (indent text), .newLine]) =
      xs ++ (texts.map String.toList).flatMap (fun text => '\n' :: indentFrom true text) ++
        ['\n'] := by
  induction texts generalizing xs with
  | nil => simp
  | cons text texts ih =>
    have htext := h text List.mem_cons_self
    obtain ⟨hunpadded, hne⟩ := unpadded_indentFrom htext true
    rw [List.flatMap_cons, List.cons_append, List.cons_append, List.nil_append, Piece.writeOn_raw,
      indent_of_last htext, Piece.writeOn_newLine _ (Piece.unpadded_append _ hunpadded hne),
      ih (fun t ht => h t (List.mem_cons_of_mem _ ht))]
    simp

/-- Children between braces are written as a block. -/
lemma writeOn_body {texts : List String}
    (h : ∀ text ∈ texts, ∃ c, text.toList.getLast? = some c ∧ Text.isBlank c = false)
    {xs : List Char} (hxs : Piece.Unpadded xs) (ps : List Piece) :
    Piece.writeOn xs ([.mark .openBrace, .newLine] ++
        texts.flatMap (fun text => [.raw (indent text), .newLine]) ++ .mark .closeBrace :: ps) =
      Piece.writeOn (xs ++ blockText (texts.map String.toList)) ps := by
  have hbrace : Piece.Unpadded (xs ++ [' ', '\x7b']) := by
    refine Piece.unpadded_append _ ?_ (by simp)
    intro c hc
    obtain rfl := Option.some.inj hc
    decide
  rw [List.append_assoc, List.cons_append, List.cons_append, List.nil_append,
    Piece.writeOn_openBrace _ hxs, Piece.writeOn_newLine _ hbrace, Piece.writeOn_append,
    writeOn_children h, Piece.writeOn_closeBrace]
  simp [blockText]

end Write

/-! ### Control nodes -/

namespace Analysis

open Lexer Build

/-- What is left of a statement, and whether it is an `if`. -/
structure Kept where
  isIf : Bool
  lexemes : List Lexeme

/-- The lexemes of an `else` with statements that are left. -/
def elseLexemes : List Kept → List Lexeme
  | [] => []
  | [⟨true, ls⟩] => (.identifier, "else") :: ls
  | kept => (.identifier, "else") :: Write.blockLexemes (kept.map (·.lexemes))

/-- The text of a control node starts with its word and a blank. -/
def Headed (kind : NodeKind) (text : List Char) (ls : List Lexeme) : Prop :=
  kind ∈ [NodeKind.if, .while] → ∃ word tail, text = word ++ ' ' :: tail ∧
    ls.head? = some (.identifier, .ofList word)

/-- The text of a node is read as what is left of its statement, whatever follows it. -/
def Writes (n : FlowNode) (kept : Kept) : Prop :=
  ∃ text, (Builders.standard.written n).text = .ok text ∧ (n.kind = .if ↔ kept.isIf) ∧
    Headed n.kind text.toList kept.lexemes ∧ Reads text.toList kept.lexemes ∧ NoLines kept.lexemes

lemma written_kind (b : Builders) (n : FlowNode) : (b.written n).kind = n.kind := by
  cases n
  rw [Builders.written]

lemma written_text (n : FlowNode) :
    (Builders.standard.written n).text =
      (Write.statement n (Builders.standard.writtenBranches n.branches)).map Piece.render := by
  cases n
  rw [Builders.written]
  rfl

lemma texts_of_writes {ns : List FlowNode} {ks : List Kept} (h : List.Forall₂ Writes ns ks) :
    ∃ texts, Write.texts (Builders.standard.writtenNodes ns) = .ok texts ∧
      (∀ text ∈ texts, Trimmed text.toList) ∧
      List.Forall₂ (fun text ls => Reads text ls ∧ NoLines ls) (texts.map String.toList)
        (ks.map (·.lexemes)) := by
  induction h with
  | nil =>
    rw [Builders.writtenNodes]
    exact ⟨[], rfl, by simp, .nil⟩
  | @cons n k ns ks hwrites _ ih =>
    obtain ⟨texts, htexts, htrimmed, hreads⟩ := ih
    obtain ⟨text, htext, -, -, hread, hlines⟩ := hwrites
    rw [Builders.writtenNodes]
    refine ⟨text :: texts, ?_, ?_, ?_⟩
    · rw [Write.texts, htext, htexts]
      rfl
    · intro t ht
      rcases List.mem_cons.mp ht with rfl | hmem
      · exact hread.trimmed
      · exact htrimmed t hmem
    · exact .cons ⟨hread, hlines⟩ hreads

/-- The children of a node make a block. -/
lemma body_of_writes {ns : List FlowNode} {ks : List Kept} (h : List.Forall₂ Writes ns ks) :
    ∃ pieces text, Write.body (Builders.standard.writtenNodes ns) = .ok pieces ∧
      (∀ xs ps, Piece.Unpadded xs →
        Piece.writeOn xs (pieces ++ ps) = Piece.writeOn (xs ++ Write.blockText text) ps ∧
        Piece.writeOn (xs ++ [' ']) (pieces ++ ps) = Piece.writeOn xs (pieces ++ ps)) ∧
      ∀ rest, Run (Write.blockText text) (Write.blockLexemes (ks.map (·.lexemes))) rest := by
  obtain ⟨texts, htexts, htrimmed, hreads⟩ := texts_of_writes h
  refine ⟨_, texts.map String.toList, by rw [Write.body, htexts]; rfl, ?_, ?_⟩
  · intro xs ps hxs
    rw [List.append_assoc, List.singleton_append]
    refine ⟨Write.writeOn_body (fun t ht => (htrimmed t ht).last) hxs ps, ?_⟩
    simp only [List.cons_append]
    rw [Piece.writeOn_space_openBrace _ hxs, Piece.writeOn_openBrace _ hxs]
  · exact Write.run_blockText hreads

/-- A text that ends in something else than a blank. -/
def Closed (text : List Char) : Prop := ∃ c, text.getLast? = some c ∧ Text.isBlank c = false

lemma Closed.append {ys : List Char} (h : Closed ys) (xs : List Char) : Closed (xs ++ ys) := by
  obtain ⟨c, hc, hblank⟩ := h
  exact ⟨c, by rw [List.getLast?_append, hc]; rfl, hblank⟩

lemma Closed.unpadded {xs : List Char} (h : Closed xs) : Piece.Unpadded xs := by
  obtain ⟨c, hc, hblank⟩ := h
  intro d hd
  rw [hc] at hd
  obtain rfl := Option.some.inj hd
  constructor <;> rintro rfl <;> exact absurd hblank (by decide)

lemma closed_blockText (texts : List (List Char)) : Closed (Write.blockText texts) :=
  ⟨'\x7d', by simp [Write.blockText, List.getLast?_cons], by decide⟩

lemma Closed.ne_nil {xs : List Char} (h : Closed xs) : xs ≠ [] := by
  obtain ⟨c, hc, -⟩ := h
  rintro rfl
  simp at hc

/-- The word `else` behind a block. -/
lemma writeOn_else {xs : List Char} (hxs : Closed xs) (ps : List Piece) :
    Piece.writeOn xs (.space :: .mark .else :: ps) =
      Piece.writeOn (xs ++ [' ', 'e', 'l', 's', 'e'] ++ [' ']) ps := by
  rw [Piece.writeOn_space _ hxs.unpadded hxs.ne_nil, Piece.writeOn_word _ (by decide)]
  congr 1
  simp [Mark.text]

lemma run_else {rest : List Char} (h : Safe rest) :
    Run [' ', 'e', 'l', 's', 'e'] [(.identifier, "else")] rest :=
  (run_word (m := .else) (by decide) h).gap (.blank rfl .nil)

lemma else_of_body {ns : List FlowNode} {ks : List Kept} (h : List.Forall₂ Writes ns ks) :
    ∃ block text, Write.body (Builders.standard.writtenNodes ns) = .ok block ∧
      (∀ xs, Closed xs → Piece.writeOn xs ([.space, .mark .else] ++ block) = xs ++ text ∧
        Closed (xs ++ text)) ∧
      ∀ rest, Run text ((.identifier, "else") :: Write.blockLexemes (ks.map (·.lexemes))) rest := by
  obtain ⟨block, text, hbody, hwrite, hrun⟩ := body_of_writes h
  have hword : Closed [' ', 'e', 'l', 's', 'e'] := ⟨'e', rfl, by decide⟩
  refine ⟨block, [' ', 'e', 'l', 's', 'e'] ++ Write.blockText text, hbody, ?_, ?_⟩
  · intro xs hxs
    refine ⟨?_, ((closed_blockText text).append _).append xs⟩
    have hunpadded := (hword.append xs).unpadded
    have hblock := hwrite _ [] hunpadded
    rw [List.append_nil] at hblock
    rw [List.cons_append, List.cons_append, List.nil_append, writeOn_else hxs, hblock.2, hblock.1]
    simp
  · intro rest
    refine (run_else ?_).append (hrun rest)
    exact safe_cons (by decide) _

lemma elseLexemes_cons_cons (k k' : Kept) (ks : List Kept) :
    elseLexemes (k :: k' :: ks) =
      (.identifier, "else") :: Write.blockLexemes ((k :: k' :: ks).map (·.lexemes)) := by
  obtain ⟨isIf, ls⟩ := k
  cases isIf <;> rfl

/-- What is left of an `else` is written behind the block in front of it. -/
lemma alternative_of_writes {ns : List FlowNode} {ks : List Kept}
    (h : List.Forall₂ Writes ns ks) :
    ∃ pieces text, Write.alternative (Builders.standard.writtenNodes ns) = .ok pieces ∧
      (∀ xs, Closed xs → Piece.writeOn xs pieces = xs ++ text ∧ Closed (xs ++ text)) ∧
      ∀ rest, Run text (elseLexemes ks) rest := by
  have hblock := else_of_body h
  cases h with
  | nil =>
    refine ⟨[], [], by rw [Builders.writtenNodes]; rfl, ?_, fun rest => .nil rest⟩
    exact fun xs hxs => ⟨by simp, by simpa using hxs⟩
  | @cons n k ns ks hwrites hothers =>
    obtain ⟨block, text, hbody, hwrite, hrun⟩ := hblock
    cases hothers with
    | cons hwrites' hothers =>
      rw [← elseLexemes_cons_cons] at hrun
      refine ⟨_, text, ?_, hwrite, hrun⟩
      simp only [Builders.writtenNodes, Write.alternative] at hbody ⊢
      rw [hbody]
      rfl
    | nil =>
      obtain ⟨isIf, ls⟩ := k
      obtain ⟨own, hown, hif, -, hreads, -⟩ := hwrites
      cases isIf with
      | false =>
        refine ⟨_, text, ?_, hwrite, hrun⟩
        have hkind : (Builders.standard.written n).kind ≠ .if := by
          rw [written_kind]
          simpa using hif
        simp only [Builders.writtenNodes, Write.alternative, hkind, if_false] at hbody ⊢
        rw [hbody]
        rfl
      | true =>
        have hkind : (Builders.standard.written n).kind = .if := by
          rw [written_kind]
          simpa using hif
        refine ⟨[.space, .mark .else, .raw own], [' ', 'e', 'l', 's', 'e'] ++ ' ' :: own.toList,
          ?_, ?_, ?_⟩
        · simp only [Builders.writtenNodes, Write.alternative, hkind, if_true, hown]
          rfl
        · intro xs hxs
          rw [writeOn_else hxs, Piece.writeOn_raw, Piece.writeOn_nil]
          have hend : Closed own.toList := hreads.trimmed.last
          exact ⟨by simp, by simpa using hend.append (xs ++ [' ', 'e', 'l', 's', 'e', ' '])⟩
        · intro rest
          have hown' : Run (' ' :: own.toList) ls rest := by
            obtain ⟨l, ls, rfl⟩ := List.exists_cons_of_ne_nil hreads.legible.ne_nil
            exact (hreads.run rest).gap (.blank rfl .nil)
          exact (run_else (safe_cons (by decide) _)).append hown'

lemma noLines_block {ns : List FlowNode} {ks : List Kept} (h : List.Forall₂ Writes ns ks) :
    NoLines (Write.blockLexemes (ks.map (·.lexemes))) := by
  have hflat : NoLines (ks.map (·.lexemes)).flatten := by
    induction h with
    | nil => intro l hl; simp at hl
    | cons hwrites _ ih =>
      obtain ⟨-, -, -, -, -, hlines⟩ := hwrites
      exact hlines.append ih
  refine .cons (by decide) (hflat.append (.cons (by decide) ?_))
  intro l hl
  simp at hl

lemma noLines_else {ns : List FlowNode} {ks : List Kept} (h : List.Forall₂ Writes ns ks) :
    NoLines (elseLexemes ks) := by
  have hblock := noLines_block h
  unfold elseLexemes
  split
  · intro l hl
    simp at hl
  · cases h with
    | cons hwrites _ =>
      obtain ⟨-, -, -, -, -, hlines⟩ := hwrites
      exact .cons (by decide) hlines
  · exact .cons (by decide) hblock

/-- A word, a condition and a block. -/
lemma run_head {m : Mark} (hm : m ∈ Mark.words) {value : List Char} {ls ms : List Lexeme}
    (hvalue : Legible value ls)
    {text : List (List Char)} {rest : List Char}
    (htext : Run (Write.blockText text) ms rest) :
    Run (m.text.toList ++ (' ' :: value ++ Write.blockText text))
      ((.identifier, m.text) :: (ls ++ ms)) rest := by
  have hword := run_word hm (safe_cons (by decide : isBreak ' ')
    (value ++ Write.blockText text ++ rest))
  exact hword.append ((hvalue.space (safe_cons (by decide) _)).append htext)

/-- A word and its operand. -/
lemma writeOn_operand {m : Mark} (hm : m ∈ Mark.words) {value : String}
    (hvalue : Trimmed value.toList)
    (ps : List Piece) :
    Piece.writeOn [] (.mark m :: .expression value :: ps) =
      Piece.writeOn (m.text.toList ++ ' ' :: value.toList) ps := by
  rw [Piece.writeOn_word _ hm, Piece.writeOn_expression _ _ hvalue]
  simp

/-- Pieces that are written as a closed text are rendered as it. -/
lemma written_of_writeOn {n : FlowNode} {pieces : List Piece} {text : List Char}
    (hpieces : Write.statement n (Builders.standard.writtenBranches n.branches) = .ok pieces)
    (htext : Piece.writeOn [] pieces = text) (hclosed : Closed text) :
    (Builders.standard.written n).text = .ok (String.ofList text) := by
  subst htext
  have hrender := Piece.render_eq hclosed.unpadded
  rw [written_text, hpieces, ← hrender, String.ofList_toList]
  rfl

lemma word_trimmed {m : Mark} (hm : m ∈ Mark.words) :
    ∃ c, m.text.toList.head? = some c ∧ Text.isBlank c = false := by
  cases m <;> simp [Mark.words] at hm <;> exact ⟨_, rfl, by decide⟩

/-- A word, a condition, a block and more behind it. -/
lemma writes_control {m : Mark} {n : FlowNode} {value : Expression} {ks : List Kept}
    {block last : List Piece} {text : List (List Char)} {tail : List Char} {ls : List Lexeme}
    (hm : m ∈ Mark.words)
    (hpieces : Write.statement n (Builders.standard.writtenBranches n.branches) =
      .ok ([.mark m, .expression value.text] ++ block ++ last))
    (hlegible : Legible value.text.toList value.tokens.lexemes)
    (hwrite : ∀ xs ps, Piece.Unpadded xs →
      Piece.writeOn xs (block ++ ps) = Piece.writeOn (xs ++ Write.blockText text) ps)
    (hrun : ∀ rest, Run (Write.blockText text) (Write.blockLexemes (ks.map (·.lexemes))) rest)
    (hwrite' : ∀ xs, Closed xs → Piece.writeOn xs last = xs ++ tail ∧ Closed (xs ++ tail))
    (hrun' : ∀ rest, Run tail ls rest) :
    ∃ written, (Builders.standard.written n).text = .ok written ∧
      (∃ tail, written.toList = m.text.toList ++ ' ' :: tail) ∧
      Reads written.toList ((.identifier, m.text) :: (value.tokens.lexemes ++
        (Write.blockLexemes (ks.map (·.lexemes)) ++ ls))) := by
  have hcondition : Closed (m.text.toList ++ ' ' :: value.text.toList) := by
    have hend : Closed value.text.toList := hlegible.trimmed.last
    simpa using hend.append (m.text.toList ++ [' '])
  obtain ⟨hlast, hclosed⟩ := hwrite' _
    ((closed_blockText text).append (m.text.toList ++ ' ' :: value.text.toList))
  have hwritten : Piece.writeOn [] ([.mark m, .expression value.text] ++ block ++ last) =
      m.text.toList ++ ' ' :: value.text.toList ++ Write.blockText text ++ tail := by
    rw [List.append_assoc, List.cons_append, List.cons_append, List.nil_append,
      writeOn_operand hm hlegible.trimmed, hwrite _ _ hcondition.unpadded, hlast]
  refine ⟨_, written_of_writeOn hpieces hwritten hclosed,
    ⟨value.text.toList ++ Write.blockText text ++ tail, by simp⟩, ?_, ?_⟩
  · intro rest
    have hhead := run_head hm hlegible (hrun (tail ++ rest))
    simpa [List.append_assoc] using hhead.append (hrun' rest)
  · obtain ⟨c, hc, hblank⟩ := word_trimmed hm
    obtain ⟨cs, hcs⟩ := List.head?_eq_some_iff.mp hc
    rw [String.toList_ofList]
    exact ⟨⟨c, by simp [hcs], hblank⟩, hclosed⟩

/-- An `if` node is written as what is left of its blocks. -/
lemma writes_if {n : FlowNode} {value : Expression} {ns ms : List FlowNode} {ks js : List Kept}
    (hkind : n.kind = .if) (hvalue : Write.require n "condition" = .ok value.text)
    (hlegible : Legible value.text.toList value.tokens.lexemes)
    (hlines : NoLines value.tokens.lexemes)
    (hthen : Write.childrenOf (Builders.standard.writtenBranches n.branches) Branch.thenLabel =
      Builders.standard.writtenNodes ns)
    (helse : Write.childrenOf (Builders.standard.writtenBranches n.branches) Branch.elseLabel =
      Builders.standard.writtenNodes ms)
    (hns : List.Forall₂ Writes ns ks) (hms : List.Forall₂ Writes ms js) :
    Writes n ⟨true, (.identifier, "if") :: (value.tokens.lexemes ++
      (Write.blockLexemes (ks.map (·.lexemes)) ++ elseLexemes js))⟩ := by
  obtain ⟨block, text, hbody, hwrite, hrun⟩ := body_of_writes hns
  obtain ⟨last, tail, halternative, hlast, hrun'⟩ := alternative_of_writes hms
  have hpieces : Write.statement n (Builders.standard.writtenBranches n.branches) =
      .ok ([.mark .if, .expression value.text] ++ block ++ last) := by
    simp only [Write.statement, hkind, Write.ifStatement, hvalue, hthen, hbody, helse,
      halternative]
    rfl
  obtain ⟨written, hwritten, ⟨after, hafter⟩, hreads⟩ := writes_control (m := .if) (by decide)
    hpieces hlegible (fun xs ps hxs => (hwrite xs ps hxs).1) hrun hlast hrun'
  refine ⟨written, hwritten, by simp [hkind], fun _ => ⟨_, after, hafter, rfl⟩, hreads, ?_⟩
  exact .cons (by decide) (hlines.append ((noLines_block hns).append (noLines_else hms)))

/-- A `while` node is written as what is left of its body. -/
lemma writes_while {n : FlowNode} {value : Expression} {ns : List FlowNode} {ks : List Kept}
    (hkind : n.kind = .while) (hvalue : Write.require n "condition" = .ok value.text)
    (hlegible : Legible value.text.toList value.tokens.lexemes)
    (hlines : NoLines value.tokens.lexemes)
    (hbody : Write.childrenOf (Builders.standard.writtenBranches n.branches) Branch.bodyLabel =
      Builders.standard.writtenNodes ns)
    (hns : List.Forall₂ Writes ns ks) :
    Writes n ⟨false, (.identifier, "while") :: (value.tokens.lexemes ++
      Write.blockLexemes (ks.map (·.lexemes)))⟩ := by
  obtain ⟨block, text, hblock, hwrite, hrun⟩ := body_of_writes hns
  have hpieces : Write.statement n (Builders.standard.writtenBranches n.branches) =
      .ok ([.mark .while, .expression value.text] ++ block ++ []) := by
    rw [List.append_nil]
    simp only [Write.statement, hkind, Write.whileStatement, hvalue, hbody, hblock]
    rfl
  obtain ⟨written, hwritten, ⟨after, hafter⟩, hreads⟩ := writes_control (m := .while) (by decide)
    hpieces hlegible (fun xs ps hxs => (hwrite xs ps hxs).1) hrun
    (fun xs hxs => ⟨by simp, by simpa using hxs⟩) (fun rest => .nil rest)
  rw [List.append_nil] at hreads
  refine ⟨written, hwritten, by simp [hkind], fun _ => ⟨_, after, hafter, rfl⟩, hreads, ?_⟩
  exact .cons (by decide) (hlines.append (noLines_block hns))

end Analysis

namespace Construct

mutual

/-- The statements of a statement stand inside of it. -/
lemma inside_statement : ∀ {s s' : Statement}, s' ∈ s.nested →
    Inside (.statement s) (.statement s')
  | .conditional read, _, h => by
    rw [Statement.nested] at h
    exact inside_conditional h
  | .loop value body span, _, h => by
    rw [Statement.nested, List.mem_cons] at h
    rcases h with rfl | hmem
    · exact .refl
    · exact (Inside.refl.child List.mem_cons_self).trans (inside_block hmem)
  | .declaration d, _, h => by simp_all [Statement.nested, Inside.refl]
  | .assignment target value span, _, h => by simp_all [Statement.nested, Inside.refl]
  | .exit kind value span, _, h => by simp_all [Statement.nested, Inside.refl]
  | .jump kind span, _, h => by simp_all [Statement.nested, Inside.refl]
  | .expression value span, _, h => by simp_all [Statement.nested, Inside.refl]
  | .unsupported construct span, _, h => by simp_all [Statement.nested, Inside.refl]

lemma inside_conditional : ∀ {read : Conditional} {s' : Statement}, s' ∈ read.nested →
    Inside (.statement (.conditional read)) (.statement s')
  | .mk value body alternative span, _, h => by
    rw [Conditional.nested, List.mem_cons, List.mem_append] at h
    rcases h with rfl | hmem | hmem
    · exact .refl
    · exact (Inside.refl.child List.mem_cons_self).trans (inside_block hmem)
    · obtain ⟨inner, hinner, hinside⟩ := inside_alternative hmem
      exact (Inside.refl.child (List.mem_cons_of_mem _ hinner)).trans hinside

lemma inside_alternative : ∀ {a : Alternative} {s' : Statement}, s' ∈ a.nested →
    ∃ inner ∈ ofAlternative a, Inside inner (.statement s')
  | .absent, _, h => by simp [Alternative.nested] at h
  | .block body, _, h => by
    rw [Alternative.nested] at h
    exact ⟨_, List.mem_cons_self, inside_block h⟩
  | .chained next, _, h => by
    rw [Alternative.nested] at h
    exact ⟨_, List.mem_cons_self, inside_conditional h⟩

lemma inside_block : ∀ {b : Block} {s' : Statement}, s' ∈ b.nested →
    Inside (.block b) (.statement s')
  | .mk list span, _, h => by
    rw [Block.nested] at h
    obtain ⟨s, hs, hinside⟩ := inside_statements h
    exact (Inside.refl.child (List.mem_map_of_mem hs)).trans hinside

lemma inside_statements : ∀ {list : List Statement} {s' : Statement},
    s' ∈ Statement.allNested list → ∃ s ∈ list, Inside (.statement s) (.statement s')
  | [], _, h => by simp [Statement.allNested] at h
  | s :: list, _, h => by
    rw [Statement.allNested, List.mem_append] at h
    rcases h with hmem | hmem
    · exact ⟨s, List.mem_cons_self, inside_statement hmem⟩
    · obtain ⟨t, ht, hinside⟩ := inside_statements hmem
      exact ⟨t, List.mem_cons_of_mem _ ht, hinside⟩

end

end Construct

namespace Analysis

open Lexer Build

/-! ### Statements -/

mutual

/-- What is left of a statement when only some of the statements inside it are kept, given what is
left of statements without blocks. -/
def remains (keep : Statement → Bool) (leaf : Statement → List Lexeme) : Statement → List Lexeme
  | .conditional read => conditionalRemains keep leaf read
  | .loop value body _ =>
    (.identifier, "while") :: (value.tokens.lexemes ++
      Write.blockLexemes ((blockRemains keep leaf body).map (·.lexemes)))
  | s => leaf s

def conditionalRemains (keep : Statement → Bool) (leaf : Statement → List Lexeme) :
    Conditional → List Lexeme
  | .mk value body alternative _ =>
    (.identifier, "if") :: (value.tokens.lexemes ++
      (Write.blockLexemes ((blockRemains keep leaf body).map (·.lexemes)) ++
        elseLexemes (alternativeRemains keep leaf alternative)))

def alternativeRemains (keep : Statement → Bool) (leaf : Statement → List Lexeme) :
    Alternative → List Kept
  | .absent => []
  | .block body => blockRemains keep leaf body
  | .chained next => [⟨true, conditionalRemains keep leaf next⟩]

def blockRemains (keep : Statement → Bool) (leaf : Statement → List Lexeme) : Block → List Kept
  | .mk list _ => statementsRemain keep leaf list

def statementsRemain (keep : Statement → Bool) (leaf : Statement → List Lexeme) :
    List Statement → List Kept
  | [] => []
  | s :: list =>
    (if keep s then [⟨s.isConditional, remains keep leaf s⟩] else []) ++
      statementsRemain keep leaf list

end

/-- The condition of a control statement is read back, and so is a statement without blocks. -/
def Ready (c : Context) (leaf : Statement → List Lexeme) : Statement → Prop
  | .conditional read => Legible read.condition.text.toList read.condition.tokens.lexemes ∧
    NoLines read.condition.tokens.lexemes
  | .loop value _ _ => Legible value.text.toList value.tokens.lexemes ∧
    NoLines value.tokens.lexemes
  | .unsupported .. => True
  | s => ∃ n, statement .standard c s = some n ∧ Writes n ⟨false, leaf s⟩

lemma text?_of_get? {b : PropertyBag} {key : String} {p : Property} (hget : b.get? key = some p)
    (hblank : p.isBlank = false) : b.text? key = some p.sourceText := by
  simp [PropertyBag.text?, hget, hblank]

lemma require_of_get? {n : FlowNode} {key : String} {p : Property}
    (hget : n.properties.get? key = some p) (hblank : p.isBlank = false) :
    Write.require n key = .ok p.sourceText := by
  simp [Write.require, PropertyBag.require, text?_of_get? hget hblank]

section Statements

variable {c : Context} {leaf : Statement → List Lexeme}

mutual

/-- The node of a statement is written as what is left of the statement. -/
lemma writes_statement : ∀ {s : Statement}, (∀ s' ∈ s.nested, Ready c leaf s') → s.isSupported →
    ∃ n, statement .standard c s = some n ∧
      Writes n ⟨s.isConditional, remains Statement.isSupported leaf s⟩
  | .conditional read, hready, _ => by
    rw [Statement.nested] at hready
    rw [remains]
    exact writes_conditional hready
  | .loop value body span, hready, _ => by
    rw [Statement.nested, List.forall_mem_cons] at hready
    obtain ⟨⟨hlegible, hlines⟩, hready⟩ := hready
    refine ⟨_, rfl, ?_⟩
    rw [remains]
    refine writes_while rfl ?_ hlegible hlines ?_ (writes_block hready)
    · exact require_of_get? (p := .ofCondition value.text) rfl hlegible.trimmed.blank
    · rw [branchesOf, Builders.writtenBranches]
      rfl
  | .declaration d, hready, _ => hready _ (Statement.mem_nested_self _)
  | .assignment target value span, hready, _ => hready _ (Statement.mem_nested_self _)
  | .exit kind value span, hready, _ => hready _ (Statement.mem_nested_self _)
  | .jump kind span, hready, _ => hready _ (Statement.mem_nested_self _)
  | .expression value span, hready, _ => hready _ (Statement.mem_nested_self _)

lemma writes_conditional : ∀ {read : Conditional}, (∀ s' ∈ read.nested, Ready c leaf s') →
    ∃ n, statement .standard c (.conditional read) = some n ∧
      Writes n ⟨true, conditionalRemains Statement.isSupported leaf read⟩
  | .mk value body alternative span, hready => by
    rw [Conditional.nested, List.forall_mem_cons, List.forall_mem_append] at hready
    obtain ⟨⟨hlegible, hlines⟩, hbody, halternative⟩ := hready
    obtain ⟨ms, hms, hchildren⟩ := writes_alternative halternative
    refine ⟨_, rfl, ?_⟩
    rw [conditionalRemains]
    refine writes_if rfl ?_ hlegible hlines ?_ ?_ (writes_block hbody) hms
    · exact require_of_get? (p := .ofCondition value.text) rfl hlegible.trimmed.blank
    · rw [branchesOf, conditional, Builders.writtenBranches]
      rfl
    · rw [branchesOf, conditional, Builders.writtenBranches]
      exact hchildren

lemma writes_alternative : ∀ {a : Alternative}, (∀ s' ∈ a.nested, Ready c leaf s') →
    ∃ ns, List.Forall₂ Writes ns (alternativeRemains Statement.isSupported leaf a) ∧
      Write.childrenOf (Builders.standard.writtenBranches (elseBranch .standard c a))
        Branch.elseLabel = Builders.standard.writtenNodes ns
  | .absent, _ => by
    rw [alternativeRemains, elseBranch, Builders.writtenBranches]
    refine ⟨[], .nil, ?_⟩
    rw [Builders.writtenNodes]
    rfl
  | .block body, hready => by
    rw [Alternative.nested] at hready
    rw [alternativeRemains, elseBranch, Builders.writtenBranches]
    exact ⟨_, writes_block hready, rfl⟩
  | .chained next, hready => by
    rw [Alternative.nested] at hready
    obtain ⟨n, hn, hwrites⟩ := writes_conditional hready
    rw [statement, branchesOf] at hn
    rw [alternativeRemains, elseBranch, Builders.writtenBranches, hn]
    exact ⟨[n], .cons hwrites .nil, rfl⟩

lemma writes_block : ∀ {b : Block}, (∀ s' ∈ b.nested, Ready c leaf s') →
    List.Forall₂ Writes (block .standard c b) (blockRemains Statement.isSupported leaf b)
  | .mk list span, hready => by
    rw [Block.nested] at hready
    rw [block, blockRemains]
    exact writes_statements hready

lemma writes_statements : ∀ {list : List Statement},
    (∀ s' ∈ Statement.allNested list, Ready c leaf s') →
    List.Forall₂ Writes (statements .standard c list)
      (statementsRemain Statement.isSupported leaf list)
  | [], _ => by
    rw [statements, statementsRemain]
    exact .nil
  | s :: list, hready => by
    rw [Statement.allNested, List.forall_mem_append] at hready
    have hlist := writes_statements hready.2
    rw [statements, statementsRemain]
    cases hs : s.isSupported with
    | false =>
      cases s <;> simp only [Statement.isSupported, Bool.true_eq_false] at hs
      exact hlist
    | true =>
      obtain ⟨n, hn, hwrites⟩ := writes_statement hready.1 hs
      rw [statement] at hn
      rw [hn]
      exact .cons hwrites hlist

end

end Statements

end Analysis

end FlowCanvas
