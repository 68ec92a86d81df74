import FlowCanvas.Proofs.TokenGrammar
import FlowCanvas.Write.Statement

/-!
# Written texts and their tokens

`Piece.writeOn` is what pieces add behind a text. Texts that start and end with something else than
a blank are written as they are, so what is written is read as its parts, one after the other.
Putting blanks in front of lines changes the layout between tokens only, as long as no token holds
a line feed.
-/

namespace FlowCanvas

namespace Lexer

namespace Trimmed

lemma ne_nil {cs : List Char} (h : Trimmed cs) : cs ≠ [] := by
  obtain ⟨c, hc, -⟩ := h.head
  rintro rfl
  simp at hc

lemma trimChars {cs : List Char} (h : Trimmed cs) : Text.trimChars cs = cs := by
  obtain ⟨⟨c, hc, hblank⟩, ⟨d, hd, hblank'⟩⟩ := h
  have hfront : cs.dropWhile Text.isBlank = cs := by
    obtain ⟨ds, rfl⟩ := List.head?_eq_some_iff.mp hc
    rw [List.dropWhile_cons_of_neg (by simp [hblank])]
  have hback : cs.reverse.dropWhile Text.isBlank = cs.reverse := by
    obtain ⟨ds, hds⟩ := List.head?_eq_some_iff.mp (List.head?_reverse.trans hd)
    rw [hds, List.dropWhile_cons_of_neg (by simp [hblank'])]
  rw [Text.trimChars, hfront, hback, List.reverse_reverse]

lemma trim {s : String} (h : Trimmed s.toList) : Text.trim s = s := by
  rw [Text.trim, h.trimChars, String.ofList_toList]

lemma blank {s : String} (h : Trimmed s.toList) : Text.blank s = false := by
  obtain ⟨c, hc, hblank⟩ := h.head
  rw [Text.blank, List.all_eq_false]
  exact ⟨c, List.mem_of_mem_head? hc, by simp [hblank]⟩

end Trimmed

end Lexer

/-- The marks that are written with a blank behind them. -/
def Mark.words : List Mark :=
  [.return, .check, .fail, .panic, .new, .final, .if, .else, .while, .break, .continue]

namespace Piece

open Lexer

/-- What is written when pieces follow a text. -/
def writeOn (xs : List Char) (ps : List Piece) : List Char := (ps.foldl write xs.reverse).reverse

/-- A text that does not end in a blank that the next piece would take away. -/
def Unpadded (xs : List Char) : Prop := ∀ c ∈ xs.getLast?, c ≠ ' ' ∧ c ≠ '\n'

lemma unpadded_append {ys : List Char} (xs : List Char) (h : Unpadded ys) (hne : ys ≠ []) :
    Unpadded (xs ++ ys) := by
  intro c hc
  refine h c ?_
  rw [List.getLast?_append, List.getLast?_eq_some_getLast hne] at hc
  rwa [List.getLast?_eq_some_getLast hne]

lemma unpadded_of_trimmed {ys : List Char} (h : Trimmed ys) : Unpadded ys := by
  obtain ⟨d, hd, hblank⟩ := h.last
  intro c hc
  rw [hd] at hc
  obtain rfl := Option.some.inj hc
  constructor <;> rintro rfl <;> exact absurd hblank (by decide)

lemma trimEnd_reverse {xs : List Char} (h : Unpadded xs) : trimEnd xs.reverse = xs.reverse := by
  unfold trimEnd
  cases hxs : xs.reverse with
  | nil => rfl
  | cons c cs =>
    have hlast : xs.getLast? = some c := by rw [← List.head?_reverse, hxs, List.head?_cons]
    rw [List.dropWhile_cons_of_neg (by simpa using (h c hlast).1)]

/-- An unpadded text is rendered as it is written. -/
lemma render_eq {ps : List Piece} (h : Unpadded (writeOn [] ps)) :
    (render ps).toList = writeOn [] ps := by
  have htrim := trimEnd_reverse h
  unfold writeOn at htrim
  rw [List.reverse_reverse, List.reverse_nil] at htrim
  rw [render, htrim, String.toList_ofList]
  rfl

section Steps

variable (xs : List Char) (ps : List Piece)

@[simp]
lemma writeOn_nil : writeOn xs [] = xs := List.reverse_reverse xs

lemma writeOn_append (qs : List Piece) : writeOn xs (ps ++ qs) = writeOn (writeOn xs ps) qs := by
  simp [writeOn, List.foldl_append]

/-- The first piece is written on its own: `ys` is what stands there behind it. -/
lemma writeOn_cons {p : Piece} {ys : List Char} (h : write xs.reverse p = ys.reverse) :
    writeOn xs (p :: ps) = writeOn ys ps := by
  rw [writeOn, List.foldl_cons, h, writeOn]

lemma put_reverse (text : String) : put text xs.reverse = (xs ++ text.toList).reverse :=
  List.reverse_append.symm

@[simp]
lemma writeOn_name (text : String) :
    writeOn xs (.name text :: ps) = writeOn (xs ++ text.toList) ps :=
  writeOn_cons xs ps (put_reverse xs text)

@[simp]
lemma writeOn_raw (text : String) :
    writeOn xs (.raw text :: ps) = writeOn (xs ++ text.toList) ps :=
  writeOn_cons xs ps (put_reverse xs text)

lemma writeOn_expression {text : String} (h : Trimmed text.toList) :
    writeOn xs (.expression text :: ps) = writeOn (xs ++ text.toList) ps :=
  writeOn_cons xs ps (by rw [write, h.trim, put_reverse])

variable {xs}

/-- A text that takes the blanks in front of it away finds none behind an unpadded one. -/
lemma put_trimEnd (h : Unpadded xs) (text : String) :
    put text (trimEnd xs.reverse) = (xs ++ text.toList).reverse := by
  rw [trimEnd_reverse h, put_reverse]

lemma writeOn_space (h : Unpadded xs) (hne : xs ≠ []) :
    writeOn xs (.space :: ps) = writeOn (xs ++ [' ']) ps := by
  obtain ⟨c, hlast⟩ : ∃ c, xs.getLast? = some c := ⟨_, List.getLast?_eq_some_getLast hne⟩
  obtain ⟨hspace, hline⟩ := h c hlast
  obtain ⟨ys, rfl⟩ := List.getLast?_eq_some_iff.mp hlast
  refine writeOn_cons _ ps ?_
  rw [List.reverse_concat, write]
  simp [hspace, hline]

lemma writeOn_equal (h : Unpadded xs) :
    writeOn xs (.mark .equal :: ps) = writeOn (xs ++ [' ', '=', ' ']) ps :=
  writeOn_cons xs ps (put_trimEnd h " = ")

lemma writeOn_comma (h : Unpadded xs) :
    writeOn xs (.mark .comma :: ps) = writeOn (xs ++ [',', ' ']) ps :=
  writeOn_cons xs ps (put_trimEnd h ", ")

lemma writeOn_openBrace (h : Unpadded xs) :
    writeOn xs (.mark .openBrace :: ps) = writeOn (xs ++ [' ', '\x7b']) ps :=
  writeOn_cons xs ps (put_trimEnd h " \x7b")

lemma writeOn_openParen (h : Unpadded xs) :
    writeOn xs (.mark .openParen :: ps) = writeOn (xs ++ ['(']) ps :=
  writeOn_cons xs ps (put_trimEnd h "(")

lemma writeOn_closeParen (h : Unpadded xs) :
    writeOn xs (.mark .closeParen :: ps) = writeOn (xs ++ [')']) ps :=
  writeOn_cons xs ps (put_trimEnd h ")")

lemma writeOn_closeBrace :
    writeOn xs (.mark .closeBrace :: ps) = writeOn (xs ++ ['\x7d']) ps :=
  writeOn_cons xs ps (put_reverse xs "\x7d")

lemma writeOn_newLine (h : Unpadded xs) :
    writeOn xs (.newLine :: ps) = writeOn (xs ++ ['\n']) ps :=
  writeOn_cons xs ps (by rw [write, trimEnd_reverse h, List.reverse_concat])

lemma writeOn_semicolon (h : Unpadded xs) :
    writeOn xs (.semicolon :: ps) = writeOn (xs ++ [';']) ps :=
  writeOn_cons xs ps (by rw [write, trimEnd_reverse h, List.reverse_concat])

lemma writeOn_word {m : Mark} (hm : m ∈ Mark.words) :
    writeOn xs (.mark m :: ps) = writeOn (xs ++ m.text.toList ++ [' ']) ps := by
  refine writeOn_cons xs ps ?_
  rw [List.reverse_concat, ← put_reverse]
  cases m <;> first | rfl | simp [Mark.words] at hm

lemma trimEnd_space : trimEnd (xs ++ [' ']).reverse = trimEnd xs.reverse := by
  rw [List.reverse_concat]
  rfl

/-- The blank behind a word gives way to a semicolon. -/
lemma writeOn_space_semicolon (h : Unpadded xs) :
    writeOn (xs ++ [' ']) (.semicolon :: ps) = writeOn (xs ++ [';']) ps :=
  writeOn_cons _ ps (by rw [write, trimEnd_space, trimEnd_reverse h, List.reverse_concat])

lemma writeOn_space_openBrace (h : Unpadded xs) :
    writeOn (xs ++ [' ']) (.mark .openBrace :: ps) = writeOn (xs ++ [' ', '\x7b']) ps := by
  refine writeOn_cons _ ps ?_
  change put " \x7b" (trimEnd (xs ++ [' ']).reverse) = _
  rw [trimEnd_space, put_trimEnd h]
  rfl

end Steps

end Piece

namespace Write

open Lexer

/-! ### Indentation -/

/-- The characters of a text with four blanks in front of each line that is not empty; `start` tells
whether a line starts here. -/
def indentFrom : Bool → List Char → List Char
  | _, [] => []
  | start, c :: cs =>
    if c == '\n' then '\n' :: indentFrom true cs
    else if c == '\r' && cs.head? == some '\n' then indentFrom start cs
    else (if start then [' ', ' ', ' ', ' '] else []) ++ c :: indentFrom false cs

/-- A line with four blanks in front of it, unless it is empty. -/
def padded (line : List Char) : List Char :=
  if line.isEmpty then [] else [' ', ' ', ' ', ' '] ++ line

lemma lines_ne_nil {cs : List Char} (h : cs ≠ []) : lines cs ≠ [] := by
  induction cs with
  | nil => exact absurd rfl h
  | cons c cs ih =>
    rw [lines]
    split_ifs with hline hreturn
    · simp
    · refine ih ?_
      rintro rfl
      simp at hreturn
    · split <;> simp

/-- The first line as it is, the others with blanks in front of them. -/
def paddedRest : List (List Char) → List (List Char)
  | [] => []
  | l :: ls => l :: ls.map padded

lemma intercalate_cons {sep l : List Char} {ls : List (List Char)} (h : ls ≠ []) :
    sep.intercalate (l :: ls) = l ++ (sep ++ sep.intercalate ls) := by
  obtain ⟨m, ms, rfl⟩ := List.exists_cons_of_ne_nil h
  simp [List.intercalate]

/-- Lines that are padded and joined are the text with blanks at the start of its lines. -/
lemma intercalate_padded {cs : List Char} (h : cs.getLast? ≠ some '\n') :
    ['\n'].intercalate ((lines cs).map padded) = indentFrom true cs ∧
      ['\n'].intercalate (paddedRest (lines cs)) = indentFrom false cs := by
  induction cs with
  | nil => exact ⟨rfl, rfl⟩
  | cons c cs ih =>
    have htail : cs.getLast? ≠ some '\n' := by
      intro hlast
      rw [List.getLast?_cons, hlast] at h
      exact h rfl
    obtain ⟨ihTrue, ihFalse⟩ := ih htail
    by_cases hline : c = '\n'
    · -- the text goes on behind the line feed, and so do its lines
      subst hline
      have hne : lines cs ≠ [] := by
        refine lines_ne_nil ?_
        rintro rfl
        exact h rfl
      have hlines : lines ('\n' :: cs) = [] :: lines cs := by simp [lines]
      have hmap : (lines cs).map padded ≠ [] := by simpa using hne
      rw [hlines, List.map_cons, paddedRest, intercalate_cons hmap, intercalate_cons hmap, ihTrue]
      exact ⟨by simp [padded, indentFrom], by simp [indentFrom]⟩
    · by_cases hreturn : c = '\r' ∧ cs.head? = some '\n'
      · have hlines : lines (c :: cs) = lines cs := by simp [lines, hreturn.1, hreturn.2]
        rw [hlines, ihTrue, ihFalse]
        exact ⟨by simp [indentFrom, hreturn.1, hreturn.2],
          by simp [indentFrom, hreturn.1, hreturn.2]⟩
      · have hreturn' : (c == '\r' && cs.head? == some '\n') = false := by simpa using hreturn
        have hindent : ∀ start, indentFrom start (c :: cs) =
            (if start then [' ', ' ', ' ', ' '] else []) ++ c :: indentFrom false cs := by
          intro start
          simp [indentFrom, hline, hreturn']
        rw [hindent, hindent, ← ihFalse]
        cases hcs : lines cs with
        | nil =>
          have hlines : lines (c :: cs) = [[c]] := by simp [lines, hline, hreturn', hcs]
          rw [hlines]
          exact ⟨rfl, rfl⟩
        | cons l ls =>
          have hlines : lines (c :: cs) = (c :: l) :: ls := by
            simp [lines, hline, hreturn', hcs]
          rw [hlines]
          cases ls with
          | nil =>
            exact ⟨by simp [padded, List.intercalate, paddedRest],
              by simp [List.intercalate, paddedRest]⟩
          | cons m ms =>
            exact ⟨by simp [padded, List.intercalate, paddedRest],
              by simp [List.intercalate, paddedRest]⟩

/-- Indenting a text puts blanks at the start of its lines. -/
lemma indent_eq {text : String} (h : text.toList.getLast? ≠ some '\n') :
    (indent text).toList = indentFrom true text.toList := by
  rw [← (intercalate_padded h).1, indent, String.toList_intercalate, List.map_map]
  congr 1
  refine List.map_congr_left fun l _ => ?_
  cases l with
  | nil => rfl
  | cons c l => simp [padded]

lemma indentFrom_newLine (start : Bool) (cs : List Char) :
    indentFrom start ('\n' :: cs) = '\n' :: indentFrom true cs := by
  simp [indentFrom]

lemma indentFrom_return (start : Bool) {cs : List Char} (h : cs.head? = some '\n') :
    indentFrom start ('\r' :: cs) = indentFrom start cs := by
  simp [indentFrom, h]

lemma indentFrom_cons (start : Bool) {c : Char} {cs : List Char} (hline : c ≠ '\n')
    (hreturn : ¬(c = '\r' ∧ cs.head? = some '\n')) :
    indentFrom start (c :: cs) =
      (if start then [' ', ' ', ' ', ' '] else []) ++ c :: indentFrom false cs := by
  have hreturn' : (c == '\r' && cs.head? == some '\n') = false := by simpa using hreturn
  simp [indentFrom, hline, hreturn']

/-- Indentation does not bring anything closer to the token in front of it. -/
lemma tame_indentFrom (xs rest : List Char) :
    Tame (xs ++ rest) (indentFrom false xs ++ rest) := by
  induction xs with
  | nil => exact Tame.refl rest
  | cons c xs ih =>
    have hbreak : ∀ ys, Tame (c :: xs ++ rest) ('\n' :: ys) := fun ys =>
      Safe.tame (by intro d hd; obtain rfl := Option.some.inj hd; decide) _
    by_cases hline : c = '\n'
    · rw [hline, indentFrom_newLine, ← hline]
      subst hline
      exact hbreak _
    · by_cases hreturn : c = '\r' ∧ xs.head? = some '\n'
      · obtain ⟨rfl, hhead⟩ := hreturn
        obtain ⟨ys, rfl⟩ := List.head?_eq_some_iff.mp hhead
        rw [indentFrom_return _ hhead, indentFrom_newLine]
        exact hbreak _
      · rw [indentFrom_cons _ hline hreturn]
        exact ih.cons c

lemma gap_spaces {comment : Bool} {gap : List Char} (h : Gap comment gap) (start : Bool) :
    Gap comment ((if start then [' ', ' ', ' ', ' '] else []) ++ gap) := by
  cases start with
  | false => exact h
  | true =>
    cases comment with
    | false => exact .blank rfl (.blank rfl (.blank rfl (.blank rfl h)))
    | true =>
      exact .comment (by decide) (.comment (by decide) (.comment (by decide)
        (.comment (by decide) h)))

/-- Indented layout is layout. -/
lemma gap_indentFrom {comment : Bool} {gap : List Char} (h : Gap comment gap) {t : Char}
    (hline : t ≠ '\n') (hreturn : t ≠ '\r') (ts : List Char) (start : Bool) :
    ∃ gap', indentFrom start (gap ++ t :: ts) = gap' ++ t :: indentFrom false ts ∧
      Gap comment gap' := by
  induction h generalizing start with
  | nil =>
    refine ⟨if start then [' ', ' ', ' ', ' '] else [], ?_, ?_⟩
    · rw [List.nil_append, indentFrom_cons _ hline (by simp [hreturn])]
    · simpa using gap_spaces .nil start
  | @blank c cs hblank rest ih =>
    by_cases hc : c = '\n'
    · subst hc
      obtain ⟨gap', heq, hgap⟩ := ih true
      exact ⟨'\n' :: gap', by rw [List.cons_append, indentFrom_newLine, heq]; rfl,
        .blank hblank hgap⟩
    · by_cases hr : c = '\r' ∧ (cs ++ t :: ts).head? = some '\n'
      · obtain ⟨rfl, hhead⟩ := hr
        obtain ⟨gap', heq, hgap⟩ := ih start
        exact ⟨gap', by rw [List.cons_append, indentFrom_return _ hhead, heq], hgap⟩
      · obtain ⟨gap', heq, hgap⟩ := ih false
        refine ⟨_ ++ c :: gap', ?_, gap_spaces (.blank hblank hgap) start⟩
        rw [List.cons_append, indentFrom_cons _ hc hr, heq]
        simp
  | @hash cs rest ih =>
    obtain ⟨gap', heq, hgap⟩ := ih false
    refine ⟨_ ++ '#' :: gap', ?_, gap_spaces (.hash hgap) start⟩
    rw [List.cons_append, indentFrom_cons _ (by decide) (by simp), heq]
    simp
  | @slashes cs rest ih =>
    obtain ⟨gap', heq, hgap⟩ := ih false
    refine ⟨_ ++ '/' :: '/' :: gap', ?_, gap_spaces (.slashes hgap) start⟩
    rw [List.cons_append, List.cons_append, indentFrom_cons _ (by decide) (by simp),
      indentFrom_cons _ (by decide) (by simp), heq]
    simp
  | @newLine cs rest ih =>
    obtain ⟨gap', heq, hgap⟩ := ih true
    exact ⟨'\n' :: gap', by rw [List.cons_append, indentFrom_newLine, heq]; rfl, .newLine hgap⟩
  | @comment c cs hc rest ih =>
    by_cases hr : c = '\r' ∧ (cs ++ t :: ts).head? = some '\n'
    · obtain ⟨rfl, hhead⟩ := hr
      obtain ⟨gap', heq, hgap⟩ := ih start
      exact ⟨gap', by rw [List.cons_append, indentFrom_return _ hhead, heq], hgap⟩
    · obtain ⟨gap', heq, hgap⟩ := ih false
      refine ⟨_ ++ c :: gap', ?_, gap_spaces (.comment hc hgap) start⟩
      rw [List.cons_append, indentFrom_cons _ hc hr, heq]
      simp

/-- Behind a text that ends inside of a line, indentation goes on inside of it. -/
lemma indentFrom_append {xs : List Char} {c : Char} (h : xs.getLast? = some c) (hline : c ≠ '\n')
    (hreturn : c ≠ '\r') (start : Bool) (ys : List Char) :
    indentFrom start (xs ++ ys) = indentFrom start xs ++ indentFrom false ys := by
  induction xs generalizing start with
  | nil => simp at h
  | cons d xs ih =>
    cases xs with
    | nil =>
      obtain rfl : d = c := by simpa using h
      rw [List.singleton_append, indentFrom_cons _ hline (by simp [hreturn]),
        indentFrom_cons _ hline (by simp [hreturn]), List.append_assoc]
      rfl
    | cons e xs =>
      have hlast : (e :: xs).getLast? = some c := h
      by_cases hd : d = '\n'
      · rw [hd, List.cons_append, indentFrom_newLine, indentFrom_newLine, ih hlast,
          List.cons_append]
      · by_cases hreturn' : d = '\r' ∧ e = '\n'
        · obtain ⟨rfl, rfl⟩ := hreturn'
          rw [List.cons_append, indentFrom_return _ rfl, indentFrom_return _ rfl, ih hlast]
        · rw [List.cons_append, indentFrom_cons _ hd (by simpa using hreturn'),
            indentFrom_cons _ hd (by simpa using hreturn'), ih hlast, List.append_assoc,
            List.cons_append]

/-- A text without line feeds stays as it is. -/
lemma indentFrom_of_noLine {text : List Char} (h : '\n' ∉ text) : indentFrom false text = text := by
  induction text with
  | nil => rfl
  | cons c text ih =>
    obtain ⟨hc, htext⟩ := not_or.mp (List.mem_cons.not.mp h)
    have hreturn : ¬(c = '\r' ∧ text.head? = some '\n') := fun hhead =>
      htext (List.mem_of_mem_head? hhead.2)
    rw [indentFrom_cons _ (Ne.symm hc) hreturn, ih htext]
    rfl

/-- Blanks in front of what is left of a string belong to the string. -/
lemma quoted_spaces {quote : Char} {cs : List Char} (h : Quoted quote cs) (hquote : quote ≠ ' ')
    (start : Bool) : Quoted quote ((if start then [' ', ' ', ' ', ' '] else []) ++ cs) := by
  have hblank {ds : List Char} (hds : Quoted quote ds) : Quoted quote (' ' :: ds) :=
    .plain (Ne.symm hquote) (by simp) hds
  cases start with
  | false => exact h
  | true => exact hblank (hblank (hblank (hblank h)))

lemma quoted_tail {quote c : Char} {cs : List Char} (h : Quoted quote (c :: cs)) (hc : c ≠ quote)
    (hslash : c ≠ '\\') : Quoted quote cs := by
  cases h with
  | close => exact absurd rfl hc
  | escape => exact absurd rfl hslash
  | plain _ _ h => exact h

/-- Indentation closes no string and opens none again: a backslash in front of a line break hides
the line feed, whether the carriage return in between is dropped or not. -/
lemma quoted_indentFrom {quote : Char} {cs : List Char} (h : Quoted quote cs)
    (hquote : quote = '"' ∨ quote = '\x60') (start : Bool) :
    Quoted quote (indentFrom start cs) := by
  have hspace : quote ≠ ' ' := by rcases hquote with rfl | rfl <;> decide
  have hline : quote ≠ '\n' := by rcases hquote with rfl | rfl <;> decide
  have hreturn : quote ≠ '\r' := by rcases hquote with rfl | rfl <;> decide
  induction h generalizing start with
  | close =>
    rw [indentFrom_cons _ hline (by simp [hreturn])]
    exact quoted_spaces .close hspace start
  | @escape c cs hescape h ih =>
    rw [indentFrom_cons _ (by decide) (by simp)]
    refine quoted_spaces ?_ hspace start
    by_cases hc : c = '\n'
    · rw [hc, indentFrom_newLine]
      exact .escape hescape (ih true)
    · by_cases hr : c = '\r' ∧ cs.head? = some '\n'
      · obtain ⟨rfl, hhead⟩ := hr
        obtain ⟨ds, rfl⟩ := List.head?_eq_some_iff.mp hhead
        have hrest := ih false
        rw [indentFrom_newLine] at hrest
        rw [indentFrom_return _ hhead, indentFrom_newLine]
        exact .escape hescape (quoted_tail hrest (Ne.symm hline) (by decide))
      · rw [indentFrom_cons _ hc hr]
        exact .escape hescape (ih false)
  | @plain c cs hc hescape h ih =>
    by_cases hfeed : c = '\n'
    · subst hfeed
      rw [indentFrom_newLine]
      exact .plain hc hescape (ih true)
    · by_cases hr : c = '\r' ∧ cs.head? = some '\n'
      · rw [hr.1, indentFrom_return _ hr.2]
        exact ih start
      · rw [indentFrom_cons _ hfeed hr]
        exact quoted_spaces (.plain hc hescape (ih false)) hspace start

/-- A token is a token of the same kind when it is indented; only a string can change. -/
lemma starts_indentFrom {kind : TokenKind} {text rest : List Char} (h : Starts kind text rest) :
    Starts kind (indentFrom false text) rest := by
  obtain ⟨-, c, cs, rfl, hsplit⟩ := id h
  obtain ⟨-, htoken⟩ := splitToken_eq_ok_iff.mp hsplit
  by_cases hkind : kind = .string
  · subst hkind
    cases htoken with
    | string hquote hbody =>
      have hbody' := quoted_indentFrom hbody hquote false
      have hsplit' : splitToken c (indentFrom false cs ++ rest) =
          .ok (.string, c :: indentFrom false cs, rest) :=
        splitToken_eq_ok_iff.mpr ⟨rfl, .string hquote hbody'⟩
      have hsolid : Text.isLayoutBlank c = false ∧ c ≠ '#' ∧ c ≠ '/' ∧ c ≠ '\n' ∧ c ≠ '\r' := by
        rcases hquote with rfl | rfl <;> decide
      obtain ⟨hblank, hhash, hslash, hline, hreturn⟩ := hsolid
      rw [indentFrom_cons _ hline (by simp [hreturn])]
      exact ⟨(solid_cons_iff c _).mpr ⟨hblank, hhash, fun hc => hslash hc.1⟩, c, _, rfl, hsplit'⟩
  · rwa [indentFrom_of_noLine (h.no_newLine hkind)]

/-- A lexeme whose lines but the first have blanks in front of them. -/
def indentLexeme (l : TokenKind × String) : TokenKind × String :=
  (l.1, .ofList (indentFrom false l.2.toList))

lemma indentLexeme_of_noLine {l : TokenKind × String} (h : '\n' ∉ l.2.toList) :
    indentLexeme l = l := by
  rw [indentLexeme, indentFrom_of_noLine h, String.ofList_toList]

/-- Indentation changes the layout between tokens, and the lines inside of them. -/
lemma run_indentLexeme {xs rest : List Char} {ls : List (TokenKind × String)} (h : Run xs ls rest)
    (start : Bool) : Run (indentFrom start xs) (ls.map indentLexeme) rest := by
  induction h generalizing start with
  | nil rest => exact .nil rest
  | @cons gap text cs rest kind ls hgap hstart hrest ih =>
    obtain ⟨c, hc, hblank⟩ := hstart.trimmed.head
    obtain ⟨d, hd, hblank'⟩ := hstart.trimmed.last
    have hneither : ∀ e, Text.isBlank e = false → e ≠ '\n' ∧ e ≠ '\r' := fun e he =>
      ⟨by rintro rfl; exact absurd he (by decide), by rintro rfl; exact absurd he (by decide)⟩
    obtain ⟨hline, hreturn⟩ := hneither c hblank
    obtain ⟨tail, rfl⟩ := List.head?_eq_some_iff.mp hc
    obtain ⟨gap', heq, hgap'⟩ := gap_indentFrom hgap hline hreturn (tail ++ cs) start
    have htext : c :: indentFrom false (tail ++ cs) =
        indentFrom false (c :: tail) ++ indentFrom false cs := by
      rw [← indentFrom_append hd (hneither d hblank').1 (hneither d hblank').2, List.cons_append,
        indentFrom_cons _ hline (by simp [hreturn])]
      rfl
    rw [List.cons_append, heq, htext, List.map_cons, indentLexeme, String.toList_ofList]
    refine .cons hgap' ?_ (ih false)
    exact (starts_indentFrom hstart).tame (tame_indentFrom cs rest)

end Write

end FlowCanvas
