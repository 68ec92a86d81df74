import FlowCanvas.Proofs.Leaves

/-!
# Writing calls

The text of a call node is what leads it, the callee, the arguments in parentheses and a semicolon.
Each of these is read as the lexemes of the texts it is made of.
-/

namespace FlowCanvas

namespace Lexer

/-- The lexemes of a text. -/
def lexemesOf (text : String) : List Lexeme :=
  match tokenize text with
  | .ok ts => Phrase.lexemes ts
  | .error _ => []

lemma Legible.lexemesOf {text : String} {ls : List Lexeme} (h : Legible text.toList ls) :
    lexemesOf text = ls := by
  obtain ⟨ts, htokens, hlexemes⟩ := tokenize_of_run (List.append_nil _).symm (h.run [] safe_nil) rfl
  simp only [Lexer.lexemesOf, htokens, hlexemes]

/-! ### Texts one behind the other -/

lemma Legible.append {xs ys : List Char} {ls ms : List Lexeme} (hxs : Trimmed xs)
    (hx : ∀ rest, Safe rest → Run xs ls (ys ++ rest)) (hy : Legible ys ms) :
    Legible (xs ++ ys) (ls ++ ms) := by
  refine ⟨fun rest hrest => (hx rest hrest).append (hy.run rest hrest), ?_, ?_⟩
  · obtain ⟨c, hc, hblank⟩ := hxs.head
    obtain ⟨cs, rfl⟩ := List.head?_eq_some_iff.mp hc
    exact ⟨c, rfl, hblank⟩
  · obtain ⟨c, hc, hblank⟩ := hy.trimmed.last
    exact ⟨c, by rw [List.getLast?_append, hc]; rfl, hblank⟩

lemma run_openParen (rest : List Char) : Run ['('] [(.punctuation, "(")] rest :=
  Run.token (starts_of_split (by decide) (by decide) (by decide) rfl)

lemma run_closeParen (rest : List Char) : Run [')'] [(.punctuation, ")")] rest :=
  Run.token (starts_of_split (by decide) (by decide) (by decide) rfl)

lemma run_comma (rest : List Char) : Run [','] [(.punctuation, ",")] rest :=
  Run.token (starts_of_split (by decide) (by decide) (by decide) rfl)

lemma run_arrow (rest : List Char) : Run ['-', '>'] [(.punctuation, "->")] rest :=
  Run.token (starts_of_split (by decide) (by decide) (by decide) rfl)

lemma run_colon (rest : List Char) : Run [':'] [(.punctuation, ":")] rest :=
  Run.token (starts_of_split (by decide) (by decide) (by decide) rfl)

/-- The characters of a name. -/
lemma Starts.word {text rest : List Char} (h : Starts .identifier text rest) :
    ∃ c cs, text = c :: cs ∧ (c == '"' || c == '\x60') = false ∧ c.isDigit = false ∧
      isWordStart c ∧ ∀ d ∈ cs, isWordChar d := by
  obtain ⟨-, c, cs, rfl, hsplit⟩ := h
  rw [splitToken] at hsplit
  split at hsplit
  · split at hsplit <;> simp at hsplit
  · rename_i hquote
    split at hsplit
    · simp at hsplit
    · rename_i hdigit
      split at hsplit
      · rename_i hword
        simp only [Except.ok.injEq, Prod.mk.injEq, List.cons.injEq, true_and] at hsplit
        refine ⟨c, cs, rfl, by simpa using hquote, by simpa using hdigit, hword, fun d hd => ?_⟩
        rw [← hsplit.1] at hd
        exact List.mem_takeWhile_imp hd
      · split at hsplit <;> simp at hsplit

/-- A name ends in front of everything that cannot be a part of it. -/
lemma Starts.identifier {text rest rest' : List Char} (h : Starts .identifier text rest)
    (hrest : ∀ c ∈ rest'.head?, isWordChar c = false) : Starts .identifier text rest' := by
  obtain ⟨c, cs, rfl, hquote, hdigit, hword, hcs⟩ := h.word
  obtain ⟨hsolid, -⟩ := h
  have houtside : rest'.takeWhile isWordChar = [] ∧ rest'.dropWhile isWordChar = rest' := by
    cases rest' with
    | nil => exact ⟨rfl, rfl⟩
    | cons d tail =>
      have hd : ¬isWordChar d := by simpa using hrest d rfl
      exact ⟨List.takeWhile_cons_of_neg hd, List.dropWhile_cons_of_neg hd⟩
  refine ⟨?_, c, cs, rfl, ?_⟩
  · rw [List.cons_append, solid_cons_iff] at hsolid ⊢
    refine ⟨hsolid.1, hsolid.2.1, ?_⟩
    rintro ⟨rfl, -⟩
    exact absurd hword (by decide)
  · rw [splitToken, hquote, hdigit, hword, List.takeWhile_append_of_pos hcs,
      List.dropWhile_append_of_pos hcs, houtside.1, houtside.2, List.append_nil]
    rfl

/-- A text that is read as a name. -/
def IsName (name : String) : Prop := Legible name.toList [(.identifier, name)]

lemma run_eq_singleton {xs rest : List Char} {kind : TokenKind} {text : String}
    (h : Run xs [(kind, text)] rest) (hxs : text.toList = xs) : Starts kind xs rest := by
  generalize hls : [(kind, text)] = ls at h
  cases h with
  | nil => simp at hls
  | @cons gap own cs _ kind' ls hgap hstart hrest =>
    obtain ⟨heq, rfl⟩ := List.cons.inj hls
    obtain ⟨rfl, rfl⟩ := Prod.mk.inj heq
    cases hrest
    rw [String.toList_ofList, List.append_nil] at hxs
    obtain rfl : gap = [] := by
      have hlength := congrArg List.length hxs
      rw [List.length_append] at hlength
      exact List.length_eq_zero_iff.mp (by omega)
    simpa using hstart

lemma IsName.starts {name : String} (h : IsName name) {rest : List Char}
    (hrest : ∀ c ∈ rest.head?, isWordChar c = false) : Starts .identifier name.toList rest := by
  exact (run_eq_singleton (h.run [] safe_nil) rfl).identifier hrest

/-- A qualified name. -/
lemma IsName.qualified {qualifier name : String} (hqualifier : IsName qualifier)
    (hname : IsName name) :
    Legible (qualifier.toList ++ ':' :: name.toList)
      [(.identifier, qualifier), (.punctuation, ":"), (.identifier, name)] := by
  have hcolon : Legible (':' :: name.toList) [(.punctuation, ":"), (.identifier, name)] :=
    @Legible.append [':'] _ [(.punctuation, ":")] _
      ⟨⟨':', rfl, by decide⟩, ⟨':', rfl, by decide⟩⟩ (fun rest _ => run_colon _) hname
  refine @Legible.append _ _ [(.identifier, qualifier)] _ hqualifier.trimmed ?_ hcolon
  intro rest _
  have hstart : Starts .identifier qualifier.toList (':' :: name.toList ++ rest) := by
    refine hqualifier.starts fun c hc => ?_
    obtain rfl := Option.some.inj hc
    decide
  simpa using Run.token hstart

/-- A method of a client. -/
lemma Legible.arrow {client : List Char} {ls : List Lexeme} {method : String}
    (hclient : Legible client ls) (hmethod : IsName method) :
    Legible (client ++ '-' :: '>' :: method.toList)
      (ls ++ [(.punctuation, "->"), (.identifier, method)]) := by
  have harrow : Legible ('-' :: '>' :: method.toList)
      [(.punctuation, "->"), (.identifier, method)] :=
    @Legible.append ['-', '>'] _ [(.punctuation, "->")] _
      ⟨⟨'-', rfl, by decide⟩, ⟨'>', rfl, by decide⟩⟩ (fun rest _ => run_arrow _) hmethod
  exact Legible.append hclient.trimmed
    (fun rest _ => hclient.run _ (safe_cons (by decide) _)) harrow

/-- Two texts with a comma between them. -/
lemma Legible.comma {xs ys : List Char} {ls ms : List Lexeme} (hx : Legible xs ls)
    (hy : Legible ys ms) :
    Legible (xs ++ ',' :: ' ' :: ys) (ls ++ (.punctuation, ",") :: ms) := by
  have hmark : Legible [','] [(.punctuation, ",")] :=
    ⟨fun rest _ => run_comma rest, ⟨',', rfl, by decide⟩, ⟨',', rfl, by decide⟩⟩
  exact Legible.append hx.trimmed (fun rest _ => hx.run _ (safe_cons (by decide) _))
    (hmark.spaced hy)

/-- A text with a group behind it. -/
lemma Legible.group {xs ys : List Char} {ls ms : List Lexeme} (hx : Legible xs ls)
    (hy : ∀ rest, Safe rest → Run ys ms rest) :
    Legible (xs ++ '(' :: (ys ++ [')']))
      (ls ++ (.punctuation, "(") :: (ms ++ [(.punctuation, ")")])) := by
  have hgroup : Legible ('(' :: (ys ++ [')']))
      ((.punctuation, "(") :: (ms ++ [(.punctuation, ")")])) := by
    refine ⟨fun rest _ => ?_, ⟨'(', rfl, by decide⟩, ⟨')', by simp [List.getLast?_cons], by decide⟩⟩
    exact (run_openParen _).append ((hy _ (safe_cons (by decide) rest)).append
      (run_closeParen rest))
  exact Legible.append hx.trimmed (fun rest _ => hx.run _ (safe_cons (by decide) _)) hgroup

/-- A text that can be put in front of others. -/
def Leads (xs : List Char) (ls : List Lexeme) : Prop :=
  ∀ ys ms, Legible ys ms → Legible (xs ++ ys) (ls ++ ms)

lemma Leads.nil : Leads [] [] := fun _ _ h => h

lemma Leads.append {xs ys : List Char} {ls ms : List Lexeme} (hx : Leads xs ls)
    (hy : Leads ys ms) : Leads (xs ++ ys) (ls ++ ms) := by
  intro zs ns hz
  rw [List.append_assoc, List.append_assoc]
  exact hx _ _ (hy _ _ hz)

lemma Legible.leads {xs : List Char} {ls : List Lexeme} (h : Legible xs ls) :
    Leads (xs ++ [' ']) ls := by
  intro ys ms hy
  simpa using h.spaced hy

lemma Legible.leads_equal {xs : List Char} {ls : List Lexeme} (h : Legible xs ls) :
    Leads (xs ++ [' ', '=', ' ']) (ls ++ [(.punctuation, "=")]) := by
  intro ys ms hy
  simpa using h.equal hy

end Lexer

namespace Write

open Lexer

/-! ### Arguments -/

/-- A property that can be written as an argument. -/
structure Writable (p : Property) : Prop where
  text : Legible p.sourceText.toList (lexemesOf p.sourceText)
  key : p.optional → IsName p.key

/-- The text of an argument. -/
def argumentText (p : Property) : List Char :=
  if p.optional then p.key.toList ++ [' ', '=', ' '] ++ p.sourceText.toList
  else p.sourceText.toList

/-- The lexemes of an argument. -/
def argumentLexemes (p : Property) : List Lexeme :=
  if p.optional then (.identifier, p.key) :: (.punctuation, "=") :: lexemesOf p.sourceText
  else lexemesOf p.sourceText

/-- The text of a list of arguments. -/
def argumentsText : List Property → List Char
  | [] => []
  | [p] => argumentText p
  | p :: ps => argumentText p ++ ',' :: ' ' :: argumentsText ps

/-- The lexemes of a list of arguments. -/
def argumentsLexemes : List Property → List Lexeme
  | [] => []
  | [p] => argumentLexemes p
  | p :: ps => argumentLexemes p ++ (.punctuation, ",") :: argumentsLexemes ps

lemma Writable.legible {p : Property} (h : Writable p) :
    Legible (argumentText p) (argumentLexemes p) := by
  unfold argumentText argumentLexemes
  split
  · rename_i hoptional
    exact (h.key hoptional).equal h.text
  · exact h.text

lemma Writable.writeOn {p : Property} (h : Writable p) (xs : List Char) (ps : List Piece) :
    Piece.writeOn xs (argument p ++ ps) = Piece.writeOn (xs ++ argumentText p) ps := by
  unfold argumentText argument
  split
  · rename_i hoptional
    have hkey := Analysis.trimmed_unpadded xs (h.key hoptional).trimmed
    simp only [List.cons_append, List.nil_append]
    rw [Piece.writeOn_name, Piece.writeOn_equal _ hkey, Piece.writeOn_expression _ _ h.text.trimmed]
    simp
  · rw [List.singleton_append, Piece.writeOn_expression _ _ h.text.trimmed]

lemma legible_arguments {p : Property} {ps : List Property} (h : ∀ q ∈ p :: ps, Writable q) :
    Legible (argumentsText (p :: ps)) (argumentsLexemes (p :: ps)) := by
  induction ps generalizing p with
  | nil => exact (h p List.mem_cons_self).legible
  | cons q ps ih =>
    have hmore := ih fun r hr => h r (List.mem_cons_of_mem _ hr)
    exact (h p List.mem_cons_self).legible.comma hmore

lemma run_arguments {ps : List Property} (h : ∀ p ∈ ps, Writable p) (rest : List Char)
    (hrest : Safe rest) : Run (argumentsText ps) (argumentsLexemes ps) rest := by
  cases ps with
  | nil => exact .nil rest
  | cons p ps => exact (legible_arguments h).run rest hrest

/-- Arguments are written with commas between them. -/
lemma writeOn_arguments {ps : List Property} (h : ∀ p ∈ ps, Writable p) (xs : List Char)
    (qs : List Piece) :
    Piece.writeOn xs (commaSeparated (ps.map argument) ++ qs) =
      Piece.writeOn (xs ++ argumentsText ps) qs := by
  induction ps generalizing xs with
  | nil => simp [commaSeparated, argumentsText]
  | cons p ps ih =>
    have hp := h p List.mem_cons_self
    cases ps with
    | nil => exact hp.writeOn xs qs
    | cons q ps =>
      have hpadded := Analysis.trimmed_unpadded xs hp.legible.trimmed
      simp only [List.map_cons, commaSeparated, argumentsText, List.append_assoc] at ih ⊢
      rw [hp.writeOn, List.cons_append, Piece.writeOn_comma _ hpadded,
        ih fun r hr => h r (List.mem_cons_of_mem _ hr)]
      simp

/-- The last character of arguments is no blank. -/
lemma unpadded_arguments {ps : List Property} (h : ∀ p ∈ ps, Writable p) {xs : List Char}
    (hxs : Piece.Unpadded xs) : Piece.Unpadded (xs ++ argumentsText ps) := by
  cases ps with
  | nil => simpa [argumentsText] using hxs
  | cons p ps => exact Analysis.trimmed_unpadded xs (legible_arguments h).trimmed

/-- A group of arguments is written behind a callee. -/
lemma writeOn_group {ps : List Property} (h : ∀ p ∈ ps, Writable p) {xs : List Char}
    (hxs : Piece.Unpadded xs) :
    Piece.writeOn xs (.mark .openParen :: commaSeparated (ps.map argument) ++
      [.mark .closeParen] ++ [.semicolon]) =
      xs ++ '(' :: (argumentsText ps ++ [')']) ++ [';'] := by
  have hparen : Piece.Unpadded (xs ++ ['(']) := by
    refine Piece.unpadded_append _ ?_ (by simp)
    intro c hc
    obtain rfl := Option.some.inj hc
    decide
  have hclose : Piece.Unpadded (xs ++ ['('] ++ argumentsText ps ++ [')']) := by
    refine Piece.unpadded_append _ ?_ (by simp)
    intro c hc
    obtain rfl := Option.some.inj hc
    decide
  rw [List.append_assoc, List.cons_append, Piece.writeOn_openParen _ hxs, writeOn_arguments h,
    List.singleton_append, Piece.writeOn_closeParen _ (unpadded_arguments h hparen),
    Piece.writeOn_semicolon _ hclose, Piece.writeOn_nil]
  simp

/-! ### What leads a call -/

/-- The lexeme of a word that is written when a flag holds. -/
def wordLexemes (n : FlowNode) (flag : Flags) (word : Mark) : List Lexeme :=
  if n.hasFlag flag then [(.identifier, word.text)] else []

/-- The lexemes of `[final] type name =`. -/
def bindingLexemes (n : FlowNode) : List Lexeme :=
  match n.properties.text? "variable" with
  | some name => wordLexemes n .final .final ++
      (lexemesOf (typeText n) ++ (lexemesOf name ++ [(.punctuation, "=")]))
  | none => []

/-- The lexemes of what stands in front of a call. -/
def leadLexemes (n : FlowNode) : List Lexeme :=
  (if n.returning then [(.identifier, "return")] else bindingLexemes n) ++
    wordLexemes n .checked .check

/-- Pieces that are written as a text which leads others. -/
def WritesLead (pieces : List Piece) (ls : List Lexeme) : Prop :=
  ∃ text, Leads text ls ∧
    ∀ xs ps, Piece.writeOn xs (pieces ++ ps) = Piece.writeOn (xs ++ text) ps

lemma WritesLead.nil : WritesLead [] [] := ⟨[], Leads.nil, by simp⟩

lemma WritesLead.append {ps qs : List Piece} {ls ms : List Lexeme} (hp : WritesLead ps ls)
    (hq : WritesLead qs ms) : WritesLead (ps ++ qs) (ls ++ ms) := by
  obtain ⟨text, hlead, hwrite⟩ := hp
  obtain ⟨text', hlead', hwrite'⟩ := hq
  refine ⟨text ++ text', hlead.append hlead', fun xs rs => ?_⟩
  rw [List.append_assoc, hwrite, hwrite', List.append_assoc]

lemma writesLead_word {m : Mark} (hm : m ∈ Mark.words) :
    WritesLead [.mark m] [(.identifier, m.text)] := by
  refine ⟨m.text.toList ++ [' '], (legible_word hm).leads, fun xs ps => ?_⟩
  rw [List.singleton_append, Piece.writeOn_word _ hm, List.append_assoc]

lemma writesLead_wordIf (n : FlowNode) (flag : Flags) {m : Mark} (hm : m ∈ Mark.words) :
    WritesLead (wordIf n flag m) (wordLexemes n flag m) := by
  unfold wordIf wordLexemes
  split
  · exact writesLead_word hm
  · exact .nil

/-- The texts in front of a call can be read. -/
structure Led (n : FlowNode) : Prop where
  name : ∀ name ∈ n.properties.text? "variable", Legible name.toList (lexemesOf name)
  type : Legible (typeText n).toList (lexemesOf (typeText n))

lemma Led.binding {n : FlowNode} (h : Led n) : WritesLead (binding n) (bindingLexemes n) := by
  unfold Write.binding bindingLexemes
  cases hname : n.properties.text? "variable" with
  | none => exact .nil
  | some name =>
    have hvariable := h.name name hname
    dsimp only
    rw [declared, List.append_assoc]
    refine (writesLead_wordIf n .final (by decide)).append ?_
    refine ⟨(typeText n).toList ++ [' '] ++ (name.toList ++ [' ', '=', ' ']),
      h.type.leads.append hvariable.leads_equal, fun xs ps => ?_⟩
    have hpadded : Piece.Unpadded (xs ++ (typeText n).toList ++ ' ' :: name.toList) := by
      simpa using Analysis.trimmed_unpadded (xs ++ (typeText n).toList ++ [' ']) hvariable.trimmed
    simp only [List.cons_append, List.nil_append]
    rw [Analysis.writeOn_typed h.type.trimmed, Piece.writeOn_equal _ hpadded]
    simp

lemma Led.callLead {n : FlowNode} (h : Led n) : WritesLead (callLead n) (leadLexemes n) := by
  refine WritesLead.append ?_ (writesLead_wordIf n .checked (by decide))
  split
  · exact writesLead_word (m := .return) (by decide)
  · exact h.binding

/-- A callee and its text. -/
def WritesCallee (pieces : List Piece) (ls : List Lexeme) : Prop :=
  ∃ text, Legible text ls ∧
    ∀ xs ps, Piece.writeOn xs (pieces ++ ps) = Piece.writeOn (xs ++ text) ps

/-- A group of arguments in parentheses and its text, with a semicolon behind it. -/
def WritesGroup (pieces : List Piece) (ms : List Lexeme) : Prop :=
  ∃ text, (∀ rest, Safe rest → Run text ms rest) ∧
    ∀ xs, Piece.Unpadded xs →
      Piece.writeOn xs (pieces ++ [.semicolon]) = xs ++ '(' :: (text ++ [')']) ++ [';']

/-- What leads a call, a callee and a group of arguments are read as their parts. -/
lemma reads_pieces {n : FlowNode} {lead callee group : List Piece} {ks ls ms : List Lexeme}
    (hpieces : statement n (Builders.standard.writtenBranches n.branches) =
      .ok (lead ++ callee ++ group ++ [.semicolon]))
    (hlead : WritesLead lead ks) (hcallee : WritesCallee callee ls)
    (hgroup : WritesGroup group ms) :
    ∃ text, (Builders.standard.written n).text = .ok text ∧
      Reads text.toList (ks ++ (ls ++ (.punctuation, "(") :: (ms ++ [(.punctuation, ")")])) ++
        [(.punctuation, ";")]) := by
  obtain ⟨front, hfront, hwriteFront⟩ := hlead
  obtain ⟨text, hlegible, hwrite⟩ := hcallee
  obtain ⟨args, hargs, hwriteArgs⟩ := hgroup
  have hcall := hfront _ _ (hlegible.group hargs)
  have hreads := hcall.semicolon
  have hpadded := Analysis.trimmed_unpadded front hlegible.trimmed
  have htext : Piece.writeOn [] (lead ++ callee ++ group ++ [.semicolon]) =
      front ++ (text ++ '(' :: (args ++ [')'])) ++ [';'] := by
    rw [List.append_assoc, List.append_assoc, hwriteFront, List.nil_append, hwrite,
      hwriteArgs _ hpadded]
    simp
  refine ⟨_, Analysis.written_of_writeOn hpieces htext hreads.trimmed.last, ?_⟩
  rwa [String.toList_ofList]

/-- The text of a call node, read as its parts. -/
lemma reads_call {n : FlowNode} {callee : List Piece} {ls : List Lexeme}
    (hpieces : statement n (Builders.standard.writtenBranches n.branches) =
      .ok (Write.callLead n ++ callee ++ arguments n ++ [.semicolon]))
    (hled : Led n) (hcallee : WritesCallee callee ls)
    (harguments : ∀ p ∈ argumentProperties n, Writable p) :
    ∃ text, (Builders.standard.written n).text = .ok text ∧
      Reads text.toList (leadLexemes n ++ (ls ++ (.punctuation, "(") ::
        (argumentsLexemes (argumentProperties n) ++ [(.punctuation, ")")])) ++
          [(.punctuation, ";")]) :=
  reads_pieces hpieces hled.callLead hcallee
    ⟨_, fun rest hrest => run_arguments harguments rest hrest,
      fun _ hxs => writeOn_group harguments hxs⟩

end Write

end FlowCanvas
