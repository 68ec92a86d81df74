import FlowCanvas.Proofs.Spelling

/-!
# How statements nest

`Spells s ts rest` is the grammar of statements with their blocks: the tokens `ts` in front of
`rest` are the statement `s`. Only the word at the front of `rest` matters, an `else` or an `on`
that would go on with the statement. The readers succeed exactly on what is spelled.
-/

namespace FlowCanvas

/-! ### Kinds of statements -/

namespace Statement

def isSupported : Statement → Bool
  | .unsupported .. => false
  | _ => true

def isConditional : Statement → Bool
  | .conditional _ => true
  | _ => false

/-- Whether a statement holds blocks. -/
def isControl : Statement → Bool
  | .conditional _ => true
  | .loop .. => true
  | _ => false

end Statement

mutual

/-- A statement and the statements inside it, in source order. -/
def Statement.nested : Statement → List Statement
  | .conditional read => Conditional.nested read
  | .loop value body span => .loop value body span :: Block.nested body
  | s => [s]

def Conditional.nested : Conditional → List Statement
  | .mk value body alternative span =>
    .conditional (.mk value body alternative span) ::
      (Block.nested body ++ Alternative.nested alternative)

def Alternative.nested : Alternative → List Statement
  | .absent => []
  | .block body => Block.nested body
  | .chained next => Conditional.nested next

def Block.nested : Block → List Statement
  | .mk list _ => Statement.allNested list

def Statement.allNested : List Statement → List Statement
  | [] => []
  | s :: list => Statement.nested s ++ Statement.allNested list

end

namespace Statement

lemma mem_nested_self (s : Statement) : s ∈ s.nested := by
  cases s with
  | conditional read =>
    cases read
    simp [nested, Conditional.nested]
  | declaration d => simp [nested]
  | assignment target value span => simp [nested]
  | loop value body span => simp [nested]
  | exit kind value span => simp [nested]
  | jump kind span => simp [nested]
  | expression value span => simp [nested]
  | unsupported construct span => simp [nested]

end Statement

namespace Parser

open Brackets

/-! ### The grammar -/

mutual

/-- The tokens of a statement, in front of a rest. -/
inductive Spells : Statement → Phrase → Phrase → Prop
  | leaf {s : Statement} {ts rest : Phrase} (h : SpellsLeaf s ts rest) : Spells s ts rest
  | conditional {word : Token} {c : Conditional} {ts rest : Phrase} (hword : word.isWord ["if"])
    (h : SpellsConditional c word ts rest) : Spells (.conditional c) (word :: ts) rest
  | loop {word : Token} {value : Expression} {body : Block} {ts rest : Phrase}
    (hword : word.isWord ["while"]) (hvalue : Free "\x7b" value.tokens)
    (hbody : SpellsBlock body ts) :
    Spells (.loop value body (word.span.through body.span)) (word :: (value.tokens ++ ts)) rest

/-- The tokens of an `if` behind its word, in front of a rest. -/
inductive SpellsConditional : Conditional → Token → Phrase → Phrase → Prop
  | absent {word : Token} {value : Expression} {body : Block} {ts rest : Phrase}
    (hvalue : Free "\x7b" value.tokens) (hbody : SpellsBlock body ts)
    (helse : sees "else" rest = false) :
    SpellsConditional (.mk value body .absent (word.span.through body.span)) word
      (value.tokens ++ ts) rest
  | block {word other : Token} {value : Expression} {body last : Block} {ts us rest : Phrase}
    (hvalue : Free "\x7b" value.tokens) (hbody : SpellsBlock body ts) (helse : other.is "else")
    (hlast : SpellsBlock last us) :
    SpellsConditional (.mk value body (.block last) (word.span.through last.span)) word
      (value.tokens ++ (ts ++ other :: us)) rest
  | chained {word other word' : Token} {value : Expression} {body : Block} {next : Conditional}
    {ts us rest : Phrase} (hvalue : Free "\x7b" value.tokens) (hbody : SpellsBlock body ts)
    (helse : other.is "else") (hif : word'.is "if")
    (hnext : SpellsConditional next word' us rest) :
    SpellsConditional (.mk value body (.chained next) (word.span.through next.span)) word
      (value.tokens ++ (ts ++ other :: word' :: us)) rest

/-- The tokens of a block. -/
inductive SpellsBlock : Block → Phrase → Prop
  | mk {brace close : Token} {list : List Statement} {ts : Phrase} (hbrace : brace.is "\x7b")
    (hclose : close.is "\x7d") (hlist : SpellsAll list ts [close]) :
    SpellsBlock (.mk list (brace.span.through close.span)) (brace :: (ts ++ [close]))

/-- The tokens of statements one after the other, in front of a rest. -/
inductive SpellsAll : List Statement → Phrase → Phrase → Prop
  | nil {rest : Phrase} : SpellsAll [] [] rest
  | cons {s : Statement} {list : List Statement} {ts us rest : Phrase}
    (hfirst : sees "\x7d" ts = false) (hs : Spells s ts (us ++ rest))
    (hlist : SpellsAll list us rest) : SpellsAll (s :: list) (ts ++ us) rest

end

/-! ### What follows a statement -/

/-- `rest'` goes on with no statement that `rest` does not go on with. -/
def Quieter (rest rest' : Phrase) : Prop :=
  ∀ word ∈ ["else", "on"], sees word rest = false → sees word rest' = false

lemma quieter_nil (rest : Phrase) : Quieter rest [] := fun _ _ _ => rfl

lemma quieter_of_head {rest rest' : Phrase} (h : rest'.head? = rest.head?) :
    Quieter rest rest' := by
  intro word _ hsees
  rw [sees_congr h, hsees]

lemma Quieter.append {rest rest' : Phrase} (h : Quieter rest rest') (us : Phrase) :
    Quieter (us ++ rest) (us ++ rest') := by
  cases us with
  | nil => exact h
  | cons t us => exact quieter_of_head rfl

lemma SpellsLeaf.quieter {rest rest' : Phrase} (hq : Quieter rest rest') {s : Statement}
    {ts : Phrase} (h : SpellsLeaf s ts rest) : SpellsLeaf s ts rest' := by
  cases h with
  | declaration hstart hlead hbody hsemicolon hdeclared hlooks =>
    exact .declaration hstart hlead hbody hsemicolon hdeclared hlooks
  | marked hstart hlead hannotated hfinals hbody hsemicolon hdeclared =>
    exact .marked hstart hlead hannotated hfinals hbody hsemicolon hdeclared
  | assignment hstart hlead hbody hsemicolon htarget hequal hlooks =>
    exact .assignment hstart hlead hbody hsemicolon htarget hequal hlooks
  | expression hlead hbody hsemicolon hvalue hlooks =>
    exact .expression hlead hbody hsemicolon hvalue hlooks
  | exit hword hbody hsemicolon hpanic => exact .exit hword hbody hsemicolon hpanic
  | jump hword hsemicolon => exact .jump hword hsemicolon
  | unsupported hstart hskip hon =>
    exact .unsupported hstart hskip fun hlast => hq "on" (by simp) (hon hlast)
  | braces hstart hskip hon =>
    exact .braces hstart hskip fun hlast => hq "on" (by simp) (hon hlast)

lemma SpellsConditional.quieter {rest rest' : Phrase}
    (hq : sees "else" rest = false → sees "else" rest' = false) {c : Conditional}
    {word : Token} {ts : Phrase} (h : SpellsConditional c word ts rest) :
    SpellsConditional c word ts rest' := by
  match h with
  | .absent hvalue hbody helse => exact .absent hvalue hbody (hq helse)
  | .block hvalue hbody helse hlast => exact .block hvalue hbody helse hlast
  | .chained hvalue hbody helse hif hnext =>
    exact .chained hvalue hbody helse hif (hnext.quieter hq)

/-- A statement is spelled alike in front of everything that does not go on with it. -/
lemma Spells.quieter {rest rest' : Phrase} (hq : Quieter rest rest') {s : Statement} {ts : Phrase}
    (h : Spells s ts rest) : Spells s ts rest' := by
  cases h with
  | leaf h => exact .leaf (h.quieter hq)
  | conditional hword h => exact .conditional hword (h.quieter (hq "else" (by simp)))
  | loop hword hvalue hbody => exact .loop hword hvalue hbody

lemma Spells.leaf_of_not_isControl {s : Statement} {ts rest : Phrase} (h : Spells s ts rest)
    (hcontrol : s.isControl = false) : SpellsLeaf s ts rest := by
  cases h with
  | leaf h => exact h
  | conditional => simp [Statement.isControl] at hcontrol
  | loop => simp [Statement.isControl] at hcontrol

lemma SpellsAll.quieter {rest rest' : Phrase} (hq : Quieter rest rest') {list : List Statement}
    {ts : Phrase} (h : SpellsAll list ts rest) : SpellsAll list ts rest' := by
  match h with
  | .nil => exact .nil
  | .cons hfirst hs hlist => exact .cons hfirst (hs.quieter (hq.append _)) (hlist.quieter hq)

/-! ### What the readers accept is spelled -/

lemma condition_eq_ok_iff {ts rest : Phrase} {value : Expression} :
    condition ts = .ok (value, rest) ↔
      ts = value.tokens ++ rest ∧ Free "\x7b" value.tokens ∧ sees "\x7b" rest := by
  rw [condition]
  split
  · rename_i hcut
    constructor
    · intro h
      simp at h
    · rintro ⟨rfl, hfree, hsees⟩
      cases rest with
      | nil => simp [sees] at hsees
      | cons brace rest =>
        rw [cut_eq_some_iff.mpr ⟨rfl, hfree, hsees⟩] at hcut
        simp at hcut
  · rename_i before brace after hcut
    constructor
    · intro h
      obtain ⟨rfl, hfree, hbrace⟩ := cut_eq_some_iff.mp hcut
      obtain ⟨value', hvalue, hread⟩ := bind_eq_ok_iff.mp h
      obtain rfl := expression_eq_ok_iff.mp hvalue
      obtain ⟨rfl, rfl⟩ := hread
      exact ⟨rfl, hfree, hbrace⟩
    · rintro ⟨rfl, hfree, hsees⟩
      cases rest with
      | nil => simp [sees] at hsees
      | cons brace' rest =>
        rw [cut_eq_some_iff.mpr ⟨rfl, hfree, hsees⟩] at hcut
        simp only [Option.some.injEq, Prod.mk.injEq] at hcut
        obtain ⟨rfl, rfl, rfl⟩ := hcut
        exact bind_eq_ok_iff.mpr ⟨value, expression_eq_ok_iff.mpr rfl, rfl⟩

/-- Whatever a reader of blocks accepts is a block. -/
def ReadsBlocks (block : Reader Block) : Prop :=
  ∀ ⦃ts rest : Phrase⦄ ⦃b : Block⦄, block ts = .ok (b, rest) →
    ∃ used, ts = used ++ rest ∧ SpellsBlock b used

lemma spells_of_conditional {block : Reader Block} (hblock : ReadsBlocks block) {n : Nat}
    {word : Token} {ts rest : Phrase} {c : Conditional}
    (h : conditional block n word ts = .ok (c, rest)) :
    ∃ used, ts = used ++ rest ∧ SpellsConditional c word used rest := by
  induction n generalizing word ts c with
  | zero => simp [conditional] at h
  | succ n ih =>
    obtain ⟨⟨value, after⟩, hcondition, hread⟩ := bind_eq_ok_iff.mp h
    obtain ⟨rfl, hvalue, -⟩ := condition_eq_ok_iff.mp hcondition
    obtain ⟨⟨body, after'⟩, hbody, hread'⟩ := bind_eq_ok_iff.mp hread
    obtain ⟨used, rfl, hspells⟩ := hblock hbody
    dsimp only at hread'
    split at hread'
    · rename_i helse
      obtain ⟨rfl, rfl⟩ := hread'
      exact ⟨value.tokens ++ used, by simp, .absent hvalue hspells (eat_eq_none_iff.mp helse)⟩
    · simp at hread'
    · rename_i next after'' heat
      obtain ⟨other, rfl, helse⟩ := eat_eq_some_iff.mp heat
      split at hread'
      · rename_i hif
        obtain ⟨⟨last, left⟩, hlast, hdone⟩ := bind_eq_ok_iff.mp hread'
        obtain ⟨rfl, rfl⟩ := hdone
        obtain ⟨used', rfl, hspells'⟩ := ih hlast
        exact ⟨value.tokens ++ (used ++ other :: next :: used'), by simp,
          .chained hvalue hspells helse hif hspells'⟩
      · obtain ⟨⟨last, left⟩, hlast, hdone⟩ := bind_eq_ok_iff.mp hread'
        obtain ⟨rfl, rfl⟩ := hdone
        obtain ⟨used', heq, hspells'⟩ := hblock hlast
        exact ⟨value.tokens ++ (used ++ other :: used'), by simp [heq],
          .block hvalue hspells helse hspells'⟩

lemma spells_of_statement {block : Reader Block} (hblock : ReadsBlocks block) {start : Token}
    {ts rest : Phrase} {s : Statement} (h : statement block start ts = .ok (s, rest)) :
    ∃ used, start :: ts = used ++ rest ∧ Spells s used rest := by
  have hleaf : (∃ used, start :: ts = used ++ rest ∧ SpellsLeaf s used rest) →
      ∃ used, start :: ts = used ++ rest ∧ Spells s used rest :=
    fun ⟨used, heq, hspells⟩ => ⟨used, heq, .leaf hspells⟩
  -- The tests stand in the order of the reader, and each is settled before the next is read.
  rw [statement] at h
  by_cases hunsupported : start.isWord unsupportedWords
  · rw [if_pos hunsupported] at h
    exact hleaf (spellsLeaf_of_unsupported (.inl ⟨hunsupported, rfl⟩) h)
  rw [if_neg hunsupported] at h
  by_cases hif : start.isWord ["if"]
  · rw [if_pos hif] at h
    obtain ⟨⟨c, left⟩, hread, hdone⟩ := bind_eq_ok_iff.mp h
    obtain ⟨rfl, rfl⟩ := hdone
    obtain ⟨used, rfl, hspells⟩ := spells_of_conditional hblock hread
    exact ⟨start :: used, rfl, .conditional hif hspells⟩
  rw [if_neg hif] at h
  by_cases hwhile : start.isWord ["while"]
  · rw [if_pos hwhile] at h
    obtain ⟨⟨value, after⟩, hcondition, hread⟩ := bind_eq_ok_iff.mp h
    obtain ⟨rfl, hvalue, -⟩ := condition_eq_ok_iff.mp hcondition
    obtain ⟨⟨body, after'⟩, hbody, hdone⟩ := bind_eq_ok_iff.mp hread
    obtain ⟨rfl, rfl⟩ := hdone
    obtain ⟨used, rfl, hspells⟩ := hblock hbody
    exact ⟨start :: (value.tokens ++ used), by simp, .loop hwhile hvalue hspells⟩
  rw [if_neg hwhile] at h
  by_cases hreturn : start.isWord ["return"]
  · rw [if_pos hreturn] at h
    exact hleaf (spellsLeaf_of_exit (show start.isWord [ExitKind.word .return] from hreturn) h)
  rw [if_neg hreturn] at h
  by_cases hfail : start.isWord ["fail"]
  · rw [if_pos hfail] at h
    exact hleaf (spellsLeaf_of_exit (show start.isWord [ExitKind.word .fail] from hfail) h)
  rw [if_neg hfail] at h
  by_cases hpanic : start.isWord ["panic"]
  · rw [if_pos hpanic] at h
    exact hleaf (spellsLeaf_of_exit (show start.isWord [ExitKind.word .panic] from hpanic) h)
  rw [if_neg hpanic] at h
  by_cases hbreak : start.isWord ["break"]
  · rw [if_pos hbreak] at h
    exact hleaf (spellsLeaf_of_jump (show start.isWord [JumpKind.word .break] from hbreak) h)
  rw [if_neg hbreak] at h
  by_cases hcontinue : start.isWord ["continue"]
  · rw [if_pos hcontinue] at h
    exact hleaf (spellsLeaf_of_jump (show start.isWord [JumpKind.word .continue] from hcontinue) h)
  rw [if_neg hcontinue] at h
  by_cases hbrace : start.is "\x7b"
  · rw [if_pos hbrace] at h
    exact hleaf (spellsLeaf_of_unsupported (.inr ⟨hbrace, rfl⟩) h)
  rw [if_neg hbrace] at h
  by_cases hmarked : start.is "@" || start.is "final"
  · rw [if_pos hmarked] at h
    exact hleaf (spellsLeaf_of_markedDeclaration hmarked h)
  rw [if_neg hmarked] at h
  refine hleaf (spellsLeaf_of_simpleStatement ?_ h)
  simp_all [leads, Token.isWord]

lemma spells_ne_nil {s : Statement} {ts rest : Phrase} (h : Spells s ts rest) : ts ≠ [] := by
  cases h with
  | leaf h => cases h <;> simp [Expression.tokens]
  | conditional => simp
  | loop => simp

/-- A reader of statements up to a closing brace accepts what is spelled so. -/
def ReadsAll (read : Reader (List Statement × Token)) : Prop :=
  ∀ ⦃ts rest : Phrase⦄ ⦃list : List Statement⦄ ⦃close : Token⦄,
    read ts = .ok ((list, close), rest) →
      ∃ used, ts = used ++ close :: rest ∧ close.is "\x7d" ∧ SpellsAll list used [close]

lemma ReadsAll.blockWith {read : Reader (List Statement × Token)} (hread : ReadsAll read) :
    ReadsBlocks (blockWith read) := by
  intro ts rest b h
  obtain ⟨⟨brace, after⟩, hexpect, hbody⟩ := bind_eq_ok_iff.mp h
  obtain ⟨rfl, hbrace⟩ := expect_eq_ok_iff.mp hexpect
  obtain ⟨⟨⟨list, close⟩, left⟩, hlist, hdone⟩ := bind_eq_ok_iff.mp hbody
  obtain ⟨rfl, rfl⟩ := hdone
  obtain ⟨used, heq, hclose, hspells⟩ := hread hlist
  obtain rfl : after = used ++ close :: rest := heq
  exact ⟨brace :: (used ++ [close]), by simp, .mk hbrace hclose hspells⟩

lemma readsAll_statements (n : Nat) : ReadsAll (statements n) := by
  induction n with
  | zero =>
    intro ts rest list close h
    simp [statements] at h
  | succ n ih =>
    intro ts rest list close h
    cases ts with
    | nil => simp [statements] at h
    | cons t ts =>
      rw [statements] at h
      split at h
      · rename_i hclose
        simp only [Except.ok.injEq, Prod.mk.injEq] at h
        obtain ⟨⟨rfl, rfl⟩, rfl⟩ := h
        exact ⟨[], rfl, hclose, .nil⟩
      · rename_i hfirst
        obtain ⟨⟨s, after⟩, hs, hread⟩ := bind_eq_ok_iff.mp h
        obtain ⟨⟨⟨others, close'⟩, after'⟩, hothers, hdone⟩ := bind_eq_ok_iff.mp hread
        obtain ⟨⟨rfl, rfl⟩, rfl⟩ := hdone
        obtain ⟨used, heq, hspells⟩ := spells_of_statement ih.blockWith hs
        obtain ⟨used', rfl, hclose, hspells'⟩ := ih hothers
        refine ⟨used ++ used', by simp [heq], hclose, .cons ?_ (hspells.quieter ?_) hspells'⟩
        · obtain ⟨u, used, rfl⟩ := List.exists_cons_of_ne_nil (spells_ne_nil hspells)
          obtain ⟨rfl, -⟩ := List.cons.inj heq
          simpa [sees] using hfirst
        · exact quieter_of_head (by cases used' <;> rfl)

/-- What is read as a block is spelled as one. -/
theorem readsBlocks_block : ReadsBlocks block := by
  intro ts rest b h
  exact (readsAll_statements ts.length).blockWith h

/-! ### What is spelled is read -/

/-- A reader accepts all blocks of at most `n` tokens. -/
def AcceptsBlocks (n : Nat) (block : Reader Block) : Prop :=
  ∀ ⦃b : Block⦄ ⦃ts : Phrase⦄, SpellsBlock b ts → ts.length ≤ n →
    ∀ rest, block (ts ++ rest) = .ok (b, rest)

lemma SpellsBlock.sees {b : Block} {ts : Phrase} (h : SpellsBlock b ts) (rest : Phrase) :
    sees "\x7b" (ts ++ rest) := by
  cases h with
  | mk hbrace => exact hbrace

lemma isWord_singleton {t : Token} {word : String} (h : t.isWord [word]) :
    t.isIdentifier ∧ t.text = word := by
  simpa [Token.isWord] using h

lemma statement_of_plain {start : Token} (h : leads start = false) (block : Reader Block)
    (ts : Phrase) : statement block start ts = simpleStatement start (start :: ts) := by
  simp only [leads, Bool.or_eq_false_iff] at h
  obtain ⟨⟨⟨⟨hunsupported, hwords⟩, hbrace⟩, hat⟩, hfinal⟩ := h
  have hword : ∀ word ∈ ["if", "while", "return", "fail", "panic", "break", "continue"],
      start.isWord [word] = false := by
    intro word hmem
    by_contra hne
    obtain ⟨hid, rfl⟩ := isWord_singleton (by simpa using hne)
    simp [Token.isWord, hid, hmem] at hwords
  simp [statement, hunsupported, hword, hbrace, hat, hfinal]

/-- A mark is no word. -/
lemma isWord_of_is {t : Token} {mark : String} {words : List String} (h : t.is mark)
    (hmem : mark ∉ words) : t.isWord words = false := by
  simp only [Token.is, Bool.and_eq_true, beq_iff_eq] at h
  simp [Token.isWord, h.2, hmem]

/-- An annotation or `final` leads a declaration. -/
lemma statement_of_marked {start : Token} (h : start.is "@" || start.is "final")
    (block : Reader Block) (ts : Phrase) :
    statement block start ts = markedDeclaration start (start :: ts) := by
  have hword : ∀ words : List String, "@" ∉ words → "final" ∉ words →
      start.isWord words = false := by
    intro words hat hfinal
    rcases Bool.or_eq_true _ _ ▸ h with hmark | hmark
    · exact isWord_of_is hmark hat
    · exact isWord_of_is hmark hfinal
  have hbrace : start.is "\x7b" = false := by
    by_contra hmark'
    rcases Bool.or_eq_true _ _ ▸ h with hmark | hmark <;>
      exact absurd (is_inj hmark (by simpa using hmark')) (by decide)
  simp [statement, hword, unsupportedWords, hbrace, Bool.or_eq_true _ _ ▸ h]

lemma statement_of_exit {kind : ExitKind} {word : Token} (h : word.isWord [kind.word])
    (block : Reader Block) (ts : Phrase) : statement block word ts = Parser.exit kind word ts := by
  obtain ⟨hid, htext⟩ := isWord_singleton h
  cases kind <;> simp [statement, Token.isWord, hid, htext, ExitKind.word, unsupportedWords]

lemma statement_of_jump {kind : JumpKind} {word : Token} (h : word.isWord [kind.word])
    (block : Reader Block) (ts : Phrase) : statement block word ts = Parser.jump kind word ts := by
  obtain ⟨hid, htext⟩ := isWord_singleton h
  cases kind <;> simp [statement, Token.isWord, hid, htext, JumpKind.word, unsupportedWords]

lemma statement_of_braces {start : Token} (h : start.is "\x7b") (block : Reader Block)
    (ts : Phrase) :
    statement block start ts = unsupportedStatement "block" start (start :: ts) := by
  have hword : ∀ words : List String, "\x7b" ∉ words → start.isWord words = false :=
    fun words hmem => isWord_of_is h hmem
  simp [statement, hword, h, unsupportedWords]

lemma statement_of_spellsLeaf {s : Statement} {ts rest : Phrase} (h : SpellsLeaf s ts rest)
    (block : Reader Block) :
    ∃ start more, ts = start :: more ∧ statement block start (more ++ rest) = .ok (s, rest) := by
  cases h with
  | @declaration start name semicolon body type _ value hstart hlead hbody hsemicolon hdeclared
      hlooks =>
    obtain ⟨more, rfl⟩ : ∃ more, body = start :: more := List.head?_eq_some_iff.mp hstart
    refine ⟨start, more ++ [semicolon], rfl, ?_⟩
    have hts : start :: (more ++ [semicolon] ++ rest) = start :: more ++ semicolon :: rest := by
      simp
    rw [statement_of_plain hlead, hts, simpleStatement_eq hbody hsemicolon, hdeclared.cutOrAll,
      if_pos hlooks]
    exact bind_eq_ok_iff.mpr ⟨_, declaration_eq_ok_iff.mpr
      ⟨_, semicolon, type, name, value, rfl, hbody, hsemicolon, hdeclared, rfl⟩, rfl⟩
  | @marked start name semicolon annotated finals body type _ names qualifiers value hstart hlead
      hannotated hfinals hbody hsemicolon hdeclared =>
    obtain ⟨more, hmore⟩ : ∃ more, annotated ++ finals = start :: more :=
      List.head?_eq_some_iff.mp hstart
    refine ⟨start, more ++ (body ++ [semicolon]), ?_, ?_⟩
    · rw [← List.append_assoc, hmore, List.cons_append]
    have hts : start :: (more ++ (body ++ [semicolon]) ++ rest) =
        annotated ++ (finals ++ (body ++ semicolon :: rest)) := by
      rw [← List.append_assoc annotated, hmore]
      simp
    obtain ⟨used, hused, -, -, -, hall⟩ := annotations_spec hannotated
    obtain rfl : annotated = used := List.append_cancel_right hused
    have hhead : (body ++ semicolon :: rest).head? = (body ++ [semicolon]).head? := by
      cases body <;> rfl
    have hhead' : (finals ++ (body ++ semicolon :: rest)).head? =
        (finals ++ (body ++ [semicolon])).head? := by
      cases finals with
      | nil => exact hhead
      | cons => rfl
    rw [statement_of_marked hlead, hts, markedDeclaration_eq (hall _ hhead') (hfinals.congr hhead)]
    exact bind_eq_ok_iff.mpr ⟨_, declaration_eq_ok_iff.mpr
      ⟨_, semicolon, type, name, value, rfl, hbody, hsemicolon, hdeclared, rfl⟩, rfl⟩
  | @assignment start equal semicolon target _ value hstart hlead hbody hsemicolon htarget hequal
      hlooks =>
    obtain ⟨more, rfl⟩ : ∃ more, target = start :: more := List.head?_eq_some_iff.mp hstart
    refine ⟨start, more ++ equal :: value.tokens ++ [semicolon], rfl, ?_⟩
    have hts : start :: (more ++ equal :: value.tokens ++ [semicolon] ++ rest) =
        (start :: more ++ equal :: value.tokens) ++ semicolon :: rest := by
      simp
    rw [statement_of_plain hlead, hts, simpleStatement_eq hbody hsemicolon,
      cutOrAll_append htarget hequal, if_neg (by simp [hlooks])]
    exact bind_eq_ok_iff.mpr ⟨value, expression_eq_ok_iff.mpr rfl, rfl⟩
  | @expression semicolon _ value hlead hbody hsemicolon hvalue hlooks =>
    refine ⟨value.first, value.rest ++ [semicolon], rfl, ?_⟩
    have hts : value.first :: (value.rest ++ [semicolon] ++ rest) =
        value.tokens ++ semicolon :: rest := by
      simp [Expression.tokens]
    rw [statement_of_plain hlead, hts, simpleStatement_eq hbody hsemicolon,
      cutOrAll_of_free hvalue, if_neg (by simp [hlooks])]
    exact bind_eq_ok_iff.mpr ⟨value, expression_eq_ok_iff.mpr rfl, rfl⟩
  | @exit kind word semicolon value _ hword hbody hsemicolon hpanic =>
    refine ⟨word, operand value ++ [semicolon], rfl, ?_⟩
    rw [statement_of_exit hword, List.append_assoc, List.singleton_append]
    refine bind_eq_ok_iff.mpr ⟨_, through_eq_ok_iff.mpr ⟨rfl, hbody, hsemicolon⟩, ?_⟩
    cases value with
    | some value => rfl
    | none =>
      have hkind : kind ≠ .panic := fun h => by simpa using hpanic h
      simp [operand, hkind, pure, Except.pure]
  | @jump kind word semicolon _ hword hsemicolon =>
    refine ⟨word, [semicolon], rfl, ?_⟩
    rw [statement_of_jump hword]
    exact bind_eq_ok_iff.mpr ⟨_, expect_eq_ok_iff.mpr ⟨rfl, hsemicolon⟩, rfl⟩
  | @unsupported start last ts _ hstart hskip hon =>
    refine ⟨start, ts, rfl, ?_⟩
    rw [statement, if_pos hstart]
    exact bind_eq_ok_iff.mpr ⟨(last, rest), skipStatement_append hskip hon, rfl⟩
  | @braces start last ts _ hstart hskip hon =>
    refine ⟨start, ts, rfl, ?_⟩
    rw [statement_of_braces hstart]
    exact bind_eq_ok_iff.mpr ⟨(last, rest), skipStatement_append hskip hon, rfl⟩

lemma SpellsConditional.length_pos {c : Conditional} {word : Token} {ts rest : Phrase}
    (h : SpellsConditional c word ts rest) : 0 < ts.length := by
  cases h <;> simp [Expression.tokens]

lemma conditional_of_spells {m : Nat} {block : Reader Block} (hblock : AcceptsBlocks m block)
    {c : Conditional} {word : Token} {ts rest : Phrase} (h : SpellsConditional c word ts rest)
    (hm : ts.length ≤ m) {n : Nat} (hn : ts.length ≤ n) :
    conditional block n word (ts ++ rest) = .ok (c, rest) := by
  obtain ⟨n, rfl⟩ := Nat.exists_eq_add_one.mpr (h.length_pos.trans_le hn)
  match h with
  | @SpellsConditional.absent _ value body used _ hvalue hbody helse =>
    simp only [List.length_append] at hm
    refine bind_eq_ok_iff.mpr ⟨(value, used ++ rest),
      condition_eq_ok_iff.mpr ⟨by simp, hvalue, hbody.sees _⟩, ?_⟩
    refine bind_eq_ok_iff.mpr ⟨(body, rest), hblock hbody (by omega) rest, ?_⟩
    simp only [eat_eq_none_iff.mpr helse]
    rfl
  | @SpellsConditional.block _ other value body last used us _ hvalue hbody helse hlast =>
    simp only [List.length_append, List.length_cons] at hm
    refine bind_eq_ok_iff.mpr ⟨(value, used ++ (other :: us ++ rest)),
      condition_eq_ok_iff.mpr ⟨by simp, hvalue, hbody.sees _⟩, ?_⟩
    refine bind_eq_ok_iff.mpr ⟨(body, other :: us ++ rest), hblock hbody (by omega) _, ?_⟩
    have heat : eat "else" (other :: us ++ rest) = some (us ++ rest) :=
      eat_eq_some_iff.mpr ⟨other, rfl, helse⟩
    have hread := hblock hlast (by omega) rest
    cases hlast with
    | @mk brace close list inner hbrace hclose hlist =>
      have hif : brace.is "if" = false := by
        by_contra hif
        exact absurd (is_inj hbrace (by simpa using hif)) (by decide)
      simp only [heat]
      simp only [List.cons_append, hif, Bool.false_eq_true, if_false]
      exact bind_eq_ok_iff.mpr ⟨_, hread, rfl⟩
  | @SpellsConditional.chained _ other word' value body next used us _ hvalue hbody helse hif
      hnext =>
    simp only [List.length_append, List.length_cons] at hm hn
    refine bind_eq_ok_iff.mpr ⟨(value, used ++ (other :: word' :: us ++ rest)),
      condition_eq_ok_iff.mpr ⟨by simp, hvalue, hbody.sees _⟩, ?_⟩
    refine bind_eq_ok_iff.mpr ⟨(body, other :: word' :: us ++ rest), hblock hbody (by omega) _, ?_⟩
    have heat : eat "else" (other :: word' :: us ++ rest) = some (word' :: (us ++ rest)) :=
      eat_eq_some_iff.mpr ⟨other, rfl, helse⟩
    simp only [heat, hif, if_true]
    have hread := conditional_of_spells hblock hnext (by omega) (n := n) (by omega)
    exact bind_eq_ok_iff.mpr ⟨_, hread, rfl⟩

/-- A spelled statement is read by every reader that accepts its blocks. -/
lemma statement_of_spells {m : Nat} {block : Reader Block} (hblock : AcceptsBlocks m block)
    {s : Statement} {ts rest : Phrase} (h : Spells s ts rest) (hm : ts.length ≤ m) :
    ∃ start more, ts = start :: more ∧ statement block start (more ++ rest) = .ok (s, rest) := by
  cases h with
  | leaf h => exact statement_of_spellsLeaf h block
  | @conditional word c ts _ hword h =>
    refine ⟨word, ts, rfl, ?_⟩
    obtain ⟨hid, htext⟩ := isWord_singleton hword
    have hread := conditional_of_spells hblock h (by simp at hm; omega)
      (n := (ts ++ rest).length) (by simp)
    simp only [statement, Token.isWord, hid, htext, unsupportedWords]
    exact bind_eq_ok_iff.mpr ⟨(c, rest), hread, rfl⟩
  | @loop word value body ts _ hword hvalue hbody =>
    refine ⟨word, value.tokens ++ ts, rfl, ?_⟩
    obtain ⟨hid, htext⟩ := isWord_singleton hword
    have hstatement : statement block word (value.tokens ++ ts ++ rest) =
        loop block word (value.tokens ++ ts ++ rest) := by
      simp [statement, Token.isWord, hid, htext, unsupportedWords]
    rw [hstatement, List.append_assoc]
    refine bind_eq_ok_iff.mpr ⟨(value, ts ++ rest),
      condition_eq_ok_iff.mpr ⟨rfl, hvalue, hbody.sees _⟩, ?_⟩
    exact bind_eq_ok_iff.mpr ⟨(body, rest), hblock hbody (by simp at hm; omega) rest, rfl⟩

lemma acceptsBlocks_blockWith {n : Nat} {read : Reader (List Statement × Token)}
    (hread : ∀ ⦃list : List Statement⦄ ⦃ts : Phrase⦄ ⦃close : Token⦄, close.is "\x7d" →
      SpellsAll list ts [close] → ts.length < n →
        ∀ rest, read (ts ++ close :: rest) = .ok ((list, close), rest)) :
    AcceptsBlocks n (blockWith read) := by
  intro b ts h hn rest
  cases h with
  | @mk brace close list ts hbrace hclose hlist =>
    simp only [List.length_cons, List.length_append] at hn
    have hts : brace :: (ts ++ [close]) ++ rest = brace :: (ts ++ close :: rest) := by simp
    rw [hts]
    refine bind_eq_ok_iff.mpr ⟨_, expect_eq_ok_iff.mpr ⟨rfl, hbrace⟩, ?_⟩
    exact bind_eq_ok_iff.mpr ⟨_, hread hclose hlist (by omega) rest, rfl⟩

lemma statements_of_spells (n : Nat) ⦃list : List Statement⦄ ⦃ts : Phrase⦄ ⦃close : Token⦄
    (hclose : close.is "\x7d") (h : SpellsAll list ts [close]) (hn : ts.length < n)
    (rest : Phrase) : statements n (ts ++ close :: rest) = .ok ((list, close), rest) := by
  induction n generalizing list ts close rest with
  | zero => omega
  | succ n ih =>
    cases h with
    | nil => simp [statements, hclose]
    | @cons s list ts us _ hfirst hs hlist =>
      have hblock : AcceptsBlocks n (blockWith (statements n)) :=
        acceptsBlocks_blockWith fun list ts close hclose h hn => ih hclose h hn
      have hquieter : Quieter [close] (close :: rest) := quieter_of_head rfl
      have hs' : Spells s ts (us ++ close :: rest) := hs.quieter (hquieter.append us)
      have hpos : 0 < ts.length := List.length_pos_iff.mpr (spells_ne_nil hs)
      simp only [List.length_append] at hn
      obtain ⟨start, more, rfl, hread⟩ := statement_of_spells hblock hs' (by omega)
      have hts : start :: more ++ us ++ close :: rest =
          start :: (more ++ (us ++ close :: rest)) := by simp
      rw [hts, statements, if_neg (by simpa [Parser.sees] using hfirst)]
      refine bind_eq_ok_iff.mpr ⟨_, hread, ?_⟩
      exact bind_eq_ok_iff.mpr ⟨_, ih hclose hlist (by omega) rest, rfl⟩

lemma acceptsBlocks_block (n : Nat) : AcceptsBlocks n block := by
  intro b ts h _ rest
  have hread := acceptsBlocks_blockWith (statements_of_spells (ts ++ rest).length)
  exact hread h (by simp) rest

/-- A statement is read from its tokens exactly when they spell it. -/
theorem statement_eq_ok_iff {start : Token} {ts rest : Phrase} {s : Statement} :
    statement block start ts = .ok (s, rest) ↔
      ∃ used, start :: ts = used ++ rest ∧ Spells s used rest := by
  constructor
  · exact spells_of_statement readsBlocks_block
  · rintro ⟨used, heq, hspells⟩
    obtain ⟨start', more, rfl, hread⟩ :=
      statement_of_spells (acceptsBlocks_block used.length) hspells (Nat.le_refl _)
    obtain ⟨rfl, rfl⟩ := List.cons.inj heq
    exact hread

/-! ### Where statements stand -/

/-- The span runs from the first token to the last one. -/
def Covers (span : Span) (ts : Phrase) : Prop :=
  ∃ first last, ts.head? = some first ∧ ts.getLast? = some last ∧
    span = first.span.through last.span

lemma SpellsBlock.covers {b : Block} {ts : Phrase} (h : SpellsBlock b ts) : Covers b.span ts := by
  cases h with
  | @mk brace close list ts => exact ⟨brace, close, rfl, by simp [List.getLast?_cons], rfl⟩

lemma covers_cons (word : Token) {span : Span} {us : Phrase} (h : Covers span us) (ts : Phrase) :
    Covers (word.span.through span) (word :: (ts ++ us)) := by
  obtain ⟨first, last, -, hlast, rfl⟩ := h
  exact ⟨word, last, rfl, by simp [List.getLast?_cons, hlast], rfl⟩

lemma SpellsConditional.covers {c : Conditional} {word : Token} {ts rest : Phrase}
    (h : SpellsConditional c word ts rest) : Covers c.span (word :: ts) := by
  match h with
  | .absent _ hbody _ => exact covers_cons _ hbody.covers _
  | @SpellsConditional.block _ other value _ _ used us _ _ _ _ hlast =>
    have hcovers := covers_cons word hlast.covers (value.tokens ++ used ++ [other])
    simpa [Conditional.span] using hcovers
  | @SpellsConditional.chained _ other word' value _ _ used us _ _ _ _ _ hnext =>
    have hcovers := covers_cons word hnext.covers (value.tokens ++ used ++ [other])
    simpa [Conditional.span] using hcovers

lemma Spells.covers {s : Statement} {ts rest : Phrase} (h : Spells s ts rest) :
    Covers s.span ts := by
  cases h with
  | conditional _ h => exact h.covers
  | loop _ _ hbody => exact covers_cons _ hbody.covers _
  | leaf h =>
    cases h with
    | @declaration start _ semicolon body _ _ _ hstart =>
      exact ⟨start, semicolon, by simp [List.head?_append, hstart], by simp, rfl⟩
    | @marked start _ semicolon annotated finals body _ _ _ _ _ hstart =>
      refine ⟨start, semicolon, ?_, by simp [List.getLast?_append], rfl⟩
      rw [← List.append_assoc, List.head?_append, hstart]
      rfl
    | @assignment start _ semicolon _ _ _ hstart =>
      refine ⟨start, semicolon, ?_, List.getLast?_concat, rfl⟩
      simp [List.head?_append, hstart]
    | @expression semicolon _ value =>
      exact ⟨value.first, semicolon, rfl, by simp, rfl⟩
    | @exit _ word semicolon value =>
      exact ⟨word, semicolon, rfl, by simp [List.getLast?_cons], rfl⟩
    | @jump _ word semicolon => exact ⟨word, semicolon, rfl, rfl, rfl⟩
    | @unsupported start last ts _ _ hskip _ =>
      obtain ⟨used, hused, hlast, -, -⟩ := skipStatement_spec hskip
      rw [List.append_nil] at hused
      exact ⟨start, last, rfl, by rw [hused, hlast], rfl⟩
    | @braces start last ts _ _ hskip _ =>
      obtain ⟨used, hused, hlast, -, -⟩ := skipStatement_spec hskip
      rw [List.append_nil] at hused
      exact ⟨start, last, rfl, by rw [hused, hlast], rfl⟩

end Parser

end FlowCanvas
