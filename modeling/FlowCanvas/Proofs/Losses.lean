import FlowCanvas.Proofs.RoundTrip
import FlowCanvas.Proofs.Wording

/-!
# What control nodes lose

The text of an `if` or `while` node holds every statement of its blocks exactly when none of them is
unsupported. Then the text is read as a statement whose blocks hold as many statements as the blocks
of the original one.
-/

namespace FlowCanvas

/-! ### Sizes of blocks -/

mutual

/-- How many statements that are kept the blocks of a statement hold, block by block from the
outside to the inside. A missing `else` counts as a block without statements, an `else if` as a
block with one. -/
def Statement.sizes (keep : Statement → Bool) : Statement → List Nat
  | .conditional read => Conditional.sizes keep read
  | .loop _ body _ => Block.sizes keep body
  | _ => []

def Conditional.sizes (keep : Statement → Bool) : Conditional → List Nat
  | .mk _ body alternative _ => Block.sizes keep body ++ Alternative.sizes keep alternative

def Alternative.sizes (keep : Statement → Bool) : Alternative → List Nat
  | .absent => [0]
  | .block body => Block.sizes keep body
  | .chained next => 1 :: Conditional.sizes keep next

def Block.sizes (keep : Statement → Bool) : Block → List Nat
  | .mk list _ => list.countP keep :: Statement.allSizes keep list

def Statement.allSizes (keep : Statement → Bool) : List Statement → List Nat
  | [] => []
  | s :: list => Statement.sizes keep s ++ Statement.allSizes keep list

end

/-- How many statements the blocks of a statement hold. -/
abbrev Statement.blockSizes (s : Statement) : List Nat := s.sizes fun _ => true

namespace Statement

lemma not_isConditional {s : Statement} (h : s.isControl = false) : s.isConditional = false := by
  cases s <;> first | rfl | simp [isControl] at h

lemma sizes_of_not_isControl {s : Statement} (h : s.isControl = false) (keep : Statement → Bool) :
    s.sizes keep = [] := by
  cases s with
  | conditional => simp [isControl] at h
  | loop => simp [isControl] at h
  | declaration => rw [sizes] <;> simp
  | assignment => rw [sizes] <;> simp
  | exit => rw [sizes] <;> simp
  | jump => rw [sizes] <;> simp
  | expression => rw [sizes] <;> simp
  | unsupported => rw [sizes] <;> simp

lemma nested_of_not_isControl {s : Statement} (h : s.isControl = false) : s.nested = [s] := by
  cases s with
  | conditional => simp [isControl] at h
  | loop => simp [isControl] at h
  | declaration => rw [nested] <;> simp
  | assignment => rw [nested] <;> simp
  | exit => rw [nested] <;> simp
  | jump => rw [nested] <;> simp
  | expression => rw [nested] <;> simp
  | unsupported => rw [nested] <;> simp

lemma isControl_of_unsupported {s : Statement} (h : s.isSupported = false) :
    s.isControl = false := by
  cases s <;> first | rfl | simp [isSupported] at h

end Statement

mutual

/-- The statements that are not kept change the counts, not the blocks that are counted. -/
lemma Statement.length_sizes (keep keep' : Statement → Bool) : ∀ s : Statement,
    (s.sizes keep).length = (s.sizes keep').length
  | .conditional read => by
    rw [Statement.sizes, Statement.sizes]
    exact Conditional.length_sizes keep keep' read
  | .loop _ body _ => by
    rw [Statement.sizes, Statement.sizes]
    exact Block.length_sizes keep keep' body
  | .declaration _ | .assignment .. | .exit .. | .jump .. | .expression .. | .unsupported .. => by
    rw [Statement.sizes_of_not_isControl rfl, Statement.sizes_of_not_isControl rfl]

lemma Conditional.length_sizes (keep keep' : Statement → Bool) : ∀ c : Conditional,
    (c.sizes keep).length = (c.sizes keep').length
  | .mk _ body alternative _ => by
    rw [Conditional.sizes, Conditional.sizes, List.length_append, List.length_append,
      Block.length_sizes keep keep' body, Alternative.length_sizes keep keep' alternative]

lemma Alternative.length_sizes (keep keep' : Statement → Bool) : ∀ a : Alternative,
    (a.sizes keep).length = (a.sizes keep').length
  | .absent => rfl
  | .block body => by
    rw [Alternative.sizes, Alternative.sizes]
    exact Block.length_sizes keep keep' body
  | .chained next => by
    rw [Alternative.sizes, Alternative.sizes, List.length_cons, List.length_cons,
      Conditional.length_sizes keep keep' next]

lemma Block.length_sizes (keep keep' : Statement → Bool) : ∀ b : Block,
    (b.sizes keep).length = (b.sizes keep').length
  | .mk list _ => by
    rw [Block.sizes, Block.sizes, List.length_cons, List.length_cons,
      Statement.length_allSizes keep keep' list]

lemma Statement.length_allSizes (keep keep' : Statement → Bool) : ∀ list : List Statement,
    (Statement.allSizes keep list).length = (Statement.allSizes keep' list).length
  | [] => rfl
  | s :: list => by
    rw [Statement.allSizes, Statement.allSizes, List.length_append, List.length_append,
      Statement.length_sizes keep keep' s, Statement.length_allSizes keep keep' list]

end

mutual

/-- The counts are the full ones exactly if every statement inside is supported. -/
lemma Statement.sizes_eq_iff : ∀ {s : Statement}, s.isSupported →
    (s.sizes Statement.isSupported = s.blockSizes ↔ ∀ s' ∈ s.nested, s'.isSupported)
  | .conditional read, _ => by
    rw [Statement.blockSizes, Statement.sizes, Statement.sizes, Statement.nested]
    exact Conditional.sizes_eq_iff
  | .loop value body span, _ => by
    rw [Statement.blockSizes, Statement.sizes, Statement.sizes, Statement.nested,
      Block.sizes_eq_iff, List.forall_mem_cons]
    exact (and_iff_right rfl).symm
  | .declaration _, h | .assignment .., h | .exit .., h | .jump .., h | .expression .., h
  | .unsupported .., h => by
    rw [Statement.blockSizes, Statement.sizes_of_not_isControl rfl,
      Statement.sizes_of_not_isControl rfl, Statement.nested_of_not_isControl rfl]
    simpa using h

lemma Conditional.sizes_eq_iff : ∀ {c : Conditional},
    c.sizes Statement.isSupported = c.sizes (fun _ => true) ↔ ∀ s' ∈ c.nested, s'.isSupported
  | .mk value body alternative span => by
    rw [Conditional.sizes, Conditional.sizes, Conditional.nested, List.forall_mem_cons,
      List.forall_mem_append, ← Block.sizes_eq_iff, ← Alternative.sizes_eq_iff]
    constructor
    · intro h
      exact ⟨rfl, List.append_inj h (Block.length_sizes _ _ body)⟩
    · rintro ⟨-, hbody, halternative⟩
      rw [hbody, halternative]

lemma Alternative.sizes_eq_iff : ∀ {a : Alternative},
    a.sizes Statement.isSupported = a.sizes (fun _ => true) ↔ ∀ s' ∈ a.nested, s'.isSupported
  | .absent => by
    rw [Alternative.sizes, Alternative.sizes, Alternative.nested]
    simp
  | .block body => by
    rw [Alternative.sizes, Alternative.sizes, Alternative.nested]
    exact Block.sizes_eq_iff
  | .chained next => by
    rw [Alternative.sizes, Alternative.sizes, Alternative.nested, List.cons_inj_right]
    exact Conditional.sizes_eq_iff

lemma Block.sizes_eq_iff : ∀ {b : Block},
    b.sizes Statement.isSupported = b.sizes (fun _ => true) ↔ ∀ s' ∈ b.nested, s'.isSupported
  | .mk list span => by
    rw [Block.sizes, Block.sizes, Block.nested, List.cons.injEq]
    exact Statement.allSizes_eq_iff

lemma Statement.allSizes_eq_iff : ∀ {list : List Statement},
    (list.countP Statement.isSupported = list.countP (fun _ => true) ∧
      Statement.allSizes Statement.isSupported list = Statement.allSizes (fun _ => true) list) ↔
    ∀ s' ∈ Statement.allNested list, s'.isSupported
  | [] => by simp [Statement.allNested, Statement.allSizes]
  | s :: list => by
    rw [Statement.allSizes, Statement.allSizes, Statement.allNested, List.forall_mem_append,
      ← Statement.allSizes_eq_iff]
    cases hs : s.isSupported with
    | true =>
      rw [List.countP_cons_of_pos hs, List.countP_cons_of_pos rfl, ← Statement.sizes_eq_iff hs]
      constructor
      · rintro ⟨hcount, hsizes⟩
        obtain ⟨hfirst, hothers⟩ := List.append_inj hsizes (Statement.length_sizes _ _ s)
        exact ⟨hfirst, Nat.succ.inj hcount, hothers⟩
      · rintro ⟨hfirst, hcount, hothers⟩
        rw [hcount, hfirst, hothers]
        exact ⟨rfl, rfl⟩
    | false =>
      -- The count of the kept statements stays behind the count of all of them.
      constructor
      · rintro ⟨hcount, -⟩
        have hle := List.countP_le_length (p := Statement.isSupported) (l := list)
        rw [List.countP_cons_of_neg (by simp [hs]), List.countP_true, List.length_cons] at hcount
        omega
      · rintro ⟨hfirst, -⟩
        have hself := hfirst s (Statement.mem_nested_self s)
        rw [hs] at hself
        exact absurd hself (by simp)

end

namespace Parser

/-- The statement that all of a text is read as. -/
def single? (text : String) : Option Statement :=
  match Lexer.tokenize text with
  | .ok (t :: ts) =>
    match statement block t ts with
    | .ok (s, []) => some s
    | _ => none
  | _ => none

lemma single?_of_spells {text : String} {ts : Phrase} {s : Statement}
    (htokens : Lexer.tokenize text = .ok ts) (h : Spells s ts []) : single? text = some s := by
  obtain ⟨t, us, rfl⟩ := List.exists_cons_of_ne_nil (spells_ne_nil h)
  have hread : statement block t us = .ok (s, []) :=
    statement_eq_ok_iff.mpr ⟨t :: us, by simp, h⟩
  simp only [single?, htokens, hread]

end Parser

namespace Phrase

lemma lexemes_eq_append {us : Phrase} {ls ms : List Lexeme} (h : us.lexemes = ls ++ ms) :
    ∃ vs ws, us = vs ++ ws ∧ Phrase.lexemes vs = ls ∧ Phrase.lexemes ws = ms :=
  List.map_eq_append_iff.mp h

lemma lexemes_eq_cons {us : Phrase} {l : Lexeme} {ls : List Lexeme} (h : us.lexemes = l :: ls) :
    ∃ u vs, us = u :: vs ∧ (u.kind, u.text) = l ∧ Phrase.lexemes vs = ls :=
  List.map_eq_cons_iff.mp h

end Phrase

namespace Analysis

open Lexer FlowCanvas.Parser Brackets

/-! ### Reading what is left -/

section Respelling

variable {leaf : Statement → List Lexeme} {ts : Phrase}

/-- No statement starts with the word `else`, which would be read with an `if` in front of it. -/
def Apart (leaf : Statement → List Lexeme) (list : List Statement) : Prop :=
  ∀ s ∈ list, (leaf s).head? ≠ some (.identifier, "else")

lemma Apart.left {list list' : List Statement} (h : Apart leaf (list ++ list')) :
    Apart leaf list := fun s hs => h s (List.mem_append_left _ hs)

lemma Apart.right {list list' : List Statement} (h : Apart leaf (list ++ list')) :
    Apart leaf list' := fun s hs => h s (List.mem_append_right _ hs)

lemma Apart.tail {s : Statement} {list : List Statement} (h : Apart leaf (s :: list)) :
    Apart leaf list := @Apart.right leaf [s] list h

lemma alike_of_lexemes {value : Expression} {us : Phrase}
    (h : us.lexemes = value.tokens.lexemes) :
    ∃ value' : Expression, us = value'.tokens ∧ value.tokens.Alike us := by
  have halike := Phrase.alike_iff.mpr h.symm
  obtain ⟨first, more, rfl, -, -⟩ := halike.cons_left
  exact ⟨⟨first, more⟩, rfl, halike⟩

lemma is_of_lexeme {t : Token} {kind : TokenKind} {mark : String}
    (h : (t.kind, t.text) = (kind, mark)) (hkind : kind ≠ .string) : t.is mark := by
  obtain ⟨rfl, rfl⟩ := Prod.mk.inj h
  simp [Token.is, hkind]

lemma isWord_of_lexeme {t : Token} {word : String} (h : (t.kind, t.text) = (.identifier, word)) :
    t.isWord [word] := by
  obtain ⟨hkind, rfl⟩ := Prod.mk.inj h
  simp [Token.isWord, Token.isIdentifier, hkind]

lemma same_word {t u : Token} {word : String} (ht : t.isWord [word])
    (hu : (u.kind, u.text) = (.identifier, word)) : Token.Same u t := by
  obtain ⟨hidentifier, htext⟩ := isWord_singleton ht
  obtain ⟨hkind, htext'⟩ := Prod.mk.inj hu
  exact ⟨hkind.trans (beq_iff_eq.mp hidentifier).symm, htext'.trans htext.symm⟩

/-- What is left of a statement starts like it. -/
lemma sees_remains (htells : Tells leaf ts) {keep : Statement → Bool} {s : Statement}
    {before used after rest us : Phrase} (h : Spells s used rest)
    (hts : ts = before ++ (used ++ after)) (hus : us.lexemes = remains keep leaf s)
    (mark : String) : sees mark us = sees mark used := by
  cases h with
  | leaf h =>
    rw [remains_of_leaf h, htells.lexemes hts h] at hus
    exact (Phrase.alike_iff.mpr hus).sees mark
  | @conditional word c _ _ hword h =>
    obtain ⟨value, body, alternative, span⟩ := c
    rw [remains, conditionalRemains] at hus
    obtain ⟨u, vs, rfl, hu, -⟩ := Phrase.lexemes_eq_cons hus
    exact (same_word hword hu).is mark
  | loop hword =>
    rw [remains] at hus
    obtain ⟨u, vs, rfl, hu, -⟩ := Phrase.lexemes_eq_cons hus
    exact (same_word hword hu).is mark

lemma remains_ne_nil (htells : Tells leaf ts) {keep : Statement → Bool} {s : Statement}
    {before used after rest us : Phrase} (h : Spells s used rest)
    (hts : ts = before ++ (used ++ after)) (hus : us.lexemes = remains keep leaf s) : us ≠ [] := by
  rintro rfl
  cases h with
  | leaf h =>
    rw [remains_of_leaf h, htells.lexemes hts h] at hus
    exact spells_ne_nil (.leaf h) (by simpa [Phrase.lexemes] using hus.symm)
  | @conditional word c =>
    obtain ⟨value, body, alternative, span⟩ := c
    rw [remains, conditionalRemains] at hus
    simp at hus
  | loop =>
    rw [remains] at hus
    simp at hus

lemma sees_else (htells : Tells leaf ts) {s : Statement} {before used after rest : Phrase}
    (h : Spells s used rest) (hts : ts = before ++ (used ++ after))
    (helse : (leaf s).head? ≠ some (.identifier, "else")) : sees "else" used = false := by
  cases h with
  | leaf h =>
    rw [htells.lexemes hts h] at helse
    obtain ⟨t, us, rfl⟩ := List.exists_cons_of_ne_nil (spells_ne_nil (.leaf h))
    by_contra hsees
    have his : t.is "else" := by simpa [sees] using hsees
    have hlexeme := htells.sourced.word (t := t) (by simp [hts]) his rfl (by decide)
    exact helse (congrArg some hlexeme)
  | conditional hword =>
    obtain ⟨-, htext⟩ := isWord_singleton hword
    simp [sees, Token.is, htext]
  | loop hword =>
    obtain ⟨-, htext⟩ := isWord_singleton hword
    simp [sees, Token.is, htext]

/-- The tokens of a condition and of what follows it. -/
lemma split_condition {value : Expression} {us : Phrase} {ls : List Lexeme}
    (hus : us.lexemes = value.tokens.lexemes ++ ls) (hvalue : Free "\x7b" value.tokens) :
    ∃ (value' : Expression) (vs : Phrase), us = value'.tokens ++ vs ∧ Free "\x7b" value'.tokens ∧
      vs.lexemes = ls := by
  obtain ⟨ws, vs, rfl, hws, hvs⟩ := Phrase.lexemes_eq_append hus
  obtain ⟨value', rfl, halike⟩ := alike_of_lexemes hws
  exact ⟨value', vs, rfl, halike.free hvalue, hvs⟩

lemma sees_else_statements (htells : Tells leaf ts) {list : List Statement}
    {before used after rest us : Phrase} {close : Token} (h : SpellsAll list used rest)
    (hts : ts = before ++ (used ++ after)) (hapart : Apart leaf (Statement.allNested list))
    (hus : us.lexemes =
      ((statementsRemain Statement.isSupported leaf list).map (·.lexemes)).flatten)
    (hclose : close.is "\x7d") : sees "else" (us ++ [close]) = false := by
  induction list generalizing before used us with
  | nil =>
    rw [statementsRemain] at hus
    obtain rfl : us = [] := by simpa [Phrase.lexemes] using hus
    by_contra hsees
    have his : close.is "else" := by simpa [sees] using hsees
    exact absurd (is_inj hclose his) (by decide)
  | cons s list ih =>
    cases h with
    | @cons _ _ used1 used2 _ _ hs hlist =>
      rw [Statement.allNested] at hapart
      cases hsupported : s.isSupported with
      | false =>
        have hstands : ts = (before ++ used1) ++ (used2 ++ after) := by simp [hts]
        refine ih hlist hstands hapart.right ?_
        simpa [statementsRemain, hsupported] using hus
      | true =>
        simp only [statementsRemain, hsupported, if_true, List.map_append, List.map_cons,
          List.map_nil, List.flatten_append, List.flatten_cons, List.flatten_nil,
          List.append_nil] at hus
        obtain ⟨vs, ws, rfl, hvs, -⟩ := Phrase.lexemes_eq_append hus
        have hstands : ts = before ++ (used1 ++ (used2 ++ after)) := by simp [hts]
        have hsees := sees_remains htells hs hstands hvs "else"
        rw [sees_else htells hs hstands (hapart.left s (Statement.mem_nested_self s))] at hsees
        obtain ⟨v, vs, rfl⟩ := List.exists_cons_of_ne_nil
          (remains_ne_nil htells hs hstands hvs)
        exact hsees

lemma respells_leaf (htells : Tells leaf ts) {s : Statement} {before used after rest us : Phrase}
    (h : Spells s used rest) (hcontrol : s.isControl = false) (hsupported : s.isSupported)
    (hts : ts = before ++ (used ++ after))
    (hus : us.lexemes = remains Statement.isSupported leaf s) (rest' : Phrase) :
    ∃ s', Spells s' us rest' ∧ s'.isConditional = s.isConditional ∧
      s'.blockSizes = s.sizes Statement.isSupported := by
  cases h with
  | leaf h =>
    rw [remains_of_leaf h, htells.lexemes hts h] at hus
    obtain ⟨s', hspells, hleaf⟩ := h.alike hsupported (Phrase.alike_iff.mpr hus.symm) rest'
    refine ⟨s', .leaf hspells, ?_, ?_⟩
    · rw [Statement.not_isConditional hleaf, Statement.not_isConditional hcontrol]
    · rw [Statement.blockSizes, Statement.sizes_of_not_isControl hleaf,
        Statement.sizes_of_not_isControl hcontrol]
  | conditional => simp [Statement.isControl] at hcontrol
  | loop => simp [Statement.isControl] at hcontrol

lemma is_if {word : Token} (h : word.isWord ["if"]) : word.is "if" := by
  obtain ⟨hidentifier, htext⟩ := isWord_singleton h
  simp [Token.is, beq_iff_eq.mp hidentifier, htext]

/-- A statement that is an `if` can stand in front of everything but an `else`. -/
lemma spells_conditional_before {s : Statement} {us rest rest' : Phrase}
    (h : Spells s us rest) (hconditional : s.isConditional) (hrest : sees "else" rest' = false) :
    ∃ c word vs, s = .conditional c ∧ us = word :: vs ∧ word.is "if" ∧
      SpellsConditional c word vs rest' := by
  cases h with
  | leaf h => cases h <;> simp [Statement.isConditional] at hconditional
  | loop => simp [Statement.isConditional] at hconditional
  | @conditional word c vs _ hword h =>
    exact ⟨c, word, vs, rfl, rfl, is_if hword, h.quieter fun _ => hrest⟩

lemma length_statementsRemain (keep : Statement → Bool) (list : List Statement) :
    (statementsRemain keep leaf list).length = list.countP keep := by
  induction list with
  | nil => rw [statementsRemain]; rfl
  | cons s list ih =>
    rw [statementsRemain, List.length_append, ih, List.countP_cons]
    split <;> simp [Nat.add_comm]

/-- Statements that can be read in a block can be read in an `else` of the form that suits them. -/
lemma respells_else {kept : List Kept} {sizes : List Nat} {close : Token}
    (hread : ∀ {us : Phrase} {close : Token}, us.lexemes = (kept.map (·.lexemes)).flatten →
      close.is "\x7d" → ∃ list, SpellsAll list us [close] ∧
        list.map Statement.isConditional = kept.map (·.isIf) ∧
        Statement.allSizes (fun _ => true) list = sizes)
    (hclose : close.is "\x7d") {value : Expression} {body : Block} {xs ys rest : Phrase}
    (hvalue : Free "\x7b" value.tokens) (hbody : SpellsBlock body xs)
    (hys : ys.lexemes = elseLexemes kept) (hrest : sees "else" rest = false) (word : Token) :
    ∃ a span, SpellsConditional (.mk value body a span) word (value.tokens ++ (xs ++ ys)) rest ∧
      a.sizes (fun _ => true) = kept.length :: sizes := by
  unfold elseLexemes at hys
  split at hys
  · obtain rfl : ys = [] := by simpa [Phrase.lexemes] using hys
    obtain ⟨list, hlist, hforms, hsizes⟩ := @hread [] close rfl hclose
    obtain rfl : list = [] := by simpa using hforms
    rw [List.append_nil, ← hsizes]
    exact ⟨.absent, _, .absent hvalue hbody hrest, rfl⟩
  · obtain ⟨other, zs, rfl, hother, hzs⟩ := Phrase.lexemes_eq_cons hys
    obtain ⟨list, hlist, hforms, hsizes⟩ := hread (by simpa using hzs) hclose
    obtain ⟨s, rfl, hconditional⟩ : ∃ s, list = [s] ∧ s.isConditional := by
      simpa [List.map_eq_cons_iff] using hforms
    cases hlist with
    | cons _ hs hnil =>
      cases hnil
      obtain ⟨c, word', vs, rfl, hvs, hif, hc⟩ := spells_conditional_before hs hconditional hrest
      rw [List.append_nil, hvs]
      refine ⟨.chained c, _, .chained hvalue hbody (is_of_lexeme hother (by decide)) hif hc, ?_⟩
      rw [Alternative.sizes, ← hsizes, Statement.allSizes, Statement.allSizes, Statement.sizes,
        List.append_nil]
      rfl
  · obtain ⟨other, zs, rfl, hother, hzs⟩ := Phrase.lexemes_eq_cons hys
    rw [Write.blockLexemes] at hzs
    obtain ⟨brace, vs, rfl, hopen, hvs⟩ := Phrase.lexemes_eq_cons hzs
    obtain ⟨us, ws, rfl, hus, hws⟩ := Phrase.lexemes_eq_append hvs
    obtain ⟨close', ws, rfl, hend, hnil⟩ := Phrase.lexemes_eq_cons hws
    obtain rfl : ws = [] := by simpa [Phrase.lexemes] using hnil
    have hclose' : close'.is "\x7d" := is_of_lexeme hend (by decide)
    obtain ⟨list, hlist, hforms, hsizes⟩ := hread hus hclose'
    have hlength : list.length = kept.length := by simpa using congrArg List.length hforms
    refine ⟨.block _, _, .block hvalue hbody (is_of_lexeme hother (by decide))
      (.mk (is_of_lexeme hopen (by decide)) hclose' hlist), ?_⟩
    rw [Alternative.sizes, Block.sizes, List.countP_true, hlength, hsizes]

mutual

/-- What is left of a supported statement is read as a statement whose blocks hold what is left of
its blocks. -/
lemma respells_statement (htells : Tells leaf ts) : ∀ {s : Statement}
    {before used after rest us rest' : Phrase}, Spells s used rest → s.isSupported →
    ts = before ++ (used ++ after) → Apart leaf s.nested →
    us.lexemes = remains Statement.isSupported leaf s → sees "else" rest' = false →
    ∃ s', Spells s' us rest' ∧ s'.isConditional = s.isConditional ∧
      s'.blockSizes = s.sizes Statement.isSupported
  | .conditional c, _, _, _, _, us, _, h, _, hts, hapart, hus, hrest => by
    cases h with
    | leaf h => cases h
    | @conditional word _ _ _ hword h =>
      rw [Statement.nested] at hapart
      rw [remains] at hus
      obtain ⟨c', word', vs, rfl, hword', hspells, hsizes⟩ :=
        respells_conditional htells h hts hapart hus hrest
      refine ⟨.conditional c', .conditional hword' hspells, rfl, ?_⟩
      rw [Statement.blockSizes, Statement.sizes, Statement.sizes, hsizes]
  | .loop value body span, before, _, after, _, us, _, h, _, hts, hapart, hus, hrest => by
    cases h with
    | leaf h => cases h
    | @loop word _ _ vs _ hword hvalue hbody =>
      rw [Statement.nested] at hapart
      rw [remains] at hus
      obtain ⟨word', ws, rfl, hlexeme, hws⟩ := Phrase.lexemes_eq_cons hus
      obtain ⟨value', xs, rfl, hvalue', hxs⟩ := split_condition hws hvalue
      have hstands : ts = (before ++ word :: value.tokens) ++ (vs ++ after) := by simp [hts]
      obtain ⟨body', hbody', hsizes⟩ := respells_block htells hbody hstands hapart.tail hxs
      refine ⟨_, .loop (isWord_of_lexeme hlexeme) hvalue' hbody', rfl, ?_⟩
      rw [Statement.blockSizes, Statement.sizes, Statement.sizes, hsizes]
  | .declaration d, _, _, _, _, us, rest', h, hsupported, hts, _, hus, _ =>
    respells_leaf htells h rfl hsupported hts hus rest'
  | .assignment target value span, _, _, _, _, us, rest', h, hsupported, hts, _, hus, _ =>
    respells_leaf htells h rfl hsupported hts hus rest'
  | .exit kind value span, _, _, _, _, us, rest', h, hsupported, hts, _, hus, _ =>
    respells_leaf htells h rfl hsupported hts hus rest'
  | .jump kind span, _, _, _, _, us, rest', h, hsupported, hts, _, hus, _ =>
    respells_leaf htells h rfl hsupported hts hus rest'
  | .expression value span, _, _, _, _, us, rest', h, hsupported, hts, _, hus, _ =>
    respells_leaf htells h rfl hsupported hts hus rest'
  | .unsupported construct span, _, _, _, _, us, rest', h, hsupported, hts, _, hus, _ =>
    respells_leaf htells h rfl hsupported hts hus rest'

lemma respells_conditional (htells : Tells leaf ts) : ∀ {c : Conditional} {word : Token}
    {before used after rest us rest' : Phrase}, SpellsConditional c word used rest →
    ts = before ++ (word :: used ++ after) → Apart leaf c.nested →
    us.lexemes = conditionalRemains Statement.isSupported leaf c → sees "else" rest' = false →
    ∃ c' word' vs, us = word' :: vs ∧ word'.isWord ["if"] ∧ SpellsConditional c' word' vs rest' ∧
      c'.sizes (fun _ => true) = c.sizes Statement.isSupported
  | .mk value body alternative span, word, before, used, after, rest, us, rest', h, hts,
      hapart, hus, hrest => by
    rw [conditionalRemains] at hus
    rw [Conditional.nested] at hapart
    obtain ⟨word', vs, rfl, hlexeme, hvs⟩ := Phrase.lexemes_eq_cons hus
    have hvalue : Free "\x7b" value.tokens := by cases h <;> assumption
    obtain ⟨value', ws, rfl, hvalue', hws⟩ := split_condition hvs hvalue
    obtain ⟨xs, ys, rfl, hxs, hys⟩ := Phrase.lexemes_eq_append hws
    obtain ⟨used', more, hused, hbody⟩ : ∃ used' more, used = value.tokens ++ (used' ++ more) ∧
        SpellsBlock body used' := by
      cases h with
      | @absent _ _ _ us _ _ hbody => exact ⟨us, [], by simp, hbody⟩
      | @block _ _ _ _ _ us vs _ _ hbody => exact ⟨us, _, rfl, hbody⟩
      | @chained _ _ _ _ _ _ us vs _ _ hbody => exact ⟨us, _, rfl, hbody⟩
    have hstands : ts = (before ++ word :: value.tokens) ++ (used' ++ (more ++ after)) := by
      simp [hts, hused]
    obtain ⟨body', hbody', hsizes⟩ := respells_block htells hbody hstands hapart.tail.left hxs
    obtain ⟨alternative', span', hspells, hsizes'⟩ := respells_alternative htells h hts
      hapart.tail.right hvalue' hbody' hys hrest word'
    refine ⟨_, word', _, rfl, isWord_of_lexeme hlexeme, hspells, ?_⟩
    rw [Conditional.sizes, Conditional.sizes, hsizes, hsizes']

lemma respells_alternative (htells : Tells leaf ts) :
    ∀ {a : Alternative} {value value' : Expression}
    {body body' : Block} {span : Span} {word : Token} {before used after rest xs ys rest' : Phrase},
    SpellsConditional (.mk value body a span) word used rest →
    ts = before ++ (word :: used ++ after) → Apart leaf a.nested →
    Free "\x7b" value'.tokens → SpellsBlock body' xs →
    ys.lexemes = elseLexemes (alternativeRemains Statement.isSupported leaf a) →
    sees "else" rest' = false → ∀ word' : Token,
    ∃ a' span', SpellsConditional (.mk value' body' a' span') word'
      (value'.tokens ++ (xs ++ ys)) rest' ∧
      a'.sizes (fun _ => true) = a.sizes Statement.isSupported
  | .absent, _, _, _, _, _, _, _, _, _, _, xs, ys, _, h, hts, _, hvalue, hbody, hys, hrest,
      word' => by
    rw [alternativeRemains] at hys
    obtain rfl : ys = [] := by simpa [Phrase.lexemes, elseLexemes] using hys
    rw [List.append_nil]
    exact ⟨.absent, _, .absent hvalue hbody hrest, rfl⟩
  | .chained next, value, _, _, _, _, word, before, _, after, _, xs, ys, _, h, hts, hapart,
      hvalue, hbody, hys, hrest, word' => by
    cases h with
    | @chained _ other word2 _ _ _ us vs _ _ _ helse hif hnext =>
      rw [Alternative.nested] at hapart
      rw [alternativeRemains, elseLexemes] at hys
      obtain ⟨other', zs, rfl, hother, hzs⟩ := Phrase.lexemes_eq_cons hys
      have hstands : ts = (before ++ word :: (value.tokens ++ (us ++ [other]))) ++
          (word2 :: vs ++ after) := by
        simp [hts]
      obtain ⟨next', word3, ws, rfl, hword3, hnext', hsizes⟩ :=
        respells_conditional htells hnext hstands hapart hzs hrest
      refine ⟨.chained next', _, .chained hvalue hbody (is_of_lexeme hother (by decide))
        (is_if hword3) hnext', ?_⟩
      rw [Alternative.sizes, Alternative.sizes, hsizes]
  | .block (.mk list listSpan), value, _, _, _, _, word, before, _, after, _, xs, ys, _, h, hts,
      hapart, hvalue, hbody, hys, hrest, word' => by
    cases h with
    | @block _ other _ _ _ us vs _ _ _ helse hlast =>
      cases hlast with
      | @mk brace close _ ws hbrace hclose hlist =>
        rw [Alternative.nested, Block.nested] at hapart
        rw [alternativeRemains, blockRemains] at hys
        have hstands : ts = (before ++ word :: (value.tokens ++ (us ++ [other, brace]))) ++
            (ws ++ (close :: after)) := by
          simp [hts]
        rw [Alternative.sizes, Block.sizes, ← @length_statementsRemain leaf]
        exact respells_else (fun hus hclose' =>
          respells_statements htells hlist hstands hapart hus hclose') hclose hvalue hbody hys hrest
          word'

lemma respells_block (htells : Tells leaf ts) : ∀ {b : Block} {before used after us : Phrase},
    SpellsBlock b used → ts = before ++ (used ++ after) → Apart leaf b.nested →
    us.lexemes = Write.blockLexemes ((blockRemains Statement.isSupported leaf b).map (·.lexemes)) →
    ∃ b', SpellsBlock b' us ∧ b'.sizes (fun _ => true) = b.sizes Statement.isSupported
  | .mk list span, before, used, after, us, h, hts, hapart, hus => by
    cases h with
    | @mk brace close _ vs hbrace hclose hlist =>
      rw [Block.nested] at hapart
      rw [blockRemains, Write.blockLexemes] at hus
      obtain ⟨brace', ws, rfl, hopen, hws⟩ := Phrase.lexemes_eq_cons hus
      obtain ⟨xs, ys, rfl, hxs, hys⟩ := Phrase.lexemes_eq_append hws
      obtain ⟨close', zs, rfl, hend, hzs⟩ := Phrase.lexemes_eq_cons hys
      obtain rfl : zs = [] := by simpa [Phrase.lexemes] using hzs
      have hstands : ts = (before ++ [brace]) ++ (vs ++ (close :: after)) := by simp [hts]
      have hclose' : close'.is "\x7d" := is_of_lexeme hend (by decide)
      obtain ⟨list', hlist', hforms, hsizes⟩ :=
        respells_statements htells hlist hstands hapart hxs hclose'
      refine ⟨_, .mk (is_of_lexeme hopen (by decide)) hclose' hlist', ?_⟩
      have hlength := congrArg List.length hforms
      rw [List.length_map, List.length_map, length_statementsRemain] at hlength
      rw [Block.sizes, Block.sizes, List.countP_true, hlength, hsizes]

lemma respells_statements (htells : Tells leaf ts) : ∀ {list : List Statement}
    {before used after rest us : Phrase} {close : Token}, SpellsAll list used rest →
    ts = before ++ (used ++ after) → Apart leaf (Statement.allNested list) →
    us.lexemes = ((statementsRemain Statement.isSupported leaf list).map (·.lexemes)).flatten →
    close.is "\x7d" →
    ∃ list', SpellsAll list' us [close] ∧
      list'.map Statement.isConditional =
        (statementsRemain Statement.isSupported leaf list).map (·.isIf) ∧
      Statement.allSizes (fun _ => true) list' = Statement.allSizes Statement.isSupported list
  | [], _, _, _, _, us, close, h, hts, hapart, hus, hclose => by
    rw [statementsRemain] at hus
    obtain rfl : us = [] := by simpa [Phrase.lexemes] using hus
    exact ⟨[], .nil, by rw [statementsRemain]; rfl, rfl⟩
  | s :: list, before, used, after, rest, us, close, h, hts, hapart, hus, hclose => by
    cases h with
    | @cons _ _ used1 used2 _ hfirst hs hlist =>
      rw [Statement.allNested] at hapart
      have hstands : ts = before ++ (used1 ++ (used2 ++ after)) := by simp [hts]
      have hstands' : ts = (before ++ used1) ++ (used2 ++ after) := by simp [hts]
      cases hsupported : s.isSupported with
      | false =>
        rw [statementsRemain, hsupported, if_neg (by simp), List.nil_append] at hus
        obtain ⟨list', hlist', hforms, hsizes⟩ :=
          respells_statements htells hlist hstands' hapart.right hus hclose
        refine ⟨list', hlist', ?_, ?_⟩
        · rw [statementsRemain, hsupported, if_neg (by simp), List.nil_append, hforms]
        · rw [Statement.allSizes.eq_2, hsizes, Statement.sizes_of_not_isControl
            (Statement.isControl_of_unsupported hsupported), List.nil_append]
      | true =>
        rw [statementsRemain, hsupported, if_pos rfl, List.singleton_append, List.map_cons,
          List.flatten_cons] at hus
        obtain ⟨vs, ws, rfl, hvs, hws⟩ := Phrase.lexemes_eq_append hus
        obtain ⟨list', hlist', hforms, hsizes⟩ :=
          respells_statements htells hlist hstands' hapart.right hws hclose
        have hquiet := sees_else_statements htells hlist hstands' hapart.right hws hclose
        obtain ⟨s', hs', hform, hsizes'⟩ :=
          respells_statement htells hs hsupported hstands hapart.left hvs hquiet
        have hfirst' : sees "\x7d" vs = false := by
          rw [sees_remains htells hs hstands hvs, hfirst]
        refine ⟨s' :: list', .cons hfirst' hs' hlist', ?_, ?_⟩
        · rw [statementsRemain, hsupported, if_pos rfl, List.singleton_append, List.map_cons,
            List.map_cons, hform, hforms]
        · rw [Statement.allSizes, Statement.allSizes, hsizes, ← hsizes']

end

end Respelling

/-! ### The written statement -/

mutual

lemma remains_congr {keep keep' : Statement → Bool} {leaf : Statement → List Lexeme} :
    ∀ {s : Statement}, (∀ s' ∈ s.nested, keep s' = keep' s') →
      remains keep leaf s = remains keep' leaf s
  | .conditional read, h => by
    rw [Statement.nested] at h
    rw [remains, remains, conditionalRemains_congr h]
  | .loop value body span, h => by
    rw [Statement.nested, List.forall_mem_cons] at h
    rw [remains, remains, blockRemains_congr h.2]
  | .declaration _, _ | .assignment .., _ | .exit .., _ | .jump .., _ | .expression .., _
  | .unsupported .., _ => by
    rw [remains, remains] <;> simp

lemma conditionalRemains_congr {keep keep' : Statement → Bool} {leaf : Statement → List Lexeme} :
    ∀ {c : Conditional}, (∀ s' ∈ c.nested, keep s' = keep' s') →
      conditionalRemains keep leaf c = conditionalRemains keep' leaf c
  | .mk value body alternative span, h => by
    rw [Conditional.nested, List.forall_mem_cons, List.forall_mem_append] at h
    rw [conditionalRemains, conditionalRemains, blockRemains_congr h.2.1,
      alternativeRemains_congr h.2.2]

lemma alternativeRemains_congr {keep keep' : Statement → Bool} {leaf : Statement → List Lexeme} :
    ∀ {a : Alternative}, (∀ s' ∈ a.nested, keep s' = keep' s') →
      alternativeRemains keep leaf a = alternativeRemains keep' leaf a
  | .absent, _ => by rw [alternativeRemains, alternativeRemains]
  | .block body, h => by
    rw [Alternative.nested] at h
    rw [alternativeRemains, alternativeRemains, blockRemains_congr h]
  | .chained next, h => by
    rw [Alternative.nested] at h
    rw [alternativeRemains, alternativeRemains, conditionalRemains_congr h]

lemma blockRemains_congr {keep keep' : Statement → Bool} {leaf : Statement → List Lexeme} :
    ∀ {b : Block}, (∀ s' ∈ b.nested, keep s' = keep' s') →
      blockRemains keep leaf b = blockRemains keep' leaf b
  | .mk list span, h => by
    rw [Block.nested] at h
    rw [blockRemains, blockRemains, statementsRemain_congr h]

lemma statementsRemain_congr {keep keep' : Statement → Bool} {leaf : Statement → List Lexeme} :
    ∀ {list : List Statement}, (∀ s' ∈ Statement.allNested list, keep s' = keep' s') →
      statementsRemain keep leaf list = statementsRemain keep' leaf list
  | [], _ => by rw [statementsRemain, statementsRemain]
  | s :: list, h => by
    rw [Statement.allNested, List.forall_mem_append] at h
    rw [statementsRemain, statementsRemain, remains_congr h.1, statementsRemain_congr h.2,
      h.1 s (Statement.mem_nested_self s)]

end

/-- A statement without blocks is written with the tokens it has in the document. -/
def Restored (c : Context) (d : Document) (s : Statement) : Prop :=
  ∃ n text, statement .standard c s = some n ∧ (Builders.standard.written n).text = .ok text ∧
    Reads text.toList (d.lexemesAt s.span)

lemma kind_of_not_isControl {c : Context} {s : Statement} (h : s.isControl = false)
    {kind : NodeKind} (hkind : kind? c s = some kind) : kind ∉ [NodeKind.if, .while] := by
  have hcall : ∀ shape fallback, fallback ∉ [NodeKind.if, .while] →
      (callKind shape).getD fallback ∉ [NodeKind.if, .while] := by
    intro shape fallback hfallback
    unfold callKind
    split
    · simp
    · simp
    · exact hfallback
  cases s with
  | conditional => simp [Statement.isControl] at h
  | loop => simp [Statement.isControl] at h
  | unsupported => simp [kind?] at hkind
  | declaration d =>
    obtain rfl := Option.some.inj hkind
    have hkinds : ∀ kind ∈ [NodeKind.newConnection, .newData, .dataMapper, .functionCall,
        .actionCall], kind ∉ [NodeKind.if, .while] := by decide
    exact hkinds _ (declaredKind_mem c _ _)
  | assignment =>
    obtain rfl := Option.some.inj hkind
    decide
  | jump word span =>
    cases word <;> obtain rfl := Option.some.inj hkind <;> decide
  | exit word value span =>
    cases word with
    | fail => obtain rfl := Option.some.inj hkind; decide
    | panic => obtain rfl := Option.some.inj hkind; decide
    | «return» =>
      obtain rfl := Option.some.inj hkind
      cases value with
      | none => decide
      | some e => exact hcall _ _ (by decide)
  | expression value span =>
    obtain rfl := Option.some.inj hkind
    exact hcall _ _ (by decide)

lemma Restored.writes {c : Context} {d : Document} {s : Statement} (h : Restored c d s)
    (hcontrol : s.isControl = false) (hlines : NoLines (d.lexemesAt s.span)) :
    ∃ n, statement .standard c s = some n ∧ Writes n ⟨false, d.lexemesAt s.span⟩ := by
  obtain ⟨n, text, hn, htext, hreads⟩ := h
  obtain ⟨kind, hkind, hbuilt⟩ := builtAt_statement hn
  have hnot := kind_of_not_isControl hcontrol hkind
  rw [← hbuilt.kind] at hnot
  refine ⟨n, hn, text, htext, ?_, fun hmem => absurd hmem hnot, hreads, hlines⟩
  simp only [Bool.false_eq_true, iff_false]
  rintro hif
  simp [hif] at hnot

/-- The tokens of a statement of a document stand at its place. -/
lemma spells_of_inside {path : Path} {text : String} {d : Document}
    (hparse : Document.parse path text = .ok d) {s : Statement}
    (hinside : Construct.Inside (.module d.tree) (.statement s)) :
    ∃ used rest, Spells s used rest ∧ Tells (fun s => d.lexemesAt s.span) used ∧
      d.lexemesAt s.span = used.lexemes := by
  obtain ⟨-, htext, ts, cs, last, htokens, hchars, hscanned, hfinal, hstands⟩ :=
    Document.parse_stands hparse
  obtain ⟨before, used, after, rfl, hspells⟩ := hstands _ hinside
  rw [← htext] at hchars
  have htells := tells_lexemesAt hchars hscanned
  obtain ⟨front, gap, back, hstretch⟩ := hscanned.stretch hspells.covers
  rw [← hchars] at hstretch
  obtain ⟨us, hus, hlexemes⟩ := Document.tokenize_slice htells.sourced hstretch
  exact ⟨used, _, hspells, htells, by simp only [Document.lexemesAt, hus, hlexemes]⟩

/-- Statements without calls are written with the tokens they have in the document. -/
lemma restored_of_isPlain {path : Path} {text : String} {d : Document}
    (hparse : Document.parse path text = .ok d) {c : Context} {s : Statement}
    (hinside : Construct.Inside (.module d.tree) (.statement s)) (hcontrol : s.isControl = false)
    (hplain : isPlain c s) : Restored c d s := by
  obtain ⟨used, rest, hspells, htells, hlexemes⟩ := spells_of_inside hparse hinside
  obtain ⟨n, hn, -, text, htext, hreads, -⟩ :=
    restores_leaf (hspells.leaf_of_not_isControl hcontrol) hplain htells.sourced
  exact ⟨n, text, hn, htext, hlexemes ▸ hreads⟩

/-- A control statement whose other statements are written with their own tokens is written as one
edit at its place, and the text is read as one statement. Its blocks hold the supported statements
only: it has every token and as many statements in every block exactly if no statement inside is
unsupported. -/
theorem toSource_keeps_statements_iff {path : Path} {text : String} {d : Document}
    (hparse : Document.parse path text = .ok d) {c : Context} {s : Statement}
    (hinside : Construct.Inside (.module d.tree) (.statement s)) (hcontrol : s.isControl)
    (hrestored : ∀ s' ∈ s.nested, s'.isControl = false → s'.isSupported → Restored c d s')
    (hlines : ∀ l ∈ d.lexemesAt s.span, l.1 = .string → '\n' ∉ l.2.toList)
    (hapart : Apart (fun s => d.lexemesAt s.span) s.nested) (connectionsFile : String) :
    ∃ n e us s', statement .standard c s = some n ∧
      Builders.standard.toSource n d.path connectionsFile = .ok [(d.path.text, [e])] ∧
      e.start = s.span.start.position ∧ e.stop = s.span.stop.position ∧
      tokenize e.newText = .ok us ∧ single? e.newText = some s' ∧
      Phrase.lexemes us = remains Statement.isSupported (fun s => d.lexemesAt s.span) s ∧
      s'.blockSizes = s.sizes Statement.isSupported ∧
      ((Phrase.lexemes us = remains (fun _ => true) (fun s => d.lexemesAt s.span) s ∧
        s'.blockSizes = s.blockSizes) ↔ ∀ t ∈ s.nested, t.isSupported) := by
  obtain ⟨used, rest, hspells, htells, hlexemes⟩ := spells_of_inside hparse hinside
  have hnone : NoLines used.lexemes := noLines_of_strings htells.sourced (hlexemes ▸ hlines)
  have hready : ∀ s' ∈ s.nested, Ready c (fun s => d.lexemesAt s.span) s' := by
    intro s' hs'
    obtain ⟨before, us, after, hus, hspells'⟩ := spells_nested hspells htells.sourced hs'
    have hused := htells.sourced
    rw [hus] at hused hnone
    refine ready_of_spells hspells' hused.right.left (NoLines.within hnone)
      fun hleaf hsupported => ?_
    have hcontrol' : s'.isControl = false := by cases hleaf <;> rfl
    refine (hrestored s' hs' hcontrol' hsupported).writes hcontrol' ?_
    rw [show d.lexemesAt s'.span = us.lexemes from htells.lexemes hus hleaf]
    exact NoLines.within hnone
  have hsupported : s.isSupported := by
    cases s <;> first | rfl | simp [Statement.isControl] at hcontrol
  obtain ⟨n, hn, text, htext, -, -, hreads, -⟩ := writes_statement hready hsupported
  obtain ⟨kind, hkind, hbuilt⟩ := builtAt_statement hn
  have hlocal : kind ≠ .newConnection := by
    rintro rfl
    cases s <;> simp [Statement.isControl] at hcontrol <;> simp [kind?] at hkind
  obtain ⟨us, hus, hremains⟩ := tokenize_of_run (List.append_nil _).symm (hreads.run []) (by rfl)
  have hwhole : used = [] ++ (used ++ []) := by simp
  have hend : sees "else" [] = false := rfl
  obtain ⟨s', hs', -, hsizes⟩ :=
    respells_statement htells hspells hsupported hwhole hapart hremains hend
  refine ⟨n, _, us, s', hn, toSource_of_builtAt hbuilt hlocal htext d.path connectionsFile, rfl,
    rfl, hus, single?_of_spells hus hs', hremains, hsizes, ?_⟩
  rw [hsizes, Statement.sizes_eq_iff hsupported]
  refine ⟨fun h => h.2, fun h => ⟨?_, h⟩⟩
  rw [hremains]
  exact remains_congr h

/-- The source of an `if` with a `lock`, which is unsupported, in front of an assignment. -/
def lockedSource : String :=
  "function f() \x7b if a \x7b lock \x7b \x7d x = 1; \x7d else if b \x7b return; \x7d \x7d"

/-- A context of a document without templates. -/
def bareContext (d : Document) : Context :=
  ⟨d, .standard, fun _ => .error (.unavailable ""), .local, []⟩

/-- The first block of an `if` with an `else if` loses its `lock`, and keeps the assignment behind
it. -/
theorem toSource_keeps_statements_iff_locked :
    ∃ d s n e s', Document.parse ⟨"main.bal"⟩ lockedSource = .ok d ∧
      Construct.Inside (.module d.tree) (.statement s) ∧ s.isControl ∧
      (∀ t ∈ s.nested, t.isControl = false → t.isSupported → Restored (bareContext d) d t) ∧
      (∀ l ∈ d.lexemesAt s.span, l.1 = .string → '\n' ∉ l.2.toList) ∧
      Apart (fun s => d.lexemesAt s.span) s.nested ∧
      statement .standard (bareContext d) s = some n ∧
      Builders.standard.toSource n d.path "connections.bal" = .ok [(d.path.text, [e])] ∧
      single? e.newText = some s' ∧ s'.blockSizes = [1, 1, 1, 0] ∧ s.blockSizes = [2, 1, 1, 0] := by
  have hcheck : (Document.statementAt? lockedSource ⟨0, 15⟩ ⟨0, 40⟩).any
      (fun found => found.2.isControl &&
        (found.2.nested.all
          (fun t => t.isControl || !t.isSupported || isPlain (bareContext found.1) t) &&
        ((found.1.lexemesAt found.2.span).all
          (fun l => l.1 != .string || !l.2.toList.contains '\n') &&
        (found.2.nested.all
          (fun t => (found.1.lexemesAt t.span).head? != some (.identifier, "else")) &&
        (found.2.sizes Statement.isSupported == [1, 1, 1, 0] &&
          found.2.blockSizes == [2, 1, 1, 0]))))) = true := by
    decide +kernel
  obtain ⟨d, s, hparse, hinside, hcheck⟩ := Document.exists_of_statementAt? hcheck
  simp only [Bool.and_eq_true, List.all_eq_true, beq_iff_eq] at hcheck
  obtain ⟨hcontrol, hplain, hlines, hapart, hkept, hall⟩ := hcheck
  have hrestored : ∀ t ∈ s.nested, t.isControl = false → t.isSupported →
      Restored (bareContext d) d t := by
    intro t ht hleaf hsupported
    refine restored_of_isPlain hparse (hinside.trans (Construct.inside_statement ht)) hleaf ?_
    simpa [hleaf, hsupported] using hplain t ht
  have hlines' : ∀ l ∈ d.lexemesAt s.span, l.1 = .string → '\n' ∉ l.2.toList := by
    intro l hl hstring
    simpa [hstring] using hlines l hl
  have hapart' : Apart (fun s => d.lexemesAt s.span) s.nested := fun t ht => by
    simpa using hapart t ht
  obtain ⟨n, e, -, s', hn, hsource, -, -, -, hread, -, hsizes, -⟩ :=
    toSource_keeps_statements_iff hparse hinside hcontrol hrestored hlines' hapart'
      "connections.bal"
  exact ⟨d, s, n, e, s', hparse, hinside, hcontrol, hrestored, hlines', hapart', hn, hsource,
    hread, hsizes.trans hkept, hall⟩

end Analysis

end FlowCanvas
