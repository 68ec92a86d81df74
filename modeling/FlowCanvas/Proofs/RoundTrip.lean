import FlowCanvas.Proofs.Editing

/-!
# Statements without calls come back

A statement whose parts are plain is written with its own tokens, at every depth, and takes its own
place in the document: no token of the document changes.
-/

namespace FlowCanvas

namespace Alternative

/-- An `else` block that is written in another form: an empty one, or one with a single `if`. -/
def folds : Alternative → Bool
  | .block (.mk [] _) => true
  | .block (.mk [.conditional _] _) => true
  | _ => false

end Alternative

/-- Whether the `else` of a statement is written in another form. -/
def Statement.folds : Statement → Bool
  | .conditional read => read.alternative.folds
  | _ => false

namespace Analysis

open Lexer FlowCanvas.Parser

/-! ### Tokens of whole statements -/

lemma elseLexemes_of_not_folds {keep : Statement → Bool} {leaf : Statement → List Lexeme}
    {list : List Statement} {span : Span} (hkeep : ∀ s ∈ list, keep s)
    (hfolds : (Alternative.block (.mk list span)).folds = false) :
    elseLexemes (statementsRemain keep leaf list) =
      (.identifier, "else") ::
        Write.blockLexemes ((statementsRemain keep leaf list).map (·.lexemes)) := by
  match list with
  | [] => simp [Alternative.folds] at hfolds
  | [s] =>
    have hs : keep s := hkeep s List.mem_cons_self
    have hconditional : s.isConditional = false := by
      cases s <;> first | rfl | simp [Alternative.folds] at hfolds
    simp only [statementsRemain, hs, if_true, hconditional, List.append_nil]
    rfl
  | s :: s' :: list =>
    have hs : keep s := hkeep s List.mem_cons_self
    have hs' : keep s' := hkeep s' (by simp)
    simp only [statementsRemain, hs, hs', if_true, List.cons_append, List.nil_append]
    exact elseLexemes_cons_cons _ _ _

lemma mem_allNested {list : List Statement} {s : Statement} (h : s ∈ list) :
    s ∈ Statement.allNested list := by
  induction list with
  | nil => simp at h
  | cons t list ih =>
    rw [Statement.allNested, List.mem_append]
    rcases List.mem_cons.mp h with rfl | hmem
    · exact .inl (Statement.mem_nested_self s)
    · exact .inr (ih hmem)

lemma remains_of_leaf {keep : Statement → Bool} {leaf : Statement → List Lexeme} {s : Statement}
    {ts rest : Phrase} (h : SpellsLeaf s ts rest) : remains keep leaf s = leaf s := by
  cases h <;> rw [remains] <;> simp

section Whole

variable {keep : Statement → Bool} {leaf : Statement → List Lexeme} {ts : Phrase}

/-- Statements that are all kept, with every `else` in the form it is written in. -/
def Whole (keep : Statement → Bool) (list : List Statement) : Prop :=
  (∀ s ∈ list, keep s) ∧ ∀ s ∈ list, s.folds = false

lemma Whole.left {list list' : List Statement} (h : Whole keep (list ++ list')) :
    Whole keep list :=
  ⟨fun s hs => h.1 s (List.mem_append_left _ hs), fun s hs => h.2 s (List.mem_append_left _ hs)⟩

lemma Whole.right {list list' : List Statement} (h : Whole keep (list ++ list')) :
    Whole keep list' :=
  ⟨fun s hs => h.1 s (List.mem_append_right _ hs), fun s hs => h.2 s (List.mem_append_right _ hs)⟩

lemma Whole.tail {s : Statement} {list : List Statement} (h : Whole keep (s :: list)) :
    Whole keep list := @Whole.right keep [s] list h

/-- `leaf` gives the tokens of the statements without blocks that stand among the tokens of some
source. -/
structure Tells (leaf : Statement → List Lexeme) (ts : Phrase) : Prop where
  sourced : Sourced ts
  lexemes {s : Statement} {before used after rest : Phrase} :
    ts = before ++ (used ++ after) → SpellsLeaf s used rest → leaf s = used.lexemes

mutual

/-- What is left of a whole statement are its tokens. -/
lemma remains_of_spells (htells : Tells leaf ts) {s : Statement}
    {before used after rest : Phrase} (h : Spells s used rest)
    (hts : ts = before ++ (used ++ after)) (hwhole : Whole keep s.nested) :
    remains keep leaf s = used.lexemes := by
  match h with
  | .leaf h => rw [remains_of_leaf h, htells.lexemes hts h]
  | @Spells.conditional word c us _ hword h =>
    rw [Statement.nested] at hwhole
    rw [remains, conditionalRemains_of_spells htells h hts hwhole]
    obtain ⟨hidentifier, htext⟩ := isWord_singleton hword
    simp [beq_iff_eq.mp hidentifier, htext]
  | @Spells.loop word value body us _ hword hvalue hbody =>
    rw [Statement.nested] at hwhole
    have hstands : ts = (before ++ word :: value.tokens) ++ (us ++ after) := by simp [hts]
    have hblock := blockRemains_of_spells htells hbody hstands hwhole.tail
    obtain ⟨hidentifier, htext⟩ := isWord_singleton hword
    rw [remains, hblock]
    simp [beq_iff_eq.mp hidentifier, htext]

lemma conditionalRemains_of_spells (htells : Tells leaf ts) {c : Conditional} {word : Token}
    {before used after rest : Phrase} (h : SpellsConditional c word used rest)
    (hts : ts = before ++ (word :: used ++ after)) (hwhole : Whole keep c.nested) :
    conditionalRemains keep leaf c = (.identifier, "if") :: used.lexemes := by
  match h with
  | @SpellsConditional.absent _ value body us _ _ hbody _ =>
    rw [Conditional.nested] at hwhole
    have hstands : ts = (before ++ word :: value.tokens) ++ (us ++ after) := by simp [hts]
    have hblock := blockRemains_of_spells htells hbody hstands hwhole.tail.left
    rw [conditionalRemains, hblock, alternativeRemains]
    simp [elseLexemes]
  | @SpellsConditional.block _ other value body last us vs _ _ hbody helse hlast =>
    rw [Conditional.nested] at hwhole
    have hstands : ts = (before ++ word :: value.tokens) ++ (us ++ (other :: vs ++ after)) := by
      simp [hts]
    have hstands' : ts =
        (before ++ word :: (value.tokens ++ (us ++ [other]))) ++ (vs ++ after) := by
      simp [hts]
    have hblock := blockRemains_of_spells htells hbody hstands hwhole.tail.left
    have hword := htells.sourced.word (t := other) (by simp [hts]) helse rfl (by decide)
    have hfolds : (Alternative.block last).folds = false := hwhole.2 _ List.mem_cons_self
    have hnested : Whole keep last.nested := hwhole.tail.right
    have hblock' := blockRemains_of_spells htells hlast hstands' hnested
    obtain ⟨list, span⟩ := last
    rw [Block.nested] at hnested
    rw [blockRemains] at hblock'
    have hkeep : ∀ s ∈ list, keep s := fun s hs => hnested.1 s (mem_allNested hs)
    rw [conditionalRemains, hblock, alternativeRemains, blockRemains,
      elseLexemes_of_not_folds hkeep hfolds, hblock']
    simp [hword]
  | @SpellsConditional.chained _ other word' value body next us vs _ _ hbody helse hif hnext =>
    rw [Conditional.nested] at hwhole
    have hstands : ts = (before ++ word :: value.tokens) ++
        (us ++ (other :: word' :: vs ++ after)) := by
      simp [hts]
    have hstands' : ts = (before ++ word :: (value.tokens ++ (us ++ [other]))) ++
        (word' :: vs ++ after) := by
      simp [hts]
    have hblock := blockRemains_of_spells htells hbody hstands hwhole.tail.left
    have hnext' := conditionalRemains_of_spells htells hnext hstands' hwhole.tail.right
    have hword := htells.sourced.word (t := other) (by simp [hts]) helse rfl (by decide)
    have hword' := htells.sourced.word (t := word') (by simp [hts]) hif rfl (by decide)
    rw [conditionalRemains, hblock, alternativeRemains, hnext']
    simp [elseLexemes, hword, hword']

lemma blockRemains_of_spells (htells : Tells leaf ts) {b : Block} {before used after : Phrase}
    (h : SpellsBlock b used) (hts : ts = before ++ (used ++ after))
    (hwhole : Whole keep b.nested) :
    Write.blockLexemes ((blockRemains keep leaf b).map (·.lexemes)) = used.lexemes := by
  match h with
  | @SpellsBlock.mk brace close list us hbrace hclose hlist =>
    rw [Block.nested] at hwhole
    have hstands : ts = (before ++ [brace]) ++ (us ++ (close :: after)) := by simp [hts]
    have hall := statementsRemain_of_spells htells hlist hstands hwhole
    have hopen := htells.sourced.mark (t := brace) (by simp [hts]) hbrace (by decide)
    have hend := htells.sourced.mark (t := close) (by simp [hts]) hclose (by decide)
    rw [blockRemains, Write.blockLexemes, hall]
    simp [hopen, hend]

lemma statementsRemain_of_spells (htells : Tells leaf ts) {list : List Statement}
    {before used after rest : Phrase} (h : SpellsAll list used rest)
    (hts : ts = before ++ (used ++ after)) (hwhole : Whole keep (Statement.allNested list)) :
    ((statementsRemain keep leaf list).map (·.lexemes)).flatten = used.lexemes := by
  match h with
  | .nil =>
    rw [statementsRemain]
    rfl
  | @SpellsAll.cons s others us vs _ _ hs hothers =>
    rw [Statement.allNested] at hwhole
    have hstands : ts = before ++ (us ++ (vs ++ after)) := by simp [hts]
    have hstands' : ts = (before ++ us) ++ (vs ++ after) := by simp [hts]
    have hfirst := remains_of_spells htells hs hstands hwhole.left
    have hrest := statementsRemain_of_spells htells hothers hstands' hwhole.right
    have hkeep : keep s := hwhole.left.1 s (Statement.mem_nested_self s)
    simp [statementsRemain, hkeep, hfirst, hrest]

end

end Whole

/-! ### What stands inside a statement -/

lemma Sourced.isWord_if {ts : Phrase} (h : Sourced ts) : ∀ t ∈ ts, t.is "if" → t.isWord ["if"] := by
  obtain ⟨here, cs, rest, hscanned⟩ := h
  exact hscanned.isWord_if

lemma spells_nested {s s' : Statement} {used rest : Phrase} (h : Spells s used rest)
    (hsource : Sourced used) (hs' : s' ∈ s.nested) :
    ∃ before us after, used = before ++ (us ++ after) ∧ Spells s' us after := by
  refine (Construct.inside_statement hs').stands (Sourced.isWord_if hsource) ?_
  exact ⟨[], used, [], by simp, h.quieter (quieter_nil rest)⟩

lemma ready_of_leaf {c : Context} {leaf : Statement → List Lexeme} {s : Statement}
    {ts rest : Phrase} (h : SpellsLeaf s ts rest)
    (hwrites : s.isSupported → ∃ n, statement .standard c s = some n ∧ Writes n ⟨false, leaf s⟩) :
    Ready c leaf s := by
  cases h with
  | unsupported => trivial
  | braces => trivial
  | declaration => exact hwrites rfl
  | marked => exact hwrites rfl
  | assignment => exact hwrites rfl
  | expression => exact hwrites rfl
  | exit => exact hwrites rfl
  | jump => exact hwrites rfl

lemma legible_condition {value : Expression} {before after : Phrase}
    (hsource : Sourced (before ++ (value.tokens ++ after)))
    (hlines : NoLines (before ++ (value.tokens ++ after)).lexemes) :
    Legible value.text.toList value.tokens.lexemes ∧ NoLines value.tokens.lexemes := by
  refine ⟨hsource.right.left.legible (tokens_ne_nil value), fun l hl => hlines l ?_⟩
  simp [hl]

/-- A statement inside tokens without line feeds is ready to be written when its leaves are. -/
lemma ready_of_spells {c : Context} {leaf : Statement → List Lexeme} {s : Statement}
    {ts rest : Phrase} (h : Spells s ts rest) (hsource : Sourced ts) (hlines : NoLines ts.lexemes)
    (hwrites : SpellsLeaf s ts rest → s.isSupported →
      ∃ n, statement .standard c s = some n ∧ Writes n ⟨false, leaf s⟩) :
    Ready c leaf s := by
  cases h with
  | leaf h => exact ready_of_leaf h (hwrites h)
  | @conditional word read us _ _ h =>
    cases h with
    | @absent _ value => exact @legible_condition value [word] _ hsource hlines
    | @block _ _ value => exact @legible_condition value [word] _ hsource hlines
    | @chained _ _ _ value => exact @legible_condition value [word] _ hsource hlines
  | @loop word value => exact @legible_condition value [word] _ hsource hlines

lemma NoLines.within {before us after : Phrase}
    (h : NoLines (Phrase.lexemes (before ++ (us ++ after)))) : NoLines us.lexemes := by
  intro l hl
  exact h l (by simp [hl])

lemma writes_of_restores {n : FlowNode} {ts : Phrase} (h : Restores n ts)
    (hlines : NoLines ts.lexemes) : Writes n ⟨false, ts.lexemes⟩ := by
  obtain ⟨hkind, text, htext, hreads, -⟩ := h
  refine ⟨text, htext, ?_, fun hmem => absurd hmem hkind, hreads, hlines⟩
  simp only [Bool.false_eq_true, iff_false]
  rintro hif
  simp [hif] at hkind

lemma noLines_of_strings {ts : Phrase} (hsource : Sourced ts)
    (h : ∀ l ∈ ts.lexemes, l.1 = .string → '\n' ∉ l.2.toList) : NoLines ts.lexemes := by
  intro l hl
  by_cases hkind : l.1 = .string
  · exact h l hl hkind
  · obtain ⟨t, ht, rfl⟩ := List.mem_map.mp hl
    obtain ⟨here, cs, rest, hscanned⟩ := hsource
    obtain ⟨left, hstart⟩ := hscanned.mem ht
    exact hstart.no_newLine hkind

lemma isSupported_of_isPlain {c : Context} {s : Statement} (h : isPlain c s) :
    s.isSupported := by
  cases s <;> first | rfl | simp [isPlain, ofStatement] at h

/-- The node of a statement is built at the place of the statement. -/
lemma builtAt_statement {c : Context} {s : Statement} {n : FlowNode}
    (h : statement .standard c s = some n) :
    ∃ kind, kind? c s = some kind ∧
      Build.BuiltAt c kind s.span (branchesFor (branchesOf .standard c s) s) n := by
  cases hkind : kind? c s with
  | none =>
    obtain ⟨construct, span, rfl⟩ := kind?_eq_none hkind
    simp [statement, ofBranches, ofStatement] at h
  | some kind =>
    obtain ⟨m, hm, hbuilt⟩ := built_ofBranches hkind (branchesOf .standard c s)
    rw [statement, hm] at h
    obtain rfl := Option.some.inj h
    exact ⟨kind, rfl, hbuilt⟩

/-- A plain statement is written with its own tokens, and the text starts like it. -/
lemma restores_statement {c : Context} {leaf : Statement → List Lexeme} {s : Statement}
    {used rest : Phrase} (h : Spells s used rest) (htells : Tells leaf used)
    (hplain : ∀ s' ∈ s.nested, isPlain c s')
    (hfolds : ∀ s' ∈ s.nested, s'.folds = false)
    (hlines : s.isControl → NoLines used.lexemes) :
    ∃ n text, statement .standard c s = some n ∧ (Builders.standard.written n).text = .ok text ∧
      Reads text.toList used.lexemes ∧ StartsLike text.toList (Phrase.text used).toList := by
  cases hcontrol : s.isControl with
  | false =>
    obtain ⟨n, hn, -, text, htext, hreads⟩ := restores_leaf (h.leaf_of_not_isControl hcontrol)
      (hplain s (Statement.mem_nested_self s)) htells.sourced
    exact ⟨n, text, hn, htext, hreads⟩
  | true =>
    have hready : ∀ s' ∈ s.nested, Ready c leaf s' := by
      intro s' hs'
      obtain ⟨before, us, after, hus, hspells⟩ := spells_nested h htells.sourced hs'
      have hused := htells.sourced
      have hlined := hlines hcontrol
      rw [hus] at hused hlined
      refine ready_of_spells hspells hused.right.left (NoLines.within hlined) fun hleaf _ => ?_
      obtain ⟨n, hn, hrestores⟩ := restores_leaf hleaf (hplain s' hs') hused.right.left
      rw [htells.lexemes hus hleaf]
      exact ⟨n, hn, writes_of_restores hrestores (NoLines.within hlined)⟩
    have hsupported := isSupported_of_isPlain (hplain s (Statement.mem_nested_self s))
    obtain ⟨n, hn, text, htext, -, hheaded, hreads, -⟩ := writes_statement hready hsupported
    have hwhole : Whole Statement.isSupported s.nested :=
      ⟨fun s' hs' => isSupported_of_isPlain (hplain s' hs'), hfolds⟩
    have hused : used = [] ++ (used ++ []) := by simp
    have hremains := remains_of_spells htells h hused hwhole
    rw [hremains] at hheaded hreads
    refine ⟨n, text, hn, htext, hreads, ?_⟩
    obtain ⟨kind, hkind, hbuilt⟩ := builtAt_statement hn
    have hmem : n.kind ∈ [NodeKind.if, .while] := by
      rw [hbuilt.kind]
      cases s <;> simp [Statement.isControl] at hcontrol <;>
        simp [← Option.some.inj hkind]
    obtain ⟨word, tail, hword, hhead⟩ := hheaded hmem
    obtain ⟨t, ts, rfl⟩ := List.exists_cons_of_ne_nil (spells_ne_nil h)
    simp only [Phrase.lexemes_cons, List.head?_cons, Option.some.injEq, Prod.mk.injEq] at hhead
    rw [hword, ← String.toList_ofList (l := word), ← hhead.2]
    exact startsLike_word ts (by decide) tail

/-- A node with a text is written to the place it was built at. -/
lemma toSource_of_builtAt {c : Context} {kind : NodeKind} {span : Span}
    {branches : List (Branch FlowNode)} {n : FlowNode} {text : String}
    (hbuilt : Build.BuiltAt c kind span branches n) (hkind : kind ≠ .newConnection)
    (htext : (Builders.standard.written n).text = .ok text) (path : Path)
    (connectionsFile : String) :
    Builders.standard.toSource n path connectionsFile =
      .ok [(path.text, [⟨span.start.position, span.stop.position, text⟩])] := by
  have htarget : (Builders.standard.get n.kind).target n connectionsFile = .ok .current := by
    show Write.target n connectionsFile = _
    unfold Write.target
    split
    · rename_i hnew
      exact absurd (hbuilt.kind.symm.trans hnew) hkind
    · rfl
  have hedit : TextEdit.ofNode n.codedata .current text =
      ⟨span.start.position, span.stop.position, text⟩ := by
    rw [TextEdit.ofNode, hbuilt.lineRange, hbuilt.isNew]
    rfl
  simp only [Builders.toSource, htarget, htext, bind, Except.bind, hedit]
  rfl

/-- The tokens at the places of leaves are the tokens that the leaves are read from. -/
lemma tells_lexemesAt {d : Document} {cs last : List Char} {before used after : Phrase}
    (hchars : d.text.toList = cs ++ last)
    (h : Scanned .origin cs (before ++ (used ++ after)) last) :
    Tells (fun s => d.lexemesAt s.span) used := by
  have hsource : Sourced used := Sourced.left (Sourced.right ⟨_, _, _, h⟩)
  refine ⟨hsource, ?_⟩
  rintro s before' us after' rest rfl hleaf
  have hscanned : Scanned .origin cs ((before ++ before') ++ (us ++ (after' ++ after))) last := by
    simpa using h
  obtain ⟨front, gap, back, hstretch⟩ := hscanned.stretch (Spells.leaf hleaf).covers
  rw [← hchars] at hstretch
  obtain ⟨ts, htokens, hlexemes⟩ := Document.tokenize_slice hsource.right.left hstretch
  simp only [Document.lexemesAt, htokens, hlexemes]

/-- A statement without calls comes back from its node, in every context. The node is written as one
edit at the place of the statement, its text has the tokens of the statement, and the edit leaves
the tokens of the whole document as they are. -/
theorem toSource_restores_statement {path : Path} {text : String} {d : Document}
    (hparse : Document.parse path text = .ok d) {c : Context} {s : Statement}
    (hinside : Construct.Inside (.module d.tree) (.statement s))
    (hplain : ∀ s' ∈ s.nested, isPlain c s')
    (hfolds : ∀ s' ∈ s.nested, s'.folds = false)
    (hlines : s.isControl → ∀ l ∈ d.lexemesAt s.span, l.1 = .string → '\n' ∉ l.2.toList)
    (connectionsFile : String) :
    ∃ n e us ts, statement .standard c s = some n ∧
      Builders.standard.toSource n d.path connectionsFile = .ok [(d.path.text, [e])] ∧
      e.start = s.span.start.position ∧ e.stop = s.span.stop.position ∧
      tokenize (d.slice s.span) = .ok us ∧
      (∃ us', tokenize e.newText = .ok us' ∧ Phrase.lexemes us' = Phrase.lexemes us) ∧
      tokenize d.text = .ok ts ∧
      ∃ text' ts', e.apply d.text = some text' ∧ tokenize text' = .ok ts' ∧
        Phrase.lexemes ts' = Phrase.lexemes ts := by
  obtain ⟨-, htext, ts, cs, last, htokens, hchars, hscanned, hfinal, hstands⟩ :=
    Document.parse_stands hparse
  obtain ⟨before, used, after, rfl, hspells⟩ := hstands _ hinside
  rw [← htext] at htokens hchars
  have htells := tells_lexemesAt hchars hscanned
  obtain ⟨front, gap, back, hstretch⟩ := hscanned.stretch hspells.covers
  rw [← hchars] at hstretch
  obtain ⟨us, hus, hlexemes⟩ := Document.tokenize_slice htells.sourced hstretch
  have hstrings : s.isControl → NoLines used.lexemes := by
    intro hcontrol
    refine noLines_of_strings htells.sourced ?_
    have hcontrol' := hlines hcontrol
    simpa only [Document.lexemesAt, hus, hlexemes] using hcontrol'
  obtain ⟨n, new, hn, hnew, hreads, hlike⟩ :=
    restores_statement hspells htells hplain hfolds hstrings
  obtain ⟨kind, hkind, hbuilt⟩ := builtAt_statement hn
  have hlocal : kind ≠ .newConnection := by
    obtain ⟨kind', hfree, hkind'⟩ := kind_of_isPlain (hplain s (Statement.mem_nested_self s))
    rw [hkind] at hkind'
    obtain rfl := Option.some.inj hkind'
    rintro rfl
    simp [callFree] at hfree
  refine ⟨n, _, us, before ++ (used ++ after), hn,
    toSource_of_builtAt hbuilt hlocal hnew d.path connectionsFile, rfl, rfl, hus, ?_, htokens, ?_⟩
  · obtain ⟨us', htokens', hlexemes'⟩ :=
      tokenize_of_run (List.append_nil _).symm (hreads.run []) (by rfl)
    exact ⟨us', htokens', hlexemes'.trans hlexemes.symm⟩
  · have hedited := hstretch.run_edited (spells_ne_nil hspells) hreads hlike
    have happly := TextEdit.apply_eq hstretch.chars new
    rw [← hstretch.start, ← hstretch.stop] at happly
    have hsplit : (String.ofList (front ++ gap ++ (new.toList ++ (back ++ last)))).toList =
        front ++ (gap ++ (new.toList ++ back)) ++ last := by simp
    obtain ⟨ts', htokens', hlexemes'⟩ := tokenize_of_run hsplit hedited hfinal
    exact ⟨_, ts', happly, htokens', hlexemes'⟩

def chainSource : String :=
  "function f() \x7b if a \x7b x = 1; \x7d else if b \x7b while c \x7b final int y = 2; \x7d " ++
    "return \"z\"; \x7d \x7d"

/-- An `if` with an `else if` that holds a loop, in a context without templates. -/
theorem toSource_restores_statement_chain :
    ∃ d s, Document.parse ⟨"main.bal"⟩ chainSource = .ok d ∧
      Construct.Inside (.module d.tree) (.statement s) ∧ s.isControl ∧
      (∀ s' ∈ s.nested, isPlain ⟨d, .standard, fun _ => .error (.unavailable ""), .local, []⟩ s') ∧
      (∀ s' ∈ s.nested, s'.folds = false) ∧
      (∀ l ∈ d.lexemesAt s.span, l.1 = .string → '\n' ∉ l.2.toList) ∧
      ∃ n e, statement .standard ⟨d, .standard, fun _ => .error (.unavailable ""), .local, []⟩ s =
          some n ∧
        Builders.standard.toSource n d.path "connections.bal" = .ok [(d.path.text, [e])] := by
  have hcheck : (Document.statementAt? chainSource ⟨0, 15⟩ ⟨0, 40⟩).any
      (fun found => found.2.isControl &&
        (found.2.nested.all
          (isPlain ⟨found.1, .standard, fun _ => .error (.unavailable ""), .local, []⟩) &&
        (found.2.nested.all (!·.folds) &&
        (found.1.lexemesAt found.2.span).all fun l =>
          l.1 != .string || !l.2.toList.contains '\n'))) = true := by
    decide +kernel
  obtain ⟨d, s, hparse, hinside, hcheck⟩ := Document.exists_of_statementAt? hcheck
  simp only [Bool.and_eq_true, List.all_eq_true] at hcheck
  obtain ⟨hcontrol, hplain, hfolds, hlines⟩ := hcheck
  have hfolds' : ∀ s' ∈ s.nested, s'.folds = false := fun s' hs' => by
    simpa using hfolds s' hs'
  have hlines' : ∀ l ∈ d.lexemesAt s.span, l.1 = .string → '\n' ∉ l.2.toList := by
    intro l hl hstring
    simpa [hstring] using hlines l hl
  obtain ⟨n, e, -, -, hn, hsource, -⟩ := toSource_restores_statement hparse hinside hplain
    hfolds' (fun _ => hlines') "connections.bal"
  exact ⟨d, s, hparse, hinside, hcontrol, hplain, hfolds', hlines', n, e, hn, hsource⟩

end Analysis

end FlowCanvas
