import FlowCanvas.Proofs.Groups
import FlowCanvas.Proofs.Leaves

/-!
# Reading calls

A call is a callee with a group of arguments behind it. The callee is a name, a qualified name or a
method of a client, and the arguments are read from the segments of the group.
-/

namespace FlowCanvas

/-- What a call calls. -/
inductive Callee where
  | function (qualifier : Option String) (name : String)
  | action (client : List Lexeme) (method : String)
deriving DecidableEq

/-- The callee of a shape and the arguments it gets. -/
def Shape.called? : Shape → Option (Callee × List Argument)
  | .call qualifier name arguments => some (.function qualifier name, arguments)
  | .remote client method arguments => some (.action client.lexemes method, arguments)
  | _ => none

namespace Statement

/-- The expression of a statement that may be a call. -/
def operand? : Statement → Option Expression
  | .declaration d => d.initializer
  | .exit .return value _ => value
  | .expression value _ => some value
  | _ => none

/-- The call that a statement runs, without a `check` in front of it. -/
def called? (s : Statement) : Option (Callee × List Argument) :=
  s.operand?.bind fun e => (Analysis.checkedShape e).called?

/-- Whether a statement declares a variable. -/
def isDeclaration : Statement → Bool
  | .declaration _ => true
  | _ => false

end Statement

namespace Parser

open Lexer Brackets

/-! ### Callees -/

/-- The tokens of a callee. -/
inductive SpellsCallee : Callee → Phrase → Prop
  | plain {method : Token} (h : method.isIdentifier) :
    SpellsCallee (.function none method.text) [method]
  | qualified {qualifier colon method : Token} (hqualifier : qualifier.isIdentifier)
    (hcolon : colon.is ":") (h : method.isIdentifier) :
    SpellsCallee (.function (some qualifier.text) method.text) [qualifier, colon, method]
  | action {client : Phrase} {arrow method : Token} (hclient : Shape.isPath client)
    (harrow : arrow.is "->") (h : method.isIdentifier) :
    SpellsCallee (.action client.lexemes method.text) (client ++ [arrow, method])

lemma qualifier?_eq_some_iff {head : Phrase} {text : String} :
    Shape.qualifier? head = some text ↔
      ∃ qualifier colon, head = [qualifier, colon] ∧ qualifier.isIdentifier ∧ colon.is ":" ∧
        qualifier.text = text := by
  unfold Shape.qualifier?
  split
  · rename_i qualifier colon
    split
    · rename_i h
      rw [Bool.and_eq_true] at h
      simp [h.1, h.2]
    · rename_i h
      rw [Bool.and_eq_true] at h
      simp only [reduceCtorEq, List.cons.injEq, and_true, false_iff]
      rintro ⟨q, k, ⟨rfl, rfl⟩, hq, hk, -⟩
      exact h ⟨hq, hk⟩
  · rename_i hnot
    simp only [reduceCtorEq, false_iff]
    rintro ⟨q, k, rfl, -⟩
    exact hnot q k rfl

lemma isPath_ne_nil {client : Phrase} (h : Shape.isPath client) : client ≠ [] := by
  rintro rfl
  simp [Shape.isPath] at h

/-- A callee is read from its own tokens. -/
lemma ofCallee?_eq_iff {head : Phrase} {method : Token} {arguments arguments' : List Argument}
    {callee : Callee} :
    (Shape.ofCallee? head method arguments).bind Shape.called? = some (callee, arguments') ↔
      arguments' = arguments ∧ SpellsCallee callee (head ++ [method]) := by
  cases hmethod : method.isIdentifier with
  | false =>
    simp only [Shape.ofCallee?, hmethod, Bool.not_false, if_true, Option.bind_none, reduceCtorEq,
      false_iff]
    rintro ⟨-, h⟩
    have hlast : ∀ {callee : Callee} {ts : Phrase}, SpellsCallee callee ts → ∀ t ∈ ts.getLast?,
        t.isIdentifier := by
      intro callee ts h
      cases h <;> simpa
    have hmem : method ∈ (head ++ [method]).getLast? := by simp
    rw [hlast h method hmem] at hmethod
    simp at hmethod
  | true =>
    rw [Shape.ofCallee?, if_neg (by simp [hmethod])]
    constructor
    · intro h
      cases head with
      | nil =>
        obtain ⟨rfl, rfl⟩ := Prod.mk.inj (Option.some.inj h)
        exact ⟨rfl, .plain hmethod⟩
      | cons t ts =>
        rw [List.isEmpty_cons, if_neg (by simp)] at h
        cases hqualifier : Shape.qualifier? (t :: ts) with
        | some text =>
          rw [hqualifier] at h
          obtain ⟨qualifier, colon, hhead, hq, hcolon, rfl⟩ := qualifier?_eq_some_iff.mp hqualifier
          obtain ⟨rfl, rfl⟩ := Prod.mk.inj (Option.some.inj h)
          rw [hhead]
          exact ⟨rfl, .qualified hq hcolon hmethod⟩
        | none =>
          rw [hqualifier] at h
          dsimp only at h
          split at h
          · rename_i hremote
            simp only [Bool.and_eq_true, Option.any_eq_true] at hremote
            obtain ⟨⟨arrow, hlast, harrow⟩, hpath⟩ := hremote
            obtain ⟨client, hhead⟩ := List.getLast?_eq_some_iff.mp hlast
            rw [hhead, List.dropLast_concat] at hpath h
            obtain ⟨rfl, rfl⟩ := Prod.mk.inj (Option.some.inj h)
            rw [hhead, List.append_assoc]
            exact ⟨rfl, .action hpath harrow hmethod⟩
          · simp at h
    · rintro ⟨rfl, h⟩
      generalize hts : head ++ [method] = ts at h
      cases h with
      | plain h =>
        obtain ⟨rfl, rfl⟩ : head = [] ∧ method = _ := by
          simpa using List.append_inj' (hts.trans (List.nil_append _).symm) rfl
        rfl
      | @qualified qualifier colon method' hq hcolon h =>
        obtain ⟨rfl, hsame⟩ := List.append_inj' (hts.trans
          (show [qualifier, colon, method'] = [qualifier, colon] ++ [method'] from rfl)) rfl
        obtain rfl : method = method' := by simpa using hsame
        have hqualifier := qualifier?_eq_some_iff.mpr ⟨qualifier, colon, rfl, hq, hcolon, rfl⟩
        simp [hqualifier, Shape.called?]
      | @action client arrow method' hclient harrow h =>
        obtain ⟨rfl, hsame⟩ := List.append_inj' (hts.trans
          (show client ++ [arrow, method'] = (client ++ [arrow]) ++ [method'] by simp)) rfl
        obtain rfl : method = method' := by simpa using hsame
        have hqualifier : Shape.qualifier? (client ++ [arrow]) = none := by
          by_contra hsome
          obtain ⟨text, htext⟩ := Option.ne_none_iff_exists'.mp hsome
          obtain ⟨qualifier, colon, heq, -, hcolon, -⟩ := qualifier?_eq_some_iff.mp htext
          obtain ⟨-, hlast⟩ := List.append_inj' (heq.trans
            (show [qualifier, colon] = [qualifier] ++ [colon] from rfl)) rfl
          obtain rfl : arrow = colon := by simpa using hlast
          rw [is_eq_false harrow (by decide)] at hcolon
          simp at hcolon
        simp [hqualifier, harrow, hclient, Shape.called?]

/-! ### Calls -/

/-- The tokens of a call whose arguments stand in `inner`. -/
inductive SpellsCall (callee : Callee) (inner : Phrase) : Phrase → Prop
  | mk {phrase : Phrase} {first last : Token} (hcallee : SpellsCallee callee phrase)
    (hopen : first.isOpener) (hparen : first.is "(") (hinner : Matched inner)
    (hclose : last.is ")") : SpellsCall callee inner (phrase ++ first :: (inner ++ [last]))

lemma ofCall?_eq_iff {ts : Phrase} {callee : Callee} {arguments : List Argument} :
    (Shape.ofCall? ts).bind Shape.called? = some (callee, arguments) ↔
      ∃ inner, SpellsCall callee inner ts ∧ arguments = Argument.listOf inner := by
  constructor
  · intro h
    unfold Shape.ofCall? at h
    cases hsplit : splitLastGroup? ts with
    | none => simp [hsplit] at h
    | some found =>
      obtain ⟨phrase, inner⟩ := found
      obtain ⟨first, last, rfl, hopen, hparen, hclose, hinner⟩ :=
        splitLastGroup?_eq_some_iff.mp hsplit
      simp only [hsplit] at h
      cases hlast : phrase.getLast? with
      | none => simp [hlast] at h
      | some method =>
        obtain ⟨head, rfl⟩ := List.getLast?_eq_some_iff.mp hlast
        simp only [hlast, List.dropLast_concat] at h
        obtain ⟨rfl, hcallee⟩ := ofCallee?_eq_iff.mp h
        exact ⟨inner, .mk hcallee hopen hparen hinner hclose, rfl⟩
  · rintro ⟨inner, ⟨hcallee, hopen, hparen, hinner, hclose⟩, rfl⟩
    rename_i phrase first last
    have hsplit : splitLastGroup? (phrase ++ first :: (inner ++ [last])) = some (phrase, inner) :=
      splitLastGroup?_eq_some_iff.mpr ⟨first, last, rfl, hopen, hparen, hclose, hinner⟩
    have hne : phrase ≠ [] := by cases hcallee <;> simp
    obtain ⟨head, method, rfl⟩ := (List.eq_nil_or_concat' phrase).resolve_left hne
    simp only [Shape.ofCall?, hsplit, List.getLast?_concat, List.dropLast_concat]
    exact ofCallee?_eq_iff.mpr ⟨rfl, hcallee⟩

lemma ofNew_called? (ts : Phrase) : (Shape.ofNew ts).called? = none := by
  unfold Shape.ofNew
  split
  · rfl
  · split <;> rfl

/-- The words that keep an expression from being a call. -/
def nonCallWords : List String := ["check", "checkpanic", "new"]

/-- An expression is a call if its tokens are the ones of a call. -/
lemma shape_called?_eq_iff {e : Expression} {callee : Callee} {arguments : List Argument} :
    e.shape.called? = some (callee, arguments) ↔
      e.first.isWord nonCallWords = false ∧
        ∃ inner, SpellsCall callee inner e.tokens ∧ arguments = Argument.listOf inner := by
  have hwords : e.first.isWord nonCallWords =
      (e.first.isWord ["check", "checkpanic"] || e.first.isWord ["new"]) := by
    cases hidentifier : e.first.isIdentifier <;>
      simp [Token.isWord, nonCallWords, hidentifier, Bool.or_assoc]
  unfold Expression.shape
  split
  · rename_i hrest
    have hsingle : ¬∃ inner, SpellsCall callee inner e.tokens ∧
      arguments = Argument.listOf inner := by
      rintro ⟨inner, hcall, -⟩
      generalize hts : e.tokens = ts at hcall
      rw [Expression.tokens, hrest] at hts
      cases hcall with
      | mk hcallee =>
        have hlength := congrArg List.length hts
        simp only [List.length_append, List.length_cons] at hlength
        omega
    have hnone : (if e.first.isWord ["new"] = true then Shape.new none []
        else Shape.ofToken e.first).called? = none := by
      split
      · rfl
      · unfold Shape.ofToken
        split <;> rfl
    rw [hnone]
    simp only [reduceCtorEq, false_iff]
    exact fun h => hsingle h.2
  · rename_i t ts hrest
    rw [hwords, ← ofCall?_eq_iff]
    cases hcheck : e.first.isWord ["check", "checkpanic"] with
    | true => simp [Shape.called?]
    | false =>
      cases hnew : e.first.isWord ["new"] with
      | true => simp [ofNew_called?]
      | false =>
        simp only [Bool.false_eq_true, if_false, Bool.or_self, true_and]
        cases hcall : Shape.ofCall? e.tokens with
        | some call => simp
        | none =>
          simp only [Option.bind_none, reduceCtorEq, iff_false]
          split <;> simp [Shape.called?]

/-- A call is read from the last group of its tokens. -/
lemma ofCall?_of_called? {e : Expression} {found : Callee × List Argument}
    (h : e.shape.called? = some found) : Shape.ofCall? e.tokens = some e.shape := by
  unfold Expression.shape at h ⊢
  split at h
  · split at h
    · simp [Shape.called?] at h
    · unfold Shape.ofToken at h
      split at h <;> simp [Shape.called?] at h
  · split at h
    · simp [Shape.called?] at h
    · split at h
      · simp [ofNew_called?] at h
      · split at h
        · rename_i hcheck hnew _ call hcall
          simp [hcheck, hnew, hcall]
        · split at h <;> simp [Shape.called?] at h

/-- The client of a remote call stands in front of everything else. -/
lemma client_prefix {e : Expression} {client : Phrase} {method : String}
    {arguments : List Argument} (h : e.shape = .remote client method arguments) :
    client <+: e.tokens ∧ client ≠ [] := by
  have hcalled : e.shape.called? = some (.action client.lexemes method, arguments) := by rw [h]; rfl
  have hcall := ofCall?_of_called? hcalled
  rw [h] at hcall
  unfold Shape.ofCall? at hcall
  split at hcall
  · simp at hcall
  · rename_i callee inner hsplit
    obtain ⟨first, last, htokens, -⟩ := splitLastGroup?_eq_some_iff.mp hsplit
    split at hcall
    · simp at hcall
    · unfold Shape.ofCallee? at hcall
      split at hcall
      · simp at hcall
      · split at hcall
        · simp at hcall
        · split at hcall
          · simp at hcall
          · split at hcall
            · rename_i hremote
              simp only [Option.some.injEq, Shape.remote.injEq] at hcall
              rw [Bool.and_eq_true] at hremote
              obtain rfl := hcall.1
              rw [htokens]
              exact ⟨((List.dropLast_prefix _).trans (List.dropLast_prefix _)).trans
                (List.prefix_append _ _), isPath_ne_nil hremote.2⟩
            · simp at hcall

/-- The tokens that check what follows them. -/
inductive SpellsCheck : Phrase → Bool → Prop
  | absent : SpellsCheck [] false
  | present {word : Token} (h : word.isWord ["check", "checkpanic"]) : SpellsCheck [word] true

lemma unwrapCheck_of_called? {e : Expression} {found : Callee × List Argument}
    (h : e.shape.called? = some found) : e.unwrapCheck = (e, false) := by
  unfold Expression.unwrapCheck
  cases hshape : e.shape <;> first | rfl | simp [hshape, Shape.called?] at h

/-- What ends with a group is read as a call or as nothing. -/
lemma called?_of_ofCall? {ts : Phrase} {s : Shape} (h : Shape.ofCall? ts = some s) :
    s.called?.isSome := by
  unfold Shape.ofCall? at h
  split at h
  · simp at h
  · split at h
    · simp at h
    · unfold Shape.ofCallee? at h
      split at h
      · simp at h
      · split at h
        · obtain rfl := Option.some.inj h
          rfl
        · split at h
          · obtain rfl := Option.some.inj h
            rfl
          · split at h
            · obtain rfl := Option.some.inj h
              rfl
            · simp at h

lemma tokens_of_check {e inner : Expression} {panics : Bool} (h : e.shape = .check panics inner) :
    e.first.isWord ["check", "checkpanic"] ∧ e.tokens = e.first :: inner.tokens := by
  unfold Expression.shape at h
  split at h
  · split at h
    · simp at h
    · unfold Shape.ofToken at h
      split at h <;> simp at h
  · rename_i t ts hrest
    split at h
    · rename_i hword
      obtain ⟨rfl, rfl⟩ := Shape.check.inj h
      exact ⟨hword, by simp [Expression.tokens, hrest]⟩
    · split at h
      · unfold Shape.ofNew at h
        split at h
        · simp at h
        · split at h <;> simp at h
      · split at h
        · rename_i call hcall
          rw [h] at hcall
          simpa [Shape.called?] using called?_of_ofCall? hcall
        · split at h <;> simp at h

/-- A call behind a `check`, or without one. -/
lemma checkedShape_called?_eq_iff {e : Expression} {found : Callee × List Argument} :
    (Analysis.checkedShape e).called? = some found ↔
      ∃ marks checked call, SpellsCheck marks checked ∧ e.tokens = marks ++ call.tokens ∧
        e.unwrapCheck = (call, checked) ∧ call.shape.called? = some found := by
  constructor
  · intro h
    unfold Analysis.checkedShape at h
    have hplain : e.unwrapCheck = (e, false) → ∃ marks checked call, SpellsCheck marks checked ∧
        e.tokens = marks ++ call.tokens ∧ e.unwrapCheck = (call, checked) ∧
        call.shape.called? = some found := by
      intro hunwrap
      rw [hunwrap] at h
      exact ⟨[], false, e, .absent, rfl, hunwrap, h⟩
    cases hshape : e.shape with
    | check panics inner =>
      have hunwrap : e.unwrapCheck = (inner, true) := by simp [Expression.unwrapCheck, hshape]
      rw [hunwrap] at h
      obtain ⟨hword, htokens⟩ := tokens_of_check hshape
      exact ⟨[e.first], true, inner, .present hword, htokens, hunwrap, h⟩
    | new => exact hplain (by simp [Expression.unwrapCheck, hshape])
    | remote => exact hplain (by simp [Expression.unwrapCheck, hshape])
    | call => exact hplain (by simp [Expression.unwrapCheck, hshape])
    | reference => exact hplain (by simp [Expression.unwrapCheck, hshape])
    | literal => exact hplain (by simp [Expression.unwrapCheck, hshape])
    | other => exact hplain (by simp [Expression.unwrapCheck, hshape])
  · rintro ⟨marks, checked, call, -, -, hunwrap, hcalled⟩
    rw [Analysis.checkedShape, hunwrap]
    exact hcalled

lemma checkedShape_of_spells {e call : Expression} {marks : Phrase} {checked : Bool}
    {found : Callee × List Argument} (hmarks : SpellsCheck marks checked)
    (htokens : e.tokens = marks ++ call.tokens) (hcalled : call.shape.called? = some found) :
    (Analysis.checkedShape e).called? = some found := by
  refine checkedShape_called?_eq_iff.mpr ⟨marks, checked, call, hmarks, htokens, ?_, hcalled⟩
  obtain ⟨first, rest⟩ := e
  obtain ⟨first', rest'⟩ := call
  cases hmarks with
  | absent =>
    obtain ⟨rfl, rfl⟩ := List.cons.inj htokens
    exact unwrapCheck_of_called? hcalled
  | present hword =>
    obtain ⟨rfl, rfl⟩ := List.cons.inj htokens
    simp [Expression.unwrapCheck, Expression.shape, Expression.tokens, hword]

end Parser

/-! ### Arguments -/

namespace Argument

open Lexer Brackets

/-- Whether lexemes between commas are read as a name and a value. -/
def looksNamed : List Lexeme → Bool
  | (kind, _) :: (kind', text) :: _ :: _ => kind == .identifier && (kind' != .string && text == "=")
  | _ => false

/-- The lexemes of the value that is read from lexemes between commas. -/
def valueOf (ls : List Lexeme) : List Lexeme := if looksNamed ls then ls.drop 2 else ls

/-- An argument as it is read from the tokens between commas. -/
inductive SpellsArgument : Argument → Phrase → Prop
  | positional {value : Expression} (h : looksNamed value.tokens.lexemes = false) :
    SpellsArgument ⟨none, value⟩ value.tokens
  | named {name equal : Token} {value : Expression} (hname : name.isIdentifier)
    (hequal : equal.is "=") : SpellsArgument ⟨some name.text, value⟩ (name :: equal :: value.tokens)

lemma spellsArgument_of_ofPhrase? {ts : Phrase} {a : Argument} (h : ofPhrase? ts = some a) :
    SpellsArgument a ts := by
  match ts with
  | [] => simp [ofPhrase?] at h
  | [t] =>
    obtain rfl := Option.some.inj h
    exact @SpellsArgument.positional ⟨t, []⟩ rfl
  | [t, u] =>
    obtain rfl := Option.some.inj h
    exact @SpellsArgument.positional ⟨t, [u]⟩ rfl
  | t :: u :: v :: ts =>
    rw [ofPhrase?] at h
    split at h
    · rename_i hnamed
      rw [Bool.and_eq_true] at hnamed
      obtain rfl := Option.some.inj h
      exact @SpellsArgument.named t u ⟨v, ts⟩ hnamed.1 hnamed.2
    · rename_i hnamed
      obtain rfl := Option.some.inj h
      refine @SpellsArgument.positional ⟨t, u :: v :: ts⟩ ?_
      simpa [looksNamed, Expression.tokens, Token.isIdentifier, Token.is] using hnamed

lemma exists_ofPhrase? {ts : Phrase} (h : ts ≠ []) : ∃ a, ofPhrase? ts = some a := by
  match ts with
  | [] => exact absurd rfl h
  | [t] => exact ⟨_, rfl⟩
  | [t, u] => exact ⟨_, rfl⟩
  | t :: u :: v :: ts =>
    rw [ofPhrase?]
    split <;> exact ⟨_, rfl⟩

lemma looksNamed_cons {name equal : Token} {value : Expression} (hname : name.isIdentifier)
    (hequal : equal.is "=") :
    looksNamed (Phrase.lexemes (name :: equal :: value.tokens)) := by
  simp only [Token.is, Bool.and_eq_true] at hequal
  simp only [Token.isIdentifier] at hname
  simp [looksNamed, Expression.tokens, hname, hequal.1, hequal.2]

/-- The name and the lexemes of the value of an argument. -/
def parts (a : Argument) : Option String × List Lexeme := (a.name, a.value.tokens.lexemes)

/-- The name and the value that are read from lexemes between commas. -/
def partsOf (ls : List Lexeme) : Option String × List Lexeme :=
  (if looksNamed ls then ls.head?.map Prod.snd else none, valueOf ls)

lemma SpellsArgument.partsOf {a : Argument} {ts : Phrase} (h : SpellsArgument a ts) :
    a.parts = Argument.partsOf ts.lexemes := by
  cases h with
  | positional h =>
    rw [Argument.partsOf, Argument.valueOf, if_neg (by simp [h]), if_neg (by simp [h]), parts]
  | @named name equal value hname hequal =>
    have hnamed := @looksNamed_cons name equal value hname hequal
    rw [Argument.partsOf, Argument.valueOf, if_pos hnamed, if_pos hnamed, parts]
    rfl

/-- The arguments between commas. -/
lemma parts_listOf {list : List Phrase} {ts : Phrase} (h : Joined list ts)
    (hne : ∀ seg ∈ list, seg ≠ []) (hfree : ∀ seg ∈ list, Free "," seg) :
    (listOf ts).map parts = list.map fun seg => partsOf seg.lexemes := by
  rw [listOf, segments_of_joined h hne hfree]
  clear h hfree
  induction list with
  | nil => rfl
  | cons seg list ih =>
    obtain ⟨a, ha⟩ := exists_ofPhrase? (hne seg (by simp))
    rw [List.filterMap_cons_some ha, List.map_cons, List.map_cons,
      ih fun seg hseg => hne seg (List.mem_cons_of_mem _ hseg),
      (spellsArgument_of_ofPhrase? ha).partsOf]

/-- What is known of an argument that was read from a source. -/
structure Sound (a : Argument) : Prop where
  sourced : Sourced a.value.tokens
  free : Free "," a.value.tokens
  name : ∀ name ∈ a.name, Legible name.toList [(.identifier, name)]
  positional : a.name = none → looksNamed a.value.tokens.lexemes = false

lemma Sound.legible {a : Argument} (h : a.Sound) :
    Legible a.value.text.toList a.value.tokens.lexemes :=
  h.sourced.legible (Analysis.tokens_ne_nil a.value)

lemma Sourced.within {ts us : Phrase} (h : Sourced ts) (hus : us <:+: ts) : Sourced us := by
  obtain ⟨before, after, rfl⟩ := hus
  exact h.left.right

lemma sound_of_mem_listOf {inner : Phrase} (hinner : Matched inner) (hsource : Sourced inner)
    {a : Argument} (ha : a ∈ listOf inner) : a.Sound := by
  obtain ⟨seg, hseg, hread⟩ := List.mem_filterMap.mp ha
  obtain ⟨hfree, hinfix⟩ := segments_spec hinner seg hseg
  have hsourced := Sourced.within hsource hinfix
  cases spellsArgument_of_ofPhrase? hread with
  | positional h => exact ⟨hsourced, hfree, by simp, fun _ => h⟩
  | @named name equal value hname hequal =>
    refine ⟨@Sourced.right [name, equal] _ hsourced, ?_, ?_, by simp⟩
    · have hkind : name.kind = .identifier := by simpa [Token.isIdentifier] using hname
      have htext : equal.text = "=" := by
        simp only [Token.is, Bool.and_eq_true, beq_iff_eq] at hequal
        exact hequal.2
      unfold Free at hfree ⊢
      rw [depthAfter?] at hfree
      split at hfree
      · simp at hfree
      · simpa [depthAfter?, Token.isOpener, Token.isCloser, hkind, htext, Token.is] using hfree
    · rintro text htext
      obtain rfl := Option.some.inj htext
      have hkind : name.kind = .identifier := by simpa [Token.isIdentifier] using hname
      rw [← hkind]
      exact (@Sourced.left [name] _ hsourced).token

end Argument

end FlowCanvas
