import FlowCanvas.Proofs.CallReading
import FlowCanvas.Proofs.Reading

/-!
# The nodes of a tree and their tokens

A tree node is everything in a tree that has a span. `Laid n ts` says that the tokens `ts` are those
of the node: its span runs from the first one to the last one, and its parts are laid on stretches
of them that do not meet. Whatever a reader gives is laid on the tokens that it took.
-/

namespace FlowCanvas

/-- The expressions inside an expression that is read as some shape. -/
def Shape.operands : Shape → List Expression
  | .check _ inner => [inner]
  | .new _ arguments => arguments.map (·.value)
  | .remote _ _ arguments => arguments.map (·.value)
  | .call _ _ arguments => arguments.map (·.value)
  | .reference _ => []
  | .literal => []
  | .other => []

/-- A part of a tree with a place of its own. A field is a variable of a class or a service. -/
inductive TreeNode where
  | construct (construct : Construct)
  | importing (declaration : Import)
  | typeDefinition (definition : TypeDefinition)
  | field (declaration : Declaration)
  | expression (expression : Expression)

namespace TreeNode

def span : TreeNode → Span
  | .construct c => c.span
  | .importing i => i.span
  | .typeDefinition t => t.span
  | .field d => d.span
  | .expression e => e.span

def ofMember : Member → TreeNode
  | .function f => .construct (.function f)
  | .variable d => .construct (.variable d)
  | .service s => .construct (.service s)
  | .classDefinition c => .construct (.classDefinition c)
  | .typeDefinition t => .typeDefinition t

def ofStatement (s : Statement) : TreeNode := .construct (.statement s)

def ofFunction (f : FunctionDefinition) : TreeNode := .construct (.function f)

def ofBlock (b : Block) : TreeNode := .construct (.block b)

/-- The nodes directly inside a statement. -/
def statementParts : Statement → List TreeNode
  | .declaration d => d.initializer.toList.map .expression
  | .assignment _ value _ => [.expression value]
  | .conditional c =>
    .expression c.condition :: ofBlock c.thenBlock ::
      (Construct.ofAlternative c.alternative).map .construct
  | .loop value body _ => [.expression value, ofBlock body]
  | .exit _ value _ => value.toList.map .expression
  | .jump .. => []
  | .expression value _ => [.expression value]
  | .unsupported .. => []

/-- The nodes directly inside a node. Imports and fields come first. -/
def parts : TreeNode → List TreeNode
  | .construct (.module m) => m.imports.map .importing ++ m.members.map ofMember
  | .construct (.function f) => [ofBlock f.body]
  | .construct (.service s) => s.fields.map .field ++ s.functions.map ofFunction
  | .construct (.classDefinition c) => c.fields.map .field ++ c.functions.map ofFunction
  | .construct (.variable d) => d.initializer.toList.map .expression
  | .construct (.block b) => b.statements.map ofStatement
  | .construct (.statement s) => statementParts s
  | .importing _ => []
  | .typeDefinition _ => []
  | .field d => d.initializer.toList.map .expression
  | .expression e => e.shape.operands.map .expression

def isExpression : TreeNode → Bool
  | .expression _ => true
  | _ => false

/-- The constructs directly inside a construct, and the operands of an expression. -/
def children : TreeNode → List TreeNode
  | .construct c => c.children.map .construct
  | .expression e => e.shape.operands.map .expression
  | _ => []

end TreeNode

namespace Parser

open Brackets

/-! ### Stretches of a phrase -/

section Spread

variable {α β : Type}

/-- Things stand on stretches of a phrase, one after the other. -/
inductive Spread (P : α → Phrase → Prop) : List α → Phrase → Prop
  | nil (ts : Phrase) : Spread P [] ts
  | cons {before used after : Phrase} {x : α} {xs : List α} (hx : P x used)
    (hxs : Spread P xs after) : Spread P (x :: xs) (before ++ (used ++ after))

variable {P : α → Phrase → Prop} {Q : β → Phrase → Prop} {xs ys : List α} {ts us : Phrase}

lemma Spread.prepend (h : Spread P xs ts) (before : Phrase) : Spread P xs (before ++ ts) := by
  cases h with
  | nil => exact .nil _
  | cons hx hxs =>
    rw [← List.append_assoc]
    exact .cons hx hxs

lemma Spread.cons_left (h : Spread P xs ts) (t : Token) : Spread P xs (t :: ts) := h.prepend [t]

lemma Spread.append (hx : Spread P xs ts) (hy : Spread P ys us) :
    Spread P (xs ++ ys) (ts ++ us) := by
  induction hx with
  | nil ts => exact hy.prepend ts
  | cons hx _ ih =>
    rw [List.append_assoc, List.append_assoc]
    exact .cons hx ih

lemma Spread.extend (h : Spread P xs ts) (after : Phrase) : Spread P xs (ts ++ after) := by
  simpa using h.append (.nil after)

/-- The first thing stands at the front. -/
lemma Spread.front {x : α} (hx : P x ts) (hxs : Spread P xs us) : Spread P (x :: xs) (ts ++ us) :=
  @Spread.cons _ _ [] _ _ _ _ hx hxs

lemma Spread.single {x : α} (h : P x ts) : Spread P [x] ts := by
  simpa using Spread.front h (.nil [])

/-- What stands on stretches of stretches of a phrase stands on stretches of it. -/
lemma Spread.flatMap (h : Spread P xs ts) {f : α → List β}
    (hf : ∀ x ∈ xs, ∀ used, P x used → Spread Q (f x) used) : Spread Q (xs.flatMap f) ts := by
  induction h with
  | nil ts => exact .nil ts
  | @cons before used after x xs hx _ ih =>
    rw [List.flatMap_cons]
    have hrest := ih fun y hy => hf y (List.mem_cons_of_mem x hy)
    exact ((hf x List.mem_cons_self used hx).append hrest).prepend before

lemma Spread.map (h : Spread P xs ts) {f : α → β}
    (hf : ∀ x ∈ xs, ∀ used, P x used → Q (f x) used) : Spread Q (xs.map f) ts := by
  rw [List.map_eq_flatMap]
  exact h.flatMap fun x hx used hused => .single (hf x hx used hused)

lemma Spread.mem (h : Spread P xs ts) {x : α} (hx : x ∈ xs) :
    ∃ before used after, ts = before ++ (used ++ after) ∧ P x used := by
  induction h with
  | nil => simp at hx
  | @cons before used after y xs hy _ ih =>
    rcases List.mem_cons.mp hx with rfl | hx
    · exact ⟨before, used, after, rfl, hy⟩
    · obtain ⟨before', used', after', rfl, hused⟩ := ih hx
      exact ⟨before ++ (used ++ before'), used', after', by simp, hused⟩

end Spread

/-! ### Expressions -/

/-- The tokens of an expression. -/
def IsTokens (e : Expression) (ts : Phrase) : Prop := ts = e.tokens

/-- The first segment starts the phrase, and the others follow. -/
lemma spread_segmentsFrom (depth : Nat) (ts : Phrase) :
    ∃ seg list after, segmentsFrom depth ts = seg :: list ∧ ts = seg ++ after ∧
      Spread Eq list after := by
  have hcons {t : Token} {ts : Phrase} {found : List Phrase}
      (h : ∃ seg list after, found = seg :: list ∧ ts = seg ++ after ∧
        Spread Eq list after) :
      ∃ seg list after, consFirst t found = seg :: list ∧ t :: ts = seg ++ after ∧
        Spread Eq list after := by
    obtain ⟨seg, list, after, rfl, rfl, hlist⟩ := h
    exact ⟨t :: seg, list, after, rfl, rfl, hlist⟩
  fun_induction segmentsFrom depth ts with
  | case1 depth => exact ⟨[], [], [], rfl, rfl, .nil []⟩
  | case2 depth t ts hcomma ih =>
    refine ⟨[], _, t :: ts, rfl, rfl, ?_⟩
    split
    · exact .nil _
    · obtain ⟨seg, list, after, hsegments, rfl, hlist⟩ := ih
      rw [hsegments]
      exact (Spread.front rfl hlist).cons_left t
  | case3 depth t ts hcomma hopen ih => exact hcons ih
  | case4 t ts hopen hclose hcomma => exact ⟨t :: ts, [], [], rfl, by simp, .nil []⟩
  | case5 t ts hopen hclose depth hcomma ih => exact hcons ih
  | case6 depth t ts hcomma hopen hclose ih => exact hcons ih

lemma spread_segments (ts : Phrase) : Spread Eq (segments ts) ts := by
  unfold segments
  split
  · exact .nil ts
  · obtain ⟨seg, list, after, hsegments, hts, hlist⟩ := spread_segmentsFrom 0 ts
    rw [hsegments, hts]
    exact .front rfl hlist

/-- The values of arguments stand between the brackets, one after the other. -/
lemma spread_listOf (inner : Phrase) :
    Spread IsTokens
      ((Argument.listOf inner).map (·.value)) inner := by
  have hlist : Spread (fun (a : Argument) used => ∃ front, used = front ++ a.value.tokens)
      (Argument.listOf inner) inner := by
    rw [Argument.listOf, List.filterMap_eq_flatMap_toList]
    refine (spread_segments inner).flatMap fun seg _ used hused => ?_
    subst hused
    cases hread : Argument.ofPhrase? seg with
    | none => exact .nil seg
    | some a =>
      refine .single ?_
      cases Argument.spellsArgument_of_ofPhrase? hread with
      | positional => exact ⟨[], rfl⟩
      | @named name equal => exact ⟨[name, equal], rfl⟩
  rw [List.map_eq_flatMap]
  refine hlist.flatMap fun a _ used hused => ?_
  obtain ⟨front, rfl⟩ := hused
  exact (Spread.single (show IsTokens a.value _ from rfl)).prepend front

lemma operands_ofCallee? {head : Phrase} {method : Token} {arguments : List Argument}
    {shape : Shape}
    (h : Shape.ofCallee? head method arguments = some shape) :
    shape.operands = arguments.map (·.value) := by
  rw [Shape.ofCallee?] at h
  split at h
  · simp at h
  · split at h
    · obtain rfl := Option.some.inj h
      rfl
    · split at h
      · obtain rfl := Option.some.inj h
        rfl
      · split_ifs at h
        obtain rfl := Option.some.inj h
        rfl

/-- The arguments of a call stand behind its first token. -/
lemma spread_ofCall? {e : Expression} {shape : Shape} (h : Shape.ofCall? e.tokens = some shape) :
    Spread IsTokens shape.operands e.rest := by
  rw [Shape.ofCall?] at h
  split at h
  · simp at h
  · rename_i callee inner hsplit
    split at h
    · simp at h
    · rename_i method hmethod
      obtain ⟨first, last, htokens, -⟩ := splitLastGroup?_eq_some_iff.mp hsplit
      rw [operands_ofCallee? h]
      cases callee with
      | nil => simp at hmethod
      | cons t callee =>
        obtain ⟨-, hrest⟩ := List.cons.inj htokens
        rw [hrest]
        exact (((spread_listOf inner).extend [last]).cons_left first).prepend callee

lemma spread_ofNew (ts : Phrase) :
    Spread IsTokens (Shape.ofNew ts).operands ts := by
  have hsome {callee inner : Phrase} (hsplit : splitLastGroup? ts = some (callee, inner)) :
      Spread IsTokens
        ((Argument.listOf inner).map (·.value)) ts := by
    obtain ⟨first, last, rfl, -⟩ := splitLastGroup?_eq_some_iff.mp hsplit
    exact (((spread_listOf inner).extend [last]).cons_left first).prepend callee
  rw [Shape.ofNew.eq_def]
  split
  · exact .nil _
  · split
    · rename_i hsplit
      exact hsome hsplit
    · rename_i hsplit
      exact hsome hsplit
    · exact .nil _

/-- The operands of an expression stand behind its first token, one after the other. -/
lemma spread_operands (e : Expression) :
    Spread IsTokens e.shape.operands e.rest := by
  rw [Expression.shape]
  split
  · rename_i hrest
    split_ifs
    · exact .nil _
    · rw [Shape.ofToken]
      split_ifs <;> exact .nil _
  · rename_i t ts hrest
    split
    · rw [hrest]
      exact .single rfl
    · split
      · rw [hrest]
        exact spread_ofNew (t :: ts)
      · split
        · rename_i shape hcall
          exact spread_ofCall? hcall
        · split_ifs <;> exact .nil _

/-! ### Nodes -/

/-- The tokens `ts` are those of a node, and its parts stand on stretches of them. The children of
a node stand there in their order; imports and members, and fields and functions, may alternate. -/
inductive Laid : TreeNode → Phrase → Prop
  | mk {n : TreeNode} {ps : List TreeNode} {ts : Phrase} (hcovers : Covers n.span ts)
    (htokens : ∀ e, n = .expression e → ts = e.tokens) (hparts : ps.Perm n.parts)
    (hchildren : n.children.Sublist ps) (h : Spread Laid ps ts) : Laid n ts

lemma laid_of_perm {n : TreeNode} {ps : List TreeNode} {ts : Phrase} (hcovers : Covers n.span ts)
    (hparts : ps.Perm n.parts) (hchildren : n.children.Sublist ps) (h : Spread Laid ps ts)
    (hn : n.isExpression = false := by rfl) : Laid n ts := by
  refine .mk hcovers (fun e he => ?_) hparts hchildren h
  rw [he] at hn
  simp [TreeNode.isExpression] at hn

/-- A node whose parts stand in their order. -/
lemma laid_of_spread {n : TreeNode} {ts : Phrase} (hcovers : Covers n.span ts)
    (hchildren : n.children.Sublist n.parts) (h : Spread Laid n.parts ts)
    (hn : n.isExpression = false := by rfl) : Laid n ts :=
  laid_of_perm hcovers (.refl _) hchildren h hn

lemma covers_expression (e : Expression) : Covers e.span e.tokens :=
  ⟨e.first, e.last, rfl, List.getLast?_cons, rfl⟩

lemma laid_expression (e : Expression) : Laid (.expression e) e.tokens := by
  induction hn : e.tokens.length using Nat.strongRecOn generalizing e with
  | ind n ih =>
    subst hn
    have hspread := spread_operands e
    refine .mk (covers_expression e) (fun _ he => by rw [TreeNode.expression.inj he]) (.refl _)
      (.refl _) (Spread.cons_left ?_ e.first)
    refine hspread.map fun x hx used hused => ?_
    obtain ⟨before, used', after, hrest, hused'⟩ := hspread.mem hx
    rw [show used = x.tokens from hused]
    refine ih _ ?_ x rfl
    rw [← show used' = x.tokens from hused', Expression.tokens, hrest]
    simp only [List.length_append, List.length_cons]
    omega

/-! ### Statements -/

lemma spread_operand (value : Option Expression) :
    Spread Laid (value.toList.map .expression) (operand value) := by
  cases value with
  | none => exact .nil _
  | some e => exact .single (laid_expression e)

lemma DeclaredAs.spread {body type : Phrase} {name : Token} {value : Option Expression}
    (h : DeclaredAs body type name value) : Spread Laid (value.toList.map .expression) body := by
  cases h with
  | bare => exact .nil _
  | @valued _ _ equal e =>
    exact (((Spread.single (laid_expression e)).cons_left equal).cons_left name).prepend type

lemma laid_of_spellsLeaf {s : Statement} {ts rest : Phrase} (h : SpellsLeaf s ts rest) :
    Laid (.ofStatement s) ts := by
  have hcovers := (Spells.leaf h).covers
  cases h with
  | @declaration _ _ semicolon _ _ _ _ _ _ _ _ hdeclared =>
    exact laid_of_spread hcovers (List.nil_sublist _) (hdeclared.spread.extend [semicolon])
  | @marked _ _ semicolon annotated finals _ _ _ _ _ _ _ _ _ _ _ _ hdeclared =>
    exact laid_of_spread hcovers (List.nil_sublist _)
      (((hdeclared.spread.extend [semicolon]).prepend finals).prepend annotated)
  | @assignment _ equal semicolon target _ value =>
    have hvalue := ((Spread.single (laid_expression value)).cons_left equal).prepend target
    exact laid_of_spread hcovers (List.nil_sublist _) (hvalue.extend [semicolon])
  | @expression semicolon _ value =>
    exact laid_of_spread hcovers (List.nil_sublist _)
      ((Spread.single (laid_expression value)).extend [semicolon])
  | @exit _ word semicolon value =>
    exact laid_of_spread hcovers (List.nil_sublist _)
      (((spread_operand value).extend [semicolon]).cons_left word)
  | jump => exact laid_of_spread hcovers (List.nil_sublist _) (.nil _)
  | unsupported => exact laid_of_spread hcovers (List.nil_sublist _) (.nil _)
  | braces => exact laid_of_spread hcovers (List.nil_sublist _) (.nil _)

mutual

/-- A statement is laid on the tokens that spell it. -/
theorem laid_of_spells {s : Statement} {ts rest : Phrase} (h : Spells s ts rest) :
    Laid (.ofStatement s) ts := by
  cases h with
  | leaf h => exact laid_of_spellsLeaf h
  | conditional _ h => exact laid_of_spellsConditional h
  | @loop word value _ _ _ _ _ hbody =>
    refine laid_of_spread (covers_cons _ hbody.covers _) (.cons _ (.refl _)) ?_
    exact (Spread.front (laid_expression value) (.single (laid_of_spellsBlock hbody))).cons_left
      word

theorem laid_of_spellsConditional {c : Conditional} {word : Token} {ts rest : Phrase}
    (h : SpellsConditional c word ts rest) : Laid (.ofStatement (.conditional c)) (word :: ts) := by
  have hcovers := h.covers
  cases h with
  | @absent _ value _ _ _ _ hbody =>
    refine laid_of_spread hcovers (.cons _ (.refl _)) ?_
    exact (Spread.front (laid_expression value) (.single (laid_of_spellsBlock hbody))).cons_left
      word
  | @block _ other value _ _ _ _ _ _ hbody _ hlast =>
    refine laid_of_spread hcovers (.cons _ (.refl _)) ?_
    have hrest := (Spread.single (laid_of_spellsBlock hlast)).cons_left other
    exact (Spread.front (laid_expression value)
      (.front (laid_of_spellsBlock hbody) hrest)).cons_left word
  | @chained _ other word' value _ _ _ _ _ _ hbody _ _ hnext =>
    refine laid_of_spread hcovers (.cons _ (.refl _)) ?_
    have hrest := (Spread.single (laid_of_spellsConditional hnext)).cons_left other
    exact (Spread.front (laid_expression value)
      (.front (laid_of_spellsBlock hbody) hrest)).cons_left word

theorem laid_of_spellsBlock {b : Block} {ts : Phrase} (h : SpellsBlock b ts) :
    Laid (.ofBlock b) ts := by
  have hcovers := h.covers
  cases h with
  | @mk brace close list _ _ _ hlist =>
    have hchildren : (TreeNode.ofBlock (.mk list (brace.span.through close.span))).children =
        list.map TreeNode.ofStatement := List.map_map
    refine laid_of_spread hcovers (hchildren ▸ .refl _) ?_
    exact ((spread_of_spellsAll hlist).extend [close]).cons_left brace

theorem spread_of_spellsAll {list : List Statement} {ts rest : Phrase}
    (h : SpellsAll list ts rest) : Spread Laid (list.map .ofStatement) ts := by
  cases h with
  | nil => exact .nil _
  | cons _ hs hlist => exact .front (laid_of_spells hs) (spread_of_spellsAll hlist)

end

end Parser

end FlowCanvas
