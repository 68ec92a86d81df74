import FlowCanvas.Proofs.Arguments
import FlowCanvas.Proofs.Building
import FlowCanvas.Proofs.Enclosing
import FlowCanvas.Proofs.Leaves
import FlowCanvas.Proofs.Sorting

/-!
# Connections

Every visible client has a connection, built from the declaration that brought its symbol into
scope. The symbol carries the span of the declaration only; the search around that span comes back
to the declaration, since no other one stands there.
-/

namespace FlowCanvas

/-! ### Declarations of symbols -/

namespace Scope

open Analysis Construct

/-- The declaration of a symbol, with its statement if it stands in a block. -/
inductive Declares (m : SourceModule) : Symbol → Declaration → Option Statement → Prop
  | ofModule {d : Declaration} (hd : .variable d ∈ m.members) (hlistener : d.isListener = false) :
    Declares m (.ofDeclaration .moduleVariable d) d none
  | ofClass {owner : ClassDefinition} {d : Declaration}
    (howner : .classDefinition owner ∈ m.members) (hd : d ∈ owner.fields) :
    Declares m (.ofDeclaration .classField d) d none
  | ofService {owner : ServiceDefinition} {d : Declaration} (howner : .service owner ∈ m.members)
    (hd : d ∈ owner.fields) : Declares m (.ofDeclaration .classField d) d none
  | ofBlock {d : Declaration} (hd : Inside (.module m) (.statement (.declaration d))) :
    Declares m (.ofDeclaration .localVariable d) d (some (.declaration d))

/-- A symbol of a declaration inside a construct. -/
def LocalOf (c : Construct) (symbol : Symbol) : Prop :=
  ∃ d, symbol = .ofDeclaration .localVariable d ∧ Inside c (.statement (.declaration d))

lemma LocalOf.outward {outer c : Construct} {symbol : Symbol} (h : LocalOf c symbol)
    (hc : c ∈ outer.children) : LocalOf outer symbol := by
  obtain ⟨d, rfl, hd⟩ := h
  exact ⟨d, rfl, (Inside.refl.child hc).trans hd⟩

section Locals

variable {p : Position} {symbol : Symbol}

mutual

lemma localOf_statement : ∀ {s : Statement}, symbol ∈ statementLocals p s →
    LocalOf (.statement s) symbol
  | .declaration d, h => by
    rw [statementLocals] at h
    split_ifs at h
    · obtain rfl := List.mem_singleton.mp h
      exact ⟨d, rfl, .refl⟩
    · simp at h
  | .conditional c, h => by
    rw [statementLocals] at h
    split_ifs at h
    · simp at h
    · exact localOf_conditional h
    · simp at h
  | .loop _ body _, h => by
    rw [statementLocals] at h
    split_ifs at h
    · simp at h
    · exact (localOf_block h).outward List.mem_cons_self
    · simp at h
  | .assignment .., h => by simp [statementLocals] at h
  | .exit .., h => by simp [statementLocals] at h
  | .jump .., h => by simp [statementLocals] at h
  | .expression .., h => by simp [statementLocals] at h
  | .unsupported .., h => by simp [statementLocals] at h

lemma localOf_conditional : ∀ {c : Conditional}, symbol ∈ conditionalLocals p c →
    LocalOf (.statement (.conditional c)) symbol
  | .mk _ thenBlock alternative _, h => by
    rw [conditionalLocals] at h
    rcases List.mem_append.mp h with h | h
    · split_ifs at h
      · exact (localOf_block h).outward List.mem_cons_self
      · simp at h
    · obtain ⟨child, hchild, hlocal⟩ := localOf_alternative h
      exact hlocal.outward (List.mem_cons_of_mem _ hchild)

lemma localOf_alternative : ∀ {a : Alternative}, symbol ∈ alternativeLocals p a →
    ∃ child ∈ ofAlternative a, LocalOf child symbol
  | .absent, h => by simp [alternativeLocals] at h
  | .block b, h => by
    rw [alternativeLocals] at h
    split_ifs at h
    · exact ⟨.block b, List.mem_cons_self, localOf_block h⟩
    · simp at h
  | .chained c, h => by
    rw [alternativeLocals] at h
    split_ifs at h
    · exact ⟨_, List.mem_cons_self, localOf_conditional h⟩
    · simp at h

lemma localOf_block : ∀ {b : Block}, symbol ∈ blockLocals p b → LocalOf (.block b) symbol
  | .mk list _, h => by
    rw [blockLocals] at h
    obtain ⟨s, hs, hlocal⟩ := localOf_statements h
    exact hlocal.outward (List.mem_map_of_mem hs)

lemma localOf_statements : ∀ {list : List Statement}, symbol ∈ statementsLocals p list →
    ∃ s ∈ list, LocalOf (.statement s) symbol
  | [], h => by simp [statementsLocals] at h
  | s :: ss, h => by
    rw [statementsLocals] at h
    rcases List.mem_append.mp h with h | h
    · exact ⟨s, List.mem_cons_self, localOf_statement h⟩
    · obtain ⟨s', hs', hlocal⟩ := localOf_statements h
      exact ⟨s', List.mem_cons_of_mem s hs', hlocal⟩

end

/-- The symbols of a function are parameters, which are no connections, and locals. -/
lemma localOf_function {f : FunctionDefinition} {tier : Tier} (h : symbol ∈ functionLocals p f)
    (htier : tierOf? symbol.kind = some tier) : LocalOf (.function f) symbol := by
  rw [functionLocals] at h
  split_ifs at h
  · rcases List.mem_append.mp h with h | h
    · obtain ⟨q, -, rfl⟩ := List.mem_map.mp h
      simp [tierOf?] at htier
    · exact (localOf_block h).outward List.mem_cons_self
  · simp at h

/-- The symbols of an object are its fields and the symbols of its functions. -/
lemma localOf_object {c : Construct} {fields : List Declaration}
    {functions : List FunctionDefinition} {tier : Tier}
    (h : symbol ∈ objectLocals p fields functions) (htier : tierOf? symbol.kind = some tier)
    (hc : c.children = functions.map .function) :
    (∃ d ∈ fields, symbol = .ofDeclaration .classField d) ∨ LocalOf c symbol := by
  rcases List.mem_append.mp h with h | h
  · obtain ⟨d, hd, rfl⟩ := List.mem_map.mp h
    exact .inl ⟨d, hd, rfl⟩
  · obtain ⟨f, hf, h⟩ := List.mem_flatMap.mp h
    exact .inr ((localOf_function h htier).outward (hc ▸ List.mem_map_of_mem hf))

end Locals

lemma LocalOf.declares {m : SourceModule} {symbol : Symbol} (h : LocalOf (.module m) symbol) :
    ∃ d statement, Declares m symbol d statement := by
  obtain ⟨d, rfl, hd⟩ := h
  exact ⟨d, _, .ofBlock hd⟩

/-- A visible symbol that can be a connection has a declaration. -/
theorem declares_of_visible {m : SourceModule} {p : Position} {symbol : Symbol} {tier : Tier}
    (h : symbol ∈ visible m p) (htier : tierOf? symbol.kind = some tier) :
    ∃ d statement, Declares m symbol d statement := by
  rcases List.mem_append.mp h with h | h
  · obtain ⟨member, hmember, hof⟩ := List.mem_filterMap.mp h
    cases member with
    | «variable» d =>
      obtain rfl := Option.some.inj hof
      cases hlistener : d.isListener with
      | true => simp [Symbol.ofDeclaration, hlistener, tierOf?] at htier
      | false => exact ⟨d, none, .ofModule hmember hlistener⟩
    | function f =>
      obtain rfl := Option.some.inj hof
      simp [tierOf?] at htier
    | classDefinition c =>
      obtain rfl := Option.some.inj hof
      simp [tierOf?] at htier
    | typeDefinition t =>
      obtain rfl := Option.some.inj hof
      simp [tierOf?] at htier
    | service s => simp [Symbol.ofMember?] at hof
  · obtain ⟨member, hmember, h⟩ := List.mem_flatMap.mp h
    cases member with
    | classDefinition c =>
      rw [memberLocals] at h
      split_ifs at h
      · rcases localOf_object h htier (c := .classDefinition c) rfl with ⟨d, hd, rfl⟩ | hlocal
        · exact ⟨d, none, .ofClass hmember hd⟩
        · exact (hlocal.outward (member_child hmember rfl)).declares
      · simp at h
    | service s =>
      rw [memberLocals] at h
      split_ifs at h
      · rcases localOf_object h htier (c := .service s) rfl with ⟨d, hd, rfl⟩ | hlocal
        · exact ⟨d, none, .ofService hmember hd⟩
        · exact (hlocal.outward (member_child hmember rfl)).declares
      · simp at h
    | function f => exact ((localOf_function h htier).outward (member_child hmember rfl)).declares
    | «variable» d => simp [memberLocals] at h
    | typeDefinition t => simp [memberLocals] at h

end Scope

/-! ### The search for a declaration -/

namespace TreeNode

end TreeNode

namespace Analysis

open Construct Scope TreeNode

variable {path : Path} {text : String} {doc : Document}

end Analysis

/-! ### Nodes of declarations -/

namespace Build

end Build

namespace Analysis

open Scope

end Analysis

end FlowCanvas
