import FlowCanvas.Document
import FlowCanvas.Proofs.Nesting
import FlowCanvas.Proofs.Readers
import FlowCanvas.Proofs.Scanning

/-!
# Where the constructs of a document stand

A document's tokens hold the bodies of its functions one after the other, in source order, and
every construct inside of them stands at a stretch of these tokens that spells it.
-/

namespace FlowCanvas

/-- The blocks that hold the statements of a member, in source order. -/
def Member.bodies : Member → List Block
  | .function f => [f.body]
  | .service s => s.functions.map (·.body)
  | .classDefinition c => c.functions.map (·.body)
  | .variable _ => []
  | .typeDefinition _ => []

namespace Parser

/-- Blocks stand in a run of tokens one after the other. -/
inductive Holds : Phrase → List Block → Prop
  | nil (ts : Phrase) : Holds ts []
  | cons {before used after : Phrase} {b : Block} {bs : List Block} (hb : SpellsBlock b used)
    (hbs : Holds after bs) : Holds (before ++ (used ++ after)) (b :: bs)

lemma Holds.prepend {ts : Phrase} {bs : List Block} (h : Holds ts bs) (before : Phrase) :
    Holds (before ++ ts) bs := by
  cases h with
  | nil => exact .nil _
  | @cons before' used after b bs hb hbs =>
    rw [← List.append_assoc]
    exact .cons hb hbs

lemma Holds.append {ts us : Phrase} {bs cs : List Block} (hb : Holds ts bs) (hc : Holds us cs) :
    Holds (ts ++ us) (bs ++ cs) := by
  induction hb with
  | nil ts => exact hc.prepend ts
  | cons hb _ ih =>
    rw [List.append_assoc, List.append_assoc]
    exact .cons hb ih

/-- The tokens from `ts` up to `rest` hold some blocks. -/
def Passes (ts rest : Phrase) (bs : List Block) : Prop := ∃ used, ts = used ++ rest ∧ Holds used bs

lemma Passes.refl (ts : Phrase) : Passes ts ts [] := ⟨[], rfl, .nil []⟩

lemma passes_append (used rest : Phrase) : Passes (used ++ rest) rest [] := ⟨used, rfl, .nil used⟩

lemma passes_cons (t : Token) (rest : Phrase) : Passes (t :: rest) rest [] := passes_append [t] rest

lemma Passes.trans {ts us vs : Phrase} {bs cs : List Block} (h : Passes ts us bs)
    (h' : Passes us vs cs) : Passes ts vs (bs ++ cs) := by
  obtain ⟨used, rfl, hb⟩ := h
  obtain ⟨used', rfl, hc⟩ := h'
  exact ⟨used ++ used', by rw [List.append_assoc], hb.append hc⟩

/-! ### Steps that hold no blocks -/

lemma passes_of_readIf {test : Token → Bool} {expected : String} {ts rest : Phrase} {t : Token}
    (h : readIf test expected ts = .ok (t, rest)) : Passes ts rest [] := by
  obtain ⟨rfl, -⟩ := readIf_eq_ok_iff.mp h
  exact passes_cons t rest

lemma passes_of_eat {mark : String} {ts rest : Phrase} (h : eat mark ts = some rest) :
    Passes ts rest [] := by
  obtain ⟨t, rfl, -⟩ := eat_eq_some_iff.mp h
  exact passes_cons t rest

lemma passes_of_through {mark : String} {ts body rest : Phrase} {found : Token}
    (h : through mark ts = .ok ((body, found), rest)) : Passes ts rest [] := by
  obtain ⟨rfl, -⟩ := through_eq_ok_iff.mp h
  simpa using passes_append (body ++ [found]) rest

lemma passes_of_upTo {mark : String} {ts body rest : Phrase}
    (h : upTo mark ts = .ok (body, rest)) : Passes ts rest [] := by
  obtain ⟨rfl, -⟩ := upTo_eq_ok_iff.mp h
  exact passes_append body rest

lemma passes_of_annotations {ts rest : Phrase} {names : List String}
    (h : annotations ts = .ok (names, rest)) : Passes ts rest [] := by
  obtain ⟨used, rfl, -⟩ := annotations_spec h
  exact passes_append used rest

lemma passes_qualifiers (ts : Phrase) : Passes ts (qualifiers ts).2 [] := by
  induction ts with
  | nil => exact .refl []
  | cons t ts ih =>
    rw [qualifiers]
    split
    · exact (passes_cons t ts).trans ih
    · exact .refl _

lemma passes_of_declaration {start : Token} {names words : List String} {ts rest : Phrase}
    {d : Declaration} (h : declaration start names words ts = .ok (d, rest)) :
    Passes ts rest [] := by
  obtain ⟨body, semicolon, _, _, _, rfl, -⟩ := declaration_eq_ok_iff.mp h
  simpa using passes_append (body ++ [semicolon]) rest

lemma passes_of_front {ts rest : Phrase} {names words : List String}
    (h : ReadsFront ts names words rest) : Passes ts rest [] := by
  obtain ⟨after, hnames, hwords⟩ := h
  have hqualified := passes_qualifiers after
  rw [hwords] at hqualified
  exact (passes_of_annotations hnames).trans hqualified

lemma passes_of_importDeclaration {start : Token} {ts rest : Phrase} {i : Import}
    (h : importDeclaration start ts = .ok (i, rest)) : Passes ts rest [] := by
  obtain ⟨used, semicolon, rfl, -⟩ := importDeclaration_spec h
  simpa using passes_append (used ++ [semicolon]) rest

/-! ### Functions and their owners -/

lemma passes_of_functionName {words : List String} {ts rest : Phrase} {name : FunctionName}
    (h : functionName words ts = .ok (name, rest)) : Passes ts rest [] := by
  obtain ⟨⟨word, after⟩, hword, hread⟩ := bind_eq_ok_iff.mp h
  dsimp only at hread
  split_ifs at hread
  · obtain ⟨⟨path, left⟩, hpath, hdone⟩ := bind_eq_ok_iff.mp hread
    obtain ⟨rfl, rfl⟩ := hdone
    exact (passes_of_readIf hword).trans (passes_of_upTo hpath)
  · obtain ⟨rfl, rfl⟩ := hread
    exact passes_of_readIf hword
  · obtain ⟨rfl, rfl⟩ := hread
    exact passes_of_readIf hword

lemma passes_of_parameters {ts rest : Phrase} {list : List Parameter}
    (h : parameters ts = .ok (list, rest)) : Passes ts rest [] := by
  obtain ⟨⟨paren, after⟩, hparen, hread⟩ := bind_eq_ok_iff.mp h
  obtain ⟨⟨⟨inner, close⟩, left⟩, hinner, hdone⟩ := bind_eq_ok_iff.mp hread
  obtain ⟨rfl, rfl⟩ := hdone
  exact (passes_of_readIf hparen).trans (passes_of_through hinner)

lemma passes_of_returnType {ts rest : Phrase} {type : Option Phrase}
    (h : returnType ts = .ok (type, rest)) : Passes ts rest [] := by
  rw [returnType] at h
  split at h
  · obtain ⟨rfl, rfl⟩ := h
    exact .refl _
  · rename_i after heat
    obtain ⟨⟨names, after1⟩, hnames, hread⟩ := bind_eq_ok_iff.mp h
    obtain ⟨⟨type', left⟩, htype, hdone⟩ := bind_eq_ok_iff.mp hread
    obtain ⟨rfl, rfl⟩ := hdone
    exact (passes_of_eat heat).trans ((passes_of_annotations hnames).trans (passes_of_upTo htype))

/-- A function ends with its body, and nothing in front of the body is a block. -/
lemma body_of_functionDefinition {start : Token} {words : List String} {ts rest : Phrase}
    {f : FunctionDefinition} (h : functionDefinition start words ts = .ok (f, rest)) :
    ∃ used, Passes ts (used ++ rest) [] ∧ SpellsBlock f.body used ∧
      f.span = start.span.through f.body.span := by
  obtain ⟨name, after, list, after', type, behind, body, hname, hlist, htype, -, hbody, rfl⟩ :=
    functionDefinition_eq_ok_iff.mp h
  obtain ⟨used, rfl, hspells⟩ := readsBlocks_block hbody
  exact ⟨used, (passes_of_functionName hname).trans
    ((passes_of_parameters hlist).trans (passes_of_returnType htype)), hspells, rfl⟩

lemma passes_of_functionDefinition {start : Token} {words : List String} {ts rest : Phrase}
    {f : FunctionDefinition} (h : functionDefinition start words ts = .ok (f, rest)) :
    Passes ts rest [f.body] := by
  obtain ⟨used, hbefore, hspells, -⟩ := body_of_functionDefinition h
  have hholds : Holds used [f.body] := by
    simpa using @Holds.cons [] used [] f.body [] hspells (.nil [])
  exact hbefore.trans ⟨used, rfl, hholds⟩

lemma ReadsObject.passes {ts rest : Phrase} {body : ObjectBody} (h : ReadsObject ts body rest) :
    Passes ts rest (body.functions.map (·.body)) := by
  induction h with
  | close _ => exact passes_cons _ _
  | @function start word names words ts after left rest f body hfront _ hf _ ih =>
    exact (passes_of_front hfront).trans ((passes_cons word after).trans
      ((passes_of_functionDefinition hf).trans ih))
  | inclusion hfront hskipped _ ih =>
    exact (passes_of_front hfront).trans ((passes_of_through hskipped).trans ih)
  | field hfront hfield _ ih =>
    exact (passes_of_front hfront).trans ((passes_of_declaration hfield).trans ih)

lemma passes_of_objectBody {ts rest : Phrase} {body : ObjectBody}
    (h : objectBody ts = .ok (body, rest)) : Passes ts rest (body.functions.map (·.body)) := by
  obtain ⟨brace, after, rfl, -, hread⟩ := objectBody_spec h
  exact (passes_cons brace after).trans hread.passes

lemma passes_of_serviceDefinition {start : Token} {ts rest : Phrase} {s : ServiceDefinition}
    (h : serviceDefinition start ts = .ok (s, rest)) :
    Passes ts rest (s.functions.map (·.body)) := by
  obtain ⟨path, on, after, listener, after', body, left, last, hpath, hlistener, hbody, hlast,
    rfl⟩ := serviceDefinition_spec h
  have hbefore : Passes ts left (body.functions.map (·.body)) :=
    (passes_of_through hpath).trans
      ((passes_of_upTo hlistener).trans (passes_of_objectBody hbody))
  rcases hlast with ⟨-, rfl⟩ | ⟨rfl, -⟩
  · exact hbefore
  · simpa using hbefore.trans (passes_cons last rest)

lemma passes_of_classDefinition {start : Token} {words : List String} {ts rest : Phrase}
    {c : ClassDefinition} (h : classDefinition start words ts = .ok (c, rest)) :
    Passes ts rest (c.functions.map (·.body)) := by
  obtain ⟨name, after, body, rfl, -, hbody, rfl⟩ := classDefinition_spec h
  exact (passes_cons name after).trans (passes_of_objectBody hbody)

/-! ### Types -/

lemma ReadsEntries.passes {close : String} {record read : RecordType} {ts rest : Phrase}
    (h : ReadsEntries close record ts read rest) : Passes ts rest [] := by
  induction h with
  | close _ => exact passes_cons _ _
  | inclusion _ hentry _ ih => exact (passes_of_through hentry).trans ih
  | entry hnames hentry _ ih =>
    exact (passes_of_annotations hnames).trans ((passes_of_through hentry).trans ih)

lemma passes_of_typeDescriptor {ts rest : Phrase} {d : TypeDescriptor}
    (h : typeDescriptor ts = .ok (d, rest)) : Passes ts rest [] := by
  rcases typeDescriptor_spec h with ⟨word, after, record, rfl, -, hrecord, -⟩ |
    ⟨descriptor, -, hdescriptor, -⟩
  · obtain ⟨bracket, inner, opening, close, rfl, -, -, closed, hentries⟩ := recordType_spec hrecord
    exact (passes_append [word, bracket] inner).trans hentries.passes
  · exact passes_of_upTo hdescriptor

lemma passes_of_typeDefinition {start : Token} {words : List String} {ts rest : Phrase}
    {t : TypeDefinition} (h : typeDefinition start words ts = .ok (t, rest)) :
    Passes ts rest [] := by
  obtain ⟨name, after, descriptor, semicolon, rfl, -, hdescriptor, -⟩ := typeDefinition_spec h
  exact (passes_cons name after).trans
    ((passes_of_typeDescriptor hdescriptor).trans (passes_cons semicolon rest))

lemma passes_of_enumDefinition {start : Token} {words : List String} {ts rest : Phrase}
    {t : TypeDefinition} (h : enumDefinition start words ts = .ok (t, rest)) :
    Passes ts rest [] := by
  obtain ⟨name, brace, inner, close, rfl, -⟩ := enumDefinition_spec h
  simpa using passes_append (name :: brace :: (inner ++ [close])) rest

/-! ### Members and modules -/

lemma passes_of_memberAfter {start : Token} {names words : List String} {ts rest : Phrase}
    {m : Member} (h : memberAfter start names words ts = .ok (m, rest)) :
    Passes ts rest m.bodies := by
  cases readsMember_of_memberAfter h with
  | function _ hf => exact (passes_cons _ _).trans (passes_of_functionDefinition hf)
  | service _ hs => exact (passes_cons _ _).trans (passes_of_serviceDefinition hs)
  | classDefinition _ hc => exact (passes_cons _ _).trans (passes_of_classDefinition hc)
  | typeDefinition _ ht => exact (passes_cons _ _).trans (passes_of_typeDefinition ht)
  | enumDefinition _ ht => exact (passes_cons _ _).trans (passes_of_enumDefinition ht)
  | constant _ hd => exact (passes_cons _ _).trans (passes_of_declaration hd)
  | declaration _ hd => exact passes_of_declaration hd

lemma passes_of_member {start : Token} {ts rest : Phrase} {m : Member}
    (h : member start ts = .ok (m, rest)) : Passes (start :: ts) rest m.bodies := by
  obtain ⟨names, words, after, hfront, hread⟩ := member_spec h
  exact (passes_of_front hfront).trans (passes_of_memberAfter hread)

lemma Passes.holds {ts us : Phrase} {bs cs : List Block} (h : Passes ts us bs)
    (h' : Holds us cs) : Holds ts (bs ++ cs) := by
  obtain ⟨used, rfl, hb⟩ := h
  exact hb.append h'

lemma holds_of_moduleParts {n : Nat} {ts : Phrase} {imports : List Import}
    {members : List Member} (h : moduleParts n ts = .ok (imports, members)) :
    Holds ts (members.flatMap Member.bodies) := by
  induction n generalizing ts imports members with
  | zero =>
    obtain ⟨rfl, rfl⟩ := h
    exact .nil ts
  | succ n ih =>
    cases ts with
    | nil =>
      obtain ⟨rfl, rfl⟩ := h
      exact .nil []
    | cons t ts =>
      rw [moduleParts] at h
      split_ifs at h
      · obtain ⟨⟨i, after⟩, hi, hread⟩ := bind_eq_ok_iff.mp h
        obtain ⟨⟨imports', members'⟩, hothers, hdone⟩ := bind_eq_ok_iff.mp hread
        obtain ⟨rfl, rfl⟩ := hdone
        exact ((passes_cons t ts).trans (passes_of_importDeclaration hi)).holds (ih hothers)
      · exact (passes_cons t ts).holds (ih h)
      · obtain ⟨⟨m, after⟩, hm, hread⟩ := bind_eq_ok_iff.mp h
        obtain ⟨⟨imports', members'⟩, hothers, hdone⟩ := bind_eq_ok_iff.mp hread
        obtain ⟨rfl, rfl⟩ := hdone
        exact (passes_of_member hm).holds (ih hothers)

lemma Holds.sublist {ts : Phrase} {bs cs : List Block} (h : Holds ts bs) (hsub : cs.Sublist bs) :
    Holds ts cs := by
  induction h generalizing cs with
  | nil ts =>
    obtain rfl := List.sublist_nil.mp hsub
    exact .nil ts
  | @cons before used after b bs hb hbs ih =>
    cases hsub with
    | cons _ hsub =>
      rw [← List.append_assoc]
      exact (ih hsub).prepend _
    | cons_cons _ hsub => exact .cons hb (ih hsub)

lemma Holds.mem {ts : Phrase} {bs : List Block} {b : Block} (h : Holds ts bs) (hb : b ∈ bs) :
    Holds ts [b] := h.sublist (List.singleton_sublist.mpr hb)

lemma holds_singleton_iff {ts : Phrase} {b : Block} :
    Holds ts [b] ↔ ∃ before used after, ts = before ++ (used ++ after) ∧ SpellsBlock b used := by
  constructor
  · intro h
    cases h with
    | cons hb _ => exact ⟨_, _, _, rfl, hb⟩
  · rintro ⟨before, used, after, rfl, hb⟩
    exact .cons hb (.nil after)

lemma SpellsAll.mem {list : List Statement} {ts rest : Phrase} (h : SpellsAll list ts rest)
    {s : Statement} (hs : s ∈ list) :
    ∃ before used after, ts = before ++ (used ++ after) ∧ Spells s used (after ++ rest) := by
  match h with
  | .nil => simp at hs
  | @SpellsAll.cons first others used after _ _ hfirst hothers =>
    rcases List.mem_cons.mp hs with rfl | hmem
    · exact ⟨[], used, after, rfl, hfirst⟩
    · obtain ⟨before, used', after', rfl, hspells⟩ := hothers.mem hmem
      exact ⟨used ++ before, used', after', by simp, hspells⟩

end Parser

namespace Construct

open FlowCanvas.Parser

/-- A construct at some depth inside another, or the other itself. -/
inductive Inside (outer : Construct) : Construct → Prop
  | refl : Inside outer outer
  | child {c inner : Construct} (h : Inside outer c) (hinner : inner ∈ c.children) :
    Inside outer inner

lemma Inside.trans {outer c inner : Construct} (h : Inside outer c) (h' : Inside c inner) :
    Inside outer inner := by
  induction h' with
  | refl => exact h
  | child _ hinner ih => exact ih.child hinner

lemma inside_descend (lo hi n : Nat) (c : Construct) : Inside c (descend lo hi n c) := by
  induction n generalizing c with
  | zero => exact .refl
  | succ n ih =>
    rw [descend]
    split
    · rename_i child hfind
      exact (Inside.refl.child (List.mem_of_find?_eq_some hfind)).trans (ih child)
    · exact .refl

lemma inside_enclosing {d : Document} {start stop : Position} {found : Construct}
    (h : d.enclosing start stop = some found) : Inside (.module d.tree) found := by
  obtain ⟨lo, -, hrest⟩ := Option.bind_eq_some_iff.mp h
  obtain ⟨hi, -, hsome⟩ := Option.bind_eq_some_iff.mp hrest
  split at hsome
  · simp at hsome
  · obtain rfl := Option.some.inj hsome
    exact inside_descend lo hi _ _

/-- Where a construct stands among the tokens of its document. -/
def Stands (ts : Phrase) : Construct → Prop
  | .module m => Holds ts (m.members.flatMap Member.bodies)
  | .function f => Holds ts [f.body]
  | .service s => Holds ts (s.functions.map (·.body))
  | .classDefinition c => Holds ts (c.functions.map (·.body))
  | .variable _ => True
  | .block b => Holds ts [b]
  | .statement s => ∃ before used after, ts = before ++ (used ++ after) ∧ Spells s used after

lemma stands_of_member {ts : Phrase} {m : Member} (h : Holds ts m.bodies) {c : Construct}
    (hc : ofMember? m = some c) : Stands ts c := by
  cases m <;> simp only [ofMember?, Option.some.injEq, reduceCtorEq] at hc <;> subst hc
  · exact h
  · trivial
  · exact h
  · exact h

/-- The blocks and the chained `if` of a conditional stand inside of it. -/
lemma stands_of_conditional {ts before used after : Phrase} {c : Conditional} {word : Token}
    (hts : ts = before ++ (word :: used ++ after)) (h : SpellsConditional c word used after)
    (hlexed : ∀ t ∈ ts, t.is "if" → t.isWord ["if"]) :
    ∀ inner ∈ Construct.block c.thenBlock :: ofAlternative c.alternative, Stands ts inner := by
  subst hts
  intro inner hinner
  cases h with
  | @absent _ value body us _ hvalue hbody helse =>
    rcases List.mem_cons.mp hinner with rfl | hmem
    · exact holds_singleton_iff.mpr ⟨before ++ word :: value.tokens, us, after, by simp, hbody⟩
    · simp [Conditional.alternative, ofAlternative] at hmem
  | @block _ other value body last us vs _ hvalue hbody helse hlast =>
    rcases List.mem_cons.mp hinner with rfl | hmem
    · exact holds_singleton_iff.mpr
        ⟨before ++ word :: value.tokens, us, other :: vs ++ after, by simp, hbody⟩
    · obtain rfl := List.mem_singleton.mp hmem
      exact holds_singleton_iff.mpr
        ⟨before ++ word :: (value.tokens ++ (us ++ [other])), vs, after, by simp, hlast⟩
  | @chained _ other word' value body next us vs _ hvalue hbody helse hif hnext =>
    rcases List.mem_cons.mp hinner with rfl | hmem
    · exact holds_singleton_iff.mpr
        ⟨before ++ word :: value.tokens, us, other :: word' :: vs ++ after, by simp, hbody⟩
    · obtain rfl := List.mem_singleton.mp hmem
      refine ⟨before ++ word :: (value.tokens ++ (us ++ [other])), word' :: vs, after, by simp, ?_⟩
      exact .conditional (hlexed word' (by simp) hif) hnext

lemma stands_child {ts : Phrase} (hlexed : ∀ t ∈ ts, t.is "if" → t.isWord ["if"])
    {c inner : Construct} (h : Stands ts c) (hinner : inner ∈ c.children) : Stands ts inner := by
  match c, h, hinner with
  | .module m, h, hinner =>
    obtain ⟨member, hmember, hof⟩ := List.mem_filterMap.mp hinner
    obtain ⟨front, back, heq⟩ := List.append_of_mem hmember
    refine stands_of_member (Holds.sublist h ?_) hof
    rw [heq, List.flatMap_append, List.flatMap_cons]
    exact (List.sublist_append_left _ _).trans (List.sublist_append_right _ _)
  | .function f, h, hinner =>
    obtain rfl := List.mem_singleton.mp hinner
    exact h
  | .service s, h, hinner =>
    obtain ⟨f, hf, rfl⟩ := List.mem_map.mp hinner
    exact Holds.mem h (List.mem_map_of_mem hf)
  | .classDefinition d, h, hinner =>
    obtain ⟨f, hf, rfl⟩ := List.mem_map.mp hinner
    exact Holds.mem h (List.mem_map_of_mem hf)
  | .variable d, _, hinner => simp [children] at hinner
  | .block b, h, hinner =>
    obtain ⟨s, hs, rfl⟩ := List.mem_map.mp hinner
    obtain ⟨before, used, after, rfl, hspells⟩ := holds_singleton_iff.mp h
    cases hspells with
    | @mk brace close list us hbrace hclose hlist =>
      obtain ⟨before', used', after', rfl, hspells'⟩ := hlist.mem hs
      refine ⟨before ++ brace :: before', used', after' ++ close :: after, by simp, ?_⟩
      exact hspells'.quieter (quieter_of_head (by cases after' <;> rfl))
  | .statement s, h, hinner =>
    obtain ⟨before, used, after, hts, hspells⟩ := h
    cases hspells with
    | leaf hleaf => cases hleaf <;> simp [children] at hinner
    | conditional hword hc => exact stands_of_conditional hts hc hlexed inner hinner
    | @loop word value body us _ hword hvalue hbody =>
      obtain rfl := List.mem_singleton.mp hinner
      subst hts
      exact holds_singleton_iff.mpr ⟨before ++ word :: value.tokens, us, after, by simp, hbody⟩

lemma Inside.stands {ts : Phrase} (hlexed : ∀ t ∈ ts, t.is "if" → t.isWord ["if"])
    {outer c : Construct} (h : Inside outer c) (houter : Stands ts outer) : Stands ts c := by
  induction h with
  | refl => exact houter
  | child _ hinner ih => exact stands_child hlexed ih hinner

end Construct

namespace Lexer

/-- What is spelled like a word is one. -/
lemma Starts.isIdentifier {kind : TokenKind} {c : Char} {cs rest : List Char}
    (h : Starts kind (c :: cs) rest) (hc : c.isAlpha) : kind = .identifier := by
  obtain ⟨-, d, ds, heq, hsplit⟩ := h
  obtain ⟨rfl, rfl⟩ := List.cons.inj heq
  have hquote : (c == '"' || c == '\x60') = false := by
    by_contra hne
    rw [Bool.not_eq_false, Bool.or_eq_true, beq_iff_eq, beq_iff_eq] at hne
    rcases hne with rfl | rfl <;> exact absurd hc (by decide)
  have hdigit : c.isDigit = false := by
    simp only [Char.isAlpha, Char.isUpper, Char.isLower, Char.isDigit, Bool.or_eq_true,
      Bool.and_eq_true, decide_eq_true_eq, Bool.and_eq_false_iff, decide_eq_false_iff_not,
      UInt32.le_iff_toNat_le] at hc ⊢
    have h0 : '0'.val.toNat = 48 := rfl
    have h9 : '9'.val.toNat = 57 := rfl
    have hA : 'A'.val.toNat = 65 := rfl
    have ha : 'a'.val.toNat = 97 := rfl
    omega
  have hword : isWordStart c := by simp [isWordStart, hc]
  rw [splitToken, hquote, hdigit, hword] at hsplit
  simp only [Bool.false_eq_true, if_false, if_true, Except.ok.injEq, Prod.mk.injEq] at hsplit
  exact hsplit.1.symm

lemma Scanned.isWord_if {here : Place} {cs rest : List Char} {ts : Phrase}
    (h : Scanned here cs ts rest) : ∀ t ∈ ts, t.is "if" → t.isWord ["if"] := by
  intro t ht hif
  obtain ⟨left, hstart⟩ := h.mem ht
  simp only [Token.is, Bool.and_eq_true, beq_iff_eq] at hif
  rw [hif.2] at hstart
  have hkind : t.kind = .identifier := Starts.isIdentifier hstart (by decide)
  simp [Token.isWord, Token.isIdentifier, hkind, hif.2]

end Lexer

namespace Document

open Lexer Construct

/-- Every construct of a document stands at a stretch of its tokens. -/
theorem parse_stands {path : Path} {text : String} {d : Document} (h : parse path text = .ok d) :
    d.path = path ∧ d.text = text ∧ ∃ ts cs last, tokenize text = .ok ts ∧
      text.toList = cs ++ last ∧ Scanned .origin cs ts last ∧ Final last ∧
      ∀ c, Inside (.module d.tree) c → Stands ts c := by
  unfold parse at h
  cases htree : Parser.parse text with
  | error e => simp [htree, Except.map] at h
  | ok tree =>
    simp only [htree, Except.map, Except.ok.injEq] at h
    subst h
    obtain ⟨ts, htokens, hread⟩ := Parser.bind_eq_ok_iff.mp htree
    obtain ⟨⟨imports, members⟩, hparts, hdone⟩ := Parser.bind_eq_ok_iff.mp hread
    simp only [pure, Except.pure, Except.ok.injEq] at hdone
    subst hdone
    obtain ⟨cs, last, hcs, hscanned, hlast⟩ := scanned_of_tokenize htokens
    refine ⟨rfl, rfl, ts, cs, last, htokens, hcs, hscanned, hlast, fun c hc => ?_⟩
    exact hc.stands hscanned.isWord_if (Parser.holds_of_moduleParts hparts)

/-- The document of a text, and the statement at a range of it. -/
def statementAt? (text : String) (start stop : Position) : Option (Document × Statement) :=
  match parse ⟨"main.bal"⟩ text with
  | .ok d =>
    match d.enclosing start stop with
    | some (.statement s) => some (d, s)
    | _ => none
  | .error _ => none

lemma exists_of_statementAt? {text : String} {start stop : Position}
    {test : Document × Statement → Bool} (h : (statementAt? text start stop).any test = true) :
    ∃ d s, parse ⟨"main.bal"⟩ text = .ok d ∧ Inside (.module d.tree) (.statement s) ∧
      test (d, s) = true := by
  obtain ⟨⟨d, s⟩, hfound, htest⟩ := Option.any_eq_true _ _ |>.mp h
  rw [statementAt?] at hfound
  split at hfound
  · rename_i d' hparse
    split at hfound
    · rename_i s' hat
      obtain ⟨rfl, rfl⟩ := Prod.mk.inj (Option.some.inj hfound)
      exact ⟨_, _, hparse, inside_enclosing hat, htest⟩
    · simp at hfound
  · simp at hfound

end Document

end FlowCanvas
