import FlowCanvas.Proofs.CallNodes
import FlowCanvas.Proofs.Losses

/-!
# Statements that run calls

A statement that runs a call is what leads the call, an optional `check`, the callee, a group of
arguments and a semicolon. The text of its node has the same parts, written from the properties of
the node.
-/

namespace FlowCanvas

namespace Parser

open Lexer Brackets

/-! ### In front of the operand -/

/-- The parts of a phrase without a mark have none either, if brackets match in the first. -/
lemma Free.parts {mark : String} {ts us : Phrase} (h : Free mark (ts ++ us)) (hts : Matched ts) :
    Free mark ts ∧ Free mark us := by
  unfold Free at *
  rw [depthAfter?_append] at h
  obtain ⟨depth, hdepth, hrest⟩ := Option.bind_eq_some_iff.mp h
  obtain rfl : depth = 0 := Option.some.inj ((levelAfter?_of_depthAfter? hdepth).symm.trans hts)
  exact ⟨hdepth, hrest⟩

/-- Whether a declaration is read as one without its annotations: it is final, its type is inferred,
or its type starts and ends like one. -/
def readsAlone (d : Declaration) : Bool :=
  d.isFinal || d.type.isEmpty || (d.type.getLast?.any endsType &&
    !d.type.head?.any fun t => t.isWord expressionWords || leads t)

lemma looksDeclared_append {type : Phrase} {name : Token} (hname : name.isIdentifier) :
    looksDeclared (type ++ [name]) =
      (type.getLast?.any endsType && !type.head?.any (·.isWord expressionWords)) := by
  induction type using List.reverseRecOn with
  | nil => rfl
  | append_singleton type last ih =>
    cases type with
    | nil => simp [looksDeclared, hname]
    | cons first type => simp [looksDeclared, hname, List.getLast?_cons]

/-- What looks like a declaration needs no annotations in front of it to be read as one. -/
lemma readsAlone_of_looks {d : Declaration} {name : Token} (hname : name.isIdentifier)
    (hlooks : looksDeclared (d.type ++ [name])) (hlead : ∀ t ∈ d.type.head?, leads t = false) :
    readsAlone d := by
  rw [looksDeclared_append hname, Bool.and_eq_true] at hlooks
  unfold readsAlone
  cases htype : d.type with
  | nil => simp
  | cons first type =>
    rw [htype] at hlooks hlead
    have hfirst := hlead first rfl
    simp_all

/-- The tokens in front of the operand of a statement. -/
inductive SpellsFront : Statement → Phrase → Prop
  | returned {word : Token} {value : Option Expression} {span : Span}
    (hword : word.isWord ["return"]) : SpellsFront (.exit .return value span) [word]
  | bare {value : Expression} {span : Span} (hlead : leads value.first = false)
    (hvalue : Free "=" value.tokens) : SpellsFront (.expression value span) []
  | declared {name equal : Token} {annotated finals next type : Phrase}
    {names qualifiers : List String} {value : Option Expression} {span : Span}
    (hannotated : names = [] → annotated = []) (hfinals : SpellsFinal finals qualifiers next)
    (hfree : Free ";" (type ++ [name])) (hleft : Free "=" (type ++ [name]))
    (hname : name.isIdentifier) (hequal : equal.is "=")
    (halone : names = [] → readsAlone ⟨names, qualifiers, type, name.text, value, span⟩) :
    SpellsFront (.declaration ⟨names, qualifiers, type, name.text, value, span⟩)
      (annotated ++ (finals ++ (type ++ [name, equal])))

lemma free_operand {type : Phrase} {name equal : Token} {e : Expression}
    (h : Free ";" (type ++ name :: equal :: e.tokens)) (hleft : Free "=" (type ++ [name]))
    (hequal : equal.is "=") : Free ";" (type ++ [name]) ∧ Free ";" e.tokens := by
  have hparts : type ++ name :: equal :: e.tokens = (type ++ [name]) ++ ([equal] ++ e.tokens) := by
    simp
  rw [hparts] at h
  obtain ⟨htyped, hrest⟩ := Free.parts h hleft.matched
  exact ⟨htyped, (Free.parts hrest (matched_mark hequal (by decide))).2⟩

/-- A statement with an operand ends with it and a semicolon. -/
lemma front_of_spells {s : Statement} {used rest : Phrase} {e : Expression}
    (h : Spells s used rest) (he : s.operand? = some e) :
    ∃ front semicolon, used = front ++ (e.tokens ++ [semicolon]) ∧ semicolon.is ";" ∧
      Free ";" e.tokens ∧ SpellsFront s front := by
  cases h with
  | conditional => simp [Statement.operand?] at he
  | loop => simp [Statement.operand?] at he
  | leaf h =>
    cases h with
    | assignment => simp [Statement.operand?] at he
    | jump => simp [Statement.operand?] at he
    | unsupported => simp [Statement.operand?] at he
    | braces => simp [Statement.operand?] at he
    | expression hlead hbody hsemicolon hvalue hlooks =>
      obtain rfl := Option.some.inj he
      exact ⟨[], _, rfl, hsemicolon, hbody, .bare hlead hvalue⟩
    | @exit kind word semicolon value _ hword hbody hsemicolon hpanic =>
      cases kind with
      | «return» =>
        obtain rfl : value = some e := he
        exact ⟨[word], semicolon, rfl, hsemicolon, hbody, .returned hword⟩
      | fail => simp [Statement.operand?] at he
      | panic => simp [Statement.operand?] at he
    | @declaration start name semicolon body type _ value hstart hlead hbody hsemicolon hdeclared
        hlooks =>
      obtain rfl : value = some e := he
      cases hdeclared with
      | @valued _ _ equal _ hleft hname hequal =>
        obtain ⟨htyped, hvalue⟩ := free_operand hbody hleft hequal
        refine ⟨[] ++ ([] ++ (type ++ [name, equal])), semicolon, by simp, hsemicolon, hvalue,
          .declared (fun _ => rfl) (@SpellsFinal.absent [] rfl) htyped hleft hname hequal
            fun _ => readsAlone_of_looks hname hlooks fun t ht => ?_⟩
        obtain ⟨tail, rfl⟩ := List.head?_eq_some_iff.mp ht
        obtain rfl : t = start := by simpa using hstart
        exact hlead
    | @marked start name semicolon annotated finals body type _ names qualifiers value hstart
        hlead hannotated hfinals hbody hsemicolon hdeclared =>
      obtain rfl : value = some e := he
      have hempty : names = [] → annotated = [] := by
        intro hnames
        obtain ⟨used, heq, hused, -⟩ := annotations_spec hannotated
        rw [List.append_cancel_right heq]
        exact hused hnames
      cases hdeclared with
      | @valued _ _ equal _ hleft hname hequal =>
        obtain ⟨htyped, hvalue⟩ := free_operand hbody hleft hequal
        refine ⟨annotated ++ (finals ++ (type ++ [name, equal])), semicolon, by simp, hsemicolon,
          hvalue, .declared hempty hfinals htyped hleft hname hequal fun hnames => ?_⟩
        rw [hempty hnames, List.nil_append] at hstart
        cases hfinals with
        | absent => simp at hstart
        | present => rfl

lemma SpellsFront.readsAlone {s : Statement} {front : Phrase} (h : SpellsFront s front) :
    ∀ d ∈ s.declaration?, d.annotations = [] → readsAlone d := by
  intro d hd
  cases h with
  | returned => simp [Statement.declaration?] at hd
  | bare => simp [Statement.declaration?] at hd
  | declared _ _ _ _ _ _ halone =>
    obtain rfl := Option.some.inj hd
    exact halone

/-! ### The call itself -/

/-- What stands in the parentheses of the call that a statement runs. -/
def group? (s : Statement) : Option Phrase :=
  s.operand?.bind fun e => (splitLastGroup? e.unwrapCheck.1.tokens).map Prod.snd

/-- A statement that runs a call, taken apart: what stands in front of the operand, a `check`, the
callee, the group of arguments and the semicolon. -/
structure Takes (s : Statement) (used front marks phrase inner : Phrase) (callee : Callee)
    (checked : Bool) : Prop where
  tokens : ∃ first last semicolon,
    used = front ++ (marks ++ (phrase ++ first :: (inner ++ [last])) ++ [semicolon]) ∧
      first.isOpener ∧ first.is "(" ∧ last.is ")" ∧ semicolon.is ";"
  operand : ∀ e ∈ s.operand?, marks <+: e.tokens
  group : group? s = some inner
  spellsFront : SpellsFront s front
  spellsCheck : SpellsCheck marks checked
  spellsCallee : SpellsCallee callee phrase
  matched : Matched inner
  free : Free ";" phrase
  head : ∀ t ∈ phrase.head?, t.isWord nonCallWords = false
  bare : front = [] → Free "=" phrase ∧ (marks = [] → ∀ t ∈ phrase.head?, leads t = false)

lemma matched_of_check {marks : Phrase} {checked : Bool} (h : SpellsCheck marks checked) :
    Matched marks := by
  cases h with
  | absent => exact .nil
  | present h => exact matched_of_isWord h

lemma matched_of_isPath {client : Phrase} (h : Shape.isPath client) : Matched client := by
  fun_induction Shape.isPath client with
  | case1 => simp at h
  | case2 t => exact matched_identifier h
  | case3 t u ts ih =>
    simp only [Bool.and_eq_true] at h
    exact (matched_identifier h.1.1).append
      ((matched_mark h.1.2 (by decide)).append (ih h.2))

lemma SpellsCallee.matched {callee : Callee} {phrase : Phrase} (h : SpellsCallee callee phrase) :
    Matched phrase := by
  cases h with
  | plain h => exact matched_identifier h
  | qualified hqualifier hcolon h =>
    exact (matched_identifier hqualifier).append
      ((matched_mark hcolon (by decide)).append (matched_identifier h))
  | action hclient harrow h =>
    exact (matched_of_isPath hclient).append
      ((matched_mark harrow (by decide)).append (matched_identifier h))

lemma SpellsCallee.ne_nil {callee : Callee} {phrase : Phrase} (h : SpellsCallee callee phrase) :
    phrase ≠ [] := by
  cases h <;> simp

/-- An operand that runs a call, taken apart: a `check`, the callee and the group of arguments. -/
structure TakesCall (e : Expression) (marks phrase inner : Phrase) (callee : Callee)
    (checked : Bool) : Prop where
  tokens : ∃ first last, e.tokens = marks ++ (phrase ++ first :: (inner ++ [last])) ∧
    first.isOpener ∧ first.is "(" ∧ last.is ")"
  unwrap : e.unwrapCheck.2 = checked
  group : (splitLastGroup? e.unwrapCheck.1.tokens).map Prod.snd = some inner
  spellsCheck : SpellsCheck marks checked
  spellsCallee : SpellsCallee callee phrase
  matched : Matched inner
  head : ∀ t ∈ phrase.head?, t.isWord nonCallWords = false

/-- An operand that runs a call can be taken apart. -/
lemma takesCall_of_called {e : Expression} {callee : Callee} {arguments : List Argument}
    (h : (Analysis.checkedShape e).called? = some (callee, arguments)) :
    ∃ marks phrase inner checked, TakesCall e marks phrase inner callee checked ∧
      arguments = Argument.listOf inner := by
  obtain ⟨marks, checked, call, hmarks, htokens, hunwrap, hcall⟩ :=
    checkedShape_called?_eq_iff.mp h
  obtain ⟨hword, inner, hspells, hlist⟩ := shape_called?_eq_iff.mp hcall
  generalize hts : call.tokens = ts at hspells htokens
  cases hspells with
  | @mk phrase first last hcallee hopen hparen hinner hclose =>
    have hsplit : splitLastGroup? call.tokens = some (phrase, inner) :=
      splitLastGroup?_eq_some_iff.mpr ⟨first, last, hts, hopen, hparen, hclose, hinner⟩
    refine ⟨marks, phrase, inner, checked, ⟨⟨first, last, htokens, hopen, hparen, hclose⟩,
      by rw [hunwrap], by rw [hunwrap, hsplit]; rfl, hmarks, hcallee, hinner, fun t ht => ?_⟩,
      hlist⟩
    obtain ⟨tail, rfl⟩ := List.head?_eq_some_iff.mp ht
    exact (List.cons.inj hts).1 ▸ hword

/-- What is free of a mark has a callee that is free of it. -/
lemma TakesCall.free {e : Expression} {marks phrase inner : Phrase} {callee : Callee}
    {checked : Bool} (h : TakesCall e marks phrase inner callee checked) {mark : String}
    (he : Free mark e.tokens) : Free mark phrase := by
  obtain ⟨first, last, htokens, -⟩ := h.tokens
  rw [htokens] at he
  exact (Free.parts (Free.parts he (matched_of_check h.spellsCheck)).2 h.spellsCallee.matched).1

/-- A statement that runs a call can be taken apart. -/
lemma takes_of_spells {s : Statement} {used rest : Phrase} {callee : Callee}
    {arguments : List Argument} (h : Spells s used rest)
    (hcalled : s.called? = some (callee, arguments)) :
    ∃ e front marks phrase inner checked, s.operand? = some e ∧ e.unwrapCheck.2 = checked ∧
      Takes s used front marks phrase inner callee checked ∧
      arguments = Argument.listOf inner := by
  obtain ⟨e, he, hshape⟩ := Option.bind_eq_some_iff.mp hcalled
  obtain ⟨marks, phrase, inner, checked, hcall, hlist⟩ := takesCall_of_called hshape
  obtain ⟨front, semicolon, hused, hsemicolon, hfree, hfront⟩ := front_of_spells h he
  obtain ⟨first, last, htokens, hopen, hparen, hclose⟩ := hcall.tokens
  refine ⟨e, front, marks, phrase, inner, checked, he, hcall.unwrap, ?_, hlist⟩
  have hoperand : ∀ e' ∈ s.operand?, marks <+: e'.tokens := by
    intro e' he'
    obtain rfl := Option.some.inj (he.symm.trans he')
    exact ⟨_, htokens.symm⟩
  refine ⟨⟨first, last, semicolon, htokens ▸ hused, hopen, hparen, hclose, hsemicolon⟩, hoperand,
    by rw [group?, he, Option.bind_some, hcall.group], hfront, hcall.spellsCheck,
    hcall.spellsCallee, hcall.matched, hcall.free hfree, hcall.head, fun hnil => ?_⟩
  cases hfront with
  | returned => simp at hnil
  | declared => simp at hnil
  | bare hlead hvalue =>
    obtain rfl := Option.some.inj he
    refine ⟨hcall.free hvalue, fun hnone t ht => ?_⟩
    obtain ⟨tail, rfl⟩ := List.head?_eq_some_iff.mp ht
    rw [hnone, List.nil_append] at htokens
    rw [← (List.cons.inj htokens).1]
    exact hlead

lemma unwrapCheck_suffix (e : Expression) : e.unwrapCheck.1.tokens <:+ e.tokens := by
  unfold Expression.unwrapCheck
  split
  · rename_i panics inner hshape
    rw [(tokens_of_check hshape).2]
    exact List.suffix_cons _ _
  · exact List.suffix_refl _

/-- The names of a callee. -/
def calleeNames : Callee → List String
  | .function qualifier name => name :: qualifier.toList
  | .action _ method => [method]

lemma isName_of_isIdentifier {t : Token} (h : t.isIdentifier) (hsource : Sourced [t]) :
    IsName t.text := by
  have htoken := hsource.token
  rwa [beq_iff_eq.mp h] at htoken

lemma SpellsCallee.lexemes {callee : Callee} {phrase : Phrase} (h : SpellsCallee callee phrase)
    (hlexed : ∀ t ∈ phrase, t.Lexed) : phrase.lexemes = callee.lexemes := by
  cases h with
  | plain h => simp [Callee.lexemes, beq_iff_eq.mp h]
  | @qualified qualifier colon method hqualifier hcolon h =>
    have hmark := (hlexed colon (by simp)).mark hcolon (by decide)
    simp [Callee.lexemes, beq_iff_eq.mp h, beq_iff_eq.mp hqualifier, hmark]
  | @action client arrow method hclient harrow h =>
    have hmark := (hlexed arrow (by simp)).mark harrow (by decide)
    simp [Callee.lexemes, beq_iff_eq.mp h, hmark]

/-- The tokens of a callee of a source. -/
lemma SpellsCallee.sourced {callee : Callee} {phrase : Phrase} (h : SpellsCallee callee phrase)
    (hsource : Sourced phrase) :
    phrase.lexemes = callee.lexemes ∧ ∀ name ∈ calleeNames callee, IsName name := by
  refine ⟨h.lexemes fun t ht => hsource.lexed ht, ?_⟩
  cases h with
  | @plain method h =>
    have hmethod := isName_of_isIdentifier h hsource
    simpa [calleeNames] using hmethod
  | @qualified qualifier colon method hqualifier hcolon h =>
    have hmethod := isName_of_isIdentifier h (@Sourced.right [qualifier, colon] _ hsource)
    have hname := isName_of_isIdentifier hqualifier (@Sourced.left [qualifier] _ hsource)
    simpa [calleeNames] using And.intro hmethod hname
  | @action client arrow method hclient harrow h =>
    have hmethod := isName_of_isIdentifier h (@Sourced.right [arrow] _ hsource.right)
    simpa [calleeNames] using hmethod

/-- The arguments of an operand of a source are known from its tokens. -/
lemma TakesCall.sourced {e : Expression} {marks phrase inner : Phrase} {callee : Callee}
    {checked : Bool} (h : TakesCall e marks phrase inner callee checked)
    (hsource : Sourced e.tokens) :
    Sourced phrase ∧ ∀ a ∈ Argument.listOf inner, a.Sound := by
  obtain ⟨first, last, htokens, -⟩ := h.tokens
  rw [htokens] at hsource
  have hinner : Sourced inner := Sourced.left (@Sourced.right [first] _ hsource.right.right)
  exact ⟨hsource.right.left, fun a ha => Argument.sound_of_mem_listOf h.matched hinner ha⟩

/-- A declaration in front of an operand is known from its tokens. -/
lemma SpellsFront.sound {s : Statement} {front : Phrase} (h : SpellsFront s front)
    (hsource : Sourced front) : ∀ d ∈ s.declaration?, d.Sound := by
  intro d hd
  cases h with
  | returned => simp [Statement.declaration?] at hd
  | bare => simp [Statement.declaration?] at hd
  | @declared name equal annotated finals next type names qualifiers value span hannotated hfinals
      hfree hleft hname hequal halone =>
    obtain rfl := Option.some.inj hd
    have htyped : Sourced (type ++ [name, equal]) := hsource.right.right
    exact ⟨isName_of_isIdentifier hname (@Sourced.left [name] _ htyped.right),
      fun hne => htyped.left.legible hne⟩

end Parser

namespace Analysis

open Lexer FlowCanvas.Parser

/-! ### The node of a call -/

/-- What is written for the node of a statement that runs a call. Without structural arguments the
callee and what leads it are the ones of the statement. -/
structure Written (c : Context) (n : FlowNode) (site : Site) (callee : Callee)
    (arguments : List Argument) : Prop where
  free : n.properties.free = (Build.argumentBag c n arguments).free
  perm : (Write.argumentProperties n).Perm
    (Build.given (Build.consultedTemplate c n) (Build.declaredNames c n) arguments)
  writable : ∀ p ∈ Write.argumentProperties n, Write.Writable p
  reads : ∃ ls, Write.ReadsAs n ls ∧
    ((∀ slot ∈ Build.slots (Build.consultedTemplate c n) (Build.declaredNames c n) arguments,
      slot.key ∉ Property.structuralKeys) →
        ls = callee.lexemes ∧ Write.leadLexemes n = Build.siteLead site)

section Nodes

variable {c : Context} {n : FlowNode} {site : Site} {arguments : List Argument}

lemma written_functionCall {qualifier : Option String} {name : String}
    (hkind : n.kind = .functionCall) (hnode : Build.functionCall c site = .ok n)
    (hshape : site.shape? = some (.call qualifier name arguments))
    (hisName : ∀ text ∈ calleeNames (.function qualifier name), IsName text)
    (hsound : ∀ a ∈ arguments, a.Sound) (hdeclared : ∀ d ∈ site.declaration, d.Sound)
    (hnames : ∀ p ∈ (Build.parameters (Build.consultedTemplate c n)).entries,
      p.optional → IsName p.key) :
    Written c n site (.function qualifier name) arguments := by
  obtain ⟨hholds, hsymbol, hqualifier⟩ := Build.holds_functionCall hnode hshape
  have hnone : ∀ p ∈ ([] : List Property), p.isStructural := by simp
  have hwritable := hholds.writable hnone hsound hnames
  refine ⟨hholds.free hnone, hholds.arguments_perm hnone, hwritable,
    (Callee.function qualifier name).lexemes, ?_, fun hslots => ⟨rfl, ?_⟩⟩
  · refine Write.readsAs_functionCall hkind hsymbol hqualifier (fun q hq => hisName q ?_)
      (hisName name (by simp [calleeNames])) (hholds.led (by simp) hsound hdeclared) hwritable
    rw [Option.mem_def.mp hq]
    simp [calleeNames]
  · exact hholds.leadLexemes hdeclared (by simp) fun p hp =>
      Build.not_structural_of_slots (Build.blank_of_sound hsound) hslots hp

lemma written_actionCall {client : Phrase} {method : String} (hkind : n.kind = .actionCall)
    (hnode : Build.actionCall c site = .ok n)
    (hshape : site.shape? = some (.remote client method arguments)) (hmethod : IsName method)
    (hclient : Legible client.text.toList client.lexemes) (hsound : ∀ a ∈ arguments, a.Sound)
    (hdeclared : ∀ d ∈ site.declaration, d.Sound)
    (hnames : ∀ p ∈ (Build.parameters (Build.consultedTemplate c n)).entries,
      p.optional → IsName p.key) :
    Written c n site (.action client.lexemes method) arguments := by
  obtain ⟨hholds, hsymbol⟩ := Build.holds_actionCall hnode hshape
  have hlead : ∀ p ∈ [Property.ofConnection client.text], p.isStructural := by
    intro p hp
    obtain rfl := List.mem_singleton.mp hp
    rfl
  have hreadable : ∀ p ∈ [Property.ofConnection client.text], Build.Readable p := by
    intro p hp
    obtain rfl := List.mem_singleton.mp hp
    exact .of_legible hclient
  have hwritable := hholds.writable hlead hsound hnames
  obtain ⟨p, hget, hblank, hp⟩ := hholds.connection hclient.trimmed.blank hsound
  have hlegible : Legible p.sourceText.toList (lexemesOf p.sourceText) := by
    refine Or.resolve_left ?_ (show ¬p.isBlank by simp [hblank])
    rcases hp with rfl | hmem
    · exact hreadable _ (by simp)
    · exact Build.readable_argument hsound hmem
  refine ⟨hholds.free hlead, hholds.arguments_perm hlead, hwritable, _,
    Write.readsAs_actionCall hkind hsymbol hget hblank hlegible hmethod
      (hholds.led hreadable hsound hdeclared) hwritable, fun hslots => ?_⟩
  have hbag : ∀ q ∈ (Build.argumentBag c n arguments).entries, q.isStructural = false :=
    fun q hq => Build.not_structural_of_slots (Build.blank_of_sound hsound) hslots hq
  have hkeys : ∀ p ∈ [Property.ofConnection client.text], p.key ≠ "variable" := by
    intro p hp
    obtain rfl := List.mem_singleton.mp hp
    exact show "connection" ≠ "variable" by decide
  refine ⟨?_, hholds.leadLexemes hdeclared hkeys hbag⟩
  rcases hp with rfl | hmem
  · rw [show lexemesOf (Property.ofConnection client.text).sourceText = client.lexemes from
      hclient.lexemesOf]
  · have hkey := (PropertyBag.get?_eq_some_iff.mp hget).2
    have hfree := hbag p hmem
    rw [Property.isStructural, hkey] at hfree
    exact absurd hfree (by decide)

end Nodes

/-- What is known of the call at a site from the tokens of its statement. -/
structure Sited (s : Statement) (site : Site) (used front marks phrase inner : Phrase)
    (callee : Callee) (arguments : List Argument) : Prop where
  called : s.called? = some (callee, arguments)
  takes : Takes s used front marks phrase inner callee site.checked
  arguments_eq : arguments = Argument.listOf inner
  sound : ∀ a ∈ arguments, a.Sound
  declared : ∀ d ∈ s.declaration?, d.Sound
  sourced : Sourced phrase
  returning : site.returning = s.isReturn
  declaration : site.declaration = s.declaration?
  unwrap : ∀ e ∈ s.operand?, e.unwrapCheck.2 = site.checked

lemma sited_of_callSite {s : Statement} {e : Expression} {site : Site} {used rest : Phrase}
    {callee : Callee} {arguments : List Argument} (hspells : Spells s used rest)
    (hsource : Sourced used) (hsite : CallSite s e site)
    (hcalled : (checkedShape e).called? = some (callee, arguments)) :
    ∃ front marks phrase inner, Sited s site used front marks phrase inner callee arguments := by
  have hs : s.called? = some (callee, arguments) := by
    simp [Statement.called?, hsite.operand, hcalled]
  obtain ⟨e', front, marks, phrase, inner, checked, he', hchecked, htakes, hlist⟩ :=
    takes_of_spells hspells hs
  obtain rfl : e = e' := Option.some.inj (hsite.operand.symm.trans he')
  obtain rfl : site.checked = checked := hsite.checked.trans hchecked
  obtain ⟨first, last, semicolon, rfl, -⟩ := htakes.tokens
  have hcall : Sourced (phrase ++ first :: (inner ++ [last])) := hsource.right.left.right
  have hinner : Sourced inner := Sourced.left (@Sourced.right [first] _ hcall.right)
  refine ⟨front, marks, phrase, inner, hs, htakes, hlist, fun a ha => ?_,
    htakes.spellsFront.sound hsource.left, hcall.left, hsite.returning, hsite.declaration,
    fun e' he' => Option.some.inj (he'.symm.trans hsite.operand) ▸ hchecked⟩
  exact Argument.sound_of_mem_listOf htakes.matched hinner (hlist ▸ ha)

/-- The node of a call at a site is written from what its operand is made of. -/
lemma written_of_callSite {c : Context} {s : Statement} {e : Expression} {n : FlowNode}
    {site : Site} (hsite : CallSite s e site) (hnode : Build.node n.kind c site = .ok n)
    (hkind : n.kind ∈ callKinds) (hsource : Sourced e.tokens)
    (hdeclared : ∀ d ∈ s.declaration?, d.Sound)
    (hnames : ∀ p ∈ (Build.parameters (Build.consultedTemplate c n)).entries,
      p.optional → IsName p.key) :
    ∃ callee arguments, (checkedShape e).called? = some (callee, arguments) ∧
      Written c n site callee arguments := by
  rw [← hsite.declaration] at hdeclared
  rcases List.mem_cons.mp hkind with hfunction | haction
  · rw [hfunction] at hnode
    obtain ⟨qualifier, name, arguments, hshape⟩ :
        ∃ qualifier name arguments, checkedShape e = .call qualifier name arguments := by
      simp only [Build.node, Build.functionCall, hsite.shape] at hnode
      cases hshape : checkedShape e <;> simp [hshape] at hnode ⊢
    have hcalled : (checkedShape e).called? = some (.function qualifier name, arguments) := by
      rw [hshape]
      rfl
    obtain ⟨marks, phrase, inner, checked, htakes, rfl⟩ := takesCall_of_called hcalled
    obtain ⟨hphrase, hsound⟩ := htakes.sourced hsource
    exact ⟨_, _, hcalled, written_functionCall hfunction hnode
      (hsite.shape.trans (congrArg some hshape)) (htakes.spellsCallee.sourced hphrase).2 hsound
      hdeclared hnames⟩
  · have hkind' : n.kind = .actionCall := by simpa using haction
    rw [hkind'] at hnode
    obtain ⟨client, method, arguments, hshape⟩ :
        ∃ client method arguments, checkedShape e = .remote client method arguments := by
      simp only [Build.node, Build.actionCall, hsite.shape] at hnode
      cases hshape : checkedShape e <;> simp [hshape] at hnode ⊢
    have hcalled : (checkedShape e).called? =
        some (.action client.lexemes method, arguments) := by
      rw [hshape]
      rfl
    obtain ⟨marks, phrase, inner, checked, htakes, rfl⟩ := takesCall_of_called hcalled
    obtain ⟨hphrase, hsound⟩ := htakes.sourced hsource
    obtain ⟨hbefore, hne⟩ := client_prefix hshape
    have hclient : Legible client.text.toList client.lexemes :=
      (Argument.Sourced.within hsource
        (hbefore.isInfix.trans (unwrapCheck_suffix e).isInfix)).legible hne
    exact ⟨_, _, hcalled, written_actionCall hkind' hnode (hsite.shape.trans (congrArg some hshape))
      ((htakes.spellsCallee.sourced hphrase).2 method (by simp [calleeNames])) hclient hsound
      hdeclared hnames⟩

/-- The node of a statement that runs a call is written from what the statement is made of. -/
lemma written_of_statement {c : Context} {s : Statement} {n : FlowNode} {used rest : Phrase}
    (hspells : Spells s used rest) (hsource : Sourced used)
    (hn : statement .standard c s = some n) (hkind : n.kind ∈ callKinds)
    (hnames : ∀ p ∈ (Build.parameters (Build.consultedTemplate c n)).entries,
      p.optional → IsName p.key) :
    ∃ site callee arguments front marks phrase inner,
      Sited s site used front marks phrase inner callee arguments ∧
      Written c n site callee arguments := by
  obtain ⟨e, site, hsite, hnode⟩ := callSite_of_statement hn (List.mem_cons_of_mem _ hkind)
  obtain ⟨front, semicolon, rfl, -, -, hfront⟩ := front_of_spells hspells hsite.operand
  obtain ⟨callee, arguments, hcalled, hwritten⟩ := written_of_callSite hsite hnode hkind
    hsource.right.left (hfront.sound hsource.left) hnames
  obtain ⟨front', marks, phrase, inner, hsited⟩ := sited_of_callSite hspells hsource hsite hcalled
  exact ⟨site, callee, arguments, front', marks, phrase, inner, hsited, hwritten⟩

end Analysis

end FlowCanvas
