import FlowCanvas.Proofs.Framing

/-!
# Other bodies for the functions of a member

The tokens of a member are those of its bodies and the ones around them. `Tracks` says that a
member is read alike, up to positions, when its bodies are exchanged for others and the tokens
around them for copies.
-/

namespace FlowCanvas.Parser

open Brackets

/-! ### Parts -/

/-- A stretch of the tokens of a member: the body of a function, or tokens between bodies. -/
inductive Part where
  | plain (ts : Phrase)
  | body (b : Block) (ts : Phrase) (h : SpellsBlock b ts)

namespace Part

def tokens : Part → Phrase
  | plain ts => ts
  | body _ ts _ => ts

def bodies : Part → List Block
  | plain _ => []
  | body b _ _ => [b]

end Part

def tokensOf (parts : List Part) : Phrase := parts.flatMap Part.tokens

def bodiesOf (parts : List Part) : List Block := parts.flatMap Part.bodies

@[simp]
lemma tokensOf_nil : tokensOf [] = [] := rfl

@[simp]
lemma tokensOf_cons (p : Part) (parts : List Part) :
    tokensOf (p :: parts) = p.tokens ++ tokensOf parts := rfl

@[simp]
lemma tokensOf_append (parts parts' : List Part) :
    tokensOf (parts ++ parts') = tokensOf parts ++ tokensOf parts' := List.flatMap_append

@[simp]
lemma bodiesOf_nil : bodiesOf [] = [] := rfl

@[simp]
lemma bodiesOf_cons (p : Part) (parts : List Part) :
    bodiesOf (p :: parts) = p.bodies ++ bodiesOf parts := rfl

@[simp]
lemma bodiesOf_append (parts parts' : List Part) :
    bodiesOf (parts ++ parts') = bodiesOf parts ++ bodiesOf parts' := List.flatMap_append

/-- A copy of the tokens between bodies, or any body that starts alike. -/
inductive Recast : Part → Part → Prop
  | plain {ts us : Phrase} (h : ts.Copy us) : Recast (.plain ts) (.plain us)
  | body {b b' : Block} {ts us : Phrase} (h : SpellsBlock b ts) (h' : SpellsBlock b' us)
    (hlike : Like ts us) : Recast (.body b ts h) (.body b' us h')

lemma Recast.like {p p' : Part} (h : Recast p p') {ts us : Phrase} (hlike : Like ts us) :
    Like (p.tokens ++ ts) (p'.tokens ++ us) := by
  cases h with
  | plain hcopy => exact hlike.append hcopy
  | body hb hb' hheads =>
    cases hb with
    | mk =>
      obtain ⟨u, vs, rfl, hsame⟩ := hheads.cons_left
      exact like_cons hsame _ _

lemma like_of_recasts {parts parts' : List Part} (h : List.Forall₂ Recast parts parts')
    {ts us : Phrase} (hlike : Like ts us) :
    Like (tokensOf parts ++ ts) (tokensOf parts' ++ us) := by
  induction h with
  | nil => exact hlike
  | cons hp _ ih =>
    rw [tokensOf_cons, tokensOf_cons, List.append_assoc, List.append_assoc]
    exact hp.like ih

/-- What follows the tokens of recast parts does not matter to how they start. -/
lemma like_of_recasts_of_ne_nil {parts parts' : List Part}
    (h : List.Forall₂ Recast parts parts') (hne : tokensOf parts ≠ []) (ts us : Phrase) :
    Like (tokensOf parts ++ ts) (tokensOf parts' ++ us) := by
  have hheads := like_of_recasts h (Like.refl [])
  rw [List.append_nil, List.append_nil] at hheads
  obtain ⟨v, vs, hvs⟩ := List.exists_cons_of_ne_nil hne
  rw [hvs] at hheads ⊢
  obtain ⟨u, us', hus, hsame⟩ := hheads.cons_left
  rw [hus]
  exact like_cons hsame _ _

lemma recasts_append_left {parts others parts' : List Part}
    (h : List.Forall₂ Recast (parts ++ others) parts') :
    ∃ front back, parts' = front ++ back ∧ List.Forall₂ Recast parts front ∧
      List.Forall₂ Recast others back := by
  induction parts generalizing parts' with
  | nil => exact ⟨[], parts', rfl, .nil, h⟩
  | cons p parts ih =>
    cases h with
    | cons hp hrest =>
      obtain ⟨front, back, rfl, hfront, hback⟩ := ih hrest
      exact ⟨_ :: front, back, rfl, .cons hp hfront, hback⟩

/-! ### What is read again -/

variable {W V : Phrase → Phrase → Prop} {again : Phrase → Phrase → List Block → Prop}

/-- The tokens from `ts` up to `rest` have the bodies `bs`. `again` holds of the tokens from any
recast of them up to a rest that `W` relates to `rest`, with the bodies of the recast. -/
def Tracks (W : Phrase → Phrase → Prop) (ts rest : Phrase) (bs : List Block)
    (again : Phrase → Phrase → List Block → Prop) : Prop :=
  ∃ parts, ts = tokensOf parts ++ rest ∧ tokensOf parts ≠ [] ∧ bodiesOf parts = bs ∧
    ∀ ⦃parts' rest'⦄, List.Forall₂ Recast parts parts' → W rest rest' →
      again (tokensOf parts' ++ rest') rest' (bodiesOf parts')

namespace Tracks

variable {ts mid rest : Phrase} {bs cs : List Block}

lemma imp {again' : Phrase → Phrase → List Block → Prop} (h : Tracks W ts rest bs again)
    (himp : ∀ us rest' bs', Like ts us → again us rest' bs' → again' us rest' bs') :
    Tracks W ts rest bs again' := by
  obtain ⟨parts, rfl, hne, hbs, hall⟩ := h
  exact ⟨parts, rfl, hne, hbs, fun parts' rest' hrecast hrest =>
    himp _ _ _ (like_of_recasts_of_ne_nil hrecast hne _ _) (hall hrecast hrest)⟩

lemma weaken (h : Tracks W ts rest bs again) (hW : ∀ {ts us}, V ts us → W ts us) :
    Tracks V ts rest bs again := by
  obtain ⟨parts, rfl, hne, hbs, hall⟩ := h
  exact ⟨parts, rfl, hne, hbs, fun parts' rest' hrecast hrest => hall hrecast (hW hrest)⟩

/-- What follows the recast is known to be related. -/
lemma keep (h : Tracks W ts rest bs again) :
    Tracks W ts rest bs fun us rest' bs' => W rest rest' ∧ again us rest' bs' := by
  obtain ⟨parts, rfl, hne, hbs, hall⟩ := h
  exact ⟨parts, rfl, hne, hbs, fun parts' rest' hrecast hrest => ⟨hrest, hall hrecast hrest⟩⟩

/-- Tokens in front are copied. -/
lemma front (h : Tracks W ts rest bs again) (used : Phrase) :
    Tracks W (used ++ ts) rest bs fun us rest' bs' =>
      ∃ used' us', us = used' ++ us' ∧ used.Copy used' ∧ Like ts us' ∧ again us' rest' bs' := by
  obtain ⟨parts, rfl, hne, hbs, hall⟩ := h
  refine ⟨.plain used :: parts, by simp [Part.tokens], by simp [hne], hbs, ?_⟩
  intro parts' rest' hrecast hrest
  cases hrecast with
  | cons hp hparts =>
    cases hp with
    | plain hcopy =>
      refine ⟨_, _, ?_, hcopy, like_of_recasts_of_ne_nil hparts hne rest rest', ?_⟩
      · rw [tokensOf_cons, List.append_assoc]
        rfl
      · exact hall hparts hrest

/-- What a reader of plain tokens takes in front is read again. -/
lemma frame {α γ : Type} {look : α → γ} {read : Reader α} {x : α}
    (hread : Frames Like Like look read read) (hx : read ts = .ok (x, mid))
    (h : Tracks W mid rest bs again) :
    Tracks W ts rest bs fun us rest' bs' =>
      ∃ x' mid', read us = .ok (x', mid') ∧ look x' = look x ∧ again mid' rest' bs' := by
  obtain ⟨used, rfl, hframe⟩ := hread hx
  refine (h.front used).imp ?_
  rintro us rest' bs' - ⟨used', us', rfl, hcopy, hlike, hagain⟩
  obtain ⟨-, x', hx', hlook⟩ := hframe hcopy hlike
  exact ⟨x', us', hx', hlook, hagain⟩

/-- One stretch behind another. -/
lemma trans {again' : Phrase → Phrase → List Block → Prop} (h : Tracks V ts mid bs again)
    (h' : Tracks W mid rest cs again') (hV : ∀ {ts us}, Like ts us → V ts us) :
    Tracks W ts rest (bs ++ cs) fun us rest' ds =>
      ∃ mid' bs' cs', ds = bs' ++ cs' ∧ again us mid' bs' ∧ again' mid' rest' cs' := by
  obtain ⟨parts, rfl, hne, rfl, hall⟩ := h
  obtain ⟨others, rfl, hne', rfl, hall'⟩ := h'
  refine ⟨parts ++ others, by simp, by simp [hne], by simp, fun parts' rest' hrecast hrest => ?_⟩
  obtain ⟨front, back, rfl, hfront, hback⟩ := recasts_append_left hrecast
  have hmid := like_of_recasts_of_ne_nil hback hne' rest rest'
  refine ⟨_, _, _, bodiesOf_append front back, ?_, hall' hback hrest⟩
  have hagain := hall hfront (hV hmid)
  rwa [← List.append_assoc, ← tokensOf_append] at hagain

end Tracks

lemma tracks_plain {used : Phrase} (hne : used ≠ []) (W : Phrase → Phrase → Prop) (rest : Phrase) :
    Tracks W (used ++ rest) rest [] fun us rest' bs' =>
      bs' = [] ∧ ∃ used', us = used' ++ rest' ∧ used.Copy used' ∧ W rest rest' := by
  refine ⟨[.plain used], by simp [Part.tokens], by simpa [Part.tokens] using hne, rfl, ?_⟩
  intro parts' rest' hrecast hrest
  cases hrecast with
  | cons hp hparts =>
    cases hp
    cases hparts
    rename_i hcopy
    exact ⟨rfl, _, by simp [Part.tokens], hcopy, hrest⟩

lemma tracks_block {ts rest : Phrase} {b : Block} (h : block ts = .ok (b, rest)) :
    Tracks Any ts rest [b] fun us rest' bs' =>
      ∃ b', bs' = [b'] ∧ sees "\x7b" us ∧ block us = .ok (b', rest') := by
  obtain ⟨used, rfl, hb⟩ := readsBlocks_block h
  have hne : used ≠ [] := by
    cases hb
    simp
  refine ⟨[.body b used hb], by simp [Part.tokens], by simpa [Part.tokens] using hne, rfl, ?_⟩
  intro parts' rest' hrecast _
  cases hrecast with
  | cons hp hparts =>
    cases hparts
    cases hp with
    | @body _ b' _ us _ h' _ =>
      refine ⟨b', rfl, ?_, ?_⟩
      · simpa [Part.tokens] using h'.sees rest'
      · simpa [Part.tokens] using acceptsBlocks_block us.length h' le_rfl rest'

/-! ### Functions -/

lemma tracks_functionDefinition {start : Token} {words : List String} {ts rest : Phrase}
    {f : FunctionDefinition} (h : functionDefinition start words ts = .ok (f, rest)) :
    Tracks Any ts rest [f.body] fun us rest' bs' => ∀ start', ∃ f',
      functionDefinition start' words us = .ok (f', rest') ∧ bs' = [f'.body] ∧
        f'.skeleton = f.skeleton := by
  obtain ⟨name, after1, list, after2, returns, after3, body, hname, hlist, hreturns, -, hbody,
    rfl⟩ := functionDefinition_eq_ok_iff.mp h
  have htracks := (((tracks_block hbody).frame frames_returnType hreturns).frame
    (frames_parameters Like) hlist).frame (frames_functionName words) hname
  refine htracks.imp ?_
  rintro us rest' bs' - ⟨name', us1, hname', hlook, list', us2, hlist', hlook', returns', us3,
    hreturns', hlook'', b', rfl, hsees, hb'⟩ start'
  have hequal : sees "=" us3 = false := by
    cases us3 with
    | nil => rfl
    | cons brace us4 => exact is_eq_false hsees (by decide)
  refine ⟨_, functionDefinition_eq_ok_iff.mpr ⟨name', us1, list', us2, returns', us3, b', hname',
    hlist', hreturns', hequal, hb', rfl⟩, rfl, ?_⟩
  simp only [FunctionDefinition.skeleton, hlook, hlook', hlook'']

/-! ### Objects -/

/-- An object's members without their places and their bodies. -/
def ObjectBody.skeleton (o : ObjectBody) : List Declaration × List FunctionDefinition :=
  (o.fields.map Declaration.unplaced, o.functions.map FunctionDefinition.skeleton)

lemma objectMembers_closed {n : Nat} {close : Token} (hclose : close.is "\x7d") (ts : Phrase) :
    objectMembers (n + 1) (close :: ts) = .ok (⟨[], [], close⟩, ts) := by
  simp [objectMembers, hclose]

/-- Reads an object's members from one that follows its annotations and qualifiers on. -/
def objectMember (n : Nat) (start : Token) (names words : List String) (ts : Phrase) :
    Except SyntaxError (ObjectBody × Phrase) :=
  match eat "function" ts with
  | some ts => do
    let (function, ts) ← functionDefinition start words ts
    let (body, ts) ← objectMembers n ts
    return ({ body with functions := function :: body.functions }, ts)
  | none =>
    if sees "*" ts then do
      let (_, ts) ← through ";" ts
      objectMembers n ts
    else do
      let (field, ts) ← declaration start names words ts
      let (body, ts) ← objectMembers n ts
      return ({ body with fields := field :: body.fields }, ts)

lemma objectMembers_eq {n : Nat} {start : Token} {ts : Phrase}
    (hclose : start.is "\x7d" = false) :
    objectMembers (n + 1) (start :: ts) = (do
      let (names, ts) ← annotations (start :: ts)
      let (words, ts) := qualifiers ts
      objectMember n start names words ts) := by
  rw [objectMembers, if_neg (by simp [hclose])]
  rfl

/-- What is read again of an object's members. -/
def RereadMembers (o : ObjectBody) (us rest' : Phrase) (bs' : List Block) : Prop :=
  ∀ m, us.length ≤ m → ∃ o', objectMembers m us = .ok (o', rest') ∧
    bs' = o'.functions.map (·.body) ∧ o'.skeleton = o.skeleton

lemma tracks_objectMember {n : Nat} (hothers : ∀ {ts rest : Phrase} {o : ObjectBody},
      objectMembers n ts = .ok (o, rest) →
        Tracks Any ts rest (o.functions.map (·.body)) (RereadMembers o))
    {start : Token} {names words : List String} {ts rest : Phrase} {o : ObjectBody}
    (h : objectMember n start names words ts = .ok (o, rest)) :
    Tracks Any ts rest (o.functions.map (·.body)) fun us rest' bs' =>
      ∀ start' m, us.length ≤ m + 1 → ∃ o', objectMember m start' names words us = .ok (o', rest') ∧
        bs' = o'.functions.map (·.body) ∧ o'.skeleton = o.skeleton := by
  rw [objectMember] at h
  split at h
  · rename_i after heat
    obtain ⟨word, rfl, hword⟩ := eat_eq_some_iff.mp heat
    obtain ⟨⟨f, after'⟩, hf, hread⟩ := bind_eq_ok_iff.mp h
    obtain ⟨⟨others, left⟩, hread', hdone⟩ := bind_eq_ok_iff.mp hread
    obtain ⟨rfl, rfl⟩ := hdone
    have htracks := ((tracks_functionDefinition hf).trans (hothers hread')
      fun _ => trivial).front [word]
    refine htracks.imp ?_
    rintro us rest' bs' - ⟨used', us', rfl, hcopy, -, mid', bs1, bs2, rfl, hagain, hagain'⟩
      start' m hm
    obtain ⟨word', rfl, hsame⟩ := hcopy.singleton_left
    obtain ⟨f', hf', rfl, hskeleton⟩ := hagain start'
    obtain ⟨used', rfl, -⟩ := passes_of_functionDefinition hf'
    obtain ⟨o', ho', rfl, hskeleton'⟩ := hagain' m (by simp at hm; omega)
    have heat' : eat "function" ([word'] ++ (used' ++ mid')) = some (used' ++ mid') :=
      eat_eq_some_iff.mpr ⟨word', rfl, hsame.is "function" ▸ hword⟩
    refine ⟨{ o' with functions := f' :: o'.functions }, ?_, rfl, ?_⟩
    · simp only [objectMember, heat']
      exact bind_eq_ok_iff.mpr ⟨_, hf', bind_eq_ok_iff.mpr ⟨_, ho', rfl⟩⟩
    · obtain ⟨hfields, hfunctions⟩ := Prod.mk.inj hskeleton'
      simp only [ObjectBody.skeleton, hfields, List.map_cons, hfunctions, hskeleton]
  · rename_i hnone
    split at h
    · rename_i hstar
      obtain ⟨⟨⟨skipped, semicolon⟩, after⟩, hskipped, hread⟩ := bind_eq_ok_iff.mp h
      refine ((hothers hread).frame (frames_through ";" Like) hskipped).imp ?_
      rintro us rest' bs' hlike ⟨⟨skipped', semicolon'⟩, mid', hskipped', -, hagain⟩ start' m hm
      obtain ⟨hus, -⟩ := through_eq_ok_iff.mp hskipped'
      obtain ⟨o', ho', hbs, hskeleton⟩ := hagain m (by simp [hus] at hm; omega)
      have hnone' : eat "function" us = none := by
        rw [eat_eq_none_iff] at hnone ⊢
        rw [← hlike.sees, hnone]
      refine ⟨o', ?_, hbs, hskeleton⟩
      simp only [objectMember, hnone', ← hlike.sees, hstar, if_true]
      exact bind_eq_ok_iff.mpr ⟨_, hskipped', ho'⟩
    · rename_i hstar
      obtain ⟨⟨field, after⟩, hfield, hread⟩ := bind_eq_ok_iff.mp h
      obtain ⟨⟨others, left⟩, hread', hdone⟩ := bind_eq_ok_iff.mp hread
      obtain ⟨rfl, rfl⟩ := hdone
      obtain ⟨used, rfl, -⟩ := frames_declaration start start names words Like hfield
      refine ((hothers hread').front used).imp ?_
      rintro us rest' bs' hlike ⟨used', us', rfl, hcopy, hlike', hagain⟩ start' m hm
      obtain ⟨used'', hused, hframe⟩ := frames_declaration start start' names words Like hfield
      obtain rfl := List.append_cancel_right hused
      obtain ⟨-, field', hfield', hunplaced⟩ := hframe hcopy hlike'
      obtain ⟨body', semicolon', -, -, -, hus, -⟩ := declaration_eq_ok_iff.mp hfield'
      have hlength := congrArg List.length hus
      obtain ⟨o', ho', hbs, hskeleton⟩ := hagain m (by simp at hm hlength; omega)
      have hnone' : eat "function" (used' ++ us') = none := by
        rw [eat_eq_none_iff] at hnone ⊢
        rw [← hlike.sees, hnone]
      refine ⟨{ o' with fields := field' :: o'.fields }, ?_, hbs, ?_⟩
      · simp only [objectMember, hnone', ← hlike.sees, hstar, if_false, Bool.false_eq_true]
        exact bind_eq_ok_iff.mpr ⟨_, hfield', bind_eq_ok_iff.mpr ⟨_, ho', rfl⟩⟩
      · obtain ⟨hfields, hfunctions⟩ := Prod.mk.inj hskeleton
        simp only [ObjectBody.skeleton, hfunctions, List.map_cons, hfields, hunplaced]

lemma tracks_objectMembers {n : Nat} {ts rest : Phrase} {o : ObjectBody}
    (h : objectMembers n ts = .ok (o, rest)) :
    Tracks Any ts rest (o.functions.map (·.body)) (RereadMembers o) := by
  induction n generalizing ts rest o with
  | zero => simp [objectMembers] at h
  | succ n ih =>
    cases ts with
    | nil => simp [objectMembers] at h
    | cons start ts =>
      by_cases hclose : start.is "\x7d"
      · rw [objectMembers_closed hclose] at h
        obtain ⟨rfl, rfl⟩ := h
        refine (tracks_plain (List.cons_ne_nil start []) Any _).imp ?_
        rintro us rest' bs' - ⟨rfl, used', rfl, hcopy, -⟩ m hm
        obtain ⟨close', rfl, hsame⟩ := hcopy.singleton_left
        obtain ⟨m, rfl⟩ : ∃ k, m = k + 1 := ⟨m - 1, by simp at hm; omega⟩
        exact ⟨_, objectMembers_closed (hsame.is "\x7d" ▸ hclose) rest', rfl, rfl⟩
      · rw [Bool.not_eq_true] at hclose
        rw [objectMembers_eq hclose] at h
        obtain ⟨⟨names, after⟩, hnames, hread⟩ := bind_eq_ok_iff.mp h
        obtain ⟨used, hused, hall⟩ := qualifiers_spec after
        have htracks := (tracks_objectMember ih hread).front used
        rw [← hused] at htracks
        refine (htracks.frame frames_annotations hnames).imp ?_
        rintro us rest' bs' hlike ⟨names', mid', hnames', rfl, used', us', rfl, hcopy, hlike',
          hagain⟩
          m hm
        obtain ⟨start', us, rfl, hsame⟩ := hlike.cons_left
        obtain ⟨m, rfl⟩ : ∃ k, m = k + 1 := ⟨m - 1, by simp at hm; omega⟩
        obtain ⟨front, hfront, -⟩ := annotations_spec hnames'
        have hlength := congrArg List.length hfront
        obtain ⟨o', ho', hbs, hskeleton⟩ := hagain start' m (by simp at hm hlength; omega)
        refine ⟨o', ?_, hbs, hskeleton⟩
        rw [objectMembers_eq (hsame.is "\x7d" ▸ hclose)]
        refine bind_eq_ok_iff.mpr ⟨_, hnames', ?_⟩
        simp only [hall hcopy hlike']
        exact ho'

lemma tracks_objectBody {ts rest : Phrase} {o : ObjectBody} (h : objectBody ts = .ok (o, rest)) :
    Tracks Any ts rest (o.functions.map (·.body)) fun us rest' bs' => ∃ o',
      objectBody us = .ok (o', rest') ∧ bs' = o'.functions.map (·.body) ∧
        o'.skeleton = o.skeleton := by
  obtain ⟨⟨brace, after⟩, hbrace, hread⟩ := bind_eq_ok_iff.mp h
  refine ((tracks_objectMembers hread).frame (frames_expect "\x7b" Like) hbrace).imp ?_
  rintro us rest' bs' - ⟨brace', mid', hbrace', -, hagain⟩
  obtain ⟨o', ho', hbs, hskeleton⟩ := hagain mid'.length le_rfl
  exact ⟨o', bind_eq_ok_iff.mpr ⟨_, hbrace', ho'⟩, hbs, hskeleton⟩

lemma tracks_classDefinition {start : Token} {words : List String} {ts rest : Phrase}
    {c : ClassDefinition} (h : classDefinition start words ts = .ok (c, rest)) :
    Tracks Any ts rest (c.functions.map (·.body)) fun us rest' bs' => ∀ start', ∃ c',
      classDefinition start' words us = .ok (c', rest') ∧ bs' = c'.functions.map (·.body) ∧
        c'.skeleton = c.skeleton := by
  obtain ⟨⟨name, after1⟩, hname, hread1⟩ := bind_eq_ok_iff.mp h
  obtain ⟨⟨o, after2⟩, ho, hdone⟩ := bind_eq_ok_iff.mp hread1
  obtain ⟨rfl, rfl⟩ := hdone
  refine ((tracks_objectBody ho).frame (frames_identifier Like) hname).imp ?_
  rintro us rest' bs' - ⟨name', mid', hname', hsame, o', ho', hbs, hskeleton⟩ start'
  refine ⟨⟨words, name'.text, o'.fields, o'.functions, start'.span.through o'.close.span⟩,
    bind_eq_ok_iff.mpr ⟨_, hname', bind_eq_ok_iff.mpr ⟨_, ho', rfl⟩⟩, hbs, ?_⟩
  obtain ⟨hfields, hfunctions⟩ := Prod.mk.inj hskeleton
  simp only [ClassDefinition.skeleton, (wording_eq_iff.mp hsame).2, hfields, hfunctions]

/-- The token that ends a service, and what follows it. -/
def serviceEnd (close : Token) : Phrase → Token × Phrase
  | t :: rest => if t.is ";" then (t, rest) else (close, t :: rest)
  | [] => (close, [])

lemma serviceDefinition_eq (start : Token) (ts : Phrase) :
    serviceDefinition start ts = (do
      let ((path, _), ts) ← through "on" ts
      let (listener, ts) ← upTo "\x7b" ts
      let (body, ts) ← objectBody ts
      return (⟨path, listener, body.fields, body.functions,
        start.span.through (serviceEnd body.close ts).1.span⟩, (serviceEnd body.close ts).2)) := by
  refine bind_congr fun ⟨⟨path, word⟩, after⟩ => bind_congr fun ⟨listener, after⟩ =>
    bind_congr fun ⟨body, after⟩ => ?_
  dsimp only
  cases after with
  | nil => rfl
  | cons t after => simp only [serviceEnd]

/-- A service's members with the semicolon that may follow them. -/
lemma tracks_serviceEnd {ts after : Phrase} {o : ObjectBody} (h : objectBody ts = .ok (o, after)) :
    Tracks Closed ts (serviceEnd o.close after).2 (o.functions.map (·.body)) fun us rest' bs' =>
      ∃ o' after', objectBody us = .ok (o', after') ∧ (serviceEnd o'.close after').2 = rest' ∧
        bs' = o'.functions.map (·.body) ∧ o'.skeleton = o.skeleton := by
  have hopen : sees ";" after = false → Tracks Closed ts after (o.functions.map (·.body))
      fun us rest' bs' => ∃ o' after', objectBody us = .ok (o', after') ∧
        (serviceEnd o'.close after').2 = rest' ∧ bs' = o'.functions.map (·.body) ∧
          o'.skeleton = o.skeleton := by
    intro hsees
    refine ((tracks_objectBody h).weaken fun _ => trivial).keep.imp ?_
    rintro us rest' bs' - ⟨hclosed, o', ho', hbs, hskeleton⟩
    refine ⟨o', rest', ho', ?_, hbs, hskeleton⟩
    have hsees' : sees ";" rest' = false := hclosed.symm.trans hsees
    cases rest' with
    | nil => rfl
    | cons u rest' =>
      have hu : u.is ";" = false := hsees'
      simp [serviceEnd, hu]
  cases after with
  | nil => exact hopen rfl
  | cons t after =>
    by_cases ht : t.is ";"
    · have hafter : (serviceEnd o.close (t :: after)).2 = after := by simp [serviceEnd, ht]
      rw [hafter]
      have htracks := (tracks_objectBody h).trans
        (tracks_plain (List.cons_ne_nil t []) Closed after) fun _ => trivial
      rw [List.append_nil] at htracks
      refine htracks.imp ?_
      rintro us rest' bs' - ⟨mid', bs1, bs2, rfl, ⟨o', ho', hbs, hskeleton⟩, rfl, used', rfl, hcopy,
        -⟩
      obtain ⟨t', rfl, hsame⟩ := hcopy.singleton_left
      have ht' : t'.is ";" := hsame.is ";" ▸ ht
      exact ⟨o', _, ho', by simp [serviceEnd, ht'], by simpa using hbs, hskeleton⟩
    · rw [Bool.not_eq_true] at ht
      have hafter : (serviceEnd o.close (t :: after)).2 = t :: after := by simp [serviceEnd, ht]
      rw [hafter]
      exact hopen ht

lemma tracks_serviceDefinition {start : Token} {ts rest : Phrase} {s : ServiceDefinition}
    (h : serviceDefinition start ts = .ok (s, rest)) :
    Tracks Closed ts rest (s.functions.map (·.body)) fun us rest' bs' => ∀ start', ∃ s',
      serviceDefinition start' us = .ok (s', rest') ∧ bs' = s'.functions.map (·.body) ∧
        s'.skeleton = s.skeleton := by
  rw [serviceDefinition_eq] at h
  obtain ⟨⟨⟨path, word⟩, after1⟩, hpath, hread1⟩ := bind_eq_ok_iff.mp h
  obtain ⟨⟨listener, after2⟩, hlistener, hread2⟩ := bind_eq_ok_iff.mp hread1
  obtain ⟨⟨o, after3⟩, ho, hdone⟩ := bind_eq_ok_iff.mp hread2
  obtain ⟨rfl, rfl⟩ := hdone
  refine (((tracks_serviceEnd ho).frame (frames_upTo "\x7b") hlistener).frame
    (frames_through "on" Like) hpath).imp ?_
  rintro us rest' bs' - ⟨⟨path', word'⟩, us1, hpath', hlook, listener', us2, hlistener', hlook', o',
    us3, ho', rfl, hbs, hskeleton⟩ start'
  refine ⟨⟨path', listener', o'.fields, o'.functions,
    start'.span.through (serviceEnd o'.close us3).1.span⟩, ?_, hbs, ?_⟩
  · rw [serviceDefinition_eq]
    exact bind_eq_ok_iff.mpr ⟨_, hpath', bind_eq_ok_iff.mpr ⟨_, hlistener',
      bind_eq_ok_iff.mpr ⟨_, ho', rfl⟩⟩⟩
  · obtain ⟨hfields, hfunctions⟩ := Prod.mk.inj hskeleton
    have hpaths : path'.unplaced = path.unplaced := congrArg Prod.fst hlook
    simp only [ServiceDefinition.skeleton, hpaths, hlook', hfields, hfunctions]

/-! ### Members -/

/-- What is read again of a member behind its annotations and qualifiers. -/
def RereadMember (names words : List String) (m : Member) (us rest' : Phrase)
    (bs' : List Block) : Prop :=
  ∀ start', ∃ m', memberAfter start' names words us = .ok (m', rest') ∧ bs' = m'.bodies ∧
    m'.skeleton = m.skeleton

section

variable {α γ : Type} (read : Token → Reader α) (wrap : α → Member) {start word : Token}
  {names words : List String} {ts rest : Phrase} {x : α}

/-- A member that its first word tells is read again behind a copy of the word. -/
lemma tracks_word {bs : List Block}
    (h : Tracks W ts rest bs fun us rest' bs' => ∀ start', ∃ x', read start' us = .ok (x', rest') ∧
      bs' = (wrap x').bodies ∧ (wrap x').skeleton = (wrap x).skeleton)
    (hread : ∀ start' word' us, word'.text = word.text →
      memberAfter start' names words (word' :: us)
        = do let (x, ts) ← read start' us; return (wrap x, ts)) :
    Tracks W (word :: ts) rest bs (RereadMember names words (wrap x)) := by
  refine (h.front [word]).imp ?_
  rintro us rest' bs' - ⟨used', us', rfl, hcopy, -, hagain⟩ start'
  obtain ⟨word', rfl, hsame⟩ := hcopy.singleton_left
  obtain ⟨x', hx', hbs, hskeleton⟩ := hagain start'
  refine ⟨wrap x', ?_, hbs, hskeleton⟩
  rw [List.singleton_append, hread start' word' us' hsame.2.symm]
  exact bind_eq_ok_iff.mpr ⟨_, hx', rfl⟩

lemma tracks_plainWord {look : α → γ}
    (hframes : ∀ start', Frames Closed Like look (read start) (read start'))
    (h : read start ts = .ok (x, rest)) (hbodies : ∀ x, (wrap x).bodies = [])
    (hlook : ∀ x', look x' = look x → (wrap x').skeleton = (wrap x).skeleton)
    (hread : ∀ start' word' us, word'.text = word.text →
      memberAfter start' names words (word' :: us)
        = do let (x, ts) ← read start' us; return (wrap x, ts)) :
    Tracks Closed (word :: ts) rest (wrap x).bodies
      (RereadMember names words (wrap x)) := by
  obtain ⟨used, rfl, -⟩ := hframes start h
  rw [hbodies]
  refine (tracks_plain (List.cons_ne_nil word used) Closed rest).imp ?_
  rintro us rest' bs' - ⟨rfl, used', rfl, hcopy, hclosed⟩ start'
  obtain ⟨word', used', rfl, hsame, hused'⟩ := hcopy.cons_left
  obtain ⟨used'', hcancel, hframe⟩ := hframes start' h
  obtain rfl := List.append_cancel_right hcancel
  obtain ⟨-, x', hx', hx''⟩ := hframe hused' hclosed
  refine ⟨wrap x', ?_, (hbodies x').symm, hlook x' hx''⟩
  rw [List.cons_append, hread start' word' _ hsame.2.symm]
  exact bind_eq_ok_iff.mpr ⟨_, hx', rfl⟩

end

lemma tracks_memberAfter {start : Token} {names words : List String} {ts rest : Phrase} {m : Member}
    (h : memberAfter start names words ts = .ok (m, rest)) :
    Tracks Closed ts rest m.bodies (RereadMember names words m) := by
  cases readsMember_of_memberAfter h with
  | function hword hf =>
    have htracks := (tracks_functionDefinition hf).weaken (V := Closed) fun _ => trivial
    refine tracks_word (functionDefinition · words) .function (htracks.imp ?_)
      fun start' word' us htext => ?_
    · rintro us rest' bs' - hagain start'
      obtain ⟨f', hf', hbs, hskeleton⟩ := hagain start'
      exact ⟨f', hf', hbs, congrArg Member.function hskeleton⟩
    · simp [memberAfter, htext, hword]
  | service hword hs =>
    refine tracks_word serviceDefinition .service ((tracks_serviceDefinition hs).imp ?_)
      fun start' word' us htext => ?_
    · rintro us rest' bs' - hagain start'
      obtain ⟨s', hs', hbs, hskeleton⟩ := hagain start'
      exact ⟨s', hs', hbs, congrArg Member.service hskeleton⟩
    · simp [memberAfter, htext, hword]
  | classDefinition hword hc =>
    have htracks := (tracks_classDefinition hc).weaken (V := Closed) fun _ => trivial
    refine tracks_word (classDefinition · words) .classDefinition (htracks.imp ?_)
      fun start' word' us htext => ?_
    · rintro us rest' bs' - hagain start'
      obtain ⟨c', hc', hbs, hskeleton⟩ := hagain start'
      exact ⟨c', hc', hbs, congrArg Member.classDefinition hskeleton⟩
    · simp [memberAfter, htext, hword]
  | typeDefinition hword ht =>
    refine tracks_plainWord (typeDefinition · words) .typeDefinition
      (frames_typeDefinition start · words Closed) ht (fun _ => rfl)
      (fun _ => congrArg Member.typeDefinition) fun start' word' us htext => ?_
    simp [memberAfter, htext, hword]
  | enumDefinition hword ht =>
    refine tracks_plainWord (enumDefinition · words) .typeDefinition
      (frames_enumDefinition start · words Closed) ht (fun _ => rfl)
      (fun _ => congrArg Member.typeDefinition) fun start' word' us htext => ?_
    simp [memberAfter, htext, hword]
  | constant hword hd =>
    refine tracks_plainWord (declaration · names (words ++ ["const"])) .variable
      (frames_declaration start · names _ Closed) hd (fun _ => rfl)
      (fun _ => congrArg Member.variable) fun start' word' us htext => ?_
    simp [memberAfter, htext, hword]
  | declaration hwords hd =>
    obtain ⟨used, rfl, hframe⟩ := frames_declaration start start names words Closed hd
    obtain ⟨t, used, rfl⟩ : ∃ t others, used = t :: others := by
      cases used with
      | cons t others => exact ⟨t, others, rfl⟩
      | nil =>
        obtain ⟨body, semicolon, -, -, -, hts, -⟩ := declaration_eq_ok_iff.mp hd
        have hlength := congrArg List.length hts
        simp at hlength
        omega
    refine (tracks_plain (List.cons_ne_nil t used) Closed rest).imp ?_
    rintro us rest' bs' hlike ⟨rfl, used', rfl, hcopy, hclosed⟩ start'
    obtain ⟨used'', hcancel, hframe⟩ := frames_declaration start start' names words Closed hd
    obtain rfl := List.append_cancel_right hcancel
    obtain ⟨-, d', hd', hunplaced⟩ := hframe hcopy hclosed
    refine ⟨.variable d', ?_, rfl, congrArg Member.variable hunplaced⟩
    obtain ⟨t', us', heq, hsame⟩ := hlike.cons_left
    have htext := hwords t rfl
    simp only [memberWords, List.mem_cons, not_or] at htext
    rw [heq] at hd' ⊢
    simp only [memberAfter, ← hsame.2, beq_iff_eq, htext, if_false, Bool.or_eq_true, or_false]
    exact bind_eq_ok_iff.mpr ⟨_, hd', rfl⟩

lemma tracks_member {start : Token} {ts rest : Phrase} {m : Member}
    (h : member start ts = .ok (m, rest)) :
    Tracks Closed (start :: ts) rest m.bodies fun us rest' bs' => ∃ start' us', us = start' :: us' ∧
      Token.Same start start' ∧ ∃ m', member start' us' = .ok (m', rest') ∧ bs' = m'.bodies ∧
        m'.skeleton = m.skeleton := by
  obtain ⟨⟨names, after⟩, hnames, hread⟩ := bind_eq_ok_iff.mp h
  obtain ⟨used, hused, hall⟩ := qualifiers_spec after
  have htracks := (tracks_memberAfter hread).front used
  rw [← hused] at htracks
  refine (htracks.frame frames_annotations hnames).imp ?_
  rintro us rest' bs' hlike ⟨names', mid', hnames', rfl, used', us', rfl, hcopy, hlike', hagain⟩
  obtain ⟨start', us, rfl, hsame⟩ := hlike.cons_left
  obtain ⟨m', hm', hbs, hskeleton⟩ := hagain start'
  refine ⟨start', us, rfl, hsame, m', bind_eq_ok_iff.mpr ⟨_, hnames', ?_⟩, hbs, hskeleton⟩
  simp only [hall hcopy hlike']
  exact hm'

end FlowCanvas.Parser
