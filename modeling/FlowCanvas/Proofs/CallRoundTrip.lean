import FlowCanvas.Proofs.CallLosses

/-!
# Calls that come back as they are

A call without a template is written with its own tokens when its arguments have keys of their own,
none is structural, the positional ones come first and no place between its commas is empty. A call
of a mapping function keeps its arguments as one text, so that their keys and order do not matter.
-/

namespace FlowCanvas

/-! ### Lists of arguments -/

namespace Argument

open Lexer Brackets

/-- The lexemes of an argument as it is written in a call. -/
def lexemes (a : Argument) : List Lexeme :=
  match a.name with
  | none => a.value.tokens.lexemes
  | some name => (.identifier, name) :: (.punctuation, "=") :: a.value.tokens.lexemes

/-- Lexemes with commas between them. -/
def commaJoined : List (List Lexeme) → List Lexeme
  | [] => []
  | [ls] => ls
  | ls :: rest => ls ++ (.punctuation, ",") :: commaJoined rest

/-- No place of a list is empty: something stands in front of every comma and behind it. -/
def filled (inner : Phrase) : Bool :=
  (segments inner).all (!·.isEmpty) && !inner.getLast?.any (·.is ",")

/-- Positional arguments stand in front of named ones. -/
def ordered (arguments : List Argument) : Bool :=
  (arguments.dropWhile (·.name.isNone)).all (·.name.isSome)

lemma SpellsArgument.lexemes {a : Argument} {ts : Phrase} (h : SpellsArgument a ts)
    (hsource : Sourced ts) : ts.lexemes = a.lexemes := by
  cases h with
  | positional h => rfl
  | @named name equal value hname hequal =>
    have hmark := hsource.equal (t := equal) (by simp) hequal
    simp [Argument.lexemes, beq_iff_eq.mp hname, hmark]

lemma joined_consFirst {t : Token} {list : List Phrase} {ts : Phrase} (h : Joined list ts) :
    Joined (consFirst t list) (t :: ts) := by
  cases h with
  | single => exact .single
  | cons hcomma hlist => exact .cons hcomma hlist

lemma last_of_cons {t : Token} {ts : Phrase}
    (h : (t :: ts).getLast?.any (·.is ",") = false) : ts.getLast?.any (·.is ",") = false := by
  cases ts with
  | nil => rfl
  | cons u us => simpa [List.getLast?_cons] using h

/-- A list without a comma at its end is its segments with commas between them. -/
lemma joined_segmentsFrom {depth : Nat} {ts : Phrase}
    (hlast : ts.getLast?.any (·.is ",") = false) : Joined (segmentsFrom depth ts) ts := by
  fun_induction segmentsFrom depth ts with
  | case1 => exact .single
  | case2 depth t ts hcomma ih =>
    simp only [Bool.and_eq_true] at hcomma
    cases ts with
    | nil => simp [hcomma.2] at hlast
    | cons u us => exact .cons hcomma.2 (ih (last_of_cons hlast))
  | case3 depth t ts hcomma hopen ih => exact joined_consFirst (ih (last_of_cons hlast))
  | case4 t ts hcomma hopen hclose => exact .single
  | case5 t ts hopen hclose depth hcomma ih => exact joined_consFirst (ih (last_of_cons hlast))
  | case6 depth t ts hcomma hopen hclose ih => exact joined_consFirst (ih (last_of_cons hlast))

lemma lexemes_of_joined {list : List Phrase} {ts : Phrase} (h : Joined list ts)
    (hlexed : ∀ t ∈ ts, t.Lexed) : ts.lexemes = commaJoined (list.map Phrase.lexemes) := by
  induction h with
  | single => rfl
  | @cons us vs comma list hcomma hlist ih =>
    have hmark := (hlexed comma (by simp)).mark hcomma (by decide)
    have hrest := ih fun t ht => hlexed t (by simp [ht])
    rw [Phrase.lexemes_append, Phrase.lexemes_cons, hmark, hrest]
    cases hlist <;> rfl

lemma lexemes_of_filterMap {list : List Phrase} (hne : ∀ seg ∈ list, seg ≠ [])
    (hsource : ∀ seg ∈ list, Sourced seg) :
    list.map Phrase.lexemes = (list.filterMap ofPhrase?).map lexemes := by
  induction list with
  | nil => rfl
  | cons seg list ih =>
    obtain ⟨a, ha⟩ := exists_ofPhrase? (hne seg List.mem_cons_self)
    have hseg := (spellsArgument_of_ofPhrase? ha).lexemes (hsource seg List.mem_cons_self)
    rw [List.filterMap_cons_some ha, List.map_cons, List.map_cons, hseg,
      ih (fun seg hmem => hne seg (List.mem_cons_of_mem _ hmem))
        (fun seg hmem => hsource seg (List.mem_cons_of_mem _ hmem))]

/-- A list without empty places is spelled by its arguments. -/
lemma lexemes_of_filled {inner : Phrase} (hinner : Matched inner) (hsource : Sourced inner)
    (h : filled inner) : inner.lexemes = commaJoined ((listOf inner).map lexemes) := by
  simp only [filled, Bool.and_eq_true, List.all_eq_true, Bool.not_eq_true',
    List.isEmpty_eq_false_iff] at h
  cases inner with
  | nil => rfl
  | cons t ts =>
    have hjoined : Joined (segments (t :: ts)) (t :: ts) := joined_segmentsFrom h.2
    rw [lexemes_of_joined hjoined fun t ht => hsource.lexed ht, listOf, lexemes_of_filterMap h.1]
    exact fun seg hseg => Sourced.within hsource (segments_spec hinner seg hseg).2

end Argument

namespace Write

open Lexer

lemma argumentsLexemes_eq (ps : List Property) :
    argumentsLexemes ps = Argument.commaJoined (ps.map argumentLexemes) := by
  induction ps with
  | nil => rfl
  | cons p ps ih =>
    cases ps with
    | nil => rfl
    | cons q ps => simp_all [argumentsLexemes, Argument.commaJoined]

end Write

/-! ### Arguments without a template -/

namespace Build

open Lexer

/-- The property that an argument adds under a key. -/
def slotProperty (slot : Slot) : Property := added slot.key slot.value.text slot.byName

/-- A slot that was made for an argument. -/
structure SlotOf (slot : Slot) (a : Argument) : Prop where
  value : slot.value = a.value
  byName : slot.byName = a.name.isSome
  key : ∀ name ∈ a.name, slot.key = name

lemma slotOf_slotsFrom (names : List String) (place : Nat) (arguments : List Argument) :
    List.Forall₂ SlotOf (slotsFrom .empty names place arguments) arguments := by
  induction arguments generalizing place with
  | nil => exact .nil
  | cons a arguments ih =>
    rw [slotsFrom]
    cases hname : a.name with
    | none => exact .cons ⟨rfl, by rw [hname]; rfl, by simp [hname]⟩ (ih _)
    | some name =>
      refine .cons ⟨rfl, by rw [hname]; rfl, fun key hkey => ?_⟩ (ih _)
      exact Option.some.inj (hname.symm.trans hkey)

/-- Without a template, arguments with keys of their own are kept in their order. -/
lemma entries_setArguments {names : List String} {place : Nat} {b : PropertyBag}
    {arguments : List Argument}
    (hkeys : ((slotsFrom .empty names place arguments).map (·.key)).Nodup)
    (hnew : ∀ slot ∈ slotsFrom .empty names place arguments, slot.key ∉ b.keys) :
    (setArguments PropertyBag.empty.keys names place b arguments).entries =
      b.entries ++ (slotsFrom .empty names place arguments).map slotProperty := by
  induction arguments generalizing place b with
  | nil => simp [setArguments, slotsFrom]
  | cons a arguments ih =>
    have hstep : ∀ (key : String) (named : Bool) (place' : Nat),
        (slotsFrom .empty names place (a :: arguments)) =
          ⟨key, named, a.value⟩ :: slotsFrom .empty names place' arguments →
        (setArguments PropertyBag.empty.keys names place' (setArgument b key a.value.text named)
          arguments).entries =
          b.entries ++ (slotsFrom .empty names place (a :: arguments)).map slotProperty := by
      intro key named place' hslots
      rw [hslots] at hkeys hnew ⊢
      obtain ⟨hfirst, hrest⟩ := List.nodup_cons.mp hkeys
      have hset : (setArgument b key a.value.text named).entries =
          b.entries ++ [added key a.value.text named] := by
        rcases setArgument_cases b key a.value.text named with
          ⟨pre, p, post, heq, hp, -⟩ | ⟨-, hset⟩
        · refine absurd ?_ (hnew _ List.mem_cons_self)
          exact List.mem_map.mpr ⟨p, by simp [heq], hp⟩
        · exact hset
      rw [ih hrest, hset]
      · simp [slotProperty]
      · intro slot hslot
        have hmore := hnew slot (List.mem_cons_of_mem _ hslot)
        have hne : slot.key ≠ key := by
          rintro rfl
          exact hfirst (List.mem_map.mpr ⟨slot, hslot, rfl⟩)
        simpa [PropertyBag.keys, hset, added, Property.asOptional, Property.withText,
          Property.withValue, Property.plain, hne] using hmore
    rw [setArguments]
    cases hname : a.name with
    | none =>
      refine hstep _ false _ ?_
      simp [slotsFrom, hname, isByName, PropertyBag.get?, PropertyBag.empty]
    | some name =>
      refine hstep name true place ?_
      simp [slotsFrom, hname, isByName, PropertyBag.get?, PropertyBag.empty]

lemma slotProperty_spec (slot : Slot) :
    (slotProperty slot).key = slot.key ∧ (slotProperty slot).optional = slot.byName ∧
      (slotProperty slot).sourceText = slot.value.text :=
  ⟨rfl, rfl, rfl⟩

lemma argumentLexemes_slotProperty {slot : Slot} {a : Argument} (h : SlotOf slot a)
    (hsound : a.Sound) : Write.argumentLexemes (slotProperty slot) = a.lexemes := by
  obtain ⟨hkey, hoptional, htext⟩ := slotProperty_spec slot
  have hvalue : lexemesOf (slotProperty slot).sourceText = a.value.tokens.lexemes := by
    rw [htext, h.value]
    exact hsound.legible.lexemesOf
  unfold Write.argumentLexemes Argument.lexemes
  rw [hvalue, hoptional, hkey, h.byName]
  cases hname : a.name with
  | none => rfl
  | some name => rw [h.key name hname]; rfl

lemma lexemes_slots {list : List Slot} {arguments : List Argument}
    (h : List.Forall₂ SlotOf list arguments) (hsound : ∀ a ∈ arguments, a.Sound) :
    (list.map slotProperty).map Write.argumentLexemes = arguments.map Argument.lexemes := by
  induction h with
  | nil => rfl
  | @cons slot a list arguments hslot hrest ih =>
    rw [List.map_cons, List.map_cons, List.map_cons,
      argumentLexemes_slotProperty hslot (hsound a List.mem_cons_self),
      ih fun b hb => hsound b (List.mem_cons_of_mem _ hb)]

lemma optional_of_named {list : List Slot} {arguments : List Argument}
    (h : List.Forall₂ SlotOf list arguments) (hnamed : ∀ a ∈ arguments, a.name.isSome) :
    ∀ p ∈ list.map slotProperty, p.optional := by
  induction h with
  | nil => simp
  | @cons slot a list arguments hslot hrest ih =>
    intro p hp
    rcases List.mem_cons.mp hp with rfl | hp'
    · rw [(slotProperty_spec slot).2.1, hslot.byName]
      exact hnamed a List.mem_cons_self
    · exact ih (fun b hb => hnamed b (List.mem_cons_of_mem _ hb)) p hp'

/-- With the positional arguments in front, putting required ones first changes nothing. -/
lemma partition_slots {list : List Slot} {arguments : List Argument}
    (h : List.Forall₂ SlotOf list arguments) (hordered : Argument.ordered arguments) :
    (list.map slotProperty).filter (!·.optional) ++ (list.map slotProperty).filter (·.optional) =
      list.map slotProperty := by
  induction h with
  | nil => rfl
  | @cons slot a list arguments hslot hrest ih =>
    cases hname : a.name with
    | none =>
      have hoptional : (slotProperty slot).optional = false := by
        rw [(slotProperty_spec slot).2.1, hslot.byName, hname]
        rfl
      have hrest' : Argument.ordered arguments := by
        simpa [Argument.ordered, hname] using hordered
      simp [hoptional, ih hrest']
    | some name =>
      have hnamed : ∀ b ∈ a :: arguments, b.name.isSome := by
        simpa [Argument.ordered, hname] using hordered
      have hall := optional_of_named (.cons hslot hrest) hnamed
      rw [List.filter_eq_nil_iff.mpr fun p hp => by simp [hall p hp], List.nil_append,
        List.filter_eq_self.mpr hall]

end Build

namespace Analysis

open Lexer FlowCanvas.Parser

variable {c : Context} {n : FlowNode} {site : Site} {callee : Callee} {arguments : List Argument}

/-- Arguments that have keys of their own, none structural, with the positional ones in front. -/
structure Separate (names : List String) (arguments : List Argument) : Prop where
  ordered : Argument.ordered arguments
  keys : ((Build.slots none names arguments).map (·.key)).Nodup
  free : ∀ slot ∈ Build.slots none names arguments, slot.key ∉ Property.structuralKeys

instance (names : List String) (arguments : List Argument) : Decidable (Separate names arguments) :=
  decidable_of_iff
    (Argument.ordered arguments ∧ ((Build.slots none names arguments).map (·.key)).Nodup ∧
      ∀ slot ∈ Build.slots none names arguments, slot.key ∉ Property.structuralKeys)
    ⟨fun h => ⟨h.1, h.2.1, h.2.2⟩, fun h => ⟨h.ordered, h.keys, h.free⟩⟩

/-- Without a template, separate arguments are written as they are. -/
lemma Written.argumentsLexemes_eq (h : Written c n site callee arguments)
    (hsound : ∀ a ∈ arguments, a.Sound) (hnone : Build.consultedTemplate c n = none)
    (hseparate : Separate (Build.declaredNames c n) arguments) :
    Write.argumentsLexemes (Write.argumentProperties n) =
      Argument.commaJoined (arguments.map Argument.lexemes) := by
  have hslots : List.Forall₂ Build.SlotOf (Build.slots none (Build.declaredNames c n) arguments)
      arguments := Build.slotOf_slotsFrom (Build.declaredNames c n) 0 arguments
  have hentries : (Build.argumentBag c n arguments).entries =
      (Build.slots none (Build.declaredNames c n) arguments).map Build.slotProperty := by
    rw [Build.argumentBag, hnone]
    exact Build.entries_setArguments hseparate.keys (by simp [PropertyBag.keys, PropertyBag.empty])
  have hfree : (Build.argumentBag c n arguments).free =
      (Build.slots none (Build.declaredNames c n) arguments).map Build.slotProperty := by
    rw [PropertyBag.free, hentries, List.filter_eq_self]
    intro p hp
    obtain ⟨slot, hslot, rfl⟩ := List.mem_map.mp hp
    rw [Property.isStructural, (Build.slotProperty_spec slot).1]
    simpa using hseparate.free slot hslot
  have hgiven : (n.properties.entries.filter fun p => !p.isStructural && !p.isBlank) =
      (Build.slots none (Build.declaredNames c n) arguments).map Build.slotProperty := by
    have hsplit : (n.properties.entries.filter fun p => !p.isStructural && !p.isBlank) =
        n.properties.free.filter (!·.isBlank) := by
      rw [PropertyBag.free, List.filter_filter]
      exact List.filter_congr fun p _ => Bool.and_comm _ _
    rw [hsplit, h.free, hfree, List.filter_eq_self]
    intro p hp
    obtain ⟨slot, hslot, rfl⟩ := List.mem_map.mp hp
    have hvalue : slot.value ∈ arguments.map (·.value) := by
      rw [← Build.values_slotsFrom]
      exact List.mem_map_of_mem hslot
    obtain ⟨a, ha, hvalue'⟩ := List.mem_map.mp hvalue
    have hblank := Build.blank_of_sound hsound a ha
    rw [hvalue'] at hblank
    rw [Property.isBlank, (Build.slotProperty_spec slot).2.2, hblank]
    rfl
  have hproperties : Write.argumentProperties n =
      (Build.slots none (Build.declaredNames c n) arguments).map Build.slotProperty := by
    unfold Write.argumentProperties
    rw [hgiven]
    exact Build.partition_slots hslots hseparate.ordered
  rw [hproperties, Write.argumentsLexemes_eq, Build.lexemes_slots hslots hsound]

/-! ### The tokens of a statement with a call -/

/-- A `check` that does not panic. -/
lemma lexemes_of_check {marks : Phrase} {checked : Bool} (h : SpellsCheck marks checked)
    (hpanics : ∀ t ∈ marks.head?, t.isWord ["checkpanic"] = false) :
    marks.lexemes = if checked then [(.identifier, "check")] else [] := by
  cases h with
  | absent => rfl
  | @present word h =>
    have hpanics' := hpanics word rfl
    simp only [Token.isWord, Bool.and_eq_true, List.contains_iff_mem] at h
    simp only [Token.isWord, h.1, Bool.true_and, List.contains_eq_mem, List.mem_singleton,
      decide_eq_false_iff_not] at hpanics'
    have htext : word.text = "check" := by simpa [hpanics'] using h.2
    simp [htext, beq_iff_eq.mp h.1]

lemma SpellsFront.lexemes {s : Statement} {front : Phrase} (h : SpellsFront s front)
    (hsource : Sourced front)
    (hdeclared : ∀ d ∈ s.declaration?, d.annotations = [] ∧ d.type ≠ []) :
    front.lexemes = if s.isReturn then [(.identifier, "return")]
      else (s.declaration?.map Build.boundLexemes).getD [] := by
  cases h with
  | @returned word value span hword =>
    simp only [Token.isWord, Bool.and_eq_true, List.contains_iff_mem, List.mem_singleton] at hword
    simp [Statement.isReturn, hword.2, beq_iff_eq.mp hword.1]
  | bare => rfl
  | @declared name equal annotated finals next type names qualifiers value span hannotated hfinals
      hfree hleft hname hequal halone =>
    obtain ⟨hnames, htype⟩ := hdeclared _ rfl
    obtain rfl := hannotated hnames
    rw [List.nil_append] at hsource ⊢
    have hmark := hsource.equal (t := equal) (by simp) hequal
    have htypes : Build.typeLexemes type = type.lexemes := by
      rw [Build.typeLexemes, if_neg (by simpa using htype)]
    have hbound : (type ++ [name, equal]).lexemes =
        type.lexemes ++ [(.identifier, name.text), (.punctuation, "=")] := by
      simp [hmark, beq_iff_eq.mp hname]
    simp only [Statement.isReturn, Statement.declaration?, Build.boundLexemes, Option.map_some,
      Option.getD_some, Bool.false_eq_true, if_false, htypes, Phrase.lexemes_append finals, hbound]
    cases hfinals with
    | absent => rfl
    | @present word _ h =>
      have hword := hsource.word (t := word) (by simp) h rfl (by decide)
      simp [Declaration.isFinal, Declaration.hasQualifier, hword]

/-- The tokens of a statement with a call whose group has no empty place. -/
lemma Sited.lexemes {s : Statement} {used front marks phrase inner : Phrase}
    (h : Sited s site used front marks phrase inner callee arguments) (hsource : Sourced used)
    (hdeclared : ∀ d ∈ s.declaration?, d.annotations = [] ∧ d.type ≠ [])
    (hpanics : ∀ e ∈ s.operand?, e.first.isWord ["checkpanic"] = false)
    (hfilled : ∀ inner ∈ group? s, Argument.filled inner) :
    used.lexemes = Build.siteLead site ++ (callee.lexemes ++ (.punctuation, "(") ::
      (Argument.commaJoined (arguments.map Argument.lexemes) ++ [(.punctuation, ")")])) ++
        [(.punctuation, ";")] := by
  obtain ⟨first, last, semicolon, rfl, hopen, hparen, hclose, hsemicolon⟩ := h.takes.tokens
  have hcall : Sourced (phrase ++ first :: (inner ++ [last])) := hsource.right.left.right
  have hinner : Sourced inner := Sourced.left (@Sourced.right [first] _ hcall.right)
  have hfront := SpellsFront.lexemes h.takes.spellsFront hsource.left hdeclared
  have hmarks : marks.lexemes = if site.checked then [(.identifier, "check")] else [] := by
    refine lexemes_of_check h.takes.spellsCheck fun t ht => ?_
    obtain ⟨e, he⟩ : ∃ e, s.operand? = some e := by
      have hcalled := h.called
      rw [Statement.called?] at hcalled
      obtain ⟨e, he, -⟩ := Option.bind_eq_some_iff.mp hcalled
      exact ⟨e, he⟩
    obtain ⟨tail, rfl⟩ := List.head?_eq_some_iff.mp ht
    obtain ⟨more, hmore⟩ := h.takes.operand e he
    obtain ⟨rfl, -⟩ := List.cons.inj hmore
    exact hpanics e he
  have hgroup := Argument.lexemes_of_filled h.takes.matched hinner (hfilled inner h.takes.group)
  rw [← h.arguments_eq] at hgroup
  have hfirst := hsource.mark (t := first) (by simp) hparen (by decide)
  have hlast := hsource.mark (t := last) (by simp) hclose (by decide)
  have hend := hsource.semicolon (t := semicolon) (by simp) hsemicolon
  rw [Build.siteLead, h.returning, h.declaration, ← hfront, ← hmarks, ← hgroup,
    ← (h.takes.spellsCallee.sourced h.sourced).1]
  simp [hfirst, hlast, hend]

end Analysis

/-! ### Mapping functions -/

namespace Build

open Lexer

/-- The properties of the call of a mapping function. -/
def mapperProperties (name : String) (arguments : List Argument) : List Property :=
  [Property.functionName.withText name,
    (Property.inputs.withText (String.intercalate ", " (arguments.map (·.source)))).asOptional true]

lemma holds_dataMapper {c : Context} {s : Site} {n : FlowNode} {qualifier : Option String}
    {name : String} {arguments : List Argument} (h : dataMapper c s = .ok n)
    (hshape : s.shape? = some (.call qualifier name arguments)) :
    Holds n s (mapperProperties name arguments) .empty := by
  rw [dataMapper, hshape] at h
  obtain ⟨m, rfl, hflags, hproperties⟩ : ∃ m, n = bind m s ∧
      m.flags = Flags.none.insert .dataMapped ∧ m.properties = PropertyBag.empty.insertAll
        (mapperProperties name arguments ++ PropertyBag.empty.entries) :=
    ⟨_, (Except.ok.inj h).symm, rfl, rfl⟩
  exact holds_bind (by rw [hflags]; decide) hproperties s

/-- The name and the type of a variable take the place of no other property. -/
lemma Holds.get?_mapper {n : FlowNode} {s : Site} {d : Declaration} {name : String}
    {arguments : List Argument} (h : Holds n s (mapperProperties name arguments) .empty)
    (hreturning : s.returning = false) (hdeclaration : s.declaration = some d) :
    ∀ p ∈ mapperProperties name arguments, n.properties.get? p.key = some p := by
  have hbound : boundProperties s = [.ofVariable d.name, .ofType d.type.text] := by
    simp [boundProperties, hreturning, hdeclaration]
  intro p hp
  refine PropertyBag.get?_eq_some_iff.mpr ⟨?_, rfl⟩
  rw [h.properties, hbound, PropertyBag.empty, List.append_nil]
  rcases List.mem_cons.mp hp with rfl | hp'
  · refine PropertyBag.mem_insertAll_of_not_mem ?_
      (show "functionName" ∉ ["variable", "type"] by decide)
    rw [mapperProperties, PropertyBag.insertAll_cons]
    exact PropertyBag.mem_insertAll_of_not_mem (PropertyBag.mem_insert_self _ _)
      (show "functionName" ∉ ["inputs"] by decide)
  · obtain rfl := List.mem_singleton.mp hp'
    refine PropertyBag.mem_insertAll_of_not_mem ?_ (show "inputs" ∉ ["variable", "type"] by decide)
    rw [mapperProperties, PropertyBag.insertAll_cons, PropertyBag.insertAll_cons]
    exact PropertyBag.mem_insertAll_of_not_mem (PropertyBag.mem_insert_self _ _) (by simp)

/-- The slot of an argument under its own name. -/
def ownSlot (a : Argument) : Slot := ⟨a.name.getD "", a.name.isSome, a.value⟩

lemma slotOf_ownSlot (a : Argument) : SlotOf (ownSlot a) a := by
  refine ⟨rfl, rfl, fun name hname => ?_⟩
  rw [ownSlot, Option.mem_def.mp hname]
  rfl

lemma argumentText_ownSlot (a : Argument) :
    Write.argumentText (slotProperty (ownSlot a)) = a.source.toList := by
  obtain ⟨hkey, hoptional, htext⟩ := slotProperty_spec (ownSlot a)
  unfold Write.argumentText Argument.source
  rw [hkey, hoptional, htext]
  cases hname : a.name with
  | none => simp [ownSlot, hname]
  | some name => simp [ownSlot, hname]

lemma toList_inputs (arguments : List Argument) :
    (String.intercalate ", " (arguments.map (·.source))).toList =
      Write.argumentsText ((arguments.map ownSlot).map slotProperty) := by
  rw [String.toList_intercalate]
  induction arguments with
  | nil => rfl
  | cons a arguments ih =>
    cases arguments with
    | nil => simp [Write.argumentsText, argumentText_ownSlot, List.intercalate]
    | cons b arguments =>
      have hstep := Write.argumentsText.eq_3 (slotProperty (ownSlot a))
        (((b :: arguments).map ownSlot).map slotProperty) (by simp)
      simp only [List.map_cons] at ih hstep ⊢
      rw [Write.intercalate_cons (by simp), ih, hstep, argumentText_ownSlot]
      rfl

lemma writable_ownSlot {a : Argument} (h : a.Sound) :
    Write.Writable (slotProperty (ownSlot a)) := by
  obtain ⟨hkey, hoptional, htext⟩ := slotProperty_spec (ownSlot a)
  refine ⟨?_, fun hnamed => ?_⟩
  · have hlegible : Legible (slotProperty (ownSlot a)).sourceText.toList a.value.tokens.lexemes :=
      h.legible
    rw [hlegible.lexemesOf]
    exact hlegible
  · rw [hoptional] at hnamed
    obtain ⟨name, hname⟩ := Option.isSome_iff_exists.mp hnamed
    rw [hkey, (slotOf_ownSlot a).key name hname]
    exact h.name name hname

end Build

namespace Write

open Lexer

/-- Arguments that are kept as one text are written as a group. -/
lemma writesGroup_inputs {ps : List Property} (h : ∀ p ∈ ps, Writable p) {inputs : String}
    (hinputs : inputs.toList = argumentsText ps) :
    WritesGroup [.mark .openParen, .expression inputs, .mark .closeParen]
      (argumentsLexemes ps) := by
  refine ⟨argumentsText ps, fun rest hrest => run_arguments h rest hrest, fun xs hxs => ?_⟩
  have hparen : ∀ (ys : List Char) (c : Char), c ≠ ' ' ∧ c ≠ '\n' → Piece.Unpadded (ys ++ [c]) := by
    intro ys c hc
    refine Piece.unpadded_append _ ?_ (by simp)
    intro e he
    obtain rfl := Option.some.inj he
    exact hc
  have hwrite : Piece.writeOn (xs ++ ['(']) [.expression inputs, .mark .closeParen, .semicolon] =
      Piece.writeOn (xs ++ ['('] ++ argumentsText ps) [.mark .closeParen, .semicolon] := by
    cases ps with
    | nil =>
      obtain rfl : inputs = "" := String.toList_eq_nil_iff.mp hinputs
      simp [Piece.writeOn, Piece.write, Piece.put, Text.trim, Text.trimChars, argumentsText]
    | cons p ps =>
      have htrimmed := (legible_arguments h).trimmed
      rw [← hinputs] at htrimmed
      rw [Piece.writeOn_expression _ _ htrimmed, hinputs]
  simp only [List.cons_append, List.nil_append]
  rw [Piece.writeOn_openParen _ hxs, hwrite,
    Piece.writeOn_closeParen _ (unpadded_arguments h (hparen _ _ (by decide))),
    Piece.writeOn_semicolon _ (hparen _ _ (by decide)), Piece.writeOn_nil]
  simp

end Write

namespace Analysis

open Lexer FlowCanvas.Parser

/-- A statement that runs a call has a node of its kind. -/
lemma kind_of_called {c : Context} {s : Statement} {callee : Callee} {arguments : List Argument}
    (h : s.called? = some (callee, arguments)) : ∃ kind ∈ runKinds, kind? c s = some kind := by
  obtain ⟨e, he, hshape⟩ := Option.bind_eq_some_iff.mp h
  have hcall : ∃ kind ∈ callKinds, callKind (checkedShape e) = some kind := by
    cases hcase : checkedShape e <;> simp [hcase, Shape.called?] at hshape <;>
      simp [callKind, callKinds]
  obtain ⟨kind, hkind, hkind'⟩ := hcall
  cases s with
  | declaration d =>
    have hvalue : d.initializer = some e := he
    rw [kind?, hvalue, Option.map_some]
    cases hcase : checkedShape e with
    | call qualifier name list =>
      cases qualifier with
      | none => simp only [declaredKind]; split <;> simp [runKinds, callKinds]
      | some qualifier => exact ⟨.functionCall, by decide, rfl⟩
    | remote client method list => exact ⟨.actionCall, by decide, rfl⟩
    | _ => simp [hcase, Shape.called?] at hshape
  | exit word value span =>
    cases word with
    | «return» =>
      obtain rfl : value = some e := he
      exact ⟨kind, List.mem_cons_of_mem _ hkind, by simp [kind?, hkind']⟩
    | fail => simp [Statement.operand?] at he
    | panic => simp [Statement.operand?] at he
  | expression value span =>
    obtain rfl : value = e := Option.some.inj he
    exact ⟨kind, List.mem_cons_of_mem _ hkind, by simp [kind?, hkind']⟩
  | assignment target value span => simp [Statement.operand?] at he
  | conditional read => simp [Statement.operand?] at he
  | loop value body span => simp [Statement.operand?] at he
  | jump word span => simp [Statement.operand?] at he
  | unsupported construct span => simp [Statement.operand?] at he

/-- Only a declaration maps data, with a function of the document. -/
lemma declared_of_dataMapper {c : Context} {s : Statement} (h : kind? c s = some .dataMapper) :
    ∃ d e name arguments, s = .declaration d ∧ s.operand? = some e ∧
      checkedShape e = .call none name arguments := by
  cases s with
  | declaration d =>
    rw [kind?] at h
    cases hvalue : d.initializer with
    | none =>
      rw [hvalue] at h
      simp only [Option.map_none, declaredKind, Option.some.injEq] at h
      split at h <;> simp at h
    | some e =>
      rw [hvalue] at h
      cases hshape : checkedShape e with
      | call qualifier name arguments =>
        cases qualifier with
        | none => exact ⟨d, e, name, arguments, rfl, hvalue, hshape⟩
        | some qualifier => simp [hshape, declaredKind, callKind] at h
      | new type arguments =>
        simp only [Option.map_some, hshape, declaredKind, Option.some.injEq] at h
        split at h <;> simp at h
      | _ => simp [hshape, declaredKind, callKind] at h
  | exit word value span =>
    cases word with
    | «return» =>
      cases value with
      | none => simp [kind?] at h
      | some e =>
        simp only [kind?, Option.bind_some, Function.comp, Option.some.injEq] at h
        cases hshape : checkedShape e <;> simp [hshape, callKind] at h
    | fail => simp [kind?] at h
    | panic => simp [kind?] at h
  | expression e span =>
    simp only [kind?, Option.some.injEq] at h
    cases hshape : checkedShape e <;> simp [hshape, callKind] at h
  | jump word span => cases word <;> simp [kind?] at h
  | assignment target value span => simp [kind?] at h
  | conditional read => simp [kind?] at h
  | loop value body span => simp [kind?] at h
  | unsupported construct span => simp [kind?] at h

/-- The call of a mapping function is written with its arguments as they are. -/
lemma reads_dataMapper {c : Context} {n : FlowNode} {site : Site} {d : Declaration} {name : String}
    {arguments : List Argument} (hkind : n.kind = .dataMapper)
    (hnode : Build.dataMapper c site = .ok n)
    (hshape : site.shape? = some (.call none name arguments)) (hname : IsName name)
    (hreturning : site.returning = false) (hdeclaration : site.declaration = some d)
    (hdeclared : d.Sound) (hsound : ∀ a ∈ arguments, a.Sound) :
    ∃ text, (Builders.standard.written n).text = .ok text ∧
      Reads text.toList (Build.siteLead site ++ ((Callee.function none name).lexemes ++
        (.punctuation, "(") :: (Argument.commaJoined (arguments.map Argument.lexemes) ++
          [(.punctuation, ")")])) ++ [(.punctuation, ";")]) := by
  have hholds := Build.holds_dataMapper hnode hshape
  have hall : ∀ d' ∈ site.declaration, d'.Sound := by
    intro d' hd'
    obtain rfl := Option.some.inj (hdeclaration.symm.trans hd')
    exact hdeclared
  have hwritable : ∀ p ∈ (arguments.map Build.ownSlot).map Build.slotProperty,
      Write.Writable p := by
    intro p hp
    obtain ⟨slot, hslot, rfl⟩ := List.mem_map.mp hp
    obtain ⟨a, ha, rfl⟩ := List.mem_map.mp hslot
    exact Build.writable_ownSlot (hsound a ha)
  have hinputs := Build.toList_inputs arguments
  have hslots : List.Forall₂ Build.SlotOf (arguments.map Build.ownSlot) arguments :=
    List.forall₂_map_left_iff.mpr (List.forall₂_same.mpr fun a _ => Build.slotOf_ownSlot a)
  rw [← Build.lexemes_slots hslots hsound, ← Write.argumentsLexemes_eq]
  have hentry := hholds.get?_mapper hreturning hdeclaration
  have hled : Write.Led n := by
    refine Build.led_of_readable fun p hp => ?_
    rcases hholds.mem hp with hmem | hmem | hmem
    · exact Build.readable_boundProperties hall hmem
    · rcases List.mem_cons.mp hmem with rfl | hmem'
      · exact .of_legible hname
      · obtain rfl := List.mem_singleton.mp hmem'
        cases arguments with
        | nil => exact .inl rfl
        | cons a arguments =>
          have hlegible := Write.legible_arguments hwritable
          simp only [List.map_cons] at hinputs hlegible
          rw [← hinputs] at hlegible
          exact .of_legible hlegible
    · simp [PropertyBag.empty] at hmem
  have hlead : Write.WritesLead (Write.binding n ++ Write.wordIf n .checked .check)
      (Build.siteLead site) := by
    have hkeys : ∀ p ∈ Build.mapperProperties name arguments, p.key ≠ "variable" := by
      intro p hp
      rcases List.mem_cons.mp hp with rfl | hp'
      · exact show "functionName" ≠ "variable" by decide
      · obtain rfl := List.mem_singleton.mp hp'
        exact show "inputs" ≠ "variable" by decide
    rw [← hholds.leadLexemes hall hkeys (by simp [PropertyBag.empty])]
    have hcallLead := hled.callLead
    rw [Write.callLead, hholds.returning, hreturning] at hcallLead
    exact hcallLead
  have hvariable := require_of_get? (hholds.get?_variable hreturning hdeclaration)
    hdeclared.name.trimmed.blank
  have hfunction : Write.require n "functionName" = .ok name :=
    require_of_get? (hentry _ List.mem_cons_self) hname.trimmed.blank
  obtain ⟨inputs, hinputs', htext⟩ : ∃ inputs : String, inputs.toList =
      Write.argumentsText ((arguments.map Build.ownSlot).map Build.slotProperty) ∧
        (n.properties.text? "inputs").getD "" = inputs := by
    have hget : n.properties.get? "inputs" = _ :=
      hentry _ (List.mem_cons_of_mem _ List.mem_cons_self)
    cases arguments with
    | nil =>
      refine ⟨"", rfl, ?_⟩
      rw [PropertyBag.text?, hget]
      rfl
    | cons a arguments =>
      have htrimmed := (Write.legible_arguments hwritable).trimmed
      simp only [List.map_cons] at hinputs htrimmed
      rw [← hinputs] at htrimmed
      exact ⟨_, hinputs, by rw [text?_of_get? hget htrimmed.blank]; rfl⟩
  refine Write.reads_pieces ?_ hlead (Write.writesCallee_function (by simp) hname)
    (Write.writesGroup_inputs hwritable hinputs')
  simp only [Write.statement, hkind, Write.dataMapper, hvariable, hfunction, htext]
  simp [Write.functionText, bind, Except.bind, pure, Except.pure]

lemma NamesOptional.of_none {c : Context} {n : FlowNode}
    (h : Build.consultedTemplate c n = none) :
    ∀ p ∈ (Build.parameters (Build.consultedTemplate c n)).entries, p.optional → IsName p.key := by
  rw [h]
  simp [Build.parameters, PropertyBag.empty]

/-- The text of a call without a template and with separate arguments, or of a call of a mapping
function, has the tokens of its statement. -/
lemma reads_of_called {c : Context} {s : Statement} {n : FlowNode} {used rest : Phrase}
    {callee : Callee} {arguments : List Argument} (hspells : Spells s used rest)
    (hsource : Sourced used) (hcalled : s.called? = some (callee, arguments))
    (hdeclared : ∀ d ∈ s.declaration?, d.annotations = [] ∧ d.type ≠ [])
    (hpanics : ∀ e ∈ s.operand?, e.first.isWord ["checkpanic"] = false)
    (hfilled : ∀ inner ∈ group? s, Argument.filled inner)
    (hn : statement .standard c s = some n) (hkind : n.kind ∈ runKinds)
    (hcall : n.kind ∈ callKinds → Build.consultedTemplate c n = none ∧
      Separate (Build.declaredNames c n) arguments) :
    ∃ text, (Builders.standard.written n).text = .ok text ∧ Reads text.toList used.lexemes := by
  rcases List.mem_cons.mp hkind with hmapper | hkind'
  · obtain ⟨kind, hkind?, hbuilt⟩ := builtAt_statement hn
    obtain ⟨d, e, name, list, rfl, he, hshape⟩ :=
      declared_of_dataMapper (hkind?.trans (congrArg some (hbuilt.kind.symm.trans hmapper)))
    obtain ⟨e', site, hsite, hnode⟩ := callSite_of_statement hn hkind
    obtain rfl : e = e' := Option.some.inj (he.symm.trans hsite.operand)
    have hrun : (checkedShape e).called? = some (.function none name, list) := by
      rw [hshape]
      rfl
    obtain ⟨front, marks, phrase, inner, hsited⟩ := sited_of_callSite hspells hsource hsite hrun
    rw [hmapper] at hnode
    rw [hsited.lexemes hsource hdeclared hpanics hfilled]
    exact reads_dataMapper hmapper hnode (hsite.shape.trans (congrArg some hshape))
      ((hsited.takes.spellsCallee.sourced hsited.sourced).2 name (by simp [calleeNames]))
      hsite.returning hsite.declaration (hsited.declared d rfl) hsited.sound
  · obtain ⟨hnone, hseparate⟩ := hcall hkind'
    obtain ⟨site, callee', arguments', front, marks, phrase, inner, hsited, hwritten⟩ :=
      written_of_statement hspells hsource hn hkind' (NamesOptional.of_none hnone)
    obtain ⟨rfl, rfl⟩ := Prod.mk.inj (Option.some.inj (hcalled.symm.trans hsited.called))
    obtain ⟨ls, ⟨text, htext, hreads⟩, hplain⟩ := hwritten.reads
    obtain ⟨rfl, hlead⟩ := hplain (hnone ▸ hseparate.free)
    rw [hlead, hwritten.argumentsLexemes_eq hsited.sound hnone hseparate] at hreads
    exact ⟨text, htext, hsited.lexemes hsource hdeclared hpanics hfilled ▸ hreads⟩

/-- A statement that runs a call, without annotations and with all places between its commas
filled, has a node of a call. If that has no template and its arguments are separate, or if it is
the call of a mapping function, it is written as one edit at the place of the statement whose text
has the tokens of the statement. -/
theorem toSource_restores_call {path : Path} {text : String} {d : Document}
    (hparse : Document.parse path text = .ok d) {c : Context} {s : Statement} {callee : Callee}
    {arguments : List Argument} (hinside : Construct.Inside (.module d.tree) (.statement s))
    (hcalled : s.called? = some (callee, arguments))
    (hdeclared : ∀ d' ∈ s.declaration?, d'.annotations = [] ∧ d'.type ≠ [])
    (hpanics : ∀ e ∈ s.operand?, e.first.isWord ["checkpanic"] = false)
    (hfilled : ∀ inner ∈ group? s, Argument.filled inner) (connectionsFile : String) :
    ∃ n, statement .standard c s = some n ∧ n.kind ∈ runKinds ∧
      ((n.kind ∈ callKinds → Build.consultedTemplate c n = none ∧
        Separate (Build.declaredNames c n) arguments) →
      ∃ e us us', Builders.standard.toSource n d.path connectionsFile = .ok [(d.path.text, [e])] ∧
        e.start = s.span.start.position ∧ e.stop = s.span.stop.position ∧
        tokenize (d.slice s.span) = .ok us ∧ tokenize e.newText = .ok us' ∧
        Phrase.lexemes us' = Phrase.lexemes us) := by
  obtain ⟨kind, hkind, hclass⟩ := kind_of_called (c := c) hcalled
  obtain ⟨n, hn, hbuilt⟩ := built_ofBranches hclass (branchesOf .standard c s)
  have hrun : n.kind ∈ runKinds := hbuilt.kind ▸ hkind
  refine ⟨n, hn, hrun, fun hcall => ?_⟩
  obtain ⟨used, rest, hspells, htells, hlexemes⟩ := spells_of_inside hparse hinside
  obtain ⟨text', htext, hreads⟩ := reads_of_called hspells htells.sourced hcalled hdeclared hpanics
    hfilled hn hrun hcall
  have hlocal : kind ≠ .newConnection := by
    rintro rfl
    simp [runKinds, callKinds] at hkind
  obtain ⟨us', hus', hsame⟩ := tokenize_of_run (List.append_nil _).symm (hreads.run []) (by rfl)
  obtain ⟨us, hus, hslice⟩ : ∃ us, tokenize (d.slice s.span) = .ok us ∧
      Phrase.lexemes us = used.lexemes := by
    have hne : d.lexemesAt s.span ≠ [] := by
      obtain ⟨-, front, marks, phrase, inner, checked, -, -, htakes, -⟩ :=
        takes_of_spells hspells hcalled
      obtain ⟨first, last, semicolon, rfl, -⟩ := htakes.tokens
      simp [hlexemes]
    unfold Document.lexemesAt at hlexemes hne
    cases hslice : tokenize (d.slice s.span) with
    | error e => simp [hslice] at hne
    | ok us => exact ⟨us, rfl, by simpa [hslice] using hlexemes⟩
  exact ⟨_, us, us', toSource_of_builtAt hbuilt hlocal htext d.path connectionsFile, rfl, rfl, hus,
    hus', hsame.trans hslice.symm⟩

/-- A final declaration of the value of a remote call, with a positional and a named argument. -/
theorem toSource_restores_call_remote :
    ∃ d s n e us us' callee arguments,
      Document.parse ⟨"main.bal"⟩
        "function f() \x7b final int|error x = check a.b->get(1, p = 2); \x7d" = .ok d ∧
      Construct.Inside (.module d.tree) (.statement s) ∧
      s.called? = some (callee, arguments) ∧
      (∀ d' ∈ s.declaration?, d'.annotations = [] ∧ d'.type ≠ []) ∧
      (∀ e ∈ s.operand?, e.first.isWord ["checkpanic"] = false) ∧
      (∀ inner ∈ group? s, Argument.filled inner) ∧
      statement .standard (bareContext d) s = some n ∧
      Build.consultedTemplate (bareContext d) n = none ∧
      Separate (Build.declaredNames (bareContext d) n) arguments ∧
      Builders.standard.toSource n d.path "connections.bal" = .ok [(d.path.text, [e])] ∧
      tokenize (d.slice s.span) = .ok us ∧ tokenize e.newText = .ok us' ∧
      Phrase.lexemes us' = Phrase.lexemes us := by
  have hcheck : (Document.statementAt?
        "function f() \x7b final int|error x = check a.b->get(1, p = 2); \x7d" ⟨0, 15⟩ ⟨0, 58⟩).any
      (fun found =>
        (found.2.declaration?.all fun d' => d'.annotations.isEmpty && !d'.type.isEmpty) &&
        ((found.2.operand?.all fun e => !e.first.isWord ["checkpanic"]) &&
        ((group? found.2).all Argument.filled &&
        (statement .standard (bareContext found.1) found.2).any fun n =>
          found.2.called?.any fun called =>
            (Build.consultedTemplate (bareContext found.1) n).isNone &&
            decide (Separate (Build.declaredNames (bareContext found.1) n) called.2)))) = true := by
    decide +kernel
  obtain ⟨d, s, hparse, hinside, hcheck⟩ := Document.exists_of_statementAt? hcheck
  simp only [Bool.and_eq_true] at hcheck
  obtain ⟨hdeclared, hpanics, hfilled, hbuilt⟩ := hcheck
  obtain ⟨n, hn, hcall⟩ := Option.any_eq_true _ _ |>.mp hbuilt
  obtain ⟨⟨callee, arguments⟩, hcalled, hcheck⟩ := Option.any_eq_true _ _ |>.mp hcall
  simp only [Bool.and_eq_true, Option.isNone_iff_eq_none, decide_eq_true_eq] at hcheck
  have hdeclared' : ∀ d' ∈ s.declaration?, d'.annotations = [] ∧ d'.type ≠ [] := by
    simpa [Option.all_eq_true] using hdeclared
  have hpanics' : ∀ e ∈ s.operand?, e.first.isWord ["checkpanic"] = false := by
    simpa [Option.all_eq_true] using hpanics
  have hfilled' : ∀ inner ∈ group? s, Argument.filled inner := by
    simpa [Option.all_eq_true] using hfilled
  obtain ⟨n', hn', -, hrestores⟩ := toSource_restores_call (c := bareContext d) hparse hinside
    hcalled hdeclared' hpanics' hfilled' "connections.bal"
  obtain rfl : n = n' := Option.some.inj (hn.symm.trans hn')
  obtain ⟨e, us, us', hsource, -, -, hus, hus', hsame⟩ := hrestores fun _ => hcheck
  exact ⟨d, s, n, e, us, us', callee, arguments, hparse, hinside, hcalled, hdeclared',
    hpanics', hfilled', hn, hcheck.1, hcheck.2, hsource, hus, hus', hsame⟩

end Analysis

end FlowCanvas
