import FlowCanvas.Proofs.Rereading

/-!
# What is lost of a call

The arguments of a call are kept by key beside the structural properties of its node. A call comes
back with all of its values exactly if its arguments have keys of their own that are no structure,
and none of them is taken for a named argument when it is written without its name.
-/

namespace FlowCanvas

namespace Build

/-- The arguments of a call are all kept: their keys differ, none is structural, and what is written
without a name is not read as a named argument. -/
structure Kept (template : Option FlowNode) (names : List String) (arguments : List Argument) :
    Prop where
  keys : ((slots template names arguments).map (·.key)).Nodup
  free : ∀ slot ∈ slots template names arguments, slot.key ∉ Property.structuralKeys
  unnamed : ∀ slot ∈ slots template names arguments, slot.byName = false →
    Argument.looksNamed slot.value.tokens.lexemes = false

instance (template : Option FlowNode) (names : List String) (arguments : List Argument) :
    Decidable (Kept template names arguments) :=
  decidable_of_iff
    (((slots template names arguments).map (·.key)).Nodup ∧
      (∀ slot ∈ slots template names arguments, slot.key ∉ Property.structuralKeys) ∧
      ∀ slot ∈ slots template names arguments, slot.byName = false →
        Argument.looksNamed slot.value.tokens.lexemes = false)
    ⟨fun h => ⟨h.1, h.2.1, h.2.2⟩, fun h => ⟨h.keys, h.free, h.unnamed⟩⟩

lemma values_slotsFrom (start : PropertyBag) (names : List String) (place : Nat)
    (arguments : List Argument) :
    (slotsFrom start names place arguments).map (·.value) = arguments.map (·.value) := by
  induction arguments generalizing place with
  | nil => rfl
  | cons a arguments ih =>
    rw [slotsFrom]
    cases a.name with
    | none => simp [ih]
    | some name => simp [ih]

end Build

namespace Write

open Lexer Brackets Argument

/-- The lexemes of the value that is read from a written argument. -/
def readValue (byName : Bool) (value : List Lexeme) : List Lexeme :=
  if byName then value else valueOf value

lemma valueOf_argumentLexemes {p : Property} (hne : lexemesOf p.sourceText ≠ []) :
    valueOf (argumentLexemes p) = readValue p.optional (lexemesOf p.sourceText) := by
  unfold argumentLexemes readValue
  split
  · obtain ⟨l, ls, hls⟩ := List.exists_cons_of_ne_nil hne
    simp [valueOf, looksNamed, hls]
  · rfl

/-- A property whose value was read from an argument. -/
structure Taken (p : Property) (a : Argument) : Prop where
  writable : Writable p
  sound : a.Sound
  text : p.sourceText = a.value.text

lemma Taken.lexemesOf {p : Property} {a : Argument} (h : Taken p a) :
    lexemesOf p.sourceText = a.value.tokens.lexemes := by
  rw [h.text]
  exact h.sound.legible.lexemesOf

lemma IsName.ne_comma {name : String} (h : IsName name) : name ≠ "," := by
  rintro rfl
  obtain ⟨c, cs, hcons, -, -, hword, -⟩ := Starts.word (@IsName.starts _ h [] (by simp))
  obtain ⟨rfl, rfl⟩ := List.cons.inj (show ',' :: [] = c :: cs from hcons)
  exact absurd hword (by decide)

lemma free_identifier_equal {name equal : Token} {us : Phrase}
    (hname : (name.kind, name.text) = (.identifier, name.text)) (hcomma : name.text ≠ ",")
    (hequal : (equal.kind, equal.text) = (.punctuation, "=")) (h : Free "," us) :
    Free "," (name :: equal :: us) := by
  obtain ⟨hkind, -⟩ := Prod.mk.inj hname
  obtain ⟨hkind', htext⟩ := Prod.mk.inj hequal
  unfold Free at *
  simpa [depthAfter?, Token.is, Token.isOpener, Token.isCloser, hkind, hkind', htext, hcomma]
    using h

/-- A property whose text has no comma outside of brackets. -/
structure Separable (p : Property) : Prop where
  writable : Writable p
  free : ∀ us : Phrase, us.lexemes = Lexer.lexemesOf p.sourceText → us ≠ [] ∧ Free "," us

lemma Taken.separable {p : Property} {a : Argument} (h : Taken p a) : Separable p := by
  refine ⟨h.writable, fun us hus => ?_⟩
  rw [h.lexemesOf] at hus
  have halike : a.value.tokens.Alike us := Phrase.alike_iff.mpr hus.symm
  exact ⟨halike.ne_nil (Analysis.tokens_ne_nil _), halike.free h.sound.free⟩

/-- What is spelled like a written argument has no comma outside of brackets. -/
lemma Separable.free_argument {p : Property} (h : Separable p) {us : Phrase}
    (hus : us.lexemes = argumentLexemes p) : us ≠ [] ∧ Free "," us := by
  unfold argumentLexemes at hus
  split at hus
  · rename_i hoptional
    obtain ⟨name, vs, rfl, hname, hvs⟩ := Phrase.lexemes_eq_cons hus
    obtain ⟨equal, ws, rfl, hequal, hws⟩ := Phrase.lexemes_eq_cons hvs
    refine ⟨by simp, free_identifier_equal ?_ ?_ hequal (h.free ws hws).2⟩
    · rw [(Prod.mk.inj hname).1]
    · rw [(Prod.mk.inj hname).2]
      exact IsName.ne_comma (h.writable.key hoptional)
  · exact h.free us hus

lemma joined_of_lexemes {p : Property} {ps : List Property} {us : Phrase}
    (hus : us.lexemes = argumentsLexemes (p :: ps)) :
    ∃ list, Joined list us ∧ list.map Phrase.lexemes = (p :: ps).map argumentLexemes := by
  induction ps generalizing p us with
  | nil => exact ⟨[us], .single, by simpa [argumentsLexemes] using hus⟩
  | cons q ps ih =>
    obtain ⟨first, rest, rfl, hfirst, hrest⟩ := Phrase.lexemes_eq_append hus
    obtain ⟨comma, others, rfl, hcomma, hothers⟩ := Phrase.lexemes_eq_cons hrest
    obtain ⟨list, hjoined, hlist⟩ := ih hothers
    refine ⟨first :: list, .cons ?_ hjoined, by simp [hfirst, hlist]⟩
    simp [Token.is, Prod.mk.inj hcomma]

/-- What is spelled like written arguments is read as these arguments. -/
lemma parts_of_lexemes {ps : List Property} (h : ∀ p ∈ ps, Separable p) {us : Phrase}
    (hsource : Sourced us) (hus : us.lexemes = argumentsLexemes ps) :
    Matched us ∧ (listOf us).map parts = ps.map fun p => partsOf (argumentLexemes p) := by
  cases ps with
  | nil =>
    obtain rfl : us = [] := List.map_eq_nil_iff.mp hus
    exact ⟨.nil, rfl⟩
  | cons p ps =>
    obtain ⟨list, hjoined, hlist⟩ := joined_of_lexemes hus
    have hsegs : ∀ seg ∈ list, seg ≠ [] ∧ Free "," seg := by
      intro seg hseg
      have hmem : seg.lexemes ∈ (p :: ps).map argumentLexemes :=
        hlist ▸ List.mem_map_of_mem hseg
      obtain ⟨q, hq, heq⟩ := List.mem_map.mp hmem
      exact (h q hq).free_argument heq.symm
    refine ⟨hjoined.matched (fun seg hseg => (hsegs seg hseg).2) fun t ht hcomma => ?_, ?_⟩
    · exact (Prod.mk.inj (hsource.mark ht hcomma (by decide))).1
    · have hmap : (list.map fun seg => partsOf (Phrase.lexemes seg)) =
          (list.map Phrase.lexemes).map partsOf := by simp
      rw [parts_listOf hjoined (fun seg hseg => (hsegs seg hseg).1)
        (fun seg hseg => (hsegs seg hseg).2), hmap, hlist, List.map_map]
      rfl

/-- What is spelled like written arguments is read as arguments with their values. -/
lemma values_of_lexemes {ps : List Property} (h : ∀ p ∈ ps, ∃ a, Taken p a) {us : Phrase}
    (hsource : Sourced us) (hus : us.lexemes = argumentsLexemes ps) :
    Matched us ∧ (listOf us).map (·.value.tokens.lexemes) =
      ps.map fun p => readValue p.optional (lexemesOf p.sourceText) := by
  obtain ⟨hmatched, hparts⟩ := parts_of_lexemes (fun p hp => by
    obtain ⟨a, ha⟩ := h p hp
    exact ha.separable) hsource hus
  refine ⟨hmatched, ?_⟩
  have hvalues := congrArg (List.map Prod.snd) hparts
  rw [List.map_map, List.map_map] at hvalues
  refine hvalues.trans (List.map_congr_left fun p hp => ?_)
  obtain ⟨a, ha⟩ := h p hp
  refine valueOf_argumentLexemes ?_
  rw [ha.lexemesOf]
  simp [Expression.tokens]

end Write

namespace Analysis

open Lexer FlowCanvas.Parser Brackets

/-! ### The values that come back -/

variable {c : Context} {n : FlowNode} {site : Site} {callee : Callee} {arguments : List Argument}

lemma Written.taken (h : Written c n site callee arguments) (hsound : ∀ a ∈ arguments, a.Sound) :
    ∀ p ∈ Write.argumentProperties n, ∃ a, Write.Taken p a := by
  intro p hp
  obtain ⟨hentry, hgiven⟩ := List.mem_filter.mp (h.perm.mem_iff.mp hp)
  rw [Bool.and_eq_true] at hgiven
  rcases Build.blank_or_argument hentry with hblank | ⟨a, ha, htext⟩
  · simp [hblank] at hgiven
  · exact ⟨a, h.writable p hp, hsound a ha, htext⟩

/-- The group of a call is the one that its tokens end with. -/
lemma Takes.lexemes {s : Statement} {used front marks phrase inner : Phrase} {checked : Bool}
    (h : Takes s used front marks phrase inner callee checked) {lead args : List Lexeme}
    (hused : used.lexemes = lead ++ ((.punctuation, "(") :: (args ++ [(.punctuation, ")")])) ++
      [(.punctuation, ";")])
    (hargs : ∀ us : Phrase, us <:+: used → us.lexemes = args → Matched us) :
    inner.lexemes = args := by
  obtain ⟨first, last, semicolon, hparts, hopen, hparen, hclose, -⟩ := h.tokens
  obtain ⟨body, ends, rfl, hbody, hends⟩ := Phrase.lexemes_eq_append hused
  obtain ⟨semicolon', none, rfl, -, hnone⟩ := Phrase.lexemes_eq_cons hends
  obtain rfl : none = [] := List.map_eq_nil_iff.mp hnone
  obtain ⟨xs, ys, rfl, -, hys⟩ := Phrase.lexemes_eq_append hbody
  obtain ⟨first', zs, rfl, hfirst', hzs⟩ := Phrase.lexemes_eq_cons hys
  obtain ⟨inner', lasts, rfl, hinner', hlasts⟩ := Phrase.lexemes_eq_append hzs
  obtain ⟨last', none, rfl, hlast', hnone'⟩ := Phrase.lexemes_eq_cons hlasts
  obtain rfl : none = [] := List.map_eq_nil_iff.mp hnone'
  have hsame : xs ++ first' :: (inner' ++ [last']) =
      (front ++ (marks ++ phrase)) ++ first :: (inner ++ [last]) := by
    have hparts' : (xs ++ first' :: (inner' ++ [last'])) ++ [semicolon'] =
        ((front ++ (marks ++ phrase)) ++ first :: (inner ++ [last])) ++ [semicolon] := by
      simpa using hparts
    exact (List.append_inj' hparts' rfl).1
  have hmatched : Matched inner' :=
    hargs inner' ⟨xs ++ [first'], [last', semicolon'], by simp⟩ hinner'
  have hsplit : splitLastGroup? (xs ++ first' :: (inner' ++ [last'])) = some (xs, inner') := by
    refine splitLastGroup?_eq_some_iff.mpr ⟨first', last', rfl, ?_, ?_, ?_, hmatched⟩
    · simp [Token.isOpener, Prod.mk.inj hfirst']
    · simp [Token.is, Prod.mk.inj hfirst']
    · simp [Token.is, Prod.mk.inj hlast']
  have hsplit' : splitLastGroup? (xs ++ first' :: (inner' ++ [last'])) =
      some (front ++ (marks ++ phrase), inner) :=
    splitLastGroup?_eq_some_iff.mpr ⟨first, last, hsame, hopen, hparen, hclose, h.matched⟩
  rw [hsplit] at hsplit'
  obtain ⟨-, rfl⟩ := Prod.mk.inj (Option.some.inj hsplit')
  exact hinner'

/-- The values that are read back from the slots of a call. -/
def slotValue (slot : Build.Slot) : List Lexeme :=
  Write.readValue slot.byName slot.value.tokens.lexemes

/-- With keys of their own that are no structure, all arguments are read back from their slots. -/
lemma Written.values_perm (h : Written c n site callee arguments)
    (hsound : ∀ a ∈ arguments, a.Sound)
    (hkeys : ((Build.slots (Build.consultedTemplate c n) (Build.declaredNames c n)
      arguments).map (·.key)).Nodup)
    (hfree : ∀ slot ∈ Build.slots (Build.consultedTemplate c n) (Build.declaredNames c n) arguments,
      slot.key ∉ Property.structuralKeys) :
    ((Write.argumentProperties n).map fun p =>
      Write.readValue p.optional (lexemesOf p.sourceText)).Perm
      ((Build.slots (Build.consultedTemplate c n) (Build.declaredNames c n) arguments).map
        slotValue) := by
  have hgiven := Build.given_perm (Build.blank_of_sound hsound) hkeys hfree
  have hsigns := (h.perm.map Build.signOf).trans hgiven
  have hread := hsigns.map fun sign : String × Bool × String =>
    Write.readValue sign.2.1 (lexemesOf sign.2.2)
  rw [List.map_map, List.map_map] at hread
  refine hread.trans (List.Perm.of_eq (List.map_congr_left fun slot hslot => ?_))
  have hvalue : slot.value ∈ arguments.map (·.value) := by
    rw [← Build.values_slotsFrom]
    exact List.mem_map_of_mem hslot
  obtain ⟨a, ha, hvalue'⟩ := List.mem_map.mp hvalue
  have hlexemes : lexemesOf slot.value.text = slot.value.tokens.lexemes := by
    rw [← hvalue']
    exact (hsound a ha).legible.lexemesOf
  simp only [Function.comp, Build.Slot.sign, slotValue, hlexemes]

lemma values_slots (template : Option FlowNode) (names : List String) :
    arguments.map (·.value.tokens.lexemes) =
      (Build.slots template names arguments).map (·.value.tokens.lexemes) := by
  have hvalues := congrArg (List.map fun value : Expression => value.tokens.lexemes)
    (Build.values_slotsFrom (Build.parameters template) names 0 arguments)
  rw [List.map_map, List.map_map] at hvalues
  exact hvalues.symm

lemma length_readValue (byName : Bool) (value : List Lexeme) :
    (Write.readValue byName value).length ≤ value.length := by
  unfold Write.readValue Argument.valueOf
  split_ifs <;> simp

/-- Numbers that are not greater one by one are the same if their sums are. -/
lemma eq_of_sum_eq {α : Type} {f g : α → Nat} {xs : List α} (hle : ∀ x ∈ xs, f x ≤ g x) :
    (xs.map f).sum ≤ (xs.map g).sum ∧
      ((xs.map f).sum = (xs.map g).sum → ∀ x ∈ xs, f x = g x) := by
  induction xs with
  | nil => simp
  | cons x xs ih =>
    obtain ⟨hrest, hsame⟩ := ih fun y hy => hle y (List.mem_cons_of_mem _ hy)
    have hx := hle x List.mem_cons_self
    simp only [List.map_cons, List.sum_cons]
    refine ⟨by omega, fun hsum y hy => ?_⟩
    rcases List.mem_cons.mp hy with rfl | hy'
    · omega
    · exact hsame (by omega) y hy'

/-- The values that are read back are the ones of the arguments exactly if all are kept. -/
lemma Written.perm_iff_kept (h : Written c n site callee arguments)
    (hsound : ∀ a ∈ arguments, a.Sound) :
    ((Write.argumentProperties n).map fun p =>
      Write.readValue p.optional (lexemesOf p.sourceText)).Perm
      (arguments.map (·.value.tokens.lexemes)) ↔
      Build.Kept (Build.consultedTemplate c n) (Build.declaredNames c n) arguments := by
  rw [values_slots (Build.consultedTemplate c n) (Build.declaredNames c n)]
  constructor
  · intro hperm
    have hlength := hperm.length_eq
    rw [List.length_map, List.length_map, h.perm.length_eq] at hlength
    obtain ⟨hkeys, hfree⟩ := Build.slots_of_length_given hlength
    refine ⟨hkeys, hfree, fun slot hslot hbyName => ?_⟩
    have hsame := ((h.values_perm hsound hkeys hfree).symm.trans hperm).map List.length
    have hsum := hsame.sum_nat
    rw [List.map_map, List.map_map] at hsum
    have hslots := (eq_of_sum_eq fun slot _ => length_readValue _ _).2 hsum slot hslot
    simp only [Write.readValue, hbyName, Bool.false_eq_true, if_false, Argument.valueOf] at hslots
    by_contra hnamed
    rw [Bool.not_eq_false] at hnamed
    rw [if_pos hnamed, List.length_drop] at hslots
    simp [Expression.tokens] at hslots
  · rintro ⟨hkeys, hfree, hunnamed⟩
    refine (h.values_perm hsound hkeys hfree).trans (List.Perm.of_eq ?_)
    refine List.map_congr_left fun slot hslot => ?_
    unfold slotValue Write.readValue Argument.valueOf
    cases hbyName : slot.byName with
    | true => rfl
    | false => rw [if_neg (by simp), if_neg (by simp [hunnamed slot hslot hbyName])]

/-! ### The statement that comes back -/

lemma isPath_alike {client client' : Phrase} (h : client.Alike client')
    (hpath : Shape.isPath client) : Shape.isPath client' := by
  fun_induction Shape.isPath client generalizing client' with
  | case1 => simp at hpath
  | case2 t =>
    obtain ⟨u, rfl, hsame⟩ := h.singleton_left
    rw [Shape.isPath, ← hsame.isIdentifier]
    exact hpath
  | case3 t u ts ih =>
    obtain ⟨t', us, rfl, hsame, hus⟩ := h.cons_left
    obtain ⟨u', vs, rfl, hsame', hvs⟩ := hus.cons_left
    simp only [Bool.and_eq_true] at hpath
    rw [Shape.isPath, ← hsame.isIdentifier, ← hsame'.is, hpath.1.1, hpath.1.2]
    exact ih hvs hpath.2

lemma spellsCallee_alike {phrase phrase' : Phrase} (h : SpellsCallee callee phrase)
    (halike : phrase.Alike phrase') : SpellsCallee callee phrase' := by
  cases h with
  | plain h =>
    obtain ⟨method', rfl, hsame⟩ := halike.singleton_left
    rw [hsame.2]
    exact .plain (hsame.isIdentifier ▸ h)
  | qualified hqualifier hcolon h =>
    obtain ⟨qualifier', us, rfl, hsame, hus⟩ := halike.cons_left
    obtain ⟨colon', vs, rfl, hsame', hvs⟩ := hus.cons_left
    obtain ⟨method', rfl, hsame''⟩ := hvs.singleton_left
    rw [hsame.2, hsame''.2]
    exact .qualified (hsame.isIdentifier ▸ hqualifier) (hsame'.is ":" ▸ hcolon)
      (hsame''.isIdentifier ▸ h)
  | action hclient harrow h =>
    obtain ⟨client', us, rfl, hclients, hus⟩ := halike.append_left
    obtain ⟨arrow', vs, rfl, hsame, hvs⟩ := hus.cons_left
    obtain ⟨method', rfl, hsame'⟩ := hvs.singleton_left
    rw [Phrase.alike_iff.mp hclients, hsame'.2]
    exact .action (isPath_alike hclients hclient) (hsame.is "->" ▸ harrow)
      (hsame'.isIdentifier ▸ h)

/-- What is spelled like a call of a source, with other arguments, is read as that call. -/
lemma readsCall_alike {phrase : Phrase} {checked : Bool} (hcallee : SpellsCallee callee phrase)
    (hphrase : Sourced phrase) (hhead : ∀ t ∈ phrase.head?, t.isWord nonCallWords = false)
    {ts : Phrase} {args : List Lexeme} (hts : ts.lexemes = callLexemes callee checked args)
    (hargs : ∀ us : Phrase, us <:+: ts → us.lexemes = args → Matched us) :
    ∃ (e : Expression) (phrase' us : Phrase), e.tokens = ts ∧ phrase.Alike phrase' ∧ us <:+: ts ∧
      us.lexemes = args ∧ ReadsCall e callee checked phrase' us := by
  have halike : ∀ phrase' : Phrase, phrase'.lexemes = callee.lexemes → phrase.Alike phrase' := by
    intro phrase' hphrase'
    rw [Phrase.alike_iff, (hcallee.sourced hphrase).1, hphrase']
  obtain ⟨e, phrase', us, htokens, hphrase', hus, hlexemes, hreads⟩ :=
    readsCall_of_lexemes hts (fun phrase' hphrase' =>
      ⟨spellsCallee_alike hcallee (halike phrase' hphrase'), fun t' ht' => by
        obtain ⟨t, rest, rfl⟩ := List.exists_cons_of_ne_nil hcallee.ne_nil
        obtain ⟨u, us, rfl, hsame, -⟩ := (halike phrase' hphrase').cons_left
        obtain rfl := Option.some.inj ht'
        rw [← hsame.isWord]
        exact hhead t rfl⟩) hargs
  exact ⟨e, phrase', us, htokens, halike phrase' hphrase', hus, hlexemes, hreads⟩

/-- What is spelled like the call of a statement is read as that call. -/
lemma operand_of_lexemes {s : Statement} {used front marks phrase inner : Phrase} {checked : Bool}
    (h : Takes s used front marks phrase inner callee checked) (hphrase : Sourced phrase)
    {ts : Phrase} {args : List Lexeme} (hts : ts.lexemes = callLexemes callee checked args)
    (hargs : ∀ us : Phrase, us <:+: ts → us.lexemes = args → Matched us) :
    ∃ (e : Expression) (phrase us : Phrase), e.tokens = ts ∧ us <:+: ts ∧ us.lexemes = args ∧
      ReadsCall e callee checked phrase us ∧ Free ";" e.tokens ∧
      (front = [] → Free "=" e.tokens ∧ leads e.first = false) := by
  obtain ⟨e, phrase', us, htokens, halike, hus, hlexemes, hreads⟩ :=
    readsCall_alike h.spellsCallee hphrase h.head hts hargs
  refine ⟨e, phrase', us, htokens, hus, hlexemes, hreads,
    hreads.free ";" (by decide) (halike.free h.free), fun hfront => ?_⟩
  obtain ⟨hequal, hlead⟩ := h.bare hfront
  refine ⟨hreads.free "=" (by decide) (halike.free hequal), hreads.leads fun hchecked t' ht' => ?_⟩
  have hmarks : marks = [] := by
    have hcheck := h.spellsCheck
    rw [hchecked] at hcheck
    cases hcheck
    rfl
  obtain ⟨t, rest, rfl⟩ := List.exists_cons_of_ne_nil h.spellsCallee.ne_nil
  obtain ⟨u, us', rfl, hsame, -⟩ := halike.cons_left
  obtain rfl := Option.some.inj ht'
  rw [← hsame.leads]
  exact hlead hmarks t rfl

/-- A type that is written, and a name, have no marks outside of brackets that were not there. -/
lemma free_of_typeLexemes {type type' : Phrase} {name name' : Token} {mark : String}
    (hsame : Token.Same name name') (htype' : type'.lexemes = Build.typeLexemes type)
    (hmark : mark ≠ "var") (hfree : Free mark (type ++ [name])) : Free mark (type' ++ [name']) := by
  cases type with
  | nil =>
    obtain ⟨var, none, rfl, hvar, hnone⟩ := Phrase.lexemes_eq_cons htype'
    obtain rfl : none = [] := List.map_eq_nil_iff.mp hnone
    obtain ⟨hkind, htext⟩ := Prod.mk.inj hvar
    refine Free.append ?_ (Phrase.Alike.free (List.Forall₂.cons hsame .nil) hfree)
    simp [Free, depthAfter?, Token.is, Token.isOpener, Token.isCloser, hkind, htext, hmark.symm]
  | cons first type =>
    have halike : Phrase.Alike (first :: type) type' := by
      rw [Phrase.alike_iff, htype']
      rfl
    exact Phrase.Alike.free (List.rel_append halike (.cons hsame .nil)) hfree

/-- The lexemes of a type and a name declare a variable if the declaration is read without its
annotations. -/
lemma declares_of_lexemes {d : Declaration} {type type' : Phrase} {name name' : Token}
    (htype : d.type = type) (hname : name.isIdentifier) (hsame : Token.Same name name')
    (hfree : ∀ mark ∈ ["=", ";"], Free mark (type ++ [name])) (halone : readsAlone d)
    (htype' : type'.lexemes = Build.typeLexemes d.type) : LeftSide d.isFinal type' name' := by
  have hname' : name'.isIdentifier := hsame.isIdentifier ▸ hname
  rw [htype] at htype'
  have hfree' : ∀ mark ∈ ["=", ";"], Free mark (type' ++ [name']) := by
    intro mark hmark
    refine free_of_typeLexemes hsame htype' ?_ (hfree mark hmark)
    rintro rfl
    simp at hmark
  cases type with
  | nil =>
    obtain ⟨var, none, rfl, hvar, hnone⟩ := Phrase.lexemes_eq_cons htype'
    obtain rfl : none = [] := List.map_eq_nil_iff.mp hnone
    obtain ⟨hkind, htext⟩ := Prod.mk.inj hvar
    refine ⟨hname', by simp, hfree', fun _ => ⟨?_, fun t ht => ?_⟩⟩
    · rw [looksDeclared_append hname']
      simp [endsType, Token.isWord, Token.isIdentifier, hkind, htext, expressionWords]
    · obtain rfl := Option.some.inj ht
      simp [leads, Token.isWord, Token.isIdentifier, Token.is, hkind, htext, unsupportedWords]
  | cons first type =>
    have halike : Phrase.Alike (first :: type) type' := by
      rw [Phrase.alike_iff, htype']
      rfl
    refine ⟨hname', halike.ne_nil (by simp), hfree', fun hfinal => ?_⟩
    simp only [readsAlone, hfinal, htype, List.isEmpty_cons, Bool.or_false, Bool.false_or,
      Bool.and_eq_true] at halone
    obtain ⟨hends, hstart⟩ := halone
    simp only [List.head?_cons, Option.any_some, Bool.not_eq_true', Bool.or_eq_false_iff] at hstart
    have hboth : Phrase.Alike (first :: type ++ [name]) (type' ++ [name']) :=
      List.rel_append halike (.cons hsame .nil)
    refine ⟨?_, fun t ht => ?_⟩
    · rw [← hboth.looksDeclared, looksDeclared_append hname, hends]
      simp [hstart.1]
    · obtain ⟨first', rest, rfl, hfirst, -⟩ := halike.cons_left
      obtain rfl := Option.some.inj ht
      rw [← hfirst.leads]
      exact hstart.2

/-- A declaration that is read without its annotations is read from the lexemes that bind it. -/
lemma spells_binding {d : Declaration} {type lead rest : Phrase} {name semicolon : Token}
    {e : Expression} (htype : d.type = type) (hname : name.isIdentifier) (hd : d.name = name.text)
    (hfree : Free ";" (type ++ [name])) (hleft : Free "=" (type ++ [name]))
    (halone : readsAlone d) (hlead : lead.lexemes = Build.boundLexemes d)
    (he : Free ";" e.tokens) (hsemicolon : semicolon.is ";") :
    ∃ d' : Declaration, d'.initializer = some e ∧ d'.annotations = [] ∧
      d'.qualifiers = writtenQualifiers d.isFinal ∧
      Spells (.declaration d') (lead ++ (e.tokens ++ [semicolon])) rest := by
  obtain ⟨finals, typed, rfl, hfinals, htyped⟩ := Phrase.lexemes_eq_append hlead
  obtain ⟨type', ends, rfl, htype', hends⟩ := Phrase.lexemes_eq_append htyped
  obtain ⟨name', equals, rfl, hname', hequals⟩ := Phrase.lexemes_eq_cons hends
  obtain ⟨equal, none, rfl, hequal, hnone⟩ := Phrase.lexemes_eq_cons hequals
  obtain rfl : none = [] := List.map_eq_nil_iff.mp hnone
  have hsame : Token.Same name name' := by
    obtain ⟨hkind, htext⟩ := Prod.mk.inj hname'
    exact ⟨(beq_iff_eq.mp hname).trans hkind.symm, hd.symm.trans htext.symm⟩
  have hdeclares : LeftSide d.isFinal type' name' := by
    refine declares_of_lexemes htype hname hsame (fun mark hmark => ?_) halone htype'
    rcases List.mem_pair.mp hmark with rfl | rfl
    · exact hleft
    · exact hfree
  obtain ⟨span, hspells⟩ := spells_bound hdeclares hfinals hequal he hsemicolon
  exact ⟨_, rfl, rfl, rfl, hspells⟩

/-- What is spelled like a statement with a call, with other arguments, is read as such. -/
lemma respells_call {s : Statement} {used front marks phrase inner : Phrase}
    (h : Sited s site used front marks phrase inner callee arguments)
    (halone : ∀ d ∈ s.declaration?, readsAlone d) {ts : Phrase} {args : List Lexeme}
    (hts : ts.lexemes = Build.siteLead site ++ (callee.lexemes ++ (.punctuation, "(") ::
      (args ++ [(.punctuation, ")")])) ++ [(.punctuation, ";")])
    (hargs : ∀ us : Phrase, us <:+: ts → us.lexemes = args → Matched us) (rest : Phrase) :
    ∃ (s' : Statement) (us : Phrase), Spells s' ts rest ∧ us <:+: ts ∧ us.lexemes = args ∧
      s'.called? = some (callee, Argument.listOf us) ∧ s'.isDeclaration = s.isDeclaration ∧
      s'.modifiers = ⟨[], writtenQualifiers (s.declaration?.any (·.isFinal)),
        if site.checked then some false else none⟩ := by
  rw [Build.siteLead, h.returning, h.declaration] at hts
  have hparts : ts.lexemes = ((if s.isReturn then [(.identifier, "return")]
      else (s.declaration?.map Build.boundLexemes).getD []) ++
        (callLexemes callee site.checked args ++ [(.punctuation, ";")])) := by
    rw [hts, callLexemes]
    simp
  obtain ⟨lead, tail, rfl, hlead, htail⟩ := Phrase.lexemes_eq_append hparts
  obtain ⟨body, ends, rfl, hbody, hends⟩ := Phrase.lexemes_eq_append htail
  obtain ⟨semicolon, none, rfl, hsemicolon, hnone⟩ := Phrase.lexemes_eq_cons hends
  obtain rfl : none = [] := List.map_eq_nil_iff.mp hnone
  have hinside : body <:+: lead ++ (body ++ [semicolon]) := ⟨lead, [semicolon], by simp⟩
  obtain ⟨e, phrase', us, rfl, hus, hlexemes, hcall, hfree, hbare⟩ :=
    operand_of_lexemes h.takes h.sourced hbody fun us hus => hargs us (hus.trans hinside)
  have hend : semicolon.is ";" := by simp [Token.is, Prod.mk.inj hsemicolon]
  have hreads : ∀ s' : Statement, s'.operand? = some e →
      s'.called? = some (callee, Argument.listOf us) := by
    intro s' hoperand
    simp [Statement.called?, hoperand, hcall.called]
  cases h.takes.spellsFront with
  | returned hword =>
    obtain ⟨word, none, rfl, hword', hnone'⟩ := Phrase.lexemes_eq_cons hlead
    obtain rfl : none = [] := List.map_eq_nil_iff.mp hnone'
    have hreturn : word.isWord [ExitKind.return.word] := by
      simp [Token.isWord, Token.isIdentifier, Prod.mk.inj hword', ExitKind.word]
    have hspells := @SpellsLeaf.exit .return word semicolon (some e) rest hreturn hfree hend
      (fun _ => rfl)
    exact ⟨_, us, .leaf hspells, hus.trans hinside, hlexemes, hreads _ rfl, rfl,
      congrArg (Modifiers.mk [] []) hcall.wrapper⟩
  | bare hlead' hvalue =>
    obtain rfl : lead = [] := List.map_eq_nil_iff.mp hlead
    obtain ⟨hequal, hfirst⟩ := hbare rfl
    have hspells := @SpellsLeaf.expression semicolon rest e hfirst hfree hend hequal hcall.looks
    exact ⟨_, us, .leaf hspells, hus.trans hinside, hlexemes, hreads _ rfl, rfl,
      congrArg (Modifiers.mk [] []) hcall.wrapper⟩
  | declared hannotated hfinals htyped hleft hname hequal halone' =>
    obtain ⟨d', hvalue, hannotations, hqualifiers, hspells⟩ :=
      spells_binding rfl hname rfl htyped hleft (halone _ rfl) hlead hfree hend
    refine ⟨.declaration d', us, hspells, hus.trans hinside, hlexemes, hreads _ hvalue, rfl, ?_⟩
    rw [Statement.modifiers, Declaration.modifiers, hannotations, hqualifiers, hvalue]
    exact congrArg (Modifiers.mk [] _) hcall.wrapper

lemma spells_of_single? {text : String} {s : Statement} (h : single? text = some s) :
    ∃ ts, tokenize text = .ok ts ∧ Spells s ts [] := by
  unfold single? at h
  split at h
  · rename_i t ts htokens
    split at h
    · rename_i s' hread
      obtain rfl := Option.some.inj h
      obtain ⟨used, heq, hspells⟩ := statement_eq_ok_iff.mp hread
      rw [List.append_nil] at heq
      exact ⟨t :: ts, htokens, heq ▸ hspells⟩
    · simp at h
  · simp at h

/-- The parameters that a registry's templates take by name have names. -/
def NamesOptional (c : Context) : Prop :=
  ∀ codedata template, c.template? codedata = some template →
    ∀ p ∈ (Build.parameters (some template)).entries, p.optional → IsName p.key

lemma NamesOptional.consulted (h : NamesOptional c) (n : FlowNode) :
    ∀ p ∈ (Build.parameters (Build.consultedTemplate c n)).entries, p.optional → IsName p.key := by
  intro p hp
  cases htemplate : Build.consultedTemplate c n with
  | none =>
    rw [htemplate] at hp
    simp [Build.parameters, PropertyBag.empty] at hp
  | some template =>
    rw [htemplate] at hp
    unfold Build.consultedTemplate at htemplate
    split at htemplate
    · exact h _ template htemplate p hp
    · simp at htemplate

/-- A statement with a call is written as one edit at its place. The text is read as a call of the
same callee with the same values, and binds a variable only if the statement does, exactly if the
arguments are all kept. -/
theorem toSource_keeps_arguments_iff {path : Path} {text : String} {d : Document}
    (hparse : Document.parse path text = .ok d) {c : Context} {s : Statement} {kind : NodeKind}
    (hinside : Construct.Inside (.module d.tree) (.statement s)) (hclass : kind? c s = some kind)
    (hkind : kind ∈ callKinds) (hnames : NamesOptional c)
    (halone : ∀ d' ∈ s.declaration?, d'.annotations ≠ [] → readsAlone d')
    (connectionsFile : String) :
    ∃ n e callee arguments, statement .standard c s = some n ∧
      Builders.standard.toSource n d.path connectionsFile = .ok [(d.path.text, [e])] ∧
      e.start = s.span.start.position ∧ e.stop = s.span.stop.position ∧
      s.called? = some (callee, arguments) ∧
      ((∃ s' arguments', single? e.newText = some s' ∧ s'.called? = some (callee, arguments') ∧
        (arguments'.map (·.value.tokens.lexemes)).Perm
          (arguments.map (·.value.tokens.lexemes)) ∧
        (s'.isDeclaration → s.isDeclaration)) ↔
        Build.Kept (Build.consultedTemplate c n) (Build.declaredNames c n) arguments) := by
  obtain ⟨n, hn, hbuilt⟩ := built_ofBranches hclass (branchesOf .standard c s)
  have hcalls : n.kind ∈ callKinds := hbuilt.kind ▸ hkind
  obtain ⟨used, rest, hspells, htells, -⟩ := spells_of_inside hparse hinside
  obtain ⟨site, callee, arguments, front, marks, phrase, inner, hsited, hwritten⟩ :=
    written_of_statement hspells htells.sourced hn hcalls (hnames.consulted n)
  obtain ⟨ls, ⟨text', htext, hreads⟩, hplain⟩ := hwritten.reads
  have hlocal : kind ≠ .newConnection := by
    rintro rfl
    simp [callKinds] at hkind
  obtain ⟨ts, hts, hlexemes⟩ := tokenize_of_run (List.append_nil _).symm (hreads.run []) (by rfl)
  obtain ⟨cs, last, -, hscanned, -⟩ := scanned_of_tokenize hts
  have hsourced : Sourced ts := ⟨_, _, _, hscanned⟩
  have hgroup : ∀ us : Phrase, us <:+: ts →
      us.lexemes = Write.argumentsLexemes (Write.argumentProperties n) →
      Matched us ∧ (Argument.listOf us).map (·.value.tokens.lexemes) =
        (Write.argumentProperties n).map fun p =>
          Write.readValue p.optional (lexemesOf p.sourceText) := fun us hus =>
    Write.values_of_lexemes (hwritten.taken hsited.sound) (Argument.Sourced.within hsourced hus)
  refine ⟨n, _, callee, arguments, hn,
    toSource_of_builtAt hbuilt hlocal htext d.path connectionsFile, rfl, rfl, hsited.called, ?_, ?_⟩
  · rintro ⟨s', arguments', hsingle, hcalled', hperm, -⟩
    obtain ⟨ts', hts', hspells'⟩ := spells_of_single? hsingle
    obtain rfl : ts = ts' := Except.ok.inj (hts.symm.trans hts')
    obtain ⟨-, front', marks', phrase', inner', checked', -, -, htakes', rfl⟩ :=
      takes_of_spells hspells' hcalled'
    rw [← List.append_assoc] at hlexemes
    have hinner : inner'.lexemes = Write.argumentsLexemes (Write.argumentProperties n) :=
      Takes.lexemes htakes' hlexemes fun us hus hargs => (hgroup us hus hargs).1
    obtain ⟨first, last, semicolon, heq, -⟩ := htakes'.tokens
    have hwithin : inner' <:+: ts :=
      ⟨front' ++ (marks' ++ (phrase' ++ [first])), [last, semicolon], by simp [heq]⟩
    rw [(hgroup inner' hwithin hinner).2] at hperm
    exact (hwritten.perm_iff_kept hsited.sound).mp hperm
  · intro hkept
    obtain ⟨rfl, hlead⟩ := hplain hkept.free
    rw [hlead] at hlexemes
    have halone' : ∀ d' ∈ s.declaration?, readsAlone d' := by
      intro d' hd'
      by_cases hannotations : d'.annotations = []
      · exact hsited.takes.spellsFront.readsAlone d' hd' hannotations
      · exact halone d' hd' hannotations
    obtain ⟨s', us, hspells', hus, hargs, hcalled', hsame, -⟩ :=
      respells_call hsited halone' hlexemes (fun us hus hargs => (hgroup us hus hargs).1) []
    refine ⟨s', Argument.listOf us, single?_of_spells hts hspells', hcalled', ?_,
      fun h => hsame ▸ h⟩
    rw [(hgroup us hus hargs).2]
    exact (hwritten.perm_iff_kept hsited.sound).mpr hkept

lemma namesOptional_bareContext (d : Document) : NamesOptional (bareContext d) := by
  intro codedata template h
  simp [Context.template?, bareContext] at h

/-- An argument with the name of a structural property is lost. -/
theorem toSource_keeps_arguments_iff_type :
    ∃ d s n e callee arguments,
      Document.parse ⟨"main.bal"⟩ "function f() \x7b g(1, type = 2); \x7d" = .ok d ∧
      Construct.Inside (.module d.tree) (.statement s) ∧
      kind? (bareContext d) s = some .functionCall ∧ NamesOptional (bareContext d) ∧
      (∀ d' ∈ s.declaration?, d'.annotations ≠ [] → readsAlone d') ∧
      statement .standard (bareContext d) s = some n ∧
      Builders.standard.toSource n d.path "connections.bal" = .ok [(d.path.text, [e])] ∧
      s.called? = some (callee, arguments) ∧
      ¬∃ s' arguments', single? e.newText = some s' ∧ s'.called? = some (callee, arguments') ∧
        (arguments'.map (·.value.tokens.lexemes)).Perm
          (arguments.map (·.value.tokens.lexemes)) ∧
        (s'.isDeclaration → s.isDeclaration) := by
  have hcheck : (Document.statementAt? "function f() \x7b g(1, type = 2); \x7d" ⟨0, 15⟩ ⟨0, 30⟩).any
      (fun found => kind? (bareContext found.1) found.2 == some .functionCall &&
        (found.2.declaration?.isNone &&
        (statement .standard (bareContext found.1) found.2).any fun n =>
          found.2.called?.any fun called =>
            !decide (Build.Kept (Build.consultedTemplate (bareContext found.1) n)
              (Build.declaredNames (bareContext found.1) n) called.2))) = true := by
    decide +kernel
  obtain ⟨d, s, hparse, hinside, hcheck⟩ := Document.exists_of_statementAt? hcheck
  simp only [Bool.and_eq_true, beq_iff_eq, Option.isNone_iff_eq_none] at hcheck
  obtain ⟨hclass, hnone, hkept⟩ := hcheck
  have halone : ∀ d' ∈ s.declaration?, d'.annotations ≠ [] → readsAlone d' := by simp [hnone]
  obtain ⟨n, e, callee, arguments, hn, hsource, -, -, hcalled, hiff⟩ :=
    toSource_keeps_arguments_iff hparse hinside hclass (by simp [callKinds])
      (namesOptional_bareContext d) halone "connections.bal"
  refine ⟨d, s, n, e, callee, arguments, hparse, hinside, hclass, namesOptional_bareContext d,
    halone, hn, hsource, hcalled, ?_⟩
  rw [hiff]
  simpa [hn, hcalled] using hkept

end Analysis

end FlowCanvas
