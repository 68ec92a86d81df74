import FlowCanvas.Proofs.Recasting

/-!
# The parts of a module

`SpellsParts` is the grammar of a module's imports and members, in front of a rest. Its phrases can
be put behind each other, divided at a member and copied.
-/

namespace FlowCanvas

/-- A member is what it is without its bodies, and its bodies. -/
lemma Member.unplaced_congr {m m' : Member} (hskeleton : m'.skeleton = m.skeleton)
    (hbodies : m'.bodies.map Block.unplaced = m.bodies.map Block.unplaced) :
    m'.unplaced = m.unplaced := by
  have hfunctions {list list' : List FunctionDefinition}
      (hlists : list'.map FunctionDefinition.skeleton = list.map FunctionDefinition.skeleton)
      (hbodies : (list'.map (·.body)).map Block.unplaced =
        (list.map (·.body)).map Block.unplaced) :
      list'.map FunctionDefinition.unplaced = list.map FunctionDefinition.unplaced := by
    induction list generalizing list' with
    | nil =>
      obtain rfl : list' = [] := List.map_eq_nil_iff.mp hlists
      rfl
    | cons f list ih =>
      cases list' with
      | nil => simp at hlists
      | cons f' list' =>
        obtain ⟨hfirst, hothers⟩ := List.cons.inj hlists
        obtain ⟨hbody, hbodies⟩ := List.cons.inj hbodies
        rw [List.map_cons, List.map_cons, ih hothers hbodies, FunctionDefinition.unplaced, hfirst,
          hbody, FunctionDefinition.unplaced]
  cases m <;> cases m' <;> simp only [skeleton, reduceCtorEq, function.injEq, variable.injEq,
    service.injEq, classDefinition.injEq, typeDefinition.injEq] at hskeleton
  case function.function f f' =>
    have hbody := List.cons.inj hbodies
    rw [unplaced, FunctionDefinition.unplaced, hskeleton, hbody.1, unplaced,
      FunctionDefinition.unplaced]
  case variable.variable d d' => rw [unplaced, hskeleton, unplaced]
  case service.service s s' =>
    have hlists := hfunctions (congrArg ServiceDefinition.functions hskeleton) hbodies
    rw [unplaced, ServiceDefinition.unplaced, hskeleton, hlists, unplaced,
      ServiceDefinition.unplaced]
  case classDefinition.classDefinition c c' =>
    have hlists := hfunctions (congrArg ClassDefinition.functions hskeleton) hbodies
    rw [unplaced, ClassDefinition.unplaced, hskeleton, hlists, unplaced, ClassDefinition.unplaced]
  case typeDefinition.typeDefinition t t' => rw [unplaced, hskeleton, unplaced]

namespace Parser

open Brackets

/-- The tokens of imports, members and stray semicolons one after the other, in front of a rest. -/
inductive SpellsParts : List Import → List Member → Phrase → Phrase → Prop
  | nil {rest : Phrase} : SpellsParts [] [] [] rest
  | importing {word : Token} {i : Import} {imports : List Import} {members : List Member}
    {used ts rest : Phrase} (hword : word.is "import")
    (hi : importDeclaration word (used ++ (ts ++ rest)) = .ok (i, ts ++ rest))
    (h : SpellsParts imports members ts rest) :
    SpellsParts (i :: imports) members (word :: used ++ ts) rest
  | stray {semicolon : Token} {imports : List Import} {members : List Member} {ts rest : Phrase}
    (hsemicolon : semicolon.is ";") (h : SpellsParts imports members ts rest) :
    SpellsParts imports members (semicolon :: ts) rest
  | member {start : Token} {m : Member} {imports : List Import} {members : List Member}
    {used ts rest : Phrase} (himport : start.is "import" = false) (hstray : start.is ";" = false)
    (hm : Parser.member start (used ++ (ts ++ rest)) = .ok (m, ts ++ rest))
    (h : SpellsParts imports members ts rest) :
    SpellsParts imports (m :: members) (start :: used ++ ts) rest

/-! ### The reader of modules -/

lemma spells_of_moduleParts {n : Nat} {ts : Phrase} {imports : List Import} {members : List Member}
    (hn : ts.length ≤ n) (h : moduleParts n ts = .ok (imports, members)) :
    SpellsParts imports members ts [] := by
  induction n generalizing ts imports members with
  | zero =>
    obtain rfl : ts = [] := List.length_eq_zero_iff.mp (Nat.le_zero.mp hn)
    obtain ⟨rfl, rfl⟩ := h
    exact .nil
  | succ n ih =>
    cases ts with
    | nil =>
      obtain ⟨rfl, rfl⟩ := h
      exact .nil
    | cons t ts =>
      rw [moduleParts] at h
      split_ifs at h with himport hstray
      · obtain ⟨⟨i, after⟩, hi, hread⟩ := bind_eq_ok_iff.mp h
        obtain ⟨⟨imports', members'⟩, hothers, hdone⟩ := bind_eq_ok_iff.mp hread
        obtain ⟨rfl, rfl⟩ := hdone
        obtain ⟨used, rfl, -⟩ := passes_of_importDeclaration hi
        have hrest := ih (by simp at hn; omega) hothers
        exact .importing himport (by simpa using hi) hrest
      · exact .stray hstray (ih (by simpa using hn) h)
      · obtain ⟨⟨m, after⟩, hm, hread⟩ := bind_eq_ok_iff.mp h
        obtain ⟨⟨imports', members'⟩, hothers, hdone⟩ := bind_eq_ok_iff.mp hread
        obtain ⟨rfl, rfl⟩ := hdone
        obtain ⟨parts, hparts, hne, -⟩ := tracks_member hm
        obtain ⟨hnil, -⟩ | ⟨used, hused, rfl⟩ := List.cons_eq_append_iff.mp hparts
        · exact absurd hnil hne
        have hrest := ih (by simp at hn; omega) hothers
        exact .member (by simpa using himport) (by simpa using hstray) (by simpa using hm) hrest

lemma moduleParts_of_spells {ts : Phrase} {imports : List Import} {members : List Member}
    (h : SpellsParts imports members ts []) {n : Nat} (hn : ts.length ≤ n) :
    moduleParts n ts = .ok (imports, members) := by
  generalize hrest : ([] : Phrase) = rest at h
  induction h generalizing n with
  | nil => cases n <;> rfl
  | @importing word i imports members used ts rest hword hi _ ih =>
    subst hrest
    obtain ⟨n, rfl⟩ : ∃ k, n = k + 1 := ⟨n - 1, by simp at hn; omega⟩
    rw [List.cons_append, moduleParts, if_pos hword]
    rw [List.append_nil] at hi
    exact bind_eq_ok_iff.mpr ⟨_, hi, bind_eq_ok_iff.mpr ⟨_, ih (by simp at hn; omega) rfl, rfl⟩⟩
  | @stray semicolon imports members ts rest hsemicolon _ ih =>
    subst hrest
    obtain ⟨n, rfl⟩ : ∃ k, n = k + 1 := ⟨n - 1, by simp at hn; omega⟩
    have himport : ¬semicolon.is "import" := fun himport =>
      absurd (is_inj himport hsemicolon) (by decide)
    rw [moduleParts, if_neg himport, if_pos hsemicolon]
    exact ih (by simpa using hn) rfl
  | @member start m imports members used ts rest himport hstray hm _ ih =>
    subst hrest
    obtain ⟨n, rfl⟩ : ∃ k, n = k + 1 := ⟨n - 1, by simp at hn; omega⟩
    rw [List.cons_append, moduleParts, if_neg (by simp [himport]), if_neg (by simp [hstray])]
    rw [List.append_nil] at hm
    exact bind_eq_ok_iff.mpr ⟨_, hm, bind_eq_ok_iff.mpr ⟨_, ih (by simp at hn; omega) rfl, rfl⟩⟩

/-- A source text is read as a module exactly when its tokens spell the module's parts. -/
theorem parse_eq_ok_iff {source : String} {m : SourceModule} :
    parse source = .ok m ↔ ∃ ts, Lexer.tokenize source = .ok ts ∧
      SpellsParts m.imports m.members ts [] ∧
        m.span = ⟨.origin, Place.origin.advance source.toList⟩ := by
  constructor
  · intro h
    obtain ⟨ts, hts, hread⟩ := bind_eq_ok_iff.mp h
    obtain ⟨⟨imports, members⟩, hparts, hdone⟩ := bind_eq_ok_iff.mp hread
    obtain rfl := Except.ok.inj hdone
    exact ⟨ts, hts, spells_of_moduleParts le_rfl hparts, rfl⟩
  · rintro ⟨ts, hts, hparts, hspan⟩
    refine bind_eq_ok_iff.mpr ⟨ts, hts, bind_eq_ok_iff.mpr
      ⟨_, moduleParts_of_spells hparts le_rfl, ?_⟩⟩
    rw [← hspan]
    rfl

/-! ### Phrases behind each other -/

lemma SpellsParts.append {imports imports' : List Import} {members members' : List Member}
    {ts us rest : Phrase} (h : SpellsParts imports members ts (us ++ rest))
    (h' : SpellsParts imports' members' us rest) :
    SpellsParts (imports ++ imports') (members ++ members') (ts ++ us) rest := by
  generalize hleft : us ++ rest = left at h
  induction h with
  | nil => exact h'
  | @importing word i imports members used ts left hword hi _ ih =>
    subst hleft
    have hstep := SpellsParts.importing hword (by simpa using hi) (ih rfl)
    simpa using hstep
  | stray hsemicolon _ ih =>
    subst hleft
    exact .stray hsemicolon (ih rfl)
  | @member start m imports members used ts left himport hstray hm _ ih =>
    subst hleft
    have hstep := SpellsParts.member himport hstray (by simpa using hm) (ih rfl)
    simpa using hstep

/-- The parts of a module divide at each member. -/
lemma SpellsParts.split {imports : List Import} {front back : List Member} {m : Member}
    {ts rest : Phrase} (h : SpellsParts imports (front ++ m :: back) ts rest) :
    ∃ imports₁ imports₂ before start used after, ts = before ++ (start :: used ++ after) ∧
      imports = imports₁ ++ imports₂ ∧
      SpellsParts imports₁ front before (start :: used ++ after ++ rest) ∧
      start.is "import" = false ∧ start.is ";" = false ∧
      Parser.member start (used ++ (after ++ rest)) = .ok (m, after ++ rest) ∧
      SpellsParts imports₂ back after rest := by
  generalize hmembers : front ++ m :: back = members at h
  induction h generalizing front with
  | nil => simp at hmembers
  | @importing word i imports members used ts rest hword hi _ ih =>
    obtain ⟨imports₁, imports₂, before, start, used', after, rfl, rfl, hfront, himport, hstray, hm,
      hback⟩ := ih hmembers
    refine ⟨i :: imports₁, imports₂, word :: used ++ before, start, used', after, by simp, rfl,
      .importing hword (by simpa using hi) hfront, himport, hstray, hm, hback⟩
  | @stray semicolon imports members ts rest hsemicolon _ ih =>
    obtain ⟨imports₁, imports₂, before, start, used', after, rfl, rfl, hfront, himport, hstray, hm,
      hback⟩ := ih hmembers
    exact ⟨imports₁, imports₂, semicolon :: before, start, used', after, by simp, rfl,
      .stray hsemicolon hfront, himport, hstray, hm, hback⟩
  | @member start' m' imports members used ts rest himport' hstray' hm' h ih =>
    cases front with
    | nil =>
      obtain ⟨rfl, rfl⟩ := List.cons.inj hmembers
      exact ⟨[], imports, [], start', used, ts, by simp, rfl, .nil, himport', hstray', hm', h⟩
    | cons first front =>
      obtain ⟨rfl, hothers⟩ := List.cons.inj hmembers
      obtain ⟨imports₁, imports₂, before, start, used', after, rfl, rfl, hfront, himport, hstray,
        hm, hback⟩ := ih hothers
      exact ⟨imports₁, imports₂, start' :: used ++ before, start, used', after, by simp, rfl,
        .member himport' hstray' (by simpa using hm') hfront, himport, hstray, hm, hback⟩

/-! ### Copies -/

/-- A copy of the tokens of parts has parts with the same bodies. -/
lemma recasts_of_copy {parts : List Part} {us : Phrase} (h : (tokensOf parts).Copy us) :
    ∃ parts', tokensOf parts' = us ∧ List.Forall₂ Recast parts parts' ∧
      (bodiesOf parts').map Block.unplaced = (bodiesOf parts).map Block.unplaced := by
  induction parts generalizing us with
  | nil =>
    obtain rfl := h.nil_left
    exact ⟨[], rfl, .nil, rfl⟩
  | cons p parts ih =>
    obtain ⟨vs, ws, rfl, hvs, hws⟩ := h.append_left
    obtain ⟨parts', rfl, hrecast, hbodies⟩ := ih hws
    cases p with
    | plain ts => exact ⟨.plain vs :: parts', rfl, .cons (.plain hvs) hrecast, hbodies⟩
    | body b ts hb =>
      obtain ⟨b', hb', hunplaced⟩ := hb.copy hvs
      have hlike : Like ts vs := by
        have hheads := (Like.refl []).append hvs
        rwa [List.append_nil, List.append_nil] at hheads
      refine ⟨.body b' vs hb' :: parts', rfl, .cons (.body hb hb' hlike) hrecast, ?_⟩
      rw [bodiesOf_cons, bodiesOf_cons, List.map_append, List.map_append, hbodies]
      exact congrArg (· ++ _) (congrArg (fun b => [b]) hunplaced)

/-- A copy of the tokens of a member is the same member. -/
lemma member_copy {start : Token} {used rest us rest' : Phrase} {m : Member}
    (h : member start (used ++ rest) = .ok (m, rest)) (hcopy : Phrase.Copy (start :: used) us)
    (hclosed : Closed rest rest') :
    ∃ start' used' m', us = start' :: used' ∧ Token.Same start start' ∧
      member start' (used' ++ rest') = .ok (m', rest') ∧ m'.unplaced = m.unplaced := by
  obtain ⟨parts, hparts, -, hbodies, hall⟩ := tracks_member h
  rw [← List.cons_append] at hparts
  have htokens := List.append_cancel_right hparts
  have hcopy' := hcopy
  rw [htokens] at hcopy'
  obtain ⟨parts', hparts', hrecast, hunplaced⟩ := recasts_of_copy hcopy'
  obtain ⟨start', us', hus, hsame, m', hm', hbodies', hskeleton⟩ := hall hrecast hclosed
  obtain ⟨start'', used', rfl, -⟩ := hcopy.cons_left
  rw [hparts', List.cons_append] at hus
  obtain ⟨rfl, rfl⟩ := List.cons.inj hus
  refine ⟨start'', used', m', rfl, hsame, hm', Member.unplaced_congr hskeleton ?_⟩
  rw [← hbodies', ← hbodies, hunplaced]

lemma Closed.append {ts us : Phrase} (h : Closed ts us) {vs ws : Phrase} (hcopy : vs.Copy ws) :
    Closed (vs ++ ts) (ws ++ us) := by
  cases vs with
  | nil =>
    obtain rfl := hcopy.nil_left
    exact h
  | cons v vs => exact (like_of_copy hcopy (by simp) _ _).closed

/-- A copy of the parts of a module has the same parts. -/
theorem SpellsParts.copy {imports : List Import} {members : List Member} {ts rest us rest' : Phrase}
    (h : SpellsParts imports members ts rest) (hcopy : ts.Copy us) (hclosed : Closed rest rest') :
    ∃ imports' members', SpellsParts imports' members' us rest' ∧
      imports'.map Import.unplaced = imports.map Import.unplaced ∧
      members'.map Member.unplaced = members.map Member.unplaced := by
  induction h generalizing us with
  | nil =>
    obtain rfl := hcopy.nil_left
    exact ⟨[], [], .nil, rfl, rfl⟩
  | @importing word i imports members used ts rest hword hi _ ih =>
    obtain ⟨vs, ws, rfl, hvs, hws⟩ := hcopy.append_left
    obtain ⟨word', used', rfl, hsame, hused⟩ := hvs.cons_left
    obtain ⟨imports', members', h', himports, hmembers⟩ := ih hws hclosed
    obtain ⟨used'', hcancel, hframe⟩ := frames_importDeclaration word word' Any hi
    obtain rfl := List.append_cancel_right hcancel
    obtain ⟨-, i', hi', hunplaced⟩ := @hframe _ (ws ++ rest') hused trivial
    exact ⟨i' :: imports', members', .importing (hsame.is "import" ▸ hword) hi' h',
      by rw [List.map_cons, List.map_cons, hunplaced, himports], hmembers⟩
  | @stray semicolon imports members ts rest hsemicolon _ ih =>
    obtain ⟨semicolon', ws, rfl, hsame, hws⟩ := hcopy.cons_left
    obtain ⟨imports', members', h', himports, hmembers⟩ := ih hws hclosed
    exact ⟨imports', members', .stray (hsame.is ";" ▸ hsemicolon) h', himports, hmembers⟩
  | @member start m imports members used ts rest himport hstray hm _ ih =>
    obtain ⟨vs, ws, rfl, hvs, hws⟩ := hcopy.append_left
    obtain ⟨imports', members', h', himports, hmembers⟩ := ih hws hclosed
    obtain ⟨start', used', m', rfl, hsame, hm', hunplaced⟩ :=
      member_copy hm hvs (hclosed.append hws)
    exact ⟨imports', m' :: members', .member (hsame.is "import" ▸ himport)
      (hsame.is ";" ▸ hstray) hm' h', himports, by
        rw [List.map_cons, List.map_cons, hunplaced, hmembers]⟩

end Parser

end FlowCanvas
