import FlowCanvas.Proofs.Groups
import FlowCanvas.Proofs.Unplaced

/-!
# Reading copies in front of other tokens

A reader of tokens depends on the tokens it takes and on a little of what follows them. `Frames`
says so of one reader: from a copy of the tokens it took, in front of a rest that does not matter
to it, it reads the same, up to positions.
-/

namespace FlowCanvas.Parser

open Brackets

/-! ### What follows -/

/-- Phrases whose first tokens have one wording. -/
def Like (ts us : Phrase) : Prop := Phrase.Alike (ts.take 1) (us.take 1)

/-- What follows is of no matter. -/
def Any (_ _ : Phrase) : Prop := True

/-- What follows starts with a semicolon in both cases or in none. -/
def Closed (ts us : Phrase) : Prop := sees ";" ts = sees ";" us

lemma Like.refl (ts : Phrase) : Like ts ts := by
  cases ts <;> simp [Like, Phrase.Alike, Token.Same]

lemma like_cons {t u : Token} (h : Token.Same t u) (ts us : Phrase) : Like (t :: ts) (u :: us) :=
  .cons h .nil

lemma Like.append {ts us : Phrase} (h : Like ts us) {vs ws : Phrase} (hcopy : vs.Copy ws) :
    Like (vs ++ ts) (ws ++ us) := by
  cases vs with
  | nil =>
    obtain rfl := hcopy.nil_left
    exact h
  | cons v vs =>
    obtain ⟨w, ws, rfl, hsame, -⟩ := hcopy.cons_left
    exact like_cons hsame _ _

lemma like_of_copy {vs ws : Phrase} (hcopy : vs.Copy ws) (hne : vs ≠ []) (ts us : Phrase) :
    Like (vs ++ ts) (ws ++ us) := by
  obtain ⟨v, vs, rfl⟩ := List.exists_cons_of_ne_nil hne
  obtain ⟨w, ws, rfl, hsame, -⟩ := hcopy.cons_left
  exact like_cons hsame _ _

lemma Like.cons_left {t : Token} {ts us : Phrase} (h : Like (t :: ts) us) :
    ∃ u vs, us = u :: vs ∧ Token.Same t u := by
  cases us with
  | nil => cases h
  | cons u us =>
    cases h with
    | cons hsame => exact ⟨u, us, rfl, hsame⟩

lemma Like.nil_left {us : Phrase} (h : Like [] us) : us = [] := by
  cases us with
  | nil => rfl
  | cons u us => cases h

lemma Like.sees {ts us : Phrase} (h : Like ts us) (mark : String) :
    sees mark ts = sees mark us := by
  cases ts with
  | nil => rw [h.nil_left]
  | cons t ts =>
    obtain ⟨u, vs, rfl, hsame⟩ := h.cons_left
    exact hsame.is mark

lemma Like.closed {ts us : Phrase} (h : Like ts us) : Closed ts us := h.sees ";"

/-! ### Readers -/

variable {α β γ δ : Type} {V W O : Phrase → Phrase → Prop}

/-- `read'` reads from a copy of the tokens that `read` takes what looks the same, when the tokens
after them are related by `W`. The tokens that are left are then related by `O` in front of both
readers. -/
def Frames (W O : Phrase → Phrase → Prop) (look : α → γ) (read read' : Reader α) : Prop :=
  ∀ ⦃ts rest : Phrase⦄ ⦃x : α⦄, read ts = .ok (x, rest) → ∃ used, ts = used ++ rest ∧
    ∀ ⦃used' rest' : Phrase⦄, used.Copy used' → W rest rest' →
      O (used ++ rest) (used' ++ rest') ∧
        ∃ x', read' (used' ++ rest') = .ok (x', rest') ∧ look x' = look x

lemma Frames.bind {read read' : Reader α} {look : α → γ} {look' : β → δ}
    {next next' : α × Phrase → Except SyntaxError (β × Phrase)} (h : Frames V O look read read')
    (hnext : ∀ x x', look x' = look x →
      Frames W V look' (fun ts => next (x, ts)) (fun ts => next' (x', ts))) :
    Frames W O look' (fun ts => read ts >>= next) (fun ts => read' ts >>= next') := by
  intro ts rest y hread
  obtain ⟨⟨x, after⟩, hx, hy⟩ := bind_eq_ok_iff.mp hread
  obtain ⟨used, rfl, hframe⟩ := h hx
  obtain ⟨more, rfl, -⟩ := hnext x x rfl hy
  refine ⟨used ++ more, by rw [List.append_assoc], fun used' rest' hcopy hrest => ?_⟩
  obtain ⟨vs, ws, rfl, hvs, hws⟩ := hcopy.append_left
  have hstep : ∀ x', look x' = look x → V (more ++ rest) (ws ++ rest') ∧
      ∃ y', next' (x', ws ++ rest') = .ok (y', rest') ∧ look' y' = look' y := by
    intro x' hlook
    obtain ⟨more', hmore, hframe'⟩ := hnext x x' hlook hy
    obtain rfl := List.append_cancel_right hmore
    exact hframe' hws hrest
  obtain ⟨hout, x', hx', hlook⟩ := hframe hvs (hstep x rfl).1
  obtain ⟨-, y', hy', hlook'⟩ := hstep x' hlook
  rw [List.append_assoc, List.append_assoc]
  exact ⟨hout, y', bind_eq_ok_iff.mpr ⟨_, hx', hy'⟩, hlook'⟩

lemma frames_pure {look : α → γ} {x x' : α} (h : look x' = look x) :
    Frames W W look (fun ts => pure (x, ts)) (fun ts => pure (x', ts)) := by
  rintro ts rest _ ⟨rfl, rfl⟩
  refine ⟨[], rfl, fun used' rest' hcopy hrest => ?_⟩
  obtain rfl := hcopy.nil_left
  exact ⟨hrest, x', rfl, h⟩

/-- The wording of a token. -/
def wording (t : Token) : TokenKind × String := (t.kind, t.text)

lemma wording_eq_iff {t u : Token} : wording u = wording t ↔ Token.Same t u := by
  simp [wording, Token.Same, eq_comm]

lemma frames_readIf {test : Token → Bool}
    (htest : ∀ {t u : Token}, Token.Same t u → test t = test u) (expected : String)
    (W : Phrase → Phrase → Prop) :
    Frames W Like wording (readIf test expected) (readIf test expected) := by
  intro ts rest t h
  obtain ⟨rfl, ht⟩ := readIf_eq_ok_iff.mp h
  refine ⟨[t], rfl, fun used' rest' hcopy _ => ?_⟩
  obtain ⟨u, rfl, hsame⟩ := hcopy.singleton_left
  exact ⟨like_cons hsame _ _, u, readIf_eq_ok_iff.mpr ⟨rfl, htest hsame ▸ ht⟩,
    wording_eq_iff.mpr hsame⟩

lemma frames_identifier (W : Phrase → Phrase → Prop) :
    Frames W Like wording identifier identifier :=
  frames_readIf (fun hsame => hsame.isIdentifier) _ W

lemma frames_expect (mark : String) (W : Phrase → Phrase → Prop) :
    Frames W Like wording (expect mark) (expect mark) :=
  frames_readIf (fun hsame => hsame.is mark) _ W

lemma frames_through (mark : String) (W : Phrase → Phrase → Prop) :
    Frames W Like (fun p : Phrase × Token => (p.1.unplaced, wording p.2)) (through mark)
      (through mark) := by
  rintro ts rest ⟨body, found⟩ h
  obtain ⟨rfl, hbody, hfound⟩ := through_eq_ok_iff.mp h
  refine ⟨body ++ [found], by simp, fun used' rest' hcopy _ => ?_⟩
  refine ⟨like_of_copy hcopy (by simp) _ _, ?_⟩
  obtain ⟨body', vs, rfl, hbodies, hvs⟩ := hcopy.append_left
  obtain ⟨found', rfl, hsame⟩ := hvs.singleton_left
  refine ⟨(body', found'), through_eq_ok_iff.mpr
    ⟨by simp, hbodies.alike.free hbody, hsame.is mark ▸ hfound⟩, ?_⟩
  exact Prod.ext hbodies.unplaced_eq (wording_eq_iff.mpr hsame)

lemma frames_upTo (mark : String) :
    Frames Like Like Phrase.unplaced (upTo mark) (upTo mark) := by
  intro ts rest body h
  obtain ⟨rfl, hbody, hsees⟩ := upTo_eq_ok_iff.mp h
  refine ⟨body, rfl, fun used' rest' hcopy hlike => ⟨hlike.append hcopy, used', ?_⟩⟩
  exact ⟨upTo_eq_ok_iff.mpr ⟨rfl, hcopy.alike.free hbody, hlike.sees mark ▸ hsees⟩,
    hcopy.unplaced_eq⟩

/-- Annotations are read alike from copies in front of what starts alike. -/
lemma frames_annotations : Frames Like Like id annotations annotations := by
  intro ts rest names h
  obtain ⟨used, rfl, -, -, -, hall⟩ := annotations_spec h
  refine ⟨used, rfl, fun used' rest' hcopy hlike => ⟨hlike.append hcopy, names, ?_, rfl⟩⟩
  -- only the first token of the rest counts, and only its wording
  have hone := hall (rest.take 1) (by cases rest <;> rfl)
  have hread := annotations_append_alike hcopy.alike hlike hone
  obtain ⟨used'', hused, -, -, -, hall'⟩ := annotations_spec hread
  obtain rfl := List.append_cancel_right hused
  exact hall' rest' (by cases rest' <;> rfl)

lemma qualifiers_spec (ts : Phrase) :
    ∃ used, ts = used ++ (qualifiers ts).2 ∧ ∀ ⦃used' rest'⦄, used.Copy used' →
      Like (qualifiers ts).2 rest' → qualifiers (used' ++ rest') = ((qualifiers ts).1, rest') := by
  induction ts with
  | nil =>
    refine ⟨[], rfl, fun used' rest' hcopy hlike => ?_⟩
    rw [hcopy.nil_left, hlike.nil_left]
    rfl
  | cons t ts ih =>
    rw [qualifiers]
    split
    · rename_i hword
      obtain ⟨used, hused, hall⟩ := ih
      refine ⟨t :: used, congrArg (t :: ·) hused, fun used' rest' hcopy hlike => ?_⟩
      obtain ⟨u, vs, rfl, hsame, hvs⟩ := hcopy.cons_left
      rw [List.cons_append, qualifiers, if_pos (hsame.isWord _ ▸ hword), hall hvs hlike, hsame.2]
    · rename_i hword
      refine ⟨[], rfl, fun used' rest' hcopy hlike => ?_⟩
      obtain rfl := hcopy.nil_left
      obtain ⟨u, vs, rfl, hsame⟩ := hlike.cons_left
      rw [List.nil_append, qualifiers, if_neg (hsame.isWord _ ▸ hword)]

/-- A reader that goes one way or the other by its first token. -/
lemma Frames.branch {mark : String} {look : α → γ} {without without' behind behind' : Reader α}
    (hwithout : Frames W Like look without without') (hbehind : Frames W Like look behind behind') :
    Frames W Like look
      (fun ts => match eat mark ts with | none => without ts | some ts => behind ts)
      (fun ts => match eat mark ts with | none => without' ts | some ts => behind' ts) := by
  intro ts rest x h
  dsimp only at h
  split at h
  · rename_i hnone
    obtain ⟨used, rfl, hframe⟩ := hwithout h
    refine ⟨used, rfl, fun used' rest' hcopy hrest => ?_⟩
    obtain ⟨hlike, x', hx', hlook⟩ := hframe hcopy hrest
    have hnone' : eat mark (used' ++ rest') = none := by
      rw [eat_eq_none_iff] at hnone ⊢
      rw [← hlike.sees, hnone]
    exact ⟨hlike, x', by simp only [hnone', hx'], hlook⟩
  · rename_i after hsome
    obtain ⟨t, rfl, ht⟩ := eat_eq_some_iff.mp hsome
    obtain ⟨used, rfl, hframe⟩ := hbehind h
    refine ⟨t :: used, rfl, fun used' rest' hcopy hrest => ?_⟩
    obtain ⟨u, vs, rfl, hsame, hvs⟩ := hcopy.cons_left
    obtain ⟨-, x', hx', hlook⟩ := hframe hvs hrest
    have hsome' : eat mark (u :: vs ++ rest') = some (vs ++ rest') :=
      eat_eq_some_iff.mpr ⟨u, rfl, hsame.is mark ▸ ht⟩
    exact ⟨like_cons hsame _ _, x', by simp only [hsome', hx'], hlook⟩

lemma frames_declaration (start start' : Token) (names words : List String)
    (W : Phrase → Phrase → Prop) :
    Frames W Like Declaration.unplaced (declaration start names words)
      (declaration start' names words) := by
  intro ts rest d h
  obtain ⟨body, semicolon, type, name, value, rfl, hbody, hsemicolon, hdeclared, rfl⟩ :=
    declaration_eq_ok_iff.mp h
  refine ⟨body ++ [semicolon], by simp, fun used' rest' hcopy _ => ?_⟩
  refine ⟨like_of_copy hcopy (by simp) _ _, ?_⟩
  obtain ⟨body', vs, rfl, hbodies, hvs⟩ := hcopy.append_left
  obtain ⟨semicolon', rfl, hsame⟩ := hvs.singleton_left
  obtain ⟨type', name', value', hdeclared', htype, hname, hvalue⟩ := hdeclared.copy hbodies
  refine ⟨_, declaration_eq_ok_iff.mpr ⟨body', semicolon', type', name', value', by simp,
    hbodies.alike.free hbody, hsame.is ";" ▸ hsemicolon, hdeclared', rfl⟩, ?_⟩
  simp only [Declaration.unplaced, hvalue, hname.2, htype.unplaced_eq]

/-! ### Imports -/

lemma frames_importHead : Frames Like Like id importHead importHead := by
  refine .bind (frames_identifier Like) fun first first' hfirst => ?_
  have hsame := wording_eq_iff.mp hfirst
  refine .branch (frames_pure (by rw [hsame.2])) ?_
  refine .bind (frames_identifier Like) fun second second' hsecond => ?_
  exact frames_pure (by rw [hsame.2, (wording_eq_iff.mp hsecond).2])

lemma frames_importQualifier (name : String) :
    Frames Like Like id (importQualifier name) (importQualifier name) := by
  refine .branch (frames_pure rfl) (.bind (frames_identifier Like) fun given given' h => ?_)
  exact frames_pure (by rw [(wording_eq_iff.mp h).2])

lemma dottedRest_spec {n : Nat} {ts rest : Phrase} {parts : List String}
    (h : dottedRest n ts = .ok (parts, rest)) (hn : ts.length ≤ n) :
    ∃ used, ts = used ++ rest ∧ ∀ ⦃used' rest'⦄ m, used.Copy used' → Like rest rest' →
      used'.length ≤ m → dottedRest m (used' ++ rest') = .ok (parts, rest') := by
  induction n generalizing ts parts with
  | zero =>
    obtain rfl : ts = [] := List.length_eq_zero_iff.mp (Nat.le_zero.mp hn)
    obtain ⟨rfl, rfl⟩ := h
    refine ⟨[], rfl, fun used' rest' m hcopy hlike _ => ?_⟩
    rw [hcopy.nil_left, hlike.nil_left]
    cases m <;> rfl
  | succ n ih =>
    rw [dottedRest] at h
    split at h
    · rename_i hdot
      obtain ⟨rfl, rfl⟩ := h
      refine ⟨[], rfl, fun used' rest' m hcopy hlike _ => ?_⟩
      obtain rfl := hcopy.nil_left
      have hdot' : eat "." rest' = none := by
        rw [eat_eq_none_iff] at hdot ⊢
        rw [← hlike.sees, hdot]
      cases m with
      | zero => rfl
      | succ m => rw [List.nil_append, dottedRest, hdot']
    · rename_i after hdot
      obtain ⟨dot, rfl, hdot'⟩ := eat_eq_some_iff.mp hdot
      obtain ⟨⟨part, after'⟩, hpart, hrest⟩ := bind_eq_ok_iff.mp h
      obtain ⟨rfl, hidentifier⟩ := identifier_eq_ok_iff.mp hpart
      obtain ⟨⟨others, left⟩, hothers, hdone⟩ := bind_eq_ok_iff.mp hrest
      obtain ⟨rfl, rfl⟩ := hdone
      obtain ⟨used, rfl, hall⟩ := ih hothers (by simp at hn; omega)
      refine ⟨dot :: part :: used, rfl, fun used' rest' m hcopy hlike hm => ?_⟩
      obtain ⟨dot', vs, rfl, hsame, hvs⟩ := hcopy.cons_left
      obtain ⟨part', ws, rfl, hsame', hws⟩ := hvs.cons_left
      cases m with
      | zero => simp at hm
      | succ m =>
        have heat : eat "." (dot' :: part' :: ws ++ rest') = some (part' :: (ws ++ rest')) :=
          eat_eq_some_iff.mpr ⟨dot', rfl, hsame.is "." ▸ hdot'⟩
        rw [dottedRest, heat, hsame'.2]
        refine bind_eq_ok_iff.mpr ⟨(part', ws ++ rest'),
          identifier_eq_ok_iff.mpr ⟨rfl, hsame'.isIdentifier ▸ hidentifier⟩, ?_⟩
        exact bind_eq_ok_iff.mpr ⟨_, hall m hws hlike (by simp at hm; omega), rfl⟩

lemma frames_dottedRest : Frames Like Like id (fun ts => dottedRest ts.length ts)
    (fun ts => dottedRest ts.length ts) := by
  intro ts rest parts h
  obtain ⟨used, rfl, hall⟩ := dottedRest_spec h le_rfl
  refine ⟨used, rfl, fun used' rest' hcopy hlike => ⟨hlike.append hcopy, parts, ?_, rfl⟩⟩
  exact hall _ hcopy hlike (by simp)

lemma frames_importDeclaration (start start' : Token) (W : Phrase → Phrase → Prop) :
    Frames W Like Import.unplaced (importDeclaration start) (importDeclaration start') := by
  refine .bind frames_importHead fun head head' hhead => ?_
  obtain rfl : head' = head := hhead
  refine .bind frames_dottedRest fun parts parts' hparts => ?_
  obtain rfl : parts' = parts := hparts
  refine .bind (frames_importQualifier _) fun given given' hgiven => ?_
  obtain rfl : given' = given := hgiven
  refine .bind (frames_expect ";" W) fun semicolon semicolon' _ => ?_
  exact frames_pure rfl

/-! ### Functions -/

lemma frames_functionName (words : List String) :
    Frames Like Like FunctionName.unplaced (functionName words) (functionName words) := by
  refine .bind (frames_identifier Like) fun name name' hname => ?_
  have hsame := wording_eq_iff.mp hname
  dsimp only
  split_ifs
  · refine .bind (frames_upTo "(") fun path path' hpath => ?_
    dsimp only
    refine frames_pure ?_
    rw [FunctionName.unplaced, FunctionName.unplaced, hsame.2, hpath]
  · refine frames_pure ?_
    rw [hsame.2]
  · refine frames_pure ?_
    rw [hsame.2]

lemma frames_returnType :
    Frames Like Like (Option.map Phrase.unplaced) returnType returnType := by
  refine .branch (frames_pure rfl) (.bind frames_annotations fun _ _ _ => ?_)
  refine .bind (frames_upTo "\x7b") fun type type' htype => ?_
  refine frames_pure ?_
  rw [Option.map_some, Option.map_some, htype]

/-! ### Divided phrases -/

lemma cutOrAll_copy (mark : String) {ts us : Phrase} (h : ts.Copy us) :
    (cutOrAll mark ts).1.Copy (cutOrAll mark us).1 ∧
      (cutOrAll mark us).2.map Phrase.unplaced = (cutOrAll mark ts).2.map Phrase.unplaced := by
  -- a division of one phrase is one of the other
  have hcut : ∀ {ts us before after : Phrase} {found : Token}, ts.Copy us →
      cut mark ts = some (before, found, after) →
      ∃ before' found' after', cut mark us = some (before', found', after') ∧
        before.Copy before' ∧ after.Copy after' := by
    intro ts us before after found h hts
    obtain ⟨rfl, hfree, hfound⟩ := cut_eq_some_iff.mp hts
    obtain ⟨before', vs, rfl, hbefore, hvs⟩ := h.append_left
    obtain ⟨found', after', rfl, hsame, hafter⟩ := hvs.cons_left
    exact ⟨before', found', after', cut_eq_some_iff.mpr
      ⟨rfl, hbefore.alike.free hfree, hsame.is mark ▸ hfound⟩, hbefore, hafter⟩
  unfold cutOrAll
  cases hts : cut mark ts with
  | some found =>
    obtain ⟨before, found, after⟩ := found
    obtain ⟨before', found', after', hus, hbefore, hafter⟩ := hcut h hts
    rw [hus]
    exact ⟨hbefore, congrArg some hafter.unplaced_eq⟩
  | none =>
    cases hus : cut mark us with
    | some found =>
      obtain ⟨before, found, after⟩ := found
      obtain ⟨before', found', after', hts', -⟩ := hcut h.symm hus
      simp [hts] at hts'
    | none => exact ⟨h, rfl⟩

lemma segmentsFrom_unspanned (depth : Nat) (ts : Phrase) :
    (segmentsFrom depth ts).map (List.map Token.unspanned) =
      segmentsFrom depth (ts.map Token.unspanned) := by
  have hfirst (t : Token) (list : List Phrase) : (consFirst t list).map (List.map Token.unspanned)
      = consFirst t.unspanned (list.map (List.map Token.unspanned)) := by
    cases list <;> rfl
  have his (t : Token) (mark : String) : t.unspanned.is mark = t.is mark := rfl
  have hopener (t : Token) : t.unspanned.isOpener = t.isOpener := rfl
  have hcloser (t : Token) : t.unspanned.isCloser = t.isCloser := rfl
  fun_induction segmentsFrom depth ts with
  | case1 depth => rfl
  | case2 depth t ts hcomma ih =>
    rw [List.map_cons, List.map_cons, segmentsFrom.eq_def depth (t.unspanned :: _)]
    simp only [his, hcomma, if_true, List.isEmpty_map, ← ih]
    split <;> rfl
  | case3 depth t ts hcomma hopen ih =>
    rw [hfirst, ih, List.map_cons, segmentsFrom.eq_def depth (t.unspanned :: _)]
    simp only [his, hopener, hcomma, hopen, if_true, if_false, Bool.false_eq_true]
  | case4 t ts hopen hclose hcomma =>
    simp only [List.map_cons, List.map_nil, segmentsFrom, his, hopener, hcloser, hopen, hclose,
      hcomma, if_true, if_false, Bool.false_eq_true]
  | case5 t ts hopen hclose depth hcomma ih =>
    rw [hfirst, ih]
    simp [segmentsFrom, hopener, hcloser, hopen, hclose]
  | case6 depth t ts hcomma hopen hclose ih =>
    rw [hfirst, ih, List.map_cons, segmentsFrom.eq_def depth (t.unspanned :: _)]
    simp only [his, hopener, hcloser, hcomma, hopen, hclose, if_false, Bool.false_eq_true]

lemma segmentsFrom_same {t u : Token} (h : Token.Same t u) (depth : Nat) (ts : Phrase) :
    (segmentsFrom depth (t :: ts)).map Phrase.unplaced =
      (segmentsFrom depth (u :: ts)).map Phrase.unplaced := by
  have hhead (ts : Phrase) : Phrase.unplaced (t :: ts) = Phrase.unplaced (u :: ts) :=
    Phrase.Copy.cons h rfl
  have hfirst (list : List Phrase) :
      (consFirst t list).map Phrase.unplaced = (consFirst u list).map Phrase.unplaced := by
    cases list with
    | nil => exact congrArg (· :: []) (hhead [])
    | cons p list => exact congrArg (· :: list.map Phrase.unplaced) (hhead p)
  rw [segmentsFrom.eq_def, segmentsFrom.eq_def]
  simp only [h.is, h.isOpener, h.isCloser]
  split_ifs
  · rfl
  · rfl
  · exact hfirst _
  · cases depth with
    | zero => exact congrArg (· :: []) (hhead ts)
    | succ depth => exact hfirst _
  · exact hfirst _

/-- Copies are divided at the same commas. -/
lemma segments_copy {ts us : Phrase} (h : ts.Copy us) :
    (segments us).map Phrase.unplaced = (segments ts).map Phrase.unplaced := by
  cases ts with
  | nil => rw [h.nil_left]
  | cons t ts =>
    obtain ⟨u, us, rfl, hsame, htail⟩ := h.cons_inv
    have hunspanned : Phrase.unplaced ∘ List.map Token.unspanned = Phrase.unplaced := by
      funext p
      cases p <;> simp [Phrase.unplaced, Token.unspanned, Token.erase]
    have hmiddle := congrArg (List.map Phrase.unplaced)
      ((segmentsFrom_unspanned 0 (u :: us)).trans (congrArg (segmentsFrom 0 ∘ (u.unspanned :: ·))
        htail.symm) |>.trans (segmentsFrom_unspanned 0 (u :: ts)).symm)
    rw [List.map_map, List.map_map, hunspanned] at hmiddle
    exact hmiddle.trans (segmentsFrom_same hsame 0 ts).symm

/-! ### Parameters -/

lemma dropGroup_copy {ts us : Phrase} (h : ts.Copy us) :
    ((dropGroup ts).getD []).Copy ((dropGroup us).getD []) := by
  have hgroup {ts us rest : Phrase} {depth : Nat} (h : ts.Copy us)
      (hts : dropGroupFrom depth ts = some rest) :
      ∃ rest', dropGroupFrom depth us = some rest' ∧ rest.Copy rest' := by
    obtain ⟨rest', hus, halike⟩ := dropGroupFrom_alike h.alike hts
    obtain ⟨group, rfl, -⟩ := dropGroupFrom_spec hts
    obtain ⟨group', rfl, -⟩ := dropGroupFrom_spec hus
    obtain ⟨vs, ws, heq, -, hws⟩ := h.append_left
    obtain ⟨-, rfl⟩ := List.append_inj' heq (halike.length.symm.trans hws.alike.length)
    exact ⟨rest', hus, hws⟩
  cases ts with
  | nil =>
    obtain rfl := h.nil_left
    exact .refl _
  | cons t ts =>
    obtain ⟨u, us, rfl, hsame, hrest⟩ := h.cons_left
    simp only [dropGroup, hsame.isOpener]
    split
    · cases hts : dropGroupFrom 1 ts with
      | some rest =>
        obtain ⟨rest', hus, hcopy⟩ := hgroup hrest hts
        simpa [hus] using hcopy
      | none =>
        cases hus : dropGroupFrom 1 us with
        | some rest =>
          obtain ⟨rest', hts', -⟩ := hgroup hrest.symm hus
          simp [hts] at hts'
        | none => exact .refl _
    · exact hrest

lemma dropAnnotations_copy (n : Nat) {ts us : Phrase} (h : ts.Copy us) :
    (dropAnnotations n ts).Copy (dropAnnotations n us) := by
  induction n generalizing ts us with
  | zero => exact h
  | succ n ih =>
    cases ts with
    | nil =>
      obtain rfl := h.nil_left
      exact .refl _
    | cons t ts =>
      obtain ⟨u, us, rfl, hsame, hrest⟩ := h.cons_left
      have hdrop : Phrase.Copy (ts.drop 1) (us.drop 1) := by
        cases ts with
        | nil =>
          obtain rfl := hrest.nil_left
          exact .refl _
        | cons t ts =>
          obtain ⟨u, us, rfl, -, hrest⟩ := hrest.cons_left
          exact hrest
      simp only [dropAnnotations, hsame.is, hdrop.alike.sees]
      split_ifs
      · exact ih (dropGroup_copy hdrop)
      · exact ih hdrop
      · exact h

/-- Copies are the same parameter. -/
lemma parameter?_copy {ts us : Phrase} (h : ts.Copy us) :
    (parameter? us).map Parameter.unplaced = (parameter? ts).map Parameter.unplaced := by
  have hlength : us.length = ts.length := h.alike.length.symm
  obtain ⟨hleft, hdefault⟩ := cutOrAll_copy "=" (dropAnnotations_copy ts.length h)
  simp only [parameter?, hlength]
  rcases List.eq_nil_or_concat' (cutOrAll "=" (dropAnnotations ts.length ts)).1 with
    hnil | ⟨init, last, hlast⟩
  · rw [hnil] at hleft ⊢
    rw [hleft.nil_left]
    rfl
  · rw [hlast] at hleft ⊢
    obtain ⟨init', last', heq, hinit, hsame⟩ := hleft.concat_left
    simp [heq, Parameter.unplaced, hinit.unplaced_eq, hsame.2, hdefault]

lemma filterMap_parameter?_copy {list list' : List Phrase}
    (h : list'.map Phrase.unplaced = list.map Phrase.unplaced) :
    (list'.filterMap parameter?).map Parameter.unplaced =
      (list.filterMap parameter?).map Parameter.unplaced := by
  induction list generalizing list' with
  | nil =>
    obtain rfl : list' = [] := List.map_eq_nil_iff.mp h
    rfl
  | cons p list ih =>
    cases list' with
    | nil => simp at h
    | cons p' list' =>
      obtain ⟨hhead, htail⟩ := List.cons.inj h
      have hparameter := parameter?_copy (Eq.symm hhead)
      have hlist := ih htail
      rw [List.map_filterMap] at hlist ⊢
      rw [List.map_filterMap] at hlist ⊢
      rw [List.filterMap_cons, List.filterMap_cons, hparameter, hlist]

lemma frames_parameters (W : Phrase → Phrase → Prop) :
    Frames W Like (List.map Parameter.unplaced) parameters parameters := by
  refine .bind (frames_expect "(" Like) fun _ _ _ => ?_
  refine .bind (frames_through ")" W) ?_
  rintro ⟨inner, close⟩ ⟨inner', close'⟩ hinner
  have hcopy : inner.Copy inner' := (congrArg Prod.fst hinner).symm
  exact frames_pure (filterMap_parameter?_copy (segments_copy hcopy))

/-! ### Types -/

/-- Whether a field's type and name end in a question mark. -/
def isMarked (left : Phrase) : Bool := left.getLast?.any (·.is "?")

/-- A field's type and name without the question mark. -/
def unmarked (left : Phrase) : Phrase := if isMarked left then left.dropLast else left

/-- The field with a type, a name and a default. -/
def fieldWith? (optional : Bool) (default : Option Phrase) (left : Phrase) : Option RecordField :=
  left.getLast?.bind fun name =>
    if name.isIdentifier && 2 ≤ left.length then
      some ⟨left.dropLast, name.text, optional, default⟩
    else none

/-- The field that an entry of a record is, if it is one. -/
def fieldOf? (entry : Phrase) : Option RecordField :=
  let (left, default) := cutOrAll "=" entry
  fieldWith? (isMarked left) default (unmarked left)

/-- What an entry with a given left side adds to a record. -/
def addRead (record : RecordType) (entry : Phrase) (optional : Bool) (default : Option Phrase)
    (left : Phrase) : RecordType :=
  match left.getLast? with
  | some name =>
    if name.isIdentifier && 2 ≤ left.length then
      { record with
        fields := record.fields ++ [⟨left.dropLast, name.text, optional, default⟩] }
    else { record with rest := some entry }
  | none => { record with rest := some entry }

lemma addEntry_eq (record : RecordType) (entry : Phrase) :
    addEntry record entry =
      match fieldOf? entry with
      | some field => { record with fields := record.fields ++ [field] }
      | none => { record with rest := some entry } := by
  have hfold : addEntry record entry =
      addRead record entry (isMarked (cutOrAll "=" entry).1) (cutOrAll "=" entry).2
        (unmarked (cutOrAll "=" entry).1) := rfl
  rw [hfold]
  simp only [addRead, fieldOf?, fieldWith?]
  split
  · rename_i name hname
    rw [hname, Option.bind_some]
    split_ifs <;> rfl
  · rename_i hname
    rw [hname, Option.bind_none]

lemma isMarked_copy {left left' : Phrase} (h : left.Copy left') :
    isMarked left' = isMarked left := by
  rcases List.eq_nil_or_concat' left with rfl | ⟨init, last, rfl⟩
  · rw [h.nil_left]
  · obtain ⟨init', last', rfl, -, hsame⟩ := h.concat_left
    simp [isMarked, hsame.is]

lemma unmarked_copy {left left' : Phrase} (h : left.Copy left') :
    (unmarked left).Copy (unmarked left') := by
  simp only [unmarked, isMarked_copy h]
  split
  · exact h.dropLast
  · exact h

lemma fieldWith?_copy {optional : Bool} {default default' : Option Phrase}
    (hdefault : default'.map Phrase.unplaced = default.map Phrase.unplaced) {left left' : Phrase}
    (h : left.Copy left') :
    (fieldWith? optional default' left').map RecordField.unplaced =
      (fieldWith? optional default left).map RecordField.unplaced := by
  rcases List.eq_nil_or_concat' left with rfl | ⟨init, last, rfl⟩
  · rw [h.nil_left]
    rfl
  · obtain ⟨init', last', rfl, hinit, hsame⟩ := h.concat_left
    have hlength := hinit.alike.length
    simp only [fieldWith?, List.getLast?_concat, Option.bind_some, hsame.isIdentifier,
      List.length_append, List.length_singleton, hlength, List.dropLast_concat, hsame.2]
    split_ifs
    · simp [RecordField.unplaced, hinit.unplaced_eq, hdefault]
    · rfl

/-- Copies are the same field. -/
lemma fieldOf?_copy {entry entry' : Phrase} (h : entry.Copy entry') :
    (fieldOf? entry').map RecordField.unplaced = (fieldOf? entry).map RecordField.unplaced := by
  obtain ⟨hleft, hdefault⟩ := cutOrAll_copy "=" h
  simp only [fieldOf?, isMarked_copy hleft]
  exact fieldWith?_copy hdefault (unmarked_copy hleft)

lemma addEntry_copy {record record' : RecordType} (h : record'.unplaced = record.unplaced)
    {entry entry' : Phrase} (hentry : entry.Copy entry') :
    (addEntry record' entry').unplaced = (addEntry record entry).unplaced := by
  have hfield := fieldOf?_copy hentry
  obtain ⟨hclosed, hfields, hinclusions, hrest⟩ := RecordType.mk.inj h
  rw [addEntry_eq, addEntry_eq]
  cases hentry' : fieldOf? entry with
  | none =>
    rw [hentry', Option.map_none, Option.map_eq_none_iff] at hfield
    simp [hfield, RecordType.unplaced, hclosed, hfields, hinclusions, hentry.unplaced_eq]
  | some field =>
    rw [hentry'] at hfield
    obtain ⟨field', hsome, heq⟩ := Option.map_eq_some_iff.mp hfield
    simp [hsome, RecordType.unplaced, hclosed, hfields, hinclusions, hrest, heq]

/-- No mark stands outside brackets in an open group. -/
lemma depthAfter?_of_dropGroupFrom (mark : String) {depth : Nat} (hdepth : 0 < depth)
    {ts rest : Phrase} (h : dropGroupFrom depth ts = some rest) :
    ∃ group, ts = group ++ rest ∧ depthAfter? mark depth group = some 0 := by
  have hinside {depth : Nat} (hdepth : 0 < depth) (t : Token) :
      (depth == 0 && t.is mark) = false := by
    simp [hdepth.ne']
  fun_induction dropGroupFrom depth ts with
  | case1 => simp at h
  | case2 depth t ts hopen ih =>
    obtain ⟨group, rfl, hgroup⟩ := ih (by omega) h
    exact ⟨t :: group, rfl, by simp [depthAfter?, hinside hdepth, hopen, hgroup]⟩
  | case3 depth t ts hopen hclose hle =>
    obtain rfl := Option.some.inj h
    obtain rfl : depth = 1 := by omega
    exact ⟨[t], rfl, by simp [depthAfter?, hopen, hclose]⟩
  | case4 depth t ts hopen hclose hle ih =>
    obtain ⟨group, rfl, hgroup⟩ := ih (by omega) h
    obtain ⟨depth, rfl⟩ : ∃ d, depth = d + 1 := ⟨depth - 1, by omega⟩
    exact ⟨t :: group, rfl, by simpa [depthAfter?, hopen, hclose] using hgroup⟩
  | case5 depth t ts hopen hclose ih =>
    obtain ⟨group, rfl, hgroup⟩ := ih hdepth h
    exact ⟨t :: group, rfl, by simp [depthAfter?, hinside hdepth, hopen, hclose, hgroup]⟩

lemma levelAfter?_of_dropGroupFrom {depth : Nat} (hdepth : 0 < depth) {ts rest : Phrase}
    (h : dropGroupFrom depth ts = some rest) :
    ∃ group, ts = group ++ rest ∧ levelAfter? depth group = some 0 := by
  obtain ⟨group, heq, hgroup⟩ := depthAfter?_of_dropGroupFrom ";" hdepth h
  exact ⟨group, heq, levelAfter?_of_depthAfter? hgroup⟩

lemma matched_of_annotationValue {ts rest : Phrase} (h : annotationValue ts = .ok rest) :
    ∃ used, ts = used ++ rest ∧ Matched used := by
  rw [annotationValue] at h
  split at h
  · rename_i hsees
    cases ts with
    | nil => simp [sees] at hsees
    | cons t ts =>
      split at h
      · rename_i left hdrop
        obtain rfl := Except.ok.inj h
        rw [dropGroup] at hdrop
        split at hdrop
        · rename_i hopen
          obtain ⟨group, rfl, hgroup⟩ := levelAfter?_of_dropGroupFrom Nat.one_pos hdrop
          exact ⟨t :: group, rfl, by simp [Matched, levelAfter?, hopen, hgroup]⟩
        · rename_i hopen
          obtain rfl := Option.some.inj hdrop
          have hclose : t.isCloser = false := by
            have htext : t.text = "\x7b" := by
              simp only [sees, Token.is, Bool.and_eq_true, beq_iff_eq] at hsees
              exact hsees.2
            simp [Token.isCloser, htext]
          exact ⟨[t], rfl, by simp [Matched, levelAfter?, hopen, hclose]⟩
      · simp at h
  · obtain rfl := Except.ok.inj h
    exact ⟨[], rfl, rfl⟩

lemma matched_of_annotationName {ts rest : Phrase} {name : String}
    (h : annotationName ts = .ok (name, rest)) : ∃ used, ts = used ++ rest ∧ Matched used := by
  obtain ⟨⟨first, after⟩, hfirst, hread⟩ := bind_eq_ok_iff.mp h
  obtain ⟨rfl, hidentifier⟩ := identifier_eq_ok_iff.mp hfirst
  dsimp only at hread
  split at hread
  · obtain ⟨rfl, rfl⟩ := hread
    exact ⟨[first], rfl, matched_identifier hidentifier⟩
  · rename_i after' heat
    obtain ⟨colon, rfl, hcolon⟩ := eat_eq_some_iff.mp heat
    obtain ⟨⟨second, left⟩, hsecond, hread'⟩ := bind_eq_ok_iff.mp hread
    obtain ⟨rfl, hidentifier'⟩ := identifier_eq_ok_iff.mp hsecond
    obtain ⟨rfl, rfl⟩ := hread'
    exact ⟨[first] ++ ([colon] ++ [second]), rfl, (matched_identifier hidentifier).append
      ((matched_mark hcolon (by decide)).append (matched_identifier hidentifier'))⟩

/-- The tokens of annotations close the brackets they open. -/
lemma matched_of_annotationsFrom {n : Nat} {ts rest : Phrase} {names : List String}
    (h : annotationsFrom n ts = .ok (names, rest)) : ∃ used, ts = used ++ rest ∧ Matched used := by
  induction n generalizing ts names with
  | zero =>
    obtain ⟨rfl, rfl⟩ := h
    exact ⟨[], rfl, rfl⟩
  | succ n ih =>
    rw [annotationsFrom] at h
    split at h
    · obtain ⟨rfl, rfl⟩ := h
      exact ⟨[], rfl, rfl⟩
    · rename_i after hat
      obtain ⟨mark, rfl, hmark⟩ := eat_eq_some_iff.mp hat
      obtain ⟨⟨name, after1⟩, hname, h⟩ := bind_eq_ok_iff.mp h
      obtain ⟨after2, hvalue, h⟩ := bind_eq_ok_iff.mp h
      obtain ⟨⟨names', after3⟩, hnames, h⟩ := bind_eq_ok_iff.mp h
      obtain ⟨rfl, rfl⟩ := h
      obtain ⟨used1, rfl, hused1⟩ := matched_of_annotationName hname
      obtain ⟨used2, rfl, hused2⟩ := matched_of_annotationValue hvalue
      obtain ⟨used3, rfl, hused3⟩ := ih hnames
      exact ⟨[mark] ++ (used1 ++ (used2 ++ used3)), by simp,
        (matched_mark hmark (by decide)).append (hused1.append (hused2.append hused3))⟩

/-- The first semicolon outside brackets stands in an annotated entry or at its end. -/
lemma through_of_annotated {front entry rest body after : Phrase} {semicolon found : Token}
    (hfront : Matched front) (hentry : Free ";" entry) (hsemicolon : semicolon.is ";")
    (h : through ";" (front ++ (entry ++ semicolon :: rest)) = .ok ((body, found), after)) :
    ∃ more, front ++ (entry ++ [semicolon]) = body ++ found :: more := by
  obtain ⟨heq, hbody, hfound⟩ := through_eq_ok_iff.mp h
  have hsplit : (front ++ (entry ++ [semicolon])) ++ rest = (body ++ [found]) ++ after := by
    simpa using heq
  rcases List.append_eq_append_iff.mp hsplit with ⟨more, hlong, -⟩ | ⟨more, hshort, -⟩
  · rcases List.eq_nil_or_concat' more with rfl | ⟨more, last, rfl⟩
    · exact ⟨[], by simpa using hlong.symm⟩
    · rw [← List.append_assoc] at hlong
      obtain ⟨hbodies, -⟩ := List.append_inj' hlong rfl
      obtain rfl : body = front ++ (entry ++ semicolon :: more) := by simpa using hbodies
      exfalso
      rw [Free, depthAfter?_append, Option.bind_eq_some_iff] at hbody
      obtain ⟨depth, hdepth, hrest⟩ := hbody
      obtain rfl : 0 = depth :=
        Option.some.inj (hfront.symm.trans (levelAfter?_of_depthAfter? hdepth))
      have hentry' : depthAfter? ";" 0 entry = some 0 := hentry
      rw [depthAfter?_append, hentry', Option.bind_some] at hrest
      simp [depthAfter?, hsemicolon] at hrest
  · exact ⟨more, by simpa using hshort⟩

lemma recordEntries_inclusion {close : String} {n : Nat} {record : RecordType} {t : Token}
    {entry after : Phrase} {semicolon : Token} (hclose : t.is close = false) (hstar : t.is "*")
    (hentry : Free ";" (t :: entry)) (hsemicolon : semicolon.is ";") :
    recordEntries close (n + 1) record (t :: entry ++ semicolon :: after) =
      recordEntries close n { record with inclusions := record.inclusions ++ [entry] } after := by
  have hthrough : through ";" (t :: entry ++ semicolon :: after) =
      .ok ((t :: entry, semicolon), after) := through_eq_ok_iff.mpr ⟨rfl, hentry, hsemicolon⟩
  rw [List.cons_append] at hthrough ⊢
  simp [recordEntries, hclose, hthrough, hstar, bind, Except.bind]

lemma recordEntries_entry {close : String} {n : Nat} {record : RecordType} {t : Token}
    {ts ts' body entry rest after : Phrase} {found semicolon : Token} {names : List String}
    (hclose : t.is close = false) (hstar : t.is "*" = false)
    (hthrough : through ";" (t :: ts) = .ok ((body, found), rest))
    (hnames : annotations (t :: ts) = .ok (names, ts'))
    (hentry : through ";" ts' = .ok ((entry, semicolon), after)) :
    recordEntries close (n + 1) record (t :: ts) =
      recordEntries close n (addEntry record entry) after := by
  simp [recordEntries, hclose, hthrough, hstar, hnames, hentry, bind, Except.bind]

/-- A copy of an entry with its annotations is read as a copy of the entry. -/
lemma annotatedEntry_spec {t : Token} {ts ts' body entry rest after : Phrase}
    {found semicolon : Token} {names : List String}
    (hthrough : through ";" (t :: ts) = .ok ((body, found), rest))
    (hnames : annotations (t :: ts) = .ok (names, ts'))
    (hentry : through ";" ts' = .ok ((entry, semicolon), after)) :
    ∃ more, ts = more ++ after ∧ ∀ ⦃used'⦄ after', Phrase.Copy (t :: more) used' →
      ∃ us' body' found' rest' entry' semicolon',
        through ";" (used' ++ after') = .ok ((body', found'), rest') ∧
        annotations (used' ++ after') = .ok (names, us') ∧
        through ";" us' = .ok ((entry', semicolon'), after') ∧ entry.Copy entry' := by
  obtain ⟨rfl, hfree, hsemicolon⟩ := through_eq_ok_iff.mp hentry
  obtain ⟨front, hfront, hmatched⟩ := matched_of_annotationsFrom hnames
  rw [hfront] at hthrough hnames
  obtain ⟨behind, hbehind⟩ := through_of_annotated hmatched hfree hsemicolon hthrough
  obtain ⟨-, hbody, hfound⟩ := through_eq_ok_iff.mp hthrough
  obtain ⟨front', hcancel, hframe⟩ := frames_annotations hnames
  obtain rfl := List.append_cancel_right hcancel
  have hsplit : t :: ts = front ++ (entry ++ [semicolon]) ++ after := by simp [hfront]
  obtain ⟨hnil, -⟩ | ⟨more, hmore, rfl⟩ := List.cons_eq_append_iff.mp hsplit
  · simp at hnil
  refine ⟨more, rfl, fun used' after' hcopy => ?_⟩
  rw [← hmore] at hcopy
  -- the first semicolon outside brackets has its copy
  have hfirst := hcopy
  rw [hbehind] at hfirst
  obtain ⟨body', vs, heq, hbodies, hvs⟩ := hfirst.append_left
  obtain ⟨found', behind', rfl, hsame, -⟩ := hvs.cons_left
  have hthrough' : through ";" (used' ++ after') = .ok ((body', found'), behind' ++ after') :=
    through_eq_ok_iff.mpr ⟨by simp [heq], hbodies.alike.free hbody, hsame.is ";" ▸ hfound⟩
  obtain ⟨front', ws, rfl, hfronts, hws⟩ := hcopy.append_left
  obtain ⟨entry', semicolon', rfl, hentries, hsame'⟩ := hws.concat_left
  have hentry' : through ";" (entry' ++ [semicolon'] ++ after') =
      .ok ((entry', semicolon'), after') :=
    through_eq_ok_iff.mpr
      ⟨by simp, hentries.alike.free hfree, hsame'.is ";" ▸ hsemicolon⟩
  have hlike : Like (entry ++ semicolon :: after) (entry' ++ [semicolon'] ++ after') := by
    have hlong := like_of_copy hws (by simp) after after'
    rwa [List.append_assoc, List.singleton_append] at hlong
  obtain ⟨-, names', hnames', rfl⟩ := hframe hfronts hlike
  refine ⟨_, body', found', _, entry', semicolon', hthrough', ?_, hentry', hentries⟩
  rw [List.append_assoc]
  exact hnames'

lemma recordEntries_spec {close : String} {n : Nat} {record read : RecordType} {ts rest : Phrase}
    (h : recordEntries close n record ts = .ok (read, rest)) :
    ∃ used, ts = used ++ rest ∧ used ≠ [] ∧ ∀ ⦃used'⦄ rest' ⦃record'⦄ m, used.Copy used' →
      record'.unplaced = record.unplaced → used'.length ≤ m →
        ∃ read', recordEntries close m record' (used' ++ rest') = .ok (read', rest') ∧
          read'.unplaced = read.unplaced := by
  induction n generalizing ts record with
  | zero => simp [recordEntries] at h
  | succ n ih =>
    cases ts with
    | nil => simp [recordEntries] at h
    | cons t ts =>
      rw [recordEntries] at h
      dsimp only at h
      split at h
      · rename_i hclose
        obtain ⟨rfl, rfl⟩ := h
        refine ⟨[t], rfl, by simp, fun used' rest' record' m hcopy hrecord hm => ?_⟩
        obtain ⟨u, rfl, hsame⟩ := hcopy.singleton_left
        cases m with
        | zero => simp at hm
        | succ m =>
          exact ⟨record', by simp [recordEntries, ← hsame.is, hclose], hrecord⟩
      · rename_i hclose
        rw [Bool.not_eq_true] at hclose
        obtain ⟨⟨⟨entry, semicolon⟩, after⟩, hentry, hread⟩ := bind_eq_ok_iff.mp h
        dsimp only at hread
        split at hread
        · rename_i hstar
          obtain ⟨heq, hfree, hsemicolon⟩ := through_eq_ok_iff.mp hentry
          obtain ⟨used, rfl, -, hall⟩ := ih hread
          refine ⟨entry ++ semicolon :: used, by simpa using heq, by simp,
            fun used' rest' record' m hcopy hrecord hm => ?_⟩
          obtain ⟨entry', vs, rfl, hentries, hvs⟩ := hcopy.append_left
          obtain ⟨semicolon', ws, rfl, hsame, hws⟩ := hvs.cons_left
          cases entry with
          | nil =>
            obtain ⟨rfl, -⟩ := List.cons.inj heq
            exact absurd (is_inj hstar hsemicolon) (by decide)
          | cons first entry =>
            obtain ⟨rfl, -⟩ := List.cons.inj heq
            have hfree' := hentries.alike.free hfree
            obtain ⟨first', entry', rfl, hfirst, hentry'⟩ := hentries.cons_left
            cases m with
            | zero => simp at hm
            | succ m =>
              rw [List.append_assoc (first' :: entry'), List.cons_append (a := semicolon'),
                recordEntries_inclusion (hfirst.is close ▸ hclose) (hfirst.is "*" ▸ hstar) hfree'
                  (hsame.is ";" ▸ hsemicolon)]
              refine hall rest' m hws ?_ (by simp at hm; omega)
              obtain ⟨hclosed, hfields, hinclusions, hrest⟩ := RecordType.mk.inj hrecord
              simp [RecordType.unplaced, hclosed, hfields, hinclusions, hrest, hentry'.unplaced_eq]
        · rename_i hstar
          rw [Bool.not_eq_true] at hstar
          obtain ⟨⟨names, after1⟩, hnames, hread1⟩ := bind_eq_ok_iff.mp hread
          obtain ⟨⟨⟨entry1, semicolon1⟩, after2⟩, hentry1, hread2⟩ := bind_eq_ok_iff.mp hread1
          obtain ⟨more, rfl, hframe⟩ := annotatedEntry_spec hentry hnames hentry1
          obtain ⟨used, rfl, -, hall⟩ := ih hread2
          refine ⟨t :: more ++ used, by simp, by simp, fun used' rest' record' m hcopy hrecord hm =>
            ?_⟩
          obtain ⟨vs, ws, rfl, hvs, hws⟩ := hcopy.append_left
          obtain ⟨us', body', found', rest0, entry', semicolon', hthrough', hnames', hentry',
            hcopy'⟩ :=
            hframe (ws ++ rest') hvs
          obtain ⟨t', vs, rfl, hsame, -⟩ := hvs.cons_left
          cases m with
          | zero => simp at hm
          | succ m =>
            rw [List.append_assoc]
            rw [List.cons_append] at hthrough' hnames' ⊢
            rw [recordEntries_entry (hsame.is close ▸ hclose) (hsame.is "*" ▸ hstar) hthrough'
              hnames' hentry']
            exact hall rest' m hws (addEntry_copy hrecord hcopy') (by simp at hm; omega)

lemma frames_recordType (W : Phrase → Phrase → Prop) :
    Frames W Like RecordType.unplaced recordType recordType := by
  have hentries (close : String) (record : RecordType) (W : Phrase → Phrase → Prop) :
      Frames W Like RecordType.unplaced (fun ts => recordEntries close ts.length record ts)
        (fun ts => recordEntries close ts.length record ts) := by
    intro ts rest read h
    obtain ⟨used, rfl, hne, hall⟩ := recordEntries_spec h
    refine ⟨used, rfl, fun used' rest' hcopy _ => ⟨like_of_copy hcopy hne _ _, ?_⟩⟩
    exact hall rest' _ hcopy rfl (by simp)
  refine .branch (.bind (frames_expect "\x7b" Like) fun _ _ _ => ?_) (hentries _ _ W)
  exact hentries _ _ W

lemma frames_typeDescriptor :
    Frames Like Like TypeDescriptor.unplaced typeDescriptor typeDescriptor := by
  refine .branch (.bind (frames_upTo ";") fun descriptor descriptor' h => ?_)
    (.bind (frames_recordType Like) fun record record' h => ?_)
  · refine frames_pure ?_
    rw [TypeDescriptor.unplaced, TypeDescriptor.unplaced, h]
  · refine frames_pure ?_
    rw [TypeDescriptor.unplaced, TypeDescriptor.unplaced, h]

lemma frames_typeDefinition (start start' : Token) (words : List String)
    (W : Phrase → Phrase → Prop) :
    Frames W Like TypeDefinition.unplaced (typeDefinition start words)
      (typeDefinition start' words) := by
  refine .bind (frames_identifier Like) fun name name' hname => ?_
  refine .bind frames_typeDescriptor fun descriptor descriptor' hdescriptor => ?_
  refine .bind (frames_expect ";" W) fun semicolon semicolon' _ => ?_
  refine frames_pure ?_
  simp only [TypeDefinition.unplaced, (wording_eq_iff.mp hname).2, hdescriptor]

lemma filter_isEmpty_copy {list list' : List Phrase}
    (h : list'.map Phrase.unplaced = list.map Phrase.unplaced) :
    (list'.filter (!·.isEmpty)).map Phrase.unplaced =
      (list.filter (!·.isEmpty)).map Phrase.unplaced := by
  have hempty (p : Phrase) : (!p.isEmpty) = !p.unplaced.isEmpty := by cases p <;> rfl
  have hfilter (list : List Phrase) : (list.filter (!·.isEmpty)).map Phrase.unplaced =
      (list.map Phrase.unplaced).filter (!·.isEmpty) := by
    rw [List.filter_map]
    congr 1
    exact List.filter_congr fun p _ => hempty p
  rw [hfilter, hfilter, h]

lemma frames_enumDefinition (start start' : Token) (words : List String)
    (W : Phrase → Phrase → Prop) :
    Frames W Like TypeDefinition.unplaced (enumDefinition start words)
      (enumDefinition start' words) := by
  refine .bind (frames_identifier Like) fun name name' hname => ?_
  refine .bind (frames_expect "\x7b" Like) fun _ _ _ => ?_
  refine .bind (frames_through "\x7d" W) ?_
  rintro ⟨inner, close⟩ ⟨inner', close'⟩ hinner
  have hcopy : inner.Copy inner' := (congrArg Prod.fst hinner).symm
  refine frames_pure ?_
  simp only [TypeDefinition.unplaced, TypeDescriptor.unplaced, (wording_eq_iff.mp hname).2,
    filter_isEmpty_copy (segments_copy hcopy)]

end FlowCanvas.Parser
