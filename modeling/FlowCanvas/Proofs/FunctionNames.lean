import FlowCanvas.Document
import FlowCanvas.Proofs.Headers
import FlowCanvas.Proofs.Spans

/-!
# The functions a scan names

`Document.functionNames` counts brackets and reads no members. Each member of a module is a stretch
of tokens whose brackets match, so the scan is outside brackets where a member starts: it names
every function of the module, and it names nothing between the braces of a service or a class.
-/

namespace FlowCanvas

open Brackets Lexer FlowCanvas.Parser

/-- The name of a function that is called by one. A resource has an accessor and a path. -/
def FunctionName.name? : FunctionName → Option String
  | .plain name => some name
  | .remote name => some name
  | .resource .. => none

namespace Member

def functionName? : Member → Option String
  | .function f => f.name.name?
  | _ => none

/-- The functions inside a service or a class. -/
def methods : Member → List FunctionDefinition
  | .service s => s.functions
  | .classDefinition c => c.functions
  | _ => []

end Member

namespace Document

/-! ### What the scan names -/

/-- The tokens behind each `function` outside brackets. -/
def namedTokens (depth : Nat) : Phrase → Phrase
  | [] => []
  | t :: ts =>
    if t.isOpener then namedTokens (depth + 1) ts
    else if t.isCloser then namedTokens (depth - 1) ts
    else if depth == 0 && t.is "function" then ts.head?.toList ++ namedTokens depth ts
    else namedTokens depth ts

lemma functionNamesFrom_eq (depth : Nat) (ts : Phrase) :
    functionNamesFrom depth ts = (namedTokens depth ts).map (·.text) := by
  fun_induction functionNamesFrom depth ts with
  | case1 depth => rfl
  | case2 depth t ts hopen ih => simp [namedTokens, hopen, ih]
  | case3 depth t ts hopen hclose ih => simp [namedTokens, hopen, hclose, ih]
  | case4 depth t hopen hclose hnamed => simp [namedTokens]
  | case5 depth t hopen hclose hnamed name rest ih =>
    rw [namedTokens.eq_def]
    simp [hopen, hclose, hnamed, ih]
  | case6 depth t ts hopen hclose hnamed ih =>
    rw [namedTokens.eq_def]
    simp only [hopen, hclose, hnamed, Bool.false_eq_true, if_false, ih]

lemma namedTokens_subset (depth : Nat) (ts : Phrase) : namedTokens depth ts ⊆ ts := by
  fun_induction namedTokens depth ts with
  | case1 depth => exact List.Subset.refl _
  | case2 depth t ts hopen ih => exact List.subset_cons_of_subset t ih
  | case3 depth t ts hopen hclose ih => exact List.subset_cons_of_subset t ih
  | case4 depth t ts hopen hclose hnamed ih =>
    refine List.append_subset.mpr ⟨fun u hu => ?_, List.subset_cons_of_subset t ih⟩
    exact List.mem_cons_of_mem t (List.mem_of_head? (Option.mem_toList.mp hu))
  | case5 depth t ts hopen hclose hnamed ih => exact List.subset_cons_of_subset t ih

/-- Inside brackets nothing is named. -/
lemma namedTokens_inside {depth depth' : Nat} {ts : Phrase}
    (h : levelAfter? depth ts = some depth') (us : Phrase) :
    namedTokens (depth + 1) (ts ++ us) = namedTokens (depth' + 1) us := by
  fun_induction levelAfter? depth ts with
  | case1 depth =>
    obtain rfl := Option.some.inj h
    rfl
  | case2 depth t ts hopen ih => simpa [namedTokens, hopen] using ih h
  | case3 t ts hopen hclose => simp at h
  | case4 t ts hopen hclose depth ih => simpa [namedTokens, hopen, hclose] using ih h
  | case5 depth t ts hopen hclose ih => simpa [namedTokens, hopen, hclose] using ih h

/-- What is named in either part of a phrase is named in the phrase. -/
lemma namedTokens_sublist {depth depth' : Nat} {ts : Phrase}
    (h : levelAfter? depth ts = some depth') (us : Phrase) :
    (namedTokens depth ts ++ namedTokens depth' us).Sublist (namedTokens depth (ts ++ us)) := by
  fun_induction levelAfter? depth ts with
  | case1 depth =>
    obtain rfl := Option.some.inj h
    exact .refl _
  | case2 depth t ts hopen ih => simpa [namedTokens, hopen] using ih h
  | case3 t ts hopen hclose => simp at h
  | case4 t ts hopen hclose depth ih => simpa [namedTokens, hopen, hclose] using ih h
  | case5 depth t ts hopen hclose ih =>
    rw [List.cons_append, namedTokens.eq_def, namedTokens.eq_def depth (t :: (ts ++ us))]
    simp only [hopen, hclose, Bool.false_eq_true, if_false]
    split
    · rw [List.append_assoc]
      refine List.Sublist.append ?_ (ih h)
      cases ts with
      | nil => exact List.nil_sublist _
      | cons u ts => exact .refl _
    · exact ih h

/-- What is named in a phrase stands in its first part, at the seam or is named in its other
part. -/
lemma mem_namedTokens_append {depth depth' : Nat} {ts us : Phrase}
    (h : levelAfter? depth ts = some depth') {t : Token} (ht : t ∈ namedTokens depth (ts ++ us)) :
    t ∈ ts ∨ t ∈ us.head? ∨ t ∈ namedTokens depth' us := by
  fun_induction levelAfter? depth ts with
  | case1 depth =>
    obtain rfl := Option.some.inj h
    exact .inr (.inr ht)
  | case2 depth u ts hopen ih =>
    rw [List.cons_append, namedTokens, if_pos hopen] at ht
    exact (ih h ht).imp_left (List.mem_cons_of_mem u)
  | case3 u ts hopen hclose => simp at h
  | case4 u ts hopen hclose depth ih =>
    rw [List.cons_append, namedTokens, if_neg hopen, if_pos hclose] at ht
    exact (ih h ht).imp_left (List.mem_cons_of_mem u)
  | case5 depth u ts hopen hclose ih =>
    rw [List.cons_append, namedTokens, if_neg hopen, if_neg hclose] at ht
    split at ht
    · rcases List.mem_append.mp ht with hhead | ht
      · cases ts with
        | nil => exact .inr (.inl (Option.mem_toList.mp hhead))
        | cons v ts =>
          obtain rfl := Option.some.inj (Option.mem_toList.mp hhead)
          exact .inl (by simp)
      · exact (ih h ht).imp_left (List.mem_cons_of_mem u)
    · exact (ih h ht).imp_left (List.mem_cons_of_mem u)

/-! ### Where members stand -/

/-- A span stands inside brackets. -/
def Enclosed (span : Span) (ts : Phrase) : Prop :=
  ∃ front first before used after last back,
    ts = front ++ first :: (before ++ (used ++ after) ++ last :: back) ∧ Matched front ∧
      first.isOpener ∧ Matched (before ++ (used ++ after)) ∧ last.isCloser ∧ Covers span used

lemma Enclosed.surround {span : Span} {ts front : Phrase} (h : Enclosed span ts)
    (hfront : Matched front) (back : Phrase) : Enclosed span (front ++ (ts ++ back)) := by
  obtain ⟨front', first, before, used, after, last, back', rfl, hfront', hopen, hinner, hclose,
    hcovers⟩ := h
  exact ⟨front ++ front', first, before, used, after, last, back' ++ back, by simp,
    hfront.append hfront', hopen, hinner, hclose, hcovers⟩

/-- No token that is named lies in a span that stands inside brackets. -/
lemma Enclosed.covers_eq_false {span : Span} {ts : Phrase} (h : Enclosed span ts)
    (hts : Increasing ts) {t : Token} (ht : t ∈ namedTokens 0 ts) :
    span.covers t.span.start.byte t.span.stop.byte = false := by
  obtain ⟨front, first, before, used, after, last, back, rfl, hfront, hopen, hinner, hclose,
    hcovers⟩ := h
  obtain ⟨u, hu, v, hv, hstart, hstop⟩ := hcovers.ends
  have hfilled := hts.filled t (namedTokens_subset 0 _ ht)
  -- the token stands in front of the group's inner tokens or behind them
  have hwhere : t ∈ front ++ [first] ∨ t ∈ last :: back := by
    rcases mem_namedTokens_append hfront ht with ht | ht | ht
    · exact .inl (List.mem_append_left _ ht)
    · obtain rfl := Option.some.inj ht
      exact .inl (by simp)
    · rw [namedTokens, if_pos hopen, namedTokens_inside hinner, namedTokens,
        if_neg (by simp [not_isOpener hclose]), if_pos hclose] at ht
      exact .inr (List.mem_cons_of_mem last (namedTokens_subset 0 back ht))
  have hapart := hts.ordered
  rw [show front ++ first :: (before ++ (used ++ after) ++ last :: back) =
    front ++ [first] ++ before ++ (used ++ (after ++ last :: back)) by simp] at hapart
  obtain ⟨-, hinside, houtside⟩ := List.pairwise_append.mp hapart
  rw [Span.covers, hstart, hstop, Bool.and_eq_false_iff, decide_eq_false_iff_not,
    decide_eq_false_iff_not, not_le, not_le]
  rcases hwhere with ht | ht
  · have hle := houtside t (List.mem_append_left before ht) u (List.mem_append_left _ hu)
    exact .inl (hfilled.trans_le hle)
  · have hle := (List.pairwise_append.mp hinside).2.2 v hv t (List.mem_append_right after ht)
    exact .inr (hle.trans_lt hfilled)

/-- The tokens of a member: their brackets match, the name of a function stands behind the word
`function`, and the functions of an object stand inside brackets. -/
structure Occupies (m : Member) (ts : Phrase) : Prop where
  matched : Matched ts
  covers : Covers m.span ts
  named : ∀ name ∈ m.functionName?, ∃ front word t back, ts = front ++ word :: t :: back ∧
    Matched front ∧ word.is "function" ∧ t.text = name
  enclosed : ∀ f ∈ m.methods, Enclosed f.span ts

/-- The scan names the function of a member. -/
lemma Occupies.sublist {m : Member} {ts : Phrase} (h : Occupies m ts) :
    m.functionName?.toList.Sublist ((namedTokens 0 ts).map (·.text)) := by
  cases hname : m.functionName? with
  | none => exact List.nil_sublist _
  | some name =>
    obtain ⟨front, word, t, back, rfl, hfront, hword, rfl⟩ := h.named name hname
    have htext : word.text = "function" := by
      simp only [Token.is, Bool.and_eq_true, beq_iff_eq] at hword
      exact hword.2
    have hword' : namedTokens 0 (word :: t :: back) = t :: namedTokens 0 (t :: back) := by
      rw [namedTokens]
      simp [Token.isOpener, Token.isCloser, htext, hword]
    have hsub := (List.sublist_append_right _ _).trans
      (namedTokens_sublist hfront (word :: t :: back))
    rw [hword'] at hsub
    exact ((List.singleton_sublist.mpr (List.mem_cons_self)).trans hsub).map (·.text)

end Document

namespace Parser

open Document

/-! ### Members -/

lemma name_of_functionName {words : List String} {ts rest : Phrase} {name : FunctionName}
    (h : functionName words ts = .ok (name, rest)) :
    ∃ t more, ts = t :: more ∧ ∀ given ∈ name.name?, t.text = given := by
  obtain ⟨⟨t, after⟩, ht, hread⟩ := bind_eq_ok_iff.mp h
  obtain ⟨rfl, -⟩ := identifier_eq_ok_iff.mp ht
  refine ⟨t, after, rfl, fun given hgiven => ?_⟩
  dsimp only at hread
  split_ifs at hread
  · obtain ⟨⟨path, left⟩, -, hdone⟩ := bind_eq_ok_iff.mp hread
    obtain ⟨rfl, rfl⟩ := hdone
    simp [FunctionName.name?] at hgiven
  · obtain ⟨rfl, rfl⟩ := hread
    exact Option.some.inj hgiven
  · obtain ⟨rfl, rfl⟩ := hread
    exact Option.some.inj hgiven

/-- The name of a function is the first token behind the word `function`. -/
lemma name_of_functionDefinition {start : Token} {words : List String} {ts rest : Phrase}
    {f : FunctionDefinition} (h : functionDefinition start words ts = .ok (f, rest)) :
    ∃ t more, ts = t :: (more ++ rest) ∧ ∀ given ∈ f.name.name?, t.text = given := by
  obtain ⟨used, rfl, hne, -⟩ := lays_of_functionDefinition h
  obtain ⟨name, after, list, after', type, behind, body, hname, -, -, -, -, rfl⟩ :=
    functionDefinition_eq_ok_iff.mp h
  obtain ⟨t, more, hts, hgiven⟩ := name_of_functionName hname
  obtain ⟨u, used, rfl⟩ := List.exists_cons_of_ne_nil hne
  obtain ⟨rfl, -⟩ := List.cons.inj hts
  exact ⟨u, used, rfl, hgiven⟩

/-- The functions of an object stand between its braces. -/
lemma enclosed_of_objectBody {ts rest : Phrase} {body : ObjectBody}
    (h : objectBody ts = .ok (body, rest)) :
    ∃ used, ts = used ++ rest ∧
      (Sourced used → ∀ f ∈ body.functions, Enclosed f.span used) := by
  obtain ⟨brace, after, rfl, hbrace, hread⟩ := objectBody_spec h
  obtain ⟨inner, rfl, hinner⟩ := hread.crosses
  obtain ⟨inner', ps, hinner', ⟨hperm, -⟩, hspread⟩ := hread.spread
  obtain rfl := List.append_cancel_right hinner'
  refine ⟨brace :: (inner ++ [body.close]), by simp, fun hsource f hf => ?_⟩
  have hmem : TreeNode.ofFunction f ∈ ps :=
    hperm.mem_iff.mpr (List.mem_append_right _ (List.mem_map_of_mem hf))
  obtain ⟨before, used, after, rfl, hcovers, -⟩ := hspread.mem hmem
  exact ⟨[], brace, before, used, after, body.close, [], rfl, .nil,
    hsource.opens (by simp) hbrace (by decide),
    (hinner hsource.tail.left).matched,
    hsource.closes (by simp) hread.close_is (by decide), hcovers⟩

lemma enclosed_of_serviceDefinition {start : Token} {ts rest : Phrase} {s : ServiceDefinition}
    (h : serviceDefinition start ts = .ok (s, rest)) :
    ∃ used, ts = used ++ rest ∧ (Sourced used → ∀ f ∈ s.functions, Enclosed f.span used) := by
  obtain ⟨path, on, after, listener, after', body, left, last, hpath, hlistener, hbody, hlast,
    rfl⟩ := serviceDefinition_spec h
  obtain ⟨rfl, hpathFree, hon⟩ := through_eq_ok_iff.mp hpath
  obtain ⟨rfl, hlistenerFree, -⟩ := upTo_eq_ok_iff.mp hlistener
  obtain ⟨used, rfl, hused⟩ := enclosed_of_objectBody hbody
  have hfront : Matched (path ++ on :: listener) :=
    hpathFree.matched.append ((matched_mark hon (by decide)).append hlistenerFree.matched)
  have hall (back : Phrase) : Sourced (path ++ on :: listener ++ (used ++ back)) →
      ∀ f ∈ body.functions, Enclosed f.span (path ++ on :: listener ++ (used ++ back)) :=
    fun hsource f hf => (hused hsource.right.left f hf).surround hfront back
  rcases hlast with ⟨-, rfl⟩ | ⟨rfl, -⟩
  · exact ⟨_, by simp, hall []⟩
  · exact ⟨_, by simp, hall [last]⟩

lemma enclosed_of_classDefinition {start : Token} {words : List String} {ts rest : Phrase}
    {c : ClassDefinition} (h : classDefinition start words ts = .ok (c, rest)) :
    ∃ used, ts = used ++ rest ∧ (Sourced used → ∀ f ∈ c.functions, Enclosed f.span used) := by
  obtain ⟨name, after, body, rfl, hidentifier, hbody, rfl⟩ := classDefinition_spec h
  obtain ⟨used, rfl, hused⟩ := enclosed_of_objectBody hbody
  refine ⟨name :: used, rfl, fun hsource f hf => ?_⟩
  have hall := (hused hsource.tail f hf).surround (matched_identifier hidentifier) []
  rwa [List.append_nil] at hall

/-- The name of a function and the functions of an object behind annotations and qualifiers. -/
lemma owned_of_memberAfter {start : Token} {names words : List String} {ts rest : Phrase}
    {m : Member} (h : memberAfter start names words ts = .ok (m, rest)) :
    ∃ used, ts = used ++ rest ∧ (Sourced used →
      (∀ name ∈ m.functionName?, ∃ word t back, used = word :: t :: back ∧ word.is "function" ∧
        t.text = name) ∧ ∀ f ∈ m.methods, Enclosed f.span used) := by
  obtain ⟨all, hall, -⟩ := lays_of_memberAfter h
  cases readsMember_of_memberAfter h with
  | @function word ts rest f hfunction hf =>
    obtain ⟨t, more, rfl, hgiven⟩ := name_of_functionDefinition hf
    refine ⟨word :: t :: more, rfl, fun hsource => ⟨fun name hname => ?_, fun g hg => ?_⟩⟩
    · have hword : word.is "function" := by
        obtain ⟨here, cs, rest', hscanned⟩ := hsource
        obtain ⟨left', hstart⟩ := hscanned.mem (List.mem_cons_self (a := word))
        rw [hfunction] at hstart
        simp [Token.is, hfunction, hstart.isIdentifier (c := 'f') (by decide)]
      exact ⟨word, t, more, rfl, hword, hgiven name hname⟩
    · simp [Member.methods] at hg
  | @service word ts rest s hservice hs =>
    obtain ⟨used, rfl, hused⟩ := enclosed_of_serviceDefinition hs
    refine ⟨word :: used, rfl, fun hsource => ⟨fun name hname => ?_, fun f hf => ?_⟩⟩
    · simp [Member.functionName?] at hname
    · have hinside := (hused hsource.tail f hf).surround (matched_of_text hservice (by decide)) []
      rwa [List.append_nil] at hinside
  | @classDefinition word ts rest c hclass hc =>
    obtain ⟨used, rfl, hused⟩ := enclosed_of_classDefinition hc
    refine ⟨word :: used, rfl, fun hsource => ⟨fun name hname => ?_, fun f hf => ?_⟩⟩
    · simp [Member.functionName?] at hname
    · have hinside := (hused hsource.tail f hf).surround (matched_of_text hclass (by decide)) []
      rwa [List.append_nil] at hinside
  | _ =>
    exact ⟨all, hall, fun _ => ⟨fun name hname => by simp [Member.functionName?] at hname,
      fun f hf => by simp [Member.methods] at hf⟩⟩

/-- A member that is read from tokens of a source occupies the tokens that were taken. -/
lemma occupies_of_member {start : Token} {ts rest : Phrase} {m : Member}
    (hsource : Sourced (start :: ts)) (h : member start ts = .ok (m, rest)) :
    ∃ used, start :: ts = used ++ rest ∧ Occupies m used := by
  obtain ⟨used, hused, hbears⟩ := crosses_of_member h
  obtain ⟨used', hused', hcovers, -⟩ := laid_of_member h
  obtain rfl := List.append_cancel_right (hused.symm.trans hused')
  have hspan : Covers m.span used := by cases m <;> exact hcovers
  obtain ⟨names, words, after, hannotated, hread⟩ := member_spec h
  obtain ⟨front, hfront, hbefore⟩ := crosses_of_front hannotated
  obtain ⟨behind, hbehind, howned⟩ := owned_of_memberAfter hread
  rw [hbehind, ← List.append_assoc] at hfront
  obtain rfl := List.append_cancel_right (hused.symm.trans hfront)
  rw [hused] at hsource
  obtain ⟨hnamed, henclosed⟩ := howned hsource.left.right
  have hmatched := (hbefore hsource.left.left).matched
  refine ⟨front ++ behind, hused, (hbears hsource.left).matched, hspan, fun name hname => ?_,
    fun f hf => ?_⟩
  · obtain ⟨word, t, back, rfl, hword, htext⟩ := hnamed name hname
    exact ⟨front, word, t, back, rfl, hmatched, hword, htext⟩
  · have hinside := (henclosed f hf).surround hmatched []
    rwa [List.append_nil] at hinside

/-! ### Modules -/

/-- The members of a module stand one behind the other, each of them outside brackets. -/
lemma SpellsParts.occupied {imports : List Import} {members : List Member} {ts rest : Phrase}
    (h : SpellsParts imports members ts rest) (hsource : Sourced (ts ++ rest)) :
    (members.filterMap Member.functionName?).Sublist ((namedTokens 0 ts).map (·.text)) ∧
      ∀ m ∈ members, ∃ front used back, ts = front ++ (used ++ back) ∧ Matched front ∧
        Occupies m used := by
  -- what stands in front of the other parts
  have hstep {before ts : Phrase} {members : List Member} (hbefore : Matched before)
      (h : ∀ m ∈ members, ∃ front used back, ts = front ++ (used ++ back) ∧ Matched front ∧
        Occupies m used) (m : Member) (hm : m ∈ members) :
      ∃ front used back, before ++ ts = front ++ (used ++ back) ∧ Matched front ∧
        Occupies m used := by
    obtain ⟨front, used, back, rfl, hfront, hoccupies⟩ := h m hm
    exact ⟨before ++ front, used, back, by simp, hbefore.append hfront, hoccupies⟩
  have hnames {before ts : Phrase} (hbefore : Matched before) :
      ((namedTokens 0 ts).map (·.text)).Sublist ((namedTokens 0 (before ++ ts)).map (·.text)) :=
    ((List.sublist_append_right _ _).trans (namedTokens_sublist hbefore ts)).map (·.text)
  induction h with
  | nil => exact ⟨List.nil_sublist _, by simp⟩
  | @importing word i imports members used ts rest hword hi _ ih =>
    have hrest : Sourced (word :: used ++ (ts ++ rest)) := by simpa using hsource
    obtain ⟨hsub, hall⟩ := ih hrest.right
    obtain ⟨used', hused, hbears⟩ := crosses_of_importDeclaration hi
    obtain rfl := List.append_cancel_right hused
    have himport := (matched_mark hword (by decide)).append
      (hbears hsource.left.left.tail).matched
    exact ⟨hsub.trans (hnames himport), hstep himport hall⟩
  | @stray semicolon imports members ts rest hsemicolon _ ih =>
    obtain ⟨hsub, hall⟩ := ih hsource.tail
    have hstray := matched_mark hsemicolon (by decide)
    exact ⟨hsub.trans (hnames hstray), hstep hstray hall⟩
  | @member start m imports members used ts rest _ _ hm _ ih =>
    have hsource' : Sourced (start :: used ++ (ts ++ rest)) := by simpa using hsource
    obtain ⟨hsub, hall⟩ := ih hsource'.right
    obtain ⟨used', hused, hoccupies⟩ := occupies_of_member hsource' hm
    have hused' : start :: used ++ (ts ++ rest) = used' ++ (ts ++ rest) := hused
    obtain rfl := List.append_cancel_right hused'
    refine ⟨?_, fun m' hm' => ?_⟩
    · have hcons : (m :: members).filterMap Member.functionName? =
          m.functionName?.toList ++ members.filterMap Member.functionName? := by
        cases hname : m.functionName? <;> simp [hname]
      have hboth := (namedTokens_sublist hoccupies.matched ts).map (·.text)
      rw [List.map_append] at hboth
      rw [hcons]
      exact (hoccupies.sublist.append hsub).trans hboth
    · rcases List.mem_cons.mp hm' with rfl | hm'
      · exact ⟨[], start :: used, ts, rfl, .nil, hoccupies⟩
      · exact hstep hoccupies.matched hall m' hm'

/-- The scan of a text names every function of its module, and nothing inside a service or a
class. Each member stands outside brackets, on tokens whose brackets match. -/
theorem parse_functionNames {source : String} {m : SourceModule} (h : parse source = .ok m) :
    ∃ ts, tokenize source = .ok ts ∧ functionNames source = (namedTokens 0 ts).map (·.text) ∧
      (m.members.filterMap Member.functionName?).Sublist (functionNames source) ∧
      (∀ f ∈ m.members.flatMap Member.methods, ∀ t ∈ namedTokens 0 ts,
        f.span.covers t.span.start.byte t.span.stop.byte = false) ∧
      ∀ member ∈ m.members, ∃ front used back, ts = front ++ (used ++ back) ∧
        Covers member.span used ∧ Matched front ∧ Matched used := by
  obtain ⟨ts, hts, hparts, -⟩ := parse_eq_ok_iff.mp h
  obtain ⟨cs, last, -, hscanned, -⟩ := scanned_of_tokenize hts
  have hlossless := lossless_of_tokenize hts
  have hincreasing : Increasing ts := ⟨hlossless.filled, hlossless.ordered⟩
  have hnames : functionNames source = (namedTokens 0 ts).map (·.text) := by
    rw [functionNames, hts]
    exact functionNamesFrom_eq 0 ts
  have hsource : Sourced (ts ++ []) := by
    rw [List.append_nil]
    exact ⟨_, _, _, hscanned⟩
  obtain ⟨hsub, hall⟩ := hparts.occupied hsource
  refine ⟨ts, hts, hnames, hnames ▸ hsub, fun f hf t ht => ?_, fun member hmember => ?_⟩
  · obtain ⟨member, hmember, hf⟩ := List.mem_flatMap.mp hf
    obtain ⟨front, used, back, rfl, hfront, hoccupies⟩ := hall member hmember
    have hinside := (hoccupies.enclosed f hf).surround hfront back
    exact hinside.covers_eq_false hincreasing ht
  · obtain ⟨front, used, back, hts', hfront, hoccupies⟩ := hall member hmember
    exact ⟨front, used, back, hts', hoccupies.covers, hfront, hoccupies.matched⟩

/-- A service with a function behind a function of the module. -/
theorem parse_functionNames_service :
    ∃ m ts, parse "function a() \x7b\x7d service on l \x7bfunction b() \x7b\x7d\x7d" = .ok m ∧
      tokenize "function a() \x7b\x7d service on l \x7bfunction b() \x7b\x7d\x7d" = .ok ts ∧
      m.members.filterMap Member.functionName? = ["a"] ∧
      (m.members.flatMap Member.methods).map (·.name) = [.plain "b"] ∧
      List.Sublist ["a"]
        (functionNames "function a() \x7b\x7d service on l \x7bfunction b() \x7b\x7d\x7d") ∧
      ∀ f ∈ m.members.flatMap Member.methods, ∀ t ∈ namedTokens 0 ts,
        f.span.covers t.span.start.byte t.span.stop.byte = false := by
  have hread : (parse
      "function a() \x7b\x7d service on l \x7bfunction b() \x7b\x7d\x7d").toOption.any fun m =>
        m.members.filterMap Member.functionName? = ["a"] ∧
          (m.members.flatMap Member.methods).map (·.name) = [.plain "b"] := by
    decide +kernel
  obtain ⟨m, hm, htest⟩ := exists_ok_of_any hread
  simp only [Bool.decide_and, Bool.and_eq_true, decide_eq_true_eq] at htest
  obtain ⟨ts, hts, -, hsub, hcovers, -⟩ := parse_functionNames hm
  rw [htest.1] at hsub
  exact ⟨m, ts, hm, hts, htest.1, htest.2, hsub, hcovers⟩

end Parser

end FlowCanvas
