import FlowCanvas.Proofs.IndexedMembers

/-!
# Reading never faults

The tokens of a text are sound input for the readers by index: they lie in order between characters,
and nothing else is spelled like a mark. So a text is read by index as `tokenize` and `parse` read
it, and no access goes wrong, whatever the text is.
-/

namespace FlowCanvas.Indexed

/-! ### The tokens of a text -/

/-- Two places between characters, in order, bound a slice. -/
lemma exists_slice {text front mid rest front' mid' rest' : List Char}
    (h : text = front ++ (mid ++ rest)) (h' : text = front' ++ (mid' ++ rest'))
    (hle : byteLength front ≤ byteLength (front' ++ mid')) :
    ∃ cs, slice text (byteLength front) (byteLength (front' ++ mid')) = .ok cs := by
  have heq : front ++ (mid ++ rest) = (front' ++ mid') ++ rest' := by
    rw [← h, h', List.append_assoc]
  rcases List.append_eq_append_iff.mp heq with ⟨cs, hcs, -⟩ | ⟨cs, hcs, -⟩
  · refine ⟨cs, ?_⟩
    rw [h', ← List.append_assoc, hcs, List.append_assoc]
    exact slice_append front cs rest' (byteLength_append front cs)
  · obtain rfl : cs = [] := by
      by_contra hne
      have hpos := Lexer.byteLength_pos hne
      rw [hcs, byteLength_append] at hle
      omega
    rw [List.append_nil] at hcs
    exact ⟨[], by rw [h, hcs]; exact slice_append _ [] _ rfl⟩

/-- Tokens come in order, each in front of the next. -/
lemma start_le_stop {text : List Char} {ts : Phrase} (h : Lexer.Lossless text ts) {i j : Nat}
    {a b : Token} (hle : i ≤ j) (ha : ts[i]? = some a) (hb : ts[j]? = some b) :
    a.span.start.byte ≤ b.span.stop.byte := by
  have hfilled := h.filled a (List.mem_of_getElem? ha)
  have hfilled' := h.filled b (List.mem_of_getElem? hb)
  rcases Nat.eq_or_lt_of_le hle with rfl | hlt
  · obtain rfl := Option.some.inj (ha.symm.trans hb)
    exact hfilled.le
  · obtain ⟨hi, rfl⟩ := List.getElem?_eq_some_iff.mp ha
    obtain ⟨hj, rfl⟩ := List.getElem?_eq_some_iff.mp hb
    have hordered := List.pairwise_iff_getElem.mp h.ordered i j hi hj hlt
    omega

/-- Only a mark is spelled like one. -/
lemma kind_of_mark {kind : TokenKind} {m rest : List Char} (h : Lexer.TokenAt kind m rest)
    (hm : String.ofList m ∈ Lexer.marks) : kind = .punctuation := by
  obtain ⟨c, hc, -, hquote, hquote', hdigit, hword⟩ := Lexer.marks_heads _ hm
  rw [String.toList_ofList] at hc
  cases h with
  | string hopen _ =>
    obtain rfl := Option.some.inj hc
    exact absurd hopen (by simp [hquote, hquote'])
  | number hfirst _ =>
    obtain rfl := Option.some.inj hc
    rw [hdigit] at hfirst
    cases hfirst
  | identifier hfirst _ _ =>
    obtain rfl := Option.some.inj hc
    rw [hword] at hfirst
    cases hfirst
  | mark _ => rfl

/-- The tokens of a text are sound input. -/
lemma sound_of_tokenize {source : String} {ts : List Token} (h : Lexer.tokenize source = .ok ts) :
    Input.Sound ⟨source.toList, ts⟩ := by
  have hlossless := Lexer.lossless_of_tokenize h
  refine ⟨fun hle ha hb => ?_, fun t ht m hm hmark => ?_, fun t ht hkind => ?_⟩
  · obtain ⟨_, ⟨front, htext, hstart, -⟩, -⟩ := hlossless.tokens _ (List.mem_of_getElem? ha)
    obtain ⟨_, ⟨front', htext', -, hstop⟩, -⟩ := hlossless.tokens _ (List.mem_of_getElem? hb)
    have horder := start_le_stop hlossless hle ha hb
    rw [hstart, hstop] at horder ⊢
    exact exists_slice htext htext' horder
  · obtain ⟨_, -, htoken, -⟩ := hlossless.tokens t ht
    simp only [Token.is, Bool.and_eq_true, beq_iff_eq] at hmark
    exact kind_of_mark htoken (by rw [String.ofList_toList, hmark.2]; exact hm)
  · obtain ⟨_, -, htoken, -⟩ := hlossless.tokens t ht
    rw [hkind] at htoken
    generalize htext : t.text.toList = cs at htoken
    cases htoken with
    | string hquote _ => exact ⟨_, _, rfl, hquote⟩

/-! ### Whole texts -/

/-- Reads a source text. -/
def parse (source : String) : Checked SourceModule := do
  let tokens ← tokenize source
  let (imports, members) ← moduleParts ⟨source.toList, tokens⟩ (tokens.length + 1) 0
  let stop := (bytes source.toList).length
  let first ← position source.toList 0
  let last ← position source.toList stop
  return ⟨imports, members, ⟨⟨first, 0⟩, ⟨last, stop⟩⟩⟩

lemma span_of_source (text : List Char) :
    position text 0 = .ok Place.origin.position ∧
      position text (Place.origin.advance text).byte = .ok (Place.origin.advance text).position ∧
      (bytes text).length = (Place.origin.advance text).byte := by
  refine ⟨position_eq [] text, ?_, ?_⟩
  · have hlast := position_eq text []
    rwa [List.append_nil, ← Place.byte_origin_advance] at hlast
  · rw [length_bytes, Place.byte_origin_advance]

lemma parse_eq_lift (source : String) : parse source = lift (Parser.parse source) := by
  rw [parse, tokenize_eq_lift, Parser.parse]
  cases htokens : Lexer.tokenize source with
  | error e => rfl
  | ok ts =>
    obtain ⟨hfirst, hlast, hstop⟩ := span_of_source source.toList
    have hparts := moduleParts_eq (sound_of_tokenize htokens) (ts.length + 1) ts.length 0
      (Nat.lt_succ_self _) le_rfl
    simp only [bind, Except.bind, lift, hparts, List.drop_zero]
    cases Parser.moduleParts ts.length ts with
    | error e => rfl
    | ok parts =>
      simp only [hfirst, hlast, hstop]
      rfl

lemma lift_ne_fault {α : Type} (r : Except SyntaxError α) (fault : Fault) :
    lift r ≠ .error (.fault fault) := by
  cases r with
  | error e => simp [lift]
  | ok x => simp [lift]

/-- A read that starts at a token goes on behind it. -/
lemma Follows.advances {α : Type} {s : Input} {pos : Nat} {m : Checked (α × Nat)}
    {r : Except SyntaxError (α × Phrase)} (h : Follows s (Past (pos + 1)) m r) {x : α}
    {next : Nat} (hm : m = .ok (x, next)) : pos < next ∧ next ≤ s.tokens.length := by
  rcases h.outcomes with ⟨e, hread, -⟩ | ⟨y, pos', hread, -, hpos', hpast⟩
  · rw [hm] at hread
    cases hread
  · rw [hm] at hread
    obtain ⟨-, rfl⟩ := Prod.mk.inj (Except.ok.inj hread)
    exact ⟨hpast, hpos'⟩

/-- What a loop reads at a token ends behind it and in the text. -/
structure Advances (s : Input) : Prop where
  imports : ∀ {pos next : Nat} {t : Token} {x : Import}, s.tokens[pos]? = some t → t.is "import" →
    importDeclaration s pos = .ok (x, next) → pos < next ∧ next ≤ s.tokens.length
  members : ∀ {pos next : Nat} {t : Token} {x : Member}, s.tokens[pos]? = some t →
    member s pos = .ok (x, next) → pos < next ∧ next ≤ s.tokens.length
  statements : ∀ {pos next : Nat} {t : Token} {x : Statement}, s.tokens[pos]? = some t →
    statement s (block s) pos = .ok (x, next) → pos < next ∧ next ≤ s.tokens.length

lemma advances_of_sound {s : Input} (hs : s.Sound) : Advances s := by
  have hblocks (low : Nat) : BlocksFrom s low (block s) Parser.block :=
    ⟨fun pos _ _ => follows_block hs pos, rfl⟩
  exact ⟨fun ht hword => (follows_importDeclaration ht hword).advances,
    fun ht => (follows_member hs ht).advances,
    fun ht => (follows_statement hs ht (hblocks _)).advances⟩

/-- Every text is read to a result or an error. Reading it byte by byte and token by token gives
what `tokenize` and `parse` give, no index leaves its range, no number falls below zero, no slice
cuts through a character, and no loop outlasts the tokens, since each read takes one. -/
theorem parse_never_faults (source : String) :
    tokenize source = lift (Lexer.tokenize source) ∧
      parse source = lift (Parser.parse source) ∧
      (∀ fault, tokenize source ≠ .error (.fault fault) ∧ parse source ≠ .error (.fault fault)) ∧
      ∀ ts, tokenize source = .ok ts → Advances ⟨source.toList, ts⟩ := by
  refine ⟨tokenize_eq_lift source, parse_eq_lift source, fun fault => ⟨?_, ?_⟩, fun ts hts => ?_⟩
  · rw [tokenize_eq_lift]
    exact lift_ne_fault _ fault
  · rw [parse_eq_lift]
    exact lift_ne_fault _ fault
  · rw [tokenize_eq_lift] at hts
    cases htokens : Lexer.tokenize source with
    | error e =>
      rw [htokens] at hts
      cases hts
    | ok us =>
      rw [htokens] at hts
      obtain rfl := Except.ok.inj hts
      exact advances_of_sound (sound_of_tokenize htokens)

end FlowCanvas.Indexed
