import FlowCanvas.Proofs.CallRoundTrip
import FlowCanvas.Proofs.Lossless

/-!
# The parts of a call

The parenthesis that a backward scan finds for the last token of a call is the one from which a
forward scan ends there, although neither tells the kinds of brackets apart. Between the two stand
the arguments with commas between them. A callee and arguments that are put together again are the
tokens of the call; only commas of empty segments are missing.
-/

namespace FlowCanvas

namespace Token

lemma Lexed.isCloser {t : Token} (h : t.Lexed) (his : t.is ")") : t.isCloser := by
  obtain ⟨hkind, htext⟩ := Prod.mk.inj (h.mark his (by decide))
  simp [Token.isCloser, hkind, htext]

end Token

namespace Brackets

/-! ### The forward scan -/

/-- The forward scan ends behind the first bracket that closes one more than was opened. -/
lemma dropGroupFrom_eq_some_iff {depth : ℕ} {ts rest : Phrase} :
    dropGroupFrom (depth + 1) ts = some rest ↔
      ∃ inner closing, ts = inner ++ closing :: rest ∧ closing.isCloser ∧
        levelAfter? depth inner = some 0 := by
  constructor
  · intro h
    induction ts generalizing depth with
    | nil => simp [dropGroupFrom] at h
    | cons t ts ih =>
      rw [dropGroupFrom] at h
      split_ifs at h with hopen hclose hdepth
      · obtain ⟨inner, closing, rfl, hclosing, hlevel⟩ := ih h
        exact ⟨t :: inner, closing, rfl, hclosing, by simpa [levelAfter?, hopen] using hlevel⟩
      · obtain rfl := Option.some.inj h
        obtain rfl : depth = 0 := by omega
        exact ⟨[], t, rfl, hclose, rfl⟩
      · obtain ⟨depth, rfl⟩ := Nat.exists_eq_succ_of_ne_zero (show depth ≠ 0 by omega)
        obtain ⟨inner, closing, rfl, hclosing, hlevel⟩ := ih h
        exact ⟨t :: inner, closing, rfl, hclosing,
          by simpa [levelAfter?, hopen, hclose] using hlevel⟩
      · obtain ⟨inner, closing, rfl, hclosing, hlevel⟩ := ih h
        exact ⟨t :: inner, closing, rfl, hclosing,
          by simpa [levelAfter?, hopen, hclose] using hlevel⟩
  · rintro ⟨inner, closing, rfl, hclosing, hlevel⟩
    induction inner generalizing depth with
    | nil =>
      obtain rfl := Option.some.inj hlevel
      simp [dropGroupFrom, not_isOpener hclosing, hclosing]
    | cons t inner ih =>
      rw [List.cons_append, dropGroupFrom]
      rw [levelAfter?.eq_def] at hlevel
      split_ifs with hopen hclose hdepth
      · exact ih (by simpa [hopen] using hlevel)
      · obtain rfl : depth = 0 := by omega
        simp [hopen, hclose] at hlevel
      · obtain ⟨depth, rfl⟩ := Nat.exists_eq_succ_of_ne_zero (show depth ≠ 0 by omega)
        exact ih (by simpa [hopen, hclose] using hlevel)
      · exact ih (by simpa [hopen, hclose] using hlevel)

lemma dropGroup_eq_some_iff {opening : Token} (hopen : opening.isOpener) {ts rest : Phrase} :
    dropGroup (opening :: ts) = some rest ↔
      ∃ inner closing, ts = inner ++ closing :: rest ∧ closing.isCloser ∧ Matched inner := by
  rw [dropGroup, if_pos hopen]
  exact dropGroupFrom_eq_some_iff

lemma not_matched_append {front inner : Phrase} {opening : Token} (hopen : opening.isOpener)
    (hinner : Matched inner) : ¬Matched (front ++ opening :: inner) := by
  intro h
  rw [Matched, levelAfter?_append] at h
  obtain ⟨depth, -, hdepth⟩ := Option.bind_eq_some_iff.mp h
  rw [levelAfter?.eq_def] at hdepth
  simp only [hopen, if_true, hinner.level] at hdepth
  simp at hdepth

/-- Two groups that end together start together. -/
lemma group_unique {before before' mid mid' : Phrase} {opening opening' : Token}
    (h : before ++ opening :: mid = before' ++ opening' :: mid') (hopen : opening.isOpener)
    (hopen' : opening'.isOpener) (hmid : Matched mid) (hmid' : Matched mid') :
    before = before' := by
  rcases List.append_eq_append_iff.mp h with ⟨between, hbefore, hmids⟩ | ⟨between, hbefore, hmids⟩
  · cases between with
    | nil => simpa using hbefore.symm
    | cons t between =>
      rw [List.cons_append] at hmids
      rw [(List.cons.inj hmids).2] at hmid
      exact absurd hmid (not_matched_append hopen' hmid')
  · cases between with
    | nil => simpa using hbefore
    | cons t between =>
      rw [List.cons_append] at hmids
      rw [(List.cons.inj hmids).2] at hmid'
      exact absurd hmid' (not_matched_append hopen hmid)

/-! ### Segments -/

/-- The segments of a list join to it, up to an empty one behind its last comma. -/
lemma exists_joined_segmentsFrom {depth : ℕ} {ts : Phrase} (h : levelAfter? depth ts = some 0) :
    ∃ list, Joined list ts ∧
      (list = segmentsFrom depth ts ∨ list = segmentsFrom depth ts ++ [[]]) := by
  have hcons {t : Token} {ts : Phrase} {found : List Phrase}
      (h : ∃ list, Joined list ts ∧ (list = found ∨ list = found ++ [[]])) (hne : found ≠ []) :
      ∃ list, Joined list (t :: ts) ∧
        (list = consFirst t found ∨ list = consFirst t found ++ [[]]) := by
    obtain ⟨list, hlist, hfound⟩ := h
    obtain ⟨seg, segs, rfl⟩ := List.exists_cons_of_ne_nil hne
    refine ⟨consFirst t list, Argument.joined_consFirst hlist, ?_⟩
    rcases hfound with rfl | rfl
    · exact .inl rfl
    · exact .inr rfl
  have hne (depth : ℕ) (ts : Phrase) (h : levelAfter? depth ts = some 0) :
      segmentsFrom depth ts ≠ [] := by
    obtain ⟨seg, list, heq, -⟩ := segmentsFrom_spec h
    rw [heq]
    exact List.cons_ne_nil seg list
  fun_induction segmentsFrom depth ts with
  | case1 depth => exact ⟨[[]], .single, .inl rfl⟩
  | case2 depth t ts hcomma ih =>
    simp only [Bool.and_eq_true, beq_iff_eq] at hcomma
    obtain ⟨rfl, hcomma⟩ := hcomma
    cases ts with
    | nil => exact ⟨[[], []], @Joined.cons [] _ _ _ hcomma .single, .inr rfl⟩
    | cons u us =>
      have htext : t.text = "," := by
        simp only [Token.is, Bool.and_eq_true, beq_iff_eq] at hcomma
        exact hcomma.2
      have hrest : levelAfter? 0 (u :: us) = some 0 := by
        rw [levelAfter?] at h
        simpa [Token.isOpener, Token.isCloser, htext] using h
      obtain ⟨list, hlist, hfound⟩ := ih hrest
      refine ⟨[] :: list, @Joined.cons [] _ _ _ hcomma hlist, ?_⟩
      rcases hfound with rfl | rfl
      · exact .inl rfl
      · exact .inr rfl
  | case3 depth t ts hcomma hopen ih =>
    have hrest : levelAfter? (depth + 1) ts = some 0 := by simpa [levelAfter?, hopen] using h
    exact hcons (ih hrest) (hne _ _ hrest)
  | case4 t ts hopen hclose hcomma => simp [levelAfter?, hopen, hclose] at h
  | case5 t ts hopen hclose depth hcomma ih =>
    have hrest : levelAfter? depth ts = some 0 := by simpa [levelAfter?, hopen, hclose] using h
    exact hcons (ih hrest) (hne _ _ hrest)
  | case6 depth t ts hcomma hopen hclose ih =>
    have hrest : levelAfter? depth ts = some 0 := by simpa [levelAfter?, hopen, hclose] using h
    exact hcons (ih hrest) (hne _ _ hrest)

/-- A list is its segments with commas between them, and its arguments are read from them. -/
lemma exists_joined {inner : Phrase} (h : Matched inner) :
    ∃ segs, Joined segs inner ∧ (∀ seg ∈ segs, Free "," seg) ∧
      Argument.listOf inner = segs.filterMap Argument.ofPhrase? := by
  have hnil : Free "," [] := rfl
  cases inner with
  | nil => exact ⟨[[]], .single, by simpa using hnil, rfl⟩
  | cons t ts =>
    obtain ⟨segs, hjoined, hsegs⟩ := exists_joined_segmentsFrom h
    have hfree : ∀ seg ∈ segmentsFrom 0 (t :: ts), Free "," seg := fun seg hseg =>
      (segments_spec h seg hseg).1
    refine ⟨segs, hjoined, ?_, ?_⟩
    · rcases hsegs with rfl | rfl
      · exact hfree
      · intro seg hseg
        rcases List.mem_append.mp hseg with hseg | hseg
        · exact hfree seg hseg
        · rw [List.mem_singleton.mp hseg]
          exact hnil
    · rcases hsegs with rfl | rfl
      · rfl
      · rw [List.filterMap_append]
        exact (List.append_nil _).symm

/-! ### Commas of empty segments -/

/-- A comma directly inside of parentheses is left out. In front of it or behind it stands an empty
segment, that is, another comma or the parenthesis. -/
inductive DropsComma : Phrase → Phrase → Prop
  | mk {front mid back : Phrase} {opening comma : Token} (hopen : opening.is "(")
    (hmid : Matched mid) (hcomma : comma.is ",")
    (hempty : mid = [] ∨ mid.getLast?.any (·.is ",") ∨
      back.head?.any fun t => t.is "," || t.is ")") :
    DropsComma (front ++ opening :: (mid ++ comma :: back)) (front ++ opening :: (mid ++ back))

/-- Some commas of empty segments are left out. -/
def Sheds : Phrase → Phrase → Prop := Relation.ReflTransGen DropsComma

lemma DropsComma.append {ts us : Phrase} (h : DropsComma ts us) (xs ys : Phrase) :
    DropsComma (xs ++ (ts ++ ys)) (xs ++ (us ++ ys)) := by
  cases h with
  | @mk front mid back opening comma hopen hmid hcomma hempty =>
    have hempty' : mid = [] ∨ mid.getLast?.any (·.is ",") ∨
        (back ++ ys).head?.any fun t => t.is "," || t.is ")" := by
      refine hempty.imp_right (Or.imp_right fun hback => ?_)
      cases back with
      | nil => simp at hback
      | cons t back => exact hback
    have hdrop :=
      @DropsComma.mk (xs ++ front) mid (back ++ ys) opening comma hopen hmid hcomma hempty'
    simpa using hdrop

lemma Sheds.refl (ts : Phrase) : Sheds ts ts := Relation.ReflTransGen.refl

lemma Sheds.around {ts us : Phrase} (h : Sheds ts us) (xs ys : Phrase) :
    Sheds (xs ++ (ts ++ ys)) (xs ++ (us ++ ys)) := by
  induction h with
  | refl => exact .refl _
  | tail _ hdrop ih => exact Relation.ReflTransGen.tail ih (hdrop.append xs ys)

lemma Sheds.prepend {ts us : Phrase} (h : Sheds ts us) (xs : Phrase) :
    Sheds (xs ++ ts) (xs ++ us) := by
  simpa using h.around xs []

lemma Sheds.append {ts ts' us us' : Phrase} (ht : Sheds ts ts') (hu : Sheds us us') :
    Sheds (ts ++ us) (ts' ++ us') := by
  have hfirst : Sheds (ts ++ us) (ts' ++ us) := by simpa using ht.around [] us
  exact Relation.ReflTransGen.trans hfirst (hu.prepend ts')

/-- What is left of a phrase are tokens of it. -/
lemma Sheds.sublist {ts us : Phrase} (h : Sheds ts us) : us.Sublist ts := by
  induction h with
  | refl => exact .refl _
  | tail _ hdrop ih =>
    refine List.Sublist.trans ?_ ih
    cases hdrop with
    | @mk front mid back opening comma =>
      exact (List.Sublist.refl front).append ((((List.Sublist.refl mid).append
        (List.sublist_cons_self comma back))).cons_cons opening)

/-- The segments that are not empty. -/
def filled (segs : List Phrase) : List Phrase := segs.filter (!·.isEmpty)

lemma filled_nil_cons (segs : List Phrase) : filled ([] :: segs) = filled segs := rfl

lemma filled_cons {seg : Phrase} (h : seg ≠ []) (segs : List Phrase) :
    filled (seg :: segs) = seg :: filled segs := by
  rw [filled, List.filter_cons_of_pos (by simpa using h), filled]

/-- All commas of empty segments of a list can go. What stands in front of the list in its
parentheses, `mid`, is nothing or ends with a comma; when no segment is left, a comma that stood
there borders the closing parenthesis. -/
lemma sheds_empty {segs : List Phrase} {inner : Phrase} (h : Joined segs inner)
    (hmatched : ∀ seg ∈ segs, Matched seg) {mid : Phrase} {opening closing : Token}
    (hopen : opening.is "(") (hclose : closing.is ")") (hmid : Matched mid)
    (hend : mid = [] ∨ mid.getLast?.any (·.is ",")) (front back : Phrase) :
    ∃ inner', (filled segs = [] ∧ inner' = [] ∨ Joined (filled segs) inner') ∧
      Sheds (front ++ opening :: (mid ++ (inner ++ closing :: back)))
        (front ++ opening :: (mid ++ (inner' ++ closing :: back))) := by
  induction h generalizing mid with
  | @single seg =>
    by_cases hseg : seg = []
    · subst hseg
      exact ⟨[], .inl ⟨rfl, rfl⟩, .refl _⟩
    · refine ⟨seg, .inr ?_, .refl _⟩
      rw [filled_cons hseg]
      exact .single
  | @cons seg us comma segs hcomma hlist ih =>
    have hsegs : ∀ seg ∈ segs, Matched seg := fun seg hseg =>
      hmatched seg (List.mem_cons_of_mem _ hseg)
    have hmark : Matched [comma] := matched_mark hcomma (by decide)
    by_cases hseg : seg = []
    · subst hseg
      obtain ⟨inner', hinner', hsheds⟩ := ih hsegs hmid hend
      refine ⟨inner', by rwa [filled_nil_cons], Relation.ReflTransGen.head ?_ hsheds⟩
      exact .mk hopen hmid hcomma (hend.imp_right .inl)
    · have hmid' : Matched (mid ++ (seg ++ [comma])) :=
        hmid.append ((hmatched seg List.mem_cons_self).append hmark)
      obtain ⟨inner', hinner', hsheds⟩ := ih hsegs hmid' (.inr (by simp [hcomma]))
      simp only [List.append_assoc, List.singleton_append] at hsheds
      rw [filled_cons hseg, List.append_assoc, List.cons_append]
      rcases hinner' with ⟨hnone, rfl⟩ | hjoined
      · refine ⟨seg, .inr (by rw [hnone]; exact .single), Relation.ReflTransGen.tail hsheds ?_⟩
        have hdrop := @DropsComma.mk front (mid ++ seg) (closing :: back) opening comma hopen
          (hmid.append (hmatched seg List.mem_cons_self)) hcomma (.inr (.inr (by simp [hclose])))
        simpa using hdrop
      · exact ⟨seg ++ comma :: inner', .inr (.cons hcomma hjoined), by simpa using hsheds⟩

lemma Joined.infix {segs : List Phrase} {inner : Phrase} (h : Joined segs inner) {seg : Phrase}
    (hseg : seg ∈ segs) : seg <:+: inner := by
  induction h with
  | single => rw [List.mem_singleton.mp hseg]
  | @cons seg' us comma segs hcomma hlist ih =>
    rcases List.mem_cons.mp hseg with rfl | hmem
    · exact (List.prefix_append seg (comma :: us)).isInfix
    · exact (List.infix_cons (ih hmem)).trans (List.suffix_append seg' _).isInfix

/-- Segments may shed commas each for itself. -/
lemma Joined.sheds {segs segs' : List Phrase} {inner : Phrase} (h : Joined segs inner)
    (hsegs : List.Forall₂ Sheds segs segs') :
    ∃ inner', Joined segs' inner' ∧ Sheds inner inner' := by
  induction h generalizing segs' with
  | single =>
    cases hsegs with
    | cons hseg hnil =>
      cases hnil
      exact ⟨_, .single, hseg⟩
  | @cons seg us comma segs hcomma hlist ih =>
    cases hsegs with
    | @cons _ seg' _ segs' hseg hsegs =>
      obtain ⟨inner', hjoined, hinner⟩ := ih hsegs
      exact ⟨seg' ++ comma :: inner', .cons hcomma hjoined,
        hseg.append (hinner.prepend [comma])⟩

end Brackets

open Brackets

/-! ### Calls -/

namespace Expression

/-- What stands in front of the arguments of a call or of a `new` with arguments, and these. -/
def group? (e : Expression) : Option (List Lexeme × List Argument) :=
  match e.shape with
  | .call qualifier name arguments => some ((Callee.function qualifier name).lexemes, arguments)
  | .remote client method arguments =>
    some ((Callee.action client.lexemes method).lexemes, arguments)
  | .new type arguments =>
    if (splitLastGroup? e.rest).isSome then
      some ((.identifier, "new") :: Phrase.lexemes (type.getD []), arguments)
    else none
  | _ => none

end Expression

namespace Parser

open Lexer

lemma shape_of_new {e : Expression} {type : Option Phrase} {arguments : List Argument}
    (h : e.shape = .new type arguments) :
    e.first.isWord ["new"] ∧ (e.rest ≠ [] → Shape.ofNew e.rest = .new type arguments) := by
  unfold Expression.shape at h
  split at h
  · rename_i hrest
    split at h
    · rename_i hword
      exact ⟨hword, fun hne => absurd hrest hne⟩
    · unfold Shape.ofToken at h
      split at h <;> simp at h
  · rename_i t ts hrest
    split at h
    · simp at h
    · split at h
      · rename_i hword
        exact ⟨hword, fun _ => by rw [hrest, h]⟩
      · split at h
        · rename_i call hcall
          obtain rfl := h
          simpa [Shape.called?] using called?_of_ofCall? hcall
        · split at h <;> simp at h

/-- The tokens of what is read as a call, remote call or `new` with arguments. -/
structure Grouped (e : Expression) (callee : List Lexeme) (arguments : List Argument)
    (head inner : Phrase) (opening closing : Token) : Prop where
  tokens : e.tokens = head ++ opening :: (inner ++ [closing])
  ne_nil : head ≠ []
  opener : opening.isOpener
  parenthesis : opening.is "("
  closer : closing.is ")"
  matched : Matched inner
  callee : head.lexemes = callee
  arguments : arguments = Argument.listOf inner

lemma grouped_of_group? {e : Expression} {callee : List Lexeme} {arguments : List Argument}
    (h : e.group? = some (callee, arguments)) (hlexed : ∀ t ∈ e.tokens, t.Lexed) :
    ∃ head inner opening closing, Grouped e callee arguments head inner opening closing := by
  have hcall {callee' : Callee} (hcalled : e.shape.called? = some (callee', arguments))
      (hcallee : callee'.lexemes = callee) :
      ∃ head inner opening closing, Grouped e callee arguments head inner opening closing := by
    obtain ⟨-, inner, hspells, harguments⟩ := shape_called?_eq_iff.mp hcalled
    generalize htokens : e.tokens = ts at hspells
    cases hspells with
    | @mk head opening closing hhead hopen hparen hinner hclose =>
      rw [htokens] at hlexed
      refine ⟨head, inner, opening, closing, htokens, hhead.ne_nil, hopen, hparen, hclose, hinner,
        ?_, harguments⟩
      rw [hhead.lexemes fun t ht => hlexed t (List.mem_append_left _ ht), hcallee]
  unfold Expression.group? at h
  split at h
  · rename_i qualifier name arguments' hshape
    obtain ⟨hcallee, rfl⟩ := Prod.mk.inj (Option.some.inj h)
    exact hcall (by rw [hshape]; rfl) hcallee
  · rename_i client method arguments' hshape
    obtain ⟨hcallee, rfl⟩ := Prod.mk.inj (Option.some.inj h)
    exact hcall (by rw [hshape]; rfl) hcallee
  · rename_i type arguments' hshape
    split at h
    · rename_i hsome
      obtain ⟨rfl, rfl⟩ := Prod.mk.inj (Option.some.inj h)
      obtain ⟨⟨back, inner⟩, hsplit⟩ := Option.isSome_iff_exists.mp hsome
      obtain ⟨opening, closing, hrest, hopen, hparen, hclose, hinner⟩ :=
        splitLastGroup?_eq_some_iff.mp hsplit
      have hne : e.rest ≠ [] := by
        rw [hrest]
        simp
      obtain ⟨hword, hnew⟩ := shape_of_new hshape
      have hparts : arguments' = Argument.listOf inner ∧ type.getD [] = back := by
        have hshape' := hnew hne
        rw [Shape.ofNew.eq_def] at hshape'
        split at hshape'
        · exact absurd ‹e.rest = []› hne
        · rw [hsplit] at hshape'
          split at hshape'
          · rename_i heq
            obtain ⟨rfl, rfl⟩ := Prod.mk.inj (Option.some.inj heq)
            obtain ⟨rfl, rfl⟩ := Shape.new.inj hshape'
            exact ⟨rfl, rfl⟩
          · rename_i heq
            obtain ⟨rfl, rfl⟩ := Prod.mk.inj (Option.some.inj heq)
            obtain ⟨rfl, rfl⟩ := Shape.new.inj hshape'
            exact ⟨rfl, rfl⟩
          · rename_i heq
            simp at heq
      obtain ⟨harguments, rfl⟩ := hparts
      refine ⟨e.first :: type.getD [], inner, opening, closing, ?_, List.cons_ne_nil _ _, hopen,
        hparen, hclose, hinner, ?_, harguments⟩
      · rw [Expression.tokens, hrest, List.cons_append]
      · simp only [Token.isWord, Token.isIdentifier, Bool.and_eq_true, beq_iff_eq] at hword
        rw [Phrase.lexemes_cons, hword.1, show e.first.text = "new" by simpa using hword.2]
    · simp at h
  · simp at h

end Parser

namespace Argument

/-- The name of an argument and the mark behind it. -/
def nameLexemes (a : Argument) : List Lexeme :=
  match a.name with
  | none => []
  | some name => [(.identifier, name), (.punctuation, "=")]

end Argument

namespace Expression

/-- The lexemes of a call that is put together from its callee and its arguments, and so on for the
calls in these, `n` levels down. Everything else stays as it is. -/
def joined : ℕ → Expression → List Lexeme
  | 0, e => e.tokens.lexemes
  | n + 1, e =>
    match e.group? with
    | some (callee, arguments) =>
      callee ++ (.punctuation, "(") ::
        (Argument.commaJoined (arguments.map fun a => a.nameLexemes ++ joined n a.value) ++
          [(.punctuation, ")")])
    | none =>
      match e.shape with
      | .check _ inner => (e.first.kind, e.first.text) :: joined n inner
      | _ => e.tokens.lexemes

end Expression

namespace Parser

open Lexer

/-! ### What is left of the tokens -/

/-- Arguments are read from the segments that are not empty, in their order. -/
lemma spellsArguments (segs : List Phrase) :
    List.Forall₂ Argument.SpellsArgument (segs.filterMap Argument.ofPhrase?) (filled segs) := by
  induction segs with
  | nil => exact .nil
  | cons seg segs ih =>
    by_cases hseg : seg = []
    · subst hseg
      exact ih
    · obtain ⟨a, ha⟩ := Argument.exists_ofPhrase? hseg
      rw [List.filterMap_cons_some ha, filled_cons hseg]
      exact .cons (Argument.spellsArgument_of_ofPhrase? ha) ih

lemma sheds_argument {a : Argument} {seg us : Phrase} (h : Argument.SpellsArgument a seg)
    (hlexed : ∀ t ∈ seg, t.Lexed) (hsheds : Sheds a.value.tokens us) :
    ∃ seg', Sheds seg seg' ∧ seg'.lexemes = a.nameLexemes ++ us.lexemes := by
  cases h with
  | positional => exact ⟨us, hsheds, rfl⟩
  | @named name equal value hname hequal =>
    have hmark := (hlexed equal (by simp)).mark hequal (by decide)
    refine ⟨name :: equal :: us, hsheds.prepend [name, equal], ?_⟩
    simp [Argument.nameLexemes, beq_iff_eq.mp hname, hmark]

/-- The values of arguments may shed commas each for itself. -/
lemma sheds_arguments {arguments : List Argument} {segs : List Phrase}
    {value : Expression → List Lexeme}
    (h : List.Forall₂ Argument.SpellsArgument arguments segs)
    (hlexed : ∀ seg ∈ segs, ∀ t ∈ seg, t.Lexed)
    (hvalue : ∀ e : Expression, (∀ t ∈ e.tokens, t.Lexed) →
      ∃ us, Sheds e.tokens us ∧ us.lexemes = value e) :
    ∃ segs', List.Forall₂ Sheds segs segs' ∧
      segs'.map Phrase.lexemes = arguments.map fun a => a.nameLexemes ++ value a.value := by
  induction h with
  | nil => exact ⟨[], .nil, rfl⟩
  | @cons a seg arguments segs hspells _ ih =>
    obtain ⟨segs', hsegs, hlexemes⟩ := ih fun seg hseg => hlexed seg (List.mem_cons_of_mem _ hseg)
    have hseg := hlexed seg List.mem_cons_self
    have htokens : ∀ t ∈ a.value.tokens, t.Lexed := by
      intro t ht
      cases hspells with
      | positional => exact hseg t ht
      | named => exact hseg t (by simp [ht])
    obtain ⟨us, hus, hvalues⟩ := hvalue a.value htokens
    obtain ⟨seg', hsheds, hlexemes'⟩ := sheds_argument hspells hseg hus
    refine ⟨seg' :: segs', .cons hsheds hsegs, ?_⟩
    rw [List.map_cons, List.map_cons, hlexemes, hlexemes', hvalues]

/-- A group of arguments that shed commas loses the commas of its own empty segments too. -/
lemma Grouped.sheds {e : Expression} {callee : List Lexeme} {arguments : List Argument}
    {head inner : Phrase} {opening closing : Token}
    (h : Grouped e callee arguments head inner opening closing) (hlexed : ∀ t ∈ e.tokens, t.Lexed)
    {value : Expression → List Lexeme}
    (hvalue : ∀ e : Expression, (∀ t ∈ e.tokens, t.Lexed) →
      ∃ us, Sheds e.tokens us ∧ us.lexemes = value e) :
    ∃ us, Sheds e.tokens us ∧ us.lexemes = callee ++ (.punctuation, "(") ::
      (Argument.commaJoined (arguments.map fun a => a.nameLexemes ++ value a.value) ++
        [(.punctuation, ")")]) := by
  obtain ⟨segs, hjoined, hfree, hlist⟩ := exists_joined h.matched
  have hspells := spellsArguments segs
  rw [← hlist, ← h.arguments] at hspells
  have hinside : ∀ seg ∈ filled segs, ∀ t ∈ seg, t.Lexed := by
    intro seg hseg t ht
    have hmem : t ∈ inner := by
      obtain ⟨before, after, hinfix⟩ := hjoined.infix (List.mem_of_mem_filter hseg)
      rw [← hinfix]
      simp [ht]
    exact hlexed t (by rw [h.tokens]; simp [hmem])
  -- first the commas of the group itself go, then those inside of its arguments
  obtain ⟨inner', hinner', hsheds⟩ := sheds_empty hjoined (fun seg hseg => (hfree seg hseg).matched)
    h.parenthesis h.closer Matched.nil (.inl rfl) head []
  obtain ⟨segs', hsegs, hlexemes⟩ := sheds_arguments hspells hinside hvalue
  obtain ⟨inner'', hinner'', hsheds'⟩ : ∃ inner'', (segs' = [] ∧ inner'' = [] ∨
      Joined segs' inner'') ∧ Sheds inner' inner'' := by
    rcases hinner' with ⟨hnone, rfl⟩ | hjoined'
    · rw [hnone] at hsegs
      cases hsegs
      exact ⟨[], .inl ⟨rfl, rfl⟩, .refl _⟩
    · obtain ⟨inner'', hjoined'', hsheds'⟩ := hjoined'.sheds hsegs
      exact ⟨inner'', .inr hjoined'', hsheds'⟩
  have hall : Sheds e.tokens (head ++ opening :: (inner'' ++ [closing])) := by
    have harguments : Sheds (head ++ opening :: (inner' ++ [closing]))
        (head ++ opening :: (inner'' ++ [closing])) := by
      simpa using hsheds'.around (head ++ [opening]) [closing]
    rw [h.tokens]
    exact Relation.ReflTransGen.trans hsheds harguments
  refine ⟨_, hall, ?_⟩
  have hlexed' : ∀ t ∈ head ++ opening :: (inner'' ++ [closing]), t.Lexed := fun t ht =>
    hlexed t (hall.sublist.subset ht)
  have hinner : Phrase.lexemes inner'' = Argument.commaJoined (segs'.map Phrase.lexemes) := by
    rcases hinner'' with ⟨rfl, rfl⟩ | hjoined''
    · rfl
    · exact Argument.lexemes_of_joined hjoined'' fun t ht => hlexed' t (by simp [ht])
  have hopening := (hlexed' opening (by simp)).mark h.parenthesis (by decide)
  have hclosing := (hlexed' closing (by simp)).mark h.closer (by decide)
  rw [Phrase.lexemes_append, Phrase.lexemes_cons, Phrase.lexemes_append, Phrase.lexemes_cons,
    h.callee, hinner, hlexemes, hopening, hclosing]
  rfl

/-- A call that is put together again at any number of levels lacks commas of empty segments
only. -/
lemma exists_sheds_joined (n : ℕ) {e : Expression} (hlexed : ∀ t ∈ e.tokens, t.Lexed) :
    ∃ us, Sheds e.tokens us ∧ us.lexemes = e.joined n := by
  induction n generalizing e with
  | zero => exact ⟨e.tokens, .refl _, rfl⟩
  | succ n ih =>
    rw [Expression.joined]
    cases hgroup : e.group? with
    | some found =>
      obtain ⟨head, inner, opening, closing, hgrouped⟩ := grouped_of_group? hgroup hlexed
      exact hgrouped.sheds hlexed fun e he => ih he
    | none =>
      have hsame : ∃ us, Sheds e.tokens us ∧ us.lexemes = e.tokens.lexemes :=
        ⟨e.tokens, .refl _, rfl⟩
      cases hshape : e.shape with
      | check panics inner =>
        obtain ⟨-, htokens⟩ := tokens_of_check hshape
        rw [htokens] at hlexed ⊢
        obtain ⟨us, hsheds, hlexemes⟩ := ih fun t ht => hlexed t (List.mem_cons_of_mem _ ht)
        exact ⟨e.first :: us, hsheds.prepend [e.first], by rw [Phrase.lexemes_cons, hlexemes]⟩
      | new => exact hsame
      | remote => exact hsame
      | call => exact hsame
      | reference => exact hsame
      | literal => exact hsame
      | other => exact hsame

/-! ### The division of a call -/

/-- How a call, a remote call or a `new` with arguments is divided: into its callee, its first
parenthesis, what stands inside, and its last token. -/
structure Divides (e : Expression) (callee : List Lexeme) (arguments : List Argument)
    (head inner : Phrase) (opening closing : Token) : Prop where
  tokens : e.tokens = head ++ opening :: (inner ++ [closing])
  callee : head.lexemes = callee
  parentheses : opening.is "(" ∧ closing.is ")"
  /-- The backward scan finds this parenthesis, wherever in the callee the range starts. -/
  backward : ∀ front back, head = front ++ back →
    splitLastGroup? (back ++ opening :: (inner ++ [closing])) = some (back, inner)
  /-- The forward scan from it ends behind the last token, whatever follows the range. -/
  forward : ∀ rest, dropGroup (opening :: (inner ++ closing :: rest)) = some rest
  /-- The forward scan ends there from no other opening bracket of the range. -/
  unique : ∀ before found after, e.tokens = before ++ found :: after → found.isOpener →
    dropGroup (found :: after) = some [] → before = head
  /-- The arguments are read, in their order, from the segments between the commas outside of
  brackets that are not empty. -/
  arguments : ∃ segs, Joined segs inner ∧ (∀ seg ∈ segs, Free "," seg) ∧
    List.Forall₂ Argument.SpellsArgument arguments (filled segs)

lemma Grouped.divides {e : Expression} {callee : List Lexeme} {arguments : List Argument}
    {head inner : Phrase} {opening closing : Token}
    (h : Grouped e callee arguments head inner opening closing) (hlexed : ∀ t ∈ e.tokens, t.Lexed) :
    Divides e callee arguments head inner opening closing where
  tokens := h.tokens
  callee := h.callee
  parentheses := ⟨h.parenthesis, h.closer⟩
  backward front back hhead :=
    splitLastGroup?_eq_some_iff.mpr
      ⟨opening, closing, rfl, h.opener, h.parenthesis, h.closer, h.matched⟩
  forward rest := by
    have hclosing : closing.isCloser :=
      (hlexed closing (by rw [h.tokens]; simp)).isCloser h.closer
    exact (dropGroup_eq_some_iff h.opener).mpr ⟨inner, closing, rfl, hclosing, h.matched⟩
  unique before found after htokens hopen hdrop := by
    obtain ⟨mid, last, rfl, -, hmid⟩ := (dropGroup_eq_some_iff hopen).mp hdrop
    have hsame : (before ++ found :: mid) ++ [last] = (head ++ opening :: inner) ++ [closing] := by
      simpa using htokens.symm.trans h.tokens
    exact group_unique (List.append_inj' hsame rfl).1 hopen h.opener hmid h.matched
  arguments := by
    obtain ⟨segs, hjoined, hfree, hlist⟩ := exists_joined h.matched
    refine ⟨segs, hjoined, hfree, ?_⟩
    rw [h.arguments, hlist]
    exact spellsArguments segs

/-- Reading a call loses nothing but commas of empty segments. Backwards and forwards the same
parenthesis belongs to its last token, its arguments are the segments between, and its callee and
its arguments put together again, at any number of levels, are its tokens up to such commas. -/
theorem call_parts {e : Expression} {callee : List Lexeme} {arguments : List Argument}
    (hlexed : ∀ t ∈ e.tokens, t.Lexed) (h : e.group? = some (callee, arguments)) :
    (∃ head inner opening closing, Divides e callee arguments head inner opening closing) ∧
      ∀ n, ∃ us, Sheds e.tokens us ∧ us.lexemes = e.joined n := by
  obtain ⟨head, inner, opening, closing, hgrouped⟩ := grouped_of_group? h hlexed
  exact ⟨⟨head, inner, opening, closing, hgrouped.divides hlexed⟩,
    fun n => exists_sheds_joined n hlexed⟩

/-- A call with an argument whose brackets are of two kinds, an empty segment, and a named argument
that is a call with empty segments again. -/
theorem call_parts_mixed :
    let texts :=
      ["m", ":", "f", "(", "x", "[", "(", "]", ")", ",", "k", "=", "g", "(", "1", ")", ")"]
    ∃ (e : Expression) (callee : List Lexeme) (arguments : List Argument),
      tokenize "m:f(x[(]),,k=g(,1,))" = .ok e.tokens ∧ (∀ t ∈ e.tokens, t.Lexed) ∧
      e.group? = some (callee, arguments) ∧ arguments.length = 2 ∧
      (∃ head inner opening closing, Divides e callee arguments head inner opening closing) ∧
      ∃ us, Sheds e.tokens us ∧ us.lexemes.map Prod.snd = texts := by
  intro texts
  have hread : (tokenize "m:f(x[(]),,k=g(,1,))").toOption.any fun ts =>
      (Expression.ofPhrase? ts).any fun e => ts = e.tokens ∧
        e.group?.any fun found => found.2.length = 2 ∧ (e.joined 2).map Prod.snd = texts := by
    decide +kernel
  obtain ⟨ts, hts, hrest⟩ := exists_ok_of_any hread
  obtain ⟨e, -, he⟩ := (Option.any_eq_true _ _).mp hrest
  obtain ⟨rfl, hgroup⟩ := of_decide_eq_true he
  obtain ⟨⟨callee, arguments⟩, hfound, hvalues⟩ := (Option.any_eq_true _ _).mp hgroup
  obtain ⟨hlength, htexts⟩ := of_decide_eq_true hvalues
  obtain ⟨cs, last, -, hscanned, -⟩ := scanned_of_tokenize hts
  have hlexed : ∀ t ∈ e.tokens, t.Lexed := fun t ht => hscanned.mem ht
  obtain ⟨hdivides, hjoined⟩ := call_parts hlexed hfound
  obtain ⟨us, hsheds, hus⟩ := hjoined 2
  exact ⟨e, callee, arguments, hts, hlexed, hfound, hlength, hdivides, us, hsheds,
    by rw [hus, htexts]⟩

end Parser

end FlowCanvas
