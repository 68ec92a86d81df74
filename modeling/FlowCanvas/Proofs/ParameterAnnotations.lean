import FlowCanvas.Proofs.Headers

/-!
# Annotations of parameters

Annotations are passed over by two readers. `annotations` knows the name behind a qualifier;
`dropAnnotations`, which serves parameters, passes over the mark, one token and a value in braces.
So a parameter is read without its annotations up to the first one with a qualifier, and the rest
of that one becomes a part of the type.
-/

namespace FlowCanvas

open Brackets Lexer

/-- An annotation as written: `@word` or `@word:name`, with or without a value in braces. -/
structure AnnotationText where
  mark : Token
  word : Token
  qualified : Option (Token × Token)
  value : Phrase

namespace AnnotationText

/-- What follows the first word of an annotation. -/
def remainder (a : AnnotationText) : Phrase :=
  (a.qualified.elim [] fun (colon, name) => [colon, name]) ++ a.value

def tokens (a : AnnotationText) : Phrase := a.mark :: a.word :: a.remainder

def name (a : AnnotationText) : String :=
  a.qualified.elim a.word.text fun (_, name) => a.word.text ++ ":" ++ name.text

structure Sound (a : AnnotationText) : Prop where
  mark : a.mark.is "@"
  word : a.word.isIdentifier
  qualified : ∀ colon name, a.qualified = some (colon, name) → colon.is ":" ∧ name.isIdentifier
  value : a.value = [] ∨ ∃ brace inner close, a.value = brace :: (inner ++ [close]) ∧
    brace.is "\x7b" ∧ Matched inner ∧ close.is "\x7d"

/-- What is left of the annotations in front of a parameter. -/
def leftover : List AnnotationText → Phrase
  | [] => []
  | a :: list => if a.qualified.isNone then leftover list else a.remainder ++ list.flatMap tokens

end AnnotationText

/-- What stands between two commas of a parameter list. A type with a comma outside brackets, such
as `map<int, string>`, stands in several of them. -/
structure ParameterEntry where
  annotations : List AnnotationText
  type : Phrase
  name : Token
  default : Option (Token × Phrase)

namespace ParameterEntry

/-- An entry without its annotations. -/
def bare (e : ParameterEntry) : ParameterEntry := { e with annotations := [] }

/-- The tokens of an entry behind its annotations. -/
def body (e : ParameterEntry) : Phrase :=
  e.type ++ e.name :: e.default.elim [] fun (equal, value) => equal :: value

def tokens (e : ParameterEntry) : Phrase := e.annotations.flatMap AnnotationText.tokens ++ e.body

/-- The parameter an entry is read as. -/
def parameter (e : ParameterEntry) : Parameter :=
  ⟨AnnotationText.leftover e.annotations ++ e.type, e.name.text, e.default.map (·.2)⟩

structure Sound (e : ParameterEntry) : Prop where
  annotations : ∀ a ∈ e.annotations, a.Sound
  starts : ∀ mark ∈ ["@", ":", "\x7b"], Parser.sees mark e.body = false
  left : Free "=" (e.type ++ [e.name])
  equal : ∀ equal value, e.default = some (equal, value) → equal.is "="
  free : Free "," e.body

lemma Sound.bare {e : ParameterEntry} (h : e.Sound) : e.bare.Sound :=
  ⟨fun a ha => by simp [ParameterEntry.bare] at ha, h.starts, h.left, h.equal, h.free⟩

end ParameterEntry

namespace Parser

/-! ### Annotations -/

lemma dropGroupFrom_append {depth depth' : Nat} {ts : Phrase}
    (h : levelAfter? depth ts = some depth') (us : Phrase) :
    dropGroupFrom (depth + 1) (ts ++ us) = dropGroupFrom (depth' + 1) us := by
  fun_induction levelAfter? depth ts with
  | case1 depth =>
    obtain rfl := Option.some.inj h
    rfl
  | case2 depth t ts hopen ih => simpa [dropGroupFrom, hopen] using ih h
  | case3 t ts hopen hclose => simp at h
  | case4 t ts hopen hclose depth ih => simpa [dropGroupFrom, hopen, hclose] using ih h
  | case5 depth t ts hopen hclose ih => simpa [dropGroupFrom, hopen, hclose] using ih h

lemma dropGroup_group {first last : Token} {inner : Phrase} (hopen : first.isOpener)
    (hinner : Matched inner) (hclose : last.isCloser) (rest : Phrase) :
    dropGroup (first :: (inner ++ last :: rest)) = some rest := by
  rw [dropGroup, if_pos hopen, dropGroupFrom_append hinner]
  simp [dropGroupFrom, not_isOpener hclose, hclose]

/-- Tokens behind annotations start with a mark or with what follows the annotations. -/
lemma sees_annotations {list : List AnnotationText} (hlist : ∀ a ∈ list, a.Sound) {mark : String}
    (hmark : mark ≠ "@") {body : Phrase} (hbody : sees mark body = false) :
    sees mark (list.flatMap AnnotationText.tokens ++ body) = false := by
  cases list with
  | nil => exact hbody
  | cons a list => exact is_eq_false (hlist a List.mem_cons_self).mark (Ne.symm hmark)

section AnnotationText

variable {a : AnnotationText} (h : a.Sound) (hsource : Sourced a.tokens)

include h hsource

/-- The value of an annotation is passed over. -/
lemma dropGroup_value {body : Phrase} (hbody : sees "\x7b" body = false) :
    (if sees "\x7b" (a.value ++ body) then dropGroup (a.value ++ body)
      else some (a.value ++ body)) = some body := by
  rcases h.value with hvalue | ⟨brace, inner, close, hvalue, hbrace, hinner, hclose⟩
  · rw [hvalue, List.nil_append, hbody]
    rfl
  · have hmem {t : Token} (ht : t ∈ a.value) : t ∈ a.tokens := by
      simp [AnnotationText.tokens, AnnotationText.remainder, ht]
    have hopener := hsource.opens (hmem (by simp [hvalue])) hbrace (by decide)
    have hcloser := hsource.closes (hmem (by simp [hvalue])) hclose (by decide)
    rw [hvalue]
    simp only [List.cons_append, List.append_assoc, sees, hbrace, if_true]
    exact dropGroup_group hopener hinner hcloser body

/-- No mark that divides a parameter list stands in an annotation outside brackets. -/
lemma free_annotation {mark : String} (hmark : mark ∈ ["=", ",", ")"]) :
    Free mark a.remainder ∧ Free mark a.tokens := by
  have hmem {t : Token} (ht : t ∈ a.remainder) : t ∈ a.tokens := by simp [AnnotationText.tokens, ht]
  have hsingle {t : Token} {mark' : String} (ht : t.is mark') (hmark' : mark' ∈ ["@", ":"]) :
      Free mark [t] := by
    simp only [List.mem_cons, List.not_mem_nil, or_false] at hmark hmark'
    refine free_mark ht ?_ ?_
    · rcases hmark' with rfl | rfl <;> decide
    · rcases hmark' with rfl | rfl <;> rcases hmark with rfl | rfl | rfl <;> decide
  have hword {t : Token} (ht : t ∈ a.tokens) (hidentifier : t.isIdentifier) : Free mark [t] :=
    free_identifier hsource ht hidentifier
      (List.mem_cons_of_mem _ (List.mem_append_left ["\x7d", "\x7b", "@"] hmark))
  have hqualified : Free mark (a.qualified.elim [] fun (colon, name) => [colon, name]) := by
    cases hq : a.qualified with
    | none => exact .nil mark
    | some q =>
      obtain ⟨colon, name⟩ := q
      obtain ⟨hcolon, hname⟩ := h.qualified colon name hq
      exact (hsingle hcolon (by decide)).append
        (hword (hmem (by simp [AnnotationText.remainder, hq])) hname)
  have hvalue : Free mark a.value := by
    rcases h.value with hvalue | ⟨brace, inner, close, hvalue, hbrace, hinner, hclose⟩
    · rw [hvalue]
      exact .nil mark
    · have hmem' {t : Token} (ht : t ∈ a.value) : t ∈ a.tokens :=
        hmem (by simp [AnnotationText.remainder, ht])
      have hopener := hsource.opens (hmem' (by simp [hvalue])) hbrace (by decide)
      have hcloser := hsource.closes (hmem' (by simp [hvalue])) hclose (by decide)
      rw [hvalue]
      refine free_group hopener (is_eq_false hbrace ?_) hinner hcloser
      rintro rfl
      simp at hmark
  have hremainder : Free mark a.remainder := hqualified.append hvalue
  exact ⟨hremainder, (hsingle h.mark (by decide)).append
    ((hword (by simp [AnnotationText.tokens]) h.word).append hremainder)⟩

/-- The reader of annotations takes one of them. -/
lemma annotationsFrom_tokens {body : Phrase}
    (hbody : ∀ mark ∈ [":", "\x7b"], sees mark body = false) (n : Nat) :
    annotationsFrom (n + 1) (a.tokens ++ body) =
      (annotationsFrom n body).map fun (names, rest) => (a.name :: names, rest) := by
  have hname : annotationName (a.word :: (a.remainder ++ body)) =
      .ok (a.name, a.value ++ body) := by
    refine bind_eq_ok_iff.mpr ⟨_, identifier_eq_ok_iff.mpr ⟨rfl, h.word⟩, ?_⟩
    cases hq : a.qualified with
    | none =>
      have hcolon : eat ":" (a.value ++ body) = none := by
        rw [eat_eq_none_iff]
        rcases h.value with hvalue | ⟨brace, inner, close, hvalue, hbrace, -, -⟩
        · rw [hvalue]
          exact hbody ":" (by simp)
        · rw [hvalue]
          exact is_eq_false hbrace (by decide)
      simp [AnnotationText.remainder, AnnotationText.name, hq, hcolon, pure, Except.pure]
    | some q =>
      obtain ⟨colon, name⟩ := q
      obtain ⟨hcolon, hidentifier⟩ := h.qualified colon name hq
      simp [AnnotationText.remainder, AnnotationText.name, hq, eat, hcolon, identifier, readIf,
        hidentifier, bind, Except.bind, pure, Except.pure]
  have hvalue : annotationValue (a.value ++ body) = .ok body := by
    have hdrop := dropGroup_value h hsource (hbody "\x7b" (by simp))
    rw [annotationValue]
    split at hdrop
    · rename_i hsees
      rw [if_pos hsees, hdrop]
    · rename_i hsees
      rw [if_neg hsees, Option.some.inj hdrop]
  have hat : eat "@" (a.tokens ++ body) = some (a.word :: (a.remainder ++ body)) :=
    eat_eq_some_iff.mpr ⟨a.mark, rfl, h.mark⟩
  rw [annotationsFrom, hat]
  simp only [hname, hvalue, bind, Except.bind]
  cases annotationsFrom n body <;> rfl

/-- The reader of parameters passes over one annotation without a qualifier. -/
lemma dropAnnotations_tokens {body : Phrase} (hbody : sees "\x7b" body = false)
    (hnone : a.qualified = none) (n : Nat) :
    dropAnnotations (n + 1) (a.tokens ++ body) = dropAnnotations n body := by
  have hdrop := dropGroup_value h hsource hbody
  have hremainder : a.remainder = a.value := by simp [AnnotationText.remainder, hnone]
  rw [AnnotationText.tokens, hremainder, List.cons_append, dropAnnotations, if_pos h.mark]
  simp only [List.cons_append, List.drop_succ_cons, List.drop_zero]
  split at hdrop
  · rename_i hsees
    rw [if_pos hsees, hdrop, Option.getD_some]
  · rename_i hsees
    rw [if_neg hsees, Option.some.inj hdrop]

omit hsource in
/-- It stops behind the first word of one that has a qualifier. -/
lemma dropAnnotations_qualified {q : Token × Token} (hq : a.qualified = some q) (n : Nat)
    (body : Phrase) :
    dropAnnotations (n + 1) (a.tokens ++ body) = a.remainder ++ body := by
  obtain ⟨colon, name⟩ := q
  obtain ⟨hcolon, -⟩ := h.qualified colon name hq
  have hstop : ∀ n ts, dropAnnotations n (colon :: ts) = colon :: ts := by
    intro n ts
    cases n with
    | zero => rfl
    | succ n => rw [dropAnnotations, if_neg (by simp [is_eq_false hcolon])]
  have hremainder : a.remainder = colon :: name :: a.value := by simp [AnnotationText.remainder, hq]
  rw [AnnotationText.tokens, hremainder, List.cons_append, dropAnnotations, if_pos h.mark]
  simp only [List.cons_append, List.drop_succ_cons, List.drop_zero, sees,
    is_eq_false hcolon (show ":" ≠ "\x7b" by decide), Bool.false_eq_true, if_false, hstop]

end AnnotationText

lemma length_le_annotations (list : List AnnotationText) :
    list.length ≤ (list.flatMap AnnotationText.tokens).length := by
  induction list with
  | nil => simp
  | cons a list ih =>
    rw [List.flatMap_cons, List.length_append, List.length_cons, AnnotationText.tokens]
    simp only [List.length_cons]
    omega

section Entries

variable {list : List AnnotationText} {body : Phrase} (hlist : ∀ a ∈ list, a.Sound)
  (hsource : Sourced (list.flatMap AnnotationText.tokens))
  (hbody : ∀ mark ∈ ["@", ":", "\x7b"], sees mark body = false)

include hlist hsource hbody

/-- The reader of annotations takes all of them. -/
lemma annotations_of_sound :
    annotations (list.flatMap AnnotationText.tokens ++ body) = .ok (list.map (·.name), body) := by
  have hfrom (n : Nat) (hn : list.length ≤ n) :
      annotationsFrom n (list.flatMap AnnotationText.tokens ++ body) =
        .ok (list.map (·.name), body) := by
    induction list generalizing n with
    | nil =>
      have heat := eat_eq_none_iff.mpr (hbody "@" (by simp))
      cases n with
      | zero => rfl
      | succ n => simp [annotationsFrom, heat]
    | cons a list ih =>
      obtain ⟨n, rfl⟩ : ∃ k, n = k + 1 := ⟨n - 1, by simp at hn; omega⟩
      rw [List.flatMap_cons] at hsource ⊢
      have hothers : ∀ a ∈ list, a.Sound := fun b hb => hlist b (List.mem_cons_of_mem a hb)
      rw [List.append_assoc, annotationsFrom_tokens (hlist a List.mem_cons_self) hsource.left
        (fun mark hmark => sees_annotations hothers ?_ (hbody mark ?_)),
        ih hothers hsource.right n (by simpa using hn)]
      · rfl
      · rintro rfl
        simp at hmark
      · exact List.mem_cons_of_mem _ hmark
  refine hfrom _ ((length_le_annotations list).trans ?_)
  rw [List.length_append]
  exact Nat.le_add_right _ _

/-- The reader of parameters leaves what is left over of the annotations. -/
lemma dropAnnotations_of_sound {n : Nat} (hn : list.length ≤ n) :
    dropAnnotations n (list.flatMap AnnotationText.tokens ++ body) =
      AnnotationText.leftover list ++ body := by
  induction list generalizing n with
  | nil =>
    cases n with
    | zero => rfl
    | succ n =>
      cases body with
      | nil => rfl
      | cons t body =>
        have hat : t.is "@" = false := hbody "@" (by simp)
        simp [dropAnnotations, hat, AnnotationText.leftover]
  | cons a list ih =>
    obtain ⟨n, rfl⟩ : ∃ k, n = k + 1 := ⟨n - 1, by simp at hn; omega⟩
    rw [List.flatMap_cons] at hsource ⊢
    have hothers : ∀ a ∈ list, a.Sound := fun b hb => hlist b (List.mem_cons_of_mem a hb)
    rw [List.append_assoc, AnnotationText.leftover]
    cases hq : a.qualified with
    | none =>
      rw [dropAnnotations_tokens (hlist a List.mem_cons_self) hsource.left
        (sees_annotations hothers (by decide) (hbody _ (by simp))) hq,
        ih hothers hsource.right (by simpa using hn)]
      rfl
    | some q =>
      rw [dropAnnotations_qualified (hlist a List.mem_cons_self) hq]
      simp

end Entries

lemma free_annotations {list : List AnnotationText} (hlist : ∀ a ∈ list, a.Sound)
    (hsource : Sourced (list.flatMap AnnotationText.tokens)) {mark : String}
    (hmark : mark ∈ ["=", ",", ")"]) :
    Free mark (AnnotationText.leftover list) ∧ Free mark (list.flatMap AnnotationText.tokens) := by
  induction list with
  | nil => exact ⟨.nil mark, .nil mark⟩
  | cons a list ih =>
    rw [List.flatMap_cons] at hsource ⊢
    obtain ⟨hleft, hall⟩ := ih (fun b hb => hlist b (List.mem_cons_of_mem a hb)) hsource.right
    obtain ⟨hremainder, htokens⟩ := free_annotation (hlist a List.mem_cons_self) hsource.left hmark
    refine ⟨?_, htokens.append hall⟩
    rw [AnnotationText.leftover]
    split
    · exact hleft
    · exact hremainder.append hall

lemma leftover_eq_nil_iff {list : List AnnotationText} :
    AnnotationText.leftover list = [] ↔ ∀ a ∈ list, a.qualified = none := by
  induction list with
  | nil => simp [AnnotationText.leftover]
  | cons a list ih =>
    rw [AnnotationText.leftover, List.forall_mem_cons]
    cases hq : a.qualified with
    | none => simpa using ih
    | some q => simp [AnnotationText.remainder, hq]

/-! ### Parameter lists -/

section Entry

variable {e : ParameterEntry} (h : e.Sound) (hsource : Sourced e.tokens)

include h hsource

lemma parameter?_tokens : parameter? e.tokens = some e.parameter := by
  have hdrop : dropAnnotations e.tokens.length e.tokens =
      AnnotationText.leftover e.annotations ++ e.body := by
    refine dropAnnotations_of_sound h.annotations hsource.left h.starts ?_
    rw [ParameterEntry.tokens, List.length_append]
    exact (length_le_annotations _).trans (Nat.le_add_right _ _)
  have hleft : Free "=" (AnnotationText.leftover e.annotations ++ (e.type ++ [e.name])) :=
    (free_annotations h.annotations hsource.left (by decide)).1.append h.left
  have hcut : cutOrAll "=" (AnnotationText.leftover e.annotations ++ e.body) =
      (AnnotationText.leftover e.annotations ++ (e.type ++ [e.name]), e.default.map (·.2)) := by
    rw [ParameterEntry.body]
    cases hdefault : e.default with
    | none => exact cutOrAll_of_free hleft
    | some d =>
      obtain ⟨equal, value⟩ := d
      have hfound : cutOrAll "=" (_ ++ equal :: value) = (_, some value) :=
        cutOrAll_append hleft (h.equal equal value hdefault)
      simpa using hfound
  rw [parameter?, hdrop, hcut]
  simp [← List.append_assoc, ParameterEntry.parameter]

lemma free_entry : Free "," e.tokens ∧ Free ")" e.tokens := by
  have hparen : Free ")" e.body := h.free.matched.free fun t ht his =>
    hsource.closes (List.mem_append_right _ ht) his (by decide)
  exact ⟨(free_annotations h.annotations hsource.left (by decide)).2.append h.free,
    (free_annotations h.annotations hsource.left (by decide)).2.append hparen⟩

end Entry

/-- Entries with commas between them. -/
def Lists (list : List ParameterEntry) (ts : Phrase) : Prop :=
  list = [] ∧ ts = [] ∨ Joined (list.map ParameterEntry.tokens) ts

lemma free_of_joined {mark : String} (hmark : mark ≠ ",") {list : List Phrase} {ts : Phrase}
    (h : Joined list ts) (hlist : ∀ seg ∈ list, Free mark seg) : Free mark ts := by
  induction h with
  | single => exact hlist _ (by simp)
  | cons hcomma _ ih =>
    refine (hlist _ (by simp)).append ((free_mark hcomma (by decide) hmark.symm).append (ih ?_))
    exact fun seg hseg => hlist seg (List.mem_cons_of_mem _ hseg)

lemma infix_of_joined {list : List Phrase} {ts : Phrase} (h : Joined list ts) :
    ∀ seg ∈ list, seg <:+: ts := by
  induction h with
  | single => simp
  | @cons ts us comma list _ _ ih =>
    intro seg hseg
    rcases List.mem_cons.mp hseg with rfl | hseg
    · exact (List.prefix_append seg _).isInfix
    · exact (ih seg hseg).trans ⟨ts ++ [comma], [], by simp⟩

/-- A list is read entry by entry. -/
lemma parameters_of_lists {list : List ParameterEntry} {ts : Phrase} {paren close : Token}
    (hlist : ∀ e ∈ list, e.Sound) (hsource : ∀ e ∈ list, Sourced e.tokens) (h : Lists list ts)
    (hparen : paren.is "(") (hclose : close.is ")") (rest : Phrase) :
    parameters (paren :: (ts ++ close :: rest)) =
      .ok (list.map ParameterEntry.parameter, rest) := by
  have hfree : ∀ seg ∈ list.map ParameterEntry.tokens, Free "," seg ∧ Free ")" seg := by
    intro seg hseg
    obtain ⟨e, he, rfl⟩ := List.mem_map.mp hseg
    exact free_entry (hlist e he) (hsource e he)
  have hne : ∀ seg ∈ list.map ParameterEntry.tokens, seg ≠ [] := by
    intro seg hseg
    obtain ⟨e, -, rfl⟩ := List.mem_map.mp hseg
    simp [ParameterEntry.tokens, ParameterEntry.body]
  have hinner : Free ")" ts ∧ segments ts = list.map ParameterEntry.tokens := by
    rcases h with ⟨rfl, rfl⟩ | h
    · exact ⟨.nil _, rfl⟩
    · exact ⟨free_of_joined (by decide) h fun seg hseg => (hfree seg hseg).2,
        segments_of_joined h hne fun seg hseg => (hfree seg hseg).1⟩
  refine bind_eq_ok_iff.mpr ⟨_, expect_eq_ok_iff.mpr ⟨rfl, hparen⟩, bind_eq_ok_iff.mpr
    ⟨_, through_eq_ok_iff.mpr ⟨rfl, hinner.1, hclose⟩, ?_⟩⟩
  have hread : (list.map ParameterEntry.tokens).filterMap parameter? =
      list.map ParameterEntry.parameter := by
    rw [List.filterMap_map, ← List.filterMap_eq_map]
    exact List.filterMap_congr fun e he => parameter?_tokens (hlist e he) (hsource e he)
  dsimp only
  rw [hinner.2, hread]
  rfl

/-! ### Functions -/

lemma functionDefinition_read_iff {start : Token} {words : List String}
    {ts ts' rest after : Phrase} {name : FunctionName} {list : List Parameter}
    {f : FunctionDefinition} (hname : functionName words ts = .ok (name, ts'))
    (hlist : parameters ts' = .ok (list, rest)) :
    functionDefinition start words ts = .ok (f, after) ↔
      ∃ type behind body, returnType rest = .ok (type, behind) ∧ sees "=" behind = false ∧
        block behind = .ok (body, after) ∧
        f = ⟨words, name, list, type, body, start.span.through body.span⟩ := by
  rw [functionDefinition_eq_ok_iff]
  constructor
  · rintro ⟨name', after1, list', after2, type, behind, body, hname', hlist', hread⟩
    obtain ⟨rfl, rfl⟩ := Prod.mk.inj (Except.ok.inj (hname.symm.trans hname'))
    obtain ⟨rfl, rfl⟩ := Prod.mk.inj (Except.ok.inj (hlist.symm.trans hlist'))
    exact ⟨type, behind, body, hread⟩
  · rintro ⟨type, behind, body, hread⟩
    exact ⟨name, ts', list, rest, type, behind, body, hname, hlist, hread⟩

/-- The name of a function is read in front of any parameter list. -/
lemma functionName_append {words : List String} {front : Phrase} {paren : Token}
    {name : FunctionName} (h : functionName words (front ++ [paren]) = .ok (name, [paren]))
    (hparen : paren.is "(") (ts : Phrase) :
    functionName words (front ++ paren :: ts) = .ok (name, paren :: ts) := by
  obtain ⟨⟨word, after⟩, hword, hread⟩ := bind_eq_ok_iff.mp h
  obtain ⟨hfront, hidentifier⟩ := identifier_eq_ok_iff.mp hword
  dsimp only at hread
  split_ifs at hread with hresource hremote
  · obtain ⟨⟨path, left⟩, hpath, hdone⟩ := bind_eq_ok_iff.mp hread
    obtain ⟨rfl, rfl⟩ := hdone
    obtain ⟨rfl, hfree, -⟩ := upTo_eq_ok_iff.mp hpath
    obtain rfl : front = word :: path := List.append_cancel_right hfront
    refine bind_eq_ok_iff.mpr ⟨_, identifier_eq_ok_iff.mpr ⟨rfl, hidentifier⟩, ?_⟩
    simp only [hresource, if_true]
    exact bind_eq_ok_iff.mpr ⟨_, upTo_eq_ok_iff.mpr ⟨rfl, hfree, hparen⟩, rfl⟩
  · obtain ⟨rfl, rfl⟩ := hread
    obtain rfl : front = [word] := List.append_cancel_right hfront
    refine bind_eq_ok_iff.mpr ⟨_, identifier_eq_ok_iff.mpr ⟨rfl, hidentifier⟩, ?_⟩
    simp only [hresource, hremote, if_true, Bool.false_eq_true, if_false]
    rfl
  · obtain ⟨rfl, rfl⟩ := hread
    obtain rfl : front = [word] := List.append_cancel_right hfront
    refine bind_eq_ok_iff.mpr ⟨_, identifier_eq_ok_iff.mpr ⟨rfl, hidentifier⟩, ?_⟩
    simp only [hresource, hremote, Bool.false_eq_true, if_false]
    rfl

lemma map_parameter_bare_iff {list : List ParameterEntry} :
    list.map ParameterEntry.parameter = list.map (·.bare.parameter) ↔
      ∀ e ∈ list, ∀ a ∈ e.annotations, a.qualified = none := by
  rw [List.map_inj_left]
  refine forall₂_congr fun e _ => ?_
  rw [← leftover_eq_nil_iff]
  simp [ParameterEntry.parameter, ParameterEntry.bare, AnnotationText.leftover]

/-- A function whose parameters have annotations is read like the function without them, up to the
parameters. Each of these keeps what is left over of its annotations in its type, so they are the
same exactly if no annotation has a qualifier. The reader of annotations takes all of them. -/
theorem functionDefinition_annotated {start paren close : Token} {words : List String}
    {front ts us rest : Phrase} {name : FunctionName} {list : List ParameterEntry}
    (hname : functionName words (front ++ [paren]) = .ok (name, [paren])) (hparen : paren.is "(")
    (hclose : close.is ")") (hlist : ∀ e ∈ list, e.Sound) (hsource : Sourced ts)
    (hts : Lists list ts) (hus : Lists (list.map ParameterEntry.bare) us) :
    (∀ f after, functionDefinition start words (front ++ paren :: (ts ++ close :: rest)) =
        .ok (f, after) ↔
      ∃ f', functionDefinition start words (front ++ paren :: (us ++ close :: rest)) =
          .ok (f', after) ∧ f'.parameters = list.map (·.bare.parameter) ∧
        f = { f' with parameters := list.map ParameterEntry.parameter }) ∧
      (list.map ParameterEntry.parameter = list.map (·.bare.parameter) ↔
        ∀ e ∈ list, ∀ a ∈ e.annotations, a.qualified = none) ∧
      ∀ e ∈ list, annotations e.tokens = .ok (e.annotations.map (·.name), e.body) := by
  have hsourced : ∀ e ∈ list, Sourced e.tokens := by
    rcases hts with ⟨rfl, -⟩ | hjoined
    · simp
    · intro e he
      obtain ⟨before, after, rfl⟩ := infix_of_joined hjoined _ (List.mem_map_of_mem he)
      exact hsource.left.right
  have hbare : ∀ e ∈ list.map ParameterEntry.bare, e.Sound ∧ Sourced e.tokens := by
    intro e hmem
    obtain ⟨e, he, rfl⟩ := List.mem_map.mp hmem
    exact ⟨(hlist e he).bare, (hsourced e he).right⟩
  have hread := parameters_of_lists hlist hsourced hts hparen hclose rest
  have hread' := parameters_of_lists (fun e he => (hbare e he).1) (fun e he => (hbare e he).2) hus
    hparen hclose rest
  rw [List.map_map] at hread'
  refine ⟨fun f after => ?_, map_parameter_bare_iff, fun e he => ?_⟩
  · rw [functionDefinition_read_iff (functionName_append hname hparen _) hread]
    constructor
    · rintro ⟨type, behind, body, htype, hequal, hbody, rfl⟩
      exact ⟨_, (functionDefinition_read_iff (functionName_append hname hparen _) hread').mpr
        ⟨type, behind, body, htype, hequal, hbody, rfl⟩, rfl, rfl⟩
    · rintro ⟨f', hf', -, rfl⟩
      obtain ⟨type, behind, body, htype, hequal, hbody, rfl⟩ :=
        (functionDefinition_read_iff (functionName_append hname hparen _) hread').mp hf'
      exact ⟨type, behind, body, htype, hequal, hbody, rfl⟩
  · exact annotations_of_sound (hlist e he).annotations (hsourced e he).left (hlist e he).starts

/-- An annotation with a qualifier leaves the qualifier in the type. -/
theorem functionDefinition_annotated_qualified :
    ∃ ts f after paren close colon b int x,
      tokenize "f(@a:b int x) \x7b\x7d" = .ok ts ∧
      functionDefinition default [] ts = .ok (f, after) ∧
      f.parameters = [⟨[colon, b, int], "x", none⟩] ∧
      Phrase.lexemes [paren, int, x, close] =
        [(.punctuation, "("), (.identifier, "int"), (.identifier, "x"), (.punctuation, ")")] ∧
      ∃ f' word rest, functionDefinition default [] (word :: paren :: ([int, x] ++ close :: rest)) =
          .ok (f', after) ∧ f'.parameters = [⟨[int], "x", none⟩] := by
  have hread : (tokenize "f(@a:b int x) \x7b\x7d").toOption.any fun ts =>
      ts.lexemes = [(.identifier, "f"), (.punctuation, "("), (.punctuation, "@"),
        (.identifier, "a"), (.punctuation, ":"), (.identifier, "b"), (.identifier, "int"),
        (.identifier, "x"), (.punctuation, ")"), (.punctuation, "\x7b"), (.punctuation, "\x7d")] ∧
      (functionDefinition default [] ts).toOption.any fun _ => true := by
    decide +kernel
  obtain ⟨ts, hts, htest⟩ := exists_ok_of_any hread
  simp only [Bool.decide_and, Bool.and_eq_true, decide_eq_true_eq] at htest
  obtain ⟨hlexemes, hany⟩ := htest
  obtain ⟨⟨f, after⟩, hf, -⟩ := exists_ok_of_any hany
  obtain ⟨cs, last, -, hscanned, -⟩ := scanned_of_tokenize hts
  have hsource : Sourced ts := ⟨_, _, _, hscanned⟩
  simp only [Phrase.lexemes, List.map_eq_cons_iff, List.map_eq_nil_iff, Prod.mk.injEq] at hlexemes
  obtain ⟨word, _, rfl, ⟨hword, -⟩, paren, _, rfl, ⟨hparen, hparen'⟩, mark, _, rfl,
    ⟨hmark, hmark'⟩, a, _, rfl, ⟨ha, -⟩, colon, _, rfl, ⟨hcolon, hcolon'⟩, b, _, rfl, ⟨hb, -⟩,
    int, _, rfl, ⟨hint, hint'⟩, x, _, rfl, ⟨hx, hx'⟩, close, rest, rfl, ⟨hclose, hclose'⟩, -⟩ :=
    hlexemes
  have hname : functionName [] ([word] ++ [paren]) = .ok (.plain word.text, [paren]) := by
    simp [functionName, identifier, readIf, Token.isIdentifier, hword, bind, Except.bind, pure,
      Except.pure]
  have hentry : (⟨[⟨mark, a, some (colon, b), []⟩], [int], x, none⟩ : ParameterEntry).Sound := by
    refine ⟨fun c hc => ?_, ?_, ?_, ?_, ?_⟩
    · obtain rfl := List.mem_singleton.mp hc
      refine ⟨by simp [Token.is, hmark, hmark'], by simp [Token.isIdentifier, ha], ?_, .inl rfl⟩
      rintro _ _ ⟨⟩
      exact ⟨by simp [Token.is, hcolon, hcolon'], by simp [Token.isIdentifier, hb]⟩
    · simp [ParameterEntry.body, sees, Token.is, hint']
    · simp [Free, depthAfter?, Token.is, Token.isOpener, Token.isCloser, hint, hint', hx, hx']
    · simp
    · simp [ParameterEntry.body, Free, depthAfter?, Token.is, Token.isOpener, Token.isCloser, hint,
        hint', hx, hx']
  obtain ⟨hiff, -, -⟩ := @functionDefinition_annotated default paren close [] [word]
    [mark, a, colon, b, int, x] [int, x] rest _ [⟨[⟨mark, a, some (colon, b), []⟩], [int], x, none⟩]
    hname (by simp [Token.is, hparen, hparen']) (by simp [Token.is, hclose, hclose'])
    (fun e he => by rw [List.mem_singleton.mp he]; exact hentry)
    (@Sourced.left _ (close :: rest) hsource.tail.tail) (.inr .single) (.inr .single)
  obtain ⟨f', hf', hbare, rfl⟩ := (hiff f after).mp hf
  refine ⟨_, _, after, paren, close, colon, b, int, x, hts, hf, ?_, ?_, f', word, rest, hf', ?_⟩
  · simp [ParameterEntry.parameter, AnnotationText.leftover, AnnotationText.remainder, hx']
  · simp [Phrase.lexemes, hparen, hparen', hint, hint', hx, hx', hclose, hclose']
  · rw [hbare]
    simp [ParameterEntry.parameter, ParameterEntry.bare, AnnotationText.leftover, hx']

end Parser

end FlowCanvas
