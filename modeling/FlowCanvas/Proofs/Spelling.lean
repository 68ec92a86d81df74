import FlowCanvas.Proofs.Brackets
import FlowCanvas.Source.Parser.Statement

/-!
# How statements without blocks are spelled

`SpellsLeaf s ts rest` is the grammar of statements that hold no others: the tokens `ts` in front
of `rest` are the statement `s`, with every part, span and mark where the reader takes it from.
Only an unsupported statement looks at `rest`, for an `on` that would go on with it.
-/

namespace FlowCanvas.Parser

open Brackets

/-! ### Declarations -/

/-- A phrase is read as `[type] name [= value]`. -/
inductive DeclaredAs : Phrase → Phrase → Token → Option Expression → Prop
  | bare {type : Phrase} {name : Token} (hleft : Free "=" (type ++ [name]))
    (hname : name.isIdentifier) : DeclaredAs (type ++ [name]) type name none
  | valued {type : Phrase} {name equal : Token} {value : Expression}
    (hleft : Free "=" (type ++ [name])) (hname : name.isIdentifier) (hequal : equal.is "=") :
    DeclaredAs (type ++ name :: equal :: value.tokens) type name (some value)

lemma cutOrAll_of_free {mark : String} {ts : Phrase} (h : Free mark ts) :
    cutOrAll mark ts = (ts, none) := by
  rw [cutOrAll, cut_of_free h]

lemma cutOrAll_append {mark : String} {before after : Phrase} {found : Token}
    (h : Free mark before) (hfound : found.is mark) :
    cutOrAll mark (before ++ found :: after) = (before, some after) := by
  rw [cutOrAll, cut_eq_some_iff.mpr ⟨rfl, h, hfound⟩]

/-- A phrase whose brackets match is divided at a mark or is free of it. -/
lemma cutOrAll_cases {mark : String} {ts : Phrase} (mark' : String) (h : Free mark ts) :
    (cutOrAll mark' ts = (ts, none) ∧ Free mark' ts) ∨
      ∃ before found after, ts = before ++ found :: after ∧ Free mark' before ∧ found.is mark' ∧
        cutOrAll mark' ts = (before, some after) := by
  cases hcut : cut mark' ts with
  | none =>
    have hfree := free_of_cut_eq_none h hcut
    exact .inl ⟨cutOrAll_of_free hfree, hfree⟩
  | some result =>
    obtain ⟨before, found, after⟩ := result
    obtain ⟨rfl, hfree, hfound⟩ := cut_eq_some_iff.mp hcut
    exact .inr ⟨before, found, after, rfl, hfree, hfound, cutOrAll_append hfree hfound⟩

lemma expression_eq_ok_iff {next : Token} {ts : Phrase} {e : Expression} :
    expression next ts = .ok e ↔ ts = e.tokens := by
  obtain ⟨first, rest⟩ := e
  cases ts with
  | nil => simp [expression, Expression.tokens]
  | cons t ts => simp [expression, Expression.tokens]

/-- A declaration is read exactly where one is spelled. -/
theorem declaration_eq_ok_iff {start : Token} {annotations qualifiers : List String}
    {ts rest : Phrase} {d : Declaration} :
    declaration start annotations qualifiers ts = .ok (d, rest) ↔
      ∃ body semicolon type name value, ts = body ++ semicolon :: rest ∧ Free ";" body ∧
        semicolon.is ";" ∧ DeclaredAs body type name value ∧
        d = ⟨annotations, qualifiers, type, name.text, value,
          start.span.through semicolon.span⟩ := by
  constructor
  · intro h
    obtain ⟨⟨⟨body, semicolon⟩, left⟩, hthrough, h⟩ := bind_eq_ok_iff.mp h
    obtain ⟨rfl, hbody, hsemicolon⟩ := through_eq_ok_iff.mp hthrough
    rcases cutOrAll_cases "=" hbody with
      ⟨hcut, hfree⟩ | ⟨before, found, after, rfl, hfree, hfound, hcut⟩
    · simp only [hcut] at h
      split at h
      · simp at h
      · rename_i name hlast
        obtain ⟨type, rfl⟩ := List.getLast?_eq_some_iff.mp hlast
        split at h
        · rename_i hname
          obtain ⟨value, hvalue, h⟩ := bind_eq_ok_iff.mp h
          simp only [initializer, Except.ok.injEq] at hvalue
          subst hvalue
          simp only [pure, Except.pure, Except.ok.injEq, Prod.mk.injEq,
            List.dropLast_concat] at h
          obtain ⟨rfl, rfl⟩ := h
          exact ⟨_, semicolon, type, name, none, rfl, hbody, hsemicolon, .bare hfree hname, rfl⟩
        · simp at h
    · simp only [hcut] at h
      split at h
      · simp at h
      · rename_i name hlast
        obtain ⟨type, rfl⟩ := List.getLast?_eq_some_iff.mp hlast
        split at h
        · rename_i hname
          obtain ⟨value, hvalue, h⟩ := bind_eq_ok_iff.mp h
          cases hexpression : expression semicolon after with
          | error e => simp [initializer, hexpression, Except.map] at hvalue
          | ok e =>
            simp only [initializer, hexpression, Except.map, Except.ok.injEq] at hvalue
            subst hvalue
            obtain rfl := expression_eq_ok_iff.mp hexpression
            simp only [pure, Except.pure, List.dropLast_concat] at h
            obtain ⟨rfl, rfl⟩ := h
            refine ⟨_, semicolon, type, name, some e, rfl, hbody, hsemicolon, ?_, rfl⟩
            simpa using DeclaredAs.valued hfree hname hfound
        · simp at h
  · rintro ⟨body, semicolon, type, name, value, rfl, hbody, hsemicolon, hdeclared, rfl⟩
    refine bind_eq_ok_iff.mpr ⟨_, through_eq_ok_iff.mpr ⟨rfl, hbody, hsemicolon⟩, ?_⟩
    cases hdeclared with
    | bare hleft hname =>
      simp [cutOrAll_of_free hleft, hname, initializer, bind, Except.bind, pure, Except.pure]
    | @valued _ _ equal e hleft hname hequal =>
      have hcut : cutOrAll "=" (type ++ [name] ++ equal :: e.tokens) =
          (type ++ [name], some e.tokens) := cutOrAll_append hleft hequal
      rw [List.append_assoc, List.singleton_append] at hcut
      simp [hcut, hname, initializer, expression_eq_ok_iff.mpr rfl, Except.map, bind, Except.bind,
        pure, Except.pure]

/-! ### Annotations -/

lemma is_inj {t : Token} {mark mark' : String} (h : t.is mark) (h' : t.is mark') :
    mark = mark' := by
  simp only [Token.is, Bool.and_eq_true, beq_iff_eq] at h h'
  rw [← h.2, h'.2]

lemma is_eq_false {t : Token} {mark mark' : String} (h : t.is mark) (hne : mark ≠ mark') :
    t.is mark' = false := by
  by_contra hmark
  exact hne (is_inj h (by simpa using hmark))

lemma dropGroupFrom_spec {depth : Nat} {ts rest : Phrase}
    (h : dropGroupFrom depth ts = some rest) :
    ∃ group, ts = group ++ rest ∧ ∀ rest', dropGroupFrom depth (group ++ rest') = some rest' := by
  fun_induction dropGroupFrom depth ts with
  | case1 => simp at h
  | case2 depth t ts hopen ih =>
    obtain ⟨group, rfl, hall⟩ := ih h
    exact ⟨t :: group, rfl, fun rest' => by simp [dropGroupFrom, hopen, hall]⟩
  | case3 depth t ts hopen hclose hdepth =>
    obtain rfl := Option.some.inj h
    exact ⟨[t], rfl, fun rest' => by simp [dropGroupFrom, hopen, hclose, hdepth]⟩
  | case4 depth t ts hopen hclose hdepth ih =>
    obtain ⟨group, rfl, hall⟩ := ih h
    exact ⟨t :: group, rfl, fun rest' => by simp [dropGroupFrom, hopen, hclose, hdepth, hall]⟩
  | case5 depth t ts hopen hclose ih =>
    obtain ⟨group, rfl, hall⟩ := ih h
    exact ⟨t :: group, rfl, fun rest' => by simp [dropGroupFrom, hopen, hclose, hall]⟩

lemma sees_congr {mark : String} {ts us : Phrase} (h : ts.head? = us.head?) :
    sees mark ts = sees mark us := by
  cases ts <;> cases us <;> simp_all [sees]

lemma eat_append {mark : String} {ts us : Phrase} (h : eat mark ts = none)
    (hhead : us.head? = ts.head?) : eat mark us = none := by
  rw [eat_eq_none_iff] at h ⊢
  rw [sees_congr hhead, h]

/-- The name of an annotation is read alike in front of everything that starts alike. -/
lemma annotationName_spec {ts rest : Phrase} {name : String}
    (h : annotationName ts = .ok (name, rest)) :
    ∃ used, ts = used ++ rest ∧ used ≠ [] ∧
      ∀ rest', rest'.head? = rest.head? → annotationName (used ++ rest') = .ok (name, rest') := by
  obtain ⟨⟨first, after⟩, hfirst, hread⟩ := bind_eq_ok_iff.mp h
  obtain ⟨rfl, hidentifier⟩ := identifier_eq_ok_iff.mp hfirst
  dsimp only at hread
  split at hread
  · rename_i hcolon
    obtain ⟨rfl, rfl⟩ := hread
    refine ⟨[first], rfl, by simp, fun rest' hhead => ?_⟩
    refine bind_eq_ok_iff.mpr ⟨(first, rest'), identifier_eq_ok_iff.mpr ⟨rfl, hidentifier⟩, ?_⟩
    simp only [eat_append hcolon hhead]
    rfl
  · rename_i after' heat
    obtain ⟨colon, rfl, hcolon⟩ := eat_eq_some_iff.mp heat
    obtain ⟨⟨second, left⟩, hsecond, hread'⟩ := bind_eq_ok_iff.mp hread
    obtain ⟨rfl, hidentifier'⟩ := identifier_eq_ok_iff.mp hsecond
    obtain ⟨rfl, rfl⟩ := hread'
    refine ⟨[first, colon, second], rfl, by simp, fun rest' _ => ?_⟩
    refine bind_eq_ok_iff.mpr
      ⟨(first, colon :: second :: rest'), identifier_eq_ok_iff.mpr ⟨rfl, hidentifier⟩, ?_⟩
    have heat' : eat ":" (colon :: second :: rest') = some (second :: rest') :=
      eat_eq_some_iff.mpr ⟨colon, rfl, hcolon⟩
    simp only [heat']
    exact bind_eq_ok_iff.mpr
      ⟨(second, rest'), identifier_eq_ok_iff.mpr ⟨rfl, hidentifier'⟩, rfl⟩

lemma annotationValue_spec {ts rest : Phrase} (h : annotationValue ts = .ok rest) :
    ∃ used, ts = used ++ rest ∧
      ∀ rest', rest'.head? = rest.head? → annotationValue (used ++ rest') = .ok rest' := by
  rw [annotationValue] at h
  split at h
  · rename_i hsees
    cases ts with
    | nil => simp [sees] at hsees
    | cons t ts =>
      split at h
      · rename_i rest' hdrop
        obtain rfl := Except.ok.inj h
        rw [dropGroup] at hdrop
        split at hdrop
        · rename_i hopen
          obtain ⟨group, rfl, hall⟩ := dropGroupFrom_spec hdrop
          refine ⟨t :: group, rfl, fun rest' _ => ?_⟩
          have hsees' : sees "\x7b" (t :: (group ++ rest')) = true := hsees
          rw [List.cons_append, annotationValue, if_pos hsees']
          simp [dropGroup, hopen, hall]
        · rename_i hopen
          obtain rfl := Option.some.inj hdrop
          refine ⟨[t], rfl, fun rest' _ => ?_⟩
          have hsees' : sees "\x7b" (t :: rest') = true := hsees
          rw [List.singleton_append, annotationValue, if_pos hsees']
          simp [dropGroup, hopen]
      · simp at h
  · rename_i hsees
    obtain rfl := Except.ok.inj h
    refine ⟨[], rfl, fun rest' hhead => ?_⟩
    rw [List.nil_append, annotationValue, if_neg]
    rw [sees_congr hhead]
    exact hsees

/-- Annotations are read alike in front of everything that starts alike, given enough tokens. -/
lemma annotationsFrom_spec {n : Nat} {ts rest : Phrase} {names : List String}
    (h : annotationsFrom n ts = .ok (names, rest)) (hn : ts.length ≤ n) :
    ∃ used, ts = used ++ rest ∧ (names = [] → used = []) ∧ (sees "@" ts → used ≠ []) ∧
      sees "@" rest = false ∧ ∀ rest' m, rest'.head? = rest.head? → used.length ≤ m →
        annotationsFrom m (used ++ rest') = .ok (names, rest') := by
  induction n generalizing ts names with
  | zero =>
    obtain rfl : ts = [] := List.length_eq_zero_iff.mp (Nat.le_zero.mp hn)
    obtain ⟨rfl, rfl⟩ := h
    refine ⟨[], rfl, fun _ => rfl, fun hat => by simp [sees] at hat, rfl,
      fun rest' m hhead _ => ?_⟩
    obtain rfl : rest' = [] := by
      cases rest' with
      | nil => rfl
      | cons t rest' => simp at hhead
    cases m with
    | zero => rfl
    | succ m => rfl
  | succ n ih =>
    rw [annotationsFrom] at h
    split at h
    · rename_i hat
      obtain ⟨rfl, rfl⟩ := h
      rw [eat_eq_none_iff] at hat
      refine ⟨[], rfl, fun _ => rfl, fun hsees => by simp [hat] at hsees, hat,
        fun rest' m hhead _ => ?_⟩
      rw [← eat_eq_none_iff] at hat
      cases m with
      | zero => rfl
      | succ m => simp [annotationsFrom, eat_append hat hhead]
    · rename_i after hat
      obtain ⟨mark, rfl, hmark⟩ := eat_eq_some_iff.mp hat
      obtain ⟨⟨name, after1⟩, hname, h⟩ := bind_eq_ok_iff.mp h
      obtain ⟨after2, hvalue, h⟩ := bind_eq_ok_iff.mp h
      obtain ⟨⟨names', after3⟩, hnames, h⟩ := bind_eq_ok_iff.mp h
      obtain ⟨rfl, rfl⟩ := h
      obtain ⟨used1, rfl, hne, hall1⟩ := annotationName_spec hname
      obtain ⟨used2, rfl, hall2⟩ := annotationValue_spec hvalue
      obtain ⟨used3, rfl, -, -, hend, hall3⟩ := ih hnames (by simp at hn; omega)
      refine ⟨mark :: (used1 ++ (used2 ++ used3)), by simp, by simp, by simp, hend,
        fun rest' m hhead hm => ?_⟩
      cases m with
      | zero => simp at hm
      | succ m =>
        have hsame : (used3 ++ rest').head? = (used3 ++ rest).head? := by
          cases used3 with
          | nil => simpa using hhead
          | cons => rfl
        have hsame' : (used2 ++ (used3 ++ rest')).head? = (used2 ++ (used3 ++ rest)).head? := by
          cases used2 with
          | nil => simpa using hsame
          | cons => rfl
        have hread1 := hall1 _ hsame'
        have hread2 := hall2 _ hsame
        have hread3 := hall3 rest' m hhead (by simp at hm; omega)
        have heat : eat "@" (mark :: (used1 ++ (used2 ++ used3)) ++ rest') =
            some (used1 ++ (used2 ++ (used3 ++ rest'))) :=
          eat_eq_some_iff.mpr ⟨mark, by simp, hmark⟩
        rw [annotationsFrom, heat]
        exact bind_eq_ok_iff.mpr ⟨_, hread1, bind_eq_ok_iff.mpr ⟨_, hread2,
          bind_eq_ok_iff.mpr ⟨_, hread3, rfl⟩⟩⟩

lemma annotations_spec {ts rest : Phrase} {names : List String}
    (h : annotations ts = .ok (names, rest)) :
    ∃ used, ts = used ++ rest ∧ (names = [] → used = []) ∧ (sees "@" ts → used ≠ []) ∧
      sees "@" rest = false ∧
      ∀ rest', rest'.head? = rest.head? → annotations (used ++ rest') = .ok (names, rest') := by
  obtain ⟨used, hused, hempty, hat, hend, hall⟩ := annotationsFrom_spec h (Nat.le_refl _)
  exact ⟨used, hused, hempty, hat, hend, fun rest' hhead => hall rest' _ hhead (by simp)⟩

/-! ### Skipped statements -/

/-- A skipped statement is skipped alike in front of everything that does not go on with it. -/
lemma skipStatement_spec {depth : Nat} {ts rest : Phrase} {last : Token}
    (h : skipStatement depth ts = .ok (last, rest)) :
    ∃ used, ts = used ++ rest ∧ used.getLast? = some last ∧
      (last.is "\x7d" → sees "on" rest = false) ∧
      ∀ rest', (last.is "\x7d" → sees "on" rest' = false) →
        skipStatement depth (used ++ rest') = .ok (last, rest') := by
  fun_induction skipStatement depth ts with
  | case1 depth => simp at h
  | case2 depth t ts hopen ih =>
    obtain ⟨used, rfl, hlast, hon, hall⟩ := ih h
    refine ⟨t :: used, rfl, by simp [List.getLast?_cons, hlast], hon, fun rest' hon' => ?_⟩
    rw [List.cons_append, skipStatement.eq_def]
    simp only [hopen, if_true]
    exact hall rest' hon'
  | case3 t ts hopen hclose => simp at h
  | case4 t ts hopen hclose depth hend =>
    obtain ⟨rfl, rfl⟩ := h
    simp only [Bool.and_eq_true, beq_iff_eq, Bool.not_eq_true'] at hend
    refine ⟨[last], rfl, rfl, fun _ => hend.2, fun rest' hon' => ?_⟩
    simp [skipStatement, hopen, hclose, hend.1.1, hend.1.2, hon' hend.1.2]
  | case5 t ts hopen hclose depth hend ih =>
    obtain ⟨used, rfl, hlast, hon, hall⟩ := ih h
    refine ⟨t :: used, rfl, by simp [List.getLast?_cons, hlast], hon, fun rest' hon' => ?_⟩
    have hsees : sees "on" (used ++ rest') = sees "on" (used ++ rest) := by
      cases used with
      | nil => simp at hlast
      | cons => rfl
    rw [List.cons_append, skipStatement.eq_def]
    simp only [hopen, hclose, Bool.false_eq_true, if_false, if_true, hsees, hend]
    exact hall rest' hon'
  | case6 depth t ts hopen hclose hend =>
    obtain ⟨rfl, rfl⟩ := h
    simp only [Bool.and_eq_true, beq_iff_eq] at hend
    refine ⟨[last], rfl, rfl, fun hbrace => ?_, fun rest' _ => ?_⟩
    · exact absurd (is_inj hend.2 hbrace) (by decide)
    · simp [skipStatement, hopen, hclose, hend.1, hend.2]
  | case7 depth t ts hopen hclose hend ih =>
    obtain ⟨used, rfl, hlast, hon, hall⟩ := ih h
    refine ⟨t :: used, rfl, by simp [List.getLast?_cons, hlast], hon, fun rest' hon' => ?_⟩
    rw [List.cons_append, skipStatement.eq_def]
    simp only [hopen, hclose, hend, Bool.false_eq_true, if_false]
    exact hall rest' hon'

/-! ### The grammar -/

/-- The tokens that a statement of a form of its own starts with. -/
def leads (t : Token) : Bool :=
  t.isWord unsupportedWords ||
    t.isWord ["if", "while", "return", "fail", "panic", "break", "continue"] ||
    t.is "\x7b" || t.is "@" || t.is "final"

/-- The tokens of an operand that may be missing. -/
def operand (value : Option Expression) : Phrase := (value.map Expression.tokens).getD []

/-- The word `final` and the qualifier it stands for, in front of `next`. -/
inductive SpellsFinal : Phrase → List String → Phrase → Prop
  | absent {next : Phrase} (h : sees "final" next = false) : SpellsFinal [] [] next
  | present {word : Token} {next : Phrase} (h : word.is "final") :
    SpellsFinal [word] ["final"] next

/-- The tokens `ts` in front of `rest` are a statement that holds no others. -/
inductive SpellsLeaf : Statement → Phrase → Phrase → Prop
  | declaration {start name semicolon : Token} {body type rest : Phrase}
    {value : Option Expression} (hstart : body.head? = some start) (hlead : leads start = false)
    (hbody : Free ";" body) (hsemicolon : semicolon.is ";")
    (hdeclared : DeclaredAs body type name value) (hlooks : looksDeclared (type ++ [name])) :
    SpellsLeaf (.declaration
      ⟨[], [], type, name.text, value, start.span.through semicolon.span⟩)
      (body ++ [semicolon]) rest
  | marked {start name semicolon : Token} {annotated finals body type rest : Phrase}
    {names qualifiers : List String} {value : Option Expression}
    (hstart : (annotated ++ finals).head? = some start) (hlead : start.is "@" || start.is "final")
    (hannotated : annotations (annotated ++ (finals ++ (body ++ [semicolon]))) =
      .ok (names, finals ++ (body ++ [semicolon])))
    (hfinals : SpellsFinal finals qualifiers (body ++ [semicolon]))
    (hbody : Free ";" body) (hsemicolon : semicolon.is ";")
    (hdeclared : DeclaredAs body type name value) :
    SpellsLeaf (.declaration
      ⟨names, qualifiers, type, name.text, value, start.span.through semicolon.span⟩)
      (annotated ++ (finals ++ (body ++ [semicolon]))) rest
  | assignment {start equal semicolon : Token} {target rest : Phrase} {value : Expression}
    (hstart : target.head? = some start) (hlead : leads start = false)
    (hbody : Free ";" (target ++ equal :: value.tokens)) (hsemicolon : semicolon.is ";")
    (htarget : Free "=" target) (hequal : equal.is "=") (hlooks : looksDeclared target = false) :
    SpellsLeaf (.assignment target value (start.span.through semicolon.span))
      (target ++ equal :: value.tokens ++ [semicolon]) rest
  | expression {semicolon : Token} {rest : Phrase} {value : Expression}
    (hlead : leads value.first = false) (hbody : Free ";" value.tokens)
    (hsemicolon : semicolon.is ";") (hvalue : Free "=" value.tokens)
    (hlooks : looksDeclared value.tokens = false) :
    SpellsLeaf (.expression value (value.first.span.through semicolon.span))
      (value.tokens ++ [semicolon]) rest
  | exit {kind : ExitKind} {word semicolon : Token} {value : Option Expression} {rest : Phrase}
    (hword : word.isWord [kind.word]) (hbody : Free ";" (operand value))
    (hsemicolon : semicolon.is ";") (hpanic : kind = .panic → value.isSome) :
    SpellsLeaf (.exit kind value (word.span.through semicolon.span))
      (word :: (operand value ++ [semicolon])) rest
  | jump {kind : JumpKind} {word semicolon : Token} {rest : Phrase}
    (hword : word.isWord [kind.word]) (hsemicolon : semicolon.is ";") :
    SpellsLeaf (.jump kind (word.span.through semicolon.span)) [word, semicolon] rest
  | unsupported {start last : Token} {ts rest : Phrase}
    (hstart : start.isWord unsupportedWords)
    (hskip : skipStatement 0 (start :: ts) = .ok (last, []))
    (hon : last.is "\x7d" → sees "on" rest = false) :
    SpellsLeaf (.unsupported start.text (start.span.through last.span)) (start :: ts) rest
  | braces {start last : Token} {ts rest : Phrase}
    (hstart : start.is "\x7b") (hskip : skipStatement 0 (start :: ts) = .ok (last, []))
    (hon : last.is "\x7d" → sees "on" rest = false) :
    SpellsLeaf (.unsupported "block" (start.span.through last.span)) (start :: ts) rest

/-! ### Readers of leaves -/

/-- The body of a simple statement and what stands in front of its first `=`. -/
lemma simpleStatement_eq {start semicolon : Token} {body rest : Phrase} (hbody : Free ";" body)
    (hsemicolon : semicolon.is ";") :
    simpleStatement start (body ++ semicolon :: rest) =
      (if looksDeclared (cutOrAll "=" body).1 then do
        let (declared, rest) ← declaration start [] [] (body ++ semicolon :: rest)
        return (.declaration declared, rest)
      else
        match (cutOrAll "=" body).2 with
        | some value =>
          if (cutOrAll "=" body).1.isEmpty then
            .error (errorAt "an assignment target" (body ++ semicolon :: rest))
          else do
            let value ← expression semicolon value
            return (.assignment (cutOrAll "=" body).1 value
              (start.span.through semicolon.span), rest)
        | none => do
          let value ← expression semicolon body
          return (.expression value (start.span.through semicolon.span), rest)) := by
  unfold simpleStatement
  rw [through_eq_ok_iff.mpr ⟨rfl, hbody, hsemicolon⟩]
  rfl

lemma head?_of_cons_eq_append {start semicolon : Token} {ts body rest : Phrase}
    (h : start :: ts = body ++ semicolon :: rest) (hne : body ≠ []) :
    body.head? = some start := by
  cases body with
  | nil => exact absurd rfl hne
  | cons t body => simpa using (List.cons.inj h).1.symm

lemma DeclaredAs.ne_nil {body type : Phrase} {name : Token} {value : Option Expression}
    (h : DeclaredAs body type name value) : body ≠ [] := by
  cases h <;> simp

lemma DeclaredAs.cutOrAll {body type : Phrase} {name : Token} {value : Option Expression}
    (h : DeclaredAs body type name value) : (cutOrAll "=" body).1 = type ++ [name] := by
  cases h with
  | bare hleft _ => rw [cutOrAll_of_free hleft]
  | @valued _ _ equal e hleft _ hequal =>
    have hcut : Brackets.cutOrAll "=" (type ++ [name] ++ equal :: e.tokens) =
        (type ++ [name], some e.tokens) := cutOrAll_append hleft hequal
    rw [List.append_assoc, List.singleton_append] at hcut
    rw [hcut]

lemma spellsLeaf_of_simpleStatement {start : Token} {ts rest : Phrase} {s : Statement}
    (hlead : leads start = false) (h : simpleStatement start (start :: ts) = .ok (s, rest)) :
    ∃ used, start :: ts = used ++ rest ∧ SpellsLeaf s used rest := by
  obtain ⟨⟨⟨body, semicolon⟩, left⟩, hthrough, -⟩ := bind_eq_ok_iff.mp h
  obtain ⟨heq, hbody, hsemicolon⟩ := through_eq_ok_iff.mp hthrough
  rw [heq, simpleStatement_eq hbody hsemicolon] at h
  split at h
  · rename_i hlooks
    obtain ⟨⟨d, after⟩, hdeclaration, h⟩ := bind_eq_ok_iff.mp h
    obtain ⟨rfl, rfl⟩ := h
    obtain ⟨body', semicolon', type, name, value, heq', hbody', hsemicolon', hdeclared, rfl⟩ :=
      declaration_eq_ok_iff.mp hdeclaration
    have hsame := hthrough.symm.trans
      (through_eq_ok_iff.mpr ⟨heq.trans heq', hbody', hsemicolon'⟩)
    simp only [Except.ok.injEq, Prod.mk.injEq] at hsame
    obtain ⟨⟨rfl, rfl⟩, rfl⟩ := hsame
    rw [hdeclared.cutOrAll] at hlooks
    refine ⟨body ++ [semicolon], by simp [heq], ?_⟩
    exact .declaration (head?_of_cons_eq_append heq hdeclared.ne_nil) hlead hbody hsemicolon
      hdeclared hlooks
  · rename_i hlooks
    rw [Bool.not_eq_true] at hlooks
    rcases cutOrAll_cases "=" hbody with
      ⟨hcut, hfree⟩ | ⟨target, equal, after, rfl, hfree, hequal, hcut⟩
    · simp only [hcut] at h hlooks
      obtain ⟨value, hvalue, h⟩ := bind_eq_ok_iff.mp h
      obtain rfl := expression_eq_ok_iff.mp hvalue
      obtain ⟨rfl, rfl⟩ := h
      have hfirst := head?_of_cons_eq_append heq (by simp [Expression.tokens])
      obtain rfl : value.first = start := by simpa [Expression.tokens] using hfirst
      exact ⟨value.tokens ++ [semicolon], by simp [heq],
        .expression hlead hbody hsemicolon hfree hlooks⟩
    · simp only [hcut] at h hlooks
      split at h
      · simp at h
      · rename_i hempty
        obtain ⟨value, hvalue, h⟩ := bind_eq_ok_iff.mp h
        obtain rfl := expression_eq_ok_iff.mp hvalue
        obtain ⟨rfl, rfl⟩ := h
        refine ⟨target ++ equal :: value.tokens ++ [semicolon], by simp [heq], ?_⟩
        refine .assignment ?_ hlead hbody hsemicolon hfree hequal hlooks
        rw [List.append_assoc, List.cons_append] at heq
        exact head?_of_cons_eq_append heq (by simpa using hempty)

lemma skipStatement_of_used {start last : Token} {ts rest : Phrase}
    (h : skipStatement 0 (start :: ts) = .ok (last, rest)) :
    ∃ used, ts = used ++ rest ∧ skipStatement 0 (start :: used) = .ok (last, []) ∧
      (last.is "\x7d" → sees "on" rest = false) := by
  obtain ⟨used, heq, hlast, hon, hall⟩ := skipStatement_spec h
  cases used with
  | nil => simp at hlast
  | cons t used =>
    obtain ⟨rfl, rfl⟩ := List.cons.inj heq
    exact ⟨used, rfl, by simpa using hall [] (fun _ => rfl), hon⟩

lemma skipStatement_append {last : Token} {ts rest : Phrase}
    (h : skipStatement 0 ts = .ok (last, []))
    (hon : last.is "\x7d" → sees "on" rest = false) :
    skipStatement 0 (ts ++ rest) = .ok (last, rest) := by
  obtain ⟨used, rfl, -, -, hall⟩ := skipStatement_spec h
  simpa using hall rest hon

lemma spellsLeaf_of_exit {kind : ExitKind} {start : Token} {ts rest : Phrase} {s : Statement}
    (hword : start.isWord [kind.word]) (h : exit kind start ts = .ok (s, rest)) :
    ∃ used, start :: ts = used ++ rest ∧ SpellsLeaf s used rest := by
  obtain ⟨⟨⟨body, semicolon⟩, left⟩, hthrough, hread⟩ := bind_eq_ok_iff.mp h
  obtain ⟨rfl, hbody, hsemicolon⟩ := through_eq_ok_iff.mp hthrough
  cases body with
  | nil =>
    dsimp only at hread
    split at hread
    · simp at hread
    · rename_i hkind
      obtain ⟨rfl, rfl⟩ := hread
      refine ⟨start :: (operand none ++ [semicolon]), rfl, ?_⟩
      exact .exit hword hbody hsemicolon (fun hpanic => absurd hpanic (by simpa using hkind))
  | cons t body =>
    obtain ⟨rfl, rfl⟩ := hread
    refine ⟨start :: (operand (some ⟨t, body⟩) ++ [semicolon]), ?_, ?_⟩
    · simp [operand, Expression.tokens]
    · exact .exit hword hbody hsemicolon (fun _ => rfl)

lemma spellsLeaf_of_jump {kind : JumpKind} {start : Token} {ts rest : Phrase} {s : Statement}
    (hword : start.isWord [kind.word]) (h : jump kind start ts = .ok (s, rest)) :
    ∃ used, start :: ts = used ++ rest ∧ SpellsLeaf s used rest := by
  obtain ⟨⟨semicolon, left⟩, hexpect, hread⟩ := bind_eq_ok_iff.mp h
  obtain ⟨rfl, hsemicolon⟩ := expect_eq_ok_iff.mp hexpect
  obtain ⟨rfl, rfl⟩ := hread
  exact ⟨[start, semicolon], rfl, .jump hword hsemicolon⟩

lemma spellsFinal_cases (ts : Phrase) :
    ∃ finals next qualifiers, ts = finals ++ next ∧ SpellsFinal finals qualifiers next := by
  cases heat : eat "final" ts with
  | none => exact ⟨[], ts, [], rfl, .absent (eat_eq_none_iff.mp heat)⟩
  | some next =>
    obtain ⟨word, rfl, hword⟩ := eat_eq_some_iff.mp heat
    exact ⟨[word], next, ["final"], rfl, .present hword⟩

lemma markedDeclaration_eq {start : Token} {ts finals next : Phrase}
    {names qualifiers : List String} (hannotations : annotations ts = .ok (names, finals ++ next))
    (hfinals : SpellsFinal finals qualifiers next) :
    markedDeclaration start ts = (do
      let (declared, rest) ← declaration start names qualifiers next
      return (.declaration declared, rest)) := by
  unfold markedDeclaration
  rw [hannotations]
  cases hfinals with
  | absent h => simp [bind, Except.bind, eat_eq_none_iff.mpr h]
  | @present word _ h =>
    have heat : eat "final" (word :: next) = some next := eat_eq_some_iff.mpr ⟨word, rfl, h⟩
    simp [bind, Except.bind, heat]

lemma SpellsFinal.congr {finals next next' : Phrase} {qualifiers : List String}
    (h : SpellsFinal finals qualifiers next) (hhead : next'.head? = next.head?) :
    SpellsFinal finals qualifiers next' := by
  cases h with
  | absent h => exact .absent (by rw [sees_congr hhead, h])
  | present h => exact .present h

lemma spellsLeaf_of_markedDeclaration {start : Token} {ts rest : Phrase} {s : Statement}
    (hlead : start.is "@" || start.is "final")
    (h : markedDeclaration start (start :: ts) = .ok (s, rest)) :
    ∃ used, start :: ts = used ++ rest ∧ SpellsLeaf s used rest := by
  obtain ⟨⟨names, after⟩, hannotations, -⟩ := bind_eq_ok_iff.mp h
  obtain ⟨annotated, heq, -, hat, -, hall⟩ := annotations_spec hannotations
  obtain ⟨finals, next, qualifiers, rfl, hfinals⟩ := spellsFinal_cases after
  rw [markedDeclaration_eq hannotations hfinals] at h
  obtain ⟨⟨d, left⟩, hdeclaration, hread⟩ := bind_eq_ok_iff.mp h
  obtain ⟨rfl, rfl⟩ := hread
  obtain ⟨body, semicolon, type, name, value, rfl, hbody, hsemicolon, hdeclared, rfl⟩ :=
    declaration_eq_ok_iff.mp hdeclaration
  have hhead : (body ++ [semicolon]).head? = (body ++ semicolon :: rest).head? := by
    cases body <;> rfl
  have hhead' : (finals ++ (body ++ [semicolon])).head? =
      (finals ++ (body ++ semicolon :: rest)).head? := by
    cases finals with
    | nil => exact hhead
    | cons => rfl
  refine ⟨annotated ++ (finals ++ (body ++ [semicolon])), by simp [heq], ?_⟩
  refine .marked ?_ hlead (hall _ hhead') (hfinals.congr hhead) hbody hsemicolon hdeclared
  cases annotated with
  | cons t annotated => exact congrArg some (List.cons.inj heq).1.symm
  | nil =>
    cases hfinals with
    | present h => exact congrArg some (List.cons.inj heq).1.symm
    | absent h =>
      rw [List.nil_append, List.nil_append] at heq
      rw [← heq] at h
      rcases Bool.or_eq_true _ _ ▸ hlead with hstart | hstart
      · exact absurd rfl (hat hstart)
      · exact absurd hstart (by simp only [sees] at h; simp [h])

lemma spellsLeaf_of_unsupported {start : Token} {construct : String} {ts rest : Phrase}
    {s : Statement}
    (hconstruct : start.isWord unsupportedWords ∧ construct = start.text ∨
      start.is "\x7b" ∧ construct = "block")
    (h : unsupportedStatement construct start (start :: ts) = .ok (s, rest)) :
    ∃ used, start :: ts = used ++ rest ∧ SpellsLeaf s used rest := by
  obtain ⟨⟨last, left⟩, hskip, hread⟩ := bind_eq_ok_iff.mp h
  obtain ⟨rfl, rfl⟩ := hread
  obtain ⟨used, rfl, hused, hon⟩ := skipStatement_of_used hskip
  refine ⟨start :: used, rfl, ?_⟩
  rcases hconstruct with ⟨hstart, rfl⟩ | ⟨hstart, rfl⟩
  · exact .unsupported hstart hused hon
  · exact .braces hstart hused hon

end FlowCanvas.Parser
