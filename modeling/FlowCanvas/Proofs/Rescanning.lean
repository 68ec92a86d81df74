import FlowCanvas.Proofs.Seams

/-!
# Texts that are scanned as phrases

A text is put together from phrases of a source and from words and marks between them. It is scanned
as these tokens when every one of them ends in front of what it cannot grow into.
-/

namespace FlowCanvas

/-! ### Tokens without a place -/

namespace Token

/-- A word behind some layout. -/
def word (gap text : String) : Token := ⟨.identifier, text, gap, default⟩

/-- A mark behind some layout. -/
def mark (gap text : String) : Token := ⟨.punctuation, text, gap, default⟩

end Token

namespace Phrase

/-- The phrase with other layout in front of it. -/
def behind (gap : String) : Phrase → Phrase
  | [] => []
  | t :: ts => { t with gap := gap } :: ts

lemma behind_append {ts : Phrase} (hne : ts ≠ []) (gap : String) (us : Phrase) :
    behind gap (ts ++ us) = behind gap ts ++ us := by
  cases ts with
  | nil => exact absurd rfl hne
  | cons t ts => rfl

lemma copy_behind (gap : String) (ts : Phrase) : Copy ts (behind gap ts) := by
  cases ts with
  | nil => rfl
  | cons t ts => exact .cons ⟨rfl, rfl⟩ rfl

@[simp]
lemma tail_nil : tail [] = "" := rfl

@[simp]
lemma tail_word (gap w : String) (ts : Phrase) :
    tail (Token.word gap w :: ts) = gap ++ w ++ tail ts := tail_cons _ ts

@[simp]
lemma tail_mark (gap m : String) (ts : Phrase) :
    tail (Token.mark gap m :: ts) = gap ++ m ++ tail ts := tail_cons _ ts

lemma tail_behind {ts : Phrase} (hne : ts ≠ []) (gap : String) :
    tail (behind gap ts) = gap ++ text ts := by
  cases ts with
  | nil => exact absurd rfl hne
  | cons t ts => rw [behind, tail_cons, text_cons, String.append_assoc]

/-- A phrase that a mark ends, behind some layout. -/
lemma tail_behind_concat (gap : String) (ts : Phrase) (m : String) :
    tail (behind gap (ts ++ [Token.mark "" m])) = gap ++ text ts ++ m := by
  cases ts with
  | nil => simp [behind, tail_cons, Token.mark, text]
  | cons t ts =>
    rw [behind_append (by simp), tail_append, tail_behind (by simp)]
    simp

lemma tail_flatten (list : List Phrase) : tail list.flatten = String.join (list.map tail) := by
  induction list with
  | nil => rfl
  | cons p list ih =>
    rw [List.flatten_cons, tail_append, ih, List.map_cons, String.join_cons]

end Phrase

namespace Lexer

/-! ### What may follow a mark -/

lemma Safe.append {xs ys : List Char} (hx : Safe xs) (hy : Safe ys) : Safe (xs ++ ys) := by
  cases xs with
  | nil => exact hy
  | cons x xs => exact hx

lemma gap_empty : Gap false "".toList := .nil

lemma gap_space : Gap false " ".toList := .blank rfl .nil

lemma safe_space (s : String) : Safe (" " ++ s).toList := by
  rw [String.toList_append]
  exact safe_cons (by decide) _

lemma starts_points (rest : List Char) : Starts .punctuation "...".toList rest :=
  starts_of_split (by decide) (by decide) (by decide) rfl

/-- Nothing that continues a token reaches past two characters. -/
lemma Tame.behind (xs : List Char) (h : 2 ≤ xs.length) (rest rest' : List Char) :
    Tame (xs ++ rest) (xs ++ rest') := by
  intro e he hpre
  have hshort : e.length ≤ 2 := by
    have hmarks : ∀ x ∈ markTails.map String.toList, x.length ≤ 2 := by decide
    cases he with
    | mark h => exact hmarks _ h
    | slash => simp
    | word => simp
    | fraction => simp
  have hinside : e <+: xs :=
    List.prefix_of_prefix_length_le hpre (List.prefix_append xs rest') (hshort.trans h)
  exact hinside.trans (List.prefix_append xs rest)

/-- Tokens that end with the points of a rest type are read alike in front of every text. -/
lemma Scanned.of_points {here : Place} {xs rest : List Char} {init : Phrase} {points : Token}
    (h : Scanned here xs (init ++ [points]) rest) (hpoints : points.is "...")
    (rest' : List Char) : Scanned here xs (init ++ [points]) rest' := by
  obtain ⟨ys, zs, rfl, hinit, hlast⟩ := h.split
  have hsourced : Sourced [points] := ⟨_, _, _, hlast⟩
  have hmark := hsourced.mark List.mem_cons_self hpoints (by decide)
  cases hlast with
  | @cons _ gap text _ _ kind _ hgap hstart hnil =>
    cases hnil
    obtain ⟨rfl, htext⟩ := Prod.mk.inj hmark
    obtain rfl : text = ['.', '.', '.'] := by simpa [← String.toList_inj] using htext
    have htame := Tame.behind (gap ++ ['.', '.', '.']) (by simp) rest rest'
    refine (hinit.tame ?_).append (.cons hgap (starts_points _) (.nil _ rest'))
    simpa using htame

/-! ### Texts that are scanned as phrases -/

/-- The text of a phrase is scanned as the phrase in front of everything that ends tokens. -/
def Scans (ts : Phrase) : Prop :=
  ∀ (here : Place) (rest : List Char), Safe rest → ∃ us,
    Scanned here (Phrase.tail ts).toList us rest ∧
      ts.map Token.unspanned = us.map Token.unspanned

lemma Scans.nil : Scans [] := fun here rest _ => ⟨[], .nil here rest, rfl⟩

lemma Scans.append {ts us : Phrase} (ht : Scans ts) (hu : Scans us)
    (hsafe : Safe (Phrase.tail us).toList) : Scans (ts ++ us) := by
  intro here rest hrest
  obtain ⟨ts', hts, hsame⟩ := ht here _ (hsafe.append hrest)
  obtain ⟨us', hus, hsame'⟩ := hu (here.advance (Phrase.tail ts).toList) rest hrest
  refine ⟨ts' ++ us', ?_, by rw [List.map_append, List.map_append, hsame, hsame']⟩
  rw [Phrase.tail_append, String.toList_append]
  exact hts.append hus

lemma Scans.cons {t : Token} {ts : Phrase} (hgap : Gap false t.gap.toList)
    (hstart : ∀ rest, Safe rest → Starts t.kind t.text.toList ((Phrase.tail ts).toList ++ rest))
    (h : Scans ts) : Scans (t :: ts) := by
  intro here rest hrest
  obtain ⟨us, hus, hsame⟩ := h ((here.advance t.gap.toList).advance t.text.toList) rest hrest
  refine ⟨_, by simpa [Phrase.tail_cons] using Scanned.cons hgap (hstart rest hrest) hus, ?_⟩
  rw [List.map_cons, List.map_cons, hsame]
  simp [Token.unspanned]

/-- A word that ends in front of a blank ends in front of everything that ends tokens. -/
lemma Scans.word {gap text : String} (hgap : Gap false gap.toList)
    (h : Starts .identifier text.toList [' ']) {ts : Phrase} (hts : Scans ts)
    (hsafe : Safe (Phrase.tail ts).toList) : Scans (Token.word gap text :: ts) :=
  .cons hgap (fun _ hrest => h.tame ((hsafe.append hrest).tame [' '])) hts

lemma Scans.mark {gap text : String} (hgap : Gap false gap.toList)
    (h : Starts .punctuation text.toList [' ']) {ts : Phrase} (hts : Scans ts)
    (hsafe : Safe (Phrase.tail ts).toList) : Scans (Token.mark gap text :: ts) :=
  .cons hgap (fun _ hrest => h.tame ((hsafe.append hrest).tame [' '])) hts

/-- Scanned tokens are scanned again behind any layout. -/
lemma Scanned.behind {here : Place} {xs rest : List Char} {ts : Phrase}
    (h : Scanned here xs ts rest) {gap : String} (hgap : Gap false gap.toList) (there : Place) :
    ∃ us, Scanned there (Phrase.tail (Phrase.behind gap ts)).toList us rest ∧
      (Phrase.behind gap ts).map Token.unspanned = us.map Token.unspanned := by
  cases h with
  | nil => exact ⟨[], .nil there rest, rfl⟩
  | @cons _ _ text _ _ kind _ _ hstart hrest =>
    obtain ⟨us, hus, hsame⟩ := hrest.moved ((there.advance gap.toList).advance text)
    have hscanned := Scanned.cons hgap hstart hus
    refine ⟨_, by simpa [Phrase.behind, Phrase.tail_cons, ← hrest.chars] using hscanned, ?_⟩
    rw [Phrase.behind, List.map_cons, List.map_cons, hsame]
    simp [Token.unspanned]

lemma scans_behind {ts : Phrase} (h : Sourced ts) {gap : String} (hgap : Gap false gap.toList) :
    Scans (Phrase.behind gap ts) := by
  intro here rest hrest
  obtain ⟨_, _, left, hscanned⟩ := h
  exact (hscanned.tame (hrest.tame left)).behind hgap here

lemma scans_semicolon {gap : String} (hgap : Gap false gap.toList) :
    Scans [Token.mark gap ";"] := by
  have hstart : Starts .punctuation ";".toList [' '] :=
    starts_of_split (by decide) (by decide) (by decide) rfl
  exact .mark hgap hstart .nil safe_nil

/-- A phrase that a semicolon ends. -/
lemma scans_closed {ts : Phrase} (h : Sourced ts) {gap : String} (hgap : Gap false gap.toList) :
    Scans (Phrase.behind gap (ts ++ [Token.mark "" ";"])) := by
  cases ts with
  | nil => exact scans_semicolon hgap
  | cons t ts =>
    rw [Phrase.behind_append (by simp)]
    exact (scans_behind h hgap).append (scans_semicolon .nil) (safe_cons (by decide) _)

/-- A phrase whose text is scanned as the phrase, also behind any other text. -/
structure Spaced (ts : Phrase) : Prop where
  scans : Scans ts
  safe : Safe (Phrase.tail ts).toList

lemma Spaced.nil : Spaced [] := ⟨.nil, safe_nil⟩

lemma Spaced.append {ts us : Phrase} (ht : Spaced ts) (hu : Spaced us) : Spaced (ts ++ us) := by
  refine ⟨ht.scans.append hu.scans hu.safe, ?_⟩
  rw [Phrase.tail_append, String.toList_append]
  exact ht.safe.append hu.safe

lemma Spaced.flatten {list : List Phrase} (h : ∀ p ∈ list, Spaced p) : Spaced list.flatten := by
  induction list with
  | nil => exact .nil
  | cons p list ih =>
    exact (h p List.mem_cons_self).append (ih fun q hq => h q (List.mem_cons_of_mem p hq))

lemma Spaced.word {text : String} (h : Starts .identifier text.toList [' ']) :
    Spaced [Token.word " " text] := by
  refine ⟨.word gap_space h .nil safe_nil, ?_⟩
  rw [Phrase.tail_word, String.append_assoc]
  exact safe_space _

lemma Spaced.mark {gap text : String} (hgap : Gap false gap.toList)
    (h : Starts .punctuation text.toList [' ']) (hsafe : Safe (gap ++ text).toList) :
    Spaced [Token.mark gap text] := by
  refine ⟨.mark hgap h .nil safe_nil, ?_⟩
  rwa [Phrase.tail_mark, Phrase.tail_nil, String.append_empty]

lemma spaced_behind {ts : Phrase} (h : Sourced ts) : Spaced (Phrase.behind " " ts) := by
  refine ⟨scans_behind h gap_space, ?_⟩
  cases ts with
  | nil => exact safe_nil
  | cons t ts =>
    rw [Phrase.tail_behind (by simp)]
    exact safe_space _

lemma spaced_semicolon : Spaced [Token.mark "" ";"] :=
  ⟨scans_semicolon .nil, safe_cons (by decide) _⟩

lemma spaced_closed {ts : Phrase} (h : Sourced ts) :
    Spaced (Phrase.behind " " (ts ++ [Token.mark "" ";"])) := by
  refine ⟨scans_closed h gap_space, ?_⟩
  rw [Phrase.tail_behind_concat, String.append_assoc]
  exact safe_space _

/-- The text of a phrase is tokenized as a copy of it. -/
lemma tokenize_of_scans {ts : Phrase} (h : Scans ts) :
    ∃ us, tokenize (Phrase.tail ts) = .ok us ∧ ts.Copy us := by
  obtain ⟨us, hus, hsame⟩ := h .origin [] safe_nil
  exact ⟨us, tokenize_of_scanned (List.append_nil _).symm hus rfl, Phrase.copy_of_unspanned hsame⟩

end Lexer

end FlowCanvas
