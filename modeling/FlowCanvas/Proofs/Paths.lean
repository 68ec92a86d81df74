import FlowCanvas.Path
import Mathlib

/-!
# Paths by their names

The names in a path are the pieces between its slashes that name something. A folder has the names
of a file in it but for the last one, and joining two paths puts the names of the second behind
those of the first.
-/

namespace FlowCanvas

namespace Text

lemma pieces_eq_splitOn (mark : Char) (cs : List Char) : pieces mark cs = cs.splitOn mark := by
  induction cs with
  | nil => rfl
  | cons c cs ih =>
    obtain ⟨p, ps, hps⟩ := List.exists_cons_of_ne_nil (List.splitOn_ne_nil mark cs)
    rw [pieces, ih, hps, List.splitOn_cons_eq_if_modifyHead, hps]
    by_cases hc : c = mark <;> simp [hc]

lemma not_mem_of_mem_splitOn {mark : Char} {cs p : List Char} (h : p ∈ cs.splitOn mark) :
    mark ∉ p := by
  induction cs generalizing p with
  | nil =>
    obtain rfl := List.mem_singleton.mp h
    exact List.not_mem_nil
  | cons c cs ih =>
    obtain ⟨q, qs, hqs⟩ := List.exists_cons_of_ne_nil (List.splitOn_ne_nil mark cs)
    rw [List.splitOn_cons_eq_if_modifyHead, hqs] at h
    rw [hqs] at ih
    split_ifs at h with hc
    · rcases List.mem_cons.mp h with rfl | hmem
      · exact List.not_mem_nil
      · exact ih hmem
    · rcases List.mem_cons.mp h with rfl | hmem
      · have hne : mark ≠ c := fun heq => hc (by simp [heq])
        exact List.not_mem_cons_of_ne_of_not_mem hne (ih List.mem_cons_self)
      · exact ih (List.mem_cons_of_mem q hmem)

end Text

namespace Path

/-! ### The names in a path -/

/-- The pieces of a text between slashes, without empty ones and single points. -/
def namesIn (cs : List Char) : List (List Char) :=
  (cs.splitOn '/').filter fun piece => piece ≠ [] ∧ piece ≠ ['.']

/-- The names in a path. -/
def names (p : Path) : List (List Char) := namesIn p.text.toList

/-- A path that starts with a slash. -/
def Rooted (p : Path) : Prop := p.text.toList.head? = some '/'

lemma namesIn_eq (cs : List Char) : namesIn cs = (cs.splitOn '/').filter (!isFiller ·) := by
  refine List.filter_congr fun piece _ => ?_
  by_cases hempty : piece = [] <;> by_cases hpoint : piece = ['.'] <;>
    simp [isFiller, hempty, hpoint]

lemma namesIn_append (xs ys : List Char) :
    namesIn (xs ++ '/' :: ys) = namesIn xs ++ namesIn ys := by
  rw [namesIn, List.splitOn_append_cons_self, List.filter_append]
  rfl

/-- Only a text that starts with a slash has an empty piece in front of another. -/
lemma head?_eq_slash_iff (cs : List Char) :
    cs.head? = some '/' ↔ ∃ q qs, cs.splitOn '/' = [] :: q :: qs := by
  cases cs with
  | nil => simp
  | cons c cs =>
    obtain ⟨p, ps, hps⟩ := List.exists_cons_of_ne_nil (List.splitOn_ne_nil '/' cs)
    by_cases hc : c = '/' <;> simp [List.splitOn_cons_eq_if_modifyHead, hc, hps]

/-- The text in front of the body of a path. -/
def start (p : Path) : List Char :=
  if p.parts.root then ['/'] else if p.parts.leadingPoint then ['.', '/'] else []

/-- A path has the pieces of its body behind a piece that names nothing. -/
lemma splitOn_eq (p : Path) : p.text.toList.splitOn '/' =
    (if p.parts.root then [[]] else if p.parts.leadingPoint then [['.']] else []) ++
      p.parts.body := by
  obtain ⟨first, rest, hsplit⟩ :=
    List.exists_cons_of_ne_nil (List.splitOn_ne_nil '/' p.text.toList)
  rw [parts, Text.pieces_eq_splitOn, hsplit]
  dsimp only
  split_ifs with hroot hpoint <;> simp_all

lemma rooted_iff (p : Path) : p.Rooted ↔ p.parts.root := by
  obtain ⟨first, rest, hsplit⟩ :=
    List.exists_cons_of_ne_nil (List.splitOn_ne_nil '/' p.text.toList)
  rw [Rooted, head?_eq_slash_iff, parts, Text.pieces_eq_splitOn, hsplit]
  cases rest <;> by_cases hfirst : first = [] <;> by_cases hpoint : first = ['.'] <;>
    simp [hfirst, hpoint]

lemma leadingPoint_of_root {p : Path} (h : p.parts.root) : p.parts.leadingPoint = false := by
  obtain ⟨first, rest, hsplit⟩ :=
    List.exists_cons_of_ne_nil (List.splitOn_ne_nil '/' p.text.toList)
  rw [parts, Text.pieces_eq_splitOn, hsplit] at h ⊢
  dsimp only at h ⊢
  split_ifs at h ⊢
  rfl

lemma trimBody_eq (body : List (List Char)) : trimBody body = body.rdropWhile isFiller := rfl

lemma names_eq (p : Path) : p.names = p.parts.body.filter (!isFiller ·) := by
  rw [names, namesIn_eq, splitOn_eq, List.filter_append]
  split_ifs <;> rfl

/-! ### Folders -/

/-- The pieces in front of the last name of a path. -/
def folders (p : Path) : List (List Char) := trimBody (trimBody p.parts.body).dropLast

lemma filter_trimBody (body : List (List Char)) :
    (trimBody body).filter (!isFiller ·) = body.filter (!isFiller ·) := by
  induction body using List.reverseRecOn with
  | nil => rfl
  | append_singleton body piece ih =>
    rw [trimBody_eq, List.rdropWhile_concat]
    split_ifs with hpiece
    · rw [← trimBody_eq, ih, List.filter_append, List.filter_cons_of_neg (by simp [hpiece]),
        List.filter_nil, List.append_nil]
    · rfl

/-- What is left of a body ends with a name. -/
lemma trimBody_cases (body : List (List Char)) : trimBody body = [] ∨
    ∃ init last, trimBody body = init ++ [last] ∧ isFiller last = false := by
  rcases List.eq_nil_or_concat (trimBody body) with hnil | ⟨init, last, hlast⟩
  · exact .inl hnil
  · rw [List.concat_eq_append] at hlast
    have hne : body.rdropWhile isFiller ≠ [] := by simp [← trimBody_eq, hlast]
    refine .inr ⟨init, last, hlast, ?_⟩
    simpa [← trimBody_eq, hlast] using List.rdropWhile_last_not isFiller body hne

lemma folders_cases (p : Path) : p.folders = [] ∨
    ∃ init last, p.folders = init ++ [last] ∧ isFiller last = false :=
  trimBody_cases (trimBody p.parts.body).dropLast

lemma names_eq_nil_iff (p : Path) : p.names = [] ↔ trimBody p.parts.body = [] := by
  rw [names_eq, ← filter_trimBody]
  rcases trimBody_cases p.parts.body with hnil | ⟨init, last, hlast, hname⟩
  · simp [hnil]
  · simp [hlast, hname]

/-- The names of the folders are those of the path but for the last one. -/
lemma filter_folders (p : Path) : p.folders.filter (!isFiller ·) = p.names.dropLast := by
  rw [folders, filter_trimBody, names_eq, ← filter_trimBody p.parts.body]
  rcases trimBody_cases p.parts.body with hnil | ⟨init, last, hlast, hname⟩
  · rw [hnil]
    rfl
  · rw [hlast, List.filter_append, List.filter_cons_of_pos (by simp [hname]), List.filter_nil,
      List.dropLast_concat, List.dropLast_concat]

/-- The body of a path has more behind its folders. -/
lemma exists_body_eq {p : Path} (h : p.names ≠ []) :
    ∃ piece rest, p.parts.body = p.folders ++ piece :: rest := by
  obtain ⟨init, last, hlast, -⟩ :=
    (trimBody_cases p.parts.body).resolve_left (mt (names_eq_nil_iff p).mpr h)
  obtain ⟨rest, hrest⟩ := List.rdropWhile_prefix isFiller (l := p.parts.body)
  obtain ⟨skipped, hskipped⟩ := List.rdropWhile_prefix isFiller (l := init)
  rw [← trimBody_eq, hlast] at hrest
  have hfolders : p.folders ++ skipped = init := by
    rw [folders, hlast, List.dropLast_concat, trimBody_eq, hskipped]
  have hbody : p.parts.body = p.folders ++ (skipped ++ last :: rest) := by
    rw [← hrest, ← hfolders]
    simp
  cases skipped with
  | nil => exact ⟨last, rest, hbody⟩
  | cons piece skipped => exact ⟨piece, skipped ++ last :: rest, hbody⟩

lemma not_mem_of_mem_folders {p : Path} (hnames : p.names ≠ []) {piece : List Char}
    (h : piece ∈ p.folders) : '/' ∉ piece := by
  obtain ⟨next, rest, hbody⟩ := exists_body_eq hnames
  have hmem : piece ∈ p.text.toList.splitOn '/' := by
    rw [splitOn_eq, hbody]
    exact List.mem_append_right _ (List.mem_append_left _ h)
  exact Text.not_mem_of_mem_splitOn hmem

/-- Pieces with a slash behind each of them. -/
def closed (ps : List (List Char)) : List Char := ps.flatMap (· ++ ['/'])

lemma intercalate_concat (ps : List (List Char)) (last : List Char) :
    ['/'].intercalate (ps ++ [last]) = closed ps ++ last := by
  induction ps with
  | nil => simp [closed, List.intercalate]
  | cons p ps ih =>
    obtain ⟨q, qs, hqs⟩ : ∃ q qs, ps ++ [last] = q :: qs :=
      List.exists_cons_of_ne_nil (by simp)
    rw [hqs] at ih
    have hjoined : ['/'].intercalate (p :: q :: qs) = p ++ '/' :: ['/'].intercalate (q :: qs) := by
      simp [List.intercalate]
    rw [List.cons_append, hqs, hjoined, ih]
    simp [closed]

lemma splitOn_closed {ps : List (List Char)} (h : ∀ p ∈ ps, '/' ∉ p) (cs : List Char) :
    (closed ps ++ cs).splitOn '/' = ps ++ cs.splitOn '/' := by
  induction ps with
  | nil => rfl
  | cons p ps ih =>
    have hfirst : closed (p :: ps) ++ cs = p ++ '/' :: (closed ps ++ cs) := by simp [closed]
    rw [hfirst, List.splitOn_append_cons_self, List.splitOn_eq_singleton (h p List.mem_cons_self),
      ih fun q hq => h q (List.mem_cons_of_mem p hq)]
    rfl

/-- A relative path is put behind a text with a slash between them, unless the text is empty or has
one at its end. -/
lemma toList_join {p q : Path} (hq : ¬q.Rooted) :
    (p.join q).text.toList =
      if p.text.toList = [] ∨ p.text.toList.getLast? = some '/' then
        p.text.toList ++ q.text.toList
      else p.text.toList ++ '/' :: q.text.toList := by
  have hrelative : ¬q.isAbsolute = true := mt (rooted_iff q).mpr hq
  have hcondition : (p.text.isEmpty || p.text.toList.getLast? == some '/') = true ↔
      p.text.toList = [] ∨ p.text.toList.getLast? = some '/' := by
    simp [String.isEmpty_iff]
  rw [join, if_neg hrelative]
  simp only [hcondition]
  split_ifs <;> simp [String.toList_append]

/-- The text of a folder: the folders that it is in and its own name, or what the path starts
with. -/
lemma exists_parent {file : Path} (h : file.names ≠ []) : ∃ folder, file.parent? = some folder ∧
    folder.text.toList =
      if file.folders = [] then if file.start = ['.', '/'] then ['.'] else file.start
      else file.start ++ ['/'].intercalate file.folders := by
  obtain ⟨init, last, hlast, -⟩ :=
    (trimBody_cases file.parts.body).resolve_left (mt (names_eq_nil_iff file).mpr h)
  have hbody : (init ++ [last]).dropLast = init := List.dropLast_concat
  have hfolders : file.folders = trimBody init := by rw [folders, hlast, hbody]
  obtain ⟨first, rest, hne⟩ := List.exists_cons_of_ne_nil (show init ++ [last] ≠ [] by simp)
  rw [hfolders, start]
  unfold parent?
  rw [hlast, hne]
  dsimp only
  rw [← hne, hbody]
  cases trimBody init with
  | nil =>
    refine ⟨_, rfl, ?_⟩
    cases hroot : file.parts.root with
    | true =>
      rw [leadingPoint_of_root hroot]
      rfl
    | false => cases file.parts.leadingPoint <;> rfl
  | cons piece pieces =>
    refine ⟨_, rfl, ?_⟩
    rw [if_neg (List.cons_ne_nil piece pieces), String.toList_append, String.toList_intercalate,
      List.map_map]
    have hmap : (piece :: pieces).map (String.toList ∘ String.ofList) = piece :: pieces := by
      simp [Function.comp_def]
    rw [hmap]
    congr 1
    cases file.parts.root <;> cases file.parts.leadingPoint <;> rfl

/-- The text of what a relative name stands for in the folder of a file. -/
lemma toList_beside {file name : Path} (hname : ¬name.Rooted) :
    ((file.parent?.getD ⟨""⟩).join name).text.toList =
      if file.names = [] then name.text.toList
      else file.start ++ (closed file.folders ++ name.text.toList) := by
  split_ifs with hnames
  · have hparent : file.parent?.getD ⟨""⟩ = ⟨""⟩ := by
      rw [parent?, (names_eq_nil_iff file).mp hnames]
      dsimp only
      split_ifs <;> rfl
    rw [toList_join hname, hparent]
    rfl
  · obtain ⟨folder, hfolder, htext⟩ := exists_parent hnames
    rw [hfolder, Option.getD_some, toList_join hname]
    rcases folders_cases file with hnil | ⟨init, last, hconcat, hfiller⟩
    · rw [htext, if_pos hnil, hnil, start]
      cases file.parts.root <;> cases file.parts.leadingPoint <;> simp [closed]
    · -- The last folder has a name, which does not end with a slash.
      obtain ⟨c, hc⟩ : ∃ c, last.getLast? = some c := by
        cases h : last.getLast? with
        | none => simp [List.getLast?_eq_none_iff.mp h, isFiller] at hfiller
        | some c => exact ⟨c, rfl⟩
      have hslash : c ≠ '/' := by
        rintro rfl
        exact not_mem_of_mem_folders hnames (hconcat ▸ List.mem_concat_self)
          (List.mem_of_getLast? hc)
      have hlast : last ≠ [] := by
        rintro rfl
        simp at hc
      rw [if_neg (by simp [hconcat]), hconcat, intercalate_concat] at htext
      rw [htext, if_neg (by simp [hc, hslash, hlast]), hconcat]
      simp [closed]

/-! ### Files next to each other -/

/-- A path leads to what a name stands for in the folder of a file: an absolute name stands for
itself, and any other one is looked up in the folder. The folder has the names of the file but for
the last one; a file without names has none. -/
structure Beside (file : Path) (name : String) (path : Path) : Prop where
  joined : path = (file.parent?.getD ⟨""⟩).join ⟨name⟩
  absolute : Rooted ⟨name⟩ → path.text = name
  names : ¬Rooted ⟨name⟩ → path.names = file.names.dropLast ++ Path.names ⟨name⟩
  rooted : ¬Rooted ⟨name⟩ → (path.Rooted ↔ file.Rooted ∧ file.names ≠ [])

lemma namesIn_start (p : Path) (cs : List Char) : namesIn (p.start ++ cs) = namesIn cs := by
  rw [start]
  split_ifs
  · exact namesIn_append [] cs
  · exact namesIn_append ['.'] cs
  · rfl

lemma rooted_beside {file name : Path} (hname : ¬name.Rooted) (hnames : file.names ≠ []) :
    (file.start ++ (closed file.folders ++ name.text.toList)).head? = some '/' ↔ file.Rooted := by
  have hclosed := splitOn_closed (fun p hp => not_mem_of_mem_folders hnames hp) name.text.toList
  obtain ⟨piece, rest, hbody⟩ := exists_body_eq hnames
  rw [start, rooted_iff]
  split_ifs with hroot hpoint
  · simp [hroot]
  · simp [hroot]
  · refine iff_of_false (fun hhead => ?_) hroot
    obtain ⟨q, qs, hsplit⟩ := (head?_eq_slash_iff _).mp hhead
    rw [List.nil_append, hclosed] at hsplit
    cases hfolders : file.folders with
    | nil =>
      rw [hfolders, List.nil_append] at hsplit
      exact hname ((head?_eq_slash_iff _).mpr ⟨q, qs, hsplit⟩)
    | cons first folders =>
      -- A body with an empty piece in front of another is the one of an absolute path.
      rw [hfolders, List.cons_append, List.cons.injEq] at hsplit
      refine hroot ((rooted_iff file).mp ((head?_eq_slash_iff _).mpr ?_))
      rw [splitOn_eq, if_neg hroot, if_neg hpoint, List.nil_append, hbody, hfolders, hsplit.1,
        List.cons_append]
      cases folders with
      | nil => exact ⟨piece, rest, rfl⟩
      | cons second others => exact ⟨second, others ++ piece :: rest, rfl⟩

/-- The folder of a file joined with a name leads to what the name stands for in that folder. -/
theorem beside_join (file : Path) (name : String) :
    Beside file name ((file.parent?.getD ⟨""⟩).join ⟨name⟩) where
  joined := rfl
  absolute hname := by rw [join, isAbsolute, if_pos ((rooted_iff ⟨name⟩).mp hname)]
  names hname := by
    rw [Path.names, toList_beside hname]
    split_ifs with hnames
    · rw [hnames]
      rfl
    · have hslash : ∀ piece ∈ file.folders, '/' ∉ piece := fun _ =>
        not_mem_of_mem_folders hnames
      rw [namesIn_start, namesIn_eq, splitOn_closed hslash, List.filter_append, filter_folders,
        ← namesIn_eq]
      rfl
  rooted hname := by
    rw [Rooted, toList_beside hname]
    split_ifs with hnames
    · exact iff_of_false hname fun hboth => hboth.2 hnames
    · rw [rooted_beside hname hnames, and_iff_left hnames]

end Path

end FlowCanvas
